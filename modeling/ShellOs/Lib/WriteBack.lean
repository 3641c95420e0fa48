import Mathlib.Logic.Function.Basic
import Mathlib.Tactic.Common

/-! A write-back cache over a backing store, for any type of slots, addresses and values.
The replacement policy is left open: a client chooses the slot, the operations here say
what may be done with it and what every choice has in common. -/

namespace ShellOs.Lib.WriteBack

variable {ι α β : Type*}

/-- A cached copy of one address; `dirty` when the backing store has not seen it yet. -/
structure Line (α β : Type*) where
  addr : α
  value : β
  dirty : Bool

structure Cached (ι α β : Type*) where
  lines : ι → Option (Line α β)
  backing : α → β

/-- No address sits in two slots, and a clean copy equals the backing store. -/
structure Coherent (c : Cached ι α β) : Prop where
  unique : ∀ i j first second, c.lines i = some first → c.lines j = some second →
    first.addr = second.addr → i = j
  clean : ∀ i line, c.lines i = some line → line.dirty = false → line.value = c.backing line.addr

def Absent (c : Cached ι α β) (a : α) : Prop :=
  ∀ i line, c.lines i = some line → line.addr ≠ a

open scoped Classical in
/-- What a client sees at an address: the cached copy if there is one, else the backing store. -/
noncomputable def view (c : Cached ι α β) (a : α) : β :=
  if cached : ∃ line, ∃ i, c.lines i = some line ∧ line.addr = a then cached.choose.value
  else c.backing a

theorem view_of_line {c : Cached ι α β} (coherent : Coherent c) {i : ι} {line : Line α β}
    (held : c.lines i = some line) : view c line.addr = line.value := by
  have cached : ∃ other, ∃ j, c.lines j = some other ∧ other.addr = line.addr := ⟨line, i, held, rfl⟩
  unfold view
  rw [dif_pos cached]
  obtain ⟨j, found, same⟩ := cached.choose_spec
  have slots : j = i := coherent.unique j i _ _ found held same
  subst slots
  rw [held] at found
  exact congrArg Line.value (Option.some.inj found).symm

theorem view_of_absent {c : Cached ι α β} {a : α} (absent : Absent c a) :
    view c a = c.backing a := by
  unfold view
  rw [dif_neg]
  rintro ⟨line, i, held, same⟩
  exact absent i line held same

theorem view_ext {c : Cached ι α β} (coherent : Coherent c) (target : α → β)
    (lines : ∀ i line, c.lines i = some line → target line.addr = line.value)
    (rest : ∀ a, Absent c a → target a = c.backing a) : view c = target := by
  funext a
  by_cases cached : ∃ line, ∃ i, c.lines i = some line ∧ line.addr = a
  · obtain ⟨line, i, held, rfl⟩ := cached
    rw [view_of_line coherent held, lines i line held]
  · have absent : Absent c a := fun i line held same => cached ⟨line, i, held, same⟩
    rw [view_of_absent absent, rest a absent]

theorem backing_of_clean {c : Cached ι α β} (coherent : Coherent c)
    (clean : ∀ i line, c.lines i = some line → line.dirty = false) : view c = c.backing :=
  view_ext coherent c.backing
    (fun i line held => (coherent.clean i line held (clean i line held)).symm)
    (fun _ _ => rfl)

def addrAt (c : Cached ι α β) (i : ι) : Option α := (c.lines i).map Line.addr

theorem unique_of_addr {c d : Cached ι α β} (coherent : Coherent c)
    (held : ∀ i a, addrAt d i = some a → addrAt c i = some a) :
    ∀ i j first second, d.lines i = some first → d.lines j = some second →
      first.addr = second.addr → i = j := by
  intro i j first second atI atJ same
  have oldI := held i first.addr (by simp [addrAt, atI])
  have oldJ := held j second.addr (by simp [addrAt, atJ])
  simp only [addrAt, Option.map_eq_some_iff] at oldI oldJ
  obtain ⟨oldFirst, heldI, sameI⟩ := oldI
  obtain ⟨oldSecond, heldJ, sameJ⟩ := oldJ
  exact coherent.unique i j oldFirst oldSecond heldI heldJ (by rw [sameI, sameJ, same])

section slots

variable [DecidableEq ι]

def drop (c : Cached ι α β) (i : ι) : Cached ι α β :=
  { c with lines := Function.update c.lines i none }

def fill (c : Cached ι α β) (i : ι) (a : α) : Cached ι α β :=
  { c with lines := Function.update c.lines i (some ⟨a, c.backing a, false⟩) }

def store (c : Cached ι α β) (i : ι) (b : β) : Cached ι α β :=
  let written := (c.lines i).map fun line => { line with value := b, dirty := true }
  { c with lines := Function.update c.lines i written }

theorem drop_spec {c : Cached ι α β} (coherent : Coherent c) {i : ι}
    (clean : ∀ line, c.lines i = some line → line.dirty = false) :
    Coherent (drop c i) ∧ view (drop c i) = view c := by
  have older : ∀ j line, (drop c i).lines j = some line → j ≠ i ∧ c.lines j = some line := by
    intro j line there
    by_cases same : j = i
    · subst same
      simp [drop] at there
    · exact ⟨same, by simpa [drop, Function.update_of_ne same] using there⟩
  have kept : Coherent (drop c i) := by
    refine ⟨fun j k first second atJ atK equal => ?_, fun j line there isClean => ?_⟩
    · exact coherent.unique j k first second (older j first atJ).2 (older k second atK).2 equal
    · exact coherent.clean j line (older j line there).2 isClean
  refine ⟨kept, view_ext kept (view c) ?_ ?_⟩
  · intro j line there
    exact view_of_line coherent (older j line there).2
  · intro a absent
    by_cases cached : ∃ j line, c.lines j = some line ∧ line.addr = a
    · obtain ⟨j, line, held, rfl⟩ := cached
      have same : j = i := by
        by_contra different
        exact absent j line (by simpa [drop, Function.update_of_ne different] using held) rfl
      subst same
      rw [view_of_line coherent held]
      exact coherent.clean j line held (clean line held)
    · rw [view_of_absent fun j line held equal => cached ⟨j, line, held, equal⟩]
      rfl

theorem fill_spec {c : Cached ι α β} (coherent : Coherent c) {i : ι} {a : α}
    (free : c.lines i = none) (absent : Absent c a) :
    Coherent (fill c i a) ∧ view (fill c i a) = view c := by
  have cases : ∀ j line, (fill c i a).lines j = some line →
      (j = i ∧ line = ⟨a, c.backing a, false⟩) ∨ (j ≠ i ∧ c.lines j = some line) := by
    intro j line there
    by_cases same : j = i
    · subst same
      simp only [fill, Function.update_self, Option.some.injEq] at there
      exact Or.inl ⟨rfl, there.symm⟩
    · exact Or.inr ⟨same, by simpa [fill, Function.update_of_ne same] using there⟩
  have kept : Coherent (fill c i a) := by
    refine ⟨fun j k first second atJ atK equal => ?_, fun j line there isClean => ?_⟩
    · rcases cases j first atJ with ⟨rfl, rfl⟩ | ⟨_, oldJ⟩ <;>
        rcases cases k second atK with ⟨rfl, rfl⟩ | ⟨_, oldK⟩
      · rfl
      · exact absurd equal.symm (absent k second oldK)
      · exact absurd equal (absent j first oldJ)
      · exact coherent.unique j k first second oldJ oldK equal
    · rcases cases j line there with ⟨rfl, rfl⟩ | ⟨_, old⟩
      · rfl
      · exact coherent.clean j line old isClean
  refine ⟨kept, view_ext kept (view c) ?_ ?_⟩
  · intro j line there
    rcases cases j line there with ⟨rfl, rfl⟩ | ⟨_, old⟩
    · exact view_of_absent absent
    · exact view_of_line coherent old
  · intro b missing
    refine (view_of_absent fun j line held equal => ?_).trans rfl
    have different : j ≠ i := by
      rintro rfl
      rw [free] at held
      cases held
    exact missing j line (by simpa [fill, Function.update_of_ne different] using held) equal

variable [DecidableEq α]

def writeBack (c : Cached ι α β) (i : ι) : Cached ι α β :=
  match c.lines i with
  | none => c
  | some line =>
    if line.dirty then
      { lines := Function.update c.lines i (some { line with dirty := false }),
        backing := Function.update c.backing line.addr line.value }
    else c

theorem writeBack_of_clean {c : Cached ι α β} {i : ι} {line : Line α β}
    (held : c.lines i = some line) (clean : line.dirty = false) : writeBack c i = c := by
  simp [writeBack, held, clean]

theorem writeBack_of_dirty {c : Cached ι α β} {i : ι} {line : Line α β}
    (held : c.lines i = some line) (dirty : line.dirty = true) :
    writeBack c i =
      { lines := Function.update c.lines i (some { line with dirty := false }),
        backing := Function.update c.backing line.addr line.value } := by
  simp [writeBack, held, dirty]

theorem writeBack_addr (c : Cached ι α β) (i j : ι) :
    addrAt (writeBack c i) j = addrAt c j := by
  cases held : c.lines i with
  | none => simp [writeBack, held]
  | some line =>
    cases dirty : line.dirty with
    | false => rw [writeBack_of_clean held dirty]
    | true =>
      rw [writeBack_of_dirty held dirty]
      by_cases same : j = i
      · subst same
        simp [addrAt, held]
      · simp [addrAt, Function.update_of_ne same]

theorem writeBack_spec {c : Cached ι α β} (coherent : Coherent c) (i : ι) :
    Coherent (writeBack c i) ∧ view (writeBack c i) = view c := by
  cases held : c.lines i with
  | none => simpa [writeBack, held] using coherent
  | some line =>
    cases dirty : line.dirty with
    | false => rw [writeBack_of_clean held dirty]; exact ⟨coherent, rfl⟩
    | true =>
      have kept : Coherent (writeBack c i) := by
        refine ⟨unique_of_addr coherent fun j a here => by rwa [writeBack_addr] at here, ?_⟩
        rw [writeBack_of_dirty held dirty]
        intro j other there isClean
        by_cases same : j = i
        · subst same
          simp only [Function.update_self, Option.some.injEq] at there
          subst there
          simp
        · simp only [Function.update_of_ne same] at there
          have apart : other.addr ≠ line.addr := fun equal =>
            same (coherent.unique j i other line there held equal)
          simp only [Function.update_of_ne apart]
          exact coherent.clean j other there isClean
      refine ⟨kept, view_ext kept (view c) ?_ ?_⟩
      · rw [writeBack_of_dirty held dirty]
        intro j other there
        by_cases same : j = i
        · subst same
          simp only [Function.update_self, Option.some.injEq] at there
          subst there
          exact (view_of_line coherent held :)
        · simp only [Function.update_of_ne same] at there
          exact view_of_line coherent there
      · intro a absent
        have before : Absent c a := by
          intro j other there equal
          have here : addrAt (writeBack c i) j = some a := by
            rw [writeBack_addr]
            simp [addrAt, there, equal]
          simp only [addrAt, Option.map_eq_some_iff] at here
          obtain ⟨copy, found, addr⟩ := here
          exact absent j copy found addr
        have apart : a ≠ line.addr := fun equal => before i line held equal.symm
        rw [view_of_absent before, writeBack_of_dirty held dirty]
        simp [Function.update_of_ne apart]

theorem store_spec {c : Cached ι α β} (coherent : Coherent c) {i : ι} {line : Line α β}
    (held : c.lines i = some line) (b : β) :
    Coherent (store c i b) ∧ view (store c i b) = Function.update (view c) line.addr b := by
  have cases : ∀ j other, (store c i b).lines j = some other →
      (j = i ∧ other = { line with value := b, dirty := true }) ∨ (j ≠ i ∧ c.lines j = some other) := by
    intro j other there
    by_cases same : j = i
    · subst same
      simp only [store, held, Function.update_self, Option.map_some, Option.some.injEq] at there
      exact Or.inl ⟨rfl, there.symm⟩
    · exact Or.inr ⟨same, by simpa [store, Function.update_of_ne same] using there⟩
  have kept : Coherent (store c i b) := by
    refine ⟨unique_of_addr coherent fun j a here => ?_, fun j other there isClean => ?_⟩
    · simp only [addrAt, Option.map_eq_some_iff] at here ⊢
      obtain ⟨copy, found, rfl⟩ := here
      rcases cases j copy found with ⟨rfl, rfl⟩ | ⟨_, old⟩
      · exact ⟨line, held, rfl⟩
      · exact ⟨copy, old, rfl⟩
    · rcases cases j other there with ⟨rfl, rfl⟩ | ⟨_, old⟩
      · cases isClean
      · exact coherent.clean j other old isClean
  refine ⟨kept, view_ext kept _ ?_ ?_⟩
  · intro j other there
    rcases cases j other there with ⟨rfl, rfl⟩ | ⟨different, old⟩
    · simp
    · have apart : other.addr ≠ line.addr := fun equal =>
        different (coherent.unique j i other line old held equal)
      rw [Function.update_of_ne apart, view_of_line coherent old]
  · intro a absent
    have missing : Absent c a := by
      intro j other there equal
      by_cases same : j = i
      · subst same
        rw [held] at there
        cases there
        exact absent j { line with value := b, dirty := true }
          (by simp [store, held]) equal
      · exact absent j other (by simpa [store, Function.update_of_ne same] using there) equal
    have apart : a ≠ line.addr := fun equal => missing i line held equal.symm
    rw [Function.update_of_ne apart, view_of_absent missing]
    rfl

end slots

end ShellOs.Lib.WriteBack
