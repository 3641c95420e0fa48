import ShellOs.Paging.Turn

/-! Page faults when frames have to be given up: what a turn does to the stamps, and when it is for nothing. -/

namespace ShellOs.Paging
open Lib
open Kernel (Text)

/-- No frame is emptied, and no line is lost without another in its place. -/
def Fills (s t : FrameStore) : Prop := ∀ i, ((s.shellframes i).empty = false → (t.shellframes i).empty = false) ∧
  ∀ j, (s.shellframes i).lines j ≠ none → (t.shellframes i).lines j ≠ none

def touched (shellFrames : Nat) (pcb : PCB) (s : FrameStore) : List Nat :=
  if s.passes shellFrames pcb.pid (pcb.pageTable (pcb.pc / 3)) (pcb.pc % 3 : Nat) then
    [(pcb.pageTable (pcb.pc / 3)).toNat]
  else []

/-- A page fault of a process, with the frame into which the page is read. -/
structure Faulted (shellFrames : Nat) (pcb : PCB) (s : FrameStore) (uses : List Nat) (frame : Nat) (next : PCB)
    (t : FrameStore) : Prop where
  result : pageFault shellFrames pcb s = some (next, t)
  chosen : Chosen shellFrames s uses frame
  job : next.job = pcb.job
  pc : next.pc = pcb.pc
  entry : next.pageTable (pcb.pc / 3) = frame
  stamped : StampedBy shellFrames t (frame :: uses)
  fills : Fills s t
  full : (t.shellframes frame).empty = false
  pids : ∀ i, (t.shellframes i).pid = if i = frame then pcb.pid else (s.shellframes i).pid

section fault

variable {shellFrames frame i : Nat} {s t u : FrameStore} {pcb next : PCB} {uses : List Nat} {fp line : Text} {pid : Int}

theorem Fills.refl (s : FrameStore) : Fills s s := fun _ => ⟨id, fun _ => id⟩

theorem Fills.trans (earlier : Fills s t) (later : Fills t u) : Fills s u := fun i =>
  ⟨fun full => (later i).1 ((earlier i).1 full), fun j line => (later i).2 j ((earlier i).2 j line)⟩

theorem Fills.empties (fills : Fills s t) : t.empties shellFrames ⊆ s.empties shellFrames := by
  intro i member
  obtain ⟨inside, empty⟩ := mem_empties.mp member
  refine mem_empties.mpr ⟨inside, ?_⟩
  cases full : (s.shellframes i).empty with
  | true => rfl
  | false =>
    rw [(fills i).1 full] at empty
    cases empty

theorem loadInto_fills (s : FrameStore) (frame : Nat) (fp : Text) (pid : Int) : Fills s (s.loadInto frame fp pid) := by
  intro i
  by_cases here : i = frame
  · rw [here, loadInto_self]
    refine ⟨fun _ => rfl, fun j line => ?_⟩
    have filled := (fillFrame_lines 3 0 (s.shellframes frame) fp).1 j
    change (fillFrame [0, 1, 2] (s.shellframes frame) fp).1.lines j ≠ none
    rw [show [0, 1, 2] = List.range' 0 3 from rfl, filled]
    split
    · rw [ne_eq, Option.or_eq_none_iff]
      exact fun both => line both.2
    · exact line
  · rw [loadInto_other here]
    exact ⟨id, fun _ => id⟩

theorem currentLine_getLine (shellFrames : Nat) (pcb : PCB) (s : FrameStore) : currentLine shellFrames pcb s =
    s.getLineFromFrameStore shellFrames pcb.pid (pcb.pageTable (pcb.pc / 3)) (pcb.pc % 3 : Nat) := by
  rw [currentLine]
  split
  next absent =>
    have stopped : ¬ s.passes shellFrames pcb.pid (pcb.pageTable (pcb.pc / 3)) (pcb.pc % 3 : Nat) = true := fun passed => by
      have inside := (passes_iff.mp passed).2.1
      omega
    rw [FrameStore.getLineFromFrameStore, if_neg stopped]
  next => rfl

theorem currentLine_frames (shellFrames : Nat) (pcb : PCB) (s : FrameStore) (i : Nat) :
    ∃ lru, (currentLine shellFrames pcb s).2.shellframes i = { s.shellframes i with lru := lru } := by
  rw [currentLine_getLine]
  exact getLine_frames shellFrames s _ _ _ i

theorem currentLine_fills (shellFrames : Nat) (pcb : PCB) (s : FrameStore) : Fills s (currentLine shellFrames pcb s).2 := by
  intro i
  obtain ⟨lru, same⟩ := currentLine_frames shellFrames pcb s i
  rw [same]
  exact ⟨id, fun _ => id⟩

theorem currentLine_again (found : (currentLine shellFrames pcb s).1 = some line) :
    (currentLine shellFrames pcb (currentLine shellFrames pcb s).2).1 = some line := by
  have frames := currentLine_frames shellFrames pcb s
  generalize (currentLine shellFrames pcb s).2 = t at frames
  obtain ⟨lru, same⟩ := frames (pcb.pageTable (pcb.pc / 3)).toNat
  have passes : t.passes shellFrames pcb.pid (pcb.pageTable (pcb.pc / 3)) (pcb.pc % 3 : Nat) =
      s.passes shellFrames pcb.pid (pcb.pageTable (pcb.pc / 3)) (pcb.pc % 3 : Nat) := by
    rw [FrameStore.passes, FrameStore.passes, same]
  rw [currentLine_getLine, FrameStore.getLineFromFrameStore] at found ⊢
  rw [passes]
  split at found
  next passed =>
    rw [if_pos passed, same]
    exact found
  next => cases found

theorem currentLine_stamped (pcb : PCB) (stamped : StampedBy shellFrames s uses) :
    StampedBy shellFrames (currentLine shellFrames pcb s).2 (touched shellFrames pcb s ++ uses) := by
  rw [currentLine_getLine, FrameStore.getLineFromFrameStore, touched]
  split
  next passed =>
    have inside := passes_iff.mp passed
    exact stamped.use (by omega) rfl
  next => exact stamped

theorem touched_length (shellFrames : Nat) (pcb : PCB) (s : FrameStore) : (touched shellFrames pcb s).length ≤ 1 := by
  rw [touched]
  split
  · exact Nat.le_refl 1
  · exact Nat.zero_le 1

theorem pageFault_faulted (pcb : PCB) (some' : 0 < shellFrames) (stamped : StampedBy shellFrames s uses)
    (few : (uses.length : Int) ≤ intMax) (low : pcb.pc / 3 < 100) :
    ∃ frame next t, Faulted shellFrames pcb s uses frame next t := by
  obtain ⟨fp, reads⟩ : ∃ fp, skipCommands pcb.currentCommand pcb.fp.contents = fp := ⟨_, rfl⟩
  obtain ⟨frame, chosen, loads⟩ := loadFrame_spec some' stamped few fp pcb.pid
  have result : pageFault shellFrames pcb s = some
      ({ pcb with
          fp := { pcb.fp with left := (fillFrame [0, 1, 2] (s.shellframes frame) fp).2 }
          pageTable := Function.update pcb.pageTable (pcb.pc / 3) frame }, s.loadInto frame fp pcb.pid) := by
    rw [pageFault, reads, loads]
    simp only [Option.bind_eq_bind, Option.bind_some, setFrame, if_neg (Nat.not_le_of_lt low)]
  refine ⟨frame, _, _, result, chosen, rfl, rfl, ?_, stamped.use chosen.inside rfl, loadInto_fills s frame fp pcb.pid, ?_,
    fun i => ?_⟩
  · exact Function.update_self ..
  · exact congrArg FrameStruct.empty (loadInto_self s frame fp pcb.pid)
  · by_cases here : i = frame
    · rw [if_pos here, here]
      exact congrArg FrameStruct.pid (loadInto_self s frame fp pcb.pid)
    · rw [if_neg here, loadInto_other here]

end fault

section outcome

variable {σ : Type} {shellFrames quanta : Nat} {parseInput : Text → σ → σ} {t : FrameStore} {pcb next : PCB}
  {k after : KernelState σ} {uses uses' : List Nat} {left : Option PCB}

/-- What a turn does with any frames: each line costs two stamps, and a page fault two more. -/
structure Outcome (shellFrames : Nat) (pcb : PCB) (k : KernelState σ) (uses : List Nat) (left : Option PCB)
    (after : KernelState σ) (uses' : List Nat) : Prop where
  queue : after.queue = k.queue
  fills : Fills k.store after.store
  stamped : StampedBy shellFrames after.store uses'
  ended : left = none → uses'.length ≤ uses.length + 2 * (pcb.numberOfCommands - pcb.pc)
  goes : ∀ next, left = some next → next.job = pcb.job ∧ pcb.pc ≤ next.pc ∧ next.pc < pcb.numberOfCommands ∧
    uses'.length ≤ uses.length + 2 * (next.pc - pcb.pc) + 2

def Stuck (shellFrames : Nat) (pcb : PCB) (k : KernelState σ) (uses : List Nat) (left : Option PCB) (after : KernelState σ)
    (uses' : List Nat) : Prop :=
  ∃ frame next t, left = some next ∧ after = { k with store := t } ∧
    uses' = frame :: (touched shellFrames pcb k.store ++ uses) ∧ (currentLine shellFrames pcb k.store).1 = none ∧
    Faulted shellFrames pcb (currentLine shellFrames pcb k.store).2 (touched shellFrames pcb k.store ++ uses) frame next t

theorem Outcome.fault {frame : Nat} (more : pcb.pc < pcb.numberOfCommands)
    (faulted : Faulted shellFrames pcb (currentLine shellFrames pcb k.store).2 (touched shellFrames pcb k.store ++ uses)
      frame next t) :
    Outcome shellFrames pcb k uses (some next) { k with store := t }
      (frame :: (touched shellFrames pcb k.store ++ uses)) where
  queue := rfl
  fills := (currentLine_fills shellFrames pcb k.store).trans faulted.fills
  stamped := faulted.stamped
  ended absurd' := by cases absurd'
  goes _ same := by
    obtain rfl := Option.some_inj.mp same
    have few := touched_length shellFrames pcb k.store
    refine ⟨faulted.job, Nat.le_of_eq faulted.pc.symm, faulted.pc ▸ more, ?_⟩
    rw [List.length_cons, List.length_append]
    omega

theorem Outcome.after_line {shell : σ} {events : List Event} {seen : List Nat} (more : pcb.pc < pcb.numberOfCommands)
    (fills : Fills k.store t) (cost : seen.length ≤ uses.length + 2)
    (outcome : Outcome shellFrames pcb.advance { k with store := t, shell := shell, events := events } seen left after uses') :
    Outcome shellFrames pcb k uses left after uses' where
  queue := outcome.queue
  fills := fills.trans outcome.fills
  stamped := outcome.stamped
  ended stops := by
    have short := outcome.ended stops
    simp only [PCB.advance] at short
    omega
  goes next goesOn := by
    obtain ⟨job, later, still, short⟩ := outcome.goes next goesOn
    simp only [PCB.advance] at later short still
    exact ⟨job, by omega, still, by omega⟩

theorem reads_twice {line : Text} (stamped : StampedBy shellFrames k.store uses)
    (found : (currentLine shellFrames pcb k.store).1 = some line) : ∃ t seen,
      currentLine shellFrames pcb (currentLine shellFrames pcb k.store).2 = (some line, t) ∧
      StampedBy shellFrames t seen ∧ Fills k.store t ∧ seen.length ≤ uses.length + 2 := by
  have first := currentLine_stamped pcb stamped
  have few := touched_length shellFrames pcb k.store
  have few' := touched_length shellFrames pcb (currentLine shellFrames pcb k.store).2
  refine ⟨_, _, Prod.ext (currentLine_again found) rfl, currentLine_stamped pcb first,
    (currentLine_fills shellFrames pcb k.store).trans (currentLine_fills shellFrames pcb _), ?_⟩
  rw [List.length_append, List.length_append]
  omega

theorem runQuanta_outcome (parseInput : Text → σ → σ) (quanta : Nat) (some' : 0 < shellFrames)
    (stamped : StampedBy shellFrames k.store uses) (low : pcb.numberOfCommands ≤ 300) (more : pcb.pc < pcb.numberOfCommands)
    (few : (uses.length + 2 * (pcb.numberOfCommands - pcb.pc) + 2 : Nat) ≤ intMax) : ∃ left after uses',
      runQuanta shellFrames parseInput quanta pcb k = some (left, after) ∧
      Outcome shellFrames pcb k uses left after uses' ∧
      (0 < quanta → (∀ next, left = some next → pcb.pc < next.pc) ∨ Stuck shellFrames pcb k uses left after uses') := by
  induction quanta generalizing pcb k uses with
  | zero =>
    refine ⟨some pcb, k, uses, rfl, ⟨rfl, Fills.refl k.store, stamped, fun absurd' => (by cases absurd'), ?_⟩,
      fun absurd' => absurd absurd' (Nat.lt_irrefl 0)⟩
    rintro _ ⟨⟩
    exact ⟨rfl, Nat.le_refl _, more, by omega⟩
  | succ quanta ih =>
    rw [runQuanta]
    cases found : (currentLine shellFrames pcb k.store).1 with
    | none =>
      obtain ⟨frame, next, t, faulted⟩ := pageFault_faulted pcb some' (currentLine_stamped pcb stamped)
        (by have short := touched_length shellFrames pcb k.store; rw [List.length_append]; omega) (by omega)
      have both : currentLine shellFrames pcb k.store = (none, (currentLine shellFrames pcb k.store).2) :=
        Prod.ext found rfl
      rw [both]
      simp only [faulted.result, Option.bind_eq_bind, Option.bind_some]
      exact ⟨some next, _, _, rfl, .fault more faulted, fun _ => .inr ⟨frame, next, t, rfl, rfl, rfl, found, faulted⟩⟩
    | some line =>
      obtain ⟨t, seen, again, stamped', fills, cost⟩ := reads_twice stamped found
      have both : currentLine shellFrames pcb k.store = (some line, (currentLine shellFrames pcb k.store).2) :=
        Prod.ext found rfl
      rw [both]
      simp only [again, Option.bind_eq_bind, Option.bind_some]
      by_cases last : pcb.pc + 1 = pcb.numberOfCommands
      · rw [if_pos last]
        refine ⟨none, _, seen, rfl, ⟨rfl, fills, stamped', fun _ => by omega, fun _ absurd' => by cases absurd'⟩, fun _ => ?_⟩
        exact .inl fun _ absurd' => by cases absurd'
      · rw [if_neg last]
        obtain ⟨left, after, uses', result, outcome, -⟩ := @ih pcb.advance
          { k with store := t, shell := parseInput line k.shell, events := k.events ++ [.executed pcb.pid line] } seen
          stamped' low (Nat.lt_of_le_of_ne more last) (by simp only [PCB.advance]; omega)
        exact ⟨left, after, uses', result, outcome.after_line more fills cost, fun _ => .inl fun next goesOn =>
          (outcome.goes next goesOn).2.1⟩

theorem executeProcess_outcome (parseInput : Text → σ → σ) (positive : 0 < quanta) (some' : 0 < shellFrames)
    (stamped : StampedBy shellFrames k.store uses) (low : pcb.numberOfCommands ≤ 300) (within : pcb.pc ≤ pcb.numberOfCommands)
    (few : (uses.length + 2 * (pcb.numberOfCommands - pcb.pc) + 2 : Nat) ≤ intMax) : ∃ left after uses',
      executeProcess shellFrames parseInput quanta pcb k = some (left, after) ∧
      Outcome shellFrames pcb k uses left after uses' ∧
      ((∀ next, left = some next → pcb.pc < next.pc) ∨ Stuck shellFrames pcb k uses left after uses') := by
  rw [executeProcess]
  by_cases last : pcb.pc = pcb.numberOfCommands
  · rw [if_pos last]
    refine ⟨none, _, uses, rfl, ⟨rfl, Fills.refl k.store, stamped, fun _ => by omega, fun _ absurd' => by cases absurd'⟩, ?_⟩
    exact .inl fun _ absurd' => by cases absurd'
  · rw [if_neg last]
    obtain ⟨left, after, uses', result, outcome, progress⟩ :=
      runQuanta_outcome parseInput quanta some' stamped low (Nat.lt_of_le_of_ne within last) few
    exact ⟨left, after, uses', result, outcome, progress positive⟩

end outcome

end ShellOs.Paging
