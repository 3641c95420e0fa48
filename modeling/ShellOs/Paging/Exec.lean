import Mathlib.Tactic.Common
import ShellOs.Paging.Preload

/-! `exec` of the shell with demand paging (interpreter.c): up to three scripts are put into the ready queue, one after
the other. -/

namespace ShellOs.Paging
open Kernel (Text)

section exec

variable (shellFrames : Nat) (system : Text → Files → Int × Files)

/-- The blocks of `exec`, one for each name: a script that cannot be started is the end of it. -/
def initializeScripts : List (Option Text × Nat) → Session → Option (Int × Session)
  | [], s => some (0, s)
  | (none, _) :: rest, s => initializeScripts rest s
  | (some fname, id) :: rest, s => do
    let (errorCode, s) ← processInitialize shellFrames system fname id s
    if errorCode ≠ 0 then some (errorCode, s) else initializeScripts rest s

/-- The error code, which is not set if there is no error, and the session after the call; `schedule` is the call of
`schedule_by_policy`. -/
def exec (schedule : Session → Option (Int × Session)) (fname1 fname2 fname3 : Option Text) (s : Session) :
    Option (Option Int × Session) := do
  let (errorCode, s) ← initializeScripts shellFrames system [(fname1, 1), (fname2, 2), (fname3, 3)] s
  if errorCode ≠ 0 then some (some errorCode, s)
  else
    let (errorCode, s) ← schedule s
    some (if errorCode ≠ 0 then some errorCode else none, s)

def Unopened (fname : Text) (id : Nat) (s : Session) : Prop :=
  s.files fname = none ∨
    ((copyScriptToBackingStore system fname id s.files).1 = 0 ∧
      (copyScriptToBackingStore system fname id s.files).2 (copyName fname id) = none)

def StopsUnopened : List (Option Text × Nat) → Session → Prop
  | [], _ => False
  | (none, _) :: rest, s => StopsUnopened rest s
  | (some fname, id) :: rest, s => Unopened system fname id s ∨
    ∃ t, processInitialize shellFrames system fname id s = some (0, t) ∧ StopsUnopened rest t

end exec

section atomic

variable {shellFrames id : Nat} {system : Text → Files → Int × Files} {fname : Text} {s t : Session}

theorem processInitialize_unopened (shellFrames : Nat) (closed : Unopened system fname id s) :
    ∃ t, processInitialize shellFrames system fname id s = some (11, t) ∧ t.queue = s.queue := by
  rw [processInitialize]
  rcases closed with absent | ⟨copied, absent⟩
  · exact ⟨s, by rw [absent], rfl⟩
  · cases s.files fname with
    | none => exact ⟨s, rfl, rfl⟩
    | some script =>
      simp only [copied, absent, ne_eq, not_true_eq_false, if_false]
      exact ⟨_, rfl, rfl⟩

theorem processInitialize_queue (result : processInitialize shellFrames system fname id s = some (0, t)) :
    ∃ pcb, t.queue = s.queue ++ [pcb] := by
  obtain ⟨script, fp, pcb, store, files, -, -, -, -, rfl⟩ := processInitialize_started result
  exact ⟨pcb, rfl⟩

theorem initializeScripts_unopened (names : List (Option Text × Nat)) (s : Session)
    (stops : StopsUnopened shellFrames system names s) :
    ∃ t, initializeScripts shellFrames system names s = some (11, t) ∧ s.queue.length ≤ t.queue.length := by
  induction names generalizing s with
  | nil => exact stops.elim
  | cons name rest ih =>
    obtain ⟨fname, id⟩ := name
    cases fname with
    | none => exact ih s stops
    | some fname =>
      rcases stops with closed | ⟨started, result, later⟩
      · obtain ⟨t, result, same⟩ := processInitialize_unopened shellFrames closed
        exact ⟨t, by rw [initializeScripts, result]; rfl, Nat.le_of_eq (congrArg List.length same.symm)⟩
      · obtain ⟨t, stopped, longer⟩ := ih started later
        obtain ⟨pcb, queued⟩ := processInitialize_queue result
        refine ⟨t, by rw [initializeScripts, result]; exact stopped, ?_⟩
        rw [queued, List.length_append] at longer
        omega

/-- An `exec` that fails for a script that cannot be opened leaves the ready queue alone if and only if this script is the
first one. -/
theorem exec_atomic (schedule : Session → Option (Int × Session)) (fname1 : Text) (fname2 fname3 : Option Text)
    (s : Session) (stops : StopsUnopened shellFrames system [(some fname1, 1), (fname2, 2), (fname3, 3)] s) :
    ∃ t, exec shellFrames system schedule (some fname1) fname2 fname3 s = some (some 11, t) ∧
      (t.queue = s.queue ↔ Unopened system fname1 1 s) := by
  by_cases closed : Unopened system fname1 1 s
  · obtain ⟨t, result, same⟩ := processInitialize_unopened shellFrames closed
    refine ⟨t, ?_, iff_of_true same closed⟩
    rw [exec, initializeScripts, result]
    rfl
  · obtain ⟨started, result, later⟩ := stops.resolve_left closed
    obtain ⟨pcb, queued⟩ := processInitialize_queue result
    obtain ⟨t, stopped, longer⟩ := initializeScripts_unopened _ started later
    refine ⟨t, ?_, iff_of_false (fun same => ?_) closed⟩
    · rw [exec, initializeScripts, result]
      simp only [Option.bind_eq_bind, Option.bind_some, ne_eq, not_true_eq_false, if_false, stopped]
      rfl
    · rw [queued, same, List.length_append, List.length_singleton] at longer
      omega

theorem exec_atomic_first : ∃ t,
    exec 3 copiesScript (fun s => some (0, s)) (some "b".toList) (some "a".toList) none freshSession = some (some 11, t) ∧
      (t.queue = freshSession.queue ↔ Unopened copiesScript "b".toList 1 freshSession) :=
  exec_atomic _ _ _ _ _ (.inl (.inl (by decide)))

/-- The second script is not there, and the first one stays in the queue. -/
theorem exec_leaves_first : StopsUnopened 3 copiesScript [(some "a".toList, 1), (some "b".toList, 2), (none, 3)] freshSession ∧
    ∃ t, exec 3 copiesScript (fun s => some (0, s)) (some "a".toList) (some "b".toList) none freshSession =
      some (some 11, t) ∧ t.queue.length = 1 ∧ freshSession.queue = [] :=
  ⟨.inr ⟨_, rfl, .inl (.inl rfl)⟩, _, rfl, rfl, rfl⟩

end atomic

end ShellOs.Paging
