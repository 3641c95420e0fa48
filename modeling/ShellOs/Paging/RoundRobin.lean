import ShellOs.Paging.Policies
import ShellOs.Paging.Stall

/-! Round robin with as many frames as processes comes to an end. -/

namespace ShellOs.Paging
open Lib
open Kernel (Text)

/-- What a scheduler relies on: stamps, processes that have not run too far, and a frame with a line for whatever they may
look for. -/
structure Runs {σ : Type} (shellFrames good : Nat) (k : KernelState σ) (uses : List Nat) : Prop where
  stamped : StampedBy shellFrames k.store uses
  queue : ∀ pcb ∈ k.queue, pcb.pc ≤ pcb.numberOfCommands ∧ pcb.numberOfCommands ≤ 300
  apart : (k.queue.map PCB.pid).Nodup
  enough : k.queue.length ≤ shellFrames
  inside : good < shellFrames
  lines : ∀ pcb ∈ k.queue, ∀ j < 3, j < pcb.numberOfCommands → (k.store.shellframes good).lines j ≠ none

/-- The lines that are still to be executed, the processes that are still to be terminated, and the frames to be filled. -/
def remaining {σ : Type} (shellFrames : Nat) (k : KernelState σ) : Nat :=
  (k.queue.map fun pcb => pcb.numberOfCommands - pcb.pc + 1).sum + (k.store.empties shellFrames).card

def Finishes {σ : Type} (shellFrames : Nat) (parseInput : Text → σ → σ) (quanta : Nat) (k : KernelState σ) : Prop :=
  ∃ fuel after, schedulerRR shellFrames parseInput quanta fuel k = some after ∧ after.queue = []

section turn

variable {σ : Type} {shellFrames good quanta : Nat} {parseInput : Text → σ → σ} {k after : KernelState σ} {cur : PCB}
  {rest : List PCB} {uses uses' : List Nat} {left : Option PCB}

theorem Outcome.runs (runs : Runs shellFrames good k uses) (queue : k.queue = cur :: rest)
    (outcome : Outcome shellFrames cur { k with queue := rest } uses left after uses') :
    Runs shellFrames good { after with queue := rest ++ left.toList } uses' := by
  have member : ∀ pcb ∈ rest ++ left.toList, ∃ old ∈ k.queue, pcb.job = old.job ∧
      (pcb.pc ≤ pcb.numberOfCommands ∧ pcb.numberOfCommands ≤ 300) := by
    intro pcb member
    rw [queue]
    rcases List.mem_append.mp member with waiting | back
    · have later := List.mem_cons_of_mem cur waiting
      exact ⟨pcb, later, rfl, runs.queue pcb (queue ▸ later)⟩
    · obtain ⟨job, -, more, -⟩ := outcome.goes pcb (Option.mem_toList.mp back)
      have number : pcb.numberOfCommands = cur.numberOfCommands := congrArg Job.numberOfCommands job
      have short := (runs.queue cur (queue ▸ List.mem_cons_self)).2
      exact ⟨cur, List.mem_cons_self, job, by omega, by omega⟩
  have pids : ((rest ++ left.toList).map PCB.pid).Sublist (rest.map PCB.pid ++ [cur.pid]) := by
    cases left with
    | none =>
      rw [Option.toList_none, List.append_nil]
      exact List.sublist_append_left ..
    | some next =>
      rw [Option.toList_some, List.map_append, List.map_singleton]
      rw [show next.pid = cur.pid from congrArg Job.pid (outcome.goes next rfl).1]
  have apart := runs.apart
  have enough := runs.enough
  rw [queue, List.map_cons] at apart
  rw [queue, List.length_cons] at enough
  refine ⟨outcome.stamped, fun pcb within => ?_, ?_, ?_, runs.inside, fun pcb within j low more => ?_⟩
  · obtain ⟨-, -, -, bounds⟩ := member pcb within
    exact bounds
  · exact ((List.perm_append_singleton ..).nodup_iff.mpr apart).sublist pids
  · have few : left.toList.length ≤ 1 := Option.length_toList_le
    change (rest ++ left.toList).length ≤ shellFrames
    rw [List.length_append]
    omega
  · obtain ⟨old, was, job, -⟩ := member pcb within
    have number : pcb.numberOfCommands = old.numberOfCommands := congrArg Job.numberOfCommands job
    exact (outcome.fills good).2 j (runs.lines old was j low (number ▸ more))

theorem Stuck.full_or_fewer (stuck : Stuck shellFrames cur k uses left after uses') :
    (∀ i < shellFrames, (k.store.shellframes i).empty = false) ∨
      (after.store.empties shellFrames).card < (k.store.empties shellFrames).card := by
  obtain ⟨frame, next, t, -, rfl, -, -, faulted⟩ := stuck
  by_cases full : ∀ i < shellFrames, (k.store.shellframes i).empty = false
  · exact .inl full
  · obtain ⟨i, low, empty⟩ : ∃ i < shellFrames, (k.store.shellframes i).empty = true := by
      by_contra none'
      refine full fun i low => ?_
      by_contra other
      exact none' ⟨i, low, by simpa using other⟩
    have same := currentLine_frames shellFrames cur k.store
    have fills := (currentLine_fills shellFrames cur k.store).trans faulted.fills
    have was : frame ∈ k.store.empties shellFrames := by
      obtain ⟨lru, there⟩ := same i
      obtain ⟨lru', here⟩ := same frame
      have free := (faulted.chosen.firstEmpty ⟨i, low, by rw [there, empty]⟩).1
      rw [here] at free
      exact mem_empties.mpr ⟨faulted.chosen.inside, free⟩
    have gone : frame ∉ t.empties shellFrames := by
      rw [mem_empties, faulted.full]
      exact fun both => absurd both.2 (by decide)
    exact .inr (Finset.card_lt_card ⟨fills.empties, fun sub => gone (sub was)⟩)

theorem Runs.turn (runs : Runs shellFrames good k uses) (queue : k.queue = cur :: rest) (positive : 0 < quanta)
    (room : (uses.length + 2 * remaining shellFrames k : Nat) ≤ intMax) (parseInput : Text → σ → σ) : ∃ k' uses',
      (∀ fuel, schedulerRR shellFrames parseInput quanta (fuel + 1) k = schedulerRR shellFrames parseInput quanta fuel k') ∧
      Runs shellFrames good k' uses' ∧
      uses'.length + 2 * remaining shellFrames k' ≤ uses.length + 2 * remaining shellFrames k + 2 ∧
      (remaining shellFrames k' < remaining shellFrames k ∨
        (remaining shellFrames k' = remaining shellFrames k ∧ k'.queue.length = k.queue.length ∧
          (∀ i < shellFrames, (k.store.shellframes i).empty = false) ∧
          ∃ frame, StuckTurn shellFrames cur k k' uses uses' frame)) := by
  obtain ⟨within, low⟩ := runs.queue cur (queue ▸ List.mem_cons_self)
  have inside := runs.inside
  have all : remaining shellFrames k = cur.numberOfCommands - cur.pc + 1 +
      (rest.map fun pcb => pcb.numberOfCommands - pcb.pc + 1).sum + (k.store.empties shellFrames).card := by
    rw [remaining, queue, List.map_cons, List.sum_cons]
  obtain ⟨left, after, uses', result, outcome, progress⟩ := @executeProcess_outcome σ shellFrames quanta cur
    { k with queue := rest } uses parseInput positive (by omega) runs.stamped low within (by omega)
  have fewer : (after.store.empties shellFrames).card ≤ (k.store.empties shellFrames).card :=
    Finset.card_le_card outcome.fills.empties
  have after_all : ∀ next, left = some next →
      remaining shellFrames { after with queue := rest ++ left.toList } = cur.numberOfCommands - next.pc + 1 +
        (rest.map fun pcb => pcb.numberOfCommands - pcb.pc + 1).sum + (after.store.empties shellFrames).card := by
    rintro next rfl
    have number : next.numberOfCommands = cur.numberOfCommands :=
      congrArg Job.numberOfCommands (outcome.goes next rfl).1
    rw [remaining, Option.toList_some, List.map_append, List.sum_append, List.map_singleton, List.sum_singleton, number]
    simp only
    omega
  refine ⟨{ after with queue := rest ++ left.toList }, uses', fun fuel => ?_, outcome.runs runs queue, ?_, ?_⟩
  · rw [schedulerRR, schedulerLoop, queue, popHead]
    simp only [result, Option.bind_eq_bind, Option.bind_some]
    cases left with
    | none => rw [show after.queue = rest from outcome.queue, Option.toList_none, List.append_nil]; rfl
    | some next => rw [show after.queue = rest from outcome.queue]; rfl
  · cases left with
    | none =>
      have cost := outcome.ended rfl
      rw [remaining, Option.toList_none, List.append_nil]
      simp only
      omega
    | some next =>
      obtain ⟨-, later, more, cost⟩ := outcome.goes next rfl
      rw [after_all next rfl]
      omega
  · cases left with
    | none =>
      left
      rw [remaining, Option.toList_none, List.append_nil]
      simp only
      omega
    | some next =>
      rw [after_all next rfl, all]
      obtain ⟨-, later, more, -⟩ := outcome.goes next rfl
      rcases progress with forward | stuck
      · have more := forward next rfl
        omega
      · have same : next.pc = cur.pc := by
          obtain ⟨_, _, _, ⟨⟩, -, -, -, faulted⟩ := stuck
          exact faulted.pc
        rcases stuck.full_or_fewer with full | less
        · by_cases less : (after.store.empties shellFrames).card < (k.store.empties shellFrames).card
          · left
            omega
          · right
            refine ⟨by omega, ?_, full, ?_⟩
            · rw [queue, Option.toList_some, List.length_append, List.length_singleton, List.length_cons]
            · obtain ⟨frame, _, t, ⟨⟩, rfl, seen, fault, faulted⟩ := stuck
              exact ⟨frame, ⟨rest, next, queue, rfl, faulted⟩, fault, seen, by omega⟩
        · have taken : (after.store.empties shellFrames).card < (k.store.empties shellFrames).card := less
          left
          omega

end turn

def prepend {α : Type} (first : α) (rest : Nat → α) : Nat → α
  | 0 => first
  | t + 1 => rest t

def stuckBound (shellFrames : Nat) : Nat := shellFrames * shellFrames + 3 * shellFrames

section finish

variable {σ : Type} {shellFrames good quanta processes turns frame : Nat} {parseInput : Text → σ → σ} {k : KernelState σ}
  {cur : PCB} {rest : List PCB} {uses : List Nat} {ks : Nat → KernelState σ} {curs : Nat → PCB} {usess : Nat → List Nat}
  {frames : Nat → Nat}

theorem StuckRun.cons (run : StuckRun shellFrames processes turns good ks curs usess frames)
    (runs : Runs shellFrames good k uses) (queue : k.queue = cur :: rest) (length : k.queue.length = processes)
    (full : ∀ i < shellFrames, (k.store.shellframes i).empty = false)
    (turn : StuckTurn shellFrames cur k (ks 0) uses (usess 0) frame) :
    StuckRun shellFrames processes (turns + 1) good (prepend k ks) (prepend cur curs) (prepend uses usess)
      (prepend frame frames) where
  turn t inside := by
    cases t with
    | zero => exact turn
    | succ t => exact run.turn t (by omega)
  full t inside := by
    cases t with
    | zero => exact full
    | succ t => exact run.full t (by omega)
  apart t inside := by
    cases t with
    | zero => exact runs.apart
    | succ t => exact run.apart t (by omega)
  length t inside := by
    cases t with
    | zero => exact length
    | succ t => exact run.length t (by omega)
  inside := runs.inside
  lines t inside := by
    cases t with
    | zero => exact runs.lines cur (queue ▸ List.mem_cons_self)
    | succ t => exact run.lines t (by omega)

theorem Finishes.next {k' : KernelState σ} (finishes : Finishes shellFrames parseInput quanta k')
    (turn : ∀ fuel, schedulerRR shellFrames parseInput quanta (fuel + 1) k = schedulerRR shellFrames parseInput quanta fuel k') :
    Finishes shellFrames parseInput quanta k := by
  obtain ⟨fuel, after, result, empty⟩ := finishes
  exact ⟨fuel + 1, after, (turn fuel).trans result, empty⟩

theorem finishes_empty (none' : k.queue = []) : Finishes shellFrames parseInput quanta k := by
  refine ⟨1, k, ?_, none'⟩
  rw [schedulerRR, schedulerLoop, none', popHead]

/-- After any number of turns the ready queue is empty, or all of them were for nothing, if those with less to do finish. -/
theorem finishes_or_stuck (positive : 0 < quanta) {work : Nat} (later : ∀ (k' : KernelState σ) (uses' : List Nat),
      Runs shellFrames good k' uses' → remaining shellFrames k' ≤ work →
      (uses'.length + 2 * (stuckBound shellFrames + 3) * remaining shellFrames k' : Nat) ≤ intMax →
      Finishes shellFrames parseInput quanta k')
    (turns : Nat) (runs : Runs shellFrames good k uses) (same : remaining shellFrames k = work + 1)
    (room : (uses.length + 2 * turns + 2 * (work + 1) + 2 + 2 * (stuckBound shellFrames + 2) * work : Nat) ≤ intMax) :
    Finishes shellFrames parseInput quanta k ∨ ∃ ks curs usess frames, ks 0 = k ∧ usess 0 = uses ∧
      StuckRun shellFrames k.queue.length turns good ks curs usess frames := by
  induction turns generalizing k uses with
  | zero =>
    right
    refine ⟨fun _ => k, fun _ => makePCB [] 0 0, fun _ => uses, fun _ => 0, rfl, rfl, ?_⟩
    exact ⟨fun t inside => absurd inside (Nat.not_lt_zero t), fun t inside => absurd inside (Nat.not_lt_zero t),
      fun _ _ => runs.apart, fun _ _ => rfl, runs.inside, fun t inside => absurd inside (Nat.not_lt_zero t)⟩
  | succ turns ih =>
    cases queue : k.queue with
    | nil => exact .inl (finishes_empty queue)
    | cons cur rest =>
      obtain ⟨k', uses', turn, runs', cost, progress⟩ := runs.turn queue positive (by rw [same]; omega) parseInput
      rcases progress with less | ⟨nothing, length, full, frame, stuck⟩
      · left
        refine (later k' uses' runs' (by omega) ?_).next turn
        have bound := Nat.mul_le_mul_left (2 * (stuckBound shellFrames + 2)) (show remaining shellFrames k' ≤ work by omega)
        have split : 2 * (stuckBound shellFrames + 3) * remaining shellFrames k' =
            2 * (stuckBound shellFrames + 2) * remaining shellFrames k' + 2 * remaining shellFrames k' := by
          rw [← Nat.add_mul, Nat.mul_add, Nat.mul_add]
        omega
      · rcases ih runs' (nothing.trans same) (by omega) with finishes | ⟨ks, curs, usess, frames, first, first', run⟩
        · exact .inl (finishes.next turn)
        · right
          rw [length, queue] at run
          refine ⟨prepend k ks, prepend cur curs, prepend uses usess, prepend frame frames, rfl, rfl, ?_⟩
          exact run.cons runs queue (by rw [queue]) full (first ▸ first' ▸ stuck)

/-- With as many frames as processes round robin empties the ready queue, as long as the counter of uses can count. -/
theorem Runs.finishes (runs : Runs shellFrames good k uses) (positive : 0 < quanta) (parseInput : Text → σ → σ)
    (room : (uses.length + 2 * (stuckBound shellFrames + 3) * remaining shellFrames k : Nat) ≤ intMax) :
    Finishes shellFrames parseInput quanta k := by
  induction bound : remaining shellFrames k using Nat.strong_induction_on generalizing k uses with
  | h work ih =>
    cases work with
    | zero =>
      have none' : k.queue = [] := by
        cases queue : k.queue with
        | nil => rfl
        | cons cur rest =>
          rw [remaining, queue, List.map_cons, List.sum_cons] at bound
          omega
      exact finishes_empty none'
    | succ work =>
      have split : 2 * (stuckBound shellFrames + 3) * (work + 1) =
          2 * (stuckBound shellFrames + 2) * work + 2 * work + 2 * (stuckBound shellFrames + 3) := by
        rw [Nat.mul_succ, ← Nat.add_mul, Nat.mul_add 2, Nat.mul_add 2]
      rw [bound, split] at room
      rcases finishes_or_stuck positive (fun k' uses' runs' less room' => ih _ (by omega) runs' room' rfl)
        (stuckBound shellFrames + 1) runs bound (by omega) with finishes | ⟨ks, curs, usess, frames, -, -, run⟩
      · exact finishes
      · have short := run.short runs.enough
        rw [stuckBound] at short
        omega

end finish

end ShellOs.Paging
