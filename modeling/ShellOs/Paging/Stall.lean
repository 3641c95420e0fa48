import ShellOs.Lib.Thrashing
import ShellOs.Paging.Fault

/-! Round robin does not stand still for long: a run of turns that are all page faults is one in which processes take each
other's frames. -/

namespace ShellOs.Paging
open Lib
open Kernel (Text)

/-- The head of the queue has a page fault and goes to the tail. -/
structure StuckTurn {σ : Type} (shellFrames : Nat) (cur : PCB) (k k' : KernelState σ) (uses uses' : List Nat) (frame : Nat) :
    Prop where
  turn : ∃ rest next, k.queue = cur :: rest ∧ k'.queue = rest ++ [next] ∧
    Faulted shellFrames cur (currentLine shellFrames cur k.store).2 (touched shellFrames cur k.store ++ uses) frame next k'.store
  fault : (currentLine shellFrames cur k.store).1 = none
  uses_eq : uses' = frame :: (touched shellFrames cur k.store ++ uses)
  more : cur.pc < cur.numberOfCommands

/-- Turns that are for nothing, with the process, the uses and the frame of each of them. A frame `good` has a line for
whatever may be looked for. -/
structure StuckRun {σ : Type} (shellFrames processes turns good : Nat) (k : Nat → KernelState σ) (cur : Nat → PCB)
    (uses : Nat → List Nat) (frame : Nat → Nat) : Prop where
  turn : ∀ t < turns, StuckTurn shellFrames (cur t) (k t) (k (t + 1)) (uses t) (uses (t + 1)) (frame t)
  full : ∀ t < turns, ∀ i < shellFrames, ((k t).store.shellframes i).empty = false
  apart : ∀ t ≤ turns, ((k t).queue.map PCB.pid).Nodup
  length : ∀ t ≤ turns, (k t).queue.length = processes
  inside : good < shellFrames
  lines : ∀ t < turns, ∀ j < 3, j < (cur t).numberOfCommands → ((k t).store.shellframes good).lines j ≠ none

section stuck

variable {σ : Type} {shellFrames processes turns good frame i t s j : Nat} {st : FrameStore} {pcb : PCB}
  {k : Nat → KernelState σ} {cur : Nat → PCB} {uses : Nat → List Nat} {frames : Nat → Nat}

theorem passes_line (fault : (currentLine shellFrames pcb st).1 = none)
    (passed : st.passes shellFrames pcb.pid (pcb.pageTable (pcb.pc / 3)) (pcb.pc % 3 : Nat) = true) :
    (st.shellframes (pcb.pageTable (pcb.pc / 3)).toNat).lines (pcb.pc % 3) = none := by
  rw [currentLine_getLine, FrameStore.getLineFromFrameStore, if_pos passed] at fault
  exact fault

theorem touched_mem (member : i ∈ touched shellFrames pcb st) :
    st.passes shellFrames pcb.pid (pcb.pageTable (pcb.pc / 3)) (pcb.pc % 3 : Nat) = true ∧
      touched shellFrames pcb st = [i] ∧ (pcb.pageTable (pcb.pc / 3)).toNat = i := by
  rw [touched] at member ⊢
  split at member
  next passed =>
    rw [if_pos passed]
    have same := List.mem_singleton.mp member
    exact ⟨passed, by rw [same], same.symm⟩
  next => cases member

namespace StuckRun

theorem waits (run : StuckRun shellFrames processes turns good k cur uses frames) (low : j < processes)
    (inside : t + j < turns) : (k t).queue[j]? = some (cur (t + j)) := by
  induction j generalizing t with
  | zero =>
    obtain ⟨rest, next, queue, -⟩ := (run.turn t (by omega)).turn
    rw [queue]
    rfl
  | succ j ih =>
    obtain ⟨rest, next, queue, queue', -⟩ := (run.turn t (by omega)).turn
    have long := run.length t (by omega)
    have later := @ih (t + 1) (by omega) (by omega)
    rw [queue, List.length_cons] at long
    rw [queue', List.getElem?_append_left (by omega)] at later
    rw [queue, List.getElem?_cons_succ, later, Nat.add_assoc, Nat.add_comm 1 j]

theorem comes_back (run : StuckRun shellFrames processes turns good k cur uses frames)
    (inside : t + processes < turns) : (cur (t + processes)).job = (cur t).job ∧ (cur (t + processes)).pc = (cur t).pc ∧
      (cur (t + processes)).pageTable ((cur t).pc / 3) = frames t := by
  obtain ⟨rest, next, queue, queue', faulted⟩ := (run.turn t (by omega)).turn
  have long := run.length t (by omega)
  rw [queue, List.length_cons] at long
  have last := run.waits (show processes - 1 < processes by omega) (show t + 1 + (processes - 1) < turns by omega)
  rw [queue', List.getElem?_append_right (by omega), show processes - 1 - rest.length = 0 by omega,
    List.getElem?_cons_zero, Option.some_inj, show t + 1 + (processes - 1) = t + processes by omega] at last
  rw [← last]
  exact ⟨faulted.job, faulted.pc, faulted.entry⟩

theorem others (run : StuckRun shellFrames processes turns good k cur uses frames) (after : t < s)
    (before : s < t + processes) (inside : s < turns) : (cur s).pid ≠ (cur t).pid := by
  intro same
  obtain ⟨d, rfl⟩ := Nat.exists_eq_add_of_lt after
  have first := run.waits (show 0 < processes by omega) (show t + 0 < turns by omega)
  have second := run.waits (show d + 1 < processes by omega) (show t + (d + 1) < turns by omega)
  have equal : ((k t).queue.map PCB.pid)[0]? = ((k t).queue.map PCB.pid)[d + 1]? := by
    rw [List.getElem?_map, List.getElem?_map, first, second, Option.map_some, Option.map_some, Nat.add_zero,
      ← Nat.add_assoc, same]
  have long := run.length t (by omega)
  have none' : 0 = d + 1 := (List.getElem?_inj (by rw [List.length_map]; omega) (run.apart t (by omega))).mp equal
  omega

theorem owner (run : StuckRun shellFrames processes turns good k cur uses frames) (inside : t < turns) (i : Nat) :
    ((k (t + 1)).store.shellframes i).pid =
      if i = frames t then (cur t).pid else ((k t).store.shellframes i).pid := by
  obtain ⟨rest, next, -, -, faulted⟩ := (run.turn t inside).turn
  obtain ⟨lru, same⟩ := currentLine_frames shellFrames (cur t) (k t).store i
  rw [faulted.pids, same]

theorem foreign (run : StuckRun shellFrames processes turns good k cur uses frames) (after : t < s) (d : Nat)
    (before : s + d ≤ t + processes) (inside : s + d ≤ turns)
    (taken : ((k s).store.shellframes i).pid ≠ (cur t).pid) :
    ((k (s + d)).store.shellframes i).pid ≠ (cur t).pid := by
  induction d with
  | zero => exact taken
  | succ d ih =>
    rw [← Nat.add_assoc, run.owner (by omega)]
    split
    · exact run.others (by omega) (by omega) (by omega)
    · exact ih (by omega) (by omega)

theorem not_good (run : StuckRun shellFrames processes turns good k cur uses frames) (inside : t < turns)
    (passed : (k t).store.passes shellFrames (cur t).pid ((cur t).pageTable ((cur t).pc / 3)) ((cur t).pc % 3 : Nat) = true) :
    ((cur t).pageTable ((cur t).pc / 3)).toNat ≠ good := by
  intro same
  have line := passes_line (run.turn t inside).fault passed
  rw [same] at line
  have more := (run.turn t inside).more
  exact run.lines t inside _ (Nat.mod_lt _ (by decide)) (Nat.lt_of_le_of_lt (Nat.mod_le ..) more) line

theorem length_succ (run : StuckRun shellFrames processes turns good k cur uses frames) (inside : t < turns) :
    (uses (t + 1)).length = (touched shellFrames (cur t) (k t).store).length + (uses t).length + 1 := by
  rw [(run.turn t inside).uses_eq, List.length_cons, List.length_append]

theorem ticks (run : StuckRun shellFrames processes turns good k cur uses frames) :
    Ticks turns fun t => (uses t).length := by
  intro t inside
  have next := run.length_succ inside
  have few := touched_length shellFrames (cur t) (k t).store
  simp only
  omega

theorem uses_append (run : StuckRun shellFrames processes turns good k cur uses frames) (d : Nat) (inside : t + d ≤ turns) :
    ∃ later, uses (t + d) = later ++ uses t := by
  induction d with
  | zero => exact ⟨[], rfl⟩
  | succ d ih =>
    obtain ⟨later, before⟩ := ih (by omega)
    have next := (run.turn (t + d) (by omega)).uses_eq
    rw [before, ← List.append_assoc, ← List.cons_append] at next
    exact ⟨_, next⟩

theorem history_eq (run : StuckRun shellFrames processes turns good k cur uses frames) (inside : t ≤ turns)
    (before : i < (uses t).length) : history (uses turns) i = history (uses t) i := by
  obtain ⟨d, rfl⟩ := Nat.exists_eq_add_of_le inside
  obtain ⟨later, same⟩ := run.uses_append d (Nat.le_refl _)
  rw [same, history_append later before]

theorem loaded_eq (run : StuckRun shellFrames processes turns good k cur uses frames) (inside : t < turns) :
    loaded (history (uses turns)) (fun t => (uses t).length) t = frames t := by
  have next := run.length_succ inside
  rw [loaded, run.history_eq (show t + 1 ≤ turns from inside) (by omega), next, (run.turn t inside).uses_eq, Nat.add_sub_cancel,
    ← List.length_append, history_cons]

theorem look_eq (run : StuckRun shellFrames processes turns good k cur uses frames) (inside : t < turns)
    (two : (uses (t + 1)).length = (uses t).length + 2) :
    history (uses turns) (uses t).length ∈ touched shellFrames (cur t) (k t).store := by
  have next := run.length_succ inside
  obtain ⟨i, same⟩ := List.length_eq_one_iff.mp (show (touched shellFrames (cur t) (k t).store).length = 1 by omega)
  have all := (run.turn t inside).uses_eq
  rw [same] at all ⊢
  rw [run.history_eq (show t + 1 ≤ turns from inside) (by omega), all, List.mem_singleton]
  exact (history_append [frames t] (by simp)).trans (history_cons i (uses t))

theorem positive (run : StuckRun shellFrames processes turns good k cur uses frames) (inside : t < turns) :
    0 < processes := by
  obtain ⟨rest, next, queue, -⟩ := (run.turn t inside).turn
  have long := run.length t (by omega)
  rw [queue, List.length_cons] at long
  omega

theorem untouched (run : StuckRun shellFrames processes turns good k cur uses frames) (inside : t + processes < turns)
    (kept : ((k (t + processes)).store.shellframes (frames t)).pid = (cur t).pid) {n : Nat}
    (first : (uses (t + 1)).length ≤ n) (last : n < (uses (t + processes)).length) :
    history (uses turns) n ≠ frames t := by
  intro same
  have positive := run.positive inside
  have whole : t + 1 + (processes - 1) = t + processes := by omega
  obtain ⟨s, after, before, load | ⟨start, two⟩⟩ :=
    run.ticks.turn_of (a := t + 1) (processes - 1) (by omega) first (whole ▸ last)
  · have here := run.loaded_eq (show s < turns by omega)
    rw [loaded, ← load, Nat.add_sub_cancel, same] at here
    have taken := run.owner (show s < turns by omega) (frames t)
    rw [if_pos here] at taken
    have other := run.others (show t < s by omega) (show s < t + processes by omega) (show s < turns by omega)
    have stays := run.foreign (show t < s + 1 by omega) (t + processes - (s + 1)) (by omega) (by omega) (taken ▸ other)
    rw [show s + 1 + (t + processes - (s + 1)) = t + processes by omega] at stays
    exact stays kept
  · have looked := run.look_eq (show s < turns by omega) two
    obtain ⟨passed, -, place⟩ := touched_mem looked
    have owned := (passes_iff.mp passed).1
    rw [place, ← start, same] at owned
    have other := run.others (show t < s by omega) (show s < t + processes by omega) (show s < turns by omega)
    have stays := run.foreign (show t < s by omega) (t + processes - s) (by omega) (by omega) (owned ▸ other)
    rw [show s + (t + processes - s) = t + processes by omega] at stays
    exact stays kept

theorem keeps (run : StuckRun shellFrames processes turns good k cur uses frames)
    (free : ∀ s, t < s → s < t + processes → frames s ≠ frames t) (d : Nat) (before : d < processes)
    (inside : t + d < turns) : ((k (t + d + 1)).store.shellframes (frames t)).pid = (cur t).pid := by
  induction d with
  | zero =>
    have owned := run.owner (show t < turns by omega) (frames t)
    rw [if_pos rfl] at owned
    exact owned
  | succ d ih =>
    rw [run.owner inside, if_neg (free (t + (d + 1)) (by omega) (by omega)).symm]
    exact ih (by omega) (by omega)

theorem stalled (run : StuckRun shellFrames processes turns good k cur uses frames) :
    Stalled shellFrames processes turns good (history (uses turns)) fun t => (uses t).length where
  ticks := run.ticks
  inside t inside := by
    rw [run.loaded_eq inside]
    obtain ⟨rest, next, -, -, faulted⟩ := (run.turn t inside).turn
    exact faulted.chosen.inside
  other t inside two := by
    obtain ⟨passed, -, same⟩ := touched_mem (run.look_eq inside two)
    rw [← same]
    have within := passes_iff.mp passed
    exact ⟨by omega, run.not_good inside passed⟩
  own t inside two := by
    rw [run.loaded_eq (show t < turns by omega)]
    obtain ⟨passed, -, same⟩ := touched_mem (run.look_eq inside two)
    obtain ⟨job, pc, entry⟩ := run.comes_back inside
    have owned := (passes_iff.mp passed).1
    rw [pc, entry] at owned same
    rw [Int.toNat_natCast] at owned same
    exact ⟨same.symm, fun n first last => run.untouched inside (owned.trans (congrArg Job.pid job)) first last⟩
  oldest t inside m before used i low other := by
    rw [run.loaded_eq inside] at used other
    have next := run.length_succ inside
    have all := (run.turn t inside).uses_eq
    obtain ⟨rest, last, -, -, faulted⟩ := (run.turn t inside).turn
    have full : ∀ i < shellFrames, ((currentLine shellFrames (cur t) (k t).store).2.shellframes i).empty = false := by
      intro i low
      obtain ⟨lru, same⟩ := currentLine_frames shellFrames (cur t) (k t).store i
      rw [same]
      exact run.full t inside i low
    have older := (faulted.chosen.oldest full i low other).1
    have long : (touched shellFrames (cur t) (k t).store ++ uses t).length + 1 = (uses (t + 1)).length := by
      rw [List.length_append]
      omega
    have earlier : ∀ n, n + 1 < (uses (t + 1)).length →
        history (uses turns) n = history (touched shellFrames (cur t) (k t).store ++ uses t) n := by
      intro n less
      rw [run.history_eq (show t + 1 ≤ turns from inside) (by omega), all]
      have within : n < (touched shellFrames (cur t) (k t).store ++ uses t).length := by omega
      exact history_append [frames t] within
    rw [earlier m before] at used
    obtain ⟨n, after, until', found⟩ := history_older older (show m < _ by omega) used
    exact ⟨n, after, by omega, by rw [earlier n (by omega), found]⟩
  lost t inside found := by
    rw [run.loaded_eq (show t < turns by omega)] at found
    by_contra none'
    have positive := run.positive inside
    have free : ∀ s, t < s → s < t + processes → frames s ≠ frames t := by
      intro s after before same
      exact none' ⟨s, after, before, by rw [run.loaded_eq (by omega), same, found]⟩
    have kept := run.keeps free (processes - 1) (by omega) (by omega)
    rw [show t + (processes - 1) + 1 = t + processes by omega] at kept
    obtain ⟨job, pc, entry⟩ := run.comes_back inside
    have pid : (cur (t + processes)).pid = (cur t).pid := congrArg Job.pid job
    refine run.not_good inside (passes_iff.mpr ?_) ?_
    · rw [pc, entry, Int.toNat_natCast]
      have low := run.inside
      exact ⟨kept.trans pid.symm, by omega, by omega, by omega, by omega⟩
    · rw [pc, entry, Int.toNat_natCast]
      exact found

theorem short (run : StuckRun shellFrames processes turns good k cur uses frames) (enough : processes ≤ shellFrames) :
    turns ≤ shellFrames * shellFrames + 3 * shellFrames := by
  by_cases none' : turns = 0
  · omega
  · have bound := run.stalled.short (run.positive (show 0 < turns by omega)) enough run.inside
    have square := Nat.mul_le_mul enough enough
    omega

end StuckRun

end stuck

end ShellOs.Paging
