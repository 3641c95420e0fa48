import ShellOs.Paging.Sessions

/-! Round robin with more processes than frames: scripts of one line that wait for their page for ever. -/

namespace ShellOs.Paging
open Lib
open Kernel (Text)

/-- After so many loads, in turn for each of the processes, the frames hold the pages of the last ones. -/
structure Loaded (shellFrames processes : Nat) (s : FrameStore) (n : Nat) : Prop where
  clock : s.numLru = n
  recent : ∀ m < n, n ≤ m + shellFrames → (s.shellframes (m % shellFrames)).lru = m ∧
    (s.shellframes (m % shellFrames)).pid = (m % processes + 1 : Nat) ∧ (s.shellframes (m % shellFrames)).empty = false
  empty : ∀ i < shellFrames, n ≤ i → (s.shellframes i).empty = true

section loaded

variable {shellFrames processes n i : Nat} {s : FrameStore} {fp : Text}

theorem recent_load (low : i < shellFrames) (enough : shellFrames ≤ n) :
    ∃ m < n, n ≤ m + shellFrames ∧ m % shellFrames = i := by
  induction n with
  | zero => omega
  | succ n ih =>
    by_cases last : n % shellFrames = i
    · exact ⟨n, by omega, by omega, last⟩
    · by_cases more : shellFrames ≤ n
      · obtain ⟨m, before, after, same⟩ := ih more
        refine ⟨m, by omega, ?_, same⟩
        by_contra old
        have now : n = m + shellFrames := by omega
        rw [now, Nat.add_mod_right] at last
        exact last same
      · exact ⟨i, by omega, by omega, Nat.mod_eq_of_lt low⟩

theorem Loaded.full (loaded : Loaded shellFrames processes s n) (enough : shellFrames ≤ n) (low : i < shellFrames) :
    (s.shellframes i).empty = false := by
  obtain ⟨m, before, after, rfl⟩ := recent_load low enough
  exact (loaded.recent m before after).2.2

theorem Loaded.next (loaded : Loaded shellFrames processes s n) (some' : 0 < shellFrames)
    (room : (n : Int) - shellFrames < intMax) (fp : Text) : ∃ left,
      s.loadFrame shellFrames fp (n % processes + 1 : Nat) =
        some (n % shellFrames, s.loadInto (n % shellFrames) fp (n % processes + 1 : Nat), left) := by
  by_cases enough : shellFrames ≤ n
  · have none' : s.findEmptyFrame shellFrames = none := by
      rw [FrameStore.findEmptyFrame, List.find?_eq_none]
      intro i member
      rw [loaded.full enough (List.mem_range.mp member)]
      exact Bool.false_ne_true
    have inside : (n - shellFrames) % shellFrames < shellFrames := Nat.mod_lt _ some'
    have stamps : ∀ i ∈ List.range shellFrames, ∃ m < n, n ≤ m + shellFrames ∧ m % shellFrames = i ∧
        (s.shellframes i).lru = m := by
      intro i member
      obtain ⟨m, before, after, rfl⟩ := recent_load (List.mem_range.mp member) enough
      exact ⟨m, before, after, rfl, (loaded.recent m before after).1⟩
    have oldest := (loaded.recent (n - shellFrames) (by omega) (by omega)).1
    obtain ⟨k, member, victim, least⟩ := findVictim_some (s := s) (l := List.range shellFrames) none
      (fun i member => by
        obtain ⟨m, -, -, -, stamp⟩ := stamps i member
        omega)
      ⟨(n - shellFrames) % shellFrames, List.mem_range.mpr inside, show _ < intMax by rw [oldest]; omega⟩
    have same : k = n % shellFrames := by
      obtain ⟨m, before, after, rfl, stamp⟩ := stamps k member
      have lowest := least _ (List.mem_range.mpr inside)
      rw [stamp, oldest] at lowest
      rw [show n = m + shellFrames by omega, Nat.add_mod_right]
    refine ⟨(fillFrame [0, 1, 2] (s.shellframes (n % shellFrames)) fp).2, ?_⟩
    rw [FrameStore.loadFrame, none', victim, same]
    rfl
  · have found : s.findEmptyFrame shellFrames = some n := by
      rw [FrameStore.findEmptyFrame, List.find?_range_eq_some]
      refine ⟨loaded.empty n (by omega) (Nat.le_refl n), List.mem_range.mpr (by omega), fun i before => ?_⟩
      have full := (loaded.recent i before (by omega)).2.2
      rw [Nat.mod_eq_of_lt (by omega)] at full
      rw [full]
      rfl
    rw [Nat.mod_eq_of_lt (show n < shellFrames by omega)]
    exact ⟨_, loadFrame_empty found fp _⟩

theorem Loaded.loadInto (loaded : Loaded shellFrames processes s n) (fp : Text) :
    Loaded shellFrames processes (s.loadInto (n % shellFrames) fp (n % processes + 1 : Nat)) (n + 1) where
  clock := by
    rw [FrameStore.loadInto, loaded.clock]
    push_cast
    rfl
  recent m before after := by
    by_cases last : m = n
    · rw [last, loadInto_self, loaded.clock]
      exact ⟨rfl, rfl, rfl⟩
    · have other : m % shellFrames ≠ n % shellFrames := by
        intro same
        have apart := Nat.sub_mod_eq_zero_of_mod_eq same.symm
        have divides := Nat.le_of_dvd (by omega) (Nat.dvd_of_mod_eq_zero apart)
        omega
      rw [loadInto_other other]
      exact loaded.recent m (by omega) (by omega)
  empty i low free := by
    have other : i ≠ n % shellFrames := by
      rw [Nat.mod_eq_of_lt (by omega)]
      omega
    rw [loadInto_other other]
    exact loaded.empty i low (by omega)

theorem Loaded.counted_out (loaded : Loaded shellFrames processes s n) (out : intMax ≤ (n : Int) - shellFrames) (fp : Text)
    (pid : Int) : s.loadFrame shellFrames fp pid = none := by
  have enough : shellFrames ≤ n := by
    rw [intMax] at out
    omega
  have none' : s.findEmptyFrame shellFrames = none := by
    rw [FrameStore.findEmptyFrame, List.find?_eq_none]
    intro i member
    rw [loaded.full enough (List.mem_range.mp member)]
    exact Bool.false_ne_true
  have high : ∀ i ∈ List.range shellFrames, intMax ≤ (s.shellframes i).lru := by
    intro i member
    obtain ⟨m, before, after, rfl⟩ := recent_load (List.mem_range.mp member) enough
    rw [(loaded.recent m before after).1]
    omega
  rw [FrameStore.loadFrame, none', findVictim_none high]
  rfl

end loaded

def PCB.place (pcb : PCB) : Int × Nat × Nat := (pcb.pid, pcb.pc, pcb.numberOfCommands)

/-- The queue after so many loads: scripts of one line, and next comes the process whose load is the longest ago. -/
def InTurn (processes n : Nat) (queue : List PCB) : Prop :=
  queue.map PCB.place = (List.range processes).map fun j => ((((n + j) % processes + 1 : Nat) : Int), 0, 1)

section livelock

variable {σ : Type} {shellFrames processes n : Nat} {k : KernelState σ} {cur : PCB} {rest : List PCB} {s : FrameStore}

theorem Loaded.foreign (loaded : Loaded shellFrames processes s n) (more : shellFrames < processes)
    (enough : shellFrames ≤ n) (own : cur.pid = (n % processes + 1 : Nat)) :
    currentLine shellFrames cur s = (none, s) := by
  rw [currentLine_getLine, FrameStore.getLineFromFrameStore, if_neg]
  intro passed
  obtain ⟨owner, low, high, -⟩ := passes_iff.mp passed
  obtain ⟨m, before, after, same⟩ := recent_load (show (cur.pageTable (cur.pc / 3)).toNat < shellFrames by omega) enough
  have pid := (loaded.recent m before after).2.1
  rw [same, owner, own] at pid
  have equal : n % processes = m % processes := by omega
  have apart := Nat.sub_mod_eq_zero_of_mod_eq equal
  have divides := Nat.le_of_dvd (by omega) (Nat.dvd_of_mod_eq_zero apart)
  omega

theorem InTurn.length {queue : List PCB} (turns : InTurn processes n queue) : queue.length = processes := by
  have same := congrArg List.length (show queue.map PCB.place = _ from turns)
  rwa [List.length_map, List.length_map, List.length_range] at same

theorem InTurn.next {next : PCB} (queue : InTurn processes n (cur :: rest)) (same : next.place = cur.place) :
    InTurn processes (n + 1) (rest ++ [next]) := by
  obtain ⟨others, rfl⟩ : ∃ others, processes = others + 1 := by
    refine ⟨processes - 1, ?_⟩
    have length := queue.length
    rw [List.length_cons] at length
    omega
  rw [InTurn, List.range_succ_eq_map, List.map_cons, List.map_cons] at queue
  obtain ⟨head, tail⟩ := List.cons.inj queue
  rw [InTurn, List.map_append, tail, List.map_singleton, same, head, List.range_succ, List.map_append, List.map_map,
    List.map_singleton]
  congr 1
  · apply List.map_congr_left
    intro j _
    rw [Function.comp_apply, Nat.succ_eq_add_one, show n + (j + 1) = n + 1 + j by omega]
  · rw [show n + 1 + others = n + (others + 1) by omega, Nat.add_mod_right]
    rfl

theorem pageFault_place {frame : Nat} {t : FrameStore} {left : Text}
    (loads : s.loadFrame shellFrames (skipCommands cur.currentCommand cur.fp.contents) cur.pid = some (frame, t, left)) :
    ∃ next, pageFault shellFrames cur s = some (next, t) ∧ next.place = cur.place := by
  rw [pageFault, loads]
  refine ⟨_, rfl, ?_⟩
  rw [setFrame]
  split
  · rfl
  · rfl

theorem livelock (more : shellFrames < processes) (some' : 0 < shellFrames) (loaded : Loaded shellFrames processes k.store n)
    (enough : shellFrames ≤ n) (queue : InTurn processes n k.queue) (parseInput : Text → σ → σ) (fuel : Nat) :
    schedulerRR shellFrames parseInput 2 fuel k = none := by
  rw [schedulerRR]
  induction fuel generalizing k n with
  | zero => rfl
  | succ fuel ih =>
    cases waiting : k.queue with
    | nil =>
      rw [waiting] at queue
      have length := queue.length
      rw [List.length_nil] at length
      omega
    | cons cur rest =>
      rw [waiting] at queue
      obtain ⟨others, rfl⟩ : ∃ others, processes = others + 1 := ⟨processes - 1, by omega⟩
      have place : cur.place = (((n % (others + 1) + 1 : Nat) : Int), 0, 1) := by
        have whole := queue
        rw [InTurn, List.range_succ_eq_map, List.map_cons, List.map_cons] at whole
        exact (List.cons.inj whole).1
      obtain ⟨pid, pc, number⟩ : cur.pid = (n % (others + 1) + 1 : Nat) ∧ cur.pc = 0 ∧ cur.numberOfCommands = 1 := by
        simpa only [PCB.place, Prod.mk.injEq] using place
      have faults := loaded.foreign more enough pid
      rw [schedulerLoop, waiting, popHead]
      simp only [executeProcess, pc, number, Nat.zero_ne_one, if_false, runQuanta, faults]
      by_cases room : (n : Int) - shellFrames < intMax
      · obtain ⟨left, loads⟩ := loaded.next some' room (skipCommands cur.currentCommand cur.fp.contents)
        rw [← pid] at loads
        obtain ⟨next, result, same⟩ := pageFault_place loads
        simp only [result, Option.bind_eq_bind, Option.bind_some]
        rw [pid]
        exact ih (loaded.loadInto _) (by omega) (queue.next same)
      · have out := loaded.counted_out (by omega) (skipCommands cur.currentCommand cur.fp.contents) cur.pid
        simp only [pageFault, out, Option.bind_eq_bind, Option.bind_none]

end livelock

def oneLine : Files := fun name => if name = "a".toList then some "e".toList else none

/-- A system whose `cp` copies that script, whatever the name of the copy. -/
def copiesOne : Text → Files → Int × Files := fun command files =>
  (0, Function.update files (command.drop 5) (files "a".toList))

section start

variable {shellFrames processes n : Nat} {s : Session}

theorem copiesOne_copies : CopiesScripts copiesOne ["a".toList] := by
  intro name member id files script opened _
  obtain rfl := List.mem_singleton.mp member
  exact (Function.update_self (copyName "a".toList id) _ files).trans opened

theorem copyName_ne (id : Nat) : copyName "a".toList id ≠ "a".toList := by
  intro same
  cases same

theorem start_one (some' : 0 < shellFrames) (before : n < processes) (room : (n : Int) < intMax)
    (loaded : Loaded shellFrames processes s.store n) (counter : s.pidCounter = (n + 1 : Nat))
    (file : s.files "a".toList = some "e".toList) :
    ∃ t pcb, processInitialize shellFrames copiesOne "a".toList (n + 1) s = some (0, t) ∧
      t.pidCounter = (n + 1 + 1 : Nat) ∧ t.files "a".toList = some "e".toList ∧ t.queue = s.queue ++ [pcb] ∧
      pcb.place = (((n + 1 : Nat) : Int), 0, 1) ∧ Loaded shellFrames processes t.store (n + 1) := by
  obtain ⟨left, loads⟩ := loaded.next some' (by omega) "e".toList
  have next := loaded.loadInto "e".toList
  rw [Nat.mod_eq_of_lt before] at loads next
  have copy : Function.update s.files (copyName "a".toList (n + 1)) (s.files "a".toList) (copyName "a".toList (n + 1)) =
      some "e".toList := by
    rw [Function.update_self, file]
  have kept : Function.update s.files (copyName "a".toList (n + 1)) (s.files "a".toList) "a".toList = some "e".toList := by
    rw [Function.update_of_ne (copyName_ne (n + 1)).symm, file]
  have copied : copyScriptToBackingStore copiesOne "a".toList (n + 1) s.files =
      (0, Function.update s.files (copyName "a".toList (n + 1)) (s.files "a".toList)) := rfl
  have pages : loadPages shellFrames (n + 1) [0, 1] (makePCB "e".toList 1 s.pidCounter) s.store =
      some ((makePCB "e".toList 1 s.pidCounter).withPage 0 (n % shellFrames) left,
        s.store.loadInto (n % shellFrames) "e".toList (n + 1 : Nat)) := by
    rw [loadPages_cons (by decide) (show 0 * 3 < 1 by decide) loads, loadPages_done (show 1 ≤ 1 * 3 by decide)]
  refine ⟨⟨_, s.pidCounter + 1, s.queue ++ [(makePCB "e".toList 1 s.pidCounter).withPage 0 (n % shellFrames) left],
    Function.update s.files (copyName "a".toList (n + 1)) (s.files "a".toList)⟩, _, ?_, ?_, kept, rfl, ?_, next⟩
  · rw [processInitialize, file, copied]
    simp only [ne_eq, not_true_eq_false, if_false, copy]
    rw [show countCommands "e".toList = 1 from rfl, pages, file]
    rfl
  · rw [counter]
    push_cast
    rfl
  · rw [← counter]
    rfl

theorem start_all (some' : 0 < shellFrames) (n : Nat) (enough : n ≤ processes) (room : (n : Int) ≤ intMax) :
    ∃ s, Reached shellFrames copiesOne s ∧ s.pidCounter = (n + 1 : Nat) ∧ s.files "a".toList = some "e".toList ∧
      Loaded shellFrames processes s.store n ∧
      s.queue.map PCB.place = (List.range n).map fun j => (((j + 1 : Nat) : Int), 0, 1) := by
  induction n with
  | zero =>
    refine ⟨beginSession shellFrames (fun _ => ⟨fun _ => none, 0, false, 0⟩) oneLine, .begin _ _, rfl, rfl, ?_, rfl⟩
    refine ⟨rfl, fun m before => absurd before (Nat.not_lt_zero m), fun i low _ => ?_⟩
    rw [beginSession, framesInit]
    simp only [if_pos low]
  | succ n ih =>
    obtain ⟨s, reached, counter, file, loaded, queue⟩ := ih (by omega) (by push_cast at room; omega)
    obtain ⟨t, pcb, result, counter', file', queue', place, loaded'⟩ :=
      start_one some' enough (by push_cast at room; omega) loaded counter file
    refine ⟨t, reached.start copiesOne_copies result, counter', file', loaded', ?_⟩
    rw [queue', List.map_append, queue, List.range_succ, List.map_append, List.map_singleton, List.map_singleton, place]

def Session.work (shellFrames : Nat) (s : Session) : Nat :=
  (s.queue.map fun pcb => pcb.numberOfCommands + 1).sum + (s.store.empties shellFrames).card

theorem start_stuck (some' : 0 < shellFrames) (more : shellFrames < processes) (room : (processes : Int) ≤ intMax) :
    ∃ s, Reached shellFrames copiesOne s ∧ s.queue.length = processes ∧ (∀ pcb ∈ s.queue, pcb.numberOfCommands ≤ 300) ∧
      s.store.numLru = processes ∧ s.work shellFrames = 2 * processes ∧
      ¬ Finishes shellFrames (fun _ shell => shell) 2 ⟨s.store, s.queue, (), []⟩ := by
  obtain ⟨s, reached, -, -, loaded, queue⟩ := start_all some' processes (Nat.le_refl _) room
  have inTurn : InTurn processes processes s.queue := by
    rw [InTurn, queue]
    apply List.map_congr_left
    intro j member
    rw [Nat.add_mod_left, Nat.mod_eq_of_lt (List.mem_range.mp member)]
  have number : ∀ pcb ∈ s.queue, pcb.numberOfCommands = 1 := by
    intro pcb member
    have place : pcb.place ∈ s.queue.map PCB.place := List.mem_map_of_mem member
    rw [queue] at place
    obtain ⟨j, -, same⟩ := List.mem_map.mp place
    exact (congrArg (fun place => place.2.2) same).symm
  refine ⟨s, reached, inTurn.length, fun pcb member => ?_, loaded.clock, ?_, ?_⟩
  · rw [number pcb member]
    decide
  · have none' : s.store.empties shellFrames = ∅ := by
      ext i
      refine iff_of_false (fun member => ?_) (Finset.notMem_empty i)
      obtain ⟨low, empty⟩ := mem_empties.mp member
      rw [loaded.full (Nat.le_of_lt more) low] at empty
      cases empty
    have two : s.queue.map (fun pcb => pcb.numberOfCommands + 1) = List.replicate processes 2 := by
      rw [← inTurn.length, ← List.map_const']
      apply List.map_congr_left
      intro pcb member
      rw [number pcb member]
    rw [Session.work, none', two, List.sum_replicate_nat, Finset.card_empty, Nat.mul_comm, Nat.add_zero]
  · rintro ⟨fuel, after, result, -⟩
    have never := livelock (k := ⟨s.store, s.queue, (), []⟩) more some' loaded (Nat.le_of_lt more) inTurn
      (fun _ shell => shell) fuel
    rw [never] at result
    cases result

end start

/-- Round robin finishes from every ready queue of so many processes if and only if there are as many frames, as long as the
counter of uses does not run out. -/
theorem roundRobin_finishes_iff (shellFrames processes : Nat) (some' : 0 < shellFrames)
    (room : (processes + 4 * (stuckBound shellFrames + 3) * processes : Nat) ≤ intMax) :
    (∀ system s, Reached shellFrames system s → s.queue.length = processes →
      (∀ pcb ∈ s.queue, pcb.numberOfCommands ≤ 300) →
      s.store.numLru + (2 * (stuckBound shellFrames + 3) * s.work shellFrames : Nat) ≤ intMax →
      ∀ (σ : Type) (parseInput : Text → σ → σ) (shell : σ) (quanta : Nat), 0 < quanta →
        Finishes shellFrames parseInput quanta ⟨s.store, s.queue, shell, []⟩) ↔ processes ≤ shellFrames := by
  constructor
  · intro finishes
    by_contra more
    obtain ⟨s, reached, length, short, counter, work, never⟩ :=
      start_stuck some' (Nat.lt_of_not_le more) (Int.le_trans (Int.ofNat_le.mpr (Nat.le_add_right ..)) room)
    refine never (finishes copiesOne s reached length short ?_ Unit _ () 2 (by decide))
    have twice : 2 * (stuckBound shellFrames + 3) * (2 * processes) = 4 * (stuckBound shellFrames + 3) * processes := by
      rw [← Nat.mul_assoc, Nat.mul_right_comm 2]
    rw [counter, work, twice, ← Int.natCast_add]
    exact room
  · intro enough system s reached length short counter σ parseInput shell quanta positive
    have startable := reached.startable some'
    obtain ⟨good, uses, runs⟩ := startable.runs some' (length ▸ enough) short shell
    refine runs.finishes positive parseInput ?_
    have work : remaining shellFrames (⟨s.store, s.queue, shell, []⟩ : KernelState σ) = s.work shellFrames := by
      rw [remaining, Session.work]
      congr 2
      apply List.map_congr_left
      intro pcb member
      rw [(startable.waiting pcb member).1, Nat.sub_zero]
    rw [work]
    have clock := runs.stamped.clock
    simp only at clock
    rw [clock] at counter
    push_cast at counter ⊢
    exact counter

theorem roundRobin_finishes_two : ∃ s : Session,
    initializeScripts 2 copiesOne (numbered 1 ["a".toList, "a".toList])
      (beginSession 2 (fun _ => ⟨fun _ => none, 0, false, 0⟩) oneLine) = some (0, s) ∧
    Finishes 2 (fun _ shell => shell) 2 ⟨s.store, s.queue, (), []⟩ := by
  have first : ∃ s t, processInitialize 2 copiesOne "a".toList 1
      (beginSession 2 (fun _ => ⟨fun _ => none, 0, false, 0⟩) oneLine) = some (0, s) ∧
      processInitialize 2 copiesOne "a".toList 2 s = some (0, t) ∧
      initializeScripts 2 copiesOne (numbered 1 ["a".toList, "a".toList])
        (beginSession 2 (fun _ => ⟨fun _ => none, 0, false, 0⟩) oneLine) = some (0, t) ∧
      t.queue.length = 2 ∧ (∀ pcb ∈ t.queue, pcb.numberOfCommands ≤ 300) ∧ t.store.numLru = 2 ∧
      t.work 2 = 4 := ⟨_, _, rfl, rfl, rfl, rfl, by decide, rfl, by decide⟩
  obtain ⟨s, t, started, started', both, length, short, counter, work⟩ := first
  have reached := ((Reached.begin _ _).start copiesOne_copies started).start copiesOne_copies started'
  refine ⟨t, both, (roundRobin_finishes_iff 2 2 (by decide) (by decide)).mpr (by decide) copiesOne t reached length short ?_
    Unit _ () 2 (by decide)⟩
  rw [counter, work]
  decide

/-- Two processes and one frame. -/
theorem two_processes_one_frame : ∃ s : Session,
    initializeScripts 1 copiesOne (numbered 1 ["a".toList, "a".toList])
      (beginSession 1 (fun _ => ⟨fun _ => none, 0, false, 0⟩) oneLine) = some (0, s) ∧
    s.queue.length = 2 ∧ (∀ pcb ∈ s.queue, pcb.numberOfCommands ≤ 300) ∧
    ¬ Finishes 1 (fun _ shell => shell) 2 ⟨s.store, s.queue, (), []⟩ := by
  have general : ∀ s : Session, Loaded 1 2 s.store 2 → InTurn 2 2 s.queue →
      ¬ Finishes 1 (fun _ shell => shell) 2 ⟨s.store, s.queue, (), []⟩ := by
    rintro s loaded queue ⟨fuel, after, result, -⟩
    have never := livelock (k := ⟨s.store, s.queue, (), []⟩) (by decide) (by decide) loaded (by decide) queue
      (fun _ shell => shell) fuel
    rw [never] at result
    cases result
  refine ⟨_, rfl, rfl, by decide, general _ ⟨rfl, fun m before after => ?_, fun i low after => ?_⟩ rfl⟩
  · obtain rfl : m = 1 := by omega
    exact ⟨rfl, rfl, rfl⟩
  · omega

end ShellOs.Paging
