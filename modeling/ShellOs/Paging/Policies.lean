import Mathlib.Order.Interval.Finset.Nat
import ShellOs.Paging.Completion
import ShellOs.Paging.Exec

/-! The scheduling policies, from the start of a session to the end of its processes. -/

namespace ShellOs.Paging
open Kernel (Text)

/-- The policy is carried out to the end, and each process is terminated after all of its lines. -/
def Completes {σ : Type} (shellFrames : Nat) (parseInput : Text → σ → σ) (policy : Text) (k : KernelState σ) : Prop :=
  ∃ fuel after, scheduleByPolicy shellFrames parseInput policy fuel k = some (0, after) ∧ after.queue = [] ∧
    ∀ pcb ∈ k.queue, Complete after.events pcb.job

def policies : List Text := ["FCFS".toList, "SJF".toList, "RR".toList, "RR30".toList, "AGING".toList]

section policies

variable {σ : Type} {shellFrames quanta : Nat} {parseInput : Text → σ → σ} {k : KernelState σ} {back : Prop} {policy : Text}
  {queue : List PCB} {take : List PCB → Option (PCB × List PCB)} {putBack : PCB → List PCB → List PCB}

theorem completes_iff (takes : Takes take) (puts : PutsBack back quanta putBack) (ready : Ready shellFrames k)
    (perm : queue.Perm k.queue) (loop : ∀ fuel, scheduleByPolicy shellFrames parseInput policy fuel k =
      (schedulerLoop shellFrames parseInput take putBack quanta fuel { k with queue := queue }).map (0, ·)) :
    Completes shellFrames parseInput policy k ↔ back ∨ ∀ pcb ∈ k.queue, pcb.missing = ∅ := by
  have ready' : Ready shellFrames { k with queue := queue } := ready.fewer (perm.map PCB.unscored).subperm
  obtain ⟨fuel, after, run, empty, -, complete⟩ := schedulerLoop_spec takes puts parseInput ready'
  constructor
  · rintro ⟨fuel', after', result, -, all⟩
    rw [loop fuel'] at result
    obtain ⟨_, run', ⟨⟩⟩ := Option.map_eq_some_iff.mp result
    rw [← schedulerLoop_unique run run'] at all
    by_contra neither
    obtain ⟨dropped, some'⟩ := not_or.mp neither
    refine some' fun pcb member => ?_
    exact ((complete pcb (perm.mem_iff.mpr member)).mp (all pcb member)).resolve_left dropped
  · intro enough
    refine ⟨fuel, after, by rw [loop, run]; rfl, empty, fun pcb member => ?_⟩
    exact (complete pcb (perm.mem_iff.mpr member)).mpr (enough.imp_right fun all => all pcb member)

theorem returns_tail (positive : 0 < quanta) (always : back) :
    PutsBack back quanta fun pcb queue => queue ++ [pcb] where
  positive := positive
  returns _ pcb queue := List.perm_append_singleton pcb queue
  drops never := absurd always never

/-- A policy completes all processes if and only if it is not SJF or all the pages are in frames from the start. -/
theorem scheduleByPolicy_completes (known : policy ∈ policies) (parseInput : Text → σ → σ) (ready : Ready shellFrames k) :
    Completes shellFrames parseInput policy k ↔ policy ≠ "SJF".toList ∨ ∀ pcb ∈ k.queue, pcb.missing = ∅ := by
  simp only [policies, List.mem_cons, List.not_mem_nil, or_false] at known
  rcases known with rfl | rfl | rfl | rfl | rfl
  · exact completes_iff popHead_takes (returns_tail (by decide) (by decide)) ready .rfl fun _ => rfl
  · refine completes_iff popShortestJob_takes ⟨by decide, fun absurd' => absurd rfl absurd', fun _ => ?_⟩ ready .rfl
      fun _ => rfl
    exact ⟨by decide, fun _ _ => rfl⟩
  · exact completes_iff popHead_takes (returns_tail (by decide) (by decide)) ready .rfl fun _ => rfl
  · exact completes_iff popHead_takes (returns_tail (by decide) (by decide)) ready .rfl fun _ => rfl
  · refine completes_iff agingTake_takes ⟨by decide, fun _ _ _ => .rfl, fun never => ?_⟩ ready
      (sortReadyQueue_perm k.queue) fun _ => rfl
    exact absurd (by decide) never

end policies

def beginSession (shellFrames : Nat) (frames : Nat → FrameStruct) (files : Files) : Session :=
  ⟨framesInit shellFrames frames, 1, [], files⟩

def numbered : Nat → List Text → List (Option Text × Nat)
  | _, [] => []
  | id, name :: rest => (some name, id) :: numbered (id + 1) rest

/-- `cp` copies a script, if it does not fail. -/
def CopiesScripts (system : Text → Files → Int × Files) (names : List Text) : Prop :=
  ∀ name ∈ names, ∀ id files script, files name = some script →
    (copyScriptToBackingStore system name id files).1 = 0 →
      (copyScriptToBackingStore system name id files).2 (copyName name id) = some script

def PCB.pages (pcb : PCB) : Nat := (pcb.numberOfCommands + 2) / 3

/-- A process of which the pages before this one have been put into frames. -/
structure Loading (shellFrames : Nat) (s : FrameStore) (pcb : PCB) (page : Nat) : Prop where
  loaded : ∀ other < page, other * 3 < pcb.numberOfCommands → Held shellFrames s pcb other
  rest : ∀ other, page ≤ other → pcb.pageTable other = -1

section loading

variable {shellFrames page id : Nat} {s t : FrameStore} {pcb : PCB} {script : Text} {pid : Int}

theorem Loading.missing (loading : Loading shellFrames s pcb page) : pcb.missing = Finset.Ico page pcb.pages := by
  ext other
  rw [mem_missing, Finset.mem_Ico, PCB.pages]
  constructor
  · rintro ⟨more, absent⟩
    refine ⟨?_, by omega⟩
    by_contra before
    exact (loading.loaded other (by omega) more).entry absent
  · rintro ⟨behind, inside⟩
    exact ⟨by omega, loading.rest other behind⟩

theorem Loading.next (loading : Loading shellFrames s pcb page) (low : page < 100) (more : page * 3 < pcb.numberOfCommands)
    (left : commands pcb.fp.left = (commands pcb.fp.contents).drop (3 * page)) (own : pcb.pid = id)
    (room : (s.empties shellFrames).Nonempty) (rest : List Nat) : ∃ next t,
      loadPages shellFrames id (page :: rest) pcb s = loadPages shellFrames id rest next t ∧
      next.job = pcb.job ∧ next.pc = pcb.pc ∧ next.currentCommand = 0 ∧ Loading shellFrames t next (page + 1) ∧
      commands next.fp.left = (commands pcb.fp.contents).drop (3 * (page + 1)) ∧ Keeps s t ∧
      (t.empties shellFrames).card + 1 = (s.empties shellFrames).card := by
  obtain ⟨frame, member, behind, read, loads⟩ := loadFrame_fresh room pcb.fp.left id
  have holds : HoldsPage (s.loadInto frame pcb.fp.left id) frame ((commands pcb.fp.contents).drop (3 * page)) pcb.pid := by
    rw [own, ← left]
    exact loadInto_holds s frame pcb.fp.left id
  have keeps := loadInto_keeps member pcb.fp.left id
  refine ⟨_, _, loadPages_cons low more loads, rfl, rfl, rfl, ⟨fun other before inside => ?_, fun other later => ?_⟩, ?_, keeps,
    ?_⟩
  · by_cases here : other = page
    · refine ⟨frame, (mem_empties.mp member).1, ?_, ?_, ?_⟩
      · rw [here]
        exact Function.update_self ..
      · rw [loadInto_self]
      · rw [here]
        exact holds
    · obtain ⟨i, within, entry, still⟩ := keeps.held (loading.loaded other (by omega) inside)
      exact ⟨i, within, (Function.update_of_ne here ..).trans entry, still⟩
  · exact (Function.update_of_ne (by omega) ..).trans (loading.rest other (by omega))
  · exact read.trans (by rw [left, List.drop_drop]; rfl)
  · rw [loadInto_empties, Finset.card_erase_add_one member]

theorem Loading.card (loading : Loading shellFrames s pcb page) : pcb.missing.card = pcb.pages - page := by
  rw [loading.missing, Nat.card_Ico]

/-- Pages that are loaded one after the other go into empty frames, as long as the process has so many. -/
theorem loadPages_loading (count : Nat) (loading : Loading shellFrames s pcb page) (low : page + count ≤ 100)
    (left : commands pcb.fp.left = (commands pcb.fp.contents).drop (3 * page)) (own : pcb.pid = id)
    (fresh : pcb.currentCommand = 0) (room : pcb.missing.card ≤ (s.empties shellFrames).card) :
    ∃ next t, loadPages shellFrames id (List.range' page count) pcb s = some (next, t) ∧ next.job = pcb.job ∧
      next.pc = pcb.pc ∧ next.currentCommand = 0 ∧ Loading shellFrames t next (page + count) ∧ Keeps s t ∧
      (t.empties shellFrames).card + pcb.missing.card = (s.empties shellFrames).card + next.missing.card := by
  induction count generalizing page pcb s with
  | zero => exact ⟨pcb, s, rfl, rfl, rfl, fresh, loading, Keeps.refl s, rfl⟩
  | succ count ih =>
    rw [List.range'_succ]
    have all := loading.card
    by_cases more : page * 3 < pcb.numberOfCommands
    · have some' : page < pcb.pages := by
        rw [PCB.pages]
        omega
      obtain ⟨next, t, loads, job, pc, current, loading', left', keeps, taken⟩ :=
        loading.next (by omega) more left own (Finset.card_pos.mp (by omega)) (List.range' (page + 1) count)
      have pages : next.pages = pcb.pages := congrArg (fun job => (job.numberOfCommands + 2) / 3) job
      have script : next.fp.contents = pcb.fp.contents := congrArg Job.script job
      have less := loading'.card
      obtain ⟨last, u, result, job', pc', current', loading'', keeps', taken'⟩ := ih loading' (by omega) (script ▸ left')
        ((congrArg Job.pid job).trans own) current (by omega)
      refine ⟨last, u, loads.trans result, job'.trans job, pc'.trans pc, current', ?_, keeps.trans keeps', by omega⟩
      rw [Nat.add_comm count 1, ← Nat.add_assoc]
      exact loading''
    · refine ⟨pcb, s, loadPages_done (Nat.le_of_not_lt more), rfl, rfl, fresh, ⟨fun other before inside => ?_, fun other later => ?_⟩,
        Keeps.refl s, rfl⟩
      · exact loading.loaded other (by omega) inside
      · exact loading.rest other (by omega)

end loading

/-- The processes that have been started, none of which has run. -/
structure Begun (shellFrames : Nat) (s : Session) (id : Nat) : Prop where
  counter : s.pidCounter = id
  going : ∀ pcb ∈ s.queue, Going shellFrames s.store [] pcb
  before : ∀ pcb ∈ s.queue, pcb.pid < id
  apart : (s.queue.map PCB.pid).Nodup
  first : ∀ pcb ∈ s.queue, pcb.missing.card = pcb.pages - 2
  room : shellFrames + (s.queue.map fun pcb => pcb.missing.card).sum ≤
    (s.store.empties shellFrames).card + (s.queue.map PCB.pages).sum

section begun

variable {shellFrames id : Nat} {system : Text → Files → Int × Files} {s t : Session} {name : Text} {names : List Text}
  {files : Files} {frames : Nat → FrameStruct}

theorem beginSession_begun (shellFrames : Nat) (frames : Nat → FrameStruct) (files : Files) :
    Begun shellFrames (beginSession shellFrames frames files) 1 where
  counter := rfl
  going pcb member := absurd member List.not_mem_nil
  before pcb member := absurd member List.not_mem_nil
  apart := List.nodup_nil
  first pcb member := absurd member List.not_mem_nil
  room := by
    have all : (framesInit shellFrames frames).empties shellFrames = Finset.range shellFrames := by
      ext i
      rw [mem_empties, Finset.mem_range, framesInit]
      refine ⟨fun both => both.1, fun inside => ⟨inside, ?_⟩⟩
      simp only [if_pos inside]
    rw [beginSession, all, Finset.card_range]
    exact Nat.le_refl _

theorem loadPages_job {pages : List Nat} {pcb next : PCB} {s t : FrameStore}
    (result : loadPages shellFrames id pages pcb s = some (next, t)) : next.job = pcb.job ∧ next.pc = pcb.pc := by
  induction pages generalizing pcb s with
  | nil =>
    obtain ⟨rfl, -⟩ := Prod.mk.inj (Option.some_inj.mp result)
    exact ⟨rfl, rfl⟩
  | cons page rest ih =>
    rw [loadPages] at result
    split at result
    · obtain ⟨⟨frame, store, left⟩, -, result⟩ := Option.bind_eq_some_iff.mp result
      obtain ⟨job, pc⟩ := ih result
      have set : ∀ pcb : PCB, (setFrame pcb page frame).job = pcb.job ∧ (setFrame pcb page frame).pc = pcb.pc := by
        intro pcb
        rw [setFrame]
        split
        · exact ⟨rfl, rfl⟩
        · exact ⟨rfl, rfl⟩
      exact ⟨job.trans (set _).1, pc.trans (set _).2⟩
    · obtain ⟨rfl, -⟩ := Prod.mk.inj (Option.some_inj.mp result)
      exact ⟨rfl, rfl⟩

theorem processInitialize_loads (copies : CopiesScripts system [name])
    (result : processInitialize shellFrames system name id s = some (0, t)) :
    ∃ script pcb store files, loadPages shellFrames id [0, 1] (makePCB script (commands script).length s.pidCounter) s.store =
      some (pcb, store) ∧ t = ⟨store, s.pidCounter + 1, s.queue ++ [pcb], files⟩ := by
  obtain ⟨script, fp, pcb, store, files, opened, copy, copied, loads, same⟩ := processInitialize_started result
  have whole := copies name List.mem_cons_self id s.files script opened
  rw [copy] at whole
  obtain rfl := Option.some_inj.mp (copied.symm.trans (whole rfl))
  rw [countCommands_eq] at loads
  exact ⟨fp, pcb, store, files, loads, same⟩

theorem pids_append {queue : List PCB} {pcb : PCB} (apart : (queue.map PCB.pid).Nodup)
    (before : ∀ other ∈ queue, other.pid < pcb.pid) : ((queue ++ [pcb]).map PCB.pid).Nodup := by
  rw [List.map_append, List.nodup_append]
  refine ⟨apart, List.nodup_singleton _, fun a old b new same => ?_⟩
  obtain ⟨other, earlier, rfl⟩ := List.mem_map.mp old
  have less := before other earlier
  rw [List.map_singleton, List.mem_singleton] at new
  omega

theorem Begun.processInitialize (begun : Begun shellFrames s id) (copies : CopiesScripts system [name])
    (result : processInitialize shellFrames system name id s = some (0, t)) :
    ∃ pcb, t.queue = s.queue ++ [pcb] ∧ (pcb.numberOfCommands ≤ 300 →
      (s.queue.map PCB.pages).sum + pcb.pages ≤ shellFrames → Begun shellFrames t (id + 1)) := by
  obtain ⟨script, pcb, store, files, loads, rfl⟩ := processInitialize_loads copies result
  refine ⟨pcb, rfl, fun short fits => ?_⟩
  have job := (loadPages_job loads).1
  have number : pcb.numberOfCommands = (commands script).length := congrArg Job.numberOfCommands job
  have pid : pcb.pid = id := (congrArg Job.pid job).trans begun.counter
  have contents : pcb.fp.contents = script := congrArg Job.script job
  have start : Loading shellFrames s.store (makePCB script (commands script).length s.pidCounter) 0 :=
    ⟨fun other before _ => absurd before (Nat.not_lt_zero other), fun _ _ => rfl⟩
  have room := begun.room
  have all := start.card
  have pages : (makePCB script (commands script).length s.pidCounter).pages = pcb.pages :=
    congrArg (fun job => (job.numberOfCommands + 2) / 3) job.symm
  obtain ⟨next, u, loads', -, pc, current, loading, keeps, taken⟩ :=
    loadPages_loading 2 start (by decide) rfl begun.counter rfl (by omega)
  obtain ⟨rfl, rfl⟩ := Prod.mk.inj (Option.some_inj.mp (loads.symm.trans loads'))
  have less := loading.card
  have pc : pcb.pc = 0 := pc
  refine ⟨?_, fun other member => ?_, fun other member => ?_, ?_, fun other member => ?_, ?_⟩
  · rw [begun.counter]
    push_cast
    rfl
  · rcases List.mem_append.mp member with earlier | here
    · exact keeps.going (begun.going other earlier)
    · obtain rfl := List.mem_singleton.mp here
      refine ⟨by rw [contents, number], short, by rw [current, pc], by rw [pc]; exact Nat.zero_le _, fun page more => ?_, ?_⟩
      · by_cases low : page < 0 + 2
        · exact .inl (loading.loaded page low more)
        · exact .inr ⟨loading.rest page (Nat.le_of_not_lt low), by rw [pc]; exact Nat.zero_le _⟩
      · rw [pc]
        rfl
  · rcases List.mem_append.mp member with earlier | here
    · have before := begun.before other earlier
      omega
    · obtain rfl := List.mem_singleton.mp here
      omega
  · exact pids_append begun.apart fun other earlier => pid ▸ begun.before other earlier
  · rcases List.mem_append.mp member with earlier | here
    · exact begun.first other earlier
    · obtain rfl := List.mem_singleton.mp here
      exact less
  · simp only [List.map_append, List.map_cons, List.map_nil, List.sum_append, List.sum_cons, List.sum_nil]
    omega

theorem initializeScripts_cons {rest : List (Option Text × Nat)}
    (result : initializeScripts shellFrames system ((some name, id) :: rest) s = some (0, t)) :
    ∃ u, processInitialize shellFrames system name id s = some (0, u) ∧
      initializeScripts shellFrames system rest u = some (0, t) := by
  obtain ⟨⟨errorCode, u⟩, started, result⟩ := Option.bind_eq_some_iff.mp result
  simp only at result
  by_cases failed : errorCode ≠ 0
  · rw [if_pos failed] at result
    exact absurd (Prod.mk.inj (Option.some_inj.mp result)).1 failed
  · rw [if_neg failed] at result
    obtain rfl := not_not.mp failed
    exact ⟨u, started, result⟩

theorem initializeScripts_queue (result : initializeScripts shellFrames system (numbered id names) s = some (0, t)) :
    ∃ more, t.queue = s.queue ++ more := by
  induction names generalizing id s with
  | nil =>
    obtain rfl := (Prod.mk.inj (Option.some_inj.mp result)).2
    exact ⟨[], (List.append_nil _).symm⟩
  | cons name rest ih =>
    obtain ⟨u, started, result⟩ := initializeScripts_cons result
    obtain ⟨pcb, queued⟩ := processInitialize_queue started
    obtain ⟨more, later⟩ := ih result
    exact ⟨pcb :: more, by rw [later, queued, List.append_assoc, List.singleton_append]⟩

theorem initializeScripts_begun (copies : CopiesScripts system names) (begun : Begun shellFrames s id)
    (result : initializeScripts shellFrames system (numbered id names) s = some (0, t))
    (short : ∀ pcb ∈ t.queue, pcb.numberOfCommands ≤ 300) (room : (t.queue.map PCB.pages).sum ≤ shellFrames) :
    ∃ last, Begun shellFrames t last := by
  induction names generalizing id s with
  | nil =>
    obtain rfl := (Prod.mk.inj (Option.some_inj.mp result)).2
    exact ⟨id, begun⟩
  | cons name rest ih =>
    obtain ⟨u, started, result⟩ := initializeScripts_cons result
    obtain ⟨pcb, queued, begins⟩ := begun.processInitialize
      (fun other member => copies other (List.mem_cons.mpr (.inl (List.mem_singleton.mp member)))) started
    obtain ⟨more, later⟩ := initializeScripts_queue result
    rw [queued] at later
    have fits : (s.queue.map PCB.pages).sum + pcb.pages ≤ shellFrames := by
      rw [later] at room
      simp only [List.map_append, List.map_cons, List.map_nil, List.sum_append, List.sum_cons, List.sum_nil] at room
      omega
    have next := begins (short pcb (by simp [later])) fits
    exact ih (fun other member => copies other (List.mem_cons_of_mem name member)) next result

theorem Begun.ready {σ : Type} (begun : Begun shellFrames s id) (room : (s.queue.map PCB.pages).sum ≤ shellFrames)
    (shell : σ) : Ready shellFrames ⟨s.store, s.queue, shell, []⟩ where
  going := begun.going
  apart := begun.apart
  room := by
    have fits := begun.room
    change (s.queue.map fun pcb => pcb.missing.card).sum ≤ (s.store.empties shellFrames).card
    omega

/-- In a fresh session with frames for all pages every policy completes every process, except that SJF loses those with
more lines than the two pages hold that are loaded at first. -/
theorem policies_complete {σ : Type} {policy : Text} (copies : CopiesScripts system names)
    (started : initializeScripts shellFrames system (numbered 1 names) (beginSession shellFrames frames files) = some (0, s))
    (short : ∀ pcb ∈ s.queue, pcb.numberOfCommands ≤ 300) (room : (s.queue.map PCB.pages).sum ≤ shellFrames)
    (known : policy ∈ policies) (parseInput : Text → σ → σ) (shell : σ) :
    Completes shellFrames parseInput policy ⟨s.store, s.queue, shell, []⟩ ↔
      policy ≠ "SJF".toList ∨ ∀ pcb ∈ s.queue, pcb.numberOfCommands ≤ 6 := by
  obtain ⟨last, begun⟩ := initializeScripts_begun copies (beginSession_begun shellFrames frames files) started short room
  rw [scheduleByPolicy_completes known parseInput (begun.ready room shell)]
  apply or_congr_right
  apply forall₂_congr
  intro pcb member
  rw [← Finset.card_eq_zero, begun.first pcb member, PCB.pages]
  omega

theorem copiesScript_copies : CopiesScripts copiesScript ["a".toList] := by
  intro name member id files script opened copied
  obtain rfl := List.mem_singleton.mp member
  rw [copyScriptToBackingStore, copiesScript] at copied ⊢
  by_cases command : "cp ".toList ++ "a".toList ++ ' ' :: copyName "a".toList id = "cp a backing_store/a.1".toList
  · have name : copyName "a".toList id = "backing_store/a.1".toList := 
      @List.append_cancel_left _ "cp a ".toList _ _ command
    rw [if_pos command, name]
    exact (Function.update_self "backing_store/a.1".toList _ files).trans opened
  · rw [if_neg command] at copied
    cases copied

def sevenLines : Files := fun name => if name = "a".toList then some "e\ne\ne\ne\ne\ne\ne\n".toList else none

theorem policies_complete_seven : ∃ s : Session,
    initializeScripts 3 copiesScript (numbered 1 ["a".toList])
      (beginSession 3 (fun _ => ⟨fun _ => none, 0, false, 0⟩) sevenLines) = some (0, s) ∧
    (Completes 3 (fun _ shell => shell) "RR".toList ⟨s.store, s.queue, (), []⟩ ↔
      "RR".toList ≠ "SJF".toList ∨ ∀ pcb ∈ s.queue, pcb.numberOfCommands ≤ 6) := by
  have started : ∃ s, initializeScripts 3 copiesScript (numbered 1 ["a".toList])
      (beginSession 3 (fun _ => ⟨fun _ => none, 0, false, 0⟩) sevenLines) = some (0, s) ∧
      (∀ pcb ∈ s.queue, pcb.numberOfCommands ≤ 300) ∧ (s.queue.map PCB.pages).sum ≤ 3 := ⟨_, rfl, by decide, by decide⟩
  obtain ⟨s, started, short, room⟩ := started
  exact ⟨s, started, policies_complete copiesScript_copies started short room (by decide) _ ()⟩

theorem sjf_incomplete {σ : Type} {parseInput : Text → σ → σ} {k after : KernelState σ} {pcb : PCB} (fuel : Nat)
    (run : scheduleByPolicy shellFrames parseInput "SJF".toList fuel k = some (0, after)) (member : pcb ∈ k.queue)
    (silent : Event.terminated pcb.pid ∉ after.events) : ¬ Completes shellFrames parseInput "SJF".toList k := by
  rintro ⟨fuel', after', run', -, complete⟩
  have loop : ∀ fuel, scheduleByPolicy shellFrames parseInput "SJF".toList fuel k =
      (schedulerSJF shellFrames parseInput fuel k).map (0, ·) := fun _ => rfl
  rw [loop] at run run'
  obtain ⟨_, first, ⟨⟩⟩ := Option.map_eq_some_iff.mp run
  obtain ⟨_, second, ⟨⟩⟩ := Option.map_eq_some_iff.mp run'
  have last : Event.terminated pcb.pid ∈ after'.events.filter fun event => event.pid = pcb.job.pid := by
    rw [(complete pcb member).1]
    exact List.mem_append_right _ List.mem_cons_self
  rw [← schedulerLoop_unique first second] at last
  exact silent (List.mem_filter.mp last).1

/-- SJF takes the process from the queue, and after its sixth line it is gone. -/
theorem sjf_loses_process : ∃ s : Session,
    initializeScripts 3 copiesScript (numbered 1 ["a".toList])
      (beginSession 3 (fun _ => ⟨fun _ => none, 0, false, 0⟩) sevenLines) = some (0, s) ∧
    (∀ pcb ∈ s.queue, pcb.numberOfCommands ≤ 300) ∧ (s.queue.map PCB.pages).sum ≤ 3 ∧
    (∃ after, scheduleByPolicy 3 (fun _ shell => shell) "SJF".toList 2 ⟨s.store, s.queue, (), []⟩ = some (0, after) ∧
      after.queue = [] ∧ after.events = List.replicate 6 (.executed 1 "e".toList)) ∧
    ¬ Completes 3 (fun _ shell => shell) "SJF".toList ⟨s.store, s.queue, (), []⟩ := by
  refine ⟨_, rfl, by decide, by decide, ⟨_, rfl, rfl, rfl⟩, ?_⟩
  exact sjf_incomplete 2 rfl List.mem_cons_self (by decide)

end begun

end ShellOs.Paging
