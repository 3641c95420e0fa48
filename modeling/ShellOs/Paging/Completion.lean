import Mathlib.Algebra.Order.BigOperators.Group.List
import Mathlib.Data.List.Perm.Subperm
import ShellOs.Paging.Turn

/-! The loop that all schedulers have, as long as there are empty frames for all the pages. -/

namespace ShellOs.Paging
open Lib
open Kernel (Text)

def PCB.unscored (pcb : PCB) : PCB := { pcb with jobLengthScore := 0 }

def SameQueue (queue others : List PCB) : Prop := (queue.map PCB.unscored).Perm (others.map PCB.unscored)

structure Takes (take : List PCB → Option (PCB × List PCB)) : Prop where
  empty : take [] = none
  takes : ∀ queue, queue ≠ [] → ∃ cur rest, take queue = some (cur, rest) ∧ SameQueue (cur :: rest) queue

/-- The processes of the ready queue have room for all their pages. -/
structure Ready {σ : Type} (shellFrames : Nat) (k : KernelState σ) : Prop where
  going : ∀ pcb ∈ k.queue, Going shellFrames k.store k.events pcb
  apart : (k.queue.map PCB.pid).Nodup
  room : (k.queue.map fun pcb => pcb.missing.card).sum ≤ (k.store.empties shellFrames).card

section take

variable {cur pcb : PCB} {queue rest others : List PCB} {score : Int}

theorem SameQueue.of_perm (perm : queue.Perm others) : SameQueue queue others := perm.map PCB.unscored

theorem sortReadyQueue_perm (queue : List PCB) : (sortReadyQueue queue).Perm queue := by
  cases queue with
  | nil => exact .rfl
  | cons cur rest => exact bubble_perm cur rest

theorem promote_perm (score : Int) (queue : List PCB) : (promote score queue).Perm queue := by
  rw [promote]
  induction queue with
  | nil => exact .rfl
  | cons cur rest ih =>
    by_cases here : cur.jobLengthScore = score
    · rw [List.find?_cons_of_pos (by simpa using here), List.eraseP_cons_of_pos (by simpa using here)]
    · rw [List.find?_cons_of_neg (by simpa using here), List.eraseP_cons_of_neg (by simpa using here)]
      cases found : rest.find? fun pcb => pcb.jobLengthScore = score with
      | none => exact .rfl
      | some pcb =>
        rw [found] at ih
        exact (List.Perm.swap cur pcb _).trans (ih.cons cur)

theorem decrement_same (queue : List PCB) : SameQueue (decrementJobLengthScore queue) queue := by
  have same : (decrementJobLengthScore queue).map PCB.unscored = queue.map PCB.unscored := by
    rw [decrementJobLengthScore, List.map_map]
    apply List.map_congr_left
    intro pcb _
    rw [Function.comp_apply]
    split
    · rfl
    · rfl
  rw [SameQueue, same]

theorem popHead_takes : Takes popHead where
  empty := rfl
  takes queue some' := by
    cases queue with
    | nil => exact absurd rfl some'
    | cons cur rest => exact ⟨cur, rest, rfl, .rfl⟩

theorem popShortestJob_takes : Takes popShortestJob where
  empty := rfl
  takes queue some' := by
    have perm := sortReadyQueue_perm queue
    rw [popShortestJob]
    cases sorted : sortReadyQueue queue with
    | nil =>
      rw [sorted] at perm
      exact absurd perm.nil_eq.symm some'
    | cons cur rest =>
      rw [sorted] at perm
      exact ⟨cur, rest, rfl, .of_perm perm⟩

theorem agingTake_takes : Takes agingTake where
  empty := rfl
  takes queue some' := by
    have lowered : ∀ {cur : PCB} {rest : List PCB}, (cur :: rest).Perm queue →
        SameQueue (cur :: decrementJobLengthScore rest) queue := by
      intro cur rest perm
      exact ((decrement_same rest).cons _).trans (perm.map PCB.unscored)
    cases queue with
    | nil => exact absurd rfl some'
    | cons cur rest =>
      simp only [agingTake, popHead, Option.bind_eq_bind, Option.bind_some]
      by_cases shorter : shortestJobScore rest < cur.jobLengthScore
      · have perm : (promote (shortestJobScore rest) rest ++ [cur]).Perm (cur :: rest) :=
          (List.perm_append_singleton cur _).trans ((promote_perm _ rest).cons cur)
        rw [if_pos shorter]
        cases turned : promote (shortestJobScore rest) rest ++ [cur] with
        | nil => exact absurd (congrArg List.length turned) (by simp)
        | cons next others =>
          rw [turned] at perm
          exact ⟨next, _, rfl, lowered perm⟩
      · rw [if_neg shorter]
        exact ⟨cur, _, rfl, lowered .rfl⟩

end take

section loop

variable {σ : Type} {shellFrames quanta fuel : Nat} {parseInput : Text → σ → σ} {k after : KernelState σ} {cur pcb : PCB}
  {queue rest : List PCB} {left : Option PCB} {take : List PCB → Option (PCB × List PCB)}
  {putBack : PCB → List PCB → List PCB}

theorem SameQueue.find (same : SameQueue queue rest) (member : pcb ∈ rest) :
    ∃ other ∈ queue, other.unscored = pcb.unscored :=
  List.mem_map.mp (same.mem_iff.mpr (List.mem_map_of_mem member))

theorem unscored_job {other : PCB} (same : other.unscored = pcb.unscored) :
    other.job = pcb.job ∧ other.missing = pcb.missing := by
  constructor
  · change other.unscored.job = pcb.unscored.job
    rw [same]
  · change other.unscored.missing = pcb.unscored.missing
    rw [same]

theorem map_unscored {α : Type} (f : PCB → α) (blind : ∀ pcb, f pcb.unscored = f pcb) (queue : List PCB) :
    queue.map f = (queue.map PCB.unscored).map f := by
  rw [List.map_map]
  exact List.map_congr_left fun pcb _ => (blind pcb).symm

theorem Going.unscored {s : FrameStore} {events : List Event} {other : PCB} (going : Going shellFrames s events pcb)
    (same : other.unscored = pcb.unscored) : Going shellFrames s events other := by
  have back : Going shellFrames s events pcb.unscored :=
    ⟨going.counted, going.short, going.position, going.within, going.pages, going.done⟩
  rw [← same] at back
  exact ⟨back.counted, back.short, back.position, back.within, back.pages, back.done⟩

theorem Ready.fewer (ready : Ready shellFrames k) (sub : (queue.map PCB.unscored).Subperm (k.queue.map PCB.unscored)) :
    Ready shellFrames { k with queue := queue } where
  going pcb member := by
    obtain ⟨other, within, same⟩ := List.mem_map.mp (sub.subset (List.mem_map_of_mem member))
    exact (ready.going other within).unscored same.symm
  apart := by
    obtain ⟨l, perm, sublist⟩ := sub
    have pids := sublist.map PCB.pid
    rw [← map_unscored PCB.pid fun _ => rfl] at pids
    rw [map_unscored PCB.pid fun _ => rfl, ← (perm.map PCB.pid).nodup_iff]
    exact ready.apart.sublist pids
  room := by
    obtain ⟨l, perm, sublist⟩ := sub
    have missing := (sublist.map fun pcb => pcb.missing.card).sum_le_sum
    rw [← map_unscored (fun pcb => pcb.missing.card) fun _ => rfl, (perm.map _).sum_eq,
      ← map_unscored (fun pcb => pcb.missing.card) fun _ => rfl] at missing
    exact Nat.le_trans (missing fun _ _ => Nat.zero_le _) ready.room

def PCB.work (pcb : PCB) : Nat := pcb.numberOfCommands - pcb.pc + pcb.missing.card + 1

def totalWork (queue : List PCB) : Nat := (queue.map PCB.work).sum

theorem SameQueue.totalWork (same : SameQueue queue rest) : totalWork queue = totalWork rest := by
  have work := same.map PCB.work
  rw [← map_unscored PCB.work fun _ => rfl, ← map_unscored PCB.work fun _ => rfl] at work
  exact work.sum_eq

theorem Ready.turn (ready : Ready shellFrames k) (same : SameQueue (cur :: rest) k.queue) (positive : 0 < quanta)
    (parseInput : Text → σ → σ) : ∃ left after,
      executeProcess shellFrames parseInput quanta cur { k with queue := rest } = some (left, after) ∧
      Turn shellFrames quanta cur { k with queue := rest } left after ∧
      Ready shellFrames { after with queue := left.toList ++ rest } ∧
      totalWork (left.toList ++ rest) < totalWork k.queue := by
  have here := ready.fewer same.subperm
  have room := here.room
  simp only [List.map_cons, List.sum_cons] at room
  have going := here.going cur List.mem_cons_self
  obtain ⟨left, after, result, turn⟩ := executeProcess_spec (k := { k with queue := rest }) parseInput quanta going
    (Nat.le_trans (Nat.le_add_right ..) room)
  refine ⟨left, after, result, turn, ?_, ?_⟩
  · have apart := here.apart
    rw [List.map_cons, List.nodup_cons] at apart
    have others : ∀ pcb ∈ rest, Going shellFrames after.store after.events pcb := by
      intro pcb member
      have other : pcb.pid ≠ cur.pid := by
        intro same
        exact apart.1 (same ▸ List.mem_map_of_mem member)
      have before := turn.keeps.going (here.going pcb (List.mem_cons_of_mem cur member))
      exact ⟨before.counted, before.short, before.position, before.within, before.pages,
        (turn.others pcb.pid other).trans before.done⟩
    cases left with
    | none =>
      refine ⟨others, apart.2, ?_⟩
      simp only [Option.toList_none, List.nil_append, (turn.ended rfl).2.2]
      omega
    | some next =>
      obtain ⟨job, goes, room'⟩ := turn.goes next rfl
      have pid : next.pid = cur.pid := congrArg Job.pid job
      refine ⟨fun pcb member => ?_, ?_, ?_⟩
      · rcases List.mem_cons.mp member with rfl | later
        · exact goes
        · exact others pcb later
      · simp only [Option.toList_some, List.singleton_append, List.map_cons, pid]
        exact here.apart
      · simp only [Option.toList_some, List.singleton_append, List.map_cons, List.sum_cons]
        rcases room' with ⟨-, fewer, taken⟩ | ⟨-, -, missing, empties⟩
        · simp only at taken
          omega
        · rw [missing, empties]
          exact room
  · rw [← same.totalWork, totalWork, totalWork, List.map_cons, List.sum_cons]
    cases left with
    | none =>
      simp only [Option.toList_none, List.nil_append, PCB.work]
      omega
    | some next =>
      obtain ⟨job, goes, room'⟩ := turn.goes next rfl
      have number : next.numberOfCommands = cur.numberOfCommands := congrArg Job.numberOfCommands job
      have within := goes.within
      simp only [Option.toList_some, List.singleton_append, List.map_cons, List.sum_cons, PCB.work, number]
      rcases room' with ⟨later, fewer, -⟩ | ⟨full, more, missing, -⟩
      · omega
      · rw [missing]
        omega

theorem Complete.congr {events others : List Event} {job : Job}
    (same : events.filter (fun event => event.pid = job.pid) = others.filter fun event => event.pid = job.pid) :
    Complete events job ↔ Complete others job := by
  rw [Complete, Complete, same]

theorem Going.not_complete {s : FrameStore} {events : List Event} (going : Going shellFrames s events pcb) :
    ¬ Complete events pcb.job := by
  rintro ⟨whole, -⟩
  have last : Event.terminated pcb.pid ∈ (pcb.job.lines.take pcb.pc).map (Event.executed pcb.pid) := by
    rw [← going.done]
    exact whole.symm ▸ List.mem_append_right _ List.mem_cons_self
  obtain ⟨line, -, absurd'⟩ := List.mem_map.mp last
  cases absurd'

/-- A scheduler that puts back each process that is not at its end, or else none, with so many quanta that no process is
preempted. -/
structure PutsBack (back : Prop) (quanta : Nat) (putBack : PCB → List PCB → List PCB) : Prop where
  positive : 0 < quanta
  returns : back → ∀ pcb queue, (putBack pcb queue).Perm (pcb :: queue)
  drops : ¬ back → 300 ≤ quanta ∧ ∀ pcb queue, putBack pcb queue = queue

def requeue (putBack : PCB → List PCB → List PCB) (left : Option PCB) (rest : List PCB) : List PCB :=
  left.elim rest fun pcb => putBack pcb rest

section requeue

variable {back : Prop}

theorem PutsBack.sub (puts : PutsBack back quanta putBack) (left : Option PCB) (rest : List PCB) :
    (requeue putBack left rest).Subperm (left.toList ++ rest) := by
  cases left with
  | none => exact .refl rest
  | some pcb =>
    change (putBack pcb rest).Subperm (pcb :: rest)
    by_cases always : back
    · exact (puts.returns always pcb rest).subperm
    · rw [(puts.drops always).2]
      exact (List.sublist_cons_self pcb rest).subperm

theorem PutsBack.waiting (puts : PutsBack back quanta putBack) (left : Option PCB) (later : pcb ∈ rest) :
    pcb ∈ requeue putBack left rest := by
  cases left with
  | none => exact later
  | some next =>
    change pcb ∈ putBack next rest
    by_cases always : back
    · exact (puts.returns always next rest).mem_iff.mpr (List.mem_cons_of_mem next later)
    · rw [(puts.drops always).2]
      exact later

theorem subperm_map {α β : Type} {l m : List α} (f : α → β) (sub : l.Subperm m) : (l.map f).Subperm (m.map f) := by
  obtain ⟨between, perm, sublist⟩ := sub
  exact ⟨between.map f, perm.map f, sublist.map f⟩

theorem totalWork_sub (sub : queue.Subperm rest) : totalWork queue ≤ totalWork rest := by
  obtain ⟨between, perm, sublist⟩ := subperm_map PCB.work sub
  rw [totalWork, totalWork, ← perm.sum_eq]
  exact sublist.sum_le_sum fun _ _ => Nat.zero_le _

theorem Turn.complete_iff (puts : PutsBack back quanta putBack) (turn : Turn shellFrames quanta cur k left after)
    (alone : cur.pid ∉ rest.map PCB.pid) {events : List Event}
    (others : ∀ pid ∉ (requeue putBack left rest).map PCB.pid,
      events.filter (fun event => event.pid = pid) = after.events.filter fun event => event.pid = pid)
    (complete : ∀ pcb ∈ requeue putBack left rest, (Complete events pcb.job ↔ back ∨ pcb.missing = ∅)) :
    Complete events cur.job ↔ back ∨ cur.missing = ∅ := by
  cases left with
  | none =>
    obtain ⟨ended, whole, -⟩ := turn.ended rfl
    exact iff_of_true ((Complete.congr (others cur.pid alone)).mpr ended) (.inr whole)
  | some next =>
    obtain ⟨own, going, goes⟩ := turn.goes next rfl
    change ∀ pcb ∈ putBack next rest, _ at complete
    by_cases always : back
    · have later : next ∈ putBack next rest := (puts.returns always next rest).mem_iff.mpr List.mem_cons_self
      rw [← own]
      exact iff_of_true ((complete next later).mpr (.inl always)) (.inl always)
    · obtain ⟨long, drops⟩ := puts.drops always
      have gone : next.job.pid ∉ (putBack next rest).map PCB.pid := by
        rw [drops next rest, own]
        exact alone
      refine iff_of_false (fun whole => ?_) (not_or.mpr ⟨always, fun nothing => ?_⟩)
      · rw [← own] at whole
        exact going.not_complete ((Complete.congr (others _ gone)).mp whole)
      · have short := going.short
        rcases goes with ⟨-, fewer, -⟩ | ⟨full, more, -⟩
        · rw [nothing] at fewer
          cases fewer
        · omega

end requeue

/-- A scheduler completes a process if and only if it puts it back at each page fault, or there is none. -/
theorem schedulerLoop_spec {back : Prop} (takes : Takes take) (puts : PutsBack back quanta putBack)
    (parseInput : Text → σ → σ) (ready : Ready shellFrames k) :
    ∃ fuel after, schedulerLoop shellFrames parseInput take putBack quanta fuel k = some after ∧ after.queue = [] ∧
      (∀ pid ∉ k.queue.map PCB.pid,
        after.events.filter (fun event => event.pid = pid) = k.events.filter fun event => event.pid = pid) ∧
      ∀ pcb ∈ k.queue, (Complete after.events pcb.job ↔ back ∨ pcb.missing = ∅) := by
  induction bound : totalWork k.queue using Nat.strong_induction_on generalizing k with
  | h work ih =>
    by_cases none' : k.queue = []
    · refine ⟨1, k, ?_, none', fun _ _ => rfl, fun pcb member => ?_⟩
      · rw [schedulerLoop, none', takes.empty]
      · rw [none'] at member
        cases member
    · obtain ⟨cur, rest, taken, same⟩ := takes.takes k.queue none'
      obtain ⟨left, turned, result, turn, still, less⟩ := ready.turn same puts.positive parseInput
      have apart := (ready.fewer same.subperm).apart
      rw [List.map_cons, List.nodup_cons] at apart
      have sub := puts.sub left rest
      have ready' : Ready shellFrames { turned with queue := requeue putBack left rest } :=
        still.fewer (subperm_map PCB.unscored sub)
      have less' : totalWork (requeue putBack left rest) < work := by
        rw [← bound]
        exact Nat.lt_of_le_of_lt (totalWork_sub sub) less
      obtain ⟨fuel, after, run, empty, others, complete⟩ := ih _ less' ready' rfl
      refine ⟨fuel + 1, after, ?_, empty, fun pid fresh => ?_, fun pcb member => ?_⟩
      · rw [schedulerLoop, taken]
        simp only [result, Option.bind_eq_bind, Option.bind_some]
        rw [show turned.queue = rest from turn.queue]
        cases left with
        | none => exact run
        | some pcb => exact run
      · have known : ∀ other ∈ cur :: rest, other.pid ≠ pid := by
          rintro other within rfl
          obtain ⟨pcb, member, same'⟩ := List.mem_map.mp (same.subset (List.mem_map_of_mem within))
          exact fresh (List.mem_map.mpr ⟨pcb, member, congrArg Job.pid (unscored_job same').1⟩)
        rw [others pid fun member => ?_]
        · exact turn.others pid (known cur List.mem_cons_self).symm
        · obtain ⟨other, within, rfl⟩ := List.mem_map.mp member
          rcases List.mem_append.mp (sub.subset within) with here | later
          · have own := congrArg Job.pid (turn.goes other (Option.mem_toList.mp here)).1
            exact known cur List.mem_cons_self own.symm
          · exact known other (List.mem_cons_of_mem cur later) rfl
      · obtain ⟨other, within, same'⟩ := same.find member
        obtain ⟨job, missing⟩ := unscored_job same'
        rw [← job, ← missing]
        rcases List.mem_cons.mp within with rfl | later
        · exact turn.complete_iff puts apart.1 others complete
        · exact complete other (puts.waiting left later)

theorem schedulerLoop_more (result : schedulerLoop shellFrames parseInput take putBack quanta fuel k = some after)
    (more : Nat) : schedulerLoop shellFrames parseInput take putBack quanta (fuel + more) k = some after := by
  induction fuel generalizing k with
  | zero => cases result
  | succ fuel ih =>
    rw [Nat.succ_add, schedulerLoop]
    rw [schedulerLoop] at result
    split at result
    next none' => exact result
    next cur rest taken =>
      obtain ⟨⟨left, turned⟩, executed, result⟩ := Option.bind_eq_some_iff.mp result
      simp only [executed, Option.bind_eq_bind, Option.bind_some]
      exact ih result

theorem schedulerLoop_unique {fuel' : Nat} {after' : KernelState σ}
    (result : schedulerLoop shellFrames parseInput take putBack quanta fuel k = some after)
    (result' : schedulerLoop shellFrames parseInput take putBack quanta fuel' k = some after') : after = after' := by
  have longer := schedulerLoop_more result fuel'
  rw [Nat.add_comm, schedulerLoop_more result' fuel] at longer
  exact (Option.some_inj.mp longer).symm

end loop

end ShellOs.Paging
