import ShellOs.Kernel.QueueCalls

/-! The scheduler that lets waiting processes age (`scheduler_AGING` of kernel.c). -/

namespace ShellOs.Kernel
open Lib

def maxInt : Int := 2147483646

namespace ReadyQueue

def shortestFrom (q : ReadyQueue) : Nat → Option Addr → Int → Option Int
  | 0, _, _ => none
  | _ + 1, none, shortest => some shortest
  | fuel + 1, some cur, shortest =>
    shortestFrom q fuel (q.next cur) (if q.score cur < shortest then q.score cur else shortest)

def readyQueueGetShortestJobScore (fuel : Nat) (q : ReadyQueue) : Option Int := q.shortestFrom fuel q.head maxInt

/-- The first half of an iteration of `scheduler_AGING`: the head, or a shorter job in its place. -/
def agingChoose (fuel : Nat) (q : ReadyQueue) : Option (Addr × ReadyQueue) := do
  let popped := q.readyQueuePopHead
  let cur ← popped.1
  let q := popped.2
  let shortest ← q.readyQueueGetShortestJobScore fuel
  if shortest < q.score cur then do
    let q ← q.readyQueuePromote fuel shortest
    let q ← q.readyQueueAddToTail fuel cur
    let popped := q.readyQueuePopHead
    let cur ← popped.1
    some (cur, popped.2)
  else some (cur, q)

/-- An iteration up to the call of `execute_process`: the node for it, and the queue at the call. -/
def agingPick (fuel : Nat) (q : ReadyQueue) : Option (Addr × ReadyQueue) := do
  let (cur, q) ← q.agingChoose fuel
  let q ← q.readyQueueDecrementJobLengthScore fuel
  some (cur, q)

variable {q t u : ReadyQueue} {l m front back : List Addr} {a b c z node : Addr} {fuel : Nat} {s : Int}

def lower (p : PCB) : PCB := if 0 < p.jobLengthScore then { p with jobLengthScore := p.jobLengthScore - 1 } else p

theorem lower_score (p : PCB) (low : 0 ≤ p.jobLengthScore) : (lower p).jobLengthScore = max 0 (p.jobLengthScore - 1) := by
  rw [lower]
  split
  · simp only
    omega
  · omega

def processes (q : ReadyQueue) (l : List Addr) : List Addr := l.map fun a => (q.node a).pcb

/-- The nodes of the queue, each with a process of its own, whose scores are below MAX_INT. -/
structure Valid (q : ReadyQueue) (l : List Addr) : Prop where
  holds : q.Holds l
  own : (q.processes l).Nodup
  scores : ∀ a ∈ l, 0 ≤ q.score a ∧ q.score a < maxInt

theorem SameProcesses.score (same : q.SameProcesses t) (a : Addr) : t.score a = q.score a := by
  rw [ReadyQueue.score, ReadyQueue.score, same.pcbOf]

theorem SameProcesses.processes (same : q.SameProcesses t) (l : List Addr) : t.processes l = q.processes l :=
  List.map_congr_left fun a _ => same.node a

theorem shortestFrom_spec {p : Option Addr} (chain : Chain q.next p l) (enough : l.length < fuel) :
    ∃ r, q.shortestFrom fuel p s = some r ∧ r ≤ s ∧ (∀ a ∈ l, r ≤ q.score a) ∧ (r = s ∨ ∃ a ∈ l, q.score a = r) := by
  induction l generalizing p fuel s with
  | nil =>
    obtain ⟨fuel, rfl⟩ := Nat.exists_eq_succ_of_ne_zero (Nat.ne_of_gt enough)
    obtain rfl : p = none := chain
    exact ⟨s, rfl, Int.le_refl s, fun a member => absurd member List.not_mem_nil, .inl rfl⟩
  | cons a rest ih =>
    obtain ⟨fuel, rfl⟩ := Nat.exists_eq_succ_of_ne_zero (Nat.ne_of_gt (Nat.zero_lt_of_lt enough))
    obtain ⟨rfl, behind⟩ := chain
    obtain ⟨r, found, low, least, origin⟩ :=
      ih (s := if q.score a < s then q.score a else s) behind (Nat.lt_of_succ_lt_succ enough)
    refine ⟨r, found, ?_, fun b member => ?_, ?_⟩
    · split at low <;> omega
    · rcases List.mem_cons.mp member with rfl | later
      · split at low <;> omega
      · exact least b later
    · rcases origin with same | ⟨b, member, same⟩
      · split at same
        · exact .inr ⟨a, List.mem_cons_self, same.symm⟩
        · exact .inl same
      · exact .inr ⟨b, List.mem_cons_of_mem a member, same⟩

theorem decrementFrom_lowers {p : Option Addr} (chain : Chain q.next p l) (own : (q.processes l).Nodup)
    (enough : l.length < fuel) : ∃ t, decrementFrom fuel q p = some t ∧ t.head = q.head ∧ t.node = q.node ∧
      ∀ x, t.pcb x = if x ∈ q.processes l then lower (q.pcb x) else q.pcb x := by
  induction l generalizing p q fuel with
  | nil =>
    obtain ⟨fuel, rfl⟩ := Nat.exists_eq_succ_of_ne_zero (Nat.ne_of_gt enough)
    obtain rfl : p = none := chain
    exact ⟨q, rfl, rfl, rfl, fun x => (if_neg List.not_mem_nil).symm⟩
  | cons a rest ih =>
    obtain ⟨fuel, rfl⟩ := Nat.exists_eq_succ_of_ne_zero (Nat.ne_of_gt (Nat.zero_lt_of_lt enough))
    obtain ⟨rfl, behind⟩ := chain
    obtain ⟨alone, own⟩ := List.nodup_cons.mp own
    let lowered : ReadyQueue := { q with pcb := Function.update q.pcb (q.node a).pcb (lower (q.pcbOf a)) }
    obtain ⟨t, run, head, node, lowers⟩ := ih (q := lowered) behind own (Nat.lt_of_succ_lt_succ enough)
    refine ⟨t, run, head, node, fun x => ?_⟩
    have later : lowered.processes rest = q.processes rest := rfl
    have whole : q.processes (a :: rest) = (q.node a).pcb :: q.processes rest := rfl
    rw [lowers x, later, whole]
    by_cases here : x = (q.node a).pcb
    · have absent : (q.node a).pcb ∉ q.processes rest := alone
      rw [here, if_neg absent, if_pos List.mem_cons_self]
      exact Function.update_self ..
    · have other : lowered.pcb x = q.pcb x := Function.update_of_ne here _ _
      rw [other]
      by_cases member : x ∈ q.processes rest
      · rw [if_pos member, if_pos (List.mem_cons_of_mem _ member)]
      · rw [if_neg member, if_neg fun both => (List.mem_cons.mp both).elim here member]

theorem same_addToTail (run : q.readyQueueAddToTail fuel node = some t) : q.SameProcesses t := by
  rw [readyQueueAddToTail] at run
  split at run
  · obtain rfl := Option.some_inj.mp run
    exact (same_head q _).trans (same_setNext _ node _)
  · obtain ⟨cur, -, rfl⟩ := Option.map_eq_some_iff.mp run
    exact (same_setNext q cur _).trans (same_setNext _ node _)

theorem same_popHead (q : ReadyQueue) : q.SameProcesses q.readyQueuePopHead.2 := by
  rw [readyQueuePopHead]
  split
  · exact .refl q
  · exact same_head q _

theorem same_addToHead (q : ReadyQueue) (node : Addr) : q.SameProcesses (q.readyQueueAddToHead node) := by
  rw [readyQueueAddToHead]
  split
  · exact (same_head q _).trans (same_setNext _ node _)
  · exact (same_setNext q node _).trans (same_head _ _)

theorem agingChoose_spec (valid : q.Valid (a :: l)) (enough : l.length + 1 < fuel) : ∃ b t m,
    q.agingChoose fuel = some (b, t) ∧ t.Holds m ∧ (b :: m).Perm (a :: l) ∧ q.SameProcesses t ∧
    (∀ c ∈ a :: l, q.score b ≤ q.score c) ∧ (b = a ↔ ∀ c ∈ l, q.score a ≤ q.score c) := by
  obtain ⟨popped, pops, behind⟩ := popHead_cons valid.holds
  have samePop : q.SameProcesses popped := by
    have same := same_popHead q
    rwa [pops] at same
  have bound := (valid.scores a List.mem_cons_self).2
  obtain ⟨r, found, -, least, origin⟩ := shortestFrom_spec (s := maxInt) behind (Nat.lt_of_succ_lt enough)
  simp only [samePop.score] at least origin
  simp only [agingChoose, pops, Option.bind_eq_bind, Option.bind_some, readyQueueGetShortestJobScore, found, samePop.score]
  by_cases shorter : r < q.score a
  · obtain ⟨c, member, same⟩ := origin.resolve_left (by omega)
    cases l with
    | nil => cases member
    | cons d rest =>
      rw [List.length_cons] at enough
      obtain ⟨promoted, b, m, run, chain, perm, samePromoted, first⟩ :=
        promote_spec r behind (by omega : rest.length < fuel)
      have score : q.score b = r := by
        rw [← samePop.score]
        exact first ⟨c, member, by rw [samePop.score, same]⟩
      have size := perm.length_eq
      rw [List.length_cons, List.length_cons] at size
      have absent : a ∉ b :: m := fun inside =>
        (List.nodup_cons.mp (Chain.nodup valid.holds)).1 (perm.mem_iff.mp inside)
      obtain ⟨added, appends, whole⟩ := addToTail_spec chain absent (by rw [List.length_cons]; omega : (b :: m).length < fuel)
      have sameAdded := samePromoted.trans (same_addToTail appends)
      obtain ⟨t, popsAgain, holds⟩ := popHead_cons (by simpa using whole : added.Holds (b :: (m ++ [a])))
      have sameAgain := same_popHead added
      rw [popsAgain] at sameAgain
      refine ⟨b, t, m ++ [a], ?_, holds, ?_, samePop.trans (sameAdded.trans sameAgain), fun d inside => ?_, ?_⟩
      · simp only [if_pos shorter, run, appends, popsAgain, Option.bind_some]
      · exact (List.perm_append_singleton a (b :: m)).trans (perm.cons a)
      · rw [score]
        rcases List.mem_cons.mp inside with rfl | later
        · omega
        · exact least d later
      · refine iff_of_false (fun equal => absent (equal ▸ List.mem_cons_self)) fun all => ?_
        have below := all c member
        omega
  · refine ⟨a, popped, l, by rw [if_neg shorter], behind, .rfl, samePop, fun c inside => ?_, iff_of_true rfl fun c inside => ?_⟩
    · rcases List.mem_cons.mp inside with rfl | later
      · exact Int.le_refl _
      · have low := least c later
        omega
    · have low := least c inside
      omega

/-- What one iteration does before it calls `execute_process`: node `b` is taken out and `m` is left in the queue. -/
structure Picked (q t : ReadyQueue) (a b : Addr) (l m : List Addr) : Prop where
  holds : t.Holds m
  same : (b :: m).Perm (a :: l)
  shortest : ∀ c ∈ a :: l, q.score b ≤ q.score c
  kept : b = a ↔ ∀ c ∈ l, q.score a ≤ q.score c
  lowered : ∀ c ∈ m, t.score c = max 0 (q.score c - 1)
  others : ∀ x, x ∉ q.processes m → t.pcb x = q.pcb x
  node : ∀ c, (t.node c).pcb = (q.node c).pcb

theorem agingPick_spec (valid : q.Valid (a :: l)) (enough : l.length + 1 < fuel) :
    ∃ b t m, q.agingPick fuel = some (b, t) ∧ Picked q t a b l m := by
  obtain ⟨b, chosen, m, run, holds, perm, same, least, kept⟩ := agingChoose_spec valid enough
  have size := perm.length_eq
  rw [List.length_cons, List.length_cons] at size
  have own : (q.processes (b :: m)).Nodup := (perm.map _).nodup_iff.mpr valid.own
  have ownRest : (chosen.processes m).Nodup := by
    rw [same.processes]
    exact (List.nodup_cons.mp own).2
  obtain ⟨t, lowers, head, node, pcb⟩ := decrementFrom_lowers holds ownRest (by omega : m.length < fuel)
  have lowered : chosen.readyQueueDecrementJobLengthScore fuel = some t := lowers
  simp only [same.processes, same.pcb] at pcb
  have links : t.next = chosen.next := by
    funext c
    rw [next, next, node]
  refine ⟨b, t, m, ?_, ?_, perm, least, kept, fun c member => ?_, fun x outside => ?_, fun c => ?_⟩
  · simp only [agingPick, run, Option.bind_eq_bind, Option.bind_some, lowered]
  · rw [Holds, head, links]
    exact holds
  · have inside : (q.node c).pcb ∈ q.processes m := List.mem_map_of_mem member
    have low := (valid.scores c (perm.mem_iff.mp (List.mem_cons_of_mem b member))).1
    calc
      t.score c = (lower (q.pcbOf c)).jobLengthScore := by
        rw [score, pcbOf, node, same.node, pcb, if_pos inside]
        rfl
      _ = max 0 (q.score c - 1) := lower_score _ low
  · rw [pcb, if_neg outside]
  · rw [node, same.node]

/-- What `execute_process` may leave of the queue and, if it is not finished, of the process it was given: processes of
their own with scores in range. -/
structure Executed (u : ReadyQueue) (b : Addr) (m : List Addr) (finished : Bool) : Prop where
  holds : u.Holds m
  own : (u.processes (if finished then m else b :: m)).Nodup
  scores : ∀ c ∈ if finished then m else b :: m, 0 ≤ u.score c ∧ u.score c < maxInt

/-- A run of `scheduler_AGING` to the top of its loop, with all that `execute_process` may do. -/
inductive AgingRun : ReadyQueue → List Addr → Prop
  | start {q t : ReadyQueue} {l m : List Addr} {fuel : Nat} (valid : q.Valid l) (sort : q.sortReadyQueue fuel = some t)
      (holds : t.Holds m) : AgingRun t m
  | next {q t u : ReadyQueue} {a b : Addr} {l m : List Addr} {fuel : Nat} (finished : Bool) (before : AgingRun q (a :: l))
      (pick : q.agingPick fuel = some (b, t)) (executed : Executed u b m finished) :
      AgingRun (if finished then u else u.readyQueueAddToHead b) (if finished then m else b :: m)

theorem Picked.executed (picked : Picked q t a b l m) (valid : q.Valid (a :: l)) : Executed t b m false where
  holds := picked.holds
  own := by
    have own : (q.processes (b :: m)).Nodup := (picked.same.map _).nodup_iff.mpr valid.own
    have names : t.processes (b :: m) = q.processes (b :: m) := List.map_congr_left fun c _ => picked.node c
    rw [if_neg Bool.false_ne_true, names]
    exact own
  scores c member := by
    have own : (q.processes (b :: m)).Nodup := (picked.same.map _).nodup_iff.mpr valid.own
    rw [if_neg Bool.false_ne_true] at member
    have range := valid.scores c (picked.same.mem_iff.mp member)
    rcases List.mem_cons.mp member with rfl | later
    · have unchanged : t.score c = q.score c := by
        rw [score, score, pcbOf, pcbOf, picked.node, picked.others _ (List.nodup_cons.mp own).1]
      omega
    · have lowered := picked.lowered c later
      omega

theorem AgingRun.valid (run : AgingRun q l) : q.Valid l := by
  cases run with
  | @start q t l m fuel valid sort holds =>
    obtain ⟨u, order, sorted, chain, perm, same⟩ := sort_spec valid.holds (by omega : l.length + 1 < max fuel (l.length + 2))
    have more := sort_mono sort (Nat.le_max_left fuel (l.length + 2))
    obtain rfl := Option.some_inj.mp (sorted.symm.trans more)
    obtain rfl := Chain.unique holds chain
    refine ⟨holds, ?_, fun a member => ?_⟩
    · rw [same.processes]
      exact (perm.map _).nodup_iff.mpr valid.own
    · rw [same.score]
      exact valid.scores a (perm.mem_iff.mp member)
  | @next q t u a b l m fuel finished before pick executed =>
    obtain ⟨holds, own, scores⟩ := executed
    cases finished with
    | true => exact ⟨holds, own, scores⟩
    | false =>
      have same := same_addToHead u b
      have fresh : b ∉ m := fun member => (List.nodup_cons.mp own).1 (List.mem_map_of_mem member)
      refine ⟨addToHead_spec holds fresh, ?_, fun c member => ?_⟩
      · rw [if_neg Bool.false_ne_true, if_neg Bool.false_ne_true, same.processes]
        exact own
      · rw [if_neg Bool.false_ne_true, same.score]
        exact scores c member

/-- Aging runs a shortest job: in every iteration of every run the process handed over has the least score of all that
are in the queue, the head gives way only to a smaller score, and the processes left in the queue, and no other, are
lowered by one, but not below zero. -/
theorem aging_shortest (run : AgingRun q (a :: l)) (enough : l.length + 1 < fuel) :
    ∃ b t m, q.agingPick fuel = some (b, t) ∧ Picked q t a b l m :=
  agingPick_spec run.valid enough

end ReadyQueue

/-- The falling queue is sorted halfway, and its head gives way to the node with score 1. -/
theorem aging_shortest_falling : ∃ q a l, ReadyQueue.AgingRun q (a :: l) ∧
    ∃ b t m, q.agingPick 5 = some (b, t) ∧ ReadyQueue.Picked q t a b l m := by
  have valid : fallingQueue.Valid [1, 2, 3] :=
    ⟨⟨rfl, rfl, rfl, rfl⟩, by decide, by decide⟩
  have run : ReadyQueue.AgingRun _ [2, 3, 1] := @ReadyQueue.AgingRun.start _ _ _ _ 5 valid rfl ⟨rfl, rfl, rfl, rfl⟩
  exact ⟨_, 2, [3, 1], run, ReadyQueue.aging_shortest run (by decide)⟩

end ShellOs.Kernel
