import ShellOs.Kernel.QueueChain
import ShellOs.Lib.Bubble

/-! In what order `sort_ready_queue` leaves the queue. -/

namespace ShellOs.Kernel
open Lib

/-- The order of `swap_needed`: processes with priority first, then the smaller score. -/
def PCB.Precedes (p r : PCB) : Prop :=
  (p.priority = true ∧ r.priority = false) ∨ (p.priority = r.priority ∧ p.jobLengthScore < r.jobLengthScore)

instance (p r : PCB) : Decidable (p.Precedes r) := inferInstanceAs (Decidable (_ ∨ _))

namespace ReadyQueue

variable {q t : ReadyQueue} {l front back : List Addr} {a b z : Addr} {fuel limit : Nat}

def Precedes (q : ReadyQueue) (b a : Addr) : Prop := (q.pcbOf b).Precedes (q.pcbOf a)

instance (q : ReadyQueue) : DecidableRel q.Precedes := fun _ _ => inferInstanceAs (Decidable (PCB.Precedes _ _))

theorem precedes_weakOrder (q : ReadyQueue) : WeakOrder q.Precedes where
  asymm a b := by
    simp only [Precedes, PCB.Precedes]
    cases (q.pcbOf a).priority <;> cases (q.pcbOf b).priority <;> simp <;> omega
  split a b c := by
    simp only [Precedes, PCB.Precedes]
    cases (q.pcbOf a).priority <;> cases (q.pcbOf b).priority <;> cases (q.pcbOf c).priority <;> simp <;> omega

theorem swapNeeded_iff (link : q.next a = some b) : q.swapNeeded a = true ↔ q.Precedes b a := by
  simp only [swapNeeded, link, Precedes, PCB.Precedes, score]
  cases (q.pcbOf a).priority <;> cases (q.pcbOf b).priority <;> simp <;> exact decide_eq_true_iff

theorem SameProcesses.precedes (same : q.SameProcesses t) : t.Precedes = q.Precedes := by
  funext a b
  rw [Precedes, Precedes, same.pcbOf]

theorem sortPass_bubble (holds : q.Holds (front ++ a :: back)) (room : front.length + back.length + 1 < limit)
    (enough : back.length < fuel) (sorted : Bool) : ∃ t z done, sortPass limit fuel q a sorted = some (t, z, done) ∧
      t.Holds (front ++ bubble q.Precedes a back) ∧ t.next z = none ∧ q.SameProcesses t := by
  induction back generalizing q front a fuel sorted with
  | nil =>
    obtain ⟨fuel, rfl⟩ := Nat.exists_eq_succ_of_ne_zero (Nat.ne_of_gt enough)
    have fin : q.next a = none := Chain.link_last holds
    refine ⟨q, a, sorted, ?_, holds, fin, .refl q⟩
    rw [sortPass, fin]
  | cons b rest ih =>
    obtain ⟨fuel, rfl⟩ := Nat.exists_eq_succ_of_ne_zero (Nat.ne_of_gt (Nat.zero_lt_of_lt enough))
    have link : q.next a = some b := (chain_split.mp holds).2.1
    rw [List.length_cons] at room enough
    have further : rest.length < fuel := Nat.lt_of_succ_lt_succ enough
    rw [sortPass, link, bubble]
    by_cases needed : q.Precedes b a
    · obtain ⟨swapped, run, after⟩ := swapWithNext_spec holds (by omega : front.length + rest.length + 2 < limit)
      have next : swapped.Holds ((front ++ [b]) ++ a :: rest) := by rwa [List.append_assoc]
      have kept := same_swapWithNext run
      obtain ⟨t, z, done, went, chain, last, same⟩ := ih next (by simp; omega) further false
      simp only [(swapNeeded_iff link).mpr needed, if_true, run, Option.bind_eq_bind, Option.bind_some, if_pos needed]
      refine ⟨t, z, done, went, ?_, last, kept.trans same⟩
      simp only [kept.precedes, List.append_assoc] at chain
      exact chain
    · have next : q.Holds ((front ++ [a]) ++ b :: rest) := by rwa [List.append_assoc]
      obtain ⟨t, z, done, went, chain, last, same⟩ := ih next (by simp; omega) further sorted
      have stays : ¬ q.swapNeeded a = true := fun swap => needed ((swapNeeded_iff link).mp swap)
      simp only [stays, if_neg needed]
      refine ⟨t, z, done, went, ?_, last, same⟩
      rwa [List.append_assoc] at chain

/-- The sort is this one pass: the cursor is then at the end, where a second pass has nothing to do. -/
theorem sort_bubble (holds : q.Holds (a :: l)) (enough : l.length + 2 < fuel) : ∃ t,
    q.sortReadyQueue fuel = some t ∧ t.Holds (bubble q.Precedes a l) ∧ q.SameProcesses t := by
  have start : q.head = some a := holds.1
  have whole : q.Holds ([] ++ a :: l) := holds
  obtain ⟨t, z, done, went, chain, last, same⟩ :=
    sortPass_bubble whole (by simp; omega : ([] : List Addr).length + l.length + 1 < fuel) (by omega : l.length < fuel) true
  have again : ∀ n, sortPass fuel (n + 1) t z true = some (t, z, true) := fun n => by rw [sortPass, last]
  refine ⟨t, ?_, chain, same⟩
  obtain ⟨n, rfl⟩ : ∃ n, fuel = n + 2 := ⟨fuel - 2, by omega⟩
  rw [sortReadyQueue, start]
  simp only [sortLoop, went, again, Option.bind_eq_bind, Option.bind_some]
  cases done with
  | true => rfl
  | false => rfl

theorem sort_spec (holds : q.Holds l) (enough : l.length + 1 < fuel) :
    ∃ t m, q.sortReadyQueue fuel = some t ∧ t.Holds m ∧ m.Perm l ∧ q.SameProcesses t := by
  cases l with
  | nil =>
    have empty : q.head = none := holds
    refine ⟨q, [], ?_, holds, .rfl, .refl q⟩
    rw [sortReadyQueue, empty]
  | cons a rest =>
    obtain ⟨t, run, after, same⟩ := sort_bubble holds enough
    exact ⟨t, _, run, after, bubble_perm a rest, same⟩

/-- The sorted queue, and what `ready_queue_pop_shortest_job` takes from it. -/
def Sorts (q : ReadyQueue) (fuel : Nat) (l : List Addr) : Prop :=
  ∃ t m, q.sortReadyQueue fuel = some t ∧ t.Holds m ∧ m.Perm l ∧ InOrder t.Precedes m ∧
    ∀ b u, q.readyQueuePopShortestJob fuel = some (some b, u) → b ∈ l ∧ ∀ c ∈ l, ¬ q.Precedes c b

/-- The sort keeps the nodes, and sorts if and only if no node must come before two of those in front of it. -/
theorem sort_sorts (holds : q.Holds l) (enough : l.length + 1 < fuel) :
    (∃ t m, q.sortReadyQueue fuel = some t ∧ t.Holds m ∧ m.Perm l) ∧ (q.Sorts fuel l ↔ OnePass q.Precedes l) := by
  obtain ⟨u, m, sorts, keeps, perm, -⟩ := sort_spec holds enough
  refine ⟨⟨u, m, sorts, keeps, perm⟩, ?_⟩
  cases l with
  | nil =>
    have empty : q.head = none := holds
    refine iff_of_true ⟨q, [], by rw [sortReadyQueue, empty], holds, .rfl, List.Pairwise.nil, fun b u popped => ?_⟩ ?_
    · rw [readyQueuePopShortestJob, sortReadyQueue, empty, Option.map_some, popHead_nil holds] at popped
      cases popped
    · exact fun a b c triple => by cases triple
  | cons a rest =>
    obtain ⟨t, sorted, chain, same⟩ := sort_bubble holds enough
    have order := same.precedes
    rw [← bubble_inOrder (precedes_weakOrder q)]
    constructor
    · rintro ⟨u, m, run, inside, -, ordered, -⟩
      obtain rfl := Option.some_inj.mp (sorted.symm.trans run)
      rw [order, Chain.unique inside chain] at ordered
      exact ordered
    · intro ordered
      have perm : (bubble q.Precedes a rest).Perm (a :: rest) := bubble_perm a rest
      refine ⟨t, _, sorted, chain, perm, by rwa [order], fun b u popped => ?_⟩
      rw [readyQueuePopShortestJob, sorted, Option.map_some] at popped
      cases shape : bubble q.Precedes a rest with
      | nil =>
        rw [shape] at perm
        cases perm.symm.eq_nil
      | cons first others =>
        rw [shape] at chain ordered perm
        obtain ⟨v, pops, -⟩ := popHead_cons chain
        rw [pops] at popped
        obtain ⟨rfl, -⟩ : first = b ∧ v = u := by simpa using popped
        refine ⟨perm.mem_iff.mp List.mem_cons_self, fun c member precedes => ?_⟩
        rcases List.mem_cons.mp (perm.mem_iff.mpr member) with rfl | later
        · exact (precedes_weakOrder q).asymm c c precedes precedes
        · exact (List.pairwise_cons.mp ordered).1 c later precedes

end ReadyQueue

def fallingQueue : ReadyQueue where
  head := some 1
  node a := ⟨a, if a < 3 then some (a + 1) else none⟩
  pcb a := ⟨false, 4 - a⟩

theorem sort_sorts_falling : (∃ t m, fallingQueue.sortReadyQueue 5 = some t ∧ t.Holds m ∧ m.Perm [1, 2, 3]) ∧
    (fallingQueue.Sorts 5 [1, 2, 3] ↔ OnePass fallingQueue.Precedes [1, 2, 3]) :=
  ReadyQueue.sort_sorts ⟨rfl, rfl, rfl, rfl⟩ (by decide)

/-- Only the longest job is moved to its place, so the shortest one is not the first to be popped. -/
theorem sort_stops_early : fallingQueue.Holds [1, 2, 3] ∧ ¬ fallingQueue.Sorts 5 [1, 2, 3] := by
  refine ⟨⟨rfl, rfl, rfl, rfl⟩, ?_⟩
  rintro ⟨-, -, -, -, -, -, pops⟩
  obtain ⟨-, least⟩ := pops 2 _ rfl
  exact least 3 (by decide) (by decide)

end ShellOs.Kernel
