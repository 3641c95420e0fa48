import ShellOs.Kernel.QueueOrder

/-! What holds of the ready queue however it is called. -/

namespace ShellOs.Kernel
open Lib

namespace ReadyQueue

variable {q : ReadyQueue} {l : List Addr} {a z node : Addr} {fuel limit : Nat}

theorem popShortestJob_nil (holds : q.Holds []) (enough : 1 < fuel) :
    ∃ t, q.readyQueuePopShortestJob fuel = some (none, t) ∧ t.Holds [] := by
  obtain ⟨t, m, run, kept, perm, -⟩ := sort_spec holds enough
  obtain rfl := perm.eq_nil
  refine ⟨t, ?_, kept⟩
  rw [readyQueuePopShortestJob, run, Option.map_some, popHead_nil kept]

theorem popShortestJob_cons (holds : q.Holds (a :: l)) (enough : l.length + 2 < fuel) :
    ∃ t b m, q.readyQueuePopShortestJob fuel = some (some b, t) ∧ t.Holds m ∧ (b :: m).Perm (a :: l) := by
  obtain ⟨s, order, run, kept, perm, -⟩ := sort_spec holds (by simp; omega)
  cases order with
  | nil => cases perm.symm.eq_nil
  | cons b m =>
    obtain ⟨t, popped, later⟩ := popHead_cons kept
    refine ⟨t, b, m, ?_, later, perm⟩
    rw [readyQueuePopShortestJob, run, Option.map_some, popped]

section mono

variable {more : Nat}

theorem lastNode_mono (run : q.lastNode fuel a = some z) (le : fuel ≤ more) : q.lastNode more a = some z := by
  induction fuel generalizing a more with
  | zero => cases run
  | succ fuel ih =>
    obtain ⟨more, rfl⟩ := Nat.exists_eq_add_of_lt le
    rw [lastNode] at run ⊢
    cases link : q.next a with
    | none =>
      rw [link] at run
      exact run
    | some next =>
      rw [link] at run
      exact ih run (Nat.le_add_right fuel more)

theorem decrementFrom_mono {t : ReadyQueue} {p : Option Addr} (run : decrementFrom fuel q p = some t) (le : fuel ≤ more) :
    decrementFrom more q p = some t := by
  induction fuel generalizing q p more with
  | zero => cases run
  | succ fuel ih =>
    obtain ⟨more, rfl⟩ := Nat.exists_eq_add_of_lt le
    cases p with
    | none => exact run
    | some cur =>
      rw [decrementFrom] at run ⊢
      exact ih run (Nat.le_add_right fuel more)

theorem findBefore_mono {p found : Option Addr} (run : q.findBefore a fuel p = some found) (le : fuel ≤ more) :
    q.findBefore a more p = some found := by
  induction fuel generalizing p more with
  | zero => cases run
  | succ fuel ih =>
    obtain ⟨more, rfl⟩ := Nat.exists_eq_add_of_lt le
    cases p with
    | none => exact run
    | some cur =>
      rw [findBefore] at run ⊢
      by_cases here : q.next cur = some a
      · rw [if_pos here] at run ⊢
        exact run
      · rw [if_neg here] at run ⊢
        exact ih run (Nat.le_add_right fuel more)

theorem findPromoted_mono {score : Int} (run : q.findPromoted score fuel a = some z) (le : fuel ≤ more) :
    q.findPromoted score more a = some z := by
  induction fuel generalizing a more with
  | zero => cases run
  | succ fuel ih =>
    obtain ⟨more, rfl⟩ := Nat.exists_eq_add_of_lt le
    rw [findPromoted] at run ⊢
    cases link : q.next a with
    | none =>
      rw [link] at run
      exact run
    | some next =>
      simp only [link] at run ⊢
      by_cases here : q.score next = score
      · rw [if_pos here] at run ⊢
        exact run
      · rw [if_neg here] at run ⊢
        exact ih run (Nat.le_add_right fuel more)

theorem swapWithNext_mono {t : ReadyQueue} (run : q.readyQueueSwapWithNext fuel a = some t) (le : fuel ≤ more) :
    q.readyQueueSwapWithNext more a = some t := by
  simp only [readyQueueSwapWithNext, Option.bind_eq_bind, Option.bind_eq_some_iff] at run ⊢
  obtain ⟨s, swapped, before, found, rest⟩ := run
  exact ⟨s, swapped, before, findBefore_mono found le, rest⟩

theorem sortPass_mono {r : ReadyQueue × Addr × Bool} {wider : Nat} {sorted : Bool}
    (run : sortPass limit fuel q a sorted = some r) (le : fuel ≤ more) (wide : limit ≤ wider) :
    sortPass wider more q a sorted = some r := by
  induction fuel generalizing q a sorted more with
  | zero => cases run
  | succ fuel ih =>
    obtain ⟨more, rfl⟩ := Nat.exists_eq_add_of_lt le
    rw [sortPass] at run ⊢
    cases link : q.next a with
    | none =>
      rw [link] at run
      exact run
    | some next =>
      simp only [link] at run ⊢
      by_cases needed : q.swapNeeded a
      · simp only [needed, if_true, Option.bind_eq_bind, Option.bind_eq_some_iff] at run ⊢
        obtain ⟨s, swapped, rest⟩ := run
        exact ⟨s, swapWithNext_mono swapped wide, ih rest (Nat.le_add_right fuel more)⟩
      · rw [if_neg needed] at run ⊢
        exact ih run (Nat.le_add_right fuel more)

theorem sortLoop_mono {t : ReadyQueue} {wider : Nat} (run : sortLoop limit fuel q a = some t) (le : fuel ≤ more)
    (wide : limit ≤ wider) : sortLoop wider more q a = some t := by
  induction fuel generalizing q a more with
  | zero => cases run
  | succ fuel ih =>
    obtain ⟨more, rfl⟩ := Nat.exists_eq_add_of_lt le
    simp only [sortLoop, Option.bind_eq_bind, Option.bind_eq_some_iff] at run ⊢
    obtain ⟨⟨s, cur, sorted⟩, pass, rest⟩ := run
    refine ⟨(s, cur, sorted), sortPass_mono pass wide wide, ?_⟩
    cases sorted with
    | true => exact rest
    | false => exact ih rest (Nat.le_add_right fuel more)

theorem sort_mono {t : ReadyQueue} (run : q.sortReadyQueue fuel = some t) (le : fuel ≤ more) :
    q.sortReadyQueue more = some t := by
  rw [sortReadyQueue] at run ⊢
  cases start : q.head with
  | none =>
    rw [start] at run
    exact run
  | some head =>
    rw [start] at run
    exact sortLoop_mono run le le

theorem addToTail_mono {t : ReadyQueue} (run : q.readyQueueAddToTail fuel node = some t) (le : fuel ≤ more) :
    q.readyQueueAddToTail more node = some t := by
  rw [readyQueueAddToTail] at run ⊢
  cases start : q.head with
  | none =>
    rw [start] at run
    exact run
  | some head =>
    simp only [start, Option.map_eq_some_iff] at run ⊢
    obtain ⟨z, last, linked⟩ := run
    exact ⟨z, lastNode_mono last le, linked⟩

theorem promote_mono {t : ReadyQueue} {score : Int} (run : q.readyQueuePromote fuel score = some t) (le : fuel ≤ more) :
    q.readyQueuePromote more score = some t := by
  simp only [readyQueuePromote, Option.bind_eq_bind, Option.bind_eq_some_iff] at run ⊢
  obtain ⟨head, start, rest⟩ := run
  refine ⟨head, start, ?_⟩
  by_cases already : q.score head = score
  · rw [if_pos already] at rest ⊢
    exact rest
  · rw [if_neg already, Option.bind_eq_some_iff] at rest ⊢
    obtain ⟨cur, found, moved⟩ := rest
    exact ⟨cur, findPromoted_mono found le, moved⟩

end mono

end ReadyQueue

namespace QueueCall

variable {q t : ReadyQueue} {l waiting : List Addr} {popped : Option Addr} {fuel more : Nat}

theorem run_mono {call : QueueCall} {r : Option Addr × ReadyQueue} (run : call.run fuel q = some r) (le : fuel ≤ more) :
    call.run more q = some r := by
  cases call with
  | addToTail node =>
    obtain ⟨t, added, rfl⟩ := Option.map_eq_some_iff.mp run
    exact Option.map_eq_some_iff.mpr ⟨t, ReadyQueue.addToTail_mono added le, rfl⟩
  | addToHead node => exact run
  | popHead => exact run
  | sort =>
    obtain ⟨t, sorted, rfl⟩ := Option.map_eq_some_iff.mp run
    exact Option.map_eq_some_iff.mpr ⟨t, ReadyQueue.sort_mono sorted le, rfl⟩
  | popShortestJob =>
    obtain ⟨t, sorted, rfl⟩ := Option.map_eq_some_iff.mp run
    exact Option.map_eq_some_iff.mpr ⟨t, ReadyQueue.sort_mono sorted le, rfl⟩
  | decrementJobLengthScore =>
    obtain ⟨t, lowered, rfl⟩ := Option.map_eq_some_iff.mp run
    exact Option.map_eq_some_iff.mpr ⟨t, ReadyQueue.decrementFrom_mono lowered le, rfl⟩
  | promote score =>
    obtain ⟨t, promoted, rfl⟩ := Option.map_eq_some_iff.mp run
    exact Option.map_eq_some_iff.mpr ⟨t, ReadyQueue.promote_mono promoted le, rfl⟩

/-- A node is added only if it is not in the queue, and nothing is promoted in an empty one. -/
def Allowed (waiting : List Addr) : QueueCall → Prop
  | .addToTail node => node ∉ waiting
  | .addToHead node => node ∉ waiting
  | .promote _ => waiting ≠ []
  | _ => True

/-- The nodes that were added and not popped, after a call that has popped this one. -/
def after (waiting : List Addr) (popped : Option Addr) : QueueCall → List Addr
  | .addToTail node => node :: waiting
  | .addToHead node => node :: waiting
  | _ => popped.elim waiting waiting.erase

/-- The step lemma: an allowed call comes back, and leaves a chain of the nodes that are waiting then. -/
theorem run_spec {call : QueueCall} (holds : q.Holds l) (perm : l.Perm waiting) (allowed : call.Allowed waiting)
    (enough : l.length + 2 < fuel) : ∃ popped t m, call.run fuel q = some (popped, t) ∧ t.Holds m ∧
      m.Perm (call.after waiting popped) := by
  have notHere : ∀ {node}, node ∉ waiting → node ∉ l := fun fresh member => fresh (perm.mem_iff.mp member)
  cases call with
  | addToTail node =>
    obtain ⟨t, run, after⟩ := ReadyQueue.addToTail_spec holds (notHere allowed) (by omega : l.length < fuel)
    refine ⟨none, t, l ++ [node], by rw [QueueCall.run, run]; rfl, after, ?_⟩
    exact List.perm_append_comm.trans (perm.cons node)
  | addToHead node =>
    exact ⟨none, _, node :: l, rfl, ReadyQueue.addToHead_spec holds (notHere allowed), perm.cons node⟩
  | popHead =>
    cases l with
    | nil =>
      refine ⟨none, q, [], ?_, holds, perm⟩
      rw [QueueCall.run, ReadyQueue.popHead_nil holds]
    | cons a rest =>
      obtain ⟨t, run, after⟩ := ReadyQueue.popHead_cons holds
      refine ⟨some a, t, rest, by rw [QueueCall.run, run], after, ?_⟩
      exact (List.cons_perm_iff_perm_erase.mp perm).2
  | sort =>
    obtain ⟨t, m, run, after, sorted, -⟩ := ReadyQueue.sort_spec holds (by omega : l.length + 1 < fuel)
    exact ⟨none, t, m, by rw [QueueCall.run, run]; rfl, after, sorted.trans perm⟩
  | popShortestJob =>
    cases l with
    | nil =>
      obtain ⟨t, run, after⟩ := ReadyQueue.popShortestJob_nil holds (by omega : 1 < fuel)
      exact ⟨none, t, [], run, after, perm⟩
    | cons a rest =>
      rw [List.length_cons] at enough
      obtain ⟨t, b, m, run, after, sorted⟩ := ReadyQueue.popShortestJob_cons holds (by omega : rest.length + 2 < fuel)
      exact ⟨some b, t, m, run, after, (List.cons_perm_iff_perm_erase.mp (sorted.trans perm)).2⟩
  | decrementJobLengthScore =>
    obtain ⟨t, run, after⟩ := ReadyQueue.decrement_spec holds (by omega : l.length < fuel)
    exact ⟨none, t, l, by rw [QueueCall.run, run]; rfl, after, perm⟩
  | promote score =>
    cases l with
    | nil => exact absurd perm.symm.eq_nil allowed
    | cons a rest =>
      rw [List.length_cons] at enough
      obtain ⟨t, b, m, run, after, moved, -⟩ := ReadyQueue.promote_spec score holds (by omega : rest.length < fuel)
      exact ⟨none, t, b :: m, by rw [QueueCall.run, run]; rfl, after, moved.trans perm⟩

end QueueCall

/-- A sequence of calls from an empty queue, with the nodes that were added and not popped. -/
inductive QueueRun (start : ReadyQueue) : ReadyQueue → List Addr → Prop
  | start : QueueRun start start []
  | call {q t : ReadyQueue} {waiting : List Addr} {fuel : Nat} {popped : Option Addr} (call : QueueCall)
      (before : QueueRun start q waiting) (allowed : call.Allowed waiting) (run : call.run fuel q = some (popped, t)) :
      QueueRun start t (call.after waiting popped)

theorem QueueRun.holds {start q : ReadyQueue} {waiting : List Addr} (empty : start.head = none)
    (calls : QueueRun start q waiting) : ∃ l, q.Holds l ∧ l.Perm waiting := by
  induction calls with
  | start => exact ⟨[], empty, .rfl⟩
  | @call q t waiting fuel popped call _ allowed run ih =>
    obtain ⟨l, holds, perm⟩ := ih
    obtain ⟨other, u, m, again, after, order⟩ :=
      QueueCall.run_spec holds perm allowed (by omega : l.length + 2 < fuel + (l.length + 3))
    have same := (QueueCall.run_mono run (Nat.le_add_right fuel _)).symm.trans again
    obtain ⟨rfl, rfl⟩ := Prod.mk.inj (Option.some.inj same)
    exact ⟨m, after, order⟩

/-- However it is called, the ready queue is a chain from its head to the null pointer in which every node that was
added and not yet popped stands exactly once, and every call comes back. -/
theorem readyQueue_keeps {start q : ReadyQueue} {waiting : List Addr} (empty : start.head = none)
    (calls : QueueRun start q waiting) : (∃ l, Chain q.next q.head l ∧ l.Nodup ∧ l.Perm waiting) ∧
      ∀ call : QueueCall, call.Allowed waiting → ∃ fuel popped t, call.run fuel q = some (popped, t) := by
  obtain ⟨l, holds, perm⟩ := calls.holds empty
  constructor
  · exact ⟨l, holds, Chain.nodup holds, perm⟩
  · intro call allowed
    obtain ⟨popped, t, -, run, -, -⟩ := QueueCall.run_spec holds perm allowed (Nat.lt_succ_self _)
    exact ⟨_, popped, t, run⟩

/-- An empty queue, before any process: node 1 will have the longer job. -/
def emptyQueue : ReadyQueue := { head := none, node := fun a => ⟨a, none⟩, pcb := fun a => ⟨true, 10 - a⟩ }

theorem readyQueue_keeps_sorted : ∃ q, QueueRun emptyQueue q [2, 1] ∧
    (∃ l, Chain q.next q.head l ∧ l.Nodup ∧ l.Perm [2, 1]) ∧
      ∀ call : QueueCall, call.Allowed [2, 1] → ∃ fuel popped t, call.run fuel q = some (popped, t) := by
  have first := @QueueRun.call emptyQueue _ _ _ 9 none (.addToTail 1) .start List.not_mem_nil rfl
  have away : (2 : Addr) ∉ [1] := by decide
  have second := @QueueRun.call emptyQueue _ _ _ 9 none (.addToTail 2) first away rfl
  have sorted := @QueueRun.call emptyQueue _ _ _ 9 none .sort second trivial rfl
  exact ⟨_, sorted, readyQueue_keeps rfl sorted⟩

end ShellOs.Kernel
