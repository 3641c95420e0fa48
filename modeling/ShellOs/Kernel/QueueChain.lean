import ShellOs.Kernel.ReadyQueue

/-! What each call does to the chain of the ready queue, with fuel enough for its loops. -/

namespace ShellOs.Kernel
open Lib

namespace ReadyQueue

variable {q t : ReadyQueue} {l front back : List Addr} {a b z node : Addr} {fuel limit : Nat}

def Holds (q : ReadyQueue) (l : List Addr) : Prop := Chain q.next q.head l

@[simp] theorem next_setNext (q : ReadyQueue) (a : Addr) (link : Option Addr) :
    (q.setNext a link).next = Function.update q.next a link := by
  funext b
  by_cases here : b = a
  · rw [here]
    simp [next, setNext]
  · simp [next, setNext, Function.update_of_ne here]

theorem next_head (q : ReadyQueue) (head : Option Addr) : ({ q with head := head } : ReadyQueue).next = q.next := rfl

structure SameProcesses (q t : ReadyQueue) : Prop where
  pcb : t.pcb = q.pcb
  node : ∀ a, (t.node a).pcb = (q.node a).pcb

theorem SameProcesses.refl (q : ReadyQueue) : q.SameProcesses q := ⟨rfl, fun _ => rfl⟩

theorem SameProcesses.trans {u : ReadyQueue} (first : q.SameProcesses t) (second : t.SameProcesses u) :
    q.SameProcesses u :=
  ⟨second.pcb.trans first.pcb, fun a => (second.node a).trans (first.node a)⟩

theorem SameProcesses.pcbOf (same : q.SameProcesses t) : t.pcbOf = q.pcbOf := by
  funext a
  rw [ReadyQueue.pcbOf, ReadyQueue.pcbOf, same.pcb, same.node]

theorem same_setNext (q : ReadyQueue) (a : Addr) (link : Option Addr) : q.SameProcesses (q.setNext a link) := by
  refine ⟨rfl, fun b => ?_⟩
  by_cases here : b = a
  · simp [setNext, here]
  · simp [setNext, Function.update_of_ne here]

theorem same_head (q : ReadyQueue) (head : Option Addr) : q.SameProcesses { q with head := head } := ⟨rfl, fun _ => rfl⟩

theorem same_swapWithNext (run : q.readyQueueSwapWithNext fuel a = some t) : q.SameProcesses t := by
  rw [readyQueueSwapWithNext] at run
  obtain ⟨swapped, first, rest⟩ := Option.bind_eq_some_iff.mp run
  obtain ⟨before, -, rest⟩ := Option.bind_eq_some_iff.mp rest
  have kept : q.SameProcesses swapped := by
    rw [swapHead] at first
    split at first
    · obtain ⟨next, -, linked⟩ := Option.bind_eq_some_iff.mp first
      obtain rfl := Option.some_inj.mp linked
      exact ((same_setNext q a _).trans (same_setNext _ next _)).trans (same_head _ _)
    · obtain rfl := Option.some_inj.mp first
      exact .refl q
  cases before with
  | none =>
    obtain rfl := Option.some_inj.mp rest
    exact kept
  | some cur =>
    obtain ⟨mid, -, rest⟩ := Option.bind_eq_some_iff.mp rest
    obtain ⟨next, -, linked⟩ := Option.bind_eq_some_iff.mp rest
    obtain rfl := Option.some_inj.mp linked
    exact ((kept.trans (same_setNext _ cur _)).trans (same_setNext _ next _)).trans (same_setNext _ a _)

theorem Holds.empty (holds : q.Holds l) (start : q.head = none) : l = [] := by
  cases l with
  | nil => rfl
  | cons a rest => exact absurd (start.symm.trans holds.1) (by simp)

theorem lastNode_spec (chain : Chain q.next (some a) (l ++ [z])) (enough : l.length < fuel) :
    q.lastNode fuel a = some z := by
  induction l generalizing a fuel with
  | nil =>
    obtain ⟨fuel, rfl⟩ := Nat.exists_eq_succ_of_ne_zero (Nat.ne_of_gt enough)
    obtain rfl := Option.some.inj chain.1
    have fin : q.next a = none := chain.2
    rw [lastNode, fin]
  | cons c rest ih =>
    obtain ⟨fuel, rfl⟩ := Nat.exists_eq_succ_of_ne_zero (Nat.ne_of_gt (Nat.zero_lt_of_lt enough))
    obtain rfl := Option.some.inj chain.1
    have behind : Chain q.next (q.next a) (rest ++ [z]) := chain.2
    rw [lastNode]
    cases link : q.next a with
    | none =>
      rw [link] at behind
      cases rest with
      | nil => cases behind.1
      | cons d rest => cases behind.1
    | some next =>
      rw [link] at behind
      exact ih behind (Nat.lt_of_succ_lt_succ enough)

theorem addToTail_spec (holds : q.Holds l) (fresh : node ∉ l) (enough : l.length < fuel) :
    ∃ t, q.readyQueueAddToTail fuel node = some t ∧ t.Holds (l ++ [node]) := by
  rw [readyQueueAddToTail]
  cases start : q.head with
  | none =>
    refine ⟨_, rfl, ?_⟩
    rw [holds.empty start, Holds, next_setNext]
    exact ⟨rfl, Function.update_self _ _ _⟩
  | some head =>
    rw [Holds, start] at holds
    rcases List.eq_nil_or_concat l with rfl | ⟨front, z, rfl⟩
    · cases holds
    · rw [List.concat_eq_append] at holds fresh enough ⊢
      rw [List.length_append] at enough
      have last : q.lastNode fuel head = some z := lastNode_spec holds (by omega)
      simp only [last, Option.map_some]
      refine ⟨_, rfl, ?_⟩
      rw [Holds, next_setNext, next_setNext, List.append_assoc]
      rw [← start] at holds
      exact holds.snoc fresh

theorem addToHead_spec (holds : q.Holds l) (fresh : node ∉ l) : (q.readyQueueAddToHead node).Holds (node :: l) := by
  rw [readyQueueAddToHead]
  cases start : q.head with
  | none =>
    rw [holds.empty start, Holds, next_setNext]
    exact ⟨rfl, Function.update_self _ _ _⟩
  | some head =>
    refine ⟨rfl, ?_⟩
    rw [next_head, next_setNext, Function.update_self, segment_update fresh, ← start]
    exact holds

theorem popHead_nil (holds : q.Holds []) : q.readyQueuePopHead = (none, q) := by
  have empty : q.head = none := holds
  rw [readyQueuePopHead, empty]

theorem popHead_cons (holds : q.Holds (a :: l)) :
    ∃ t, q.readyQueuePopHead = (some a, t) ∧ t.Holds l := by
  have start : q.head = some a := holds.1
  rw [readyQueuePopHead, start]
  exact ⟨_, rfl, holds.2⟩

theorem decrementFrom_spec {p : Option Addr} (chain : Chain q.next p l) (enough : l.length < fuel) :
    ∃ t, decrementFrom fuel q p = some t ∧ t.head = q.head ∧ t.next = q.next := by
  induction l generalizing p q fuel with
  | nil =>
    obtain ⟨fuel, rfl⟩ := Nat.exists_eq_succ_of_ne_zero (Nat.ne_of_gt enough)
    obtain rfl : p = none := chain
    exact ⟨q, rfl, rfl, rfl⟩
  | cons a rest ih =>
    obtain ⟨fuel, rfl⟩ := Nat.exists_eq_succ_of_ne_zero (Nat.ne_of_gt (Nat.zero_lt_of_lt enough))
    obtain ⟨rfl, behind⟩ := chain
    rw [decrementFrom]
    exact ih behind (Nat.lt_of_succ_lt_succ enough)

theorem decrement_spec (holds : q.Holds l) (enough : l.length < fuel) :
    ∃ t, q.readyQueueDecrementJobLengthScore fuel = some t ∧ t.Holds l := by
  obtain ⟨t, run, head, next⟩ := decrementFrom_spec holds enough
  refine ⟨t, run, ?_⟩
  rw [Holds, head, next]
  exact holds

theorem findBefore_some {p : Option Addr} (segment : Segment q.next p front (some b)) (link : q.next b = some a)
    (others : ∀ c ∈ front, q.next c ≠ some a) (enough : front.length < fuel) :
    q.findBefore a fuel p = some (some b) := by
  induction front generalizing p fuel with
  | nil =>
    obtain ⟨fuel, rfl⟩ := Nat.exists_eq_succ_of_ne_zero (Nat.ne_of_gt enough)
    obtain rfl : p = some b := segment
    rw [findBefore, if_pos link]
  | cons c rest ih =>
    obtain ⟨fuel, rfl⟩ := Nat.exists_eq_succ_of_ne_zero (Nat.ne_of_gt (Nat.zero_lt_of_lt enough))
    obtain ⟨rfl, behind⟩ := segment
    rw [findBefore, if_neg (others c List.mem_cons_self)]
    exact ih behind (fun d member => others d (List.mem_cons_of_mem c member)) (Nat.lt_of_succ_lt_succ enough)

theorem findBefore_none {p : Option Addr} (chain : Chain q.next p l) (others : ∀ c ∈ l, q.next c ≠ some a)
    (enough : l.length < fuel) : q.findBefore a fuel p = some none := by
  induction l generalizing p fuel with
  | nil =>
    obtain ⟨fuel, rfl⟩ := Nat.exists_eq_succ_of_ne_zero (Nat.ne_of_gt enough)
    obtain rfl : p = none := chain
    rw [findBefore]
  | cons c rest ih =>
    obtain ⟨fuel, rfl⟩ := Nat.exists_eq_succ_of_ne_zero (Nat.ne_of_gt (Nat.zero_lt_of_lt enough))
    obtain ⟨rfl, behind⟩ := chain
    rw [findBefore, if_neg (others c List.mem_cons_self)]
    exact ih behind (fun d member => others d (List.mem_cons_of_mem c member)) (Nat.lt_of_succ_lt_succ enough)

/-- At the head, the search that follows starts behind the node that is now first, and finds nothing. -/
theorem swapFront_spec (holds : q.Holds (a :: b :: back)) (enough : back.length + 2 < fuel) :
    ∃ t, q.readyQueueSwapWithNext fuel a = some t ∧ t.Holds (b :: a :: back) := by
  have start : q.head = some a := holds.1
  have link : q.next a = some b := holds.2.1
  obtain ⟨t, run⟩ : ∃ t, t = { (q.setNext a (q.next b)).setNext b (some a) with head := some b } := ⟨_, rfl⟩
  have swapped : t.Holds (b :: a :: back) := by
    rw [run, Holds, next_head, next_setNext, next_setNext]
    exact Chain.swapFront (holds : Chain q.next q.head _)
  have behind : Chain t.next (some a) (a :: back) := @Chain.at _ _ _ [b] _ _ swapped
  have search : t.findBefore a fuel q.head = some none := by
    rw [start]
    exact findBefore_none behind (fun c member => behind.first_ne member) (by simp only [List.length_cons]; omega)
  have first : q.swapHead a = some t := by
    rw [swapHead, if_pos start, link, run]
    rfl
  refine ⟨t, ?_, swapped⟩
  simp only [readyQueueSwapWithNext, first, Option.bind_eq_bind, Option.bind_some, search]

theorem swapBehind_spec {c : Addr} (holds : q.Holds (front ++ c :: a :: b :: back)) (enough : front.length < fuel) :
    ∃ t, q.readyQueueSwapWithNext fuel a = some t ∧ t.Holds (front ++ c :: b :: a :: back) := by
  have whole : Chain q.next q.head (front ++ c :: a :: b :: back) := holds
  have before : q.next c = some a := whole.link
  have link : q.next a = some b := (chain_split.mp whole).2.2.1
  have away : q.head ≠ some a := by
    intro start
    cases front with
    | nil =>
      obtain rfl := Option.some.inj (start.symm.trans whole.1)
      exact (List.nodup_cons.mp whole.nodup).1 List.mem_cons_self
    | cons d rest =>
      obtain rfl := Option.some.inj (start.symm.trans whole.1)
      exact (List.nodup_cons.mp whole.nodup).1 (by simp)
  have search : q.findBefore a fuel q.head = some (some c) :=
    findBefore_some (chain_split.mp whole).1 before (fun d member => whole.link_ne member) enough
  have first : q.swapHead a = some q := by rw [swapHead, if_neg away]
  refine ⟨_, by simp only [readyQueueSwapWithNext, first, Option.bind_eq_bind, Option.bind_some, search, before, link]; rfl, ?_⟩
  rw [Holds, next_setNext, next_setNext, next_setNext]
  exact whole.swap

theorem swapWithNext_spec (holds : q.Holds (front ++ a :: b :: back)) (enough : front.length + back.length + 2 < fuel) :
    ∃ t, q.readyQueueSwapWithNext fuel a = some t ∧ t.Holds (front ++ b :: a :: back) := by
  rcases List.eq_nil_or_concat front with rfl | ⟨front, c, rfl⟩
  · rw [List.length_nil] at enough
    exact swapFront_spec holds (by omega)
  · rw [List.concat_eq_append, List.append_assoc] at holds ⊢
    rw [List.concat_eq_append, List.length_append] at enough
    exact swapBehind_spec holds (by omega)

/-- The search of `ready_queue_promote` stops before the first node behind the head that has the score, or at the last
node. -/
theorem findPromoted_spec (s : Int) (chain : Chain q.next (some a) (a :: l)) (enough : l.length < fuel) :
    ∃ front b back, q.findPromoted s fuel a = some b ∧ a :: l = front ++ b :: back ∧
      ((∃ c rest, back = c :: rest ∧ q.score c = s) ∨ (back = [] ∧ ∀ c ∈ l, q.score c ≠ s)) := by
  induction l generalizing a fuel with
  | nil =>
    obtain ⟨fuel, rfl⟩ := Nat.exists_eq_succ_of_ne_zero (Nat.ne_of_gt enough)
    have fin : q.next a = none := chain.2
    refine ⟨[], a, [], ?_, rfl, .inr ⟨rfl, fun c member => absurd member List.not_mem_nil⟩⟩
    rw [findPromoted, fin]
  | cons b rest ih =>
    obtain ⟨fuel, rfl⟩ := Nat.exists_eq_succ_of_ne_zero (Nat.ne_of_gt (Nat.zero_lt_of_lt enough))
    have link : q.next a = some b := chain.2.1
    have behind : Chain q.next (some b) (b :: rest) := ⟨rfl, chain.2.2⟩
    rw [findPromoted, link]
    by_cases here : q.score b = s
    · exact ⟨[], a, b :: rest, by simp [here], rfl, .inl ⟨b, rest, rfl, here⟩⟩
    · obtain ⟨front, c, back, found, split, stops⟩ := ih behind (Nat.lt_of_succ_lt_succ enough)
      refine ⟨a :: front, c, back, ?_, by rw [split, List.cons_append], ?_⟩
      · simp only [here, if_false]
        exact found
      · rcases stops with wanted | ⟨fin, none'⟩
        · exact .inl wanted
        · exact .inr ⟨fin, List.forall_mem_cons.mpr ⟨here, none'⟩⟩

theorem promote_spec (s : Int) (holds : q.Holds (a :: l)) (enough : l.length < fuel) :
    ∃ t b m, q.readyQueuePromote fuel s = some t ∧ t.Holds (b :: m) ∧ (b :: m).Perm (a :: l) ∧ q.SameProcesses t ∧
      ((∃ c ∈ a :: l, q.score c = s) → q.score b = s) := by
  have start : q.head = some a := holds.1
  by_cases already : q.score a = s
  · exact ⟨q, a, l, by simp [readyQueuePromote, start, already], holds, .rfl, .refl q, fun _ => already⟩
  · have whole : Chain q.next (some a) (a :: l) := start ▸ holds
    obtain ⟨front, b, back, found, split, ⟨c, rest, rfl, wanted⟩ | ⟨rfl, none'⟩⟩ := findPromoted_spec s whole enough
    · rw [split] at holds ⊢
      have link : q.next b = some c := Chain.link holds
      refine ⟨{ (q.setNext b (q.next c)).setNext c q.head with head := some c }, c, front ++ b :: rest,
        by simp [readyQueuePromote, start, already, found, link, wanted], ?_, ?_,
        ((same_setNext q b _).trans (same_setNext _ c _)).trans (same_head _ _), fun _ => wanted⟩
      · rw [Holds, next_head, next_setNext, next_setNext]
        have chain : Chain q.next q.head (front ++ b :: c :: rest) := holds
        exact chain.promote
      · have middle := (@List.perm_middle Addr c (front ++ [b]) rest).symm
        simp only [List.append_assoc, List.singleton_append] at middle
        exact middle
    · have fin : q.next b = none := by
        rw [split] at whole
        exact whole.link_last
      refine ⟨q, a, l, by simp [readyQueuePromote, start, already, found, fin], holds, .rfl, .refl q, fun there => ?_⟩
      obtain ⟨c, member, same⟩ := there
      rcases List.mem_cons.mp member with rfl | later
      · exact same
      · exact absurd same (none' c later)

end ReadyQueue

end ShellOs.Kernel
