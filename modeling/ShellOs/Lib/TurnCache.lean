import Mathlib.Algebra.GroupWithZero.Nat
import Mathlib.Algebra.BigOperators.Group.List.Basic
import Mathlib.Data.List.Basic
import Mathlib.Data.List.Nodup

/-! A cache, the entry used last first, whose users take turns: an entry that a user needs again is behind no more entries
than the users that have had their turn since can have used. -/

namespace ShellOs.Lib

variable {α β : Type} [BEq α] {weight : β → Nat} {total ahead used d : Nat} {needs needs' : β → α → Prop}
  {cache cache' : List α} {queue : List β} {q : β} {x y : α}

/-- What the users in the queue need is at a place that leaves room for what they and the users ahead of them can use. -/
def Guarded (weight : β → Nat) (total : Nat) (needs : β → α → Prop) (cache : List α) : Nat → List β → Prop
  | _, [] => True
  | ahead, q :: rest => (∀ x ∈ cache, needs q x → cache.idxOf x + (ahead + weight q) ≤ total) ∧
      Guarded weight total needs cache (ahead + weight q) rest

theorem Guarded.of_none (none' : ∀ q ∈ queue, ∀ x, ¬ needs q x) : Guarded weight total needs cache ahead queue := by
  induction queue generalizing ahead with
  | nil => trivial
  | cons p rest ih =>
    refine ⟨fun x _ needed => absurd needed (none' p List.mem_cons_self x), ih fun q member => ?_⟩
    exact none' q (List.mem_cons_of_mem p member)

theorem Guarded.idxOf_le (guarded : Guarded weight total needs cache ahead queue) (waits : q ∈ queue) (member : x ∈ cache)
    (needed : needs q x) : cache.idxOf x + (ahead + weight q) ≤ total := by
  induction queue generalizing ahead with
  | nil => cases waits
  | cons p rest ih =>
    rcases List.mem_cons.mp waits with rfl | later
    · exact guarded.1 x member needed
    · have behind := ih guarded.2 later
      omega

theorem Guarded.moved (guarded : Guarded weight total needs cache ahead queue) (room : used + d ≤ ahead)
    (later : ∀ q ∈ queue, ∀ x ∈ cache', needs' q x → x ∈ cache ∧ needs q x ∧ cache'.idxOf x ≤ cache.idxOf x + d) :
    Guarded weight total needs' cache' used queue := by
  induction queue generalizing ahead used with
  | nil => trivial
  | cons p rest ih =>
    constructor
    · intro x member needed
      obtain ⟨earlier, before, near⟩ := later p List.mem_cons_self x member needed
      have bound := guarded.1 x earlier before
      omega
    · exact ih guarded.2 (by omega) fun q member => later q (List.mem_cons_of_mem p member)

theorem Guarded.back (guarded : Guarded weight total needs cache ahead queue)
    (last : ∀ x ∈ cache, needs q x → cache.idxOf x + (ahead + (queue.map weight).sum + weight q) ≤ total) :
    Guarded weight total needs cache ahead (queue ++ [q]) := by
  induction queue generalizing ahead with
  | nil =>
    refine ⟨fun x member needed => ?_, trivial⟩
    have bound := last x member needed
    rw [List.map_nil, List.sum_nil] at bound
    omega
  | cons p rest ih =>
    refine ⟨guarded.1, ih guarded.2 fun x member needed => ?_⟩
    have bound := last x member needed
    rw [List.map_cons, List.sum_cons] at bound
    omega

variable [LawfulBEq α]

theorem idxOf_touch (member : x ∈ y :: cache.erase y) (other : x ≠ y) :
    x ∈ cache ∧ (y :: cache.erase y).idxOf x ≤ cache.idxOf x + 1 := by
  have kept : x ∈ cache := List.mem_of_mem_erase ((List.mem_cons.mp member).resolve_left other)
  refine ⟨kept, ?_⟩
  rw [List.idxOf_cons_ne _ other.symm]
  apply Nat.succ_le_succ
  clear member
  induction cache with
  | nil => cases kept
  | cons z rest ih =>
    by_cases first : z = y
    · rw [first, List.erase_cons_head, List.idxOf_cons_ne rest other.symm]
      exact Nat.le_succ _
    · rw [List.erase_cons_tail (by simpa using first)]
      by_cases here : z = x
      · rw [here, List.idxOf_cons_self]
        exact Nat.zero_le _
      · rw [List.idxOf_cons_ne _ here, List.idxOf_cons_ne _ here]
        exact Nat.succ_le_succ (ih ((List.mem_cons.mp kept).resolve_left (Ne.symm here)))

theorem idxOf_push (member : x ∈ y :: cache) (other : x ≠ y) : x ∈ cache ∧ (y :: cache).idxOf x ≤ cache.idxOf x + 1 :=
  ⟨(List.mem_cons.mp member).resolve_left other, Nat.le_of_eq (List.idxOf_cons_ne cache other.symm)⟩

theorem idxOf_dropLast (member : x ∈ cache.dropLast) : cache.dropLast.idxOf x = cache.idxOf x := by
  have some' : cache ≠ [] := fun empty => by
    rw [empty] at member
    cases member
  conv_rhs => rw [← List.dropLast_append_getLast some', List.idxOf_append_of_mem member]

theorem idxOf_replace (member : x ∈ y :: cache.dropLast) (other : x ≠ y) :
    x ∈ cache ∧ (y :: cache.dropLast).idxOf x ≤ cache.idxOf x + 1 := by
  obtain ⟨kept, near⟩ := idxOf_push member other
  refine ⟨List.dropLast_subset cache kept, ?_⟩
  rwa [idxOf_dropLast kept] at near

theorem idxOf_getLast (nodup : cache.Nodup) (last : x ∈ cache.getLast?) : cache.idxOf x + 1 = cache.length := by
  have some' : cache ≠ [] := fun empty => by
    rw [empty] at last
    cases last
  have split := List.dropLast_append_getLast? x last
  have absent : x ∉ cache.dropLast := fun member => by
    rw [← split] at nodup
    exact (List.nodup_append.mp nodup).2.2 x member x (List.mem_singleton.mpr rfl) rfl
  rw [← split, List.idxOf_append_of_notMem absent, List.idxOf_cons_self, List.length_append]
  rfl

end ShellOs.Lib
