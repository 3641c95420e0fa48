import Mathlib.Data.List.Perm.Basic
import Mathlib.Tactic.Common

/-! One pass of a bubble sort: it sorts exactly the lists in which no entry has two greater ones before it. -/

namespace ShellOs.Lib

variable {α : Type} {before : α → α → Prop}

/-- A strict order that may leave entries incomparable, as long as these are interchangeable. -/
structure WeakOrder (before : α → α → Prop) : Prop where
  asymm : ∀ a b, before a b → ¬ before b a
  split : ∀ a b c, before a c → before a b ∨ before b c

theorem WeakOrder.trans (order : WeakOrder before) {a b c : α} (first : before a b) (second : before b c) : before a c := by
  rcases order.split b a c second with back | forth
  · exact absurd back (order.asymm a b first)
  · exact forth

def InOrder (before : α → α → Prop) (l : List α) : Prop := l.Pairwise fun a b => ¬ before b a

def OnePass (before : α → α → Prop) (l : List α) : Prop :=
  ∀ a b c, [a, b, c].Sublist l → ¬ (before c a ∧ before c b)

theorem onePass_singleton (a : α) : OnePass before [a] := fun _ _ _ triple => by
  have short := triple.length_le
  simp at short

theorem onePass_cons {a : α} {l : List α} :
    OnePass before (a :: l) ↔ (∀ b c, [b, c].Sublist l → ¬ (before c a ∧ before c b)) ∧ OnePass before l := by
  constructor
  · intro pass
    exact ⟨fun b c pair => pass a b c (pair.cons_cons a), fun b c d triple => pass b c d (triple.cons a)⟩
  · rintro ⟨pairs, pass⟩ b c d triple
    rcases List.sublist_cons_iff.mp triple with later | ⟨rest, same, inside⟩
    · exact pass b c d later
    · obtain ⟨rfl, rfl⟩ := List.cons.inj same
      exact pairs c d inside

variable [DecidableRel before]

/-- The entry `a` is carried to the right until it meets one that need not come before it, which is then carried on. -/
def bubble (before : α → α → Prop) [DecidableRel before] (a : α) : List α → List α
  | [] => [a]
  | b :: rest => if before b a then b :: bubble before a rest else a :: bubble before b rest

theorem bubble_perm (a : α) (l : List α) : (bubble before a l).Perm (a :: l) := by
  induction l generalizing a with
  | nil => exact .rfl
  | cons b rest ih =>
    rw [bubble]
    split
    · exact ((ih a).cons b).trans (List.Perm.swap a b rest)
    · exact (ih b).cons a

/-- A pass sorts a list if and only if each entry must come before at most one of those in front of it. -/
theorem bubble_inOrder (order : WeakOrder before) (a : α) (l : List α) :
    InOrder before (bubble before a l) ↔ OnePass before (a :: l) := by
  induction l generalizing a with
  | nil => exact iff_of_true (List.pairwise_singleton _ a) (onePass_singleton a)
  | cons b rest ih =>
    have pairs : ∀ x : α, (∀ c ∈ rest, ¬ before c x) → ∀ c d, [c, d].Sublist rest → ¬ (before d x ∧ before d c) :=
      fun x all c d pair both => all d (pair.subset (by simp)) both.1
    rw [bubble]
    by_cases swap : before b a
    · rw [if_pos swap, InOrder, List.pairwise_cons]
      have members : (∀ c ∈ bubble before a rest, ¬ before c b) ↔ ∀ c ∈ rest, ¬ before c b := by
        constructor
        · intro all c member
          exact all c ((bubble_perm a rest).mem_iff.mpr (List.mem_cons_of_mem a member))
        · intro all c member
          rcases List.mem_cons.mp ((bubble_perm a rest).mem_iff.mp member) with rfl | later
          · exact order.asymm b c swap
          · exact all c later
      rw [members, ← InOrder, ih a, onePass_cons, onePass_cons, onePass_cons]
      constructor
      · rintro ⟨least, inner, pass⟩
        refine ⟨fun c d pair both => ?_, pairs b least, pass⟩
        rcases List.sublist_cons_iff.mp pair with later | ⟨tail, same, inside⟩
        · exact inner c d later both
        · obtain ⟨rfl, rfl⟩ := List.cons.inj same
          exact least d (inside.subset List.mem_cons_self) both.2
      · rintro ⟨outer, -, pass⟩
        refine ⟨fun c member less => ?_, fun c d pair => outer c d (pair.cons b), pass⟩
        exact outer b c ((List.singleton_sublist.mpr member).cons_cons b) ⟨order.trans less swap, less⟩
    · rw [if_neg swap, InOrder, List.pairwise_cons]
      have members : (∀ c ∈ bubble before b rest, ¬ before c a) ↔ ∀ c ∈ rest, ¬ before c a := by
        constructor
        · intro all c member
          exact all c ((bubble_perm b rest).mem_iff.mpr (List.mem_cons_of_mem b member))
        · intro all c member
          rcases List.mem_cons.mp ((bubble_perm b rest).mem_iff.mp member) with rfl | later
          · exact swap
          · exact all c later
      rw [members, ← InOrder, ih b]
      constructor
      · rintro ⟨least, pass⟩
        refine onePass_cons.mpr ⟨fun c d pair both => ?_, pass⟩
        rcases List.sublist_cons_iff.mp pair with later | ⟨tail, same, inside⟩
        · exact pairs a least c d later both
        · obtain ⟨rfl, rfl⟩ := List.cons.inj same
          exact least d (inside.subset List.mem_cons_self) both.1
      · intro whole
        obtain ⟨outer, pass⟩ := onePass_cons.mp whole
        refine ⟨fun c member less => ?_, pass⟩
        have below := (order.split c b a less).resolve_right swap
        exact outer b c ((List.singleton_sublist.mpr member).cons_cons b) ⟨less, below⟩

end ShellOs.Lib
