import Mathlib.Data.List.SplitBy
import Mathlib.Data.List.Nodup

/-! Natural merge sort: the runs of a list are merged two by two, until one run is left. -/

namespace ShellOs.Lib.NaturalMerge

variable {α : Type} {le : α → α → Bool} {l m k xs ys : List α} {a b x y : α}

/-- A rearrangement that leaves all pairs of elements as they were that were in order already. -/
structure Stable (le : α → α → Bool) (l m : List α) : Prop where
  perm : m.Perm l
  keeps : ∀ a b, le a b = true → [a, b].Sublist l → [a, b].Sublist m

theorem before_or (first : a ∈ l) (second : b ∈ l) (apart : a ≠ b) : [a, b].Sublist l ∨ [b, a].Sublist l := by
  induction l with
  | nil => cases first
  | cons c rest ih =>
    obtain rfl | left := List.mem_cons.mp first
    · obtain rfl | right := List.mem_cons.mp second
      · exact absurd rfl apart
      · exact .inl ((List.singleton_sublist.mpr right).cons_cons a)
    · obtain rfl | right := List.mem_cons.mp second
      · exact .inr ((List.singleton_sublist.mpr left).cons_cons b)
      · exact (ih left right).imp (fun before => before.cons c) fun before => before.cons c

theorem not_both (nodup : l.Nodup) (there : [a, b].Sublist l) (back : [b, a].Sublist l) : False := by
  induction l with
  | nil => simp at there
  | cons c rest ih =>
    obtain ⟨fresh, once⟩ := List.nodup_cons.mp nodup
    obtain inner | ⟨rfl, right⟩ := List.cons_sublist_cons'.mp there
    · obtain inner' | ⟨rfl, left⟩ := List.cons_sublist_cons'.mp back
      · exact ih once inner inner'
      · exact fresh (inner.subset (by simp))
    · obtain inner' | ⟨rfl, left⟩ := List.cons_sublist_cons'.mp back
      · exact fresh (inner'.subset (by simp))
      · exact fresh (List.singleton_sublist.mp right)

namespace Stable

theorem refl (l : List α) : Stable le l l := ⟨.refl l, fun _ _ _ before => before⟩

theorem trans (first : Stable le l m) (second : Stable le m k) : Stable le l k :=
  ⟨second.perm.trans first.perm, fun a b ordered before => second.keeps a b ordered (first.keeps a b ordered before)⟩

theorem append {l₂ m₂ : List α} (front : Stable le l m) (back : Stable le l₂ m₂) : Stable le (l ++ l₂) (m ++ m₂) := by
  refine ⟨front.perm.append back.perm, ?_⟩
  intro a b ordered before
  obtain ⟨r, s, whole, left, right⟩ := List.sublist_append_iff.mp before
  match r, whole with
  | [], whole =>
    obtain rfl : [a, b] = s := whole
    exact (back.keeps a b ordered right).trans (List.sublist_append_right m m₂)
  | [_], whole =>
    obtain ⟨rfl, rfl⟩ := List.cons.inj whole
    have here : a ∈ m := front.perm.mem_iff.mpr (List.singleton_sublist.mp left)
    have there : b ∈ m₂ := back.perm.mem_iff.mpr (List.singleton_sublist.mp right)
    exact (List.singleton_sublist.mpr here).append (List.singleton_sublist.mpr there)
  | [_, _], whole =>
    obtain ⟨rfl, rest⟩ := List.cons.inj whole
    obtain ⟨rfl, -⟩ := List.cons.inj rest
    exact (front.keeps a b ordered left).trans (List.sublist_append_left m m₂)
  | _ :: _ :: _ :: _, whole => simp at whole

theorem cons (a : α) (rest : Stable le l m) : Stable le (a :: l) (a :: m) := (refl [a]).append rest

theorem move (less : ∀ x ∈ xs, le x y = false) : Stable le (xs ++ y :: ys) (y :: (xs ++ ys)) := by
  refine ⟨List.perm_middle.symm, ?_⟩
  intro a b ordered before
  obtain ⟨r, s, whole, left, right⟩ := List.sublist_append_iff.mp before
  match r, whole with
  | [], whole =>
    obtain rfl : [a, b] = s := whole
    exact right.trans ((List.sublist_append_right xs ys).cons_cons y)
  | [_], whole =>
    obtain ⟨rfl, rfl⟩ := List.cons.inj whole
    have here := List.singleton_sublist.mp left
    have other : b ∈ ys := by
      obtain rfl | other := List.mem_cons.mp (List.singleton_sublist.mp right)
      · rw [less a here] at ordered
        contradiction
      · exact other
    exact (left.append (List.singleton_sublist.mpr other)).trans (List.sublist_cons_self y _)
  | [_, _], whole =>
    obtain ⟨rfl, rest⟩ := List.cons.inj whole
    obtain ⟨rfl, -⟩ := List.cons.inj rest
    exact (left.trans (List.sublist_append_left xs ys)).trans (List.sublist_cons_self y _)
  | _ :: _ :: _ :: _, whole => simp at whole

variable (trans : ∀ a b c, le a b = true → le b c = true → le a c = true)

include trans

theorem merge (first : xs.Pairwise fun a b => le a b = true) (second : ys.Pairwise fun a b => le a b = true) :
    Stable le (xs ++ ys) (xs.merge ys le) := by
  induction xs generalizing ys with
  | nil =>
    rw [List.nil_merge]
    exact refl ys
  | cons x xs ihx =>
    induction ys with
    | nil =>
      rw [List.merge_right, List.append_nil]
      exact refl _
    | cons y ys ihy =>
      obtain ⟨least, run⟩ := List.pairwise_cons.mp first
      by_cases ordered : le x y = true
      · rw [List.cons_merge_cons_pos le xs ys ordered]
        exact cons x (ihx run second)
      · rw [List.cons_merge_cons_neg le xs ys ordered]
        have less : ∀ z ∈ x :: xs, le z y = false := by
          intro z member
          refine Bool.eq_false_iff.mpr fun bound => ?_
          obtain rfl | inside := List.mem_cons.mp member
          · exact ordered bound
          · exact ordered (trans x z y (least z inside) bound)
        exact (move less).trans (cons y (ihy (List.pairwise_cons.mp second).2))

theorem mergeSort (total : ∀ a b, (le a b || le b a) = true) (l : List α) : Stable le l (l.mergeSort le) where
  perm := List.mergeSort_perm l le
  keeps _ _ ordered before := List.pair_sublist_mergeSort trans total ordered before

omit trans in
/-- What is in order in a stable rearrangement is in order there by `le`, and where that says nothing, as it was. -/
theorem ranked (nodup : l.Nodup) (stable : Stable le l m) (sorted : m.Pairwise fun a b => le a b = true) :
    m.Pairwise fun a b => le a b = true ∧ (le b a = true → [a, b].Sublist l) := by
  have once : m.Nodup := stable.perm.nodup_iff.mpr nodup
  rw [List.pairwise_iff_forall_sublist] at sorted ⊢
  intro a b before
  refine ⟨sorted before, fun back => ?_⟩
  have apart : a ≠ b := by
    rintro rfl
    exact List.nodup_iff_sublist.mp once a before
  have first : a ∈ l := stable.perm.mem_iff.mp (before.subset (by simp))
  have second : b ∈ l := stable.perm.mem_iff.mp (before.subset (by simp))
  obtain same | other := before_or first second apart
  · exact same
  · exact (not_both once before (stable.keeps b a back other)).elim

theorem eq_mergeSort (total : ∀ a b, (le a b || le b a) = true) (nodup : l.Nodup) (stable : Stable le l m)
    (sorted : m.Pairwise fun a b => le a b = true) : m = l.mergeSort le := by
  have sort := Stable.mergeSort trans total l
  apply List.Perm.eq_of_pairwise _ (ranked nodup stable sorted)
    (ranked nodup sort (List.pairwise_mergeSort trans total l)) (stable.perm.trans sort.perm.symm)
  intro a b _ _ there back
  exact (not_both nodup (there.2 back.1) (back.2 there.1)).elim

end Stable

def mergePairs (le : α → α → Bool) : List (List α) → List (List α)
  | [] => []
  | [run] => [run]
  | first :: second :: rest => first.merge second le :: mergePairs le rest

theorem length_mergePairs (runs : List (List α)) : (mergePairs le runs).length = (runs.length + 1) / 2 := by
  induction runs using mergePairs.induct with
  | case1 => simp [mergePairs]
  | case2 run => simp [mergePairs]
  | case3 first second rest ih =>
    rw [mergePairs, List.length_cons, ih, List.length_cons, List.length_cons]
    omega

section order

variable (trans : ∀ a b c, le a b = true → le b c = true → le a c = true)

include trans

theorem pairwise_mergePairs (total : ∀ a b, (le a b || le b a) = true) {runs : List (List α)}
    (sorted : ∀ run ∈ runs, run.Pairwise fun a b => le a b = true) :
    ∀ run ∈ mergePairs le runs, run.Pairwise fun a b => le a b = true := by
  induction runs using mergePairs.induct with
  | case1 => exact sorted
  | case2 run => exact sorted
  | case3 first second rest ih =>
    intro run member
    obtain rfl | inside := List.mem_cons.mp member
    · exact List.pairwise_merge trans total first second (sorted first (by simp)) (sorted second (by simp))
    · exact ih (fun r inner => sorted r (by simp [inner])) run inside

theorem stable_mergePairs {runs : List (List α)} (sorted : ∀ run ∈ runs, run.Pairwise fun a b => le a b = true) :
    Stable le runs.flatten (mergePairs le runs).flatten := by
  induction runs using mergePairs.induct with
  | case1 => exact .refl []
  | case2 run => exact .refl _
  | case3 first second rest ih =>
    have pair := Stable.merge trans (sorted first (by simp)) (sorted second (by simp))
    have others := ih fun r inner => sorted r (by simp [inner])
    rw [mergePairs, List.flatten_cons, List.flatten_cons, List.flatten_cons, ← List.append_assoc]
    exact pair.append others

end order

theorem length_splitBy_append (run : l.IsChain fun a b => le a b = true) (m : List α) :
    ((l ++ m).splitBy le).length ≤ (m.splitBy le).length + 1 := by
  by_cases nothing : l = []
  · rw [nothing, List.nil_append]
    exact Nat.le_succ _
  have alone := List.splitBy_of_isChain nothing run
  by_cases goes : ∀ a ∈ l.getLast?, ∀ b ∈ m.head?, le a b = false
  · rw [List.splitBy_append goes, alone, List.length_append, List.length_singleton, Nat.add_comm]
  -- The run goes on in `m`, whose first run becomes longer.
  push Not at goes
  obtain ⟨a, last, b, head, ordered⟩ := goes
  obtain ⟨whole, full, chains, breaks⟩ := List.splitBy_eq_iff.mp (rfl : m.splitBy le = m.splitBy le)
  generalize m.splitBy le = runs at *
  cases runs with
  | nil =>
    rw [whole, List.flatten_nil, List.head?_nil] at head
    cases head
  | cons r rest =>
    have some : r ≠ [] := fun empty => full (empty ▸ List.mem_cons_self)
    rw [whole, List.flatten_cons, List.head?_append_of_ne_nil _ some] at head
    have longer : (l ++ m).splitBy le = (l ++ r) :: rest := by
      refine List.splitBy_eq_iff.mpr ⟨?_, ?_, ?_, ?_⟩
      · rw [whole, List.flatten_cons, List.flatten_cons, List.append_assoc]
      · intro member
        obtain empty | inside := List.mem_cons.mp member
        · exact some (List.append_eq_nil_iff.mp empty.symm).2
        · exact full (List.mem_cons_of_mem r inside)
      · intro s member
        obtain rfl | inside := List.mem_cons.mp member
        · apply run.append (chains r List.mem_cons_self)
          intro x x_last y y_head
          obtain rfl := Option.mem_unique last x_last
          obtain rfl := Option.mem_unique head y_head
          simpa using ordered
        · exact chains s (List.mem_cons_of_mem r inside)
      · obtain ⟨first, others⟩ := List.isChain_cons.mp breaks
        refine List.isChain_cons.mpr ⟨fun s member => ?_, others⟩
        obtain ⟨there, here, apart⟩ := first s member
        refine ⟨List.append_ne_nil_of_right_ne_nil l there, here, ?_⟩
        rw [List.getLast_append_of_right_ne_nil l r there]
        exact apart
    rw [longer]
    exact Nat.le_succ _

theorem length_splitBy_flatten (runs : List (List α)) (chains : ∀ run ∈ runs, run.IsChain fun a b => le a b = true) :
    (runs.flatten.splitBy le).length ≤ runs.length := by
  induction runs with
  | nil => exact Nat.le_refl 0
  | cons run rest ih =>
    have others := ih fun r inside => chains r (List.mem_cons_of_mem run inside)
    have first := length_splitBy_append (chains run List.mem_cons_self) rest.flatten
    rw [List.flatten_cons, List.length_cons]
    omega

theorem length_splitBy_le (l : List α) : (l.splitBy le).length ≤ l.length := by
  have single := @length_splitBy_flatten α le (l.map fun a => [a]) (by
    intro run member
    obtain ⟨a, -, rfl⟩ := List.mem_map.mp member
    exact .singleton a)
  rwa [List.length_map, ← List.flatMap_def, List.flatMap_singleton'] at single

theorem break_flatten {run : List α} {rest : List (List α)} (full : [] ∉ rest)
    (breaks : (run :: rest).IsChain fun a b => ∃ ha hb, le (a.getLast ha) (b.head hb) = false) :
    ∀ a ∈ run.getLast?, ∀ b ∈ rest.flatten.head?, le a b = false := by
  intro a last b head
  cases rest with
  | nil => cases head
  | cons r others =>
    obtain ⟨there, here, apart⟩ := (List.isChain_cons_cons.mp breaks).1
    rw [List.flatten_cons, List.head?_append_of_ne_nil _ here, List.head?_eq_some_head here] at head
    rw [List.getLast?_eq_some_getLast there] at last
    obtain rfl := Option.some_inj.mp last
    obtain rfl := Option.some_inj.mp head
    exact apart

def pass (le : α → α → Bool) (l : List α) : List α := (mergePairs le (l.splitBy le)).flatten

/-- How many runs a pass leaves, as it is counted: two may have become one more without notice. -/
def passed (le : α → α → Bool) (l : List α) : Nat := ((l.splitBy le).length + 1) / 2

section order

variable (trans : ∀ a b c, le a b = true → le b c = true → le a c = true)

include trans

theorem run_pairwise (l : List α) : ∀ run ∈ l.splitBy le, run.Pairwise fun a b => le a b = true := by
  intro run member
  have ordered : IsTrans α fun a b => le a b = true := ⟨trans⟩
  exact List.isChain_iff_pairwise.mp (List.isChain_of_mem_splitBy member)

theorem stable_pass (l : List α) : Stable le l (pass le l) := by
  have merged := stable_mergePairs trans (run_pairwise trans l)
  rw [List.flatten_splitBy] at merged
  exact merged

theorem runs_pass (total : ∀ a b, (le a b || le b a) = true) (l : List α) :
    ((pass le l).splitBy le).length ≤ passed le l := by
  rw [passed, ← @length_mergePairs α le]
  apply length_splitBy_flatten
  intro run member
  exact (pairwise_mergePairs trans total (run_pairwise trans l) run member).isChain

theorem pass_sorted (total : ∀ a b, (le a b || le b a) = true) (l : List α) (one : passed le l ≤ 1) :
    (pass le l).Pairwise fun a b => le a b = true := by
  have runs := runs_pass trans total l
  have merged := run_pairwise trans (pass le l)
  have whole := List.flatten_splitBy le (pass le l)
  generalize (pass le l).splitBy le = pieces at *
  match pieces, runs.trans one with
  | [], _ =>
    rw [← whole]
    exact .nil
  | [run], _ =>
    rw [← whole, List.flatten_singleton]
    exact merged run List.mem_cons_self
  | _ :: _ :: _, short => simp at short

end order

end ShellOs.Lib.NaturalMerge
