import ShellOs.FileSystem.ListShelf
import ShellOs.Lib.NaturalMerge
import Mathlib.Algebra.Ring.Nat

/-! `list_sort` is a stable sort in place: the merges only move elements that are out of order with what they pass. -/

namespace ShellOs.FileSystem
open Lib DoublyLinked NaturalMerge

def ordered {α : Type} (less : α → α → Bool) (a b : α) : Bool := !less b a

structure Orders {α : Type} (less : α → α → Bool) : Prop where
  asymm : ∀ a b, less a b = true → less b a = false
  split : ∀ a b c, less a c = true → less a b = true ∨ less b c = true

namespace Orders

variable {α : Type} {less : α → α → Bool}

theorem total (orders : Orders less) (a b : α) : (ordered less a b || ordered less b a) = true := by
  rw [ordered, ordered]
  by_cases before : less b a = true
  · rw [before, orders.asymm b a before]
    rfl
  · rw [Bool.not_eq_true] at before
    rw [before]
    rfl

theorem trans (orders : Orders less) (a b c : α) (first : ordered less a b = true) (second : ordered less b c = true) :
    ordered less a c = true := by
  simp only [ordered, Bool.not_eq_true'] at first second ⊢
  refine Bool.eq_false_iff.mpr fun before => ?_
  obtain other | other := orders.split c b a before
  · rw [second] at other
    contradiction
  · rw [first] at other
    contradiction

end Orders

namespace Shelf

variable {α ι : Type} [DecidableEq α] {h : Heap α} {lists : ι → LinkedList α} {pool : α → Prop} {m : ι → List α} {i : ι}
  {less : α → α → Bool} {a : α} {run front back xs ys : List α} {fuel : Nat}

omit [DecidableEq α] in
theorem ne_end (shelf : Shelf h lists pool m) (here : m i = front ++ a :: back) : a ≠ listEnd (lists i) := by
  have whole : m i = front ++ a :: (back ++ []) := by rw [List.append_nil, here]
  exact shelf.ne whole

theorem runFrom (shelf : Shelf h lists pool m) (here : m i = front ++ a :: (run ++ back))
    (chain : (a :: run).IsChain fun x y => ordered less x y = true)
    (break' : ∀ x ∈ (a :: run).getLast?, ∀ y ∈ back.head?, ordered less x y = false) (enough : run.length < fuel) :
    FileSystem.runFrom less h fuel a (listEnd (lists i)) = some ((lists i).pointer back) := by
  induction run generalizing a front fuel with
  | nil =>
    obtain ⟨fuel, rfl⟩ := Nat.exists_eq_succ_of_ne_zero (Nat.ne_of_gt enough)
    have last := shelf.listPrev here
    rw [List.nil_append] at here last
    rw [FileSystem.runFrom, shelf.next here]
    cases back with
    | nil => exact if_pos rfl
    | cons b rest =>
      have away := shelf.ne_end (here.trans (List.append_cons front a (b :: rest)))
      have less' : less b a = true := by simpa [ordered] using break' a rfl b rfl
      simp only [LinkedList.pointer_cons, Option.bind_eq_bind, Option.bind_some, if_neg away] at last ⊢
      rw [last, Option.bind_some, if_pos less']
  | cons c rest ih =>
    obtain ⟨fuel, rfl⟩ := Nat.exists_eq_succ_of_ne_zero (Nat.ne_of_gt (Nat.lt_of_le_of_lt (Nat.zero_le _) enough))
    obtain ⟨goes, chain⟩ := List.isChain_cons_cons.mp chain
    rw [List.cons_append] at here
    have last := shelf.listPrev here
    have on := here.trans (List.append_cons front a (c :: (rest ++ back)))
    have away := shelf.ne_end on
    have stays : less c a = false := by simpa [ordered] using goes
    have further := ih on chain (by rwa [List.getLast?_cons_cons] at break') (by simpa using enough)
    rw [FileSystem.runFrom, shelf.next here]
    simp only [LinkedList.pointer_cons, Option.bind_eq_bind, Option.bind_some, if_neg away] at last further ⊢
    rw [last, Option.bind_some, stays, further]
    rfl

theorem findEndOfRun (shelf : Shelf h lists pool m) (here : m i = front ++ (run ++ back)) (some' : run ≠ [])
    (chain : run.IsChain fun x y => ordered less x y = true)
    (break' : ∀ x ∈ run.getLast?, ∀ y ∈ back.head?, ordered less x y = false) (enough : run.length ≤ fuel) :
    FileSystem.findEndOfRun less fuel h ((lists i).pointer (run ++ back)) (listEnd (lists i)) =
      some ((lists i).pointer back) := by
  obtain ⟨a, rest, rfl⟩ := List.exists_cons_of_ne_nil some'
  rw [List.cons_append] at here ⊢
  rw [FileSystem.findEndOfRun, LinkedList.pointer_cons, if_neg (shelf.ne_end here)]
  exact shelf.runFrom here chain break' enough

theorem sortedFrom (shelf : Shelf h lists pool m) (here : m i = front ++ a :: (run ++ back))
    (chain : (a :: run).IsChain fun x y => ordered less x y = true) (enough : run.length < fuel) :
    FileSystem.sortedFrom less h fuel a ((lists i).pointer back) = some true := by
  induction run generalizing a front fuel with
  | nil =>
    obtain ⟨fuel, rfl⟩ := Nat.exists_eq_succ_of_ne_zero (Nat.ne_of_gt enough)
    rw [List.nil_append] at here
    rw [FileSystem.sortedFrom, shelf.next here, Option.bind_eq_bind, Option.bind_some, if_pos rfl]
  | cons c rest ih =>
    obtain ⟨fuel, rfl⟩ := Nat.exists_eq_succ_of_ne_zero (Nat.ne_of_gt (Nat.lt_of_le_of_lt (Nat.zero_le _) enough))
    obtain ⟨goes, chain⟩ := List.isChain_cons_cons.mp chain
    rw [List.cons_append] at here
    have last := shelf.listPrev here
    have on := here.trans (List.append_cons front a (c :: (rest ++ back)))
    have away := shelf.ne on
    have stays : less c a = false := by simpa [ordered] using goes
    rw [FileSystem.sortedFrom, shelf.next here]
    simp only [LinkedList.pointer_cons, Option.bind_eq_bind, Option.bind_some, if_neg away] at last ⊢
    rw [last, Option.bind_some, stays, ih on chain (by simpa using enough)]
    rfl

theorem isSorted (shelf : Shelf h lists pool m) (here : m i = front ++ (run ++ back))
    (chain : run.IsChain fun x y => ordered less x y = true) (enough : run.length ≤ fuel) :
    FileSystem.isSorted less fuel h ((lists i).pointer (run ++ back)) ((lists i).pointer back) = some true := by
  cases run with
  | nil => exact if_pos rfl
  | cons a rest =>
    rw [List.cons_append] at here ⊢
    rw [FileSystem.isSorted, LinkedList.pointer_cons, if_neg (shelf.ne here)]
    exact shelf.sortedFrom here chain enough

variable [DecidableEq ι]

theorem move (shelf : Shelf h lists pool m) (here : m i = front ++ (xs ++ a :: back)) :
    ∃ g, listSplice h ((lists i).pointer (xs ++ back)) a ((lists i).pointer back) = some g ∧
      Shelf g lists pool (Function.update m i (front ++ a :: (xs ++ back))) ∧ ∀ a, ¬pool a → g a = h a := by
  have here' : m i = (front ++ xs) ++ ([a] ++ back) := by rw [here, List.append_assoc, List.singleton_append]
  have there : Function.update m i ((front ++ xs) ++ back) i = front ++ (xs ++ back) := by
    rw [Function.update_self, List.append_assoc]
  obtain ⟨g, spliced, moved, same⟩ := shelf.splice here' there
  rw [Function.update_idem] at moved
  exact ⟨g, spliced, moved, same⟩

theorem mergeFrom (shelf : Shelf h lists pool m) (here : m i = front ++ (xs ++ (ys ++ back)))
    (enough : xs.length + ys.length < fuel) :
    ∃ g, FileSystem.mergeFrom less fuel h ((lists i).pointer (xs ++ (ys ++ back))) ((lists i).pointer (ys ++ back))
        ((lists i).pointer back) = some g ∧
      Shelf g lists pool (Function.update m i (front ++ (xs.merge ys (ordered less) ++ back))) ∧
      ∀ a, ¬pool a → g a = h a := by
  induction fuel generalizing h m front xs ys with
  | zero => omega
  | succ fuel ih =>
    rw [FileSystem.mergeFrom]
    match xs, ys with
    | [], ys =>
      refine ⟨h, if_pos (.inl rfl), ?_, fun _ _ => rfl⟩
      rw [List.nil_merge, ← List.nil_append (ys ++ back), ← here, Function.update_eq_self]
      exact shelf
    | xs, [] =>
      refine ⟨h, if_pos (.inr rfl), ?_, fun _ _ => rfl⟩
      rw [List.merge_right, ← List.nil_append back, ← here, Function.update_eq_self]
      exact shelf
    | x :: xs, y :: ys =>
      have onY : m i = (front ++ x :: xs) ++ y :: (ys ++ back) := by rw [here, List.append_assoc]; rfl
      have left : x ≠ y := shelf.ne here
      have right : y ≠ (lists i).pointer back := shelf.ne onY
      rw [List.cons_append, List.cons_append, LinkedList.pointer_cons, LinkedList.pointer_cons,
        if_neg (not_or_intro left right)]
      by_cases before : less y x = true
      · have choice : ¬ordered less x y = true := by simp [ordered, before]
        rw [if_pos before, List.cons_merge_cons_neg _ xs ys choice, shelf.next onY, Option.bind_eq_bind, Option.bind_some,
          shelf.listPrev onY, Option.bind_eq_bind, Option.bind_some]
        have place : m i = front ++ (x :: xs ++ y :: (ys ++ back)) := here
        obtain ⟨g, spliced, moved, same⟩ := shelf.move place
        have here' : Function.update m i (front ++ y :: (x :: xs ++ (ys ++ back))) i =
            (front ++ [y]) ++ (x :: xs ++ (ys ++ back)) := by
          rw [Function.update_self, List.append_cons]
        obtain ⟨g', merged, moved', same'⟩ := ih moved here' (by simp only [List.length_cons] at enough ⊢; omega)
        rw [Function.update_idem, List.append_assoc, List.singleton_append] at moved'
        refine ⟨g', ?_, moved', fun a away => (same' a away).trans (same a away)⟩
        rw [List.cons_append, LinkedList.pointer_cons] at spliced merged
        rw [spliced, Option.bind_some, merged]
      · have choice : ordered less x y = true := by simp [ordered, before]
        rw [if_neg before, List.cons_merge_cons_pos _ xs ys choice, shelf.next here, Option.bind_eq_bind, Option.bind_some]
        have here' : m i = (front ++ [x]) ++ (xs ++ (y :: ys ++ back)) := by rw [here, List.append_assoc]; rfl
        obtain ⟨g, merged, moved, same⟩ := ih shelf here' (by simp only [List.length_cons] at enough ⊢; omega)
        rw [List.append_assoc, List.singleton_append] at moved
        exact ⟨g, merged, moved, same⟩

theorem inplaceMerge (shelf : Shelf h lists pool m) (here : m i = front ++ (xs ++ (ys ++ back)))
    (first : xs.IsChain fun x y => ordered less x y = true) (second : ys.IsChain fun x y => ordered less x y = true)
    (enough : xs.length + ys.length < fuel) :
    ∃ g, FileSystem.inplaceMerge less fuel h ((lists i).pointer (xs ++ (ys ++ back))) ((lists i).pointer (ys ++ back))
        ((lists i).pointer back) = some g ∧
      Shelf g lists pool (Function.update m i (front ++ (xs.merge ys (ordered less) ++ back))) ∧
      ∀ a, ¬pool a → g a = h a := by
  have behind : m i = (front ++ xs) ++ (ys ++ back) := by rw [here, List.append_assoc]
  have short : xs.length ≤ fuel := by omega
  have short' : ys.length ≤ fuel := by omega
  have sorted := shelf.isSorted here first short
  have sorted' := shelf.isSorted behind second short'
  obtain ⟨g, merged, next, same⟩ := shelf.mergeFrom here enough
  refine ⟨g, ?_, next, same⟩
  rw [FileSystem.inplaceMerge, sorted, sorted']
  exact merged

theorem sortTurn (turns cnt : Nat) (shelf : Shelf h lists pool m) (here : m i = front ++ (xs ++ (ys ++ back)))
    (some' : xs ≠ []) (some'' : ys ≠ []) (first : xs.IsChain fun x y => ordered less x y = true)
    (second : ys.IsChain fun x y => ordered less x y = true)
    (break' : ∀ x ∈ xs.getLast?, ∀ y ∈ (ys ++ back).head?, ordered less x y = false)
    (break'' : ∀ x ∈ ys.getLast?, ∀ y ∈ back.head?, ordered less x y = false) (enough : (m i).length < fuel) :
    ∃ g, FileSystem.sortPass less fuel (lists i) (turns + 1) h ((lists i).pointer (xs ++ (ys ++ back))) cnt =
        FileSystem.sortPass less fuel (lists i) turns g ((lists i).pointer back) (cnt + 1) ∧
      Shelf g lists pool (Function.update m i (front ++ (xs.merge ys (ordered less) ++ back))) ∧
      ∀ a, ¬pool a → g a = h a := by
  have behind : m i = (front ++ xs) ++ (ys ++ back) := by rw [here, List.append_assoc]
  rw [here, List.length_append, List.length_append, List.length_append] at enough
  have short : xs.length ≤ fuel := by omega
  have short' : ys.length ≤ fuel := by omega
  have both : xs.length + ys.length < fuel := by omega
  have found := shelf.findEndOfRun here some' first break' short
  have found' := shelf.findEndOfRun behind some'' second break'' short'
  obtain ⟨g, merged, next, same⟩ := shelf.inplaceMerge here first second both
  have start : (lists i).pointer (xs ++ (ys ++ back)) ≠ listEnd (lists i) := by
    obtain ⟨a, rest, rfl⟩ := List.exists_cons_of_ne_nil some'
    exact shelf.ne_end here
  have middle : (lists i).pointer (ys ++ back) ≠ listEnd (lists i) := by
    obtain ⟨a, rest, rfl⟩ := List.exists_cons_of_ne_nil some''
    exact shelf.ne_end behind
  refine ⟨g, ?_, next, same⟩
  rw [FileSystem.sortPass, if_neg start, found, Option.bind_eq_bind, Option.bind_some, if_neg middle, found',
    Option.bind_eq_bind, Option.bind_some, merged]
  rfl

theorem sortPass {runs : List (List α)} (turns cnt : Nat) (shelf : Shelf h lists pool m)
    (here : m i = front ++ runs.flatten) (full : [] ∉ runs)
    (chains : ∀ run ∈ runs, run.IsChain fun x y => ordered less x y = true)
    (breaks : runs.IsChain fun a b => ∃ ha hb, ordered less (a.getLast ha) (b.head hb) = false)
    (enough : (m i).length < fuel) (turn : runs.length < turns) :
    ∃ g, FileSystem.sortPass less fuel (lists i) turns h ((lists i).pointer runs.flatten) cnt =
        some (cnt + (mergePairs (ordered less) runs).length, g) ∧
      Shelf g lists pool (Function.update m i (front ++ (mergePairs (ordered less) runs).flatten)) ∧
      ∀ a, ¬pool a → g a = h a := by
  induction runs using mergePairs.induct generalizing h m front turns cnt with
  | case1 =>
    obtain ⟨turns, rfl⟩ := Nat.exists_eq_succ_of_ne_zero (Nat.ne_of_gt turn)
    refine ⟨h, if_pos rfl, ?_, fun _ _ => rfl⟩
    rw [mergePairs, ← here, Function.update_eq_self]
    exact shelf
  | case2 run =>
    obtain ⟨turns, rfl⟩ := Nat.exists_eq_succ_of_ne_zero (Nat.ne_of_gt (Nat.lt_of_le_of_lt (Nat.zero_le _) turn))
    have some' : run ≠ [] := fun empty => full (List.mem_singleton.mpr empty.symm)
    have whole : m i = front ++ (run ++ []) := by rw [here, List.flatten_singleton, List.append_nil]
    have short : run.length ≤ fuel := by
      rw [whole] at enough
      simp at enough
      omega
    have found := shelf.findEndOfRun whole some' (chains run (List.mem_singleton_self run)) (fun _ _ _ head => by cases head)
      short
    obtain ⟨a, rest, rfl⟩ := List.exists_cons_of_ne_nil some'
    refine ⟨h, ?_, ?_, fun _ _ => rfl⟩
    · rw [FileSystem.sortPass, List.flatten_cons, List.flatten_nil, found]
      rw [List.cons_append] at whole ⊢
      rw [LinkedList.pointer_cons, if_neg (shelf.ne_end whole)]
      exact if_pos rfl
    · rw [mergePairs, ← here, Function.update_eq_self]
      exact shelf
  | case3 first second rest ih =>
    obtain ⟨turns, rfl⟩ := Nat.exists_eq_succ_of_ne_zero (Nat.ne_of_gt (Nat.lt_of_le_of_lt (Nat.zero_le _) turn))
    have some' : first ≠ [] := fun empty => full (empty ▸ List.mem_cons_self)
    have some'' : second ≠ [] := fun empty => full (empty ▸ List.mem_cons_of_mem first List.mem_cons_self)
    have full' : [] ∉ rest := fun inside => full (List.mem_cons_of_mem first (List.mem_cons_of_mem second inside))
    have break₁ := break_flatten (fun inside => full (List.mem_cons_of_mem first inside)) breaks
    rw [List.flatten_cons, List.flatten_cons] at here
    rw [List.flatten_cons] at break₁
    obtain ⟨g, taken, shelf', same⟩ := shelf.sortTurn turns cnt here some' some''
      (chains first List.mem_cons_self) (chains second (List.mem_cons_of_mem first List.mem_cons_self)) break₁
      (break_flatten full' breaks.tail) enough
    have here' : Function.update m i (front ++ (first.merge second (ordered less) ++ rest.flatten)) i =
        (front ++ first.merge second (ordered less)) ++ rest.flatten := by
      rw [Function.update_self, List.append_assoc]
    have size : (Function.update m i (front ++ (first.merge second (ordered less) ++ rest.flatten)) i).length < fuel := by
      rw [here] at enough
      simp only [Function.update_self, List.length_append, List.length_merge] at enough ⊢
      omega
    obtain ⟨g', passed, shelf'', same'⟩ := ih turns (cnt + 1) shelf' here' full'
      (fun run inside => chains run (List.mem_cons_of_mem first (List.mem_cons_of_mem second inside))) breaks.tail.tail size
      (Nat.lt_of_succ_lt (Nat.lt_of_succ_lt_succ turn))
    rw [Function.update_idem, List.append_assoc] at shelf''
    refine ⟨g', ?_, shelf'', fun a away => (same' a away).trans (same a away)⟩
    rw [List.flatten_cons, List.flatten_cons, taken, passed, mergePairs, List.length_cons, Nat.add_assoc, Nat.add_comm 1]

theorem sortPasses (orders : Orders less) {passes : Nat} (shelf : Shelf h lists pool m)
    (bound : ((m i).splitBy (ordered less)).length ≤ 2 ^ passes) (some' : 0 < passes) (enough : (m i).length < fuel) :
    ∃ g l, FileSystem.sortPasses less fuel (lists i) passes h = some g ∧ Shelf g lists pool (Function.update m i l) ∧
      Stable (ordered less) (m i) l ∧ (l.Pairwise fun a b => ordered less a b = true) ∧ ∀ a, ¬pool a → g a = h a := by
  induction passes generalizing h m with
  | zero => cases some'
  | succ passes ih =>
    obtain ⟨whole, full, chains, breaks⟩ := List.splitBy_eq_iff.mp (rfl : (m i).splitBy (ordered less) = _)
    have turns := Nat.lt_of_le_of_lt (@length_splitBy_le α (ordered less) (m i)) enough
    have here : m i = [] ++ ((m i).splitBy (ordered less)).flatten := whole
    obtain ⟨g, passed', shelf', same⟩ := shelf.sortPass fuel 0 here full chains breaks enough turns
    rw [List.nil_append] at shelf'
    rw [← whole, Nat.zero_add, length_mergePairs] at passed'
    have stable := stable_pass orders.trans (m i)
    rw [FileSystem.sortPasses, shelf.listBegin, Option.bind_eq_bind, Option.bind_some, passed', Option.bind_eq_bind,
      Option.bind_some]
    by_cases more : 1 < passed (ordered less) (m i)
    · -- As more than one run is left, there were three at least.
      have halved : passed (ordered less) (m i) ≤ 2 ^ passes := by
        rw [passed]
        rw [Nat.pow_succ] at bound
        omega
      have again : 0 < passes := by
        refine Nat.pos_of_ne_zero fun none => ?_
        rw [none, Nat.pow_zero] at halved
        omega
      have bound' : ((Function.update m i (pass (ordered less) (m i)) i).splitBy (ordered less)).length ≤ 2 ^ passes := by
        rw [Function.update_self]
        exact (runs_pass orders.trans orders.total (m i)).trans halved
      have enough' : (Function.update m i (pass (ordered less) (m i)) i).length < fuel := by
        rw [Function.update_self, stable.perm.length_eq]
        exact enough
      obtain ⟨g', l, done, sorted, stable', inOrder, same'⟩ := ih shelf' bound' again enough'
      rw [Function.update_idem] at sorted
      rw [Function.update_self] at stable'
      exact ⟨g', l, (if_pos more).trans done, sorted, stable.trans stable', inOrder,
        fun a away => (same' a away).trans (same a away)⟩
    · exact ⟨g, pass (ordered less) (m i), if_neg more, shelf', stable,
        pass_sorted orders.trans orders.total (m i) (Nat.le_of_not_lt more), same⟩

/-- `list_sort` ends, with the elements of its list in order, those that are equal as they were, and nothing else moved. -/
theorem sort (orders : Orders less) {passes : Nat} (shelf : Shelf h lists pool m)
    (bound : ((m i).splitBy (ordered less)).length ≤ 2 ^ passes) (some' : 0 < passes) (enough : (m i).length < fuel) :
    ∃ g, listSort less passes fuel h (lists i) = some g ∧
      Shelf g lists pool (Function.update m i ((m i).mergeSort (ordered less))) ∧ ∀ a, ¬pool a → g a = h a := by
  obtain ⟨g, l, passed, shelf', stable, inOrder, same⟩ := shelf.sortPasses orders bound some' enough
  have nodup : (m i).Nodup := by
    have whole := (List.nodup_cons.mp (shelf.nodup i)).2
    exact (List.nodup_append.mp whole).1
  have sorted := stable.eq_mergeSort orders.trans orders.total nodup inOrder
  rw [← sorted]
  refine ⟨g, ?_, shelf', same⟩
  have here : Function.update m i l i = [] ++ (l ++ []) := by rw [Function.update_self, List.append_nil, List.nil_append]
  have size : l.length ≤ fuel := by
    rw [stable.perm.length_eq]
    exact enough.le
  have checked := shelf'.isSorted here inOrder.isChain size
  have start := shelf'.listBegin i
  rw [List.append_nil, LinkedList.pointer_nil] at checked
  rw [Function.update_self] at start
  rw [listSort, passed, Option.bind_eq_bind, Option.bind_some, start, Option.bind_eq_bind, Option.bind_some]
  exact (congrArg (Option.bind · _) checked).trans rfl

end Shelf

section single

variable {α : Type} [DecidableEq α] {h : Heap α} {list : LinkedList α} {elems : List α} {less : α → α → Bool}
  {passes fuel : Nat}

omit [DecidableEq α] in
theorem Linked.shelf (linked : Linked h list elems) :
    Shelf h (fun _ : Unit => list) (· ∈ list.cells elems) fun _ => elems where
  row _ := linked.row
  nodup _ := linked.nodup
  apart _ _ other := absurd rfl other
  pooled _ _ member := member
  held a member := by
    obtain ⟨s, t, whole⟩ := List.append_of_mem member
    have row : Row h none (list.cells elems) none := linked.row
    rw [whole] at row
    rw [(row_split.mp row).2.1]
    rfl

/-- `list_sort` sorts in place and keeps equal elements in their order. Each pass halves the number of runs at least, and
no cell of another list is written. -/
theorem list_sort_stable (orders : Orders less) (linked : Linked h list elems)
    (bound : (elems.splitBy (ordered less)).length ≤ 2 ^ passes) (some' : 0 < passes) (enough : elems.length < fuel) :
    ∃ g sorted, listSort less passes fuel h list = some g ∧ Linked g list sorted ∧ sorted.Perm elems ∧
      (sorted.Pairwise fun a b => less b a = false) ∧
      (∀ a b, less b a = false → [a, b].Sublist elems → [a, b].Sublist sorted) ∧
      ∀ a ∉ list.cells elems, g a = h a := by
  obtain ⟨g, ran, shelf, same⟩ := linked.shelf.sort (i := ()) orders bound some' enough
  have linked' := shelf.linked ()
  rw [Function.update_self] at linked'
  have stable := Stable.mergeSort orders.trans orders.total elems
  refine ⟨g, elems.mergeSort (ordered less), ran, linked', stable.perm, ?_, ?_, same⟩
  · apply (List.pairwise_mergeSort orders.trans orders.total elems).imp
    intro a b before
    simpa [ordered] using before
  · intro a b before there
    exact stable.keeps a b (by simpa [ordered] using before) there

def linkedPair : Heap Nat
  | 0 => some ⟨none, some 2⟩
  | 1 => some ⟨some 3, none⟩
  | 2 => some ⟨some 0, some 3⟩
  | 3 => some ⟨some 2, some 1⟩
  | _ => none

theorem list_sort_stable_pair : ∃ g, listSort (fun a b : Nat => decide (b < a)) 1 3 linkedPair ⟨0, 1⟩ = some g ∧
    Linked g ⟨0, 1⟩ [3, 2] := by
  have orders : Orders fun a b : Nat => decide (b < a) := by
    refine ⟨fun a b before => ?_, fun a b c before => ?_⟩
    · simp only [decide_eq_true_eq, decide_eq_false_iff_not] at before ⊢
      omega
    · simp only [decide_eq_true_eq] at before ⊢
      omega
  have linked : Linked linkedPair ⟨0, 1⟩ [2, 3] := ⟨⟨rfl, rfl, rfl, rfl, trivial⟩, by decide⟩
  have passes : ([2, 3].splitBy (ordered fun a b : Nat => decide (b < a))).length ≤ 2 ^ 1 := by decide
  have fuel : [2, 3].length < 3 := by decide
  obtain ⟨g, sorted, ran, linked', perm, inOrder, -, -⟩ := list_sort_stable orders linked passes Nat.one_pos fuel
  have falling : sorted = [3, 2] := by
    apply (perm.trans (.swap 3 2 [])).eq_of_pairwise _ inOrder (by decide)
    intro a b _ _ first second
    simp only [decide_eq_false_iff_not] at first second
    omega
  rw [falling] at linked'
  exact ⟨g, ran, linked'⟩

end single

end ShellOs.FileSystem
