import ShellOs.FileSystem.ListWalks
import ShellOs.Lib.Trace

/-! list.c keeps sequences: in every run of its calls on some lists, the pointers that they return are those that
sequences would give. -/

namespace ShellOs.FileSystem
open Lib DoublyLinked

inductive ListCall (ι α : Type)
  | init (i : ι)
  | begin (i : ι)
  | next (elem : α)
  | rbegin (i : ι)
  | prev (elem : α)
  | insert (before elem : α)
  | splice (before first last : α)
  | pushFront (i : ι) (elem : α)
  | pushBack (i : ι) (elem : α)
  | remove (elem : α)
  | popFront (i : ι)
  | popBack (i : ι)
  | front (i : ι)
  | back (i : ι)
  | size (i : ι)
  | empty (i : ι)
  | reverse (i : ι)
  | sort (i : ι)
  | insertOrdered (i : ι) (elem : α)
  | unique (i : ι) (duplicates : Option ι)
  | max (i : ι)
  | min (i : ι)

inductive ListAnswer (α : Type)
  | done
  | elem (pointer : α)
  | count (number : Nat)
  | truth (value : Bool)

section run

variable {ι α : Type} [DecidableEq α] (less : α → α → Bool) (lists : ι → LinkedList α) (fuel : Nat) (h : Heap α)

def ListCall.run : ListCall ι α → Option (ListAnswer α × Heap α)
  | .init i => (llistInit h (lists i)).map fun g => (.done, g)
  | .begin i => (listBegin h (lists i)).map fun e => (.elem e, h)
  | .next elem => (listNext h elem).map fun e => (.elem e, h)
  | .rbegin i => (listRbegin h (lists i)).map fun e => (.elem e, h)
  | .prev elem => (listPrev h elem).map fun e => (.elem e, h)
  | .insert before elem => (listInsert h before elem).map fun g => (.done, g)
  | .splice before first last => (listSplice h before first last).map fun g => (.done, g)
  | .pushFront i elem => (listPushFront h (lists i) elem).map fun g => (.done, g)
  | .pushBack i elem => (listPushBack h (lists i) elem).map fun g => (.done, g)
  | .remove elem => (listRemove h elem).bind fun r => r.1.map fun e => (.elem e, r.2)
  | .popFront i => (listPopFront h (lists i)).map fun r => (.elem r.1, r.2)
  | .popBack i => (listPopBack h (lists i)).map fun r => (.elem r.1, r.2)
  | .front i => (listFront h (lists i)).map fun e => (.elem e, h)
  | .back i => (listBack h (lists i)).map fun e => (.elem e, h)
  | .size i => (listSize fuel h (lists i)).map fun n => (.count n, h)
  | .empty i => (listEmpty h (lists i)).map fun b => (.truth b, h)
  | .reverse i => (listReverse fuel h (lists i)).map fun g => (.done, g)
  | .sort i => (listSort less fuel fuel h (lists i)).map fun g => (.done, g)
  | .insertOrdered i elem => (listInsertOrdered less fuel h (lists i) elem).map fun g => (.done, g)
  | .unique i duplicates => (listUnique less fuel h (lists i) (duplicates.map lists)).map fun g => (.done, g)
  | .max i => (listMax less fuel h (lists i)).map fun e => (.elem e, h)
  | .min i => (listMin less fuel h (lists i)).map fun e => (.elem e, h)

end run

section spec

variable {ι α : Type} [DecidableEq ι] (less : α → α → Bool) (lists : ι → LinkedList α) (pool : α → Prop)

def Loose (m : ι → List α) (e : α) : Prop := pool e ∧ ∀ j, e ∉ (lists j).cells (m j)

/-- What the calls do to sequences. A pointer to an element stands for the rest of its list from there, and the tail for
the empty rest; what comes before an element may be the head. -/
inductive ListStep (m : ι → List α) : ListCall ι α → ListAnswer α → (ι → List α) → Prop
  | init {i : ι} : ListStep m (.init i) .done (Function.update m i [])
  | begin {i : ι} : ListStep m (.begin i) (.elem ((lists i).pointer (m i))) m
  | next {i : ι} {front back : List α} {e : α} (here : m i = front ++ e :: back) :
      ListStep m (.next e) (.elem ((lists i).pointer back)) m
  | rbegin {i : ι} : ListStep m (.rbegin i) (.elem ((lists i).behind (m i))) m
  | prev {i : ι} {front back : List α} (here : m i = front ++ back) :
      ListStep m (.prev ((lists i).pointer back)) (.elem ((lists i).behind front)) m
  | insert {i : ι} {front back : List α} {e : α} (here : m i = front ++ back) (loose : Loose lists pool m e) :
      ListStep m (.insert ((lists i).pointer back) e) .done (Function.update m i (front ++ e :: back))
  | splice {i j : ι} {front seg back front' back' : List α} (here : m i = front ++ (seg ++ back))
      (there : Function.update m i (front ++ back) j = front' ++ back') :
      ListStep m (.splice ((lists j).pointer back') ((lists i).pointer (seg ++ back)) ((lists i).pointer back)) .done
        (Function.update (Function.update m i (front ++ back)) j (front' ++ (seg ++ back')))
  | pushFront {i : ι} {e : α} (loose : Loose lists pool m e) :
      ListStep m (.pushFront i e) .done (Function.update m i (e :: m i))
  | pushBack {i : ι} {e : α} (loose : Loose lists pool m e) :
      ListStep m (.pushBack i e) .done (Function.update m i (m i ++ [e]))
  | remove {i : ι} {front back : List α} {e : α} (here : m i = front ++ e :: back) :
      ListStep m (.remove e) (.elem ((lists i).pointer back)) (Function.update m i (front ++ back))
  | popFront {i : ι} {back : List α} {e : α} (here : m i = e :: back) :
      ListStep m (.popFront i) (.elem e) (Function.update m i back)
  | popBack {i : ι} {front : List α} {e : α} (here : m i = front ++ [e]) :
      ListStep m (.popBack i) (.elem e) (Function.update m i front)
  | front {i : ι} {back : List α} {e : α} (here : m i = e :: back) : ListStep m (.front i) (.elem e) m
  | back {i : ι} {front : List α} {e : α} (here : m i = front ++ [e]) : ListStep m (.back i) (.elem e) m
  | size {i : ι} : ListStep m (.size i) (.count (m i).length) m
  | empty {i : ι} : ListStep m (.empty i) (.truth (m i).isEmpty) m
  | reverse {i : ι} : ListStep m (.reverse i) .done (Function.update m i (m i).reverse)
  | sort {i : ι} : ListStep m (.sort i) .done (Function.update m i ((m i).mergeSort (ordered less)))
  | insertOrdered {i : ι} {e : α} (loose : Loose lists pool m e) :
      ListStep m (.insertOrdered i e) .done
        (Function.update m i ((m i).orderedInsert (fun a b => less a b = true) e))
  | unique {i : ι} {duplicates : Option ι} (other : ∀ j ∈ duplicates, j ≠ i) :
      ListStep m (.unique i duplicates) .done
        (collected (Function.update m i ((m i).destutter (Differ less))) duplicates (dropped less (m i)))
  | maxEmpty {i : ι} (here : m i = []) : ListStep m (.max i) (.elem (listEnd (lists i))) m
  | max {i : ι} {front back : List α} {e : α} (here : m i = front ++ e :: back) (before : ∀ a ∈ front, less a e = true)
      (after : ∀ a ∈ back, less e a = false) : ListStep m (.max i) (.elem e) m
  | minEmpty {i : ι} (here : m i = []) : ListStep m (.min i) (.elem (listEnd (lists i))) m
  | min {i : ι} {front back : List α} {e : α} (here : m i = front ++ e :: back) (before : ∀ a ∈ front, less e a = true)
      (after : ∀ a ∈ back, less a e = false) : ListStep m (.min i) (.elem e) m

end spec

namespace Shelf

variable {ι α : Type} [DecidableEq α] [DecidableEq ι] {less : α → α → Bool} {lists : ι → LinkedList α} {pool : α → Prop}
  {h : Heap α} {m m' : ι → List α} {call : ListCall ι α} {answer : ListAnswer α} {fuel : Nat}

theorem step (orders : Orders less) (shelf : Shelf h lists pool m) (enough : ∀ i, (m i).length < fuel)
    (step : ListStep less lists pool m call answer m') :
    ∃ g, call.run less lists fuel h = some (answer, g) ∧ Shelf g lists pool m' ∧ ∀ a, ¬pool a → g a = h a := by
  have looks : ∀ {pointer : Option (ListAnswer α × Heap α)} {answer : ListAnswer α}, pointer = some (answer, h) →
      ∃ g, pointer = some (answer, g) ∧ Shelf g lists pool m ∧ ∀ a, ¬pool a → g a = h a :=
    fun run => ⟨h, run, shelf, fun _ _ => rfl⟩
  cases step with
  | @init i =>
    obtain ⟨g, made, shelf', same⟩ := shelf.init i
    exact ⟨g, congrArg (Option.map _) made, shelf', same⟩
  | @begin i => exact looks (congrArg (Option.map _) (shelf.listBegin i))
  | next here => exact looks (congrArg (Option.map _) (shelf.next here))
  | @rbegin i =>
    obtain ⟨next, cell⟩ := shelf.prev (List.append_nil (m i)).symm
    exact looks (by rw [ListCall.run, listRbegin, ← LinkedList.pointer_nil, cell]; rfl)
  | prev here =>
    obtain ⟨next, cell⟩ := shelf.prev here
    exact looks (by rw [ListCall.run, FileSystem.listPrev, cell]; rfl)
  | insert here loose =>
    obtain ⟨g, inserted, shelf', same⟩ := shelf.insert here loose.2 loose.1
    exact ⟨g, congrArg (Option.map _) inserted, shelf', same⟩
  | splice here there =>
    obtain ⟨g, spliced, shelf', same⟩ := shelf.splice here there
    exact ⟨g, congrArg (Option.map _) spliced, shelf', same⟩
  | @pushFront i e loose =>
    obtain ⟨g, pushed, shelf', same⟩ := shelf.pushFront i loose.2 loose.1
    exact ⟨g, congrArg (Option.map _) pushed, shelf', same⟩
  | @pushBack i e loose =>
    obtain ⟨g, pushed, shelf', same⟩ := shelf.pushBack i loose.2 loose.1
    exact ⟨g, congrArg (Option.map _) pushed, shelf', same⟩
  | remove here =>
    obtain ⟨g, removed, shelf', same⟩ := shelf.remove here
    exact ⟨g, by rw [ListCall.run, removed]; rfl, shelf', same⟩
  | popFront here =>
    obtain ⟨g, popped, shelf', same⟩ := shelf.popFront here
    exact ⟨g, congrArg (Option.map _) popped, shelf', same⟩
  | popBack here =>
    obtain ⟨g, popped, shelf', same⟩ := shelf.popBack here
    exact ⟨g, congrArg (Option.map _) popped, shelf', same⟩
  | front here => exact looks (congrArg (Option.map _) (shelf.listFront here))
  | back here => exact looks (congrArg (Option.map _) (shelf.listBack here))
  | @size i => exact looks (congrArg (Option.map _) (shelf.size (enough i)))
  | @empty i => exact looks (congrArg (Option.map _) (listEmpty_spec (shelf.linked i)))
  | @reverse i =>
    obtain ⟨g, reversed, shelf', same⟩ := shelf.reverse (enough i)
    exact ⟨g, congrArg (Option.map _) reversed, shelf', same⟩
  | @sort i =>
    have bound : ((m i).splitBy (ordered less)).length ≤ 2 ^ fuel :=
      ((NaturalMerge.length_splitBy_le (m i)).trans (enough i).le).trans Nat.lt_two_pow_self.le
    obtain ⟨g, sorted, shelf', same⟩ := shelf.sort orders bound (Nat.lt_of_le_of_lt (Nat.zero_le _) (enough i)) (enough i)
    exact ⟨g, congrArg (Option.map _) sorted, shelf', same⟩
  | @insertOrdered i e loose =>
    obtain ⟨g, inserted, shelf', same⟩ := shelf.insertOrdered loose.2 loose.1 (enough i)
    exact ⟨g, congrArg (Option.map _) inserted, shelf', same⟩
  | @unique i duplicates other =>
    obtain ⟨g, done, shelf', same⟩ := shelf.unique (enough i).le duplicates other
    exact ⟨g, congrArg (Option.map _) done, shelf', same⟩
  | maxEmpty here => exact looks (congrArg (Option.map _) (shelf.bestOf_empty here))
  | @max i front back e here before after =>
    exact looks (congrArg (Option.map _) (shelf.bestOf here before after (enough i)))
  | minEmpty here => exact looks (congrArg (Option.map _) (shelf.bestOf_empty here))
  | @min i front back e here before after =>
    exact looks (congrArg (Option.map _) (shelf.bestOf here before after (enough i)))

omit [DecidableEq α] [DecidableEq ι] in
theorem length_lt {cells : List α} (shelf : Shelf h lists (· ∈ cells) m) (i : ι) : (m i).length < cells.length := by
  have inside := (List.subperm_of_subset (shelf.nodup i) (shelf.pooled i)).length_le
  rw [LinkedList.cells, List.length_cons, List.length_append] at inside
  exact Nat.lt_of_lt_of_le (Nat.lt_succ_of_le (Nat.le_add_right _ _)) inside

end Shelf

section start

variable {ι α : Type} [DecidableEq α] {lists : ι → LinkedList α} {h g : Heap α} {elems l : List α} {i : ι} {is : List ι}

omit [DecidableEq α] in
theorem Linked.touched {list : LinkedList α} (linked : Linked h list elems) (touches : Touches l h g)
    (apart : (list.cells elems).Disjoint l) : Linked g list elems :=
  ⟨(touches.row fun _ member inside => apart member inside).mpr linked.row, linked.nodup⟩

theorem llistInit_all (once : (is.flatMap fun i => (lists i).cells []).Nodup)
    (held : ∀ i ∈ is, ∀ a ∈ (lists i).cells [], (h a).isSome = true) :
    ∃ g, is.foldlM (fun h i => llistInit h (lists i)) h = some g ∧ (∀ i ∈ is, Linked g (lists i) []) ∧
      Touches (is.flatMap fun i => (lists i).cells []) h g := by
  induction is generalizing h with
  | nil => exact ⟨h, rfl, fun _ member => absurd member List.not_mem_nil, .refl [] h⟩
  | cons i rest ih =>
    rw [List.flatMap_cons] at once ⊢
    obtain ⟨own, others, cross⟩ := List.nodup_append.mp once
    have apart : (lists i).head ≠ (lists i).tail := fun same =>
      (List.nodup_cons.mp own).1 (List.mem_singleton.mpr same)
    have here := held i List.mem_cons_self
    obtain ⟨first, head⟩ := Option.isSome_iff_exists.mp (here (lists i).head List.mem_cons_self)
    obtain ⟨second, tail⟩ := Option.isSome_iff_exists.mp (here (lists i).tail (List.mem_cons_of_mem _ List.mem_cons_self))
    obtain ⟨g, made, linked⟩ := llistInit_spec h (lists i) head tail apart
    have touches := llistInit_touches made
    obtain ⟨g', all, linked', touches'⟩ := ih (h := g) others fun j member a inside =>
      touches.kept a (held j (List.mem_cons_of_mem i member) a inside)
    refine ⟨g', ?_, ?_, (touches.mono (List.subset_append_left _ _)).trans
      (touches'.mono (List.subset_append_right _ _))⟩
    · rw [List.foldlM_cons, made]
      exact all
    · intro j member
      obtain rfl | inside := List.mem_cons.mp member
      · exact linked.touched touches' fun a inner outer => cross a inner a outer rfl
      · exact linked' j inside

theorem Shelf.of_llistInit {pool : α → Prop} (once : (is.flatMap fun i => (lists i).cells []).Nodup)
    (all : ∀ i, i ∈ is) (pooled : ∀ i, ∀ a ∈ (lists i).cells [], pool a) (held : ∀ a, pool a → (h a).isSome = true) :
    ∃ g, is.foldlM (fun h i => llistInit h (lists i)) h = some g ∧ Shelf g lists pool (fun _ => []) ∧
      ∀ a, ¬pool a → g a = h a := by
  obtain ⟨g, made, linked, touches⟩ := llistInit_all once fun i _ a member => held a (pooled i a member)
  refine ⟨g, made, ⟨fun i => (linked i (all i)).row, fun i => (linked i (all i)).nodup, ?_, pooled, ?_⟩, ?_⟩
  · intro i j other
    have symm : Std.Symm (Function.onFun List.Disjoint fun i => (lists i).cells []) :=
      ⟨fun _ _ apart => List.disjoint_comm.mp apart⟩
    exact (List.nodup_flatMap.mp once).2.forall (all i) (all j) other
  · exact fun a own => touches.kept a (held a own)
  · intro a away
    apply touches.same
    intro member
    obtain ⟨i, -, inside⟩ := List.mem_flatMap.mp member
    exact away (pooled i a inside)

end start

section refinement

variable {ι α : Type} [DecidableEq ι] [DecidableEq α] {less : α → α → Bool} {lists : ι → LinkedList α} {cells : List α}
  {h : Heap α} {is : List ι} {fuel : Nat} {talk : List (ListCall ι α × ListAnswer α)} {m : ι → List α}

/-- Lists are made and used. Whatever the calls would return if each list were a sequence, the code returns on cells that
are linked with each other; its loops need no more turns than there are cells, and no other cell is written. -/
theorem list_calls_keep_sequences (orders : Orders less) (once : (is.flatMap fun i => (lists i).cells []).Nodup)
    (all : ∀ i, i ∈ is) (pooled : ∀ i, ∀ a ∈ (lists i).cells [], a ∈ cells) (held : ∀ a ∈ cells, (h a).isSome = true)
    (enough : cells.length ≤ fuel) (trace : Trace (ListStep less lists (· ∈ cells)) (fun _ => []) talk m) :
    ∃ made g, is.foldlM (fun h i => llistInit h (lists i)) h = some made ∧
      Trace (fun h call answer g => ListCall.run less lists fuel h call = some (answer, g)) made talk g ∧
      (∀ i, Linked g (lists i) (m i)) ∧ ∀ a ∉ cells, g a = h a := by
  obtain ⟨made, begun, start, same⟩ := Shelf.of_llistInit once all pooled held
  obtain ⟨g, runs, shelf, same'⟩ := trace.simulates
    (fun h call answer g => ListCall.run less lists fuel h call = some (answer, g))
    (fun m g => Shelf g lists (· ∈ cells) m ∧ ∀ a ∉ cells, g a = made a) ⟨start, fun _ _ => rfl⟩ (by
      intro m k call answer m' related took
      obtain ⟨shelf, same⟩ := related
      obtain ⟨g, run, shelf', same'⟩ := shelf.step orders (fun i => (shelf.length_lt i).trans_le enough) took
      exact ⟨g, run, shelf', fun a away => (same' a away).trans (same a away)⟩)
  exact ⟨made, g, begun, runs, fun i => shelf.linked i, fun a away => (same' a away).trans (same a away)⟩

/-- Two elements are put into a new list, which is turned round, and the second one comes out first. -/
theorem list_calls_keep_sequences_pair : ∃ made g,
    [()].foldlM (fun h _ => llistInit h (⟨0, 1⟩ : LinkedList Nat)) (fun a => if a < 4 then some ⟨none, none⟩ else none) =
      some made ∧
    Trace (fun h call answer g => ListCall.run (fun a b : Nat => decide (a < b)) (fun _ : Unit => ⟨0, 1⟩) 4 h call =
      some (answer, g)) made
      [(.pushBack () 2, .done), (.pushBack () 3, .done), (.reverse (), .done), (.popFront (), .elem 3)] g := by
  have orders : Orders fun a b : Nat => decide (a < b) := by
    refine ⟨fun a b before => ?_, fun a b c before => ?_⟩
    · simp only [decide_eq_true_eq, decide_eq_false_iff_not] at before ⊢
      omega
    · simp only [decide_eq_true_eq] at before ⊢
      omega
  have trace : Trace (ListStep (fun a b : Nat => decide (a < b)) (fun _ : Unit => ⟨0, 1⟩) (· ∈ [0, 1, 2, 3]))
      (fun _ => []) ([] ++ [(.pushBack () 2, .done)] ++ [(.pushBack () 3, .done)] ++ [(.reverse (), .done)] ++
        [(.popFront (), .elem 3)]) _ :=
    .next (.next (.next (.next .start (.pushBack ⟨by decide, fun | () => by decide⟩))
      (.pushBack ⟨by decide, fun | () => by decide⟩)) .reverse) (.popFront rfl)
  have all : ∀ i : Unit, i ∈ [()] := fun | () => List.mem_singleton_self ()
  have held : ∀ a ∈ [0, 1, 2, 3], (if a < 4 then some (⟨none, none⟩ : Cell Nat) else none).isSome = true := by decide
  have fuel : [0, 1, 2, 3].length ≤ 4 := by decide
  obtain ⟨made, g, begun, runs, -⟩ := list_calls_keep_sequences orders (by decide) all (fun | () => by decide) held fuel trace
  exact ⟨made, g, begun, runs⟩

end refinement

end ShellOs.FileSystem
