import ShellOs.FileSystem.ListSort
import Mathlib.Data.List.Sort
import Mathlib.Data.List.Destutter

/-! The calls of list.c that go over a whole list. -/

namespace ShellOs.FileSystem
open Lib DoublyLinked

section touches

variable {α : Type} [DecidableEq α] {h g : Heap α} {a : α} {z : Option α} {list : LinkedList α}

theorem setPrev_touches (stored : setPrev h a z = some g) : Touches [a] h g := by
  obtain ⟨cell, -, rfl⟩ := Option.map_eq_some_iff.mp stored
  exact touches_update _

theorem setNext_touches (stored : setNext h a z = some g) : Touches [a] h g := by
  obtain ⟨cell, -, rfl⟩ := Option.map_eq_some_iff.mp stored
  exact touches_update _

theorem llistInit_touches (made : llistInit h list = some g) : Touches (list.cells []) h g := by
  rw [llistInit] at made
  obtain ⟨g₁, stored₁, made⟩ := Option.bind_eq_some_iff.mp made
  obtain ⟨g₂, stored₂, made⟩ := Option.bind_eq_some_iff.mp made
  obtain ⟨g₃, stored₃, stored₄⟩ := Option.bind_eq_some_iff.mp made
  have head : [list.head] ⊆ list.cells [] := by simp [LinkedList.cells]
  have tail : [list.tail] ⊆ list.cells [] := by simp [LinkedList.cells]
  exact ((((setPrev_touches stored₁).mono head).trans ((setNext_touches stored₂).mono head)).trans
    ((setPrev_touches stored₃).mono tail)).trans ((setNext_touches stored₄).mono tail)

end touches

section reverse

variable {α : Type} [DecidableEq α] {h : Heap α} {p q : Option α} {e : α} {l : List α} {list : LinkedList α} {fuel : Nat}

theorem swap_links {prev next : Option α} (cell : h e = some ⟨prev, next⟩) :
    swap h (.prev e) (.next e) = some (Function.update h e (some ⟨next, prev⟩)) := by
  have stored := setPrev_of cell next
  have stored' := setNext_of (Function.update_self e (some (⟨next, next⟩ : Cell α)) h) prev
  rw [Function.update_idem] at stored'
  simp only [swap, Link.load, Link.store, cell, stored, stored', Option.map_some, Option.bind_eq_bind, Option.bind_some]

theorem swapFrom_row (row : Row h p l (some list.tail)) (nodup : (l ++ [list.tail]).Nodup) (enough : l.length < fuel) :
    ∃ g, swapFrom list fuel h (list.pointer l) = some g ∧ Row g (some list.tail) l.reverse p ∧ Touches l h g := by
  induction l generalizing h p fuel with
  | nil =>
    obtain ⟨fuel, rfl⟩ := Nat.exists_eq_succ_of_ne_zero (Nat.ne_of_gt enough)
    exact ⟨h, if_pos rfl, trivial, .refl [] h⟩
  | cons e rest ih =>
    obtain ⟨fuel, rfl⟩ := Nat.exists_eq_succ_of_ne_zero (Nat.ne_of_gt (Nat.lt_of_le_of_lt (Nat.zero_le _) enough))
    obtain ⟨cell, behind⟩ := row
    obtain ⟨fresh, nodup⟩ := List.nodup_cons.mp nodup
    have apart : e ∉ rest := fun inside => fresh (List.mem_append_left _ inside)
    have away : e ≠ listEnd list := fun same => fresh (List.mem_append_right rest (List.mem_singleton.mpr same))
    have next : rest.head?.or (some list.tail) = some (list.pointer rest) := by cases rest <;> rfl
    rw [next] at cell
    obtain ⟨own, turned⟩ : ∃ own, own = Function.update h e (some (⟨some (list.pointer rest), p⟩ : Cell α)) := ⟨_, rfl⟩
    have swapped := swap_links cell
    rw [← turned] at swapped
    have here : own e = some ⟨some (list.pointer rest), p⟩ := by rw [turned, Function.update_self]
    have touched : Touches [e] h own := turned ▸ touches_update _
    obtain ⟨g, went, reversed, touched'⟩ := ih ((touched.row_of apart).mpr behind) nodup (by simpa using enough)
    refine ⟨g, ?_, ?_, ?_⟩
    · rw [swapFrom, LinkedList.pointer_cons, if_neg away, swapped, Option.bind_eq_bind, Option.bind_some, here,
        Option.bind_eq_bind, Option.bind_some]
      exact went
    · rw [List.reverse_cons]
      refine row_split.mpr ⟨reversed, ?_, trivial⟩
      rw [touched'.same e apart, here, List.getLast?_reverse, next]
      rfl
    · exact (touched.mono (by simp)).trans (touched'.mono (List.subset_cons_self e rest))

theorem swap_next_prev {a b : α} {x y : Option α} (left : h a = some ⟨p, x⟩) (right : h b = some ⟨y, q⟩) (apart : b ≠ a) :
    swap h (.next a) (.prev b) =
      some (Function.update (Function.update h a (some ⟨p, y⟩)) b (some ⟨x, q⟩)) := by
  have stored := setNext_of left y
  have right' := (Function.update_of_ne apart (some (⟨p, y⟩ : Cell α)) h).trans right
  simp only [swap, Link.load, Link.store, left, right, stored, setPrev_of right', Option.map_some, Option.bind_eq_bind,
    Option.bind_some]

omit [DecidableEq α] in
theorem cells_row : Row h none (list.cells l) none ↔ h list.head = some ⟨none, some (list.pointer l)⟩ ∧
    Row h (some list.head) l (some list.tail) ∧ h list.tail = some ⟨some (list.behind l), none⟩ := by
  rw [LinkedList.cells, Row, row_split, Option.or_none, LinkedList.head?_pointer]
  have last : l.getLast?.or (some list.head) = some (list.behind l) := by
    rw [← LinkedList.getLast?_behind, List.getLast?_cons, Option.or_some]
  rw [last]
  exact ⟨fun row => ⟨row.1, row.2.1, row.2.2.1⟩, fun row => ⟨row.1, row.2.1, row.2.2, trivial⟩⟩

/-- The headers and the ends of the elements are swapped last, when the elements still point to the wrong headers. -/
theorem swap_headers {first last : α} (head : h list.head = some ⟨none, some last⟩)
    (tail : h list.tail = some ⟨some first, none⟩) (row : Row h (some list.tail) l (some list.head))
    (nodup : (list.cells l).Nodup) (starts : l.head? = some first) (ends : l.getLast? = some last) :
    ∃ g g', swap h (.next list.head) (.prev list.tail) = some g ∧ swap g (.prev first) (.next last) = some g' ∧
      g list.head = some ⟨none, some first⟩ ∧ g list.tail = some ⟨some last, none⟩ ∧
      Row g' none (list.cells l) none ∧ Touches (list.cells l) h g' := by
  obtain ⟨fresh, others⟩ := List.nodup_cons.mp nodup
  obtain ⟨once, -, cross⟩ := List.nodup_append.mp others
  have headTail : list.head ≠ list.tail := fun same => fresh (List.mem_append_right _ (List.mem_singleton.mpr same))
  have headAway : list.head ∉ l := fun inside => fresh (List.mem_append_left _ inside)
  have tailAway : list.tail ∉ l := fun inside => cross _ inside _ (List.mem_singleton_self _) rfl
  have swapped := swap_next_prev head tail headTail.symm
  obtain ⟨g, turned⟩ : ∃ g, g = Function.update (Function.update h list.head (some (⟨none, some first⟩ : Cell α)))
    list.tail (some ⟨some last, none⟩) := ⟨_, rfl⟩
  rw [← turned] at swapped
  have head₁ : g list.head = some ⟨none, some first⟩ := by
    rw [turned, Function.update_of_ne headTail, Function.update_self]
  have tail₁ : g list.tail = some ⟨some last, none⟩ := by rw [turned, Function.update_self]
  have row₁ : Row g (some list.tail) l (some list.head) := by
    rw [turned, row_update tailAway, row_update headAway]
    exact row
  have touched₁ : Touches (list.cells l) h g := by
    rw [turned]
    exact ((touches_update _).mono (by simp [LinkedList.cells])).trans ((touches_update _).mono (by simp [LinkedList.cells]))
  obtain ⟨next, left⟩ := row_first row₁ starts
  obtain ⟨prev, right⟩ := row_last row₁ ends
  obtain ⟨g₂, stored₂, row₂, touched₂⟩ := setPrev_row row₁ once starts (some list.head)
  obtain ⟨g₃, stored₃, row₃, touched₃⟩ := setNext_row row₂ once ends (some list.tail)
  have firstIn := List.mem_of_head? starts
  have lastIn := List.mem_of_getLast? ends
  have kept : ∀ a ∉ l, g₃ a = g a := fun a away =>
    (touched₃.cell (ne_of_mem_of_not_mem lastIn away).symm).trans (touched₂.cell (ne_of_mem_of_not_mem firstIn away).symm)
  have inside : ∀ a ∈ l, [a] ⊆ list.cells l := by
    intro a member b same
    obtain rfl := List.mem_singleton.mp same
    exact List.mem_cons_of_mem _ (List.mem_append_left _ member)
  refine ⟨g, g₃, swapped, ?_, head₁, tail₁, cells_row.mpr ⟨?_, row₃, ?_⟩, ?_⟩
  · simp only [swap, Link.load, Link.store, left, right, stored₂, stored₃, Option.map_some, Option.bind_eq_bind,
      Option.bind_some]
  · rw [kept _ headAway, head₁, LinkedList.pointer, List.headD_eq_head?_getD, starts, Option.getD_some]
  · rw [kept _ tailAway, tail₁, LinkedList.behind, List.getLastD_eq_getLast?, ends, Option.getD_some]
  · exact (touched₁.trans (touched₂.mono (inside first firstIn))).trans (touched₃.mono (inside last lastIn))

theorem listReverse_linked (linked : Linked h list l) (enough : l.length < fuel) :
    ∃ g, listReverse fuel h list = some g ∧ Linked g list l.reverse ∧ Touches (list.cells l) h g := by
  rw [listReverse, listEmpty_spec linked]
  cases l with
  | nil => exact ⟨h, rfl, linked, .refl _ h⟩
  | cons e rest =>
    obtain ⟨head, row, tail⟩ := cells_row.mp linked.row
    obtain ⟨fresh, nodup⟩ := List.nodup_cons.mp linked.nodup
    have headAway : list.head ∉ e :: rest := fun inside => fresh (List.mem_append_left _ inside)
    have tailAway : list.tail ∉ e :: rest := fun inside =>
      (List.nodup_append.mp nodup).2.2 _ inside _ (List.mem_singleton_self _) rfl
    have start : listBegin h list = some e := by rw [listBegin_spec linked, LinkedList.head?_pointer]; rfl
    obtain ⟨last, ends⟩ : ∃ last, (e :: rest).getLast? = some last := ⟨_, List.getLast?_eq_some_getLast (by simp)⟩
    have back : list.behind (e :: rest) = last := by rw [LinkedList.behind, List.getLastD_eq_getLast?, ends]; rfl
    rw [back] at tail
    have turned : (list.cells (e :: rest).reverse).Perm (list.cells (e :: rest)) :=
      ((List.reverse_perm _).append_right _).cons _
    have nodup' := turned.nodup_iff.mpr linked.nodup
    obtain ⟨g, went, reversed, touched⟩ := swapFrom_row row nodup enough
    obtain ⟨g₁, g₂, swapped, swapped', head', tail', row', touched'⟩ := swap_headers
      ((touched.same _ headAway).trans head) ((touched.same _ tailAway).trans tail) reversed nodup'
      (by rw [List.head?_reverse, ends]) (by rw [List.getLast?_reverse, List.head?_cons]; rfl)
    refine ⟨g₂, ?_, ⟨row', nodup'⟩, ?_⟩
    · rw [LinkedList.pointer_cons] at went
      simp only [List.isEmpty_cons, Option.bind_eq_bind, Option.bind_some, Bool.false_eq_true, if_false, start, went, swapped,
        head', tail', swapped']
    · have whole : e :: rest ⊆ list.cells (e :: rest) := fun a member =>
        List.mem_cons_of_mem _ (List.mem_append_left _ member)
      exact (touched.mono whole).trans (touched'.mono turned.subset)

end reverse

section unique

variable {α ι : Type} (less : α → α → Bool)

def Differ (a b : α) : Prop := less a b = true ∨ less b a = true

instance : DecidableRel (Differ less) := fun a b => inferInstanceAs (Decidable (less a b = true ∨ less b a = true))

/-- What `list_unique` takes out behind an element: each element that is equal to the last one that stays. -/
def repeats (less : α → α → Bool) : α → List α → List α
  | _, [] => []
  | elem, next :: rest =>
    if !less elem next && !less next elem then next :: repeats less elem rest else repeats less next rest

def dropped : List α → List α
  | [] => []
  | elem :: rest => repeats less elem rest

def collected [DecidableEq ι] (m : ι → List α) (duplicates : Option ι) (l : List α) : ι → List α :=
  duplicates.elim m fun j => Function.update m j (m j ++ l)

theorem collected_nil [DecidableEq ι] (m : ι → List α) (duplicates : Option ι) : collected m duplicates [] = m := by
  cases duplicates with
  | none => rfl
  | some j => rw [collected, Option.elim_some, List.append_nil, Function.update_eq_self]

variable [DecidableEq ι] {m : ι → List α} {i : ι} {duplicates : Option ι}

theorem collected_other (other : ∀ j ∈ duplicates, j ≠ i) (l : List α) : collected m duplicates l i = m i := by
  cases duplicates with
  | none => rfl
  | some j => exact Function.update_of_ne (other j rfl).symm _ _

theorem collected_cons (other : ∀ j ∈ duplicates, j ≠ i) (e : α) (l x y : List α) :
    collected (Function.update (collected (Function.update m i x) duplicates [e]) i y) duplicates l =
      collected (Function.update m i y) duplicates (e :: l) := by
  cases duplicates with
  | none => exact Function.update_idem ..
  | some j =>
    have apart : j ≠ i := other j rfl
    simp only [collected, Option.elim_some, Function.update_of_ne apart, Function.update_self, List.append_assoc,
      List.singleton_append]
    rw [Function.update_comm apart, Function.update_idem, Function.update_idem]

end unique

namespace Shelf

variable {α ι : Type} [DecidableEq α] [DecidableEq ι] {h : Heap α} {lists : ι → LinkedList α} {pool : α → Prop}
  {m : ι → List α} {i j : ι} {less : α → α → Bool} {a e : α} {front back : List α} {fuel : Nat}

theorem reverse (shelf : Shelf h lists pool m) (enough : (m i).length < fuel) :
    ∃ g, listReverse fuel h (lists i) = some g ∧ Shelf g lists pool (Function.update m i (m i).reverse) ∧
      ∀ a, ¬pool a → g a = h a := by
  obtain ⟨g, reversed, linked, touches⟩ := listReverse_linked (shelf.linked i) enough
  have same : ∀ a, a ∈ (lists i).cells (m i).reverse ↔ a ∈ (lists i).cells (m i) := by simp [LinkedList.cells]
  refine ⟨g, reversed, ?_, fun a away => touches.same a fun member => away (shelf.pooled i a member)⟩
  apply shelf.change touches
  · exact fun j other a member inside => shelf.apart j i other member inside
  · exact linked
  · exact fun j other a member => shelf.apart i j other.symm ((same a).mp member)
  · exact fun a member => shelf.pooled i a ((same a).mp member)

omit [DecidableEq ι] in
theorem countFrom (shelf : Shelf h lists pool m) (here : m i = front ++ back) (enough : back.length < fuel) (cnt : Nat) :
    FileSystem.countFrom h (lists i) fuel ((lists i).pointer back) cnt = some (cnt + back.length) := by
  induction back generalizing front fuel cnt with
  | nil =>
    obtain ⟨fuel, rfl⟩ := Nat.exists_eq_succ_of_ne_zero (Nat.ne_of_gt enough)
    exact if_pos rfl
  | cons e rest ih =>
    obtain ⟨fuel, rfl⟩ := Nat.exists_eq_succ_of_ne_zero (Nat.ne_of_gt (Nat.lt_of_le_of_lt (Nat.zero_le _) enough))
    have further := ih (here.trans (List.append_cons front e rest)) (by simpa using enough) (cnt + 1)
    rw [FileSystem.countFrom, LinkedList.pointer_cons, if_neg (shelf.ne_end here), shelf.next here, Option.bind_eq_bind,
      Option.bind_some, further, List.length_cons, Nat.add_assoc, Nat.add_comm 1]

omit [DecidableEq ι] in
theorem size (shelf : Shelf h lists pool m) (enough : (m i).length < fuel) :
    listSize fuel h (lists i) = some (m i).length := by
  have counted := shelf.countFrom (List.nil_append (m i)).symm enough 0
  rw [listSize, shelf.listBegin, Option.bind_eq_bind, Option.bind_some, counted, Nat.zero_add]

omit [DecidableEq ι] in
theorem placeFrom (less : α → α → Bool) (shelf : Shelf h lists pool m) (here : m i = front ++ back) (enough : back.length < fuel) (elem : α) :
    FileSystem.placeFrom less h (lists i) elem fuel ((lists i).pointer back) =
      some ((lists i).pointer (back.dropWhile fun e => !less elem e)) := by
  induction back generalizing front fuel with
  | nil =>
    obtain ⟨fuel, rfl⟩ := Nat.exists_eq_succ_of_ne_zero (Nat.ne_of_gt enough)
    exact if_pos rfl
  | cons e rest ih =>
    obtain ⟨fuel, rfl⟩ := Nat.exists_eq_succ_of_ne_zero (Nat.ne_of_gt (Nat.lt_of_le_of_lt (Nat.zero_le _) enough))
    have further := ih (here.trans (List.append_cons front e rest)) (by simpa using enough)
    rw [FileSystem.placeFrom, LinkedList.pointer_cons, if_neg (shelf.ne_end here)]
    by_cases before : less elem e = true
    · rw [if_pos before, List.dropWhile_cons_of_neg (by simpa using before), LinkedList.pointer_cons]
    · rw [if_neg before, List.dropWhile_cons_of_pos (by simpa using before), shelf.next here, Option.bind_eq_bind,
        Option.bind_some, further]

theorem insertOrdered (shelf : Shelf h lists pool m) (fresh : ∀ j, e ∉ (lists j).cells (m j)) (own : pool e)
    (enough : (m i).length < fuel) : ∃ g, listInsertOrdered less fuel h (lists i) e = some g ∧
      Shelf g lists pool (Function.update m i ((m i).orderedInsert (fun a b => less a b = true) e)) ∧
      ∀ a, ¬pool a → g a = h a := by
  have place := shelf.placeFrom less (List.nil_append (m i)).symm enough e
  have parts : m i = ((m i).takeWhile fun b => !less e b) ++ (m i).dropWhile fun b => !less e b :=
    List.takeWhile_append_dropWhile.symm
  obtain ⟨g, inserted, shelf', same⟩ := shelf.insert parts fresh own
  refine ⟨g, ?_, ?_, same⟩
  · rw [listInsertOrdered, shelf.listBegin, Option.bind_eq_bind, Option.bind_some, place, Option.bind_some, inserted]
  · have whole := List.orderedInsert_eq_take_drop (fun a b => less a b = true) e (m i)
    simp only [Bool.not_eq_true, Bool.decide_eq_false] at whole
    rw [whole]
    exact shelf'

theorem setAside (shelf : Shelf h lists pool m) (here : m i = front ++ e :: back) (duplicates : Option ι)
    (other : ∀ j ∈ duplicates, j ≠ i) :
    ∃ next g g', listRemove h e = some (next, g) ∧
      (duplicates.map lists).elim (some g) (fun list => listPushBack g list e) = some g' ∧
      Shelf g' lists pool (collected (Function.update m i (front ++ back)) duplicates [e]) ∧
      ∀ a, ¬pool a → g' a = h a := by
  obtain ⟨g, removed, shelf', kept⟩ := shelf.remove here
  cases duplicates with
  | none => exact ⟨_, g, g, removed, rfl, shelf', kept⟩
  | some j =>
    have apart : j ≠ i := other j rfl
    have whole : m i = front ++ ([e] ++ back) := here
    have fresh := fun k => List.singleton_disjoint.mp (shelf.free whole k)
    have own : pool e := shelf.pooled i e (by simp [LinkedList.cells, here])
    have there := (List.append_nil (Function.update m i (front ++ back) j)).symm
    obtain ⟨g', pushed, shelf'', kept'⟩ := shelf'.insert there fresh own
    exact ⟨_, g, g', removed, pushed, shelf'', fun a away => (kept' a away).trans (kept a away)⟩

theorem uniqueFrom (shelf : Shelf h lists pool m) (here : m i = front ++ e :: back) (enough : back.length < fuel)
    (duplicates : Option ι) (other : ∀ j ∈ duplicates, j ≠ i) :
    ∃ g, FileSystem.uniqueFrom less (lists i) (duplicates.map lists) fuel h e = some g ∧
      Shelf g lists pool (collected (Function.update m i (front ++ back.destutter' (Differ less) e)) duplicates
        (repeats less e back)) ∧ ∀ a, ¬pool a → g a = h a := by
  induction back generalizing h m front e fuel with
  | nil =>
    obtain ⟨fuel, rfl⟩ := Nat.exists_eq_succ_of_ne_zero (Nat.ne_of_gt enough)
    refine ⟨h, ?_, ?_, fun _ _ => rfl⟩
    · rw [FileSystem.uniqueFrom, shelf.next here, Option.bind_eq_bind, Option.bind_some, LinkedList.pointer_nil, listEnd,
        if_pos rfl]
    · rw [List.destutter'_nil, ← here, Function.update_eq_self, repeats, collected_nil]
      exact shelf
  | cons next rest ih =>
    obtain ⟨fuel, rfl⟩ := Nat.exists_eq_succ_of_ne_zero (Nat.ne_of_gt (Nat.lt_of_le_of_lt (Nat.zero_le _) enough))
    have on := here.trans (List.append_cons front e (next :: rest))
    have short : rest.length < fuel := by simpa using enough
    rw [FileSystem.uniqueFrom, shelf.next here, Option.bind_eq_bind, Option.bind_some, LinkedList.pointer_cons,
      if_neg (shelf.ne_end on)]
    by_cases equal : (!less e next && !less next e) = true
    · have same : ¬Differ less e next := by simpa [Differ, not_or] using equal
      rw [if_pos equal, List.destutter'_cons_neg _ same, repeats, if_pos equal]
      obtain ⟨next', g, g', removed, pushed, shelf', kept⟩ := shelf.setAside on duplicates other
      have here' : collected (Function.update m i ((front ++ [e]) ++ rest)) duplicates [next] i = front ++ e :: rest := by
        rw [collected_other other, Function.update_self, List.append_assoc, List.singleton_append]
      obtain ⟨g'', done, shelf'', kept'⟩ := ih shelf' here' short
      rw [collected_cons other] at shelf''
      refine ⟨g'', ?_, shelf'', fun a away => (kept' a away).trans (kept a away)⟩
      rw [removed, Option.bind_eq_bind, Option.bind_some]
      cases duplicates with
      | none => exact (congrArg (Option.bind · _) pushed).trans done
      | some j => exact (congrArg (Option.bind · _) pushed).trans done
    · have differ : Differ less e next := by
        rw [Differ]
        cases first : less e next <;> cases second : less next e <;> simp [first, second] at equal ⊢
      rw [if_neg equal, List.destutter'_cons_pos _ differ, repeats, if_neg equal]
      obtain ⟨g, done, shelf', kept⟩ := ih shelf on short
      rw [List.append_assoc, List.singleton_append] at shelf'
      exact ⟨g, done, shelf', kept⟩

theorem unique (shelf : Shelf h lists pool m) (enough : (m i).length ≤ fuel) (duplicates : Option ι)
    (other : ∀ j ∈ duplicates, j ≠ i) :
    ∃ g, listUnique less fuel h (lists i) (duplicates.map lists) = some g ∧
      Shelf g lists pool (collected (Function.update m i ((m i).destutter (Differ less))) duplicates
        (dropped less (m i))) ∧ ∀ a, ¬pool a → g a = h a := by
  rw [listUnique, listEmpty_spec (shelf.linked i), shelf.listBegin]
  cases here : m i with
  | nil =>
    refine ⟨h, rfl, ?_, fun _ _ => rfl⟩
    rw [List.destutter_nil, dropped, collected_nil, ← here, Function.update_eq_self]
    exact shelf
  | cons e back =>
    have whole : m i = [] ++ e :: back := here
    rw [here] at enough
    exact shelf.uniqueFrom whole enough duplicates other

section best

variable {better : α → α → Bool}

omit [DecidableEq ι] in
theorem bestFrom (better : α → α → Bool) (shelf : Shelf h lists pool m) (here : m i = front ++ back) (enough : back.length < fuel) (best : α) :
    FileSystem.bestFrom better h (lists i) fuel best ((lists i).pointer back) =
      some (back.foldl (fun best e => if better e best then e else best) best) := by
  induction back generalizing front fuel best with
  | nil =>
    obtain ⟨fuel, rfl⟩ := Nat.exists_eq_succ_of_ne_zero (Nat.ne_of_gt enough)
    exact if_pos rfl
  | cons e rest ih =>
    obtain ⟨fuel, rfl⟩ := Nat.exists_eq_succ_of_ne_zero (Nat.ne_of_gt (Nat.lt_of_le_of_lt (Nat.zero_le _) enough))
    have further := ih (here.trans (List.append_cons front e rest)) (by simpa using enough)
      (if better e best then e else best)
    rw [FileSystem.bestFrom, LinkedList.pointer_cons, if_neg (shelf.ne_end here), shelf.next here, Option.bind_eq_bind,
      Option.bind_some, further, List.foldl_cons]

omit [DecidableEq ι] in
theorem bestOf_empty (shelf : Shelf h lists pool m) (here : m i = []) :
    bestOf better fuel h (lists i) = some (listEnd (lists i)) := by
  rw [bestOf, shelf.listBegin, here, Option.bind_eq_bind, Option.bind_some]
  exact if_pos rfl

omit [DecidableEq α] [DecidableEq ι] in
theorem foldl_best (after : ∀ e ∈ back, better e a = false) :
    back.foldl (fun best e => if better e best then e else best) a = a := by
  induction back with
  | nil => rfl
  | cons e rest ih =>
    rw [List.foldl_cons, after e List.mem_cons_self]
    exact ih fun x inside => after x (List.mem_cons_of_mem e inside)

omit [DecidableEq α] [DecidableEq ι] in
theorem foldl_better {b : α} (first : better a b = true) (before : ∀ e ∈ front, better a e = true)
    (after : ∀ e ∈ back, better e a = false) :
    (front ++ a :: back).foldl (fun best e => if better e best then e else best) b = a := by
  induction front generalizing b with
  | nil => rw [List.nil_append, List.foldl_cons, first, if_pos rfl, foldl_best after]
  | cons e rest ih =>
    have next : better a (if better e b = true then e else b) = true := by
      split
      · exact before e List.mem_cons_self
      · exact first
    exact ih next fun x inside => before x (List.mem_cons_of_mem e inside)

omit [DecidableEq ι] in
theorem bestOf (shelf : Shelf h lists pool m) (here : m i = front ++ a :: back)
    (before : ∀ e ∈ front, better a e = true) (after : ∀ e ∈ back, better e a = false)
    (enough : (m i).length < fuel) : FileSystem.bestOf better fuel h (lists i) = some a := by
  obtain ⟨b, rest, first⟩ : ∃ b rest, front ++ a :: back = b :: rest := List.exists_cons_of_ne_nil (by simp)
  have whole : m i = [] ++ b :: rest := here.trans first
  have short : rest.length < fuel := by
    rw [whole] at enough
    exact Nat.lt_of_succ_lt enough
  have found := shelf.bestFrom better (whole.trans (List.append_cons [] b rest)) short b
  have best : rest.foldl (fun best e => if better e best then e else best) b = a := by
    cases front with
    | nil =>
      obtain ⟨rfl, rfl⟩ := List.cons.inj first
      exact foldl_best after
    | cons c others =>
      obtain ⟨rfl, rfl⟩ := List.cons.inj first
      exact foldl_better (before c List.mem_cons_self) (fun x inside => before x (List.mem_cons_of_mem c inside)) after
  rw [best] at found
  have next := shelf.next whole
  have away := shelf.ne_end whole
  rw [List.nil_append] at whole
  rw [FileSystem.bestOf, shelf.listBegin, whole]
  simp only [LinkedList.pointer_cons, Option.bind_eq_bind, Option.bind_some, if_neg away, next, found]

end best

omit [DecidableEq ι] in
theorem listFront (shelf : Shelf h lists pool m) (here : m i = a :: back) : listFront h (lists i) = some a := by
  rw [FileSystem.listFront, listEmpty_spec (shelf.linked i), shelf.listBegin, here]
  rfl

omit [DecidableEq ι] in
theorem listBack (shelf : Shelf h lists pool m) (here : m i = front ++ [a]) : listBack h (lists i) = some a := by
  obtain ⟨next, cell⟩ := shelf.prev (List.append_nil (m i)).symm
  have last : (lists i).behind (m i) = a := by rw [here, LinkedList.behind, List.getLastD_concat]
  rw [LinkedList.pointer_nil, last] at cell
  have some' : (m i).isEmpty = false := by simp [here]
  rw [FileSystem.listBack, listEmpty_spec (shelf.linked i), some', listRbegin, cell]
  rfl

theorem popFront (shelf : Shelf h lists pool m) (here : m i = a :: back) :
    ∃ g, listPopFront h (lists i) = some (a, g) ∧ Shelf g lists pool (Function.update m i back) ∧
      ∀ a, ¬pool a → g a = h a := by
  have whole : m i = [] ++ a :: back := here
  obtain ⟨g, removed, shelf', same⟩ := shelf.remove whole
  refine ⟨g, ?_, shelf', same⟩
  rw [listPopFront, shelf.listFront here, Option.bind_eq_bind, Option.bind_some, removed]
  rfl

theorem popBack (shelf : Shelf h lists pool m) (here : m i = front ++ [a]) :
    ∃ g, listPopBack h (lists i) = some (a, g) ∧ Shelf g lists pool (Function.update m i front) ∧
      ∀ a, ¬pool a → g a = h a := by
  obtain ⟨g, removed, shelf', same⟩ := shelf.remove here
  rw [List.append_nil] at shelf'
  refine ⟨g, ?_, shelf', same⟩
  rw [listPopBack, shelf.listBack here, Option.bind_eq_bind, Option.bind_some, removed]
  rfl

theorem pushFront (shelf : Shelf h lists pool m) (i : ι) (fresh : ∀ j, e ∉ (lists j).cells (m j)) (own : pool e) :
    ∃ g, listPushFront h (lists i) e = some g ∧ Shelf g lists pool (Function.update m i (e :: m i)) ∧
      ∀ a, ¬pool a → g a = h a := by
  obtain ⟨g, inserted, shelf', same⟩ := shelf.insert (List.nil_append (m i)).symm fresh own
  refine ⟨g, ?_, shelf', same⟩
  rw [listPushFront, shelf.listBegin, Option.bind_eq_bind, Option.bind_some, inserted]

theorem pushBack (shelf : Shelf h lists pool m) (i : ι) (fresh : ∀ j, e ∉ (lists j).cells (m j)) (own : pool e) :
    ∃ g, listPushBack h (lists i) e = some g ∧ Shelf g lists pool (Function.update m i (m i ++ [e])) ∧
      ∀ a, ¬pool a → g a = h a :=
  shelf.insert (List.append_nil (m i)).symm fresh own

theorem init (shelf : Shelf h lists pool m) (i : ι) :
    ∃ g, llistInit h (lists i) = some g ∧ Shelf g lists pool (Function.update m i []) ∧ ∀ a, ¬pool a → g a = h a := by
  have nodup := shelf.nodup i
  have apart : (lists i).head ≠ (lists i).tail := fun same =>
    (List.nodup_cons.mp nodup).1 (List.mem_append_right _ (List.mem_singleton.mpr same))
  obtain ⟨first, head⟩ := Option.isSome_iff_exists.mp (shelf.held _ (shelf.pooled i _ List.mem_cons_self))
  obtain ⟨second, tail⟩ := Option.isSome_iff_exists.mp (shelf.held _ (shelf.pooled i (lists i).tail
    (List.mem_cons_of_mem _ (List.mem_append_right _ (List.mem_singleton_self _)))))
  obtain ⟨g, made, linked⟩ := llistInit_spec h (lists i) head tail apart
  have headers : (lists i).cells [] ⊆ (lists i).cells (m i) := by
    intro a member
    obtain rfl | rfl : a = _ ∨ a = _ := by simpa [LinkedList.cells] using member
    · exact List.mem_cons_self
    · exact List.mem_cons_of_mem _ (List.mem_append_right _ (List.mem_singleton_self _))
  have touches := llistInit_touches made
  refine ⟨g, made, ?_, fun a away => touches.same a fun member => away (shelf.pooled i a (headers member))⟩
  apply shelf.change touches
  · exact fun j other a member inside => shelf.apart j i other member (headers inside)
  · exact linked
  · exact fun j other a member => shelf.apart i j other.symm (headers member)
  · exact fun a member => shelf.pooled i a (headers member)

end Shelf

end ShellOs.FileSystem
