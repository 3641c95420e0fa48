import ShellOs.FileSystem.ListCalls
import Mathlib.Data.List.Infix

/-! Several lists whose elements come from one pool: what a change of links does to all of them. -/

namespace ShellOs.FileSystem
open Lib DoublyLinked

section rows

variable {α : Type} [DecidableEq α] {h g : Heap α} {p q z u v : Option α} {a b c d x y : α} {l m front seg back : List α}

structure Touches (l : List α) (h g : Heap α) : Prop where
  same : ∀ a ∉ l, g a = h a
  kept : ∀ a, (h a).isSome = true → (g a).isSome = true

omit [DecidableEq α] in
theorem Touches.refl (l : List α) (h : Heap α) : Touches l h h := ⟨fun _ _ => rfl, fun _ held => held⟩

omit [DecidableEq α] in
theorem Touches.trans {k : Heap α} (first : Touches l h g) (second : Touches l g k) : Touches l h k :=
  ⟨fun a away => (second.same a away).trans (first.same a away), fun a held => second.kept a (first.kept a held)⟩

omit [DecidableEq α] in
theorem Touches.mono (touches : Touches l h g) (less : l ⊆ m) : Touches m h g :=
  ⟨fun a away => touches.same a fun inside => away (less inside), touches.kept⟩

omit [DecidableEq α] in
theorem Touches.row (touches : Touches l h g) (apart : ∀ a ∈ m, a ∉ l) : Row g p m q ↔ Row h p m q :=
  row_congr fun a member => touches.same a (apart a member)

omit [DecidableEq α] in
theorem Touches.row_of (touches : Touches [a] h g) (away : a ∉ m) : Row g p m q ↔ Row h p m q := by
  apply touches.row
  intro b member here
  exact away (List.mem_singleton.mp here ▸ member)

omit [DecidableEq α] in
theorem Touches.cell (touches : Touches [a] h g) (apart : b ≠ a) : g b = h b := touches.same b (by simpa using apart)

theorem touches_update (cell : Cell α) : Touches [a] h (Function.update h a (some cell)) := by
  refine ⟨fun b away => Function.update_of_ne (by simpa using away) _ _, fun b held => ?_⟩
  by_cases here : b = a
  · rw [here, Function.update_self]
    rfl
  · rw [Function.update_of_ne here]
    exact held

omit [DecidableEq α] in
theorem row_first (row : Row h p l q) (first : l.head? = some c) : ∃ next, h c = some ⟨p, next⟩ := by
  obtain ⟨rest, rfl⟩ := List.head?_eq_some_iff.mp first
  exact ⟨_, row.1⟩

omit [DecidableEq α] in
theorem row_last (row : Row h p l q) (last : l.getLast? = some d) : ∃ prev, h d = some ⟨prev, q⟩ := by
  obtain ⟨rest, rfl⟩ := List.getLast?_eq_some_iff.mp last
  exact ⟨_, (row_split.mp row).2.1⟩

theorem setPrev_row (row : Row h p l q) (nodup : l.Nodup) (first : l.head? = some c) (z : Option α) :
    ∃ g, setPrev h c z = some g ∧ Row g z l q ∧ Touches [c] h g := by
  obtain ⟨rest, rfl⟩ := List.head?_eq_some_iff.mp first
  refine ⟨_, setPrev_of row.1 z, ⟨Function.update_self .., ?_⟩, touches_update _⟩
  rw [row_update (List.nodup_cons.mp nodup).1]
  exact row.2

theorem setNext_row (row : Row h p l q) (nodup : l.Nodup) (last : l.getLast? = some d) (z : Option α) :
    ∃ g, setNext h d z = some g ∧ Row g p l z ∧ Touches [d] h g := by
  obtain ⟨rest, rfl⟩ := List.getLast?_eq_some_iff.mp last
  obtain ⟨before, cell, -⟩ := row_split.mp row
  refine ⟨_, setNext_of cell z, row_split.mpr ⟨?_, Function.update_self .., trivial⟩, touches_update _⟩
  rw [row_update]
  · exact before
  · exact fun inside => (List.nodup_append.mp nodup).2.2 d inside d (List.mem_singleton_self d) rfl

/-- The first half of `list_splice`, and with one element `list_remove`. -/
def unlink (h : Heap α) (first last : α) : Option (Heap α) := do
  let h ← setNext h (← (← h first).prev) (← h last).next
  setPrev h (← (← h last).next) (← h first).prev

/-- The second half of `list_splice`, and with one element `list_insert`. -/
def link (h : Heap α) (before first last : α) : Option (Heap α) := do
  let h ← setPrev h first (← h before).prev
  let h ← setNext h last (some before)
  let h ← setNext h (← (← h before).prev) (some first)
  setPrev h before (some last)

theorem unlink_row (row : Row h p (front ++ (seg ++ back)) q) (nodup : (front ++ (seg ++ back)).Nodup)
    (left : front.getLast? = some a) (right : back.head? = some b) (first : seg.head? = some c)
    (last : seg.getLast? = some d) : ∃ g, unlink h c d = some g ∧ Row g p (front ++ back) q ∧
      Row g (some a) seg (some b) ∧ Touches [a, b] h g := by
  obtain ⟨before, inside⟩ := row_append.mp row
  obtain ⟨middle, behind⟩ := row_append.mp inside
  rw [left, right, Option.some_or, Option.some_or] at middle
  obtain ⟨once, others, cross⟩ := List.nodup_append.mp nodup
  obtain ⟨-, once', cross'⟩ := List.nodup_append.mp others
  have aFront : a ∈ front := List.mem_of_getLast? left
  have bBack : b ∈ back := List.mem_of_head? right
  have aBack : a ∉ back := fun inside => cross a aFront a (List.mem_append_right seg inside) rfl
  have bFront : b ∉ front := fun inside => cross b inside b (List.mem_append_right seg bBack) rfl
  have aSeg : a ∉ seg := fun inside => cross a aFront a (List.mem_append_left back inside) rfl
  have bSeg : b ∉ seg := fun inside => cross' b inside b bBack rfl
  have cSeg : c ∈ seg := List.mem_of_head? first
  have dSeg : d ∈ seg := List.mem_of_getLast? last
  obtain ⟨next, cell⟩ := row_first middle first
  obtain ⟨prev, cell'⟩ := row_last middle last
  obtain ⟨g₁, stored, before, touched⟩ := setNext_row before once left (some b)
  replace behind := (touched.row_of aBack).mpr behind
  replace middle := (touched.row_of aSeg).mpr middle
  have cell₁ := (touched.cell (ne_of_mem_of_not_mem cSeg aSeg)).trans cell
  have cell₁' := (touched.cell (ne_of_mem_of_not_mem dSeg aSeg)).trans cell'
  obtain ⟨g₂, stored', behind, touched'⟩ := setPrev_row behind once' right (some a)
  refine ⟨g₂, ?_, row_append.mpr ⟨?_, ?_⟩, ?_, ?_⟩
  · simp only [unlink, cell, cell', stored, cell₁, cell₁', stored', Option.bind_eq_bind, Option.bind_some]
  · rw [right, Option.some_or]
    exact (touched'.row_of bFront).mpr before
  · rw [left, Option.some_or]
    exact behind
  · exact (touched'.row_of bSeg).mpr middle
  · exact (touched.mono (by simp)).trans (touched'.mono (by simp))

theorem link_row (row : Row h p (front ++ back) q) (nodup : (front ++ (seg ++ back)).Nodup) (piece : Row h u seg v)
    (left : front.getLast? = some a) (right : back.head? = some b) (first : seg.head? = some c)
    (last : seg.getLast? = some d) : ∃ g, link h b c d = some g ∧ Row g p (front ++ (seg ++ back)) q ∧
      Touches (a :: b :: seg) h g := by
  obtain ⟨before, behind⟩ := row_append.mp row
  rw [left, Option.some_or] at behind
  obtain ⟨once, others, cross⟩ := List.nodup_append.mp nodup
  obtain ⟨inner, once', cross'⟩ := List.nodup_append.mp others
  have aFront : a ∈ front := List.mem_of_getLast? left
  have bBack : b ∈ back := List.mem_of_head? right
  have cSeg : c ∈ seg := List.mem_of_head? first
  have dSeg : d ∈ seg := List.mem_of_getLast? last
  have front_seg : ∀ e ∈ seg, e ∉ front := fun e member inside => cross e inside e (List.mem_append_left back member) rfl
  have seg_back : ∀ e ∈ seg, e ∉ back := fun e member inside => cross' e member e inside rfl
  have aSeg : a ∉ seg := fun inside => front_seg a inside aFront
  have bSeg : b ∉ seg := fun inside => seg_back b inside bBack
  have aBack : a ∉ back := fun inside => cross a aFront a (List.mem_append_right seg inside) rfl
  have bFront : b ∉ front := fun inside => cross b inside b (List.mem_append_right seg bBack) rfl
  -- The piece gets its new ends.
  obtain ⟨next, cell⟩ := row_first behind right
  obtain ⟨g₁, stored₁, piece, touched₁⟩ := setPrev_row piece inner first (some a)
  replace before := (touched₁.row_of (front_seg c cSeg)).mpr before
  replace behind := (touched₁.row_of (seg_back c cSeg)).mpr behind
  obtain ⟨g₂, stored₂, piece, touched₂⟩ := setNext_row piece inner last (some b)
  replace before := (touched₂.row_of (front_seg d dSeg)).mpr before
  replace behind := (touched₂.row_of (seg_back d dSeg)).mpr behind
  obtain ⟨next₂, cell₂⟩ := row_first behind right
  -- Its neighbours are linked to it.
  obtain ⟨g₃, stored₃, before, touched₃⟩ := setNext_row before once left (some c)
  replace piece := (touched₃.row_of aSeg).mpr piece
  replace behind := (touched₃.row_of aBack).mpr behind
  obtain ⟨g₄, stored₄, behind, touched₄⟩ := setPrev_row behind once' right (some d)
  replace piece := (touched₄.row_of bSeg).mpr piece
  replace before := (touched₄.row_of bFront).mpr before
  refine ⟨g₄, ?_, row_append.mpr ⟨?_, row_append.mpr ⟨?_, ?_⟩⟩, ?_⟩
  · simp only [link, cell, stored₁, stored₂, cell₂, stored₃, stored₄, Option.bind_eq_bind, Option.bind_some]
  · rw [List.head?_append, first, Option.some_or, Option.some_or]
    exact before
  · rw [left, right, Option.some_or, Option.some_or]
    exact piece
  · rw [last, Option.some_or]
    exact behind
  · have one : ∀ e ∈ seg, [e] ⊆ a :: b :: seg := fun e member => by simp [member]
    exact (((touched₁.mono (one c cSeg)).trans (touched₂.mono (one d dSeg))).trans (touched₃.mono (by simp))).trans
      (touched₄.mono (by simp))

end rows

namespace LinkedList

variable {α : Type}

def cells (list : LinkedList α) (elems : List α) : List α := list.head :: (elems ++ [list.tail])

def pointer (list : LinkedList α) (rest : List α) : α := rest.headD list.tail

def behind (list : LinkedList α) (front : List α) : α := front.getLastD list.head

variable (list : LinkedList α) (e : α) (front seg back : List α)

@[simp] theorem pointer_nil : list.pointer [] = list.tail := rfl

@[simp] theorem pointer_cons : list.pointer (e :: back) = e := rfl

theorem head?_pointer : (back ++ [list.tail]).head? = some (list.pointer back) := by
  cases back with
  | nil => rfl
  | cons e rest => rfl

theorem getLast?_behind : (list.head :: front).getLast? = some (list.behind front) := by
  rw [List.getLast?_cons, behind, List.getLastD_eq_getLast?]

theorem cells_append : list.cells (front ++ (seg ++ back)) = (list.head :: front) ++ (seg ++ (back ++ [list.tail])) := by
  rw [cells, List.append_assoc, List.append_assoc, List.cons_append]

theorem cells_joined : list.cells (front ++ back) = (list.head :: front) ++ (back ++ [list.tail]) := by
  rw [cells, List.append_assoc, List.cons_append]

theorem pointer_mem : list.pointer back ∈ list.cells (front ++ back) := by
  rw [cells_joined]
  exact List.mem_append_right _ (List.mem_of_head? (list.head?_pointer back))

theorem behind_mem : list.behind front ∈ list.cells (front ++ back) := by
  rw [cells_joined]
  exact List.mem_append_left _ (List.mem_of_getLast? (list.getLast?_behind front))

end LinkedList

/-- Lists side by side: each holds its elements, and no element is in two of them or twice in one. Elements and headers
are cells of the pool. -/
structure Shelf {α ι : Type} (h : Heap α) (lists : ι → LinkedList α) (pool : α → Prop) (m : ι → List α) : Prop where
  row : ∀ i, Row h none ((lists i).cells (m i)) none
  nodup : ∀ i, ((lists i).cells (m i)).Nodup
  apart : ∀ i j, i ≠ j → ((lists i).cells (m i)).Disjoint ((lists j).cells (m j))
  pooled : ∀ i, ∀ a ∈ (lists i).cells (m i), pool a
  held : ∀ a, pool a → (h a).isSome = true

namespace Shelf

variable {α ι : Type} {h g : Heap α} {lists : ι → LinkedList α} {pool : α → Prop} {m : ι → List α} {i : ι}
  {a c d e : α} {l elems front seg back : List α}

theorem linked (shelf : Shelf h lists pool m) (i : ι) : Linked h (lists i) (m i) := ⟨shelf.row i, shelf.nodup i⟩

variable [DecidableEq ι]

theorem change (shelf : Shelf h lists pool m) (touches : Touches l h g)
    (own : ∀ j, j ≠ i → ∀ a ∈ (lists j).cells (m j), a ∉ l) (linked : Linked g (lists i) elems)
    (apart : ∀ j, j ≠ i → ((lists i).cells elems).Disjoint ((lists j).cells (m j)))
    (pooled : ∀ a ∈ (lists i).cells elems, pool a) : Shelf g lists pool (Function.update m i elems) where
  row j := by
    by_cases same : j = i
    · rw [same, Function.update_self]
      exact linked.row
    · rw [Function.update_of_ne same, touches.row (own j same)]
      exact shelf.row j
  nodup j := by
    by_cases same : j = i
    · rw [same, Function.update_self]
      exact linked.nodup
    · rw [Function.update_of_ne same]
      exact shelf.nodup j
  apart j k other := by
    by_cases same : j = i
    · rw [same, Function.update_self, Function.update_of_ne (same ▸ other).symm]
      exact apart k (same ▸ other).symm
    · rw [Function.update_of_ne same]
      by_cases same' : k = i
      · rw [same', Function.update_self]
        exact List.disjoint_comm.mp (apart j same)
      · rw [Function.update_of_ne same']
        exact shelf.apart j k other
  pooled j := by
    by_cases same : j = i
    · rw [same, Function.update_self]
      exact pooled
    · rw [Function.update_of_ne same]
      exact shelf.pooled j
  held a member := touches.kept a (shelf.held a member)

variable [DecidableEq α]

theorem unlink (shelf : Shelf h lists pool m) (here : m i = front ++ (seg ++ back)) (first : seg.head? = some c)
    (last : seg.getLast? = some d) : ∃ g, FileSystem.unlink h c d = some g ∧
      Shelf g lists pool (Function.update m i (front ++ back)) ∧
      Row g (some ((lists i).behind front)) seg (some ((lists i).pointer back)) ∧ ∀ a, ¬pool a → g a = h a := by
  have row := shelf.row i
  have nodup := shelf.nodup i
  have inside := shelf.pooled i
  rw [here] at row nodup inside
  have fewer : ((lists i).cells (front ++ back)).Sublist ((lists i).cells (front ++ (seg ++ back))) :=
    (((List.sublist_append_right seg back).append_left front).append_right _).cons_cons _
  have left := (lists i).behind_mem front back
  have right := (lists i).pointer_mem front back
  rw [LinkedList.cells_append] at row nodup
  obtain ⟨g, cut, rest, piece, touches⟩ := unlink_row row nodup ((lists i).getLast?_behind front)
    ((lists i).head?_pointer back) first last
  rw [← LinkedList.cells_append] at nodup
  rw [← LinkedList.cells_joined] at rest
  have ends : [(lists i).behind front, (lists i).pointer back] ⊆ (lists i).cells (m i) := by
    rw [here]
    intro a member
    obtain rfl | rfl : a = _ ∨ a = _ := by simpa using member
    · exact fewer.subset left
    · exact fewer.subset right
  refine ⟨g, cut, ?_, piece, fun a away => touches.same a fun member => away (shelf.pooled i a (ends member))⟩
  apply shelf.change touches
  · exact fun j other a member touched => shelf.apart j i other member (ends touched)
  · exact ⟨rest, nodup.sublist fewer⟩
  · intro j other a member
    exact shelf.apart i j other.symm (here ▸ fewer.subset member)
  · exact fun a member => inside a (fewer.subset member)

theorem link (shelf : Shelf h lists pool m) (here : m i = front ++ back) {u v : Option α} (piece : Row h u seg v)
    (once : seg.Nodup) (free : ∀ j, seg.Disjoint ((lists j).cells (m j))) (pooled : ∀ a ∈ seg, pool a)
    (first : seg.head? = some c) (last : seg.getLast? = some d) :
    ∃ g, FileSystem.link h ((lists i).pointer back) c d = some g ∧
      Shelf g lists pool (Function.update m i (front ++ (seg ++ back))) ∧ ∀ a, ¬pool a → g a = h a := by
  have row := shelf.row i
  have own := free i
  rw [here] at row own
  have sorted : ((lists i).cells (front ++ (seg ++ back))).Perm (seg ++ (lists i).cells (front ++ back)) := by
    rw [LinkedList.cells_append, LinkedList.cells_joined]
    exact List.perm_append_comm_assoc _ _ _
  have nodup : ((lists i).cells (front ++ (seg ++ back))).Nodup := by
    refine sorted.nodup_iff.mpr (List.nodup_append.mpr ⟨once, here ▸ shelf.nodup i, ?_⟩)
    rintro a inner b member rfl
    exact own inner member
  have left := (lists i).behind_mem front back
  have right := (lists i).pointer_mem front back
  rw [LinkedList.cells_append] at nodup
  rw [LinkedList.cells_joined] at row
  obtain ⟨g, put, whole, touches⟩ := link_row row nodup piece ((lists i).getLast?_behind front)
    ((lists i).head?_pointer back) first last
  rw [← LinkedList.cells_append] at nodup whole
  have ends : ∀ a ∈ (lists i).behind front :: (lists i).pointer back :: seg, a ∈ seg ∨ a ∈ (lists i).cells (m i) := by
    rw [here]
    intro a member
    obtain rfl | rfl | inner : a = _ ∨ a = _ ∨ a ∈ seg := by simpa using member
    · exact .inr left
    · exact .inr right
    · exact .inl inner
  refine ⟨g, put, ?_, fun a away => touches.same a fun member => away ((ends a member).elim (pooled a) (shelf.pooled i a))⟩
  apply shelf.change touches
  · intro j other a member touched
    obtain inner | inside := ends a touched
    · exact free j inner member
    · exact shelf.apart j i other member inside
  · exact ⟨whole, nodup⟩
  · intro j other a member
    obtain inner | inside := List.mem_append.mp (sorted.mem_iff.mp member)
    · exact free j inner
    · exact shelf.apart i j other.symm (here ▸ inside)
  · intro a member
    obtain inner | inside := List.mem_append.mp (sorted.mem_iff.mp member)
    · exact pooled a inner
    · exact shelf.pooled i a (here ▸ inside)

end Shelf

section pieces

variable {α : Type} [DecidableEq α] {h : Heap α} {before first last d e prev a b : α} {next : Option α} {l : List α}

omit [DecidableEq α] in
theorem isInterior_row (row : Row h (some a) l (some b)) (member : e ∈ l) : isInterior h e = true := by
  obtain ⟨s, t, rfl⟩ := List.append_of_mem member
  have cell := (row_split.mp row).2.1
  obtain ⟨x, left⟩ : ∃ x, s.getLast?.or (some a) = some x := by cases s.getLast? <;> exact ⟨_, rfl⟩
  obtain ⟨y, right⟩ : ∃ y, t.head?.or (some b) = some y := by cases t.head? <;> exact ⟨_, rfl⟩
  rw [isInterior, cell, left, right]

theorem listSplice_eq (cell : h before = some ⟨some prev, next⟩) (apart : first ≠ last) (end' : listPrev h last = some d)
    (left : isInterior h first = true) (right : isInterior h d = true) :
    listSplice h before first last = (unlink h first d).bind fun g => link g before first d := by
  simp only [listSplice, cell, end', left, right, unlink, link, Option.bind_eq_bind, Option.bind_some, Option.bind_assoc,
    if_neg apart, Bool.and_self, if_true]

theorem listRemove_unlink : listRemove h e = (unlink h e e).bind fun g => (g e).map fun cell => (cell.next, g) := by
  simp only [listRemove, unlink, Option.bind_eq_bind, Option.bind_assoc, Option.map_eq_bind]
  rfl

end pieces

namespace Shelf

variable {α ι : Type} {h g : Heap α} {lists : ι → LinkedList α} {pool : α → Prop} {m : ι → List α} {i j : ι}
  {a c d e : α} {l elems front mid seg back front' back' : List α}

theorem listBegin (shelf : Shelf h lists pool m) (i : ι) :
    FileSystem.listBegin h (lists i) = some ((lists i).pointer (m i)) := by
  rw [listBegin_spec (shelf.linked i), LinkedList.head?_pointer]

theorem next (shelf : Shelf h lists pool m) (here : m i = front ++ e :: back) :
    listNext h e = some ((lists i).pointer back) := by
  rw [listNext_spec (here ▸ shelf.linked i), LinkedList.head?_pointer]

theorem prev (shelf : Shelf h lists pool m) (here : m i = front ++ back) :
    ∃ next, h ((lists i).pointer back) = some ⟨some ((lists i).behind front), next⟩ := by
  have row := shelf.row i
  rw [here, LinkedList.cells_joined] at row
  have behind := (row_append.mp row).2
  rw [LinkedList.getLast?_behind, Option.some_or] at behind
  exact row_first behind ((lists i).head?_pointer back)

theorem listPrev (shelf : Shelf h lists pool m) (here : m i = front ++ e :: back) :
    listPrev h ((lists i).pointer back) = some e := by
  obtain ⟨next, cell⟩ := shelf.prev (here.trans (List.append_cons front e back))
  rw [FileSystem.listPrev, cell, Option.bind_some, LinkedList.behind, List.getLastD_concat]

theorem ne (shelf : Shelf h lists pool m) (here : m i = front ++ e :: (mid ++ back)) : e ≠ (lists i).pointer back := by
  have nodup := shelf.nodup i
  rw [here, LinkedList.cells_joined] at nodup
  have inner := (List.nodup_append.mp nodup).2.1
  rw [List.cons_append, List.append_assoc] at inner
  rintro rfl
  exact (List.nodup_cons.mp inner).1 (List.mem_append_right mid (List.mem_of_head? ((lists i).head?_pointer back)))

theorem free [DecidableEq ι] (shelf : Shelf h lists pool m) (here : m i = front ++ (seg ++ back)) (j : ι) :
    seg.Disjoint ((lists j).cells (Function.update m i (front ++ back) j)) := by
  have nodup := shelf.nodup i
  rw [here, LinkedList.cells_append] at nodup
  intro a inner member
  by_cases same : j = i
  · rw [same, Function.update_self, LinkedList.cells_joined] at member
    obtain ⟨-, others, cross⟩ := List.nodup_append.mp nodup
    obtain left | right := List.mem_append.mp member
    · exact cross a left a (List.mem_append_left _ inner) rfl
    · exact (List.nodup_append.mp others).2.2 a inner a right rfl
  · rw [Function.update_of_ne same] at member
    have inside : a ∈ (lists i).cells (m i) := by
      rw [here, LinkedList.cells_append]
      exact List.mem_append_right _ (List.mem_append_left _ inner)
    exact shelf.apart j i same member inside

theorem inner (shelf : Shelf h lists pool m) (here : m i = front ++ (seg ++ back)) :
    Row h (some ((lists i).behind front)) seg (some ((lists i).pointer back)) := by
  have row := shelf.row i
  rw [here, LinkedList.cells_append] at row
  have middle := (row_append.mp (row_append.mp row).2).1
  rw [LinkedList.getLast?_behind, LinkedList.head?_pointer, Option.some_or, Option.some_or] at middle
  exact middle

theorem prev_of_mem (shelf : Shelf h lists pool m) (inside : ∀ b ∈ back.head?, b ∈ m i) :
    ∃ prev next, h ((lists i).pointer back) = some ⟨some prev, next⟩ := by
  cases back with
  | nil =>
    obtain ⟨next, cell⟩ := shelf.prev (List.append_nil (m i)).symm
    exact ⟨_, next, cell⟩
  | cons e rest =>
    obtain ⟨s, t, here⟩ := List.append_of_mem (inside e rfl)
    obtain ⟨next, cell⟩ := shelf.prev here
    exact ⟨_, next, cell⟩

variable [DecidableEq ι] [DecidableEq α]

theorem splice (shelf : Shelf h lists pool m) (here : m i = front ++ (seg ++ back))
    (there : Function.update m i (front ++ back) j = front' ++ back') :
    ∃ g, listSplice h ((lists j).pointer back') ((lists i).pointer (seg ++ back)) ((lists i).pointer back) = some g ∧
      Shelf g lists pool (Function.update (Function.update m i (front ++ back)) j (front' ++ (seg ++ back'))) ∧
      ∀ a, ¬pool a → g a = h a := by
  have inside : ∀ b ∈ back'.head?, b ∈ m j := by
    intro b first
    have member : b ∈ front' ++ back' := List.mem_append_right front' (List.mem_of_head? first)
    rw [← there] at member
    by_cases same : j = i
    · rw [same, Function.update_self] at member
      rw [same, here]
      exact ((List.sublist_append_right seg back).append_left front).subset member
    · rwa [Function.update_of_ne same] at member
  obtain ⟨before, next, cell⟩ := shelf.prev_of_mem inside
  obtain rfl | ⟨body, d, rfl⟩ := List.eq_nil_or_concat' seg
  · refine ⟨h, ?_, ?_, fun _ _ => rfl⟩
    · simp only [listSplice, cell, Option.bind_eq_bind, Option.bind_some, List.nil_append, if_true]
    · rw [List.nil_append] at here
      rw [List.nil_append, ← there, Function.update_eq_self, ← here, Function.update_eq_self]
      exact shelf
  · obtain ⟨c, first⟩ : ∃ c, (body ++ [d]).head? = some c := ⟨_, List.head?_eq_some_head (by simp)⟩
    have last : (body ++ [d]).getLast? = some d := List.getLast?_concat
    obtain ⟨rest, whole⟩ := List.head?_eq_some_iff.mp first
    have start : (lists i).pointer (body ++ [d] ++ back) = c := by rw [whole]; rfl
    have head : m i = front ++ c :: (rest ++ back) := by rw [here, whole, List.cons_append]
    have tail : m i = (front ++ body) ++ d :: back := by
      rw [here, List.append_assoc, List.append_assoc, List.singleton_append]
    have apart := shelf.ne head
    have stop := shelf.listPrev tail
    have row := shelf.inner here
    rw [start, listSplice_eq cell apart stop (isInterior_row row (List.mem_of_head? first))
      (isInterior_row row (List.mem_of_getLast? last))]
    obtain ⟨g₁, cut, shelf₁, piece, same₁⟩ := shelf.unlink here first last
    have once : (body ++ [d]).Nodup := by
      have nodup := shelf.nodup i
      rw [here, LinkedList.cells_append] at nodup
      exact (List.nodup_append.mp (List.nodup_append.mp nodup).2.1).1
    have pooled : ∀ a ∈ body ++ [d], pool a := by
      intro a inner
      apply shelf.pooled i
      rw [here, LinkedList.cells_append]
      exact List.mem_append_right _ (List.mem_append_left _ inner)
    obtain ⟨g₂, put, shelf₂, same₂⟩ := shelf₁.link there piece once (shelf.free here) pooled first last
    exact ⟨g₂, by rw [cut, Option.bind_some, put], shelf₂, fun a away => (same₂ a away).trans (same₁ a away)⟩

/-- `list_insert` puts an element of the pool that is in no list before another one, or at the end. -/
theorem insert (shelf : Shelf h lists pool m) (here : m i = front ++ back) (fresh : ∀ j, e ∉ (lists j).cells (m j))
    (own : pool e) : ∃ g, listInsert h ((lists i).pointer back) e = some g ∧
      Shelf g lists pool (Function.update m i (front ++ e :: back)) ∧ ∀ a, ¬pool a → g a = h a := by
  obtain ⟨cell, held⟩ := Option.isSome_iff_exists.mp (shelf.held e own)
  have piece : Row h cell.prev [e] cell.next := ⟨held, trivial⟩
  exact shelf.link here piece (List.nodup_singleton e)
    (fun j => List.singleton_disjoint.mpr (fresh j)) (by simpa using own) rfl rfl

theorem remove (shelf : Shelf h lists pool m) (here : m i = front ++ e :: back) :
    ∃ g, listRemove h e = some (some ((lists i).pointer back), g) ∧
      Shelf g lists pool (Function.update m i (front ++ back)) ∧ ∀ a, ¬pool a → g a = h a := by
  have here' : m i = front ++ ([e] ++ back) := here
  obtain ⟨g, cut, rest, piece, same⟩ := shelf.unlink (c := e) (d := e) here' rfl rfl
  refine ⟨g, ?_, rest, same⟩
  rw [listRemove_unlink, cut, Option.bind_some, piece.1]
  rfl

end Shelf

end ShellOs.FileSystem
