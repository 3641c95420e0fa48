import ShellOs.Lib.DoublyLinked

/-! The doubly linked lists of the file system (list.c). The assertions ask that no null pointer is followed; where one
is, or what it points to is not allocated, the result is `none`. -/

namespace ShellOs.FileSystem
open Lib DoublyLinked

/-- `struct list`, by the addresses of its two headers. -/
structure LinkedList (α : Type) where
  head : α
  tail : α

section calls

variable {α : Type} [DecidableEq α]

def setPrev (h : Heap α) (a : α) (prev : Option α) : Option (Heap α) :=
  (h a).map fun cell => Function.update h a (some { cell with prev := prev })

def setNext (h : Heap α) (a : α) (next : Option α) : Option (Heap α) :=
  (h a).map fun cell => Function.update h a (some { cell with next := next })

def llistInit (h : Heap α) (list : LinkedList α) : Option (Heap α) := do
  let h ← setPrev h list.head none
  let h ← setNext h list.head (some list.tail)
  let h ← setPrev h list.tail (some list.head)
  setNext h list.tail none

def listBegin (h : Heap α) (list : LinkedList α) : Option α := (h list.head).bind Cell.next

def listNext (h : Heap α) (elem : α) : Option α := (h elem).bind Cell.next

def listEnd (list : LinkedList α) : α := list.tail

def listEmpty (h : Heap α) (list : LinkedList α) : Option Bool :=
  (listBegin h list).map fun first => first == listEnd list

def listInsert (h : Heap α) (before elem : α) : Option (Heap α) := do
  let h ← setPrev h elem (← h before).prev
  let h ← setNext h elem (some before)
  let h ← setNext h (← (← h before).prev) (some elem)
  setPrev h before (some elem)

def listPushBack (h : Heap α) (list : LinkedList α) (elem : α) : Option (Heap α) := listInsert h (listEnd list) elem

/-- `list_remove`, which returns the element behind the one that it removes. -/
def listRemove (h : Heap α) (elem : α) : Option (Option α × Heap α) := do
  let h ← setNext h (← (← h elem).prev) (← h elem).next
  let h ← setPrev h (← (← h elem).next) (← h elem).prev
  some ((← h elem).next, h)

def listFront (h : Heap α) (list : LinkedList α) : Option α := do
  if ← listEmpty h list then none else listBegin h list

def listPopFront (h : Heap α) (list : LinkedList α) : Option (α × Heap α) := do
  let front ← listFront h list
  let r ← listRemove h front
  some (front, r.2)

end calls

/-- The elements of a list, from its front to its back, lie between the two headers. -/
structure Linked {α : Type} (h : Heap α) (list : LinkedList α) (elems : List α) : Prop where
  row : Row h none (list.head :: (elems ++ [list.tail])) none
  nodup : (list.head :: (elems ++ [list.tail])).Nodup

section spec

variable {α : Type} [DecidableEq α] {h : Heap α} {list : LinkedList α} {a b e : α} {front back elems : List α}

theorem setNext_of {cell : Cell α} (held : h a = some cell) (next : Option α) :
    setNext h a next = some (Function.update h a (some { cell with next := next })) := by
  rw [setNext, held]
  rfl

theorem setPrev_of {cell : Cell α} (held : h a = some cell) (prev : Option α) :
    setPrev h a prev = some (Function.update h a (some { cell with prev := prev })) := by
  rw [setPrev, held]
  rfl

theorem setNext_same {prev next : Option α} (held : h a = some ⟨prev, next⟩) : setNext h a next = some h := by
  rw [setNext_of held, ← held, Function.update_eq_self]

theorem setPrev_same {prev next : Option α} (held : h a = some ⟨prev, next⟩) : setPrev h a prev = some h := by
  rw [setPrev_of held, ← held, Function.update_eq_self]

omit [DecidableEq α] in
theorem between_neighbours (list : LinkedList α) (front back : List α) (e : α) : ∃ before a b behind,
    list.head :: (front ++ e :: back ++ [list.tail]) = before ++ a :: e :: b :: behind ∧
      list.head :: (front ++ back ++ [list.tail]) = before ++ a :: b :: behind := by
  have first : ∃ before a, list.head :: front = before ++ [a] :=
    ⟨_, _, (List.dropLast_append_getLast (List.cons_ne_nil list.head front)).symm⟩
  have second : ∃ b behind, back ++ [list.tail] = b :: behind :=
    ⟨_, _, (List.cons_head_tail (List.append_ne_nil_of_right_ne_nil back (List.cons_ne_nil _ _))).symm⟩
  obtain ⟨before, a, first⟩ := first
  obtain ⟨b, behind, second⟩ := second
  refine ⟨before, a, b, behind, ?_, ?_⟩
  · calc
      list.head :: (front ++ e :: back ++ [list.tail]) = list.head :: front ++ e :: (back ++ [list.tail]) := by simp
      _ = before ++ a :: e :: b :: behind := by rw [first, second, List.append_assoc, List.singleton_append]
  · calc
      list.head :: (front ++ back ++ [list.tail]) = list.head :: front ++ (back ++ [list.tail]) := by simp
      _ = before ++ a :: b :: behind := by rw [first, second, List.append_assoc, List.singleton_append]

theorem listRemove_stale {x y : Option α} (elem : h e = some ⟨some a, some b⟩) (prev : h a = some ⟨x, some b⟩)
    (next : h b = some ⟨some a, y⟩) : listRemove h e = some (some b, h) := by
  simp only [listRemove, elem, setNext_same prev, setPrev_same next, Option.bind_eq_bind, Option.bind_some]

theorem listRemove_eq {first second : Cell α} (elem : h e = some ⟨some a, some b⟩) (prev : h a = some first)
    (next : h b = some second) (ae : a ≠ e) (ab : a ≠ b) (eb : e ≠ b) : listRemove h e = some (some b,
      Function.update (Function.update h a (some { first with next := some b })) b (some { second with prev := some a })) := by
  have stored := setNext_of prev (some b)
  have elem' := (Function.update_of_ne ae.symm (some { first with next := some b }) h).trans elem
  have next' := (Function.update_of_ne ab.symm (some { first with next := some b }) h).trans next
  have stored' := setPrev_of next' (some a)
  have elem'' := (Function.update_of_ne eb (some { second with prev := some a })
    (Function.update h a (some { first with next := some b }))).trans elem'
  simp only [listRemove, Option.bind_eq_bind, elem, stored, elem', stored', elem'', Option.bind_some]

theorem listRemove_spec (linked : Linked h list (front ++ e :: back)) :
    ∃ next g, listRemove h e = some (next, g) ∧ Linked g list (front ++ back) ∧ listRemove g e = some (next, g) := by
  obtain ⟨before, a, b, behind, whole, rest⟩ := between_neighbours list front back e
  have row := whole ▸ linked.row
  have nodup := whole ▸ linked.nodup
  obtain ⟨-, ⟨ae, ab, eb⟩, -⟩ := nodup_apart nodup
  obtain ⟨-, prev, elem, row'⟩ := row_pair.mp row
  have next : h b = some ⟨some e, behind.head?⟩ := by rw [row'.1, Option.or_none]
  replace elem : h e = some ⟨some a, some b⟩ := elem
  rw [Option.or_none] at prev
  have removed := listRemove_eq elem prev next ae ab eb
  refine ⟨some b, _, removed, ⟨?_, ?_⟩, ?_⟩
  · have unlinked := row_unlink nodup row
    rw [Option.or_none, Option.or_none] at unlinked
    exact rest ▸ unlinked
  · have fewer : (list.head :: (front ++ back ++ [list.tail])).Sublist (list.head :: (front ++ e :: back ++ [list.tail])) := by
      rw [List.append_assoc, List.append_assoc, List.cons_append]
      exact ((List.sublist_cons_self e _).append_left front).cons_cons list.head
    exact linked.nodup.sublist fewer
  · apply listRemove_stale (a := a) (x := before.getLast?) (y := behind.head?)
    · rw [Function.update_of_ne eb, Function.update_of_ne ae.symm, elem]
    · rw [Function.update_of_ne ab, Function.update_self]
    · rw [Function.update_self]

omit [DecidableEq α] in
theorem listBegin_spec (linked : Linked h list elems) : listBegin h list = (elems ++ [list.tail]).head? := by
  have first := linked.row.1
  rw [Option.or_none] at first
  rw [listBegin, first, Option.bind_some]

omit [DecidableEq α] in
theorem listNext_spec (linked : Linked h list (front ++ e :: back)) : listNext h e = (back ++ [list.tail]).head? := by
  have row := linked.row.2
  rw [List.append_assoc, List.cons_append] at row
  have here := (row_split.mp row).2.1
  rw [Option.or_none] at here
  rw [listNext, here, Option.bind_some]

theorem listEmpty_spec (linked : Linked h list elems) : listEmpty h list = some elems.isEmpty := by
  rw [listEmpty, listBegin_spec linked]
  cases elems with
  | nil => simp [listEnd]
  | cons e rest =>
    have other : e ≠ list.tail := by
      rintro rfl
      have nodup := linked.nodup
      simp at nodup
    simp [listEnd, other]

/-- `list_pop_front` unlinks the first element; its own pointers stay behind, so that it can be removed once more. -/
theorem listPopFront_spec (linked : Linked h list (e :: back)) :
    ∃ next g, listPopFront h list = some (e, g) ∧ Linked g list back ∧ listRemove g e = some (next, g) := by
  have whole : Linked h list ([] ++ e :: back) := linked
  obtain ⟨next, g, removed, rest, again⟩ := listRemove_spec whole
  refine ⟨next, g, ?_, rest, again⟩
  have front : listFront h list = some e := by
    simp only [listFront, listEmpty_spec linked, listBegin_spec linked, Option.bind_eq_bind, Option.bind_some]
    rfl
  simp only [listPopFront, front, removed, Option.bind_eq_bind, Option.bind_some]

theorem listInsert_eq {cell first second : Cell α} (allocated : h e = some cell) (prev : h a = some first)
    (next : h b = some second) (linked : second.prev = some a) (ae : a ≠ e) (ab : a ≠ b) (eb : e ≠ b) :
    listInsert h b e = some (Function.update (Function.update (Function.update h e (some ⟨some a, some b⟩)) a
      (some { first with next := some e })) b (some { second with prev := some e })) := by
  obtain ⟨own, same⟩ : ∃ own, own = Function.update h e (some (⟨some a, some b⟩ : Cell α)) := ⟨_, rfl⟩
  have stored := setPrev_of allocated (some a)
  have stored' : setNext (Function.update h e (some { cell with prev := some a })) e (some b) = some own := by
    rw [setNext_of (Function.update_self ..), Function.update_idem, same]
  have next' : own b = some second := by rw [same, Function.update_of_ne eb.symm, next]
  have prev' : own a = some first := by rw [same, Function.update_of_ne ae, prev]
  have stored'' := setNext_of prev' (some e)
  have next'' := (Function.update_of_ne ab.symm (some { first with next := some e }) own).trans next'
  rw [← same]
  simp only [listInsert, Option.bind_eq_bind, next, linked, stored, Option.bind_some, stored', next', stored'',
    setPrev_of next'']

theorem listPushBack_spec {cell : Cell α} (linked : Linked h list elems) (allocated : h e = some cell)
    (outside : e ∉ list.head :: (elems ++ [list.tail])) :
    ∃ g, listPushBack h list e = some g ∧ Linked g list (elems ++ [e]) := by
  have last : ∃ before a, list.head :: elems = before ++ [a] :=
    ⟨_, _, (List.dropLast_append_getLast (List.cons_ne_nil list.head elems)).symm⟩
  obtain ⟨before, a, last⟩ := last
  have whole : list.head :: (elems ++ [list.tail]) = before ++ a :: [list.tail] := by
    rw [← List.cons_append, last, List.append_assoc, List.singleton_append]
  have longer : list.head :: (elems ++ [e] ++ [list.tail]) = before ++ a :: e :: [list.tail] := by
    rw [List.append_assoc, ← List.cons_append, last]
    simp
  have row := whole ▸ linked.row
  have nodup : (before ++ a :: e :: [list.tail]).Nodup := by
    have fresh := List.nodup_cons.mpr ⟨outside, linked.nodup⟩
    rw [whole, List.append_cons] at fresh
    rw [List.append_cons]
    exact List.nodup_middle.mpr fresh
  obtain ⟨-, ⟨ae, ab, eb⟩, -⟩ := nodup_apart nodup
  obtain ⟨-, prev, next, -⟩ := row_pair.mp row
  refine ⟨_, listInsert_eq allocated prev next rfl ae ab eb, ?_, longer ▸ nodup⟩
  exact longer ▸ row_link nodup row

theorem llistInit_spec (h : Heap α) (list : LinkedList α) {first second : Cell α} (head : h list.head = some first)
    (tail : h list.tail = some second) (apart : list.head ≠ list.tail) : ∃ g, llistInit h list = some g ∧ Linked g list [] := by
  obtain ⟨own, same⟩ : ∃ own, own = Function.update h list.head (some (⟨none, some list.tail⟩ : Cell α)) := ⟨_, rfl⟩
  obtain ⟨g, same'⟩ : ∃ g, g = Function.update own list.tail (some (⟨some list.head, none⟩ : Cell α)) := ⟨_, rfl⟩
  have tail' : own list.tail = some second := by rw [same, Function.update_of_ne apart.symm, tail]
  have stored : setNext (Function.update h list.head (some { first with prev := none })) list.head (some list.tail) =
      some own := by
    rw [setNext_of (Function.update_self ..), Function.update_idem, same]
  have stored' : setNext (Function.update own list.tail (some { second with prev := some list.head })) list.tail none =
      some g := by
    rw [setNext_of (Function.update_self ..), Function.update_idem, same']
  refine ⟨g, ?_, ⟨?_, ?_, trivial⟩, by simp [apart]⟩
  · simp only [llistInit, Option.bind_eq_bind, setPrev_of head, Option.bind_some, stored, setPrev_of tail', stored']
  · rw [same', Function.update_of_ne apart, same, Function.update_self]
    rfl
  · rw [same', Function.update_self]
    rfl

end spec

end ShellOs.FileSystem
