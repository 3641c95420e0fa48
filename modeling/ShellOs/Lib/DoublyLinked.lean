import Mathlib.Data.List.Nodup
import Mathlib.Logic.Function.Basic

/-! Doubly linked lists in a heap: which cells lie in a row, and what a new link changes there. -/

namespace ShellOs.Lib.DoublyLinked

/-- The pointers of a cell; `none` is the null pointer. -/
structure Cell (α : Type) where
  prev : Option α
  next : Option α

abbrev Heap (α : Type) := α → Option (Cell α)

variable {α : Type}

/-- From `p` to `q` the cells of the list are linked in both directions. -/
def Row (h : Heap α) : Option α → List α → Option α → Prop
  | _, [], _ => True
  | p, a :: rest, q => h a = some ⟨p, rest.head?.or q⟩ ∧ Row h (some a) rest q

variable {h : Heap α} {p q : Option α} {a : α} {l m : List α}

theorem row_append : Row h p (l ++ m) q ↔ Row h p l (m.head?.or q) ∧ Row h (l.getLast?.or p) m q := by
  induction l generalizing p with
  | nil => simp [Row]
  | cons a rest ih =>
    rw [List.cons_append, Row, Row, ih, and_assoc]
    have next : (rest ++ m).head?.or q = rest.head?.or (m.head?.or q) := by
      rw [List.head?_append, Option.or_assoc]
    have last : (a :: rest).getLast?.or p = rest.getLast?.or (some a) := by
      cases rest with
      | nil => rfl
      | cons b others => rw [List.getLast?_cons_cons, List.getLast?_cons, Option.some_or, Option.some_or]
    rw [next, last]

theorem row_split : Row h p (l ++ a :: m) q ↔
    Row h p l (some a) ∧ h a = some ⟨l.getLast?.or p, m.head?.or q⟩ ∧ Row h (some a) m q := by
  rw [row_append]
  rfl

theorem row_congr {g : Heap α} (same : ∀ a ∈ l, g a = h a) : Row g p l q ↔ Row h p l q := by
  induction l generalizing p with
  | nil => rfl
  | cons a rest ih =>
    rw [Row, Row, same a List.mem_cons_self, ih fun b member => same b (List.mem_cons_of_mem a member)]

variable {front back : List α} {b e : α}

theorem row_pair : Row h p (front ++ a :: b :: back) q ↔ Row h p front (some a) ∧
    h a = some ⟨front.getLast?.or p, some b⟩ ∧ h b = some ⟨some a, back.head?.or q⟩ ∧ Row h (some b) back q := by
  rw [row_split, Row]
  rfl

theorem nodup_apart (nodup : (front ++ a :: e :: b :: back).Nodup) : (a ∉ front ∧ e ∉ front ∧ b ∉ front) ∧
    (a ≠ e ∧ a ≠ b ∧ e ≠ b) ∧ a ∉ back ∧ e ∉ back ∧ b ∉ back := by
  obtain ⟨-, behind, cross⟩ := List.nodup_append.mp nodup
  simp only [List.nodup_cons, List.mem_cons, not_or] at behind
  obtain ⟨⟨ae, ab, aBack⟩, ⟨eb, eBack⟩, bBack, -⟩ := behind
  have before : ∀ c ∈ a :: e :: b :: back, c ∉ front := fun c inside member => cross c member c inside rfl
  exact ⟨⟨before a (by simp), before e (by simp), before b (by simp)⟩, ⟨ae, ab, eb⟩, aBack, eBack, bBack⟩

section update

variable [DecidableEq α]

theorem row_update (outside : a ∉ l) (cell : Option (Cell α)) : Row (Function.update h a cell) p l q ↔ Row h p l q := by
  apply row_congr
  intro b member
  apply Function.update_of_ne
  rintro rfl
  exact outside member

theorem row_unlink (nodup : (front ++ a :: e :: b :: back).Nodup) (row : Row h p (front ++ a :: e :: b :: back) q) :
    Row (Function.update (Function.update h a (some ⟨front.getLast?.or p, some b⟩)) b (some ⟨some a, back.head?.or q⟩)) p
      (front ++ a :: b :: back) q := by
  obtain ⟨⟨aFront, -, bFront⟩, ⟨-, ab, -⟩, aBack, -, bBack⟩ := nodup_apart nodup
  obtain ⟨before, -, -, -, behind⟩ := row_pair.mp row
  refine row_pair.mpr ⟨?_, ?_, Function.update_self .., ?_⟩
  · rwa [row_update bFront, row_update aFront]
  · rw [Function.update_of_ne ab, Function.update_self]
  · rwa [row_update bBack, row_update aBack]

theorem row_link (nodup : (front ++ a :: e :: b :: back).Nodup) (row : Row h p (front ++ a :: b :: back) q) :
    Row (Function.update (Function.update (Function.update h e (some ⟨some a, some b⟩)) a
      (some ⟨front.getLast?.or p, some e⟩)) b (some ⟨some e, back.head?.or q⟩)) p (front ++ a :: e :: b :: back) q := by
  obtain ⟨⟨aFront, eFront, bFront⟩, ⟨ae, ab, eb⟩, aBack, eBack, bBack⟩ := nodup_apart nodup
  obtain ⟨before, -, -, behind⟩ := row_pair.mp row
  refine row_pair.mpr ⟨?_, ?_, ?_, Function.update_self .., ?_⟩
  · rwa [row_update bFront, row_update aFront, row_update eFront]
  · rw [Function.update_of_ne ab, Function.update_self]
  · rw [Function.update_of_ne eb, Function.update_of_ne ae.symm, Function.update_self]
    rfl
  · rwa [row_update bBack, row_update aBack, row_update eBack]

end update

end ShellOs.Lib.DoublyLinked
