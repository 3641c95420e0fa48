import Mathlib.Data.List.Basic
import Mathlib.Tactic.Common

/-! A block of memory with checked stores: a store behind its end is `none`. -/

namespace ShellOs.Lib.Buffer

variable {α : Type}

def store (cells : List α) (i : Nat) (a : α) : Option (List α) :=
  if i < cells.length then some (cells.set i a) else none

def storeAll (cells : List α) (i : Nat) : List α → Option (List α)
  | [] => some cells
  | a :: rest => (store cells i a).bind fun cells => storeAll cells (i + 1) rest

def overlay (cells : List α) (i : Nat) (values : List α) : List α :=
  cells.take i ++ values ++ cells.drop (i + values.length)

theorem overlay_nil (cells : List α) (i : Nat) : overlay cells i [] = cells := by
  simp [overlay]

theorem overlay_whole (cells values : List α) (long : cells.length = values.length) : overlay cells 0 values = values := by
  simp [overlay, long]

theorem overlay_length {cells values : List α} {i : Nat} (room : i + values.length ≤ cells.length) :
    (overlay cells i values).length = cells.length := by
  simp only [overlay, List.length_append, List.length_take, List.length_drop]
  omega

theorem overlay_append (cells : List α) (i : Nat) (first second : List α)
    (room : i + (first ++ second).length ≤ cells.length) :
    overlay (overlay cells i first) (i + first.length) second = overlay cells i (first ++ second) := by
  rw [List.length_append] at room
  have front : (cells.take i).length = i := by
    rw [List.length_take]
    omega
  have before : (cells.take i ++ first).length = i + first.length := by rw [List.length_append, front]
  simp only [overlay, List.length_append]
  rw [List.take_append_of_le_length (by omega), ← before, List.take_length, ← List.append_assoc]
  congr 1
  rw [List.drop_append, List.drop_eq_nil_of_le (by omega), List.nil_append, List.drop_drop, before]
  congr 1
  omega

theorem overlay_getElem? {cells values : List α} {i : Nat} (room : i + values.length ≤ cells.length) (k : Nat) :
    (overlay cells i values)[k]? = if i ≤ k ∧ k < i + values.length then values[k - i]? else cells[k]? := by
  have front : (cells.take i).length = i := by
    rw [List.length_take]
    omega
  rw [overlay, List.append_assoc, List.getElem?_append, List.getElem?_append, front, List.getElem?_drop]
  by_cases before : k < i
  · rw [if_pos before, if_neg (by omega), List.getElem?_take_of_lt before]
  · by_cases within : k - i < values.length
    · rw [if_neg before, if_pos within, if_pos (by omega)]
    · rw [if_neg before, if_neg within, if_neg (by omega)]
      congr 1
      omega

theorem overlay_overlap (cells first old second : List α) (i : Nat) (longer : old.length ≤ second.length)
    (room : i + (first ++ second).length ≤ cells.length) :
    overlay (overlay cells i (first ++ old)) (i + first.length) second = overlay cells i (first ++ second) := by
  rw [List.length_append] at room
  have whole : i + (first ++ old).length ≤ cells.length := by
    rw [List.length_append]
    omega
  apply List.ext_getElem?
  intro k
  rw [overlay_getElem? (by rw [overlay_length whole]; omega), overlay_getElem? whole,
    overlay_getElem? (by rw [List.length_append]; omega), List.length_append, List.length_append]
  by_cases later : i + first.length ≤ k ∧ k < i + first.length + second.length
  · rw [if_pos later, if_pos (by omega), List.getElem?_append_right (by omega)]
    congr 1
    omega
  · rw [if_neg later]
    by_cases early : i ≤ k ∧ k < i + first.length
    · rw [if_pos (by omega), if_pos (by omega), List.getElem?_append_left (by omega),
        List.getElem?_append_left (by omega)]
    · rw [if_neg (by omega), if_neg (by omega)]

theorem store_overlay {cells : List α} {i : Nat} (a : α) (room : i < cells.length) :
    store cells i a = some (overlay cells i [a]) := by
  rw [store, if_pos room, overlay, List.set_eq_take_append_cons_drop, if_pos room]
  simp

theorem storeAll_overlay (values : List α) {cells : List α} {i : Nat} (room : i + values.length ≤ cells.length) :
    storeAll cells i values = some (overlay cells i values) := by
  induction values generalizing cells i with
  | nil => rw [storeAll, overlay_nil]
  | cons a rest ih =>
    rw [List.length_cons] at room
    have one : (overlay cells i [a]).length = cells.length := overlay_length (by simp; omega)
    rw [storeAll, store_overlay a (by omega), Option.bind_some, ih (by omega)]
    have both := overlay_append cells i [a] rest (by simp; omega)
    rw [List.singleton_append] at both
    rw [← both]
    rfl

end ShellOs.Lib.Buffer
