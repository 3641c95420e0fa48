import Mathlib.Data.List.Basic
import Mathlib.Tactic.Common

/-! Arrays that grow when they are written past their end, as lists. -/

namespace ShellOs.Lib.GrowArray

variable {α : Type*}

def slice (a : List α) (o n : Nat) : List α := (a.drop o).take n

/-- `a` with `data` written at `o`; a hole between the old end and `o` is filled with `blank`. -/
def overwrite (blank : α) (a : List α) (o : Nat) (data : List α) : List α :=
  (a ++ List.replicate (o - a.length) blank).take o ++ data ++ a.drop (o + data.length)

theorem length_overwrite (blank : α) (a : List α) (o : Nat) (data : List α) :
    (overwrite blank a o data).length = max a.length (o + data.length) := by
  simp only [overwrite, List.length_append, List.length_take, List.length_replicate,
    List.length_drop]
  omega

theorem getElem?_overwrite (blank : α) (a : List α) (o : Nat) (data : List α) (p : Nat) :
    (overwrite blank a o data)[p]? =
      if o ≤ p ∧ p < o + data.length then data[p - o]?
      else if p < a.length then a[p]? else if p < o then some blank else none := by
  have front : ((a ++ List.replicate (o - a.length) blank).take o).length = o := by
    simp only [List.length_take, List.length_append, List.length_replicate]
    omega
  unfold overwrite
  by_cases before : p < o
  · rw [if_neg (by omega), List.append_assoc, List.getElem?_append_left (by rw [front]; exact before),
      List.getElem?_take_of_lt before]
    by_cases old : p < a.length
    · rw [if_pos old, List.getElem?_append_left old]
    · rw [if_neg old, if_pos before, List.getElem?_append_right (by omega), List.getElem?_replicate,
        if_pos (by omega)]
  · by_cases inside : p < o + data.length
    · rw [if_pos ⟨by omega, inside⟩,
        List.getElem?_append_left (by rw [List.length_append, front]; exact inside),
        List.getElem?_append_right (by rw [front]; omega), front]
    · rw [if_neg (by omega), List.getElem?_append_right (by rw [List.length_append, front]; omega),
        List.length_append, front, List.getElem?_drop,
        show o + data.length + (p - (o + data.length)) = p by omega]
      by_cases old : p < a.length
      · rw [if_pos old]
      · rw [if_neg old, if_neg before, List.getElem?_eq_none (by omega)]

theorem eq_overwrite {blank : α} {a b data : List α} {o : Nat}
    (length : b.length = max a.length (o + data.length))
    (written : ∀ p, p < data.length → b[o + p]? = data[p]?)
    (kept : ∀ p, p < a.length → ¬(o ≤ p ∧ p < o + data.length) → b[p]? = a[p]?)
    (hole : ∀ p, a.length ≤ p → p < o → b[p]? = some blank) : b = overwrite blank a o data := by
  apply List.ext_getElem?
  intro p
  rw [getElem?_overwrite]
  by_cases inside : o ≤ p ∧ p < o + data.length
  · rw [if_pos inside, ← written (p - o) (by omega), show o + (p - o) = p by omega]
  · rw [if_neg inside]
    by_cases old : p < a.length
    · rw [if_pos old, kept p old inside]
    · rw [if_neg old]
      by_cases before : p < o
      · rw [if_pos before, hole p (by omega) before]
      · rw [if_neg before, List.getElem?_eq_none (by omega)]

theorem overwrite_overwrite (blank : α) (c a old b : List α) (p : Nat) (longer : old.length ≤ b.length) :
    overwrite blank (overwrite blank c p (a ++ old)) (p + a.length) b = overwrite blank c p (a ++ b) := by
  apply List.ext_getElem?
  intro q
  simp only [getElem?_overwrite, length_overwrite, List.length_append]
  by_cases second : p + a.length ≤ q ∧ q < p + a.length + b.length
  · rw [if_pos second, if_pos (by omega), List.getElem?_append_right (by omega)]
    congr 1
    omega
  · rw [if_neg second]
    by_cases first : p ≤ q ∧ q < p + a.length
    · rw [if_pos (by omega), if_pos (by omega), if_pos (by omega), List.getElem?_append_left (by omega),
        List.getElem?_append_left (by omega)]
    · rw [if_neg (show ¬(p ≤ q ∧ q < p + (a.length + b.length)) by omega)]
      by_cases inside : q < max c.length (p + (a.length + old.length))
      · rw [if_pos inside, if_neg (by omega)]
      · rw [if_neg inside, if_neg (by omega), if_neg (by omega), if_neg (by omega)]

theorem slice_overwrite (blank : α) (a : List α) (o : Nat) (data : List α) :
    slice (overwrite blank a o data) o data.length = data := by
  have front : ((a ++ List.replicate (o - a.length) blank).take o).length = o := by
    simp only [List.length_take, List.length_append, List.length_replicate]
    omega
  rw [slice, overwrite, List.append_assoc, List.drop_append, front, List.drop_eq_nil_of_le (by omega), List.nil_append,
    Nat.sub_self, List.drop_zero, List.take_left]

theorem overwrite_before (blank : α) (a : List α) {o q : Nat} (data : List α) (before : q < o) :
    (overwrite blank a o data)[q]? = some (a.getD q blank) := by
  rw [getElem?_overwrite, if_neg (by omega), List.getD_eq_getElem?_getD]
  by_cases inside : q < a.length
  · rw [if_pos inside, List.getElem?_eq_getElem inside, Option.getD_some]
  · rw [if_neg inside, if_pos before, List.getElem?_eq_none (by omega), Option.getD_none]

theorem overwrite_tail (blank : α) {a : List α} {o : Nat} {data : List α} (inside : o ≤ a.length)
    (past : a.length ≤ o + data.length) : overwrite blank a o data = a.take o ++ data := by
  rw [overwrite, Nat.sub_eq_zero_of_le inside, List.replicate_zero, List.append_nil, List.drop_eq_nil_of_le past,
    List.append_nil]

theorem drop_overwrite (blank : α) (a : List α) (o : Nat) (data : List α) :
    (overwrite blank a o data).drop (o + data.length) = a.drop (o + data.length) := by
  have front : ((a ++ List.replicate (o - a.length) blank).take o ++ data).length = o + data.length := by
    simp only [List.length_append, List.length_take, List.length_replicate]
    omega
  rw [overwrite]
  exact List.drop_left' front

end ShellOs.Lib.GrowArray
