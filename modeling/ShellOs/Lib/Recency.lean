import Mathlib.Data.List.Basic
import Mathlib.Logic.Function.Basic

/-! A counter that stamps each use: among what has been used, the lower stamp is the less recent use. -/

namespace ShellOs.Lib

variable {α : Type} [DecidableEq α] {uses : List α} {stamp : α → Int} {a b : α}

/-- The stamps that a counter from 0 gives to these uses, the last of which comes first. -/
def Stamped (uses : List α) (stamp : α → Int) : Prop :=
  ∀ a ∈ uses, stamp a + uses.idxOf a + 1 = uses.length

theorem Stamped.use (stamped : Stamped uses stamp) (a : α) :
    Stamped (a :: uses) (Function.update stamp a uses.length) := by
  intro b member
  by_cases same : b = a
  · rw [same, Function.update_self, List.idxOf_cons_self, List.length_cons]
    push_cast
    omega
  · have earlier := stamped b ((List.mem_cons.mp member).resolve_left same)
    rw [Function.update_of_ne same, List.idxOf_cons_ne uses (Ne.symm same), List.length_cons]
    push_cast
    omega

theorem Stamped.nonneg (stamped : Stamped uses stamp) (member : a ∈ uses) : 0 ≤ stamp a := by
  have place := stamped a member
  have inside := List.idxOf_lt_length_of_mem member
  omega

theorem Stamped.lt_length (stamped : Stamped uses stamp) (member : a ∈ uses) : stamp a < uses.length := by
  have place := stamped a member
  omega

theorem Stamped.lt_iff (stamped : Stamped uses stamp) (first : a ∈ uses) (second : b ∈ uses) :
    stamp a < stamp b ↔ uses.idxOf b < uses.idxOf a := by
  have here := stamped a first
  have there := stamped b second
  omega

theorem Stamped.injective (stamped : Stamped uses stamp) (first : a ∈ uses) (second : b ∈ uses)
    (same : stamp a = stamp b) : a = b := by
  have here := stamped a first
  have there := stamped b second
  exact (List.idxOf_inj first).mp (by omega)

section history

variable {α : Type} [Inhabited α] {uses : List α} {n : Nat}

def history (uses : List α) (n : Nat) : α := uses.reverse.getD n default

theorem history_cons (a : α) (uses : List α) : history (a :: uses) uses.length = a := by
  rw [history, List.reverse_cons, List.getD_eq_getElem?_getD, List.getElem?_append_right (by simp)]
  simp

theorem history_append (later : List α) (before : n < uses.length) : history (later ++ uses) n = history uses n := by
  rw [history, history, List.reverse_append, List.getD_eq_getElem?_getD, List.getD_eq_getElem?_getD,
    List.getElem?_append_left (by simpa using before)]

theorem getElem?_history (before : n < uses.length) : uses[uses.length - 1 - n]? = some (history uses n) := by
  have inside : n < uses.reverse.length := by simpa using before
  rw [← List.getElem?_reverse before, history, List.getD_eq_getElem?_getD, List.getElem?_eq_getElem inside,
    Option.getD_some]

theorem history_older [DecidableEq α] {a b : α} (older : uses.idxOf b < uses.idxOf a) (before : n < uses.length)
    (used : history uses n = a) : ∃ m, n < m ∧ m < uses.length ∧ history uses m = b := by
  have member : b ∈ uses := List.idxOf_lt_length_iff.mp (Nat.lt_of_lt_of_le older List.idxOf_le_length)
  have last := List.idxOf_lt_length_of_mem member
  have first : uses.idxOf a ≤ uses.length - 1 - n := by
    by_contra early
    have other := List.not_of_lt_findIdx (Nat.lt_of_not_le early)
    have here := getElem?_history before
    rw [used, List.getElem?_eq_getElem (by omega), Option.some_inj] at here
    rw [here] at other
    simp at other
  have inside : uses.length - 1 - uses.idxOf b < uses.length := by omega
  refine ⟨uses.length - 1 - uses.idxOf b, by omega, inside, ?_⟩
  have there := getElem?_history inside
  rw [show uses.length - 1 - (uses.length - 1 - uses.idxOf b) = uses.idxOf b by omega, List.getElem?_eq_getElem last,
    List.getElem_idxOf last] at there
  exact (Option.some_inj.mp there).symm

end history

end ShellOs.Lib
