import Mathlib.Data.List.Basic
import Mathlib.Data.List.Nodup
import Mathlib.Tactic.Common

/-! A finite map kept in a row of slots: a binding is put into any empty slot, or into a new one at
the end, and taken out in place. -/

namespace ShellOs.Lib.SlotMap

variable {κ β : Type*}

def bindings (t : List (Option (κ × β))) : List (κ × β) := t.filterMap id

def keys (t : List (Option (κ × β))) : List κ := (bindings t).map Prod.fst

def find [DecidableEq κ] (t : List (Option (κ × β))) (k : κ) : Option β :=
  t.findSome? fun slot => slot.bind fun e => if e.1 = k then some e.2 else none

theorem mem_bindings {t : List (Option (κ × β))} {e : κ × β} :
    e ∈ bindings t ↔ some e ∈ t := by
  simp [bindings]

theorem mem_keys {t : List (Option (κ × β))} {k : κ} : k ∈ keys t ↔ ∃ v, some (k, v) ∈ t := by
  simp [keys, mem_bindings]

theorem bindings_put {t : List (Option (κ × β))} {j : Nat} (empty : t[j]? = some none) (e : κ × β) :
    (bindings (t.set j (some e))).Perm (e :: bindings t) := by
  induction t generalizing j with
  | nil => simp at empty
  | cons slot rest ih =>
    cases j with
    | zero =>
      simp only [List.getElem?_cons_zero, Option.some.injEq] at empty
      subst empty
      simp [bindings]
    | succ j =>
      simp only [List.getElem?_cons_succ] at empty
      cases slot with
      | none => simpa [bindings] using ih empty
      | some first =>
        have rest := (ih empty).cons first
        simp only [bindings, List.set_cons_succ, List.filterMap_cons, id] at rest ⊢
        exact rest.trans (List.Perm.swap _ _ _)

theorem bindings_append (t : List (Option (κ × β))) (e : κ × β) :
    (bindings (t ++ [some e])).Perm (e :: bindings t) := by
  simp [bindings, List.filterMap_append]

theorem bindings_clear {t : List (Option (κ × β))} {j : Nat} {e : κ × β}
    (filled : t[j]? = some (some e)) : (bindings t).Perm (e :: bindings (t.set j none)) := by
  have inside : j < t.length := by
    by_contra outside
    rw [List.getElem?_eq_none (by omega)] at filled
    cases filled
  have back := bindings_put (t := t.set j none) (j := j) (by simp [inside]) e
  have same : (t.set j none).set j (some e) = t := by
    rw [List.set_set]
    apply List.ext_getElem?
    intro i
    by_cases here : i = j
    · subst here
      rw [List.getElem?_set_self inside, filled]
    · rw [List.getElem?_set_ne (Ne.symm here)]
  rwa [same] at back

theorem keys_perm {t u : List (Option (κ × β))} {e : κ × β} (added : (bindings u).Perm (e :: bindings t)) :
    (keys u).Perm (e.1 :: keys t) := added.map Prod.fst

theorem slot_unique {t : List (Option (κ × β))} (nodup : (keys t).Nodup) {i j : Nat} {k : κ} {v w : β}
    (first : t[i]? = some (some (k, v))) (second : t[j]? = some (some (k, w))) : i = j := by
  by_contra different
  have all := (keys_perm (bindings_clear first)).nodup_iff.mp nodup
  have still : (t.set i none)[j]? = some (some (k, w)) := by
    rw [List.getElem?_set_ne different]
    exact second
  exact (List.nodup_cons.mp all).1 (mem_keys.mpr ⟨w, List.mem_of_getElem? still⟩)

theorem bindings_drop (t : List (Option (κ × β))) (k : Nat) :
    (bindings (t.drop k) = [] ∧ ∀ i, k ≤ i → i < t.length → t[i]? = some none) ∨
      ∃ j e, k ≤ j ∧ t[j]? = some (some e) ∧ (∀ i, k ≤ i → i < j → t[i]? = some none) ∧
        bindings (t.drop k) = e :: bindings (t.drop (j + 1)) := by
  induction left : t.length - k generalizing k with
  | zero =>
    refine Or.inl ⟨?_, fun i low high => by omega⟩
    rw [List.drop_eq_nil_of_le (by omega)]
    rfl
  | succ n ih =>
    have inside : k < t.length := by omega
    rw [List.drop_eq_getElem_cons inside]
    cases slot : t[k] with
    | some e =>
      refine Or.inr ⟨k, e, Nat.le_refl k, ?_, fun i low high => by omega, rfl⟩
      rw [List.getElem?_eq_getElem inside, slot]
    | none =>
      have here : t[k]? = some none := by rw [List.getElem?_eq_getElem inside, slot]
      change (bindings (t.drop (k + 1)) = [] ∧ _) ∨ ∃ j e, k ≤ j ∧ _ ∧ _ ∧ bindings (t.drop (k + 1)) = _
      rcases ih (k + 1) (by omega) with ⟨none, empty⟩ | ⟨j, e, low, found, empty, rest⟩
      · refine Or.inl ⟨none, fun i lowI high => ?_⟩
        rcases Nat.eq_or_lt_of_le lowI with rfl | later
        · exact here
        · exact empty i later high
      · refine Or.inr ⟨j, e, by omega, found, fun i lowI high => ?_, rest⟩
        rcases Nat.eq_or_lt_of_le lowI with rfl | later
        · exact here
        · exact empty i later high

def freeSlot (t : List (Option (κ × β))) : Nat := t.findIdx fun slot => slot.isNone

/-- Put a binding into the first empty slot, or into a new one at the end. -/
def put (t : List (Option (κ × β))) (e : κ × β) : List (Option (κ × β)) :=
  if freeSlot t < t.length then t.set (freeSlot t) (some e) else t ++ [some e]

theorem freeSlot_le (t : List (Option (κ × β))) : freeSlot t ≤ t.length := List.findIdx_le_length

theorem freeSlot_empty {t : List (Option (κ × β))} (room : freeSlot t < t.length) :
    t[freeSlot t]? = some none := by
  have found : (t[freeSlot t]).isNone = true :=
    List.findIdx_getElem (p := fun slot : Option (κ × β) => slot.isNone) (w := room)
  rw [List.getElem?_eq_getElem room]
  exact congrArg some (Option.isNone_iff_eq_none.mp found)

theorem freeSlot_lt {t : List (Option (κ × β))} {j : Nat} (empty : t[j]? = some none) : freeSlot t < t.length :=
  List.findIdx_lt_length.mpr ⟨none, List.mem_of_getElem? empty, rfl⟩

theorem before_freeSlot {t : List (Option (κ × β))} {i : Nat} (before : i < freeSlot t) :
    ∃ e, t[i]? = some (some e) := by
  have inside : i < t.length := Nat.lt_of_lt_of_le before (freeSlot_le t)
  have full : (t[i]).isNone = false := List.not_of_lt_findIdx before
  rw [List.getElem?_eq_getElem inside]
  cases held : t[i] with
  | none => simp [held] at full
  | some e => exact ⟨e, rfl⟩

theorem put_perm (t : List (Option (κ × β))) (e : κ × β) : (bindings (put t e)).Perm (e :: bindings t) := by
  unfold put
  split
  next room => exact bindings_put (freeSlot_empty room) e
  next => exact bindings_append t e

theorem put_freeSlot (t : List (Option (κ × β))) (e : κ × β) : (put t e)[freeSlot t]? = some (some e) := by
  unfold put
  split
  next room => exact List.getElem?_set_self room
  next full =>
    rw [Nat.le_antisymm (freeSlot_le t) (Nat.le_of_not_lt full), List.getElem?_append_right (Nat.le_refl _), Nat.sub_self]
    rfl

theorem put_slot {t : List (Option (κ × β))} {e : κ × β} (fresh : e.1 ∉ keys t) {k : Nat} {v : β}
    (slot : (put t e)[k]? = some (some (e.1, v))) : k = freeSlot t ∧ v = e.2 := by
  by_cases here : k = freeSlot t
  · rw [here, put_freeSlot] at slot
    exact ⟨here, (congrArg Prod.snd (Option.some.inj (Option.some.inj slot))).symm⟩
  · have before : t[k]? = some (some (e.1, v)) := by
      unfold put at slot
      split at slot
      next room => rwa [List.getElem?_set_ne (Ne.symm here)] at slot
      next full =>
        have last := Nat.le_antisymm (freeSlot_le t) (Nat.le_of_not_lt full)
        rcases Nat.lt_or_ge k t.length with inside | beyond
        · rwa [List.getElem?_append_left inside] at slot
        · rw [List.getElem?_append_right beyond, List.getElem?_eq_none (by simp; omega)] at slot
          cases slot
    exact absurd (mem_keys.mpr ⟨v, List.mem_of_getElem? before⟩) fresh

section search

variable [DecidableEq κ]

theorem find_eq_none {t : List (Option (κ × β))} {k : κ} : find t k = none ↔ k ∉ keys t := by
  rw [mem_keys, find, List.findSome?_eq_none_iff]
  constructor
  · rintro absent ⟨v, member⟩
    simpa using absent _ member
  · intro absent slot member
    cases slot with
    | none => rfl
    | some e =>
      simp only [Option.bind_some, ite_eq_right_iff]
      intro same
      subst same
      exact absurd ⟨e.2, member⟩ absent

theorem find_mem {t : List (Option (κ × β))} {k : κ} {v : β} (found : find t k = some v) :
    (k, v) ∈ bindings t := by
  obtain ⟨slot, member, hit⟩ := List.exists_of_findSome?_eq_some found
  cases slot with
  | none => simp at hit
  | some e =>
    simp only [Option.bind_some, Option.ite_none_right_eq_some, Option.some.injEq] at hit
    obtain ⟨rfl, rfl⟩ := hit
    exact mem_bindings.mpr member

theorem find_eq_some {t : List (Option (κ × β))} (nodup : (keys t).Nodup) {k : κ} {v : β} :
    find t k = some v ↔ (k, v) ∈ bindings t := by
  refine ⟨find_mem, fun member => ?_⟩
  cases found : find t k with
  | none =>
    rw [find_eq_none] at found
    exact absurd (List.mem_map_of_mem (f := Prod.fst) member) found
  | some w =>
    have other := find_mem found
    have same := List.inj_on_of_nodup_map nodup member other rfl
    rw [(Prod.mk.inj same).2]

theorem find_added {t u : List (Option (κ × β))} {k : κ} {v : β}
    (added : (bindings u).Perm ((k, v) :: bindings t)) (nodup : (keys t).Nodup) (fresh : k ∉ keys t)
    (q : κ) : find u q = if q = k then some v else find t q := by
  have nodupNext : (keys u).Nodup := (keys_perm added).nodup_iff.mpr (List.nodup_cons.mpr ⟨fresh, nodup⟩)
  by_cases same : q = k
  · rw [if_pos same, find_eq_some nodupNext, added.mem_iff, same]
    exact List.mem_cons_self
  · rw [if_neg same]
    cases found : find t q with
    | none =>
      rw [find_eq_none] at found ⊢
      rw [(keys_perm added).mem_iff, List.mem_cons, not_or]
      exact ⟨same, found⟩
    | some w =>
      rw [find_eq_some nodupNext, added.mem_iff]
      exact List.mem_cons_of_mem _ ((find_eq_some nodup).mp found)

theorem find_removed {t u : List (Option (κ × β))} {k : κ} {v : β}
    (removed : (bindings t).Perm ((k, v) :: bindings u)) (nodup : (keys t).Nodup) (q : κ) :
    find u q = if q = k then none else find t q := by
  have all := (keys_perm removed).nodup_iff.mp nodup
  obtain ⟨fresh, rest⟩ := List.nodup_cons.mp all
  have before := find_added removed rest fresh q
  by_cases same : q = k
  · rw [if_pos same, find_eq_none, same]
    exact fresh
  · rw [if_neg same] at before ⊢
    exact before.symm

end search

def compact (l : List (κ × β)) (spare : Nat) : List (Option (κ × β)) := l.map some ++ List.replicate spare none

section compact

variable (l : List (κ × β)) (spare : Nat)

theorem bindings_compact : bindings (compact l spare) = l := by
  simp [bindings, compact]

theorem length_compact : (compact l spare).length = l.length + spare := by
  rw [compact, List.length_append, List.length_map, List.length_replicate]

theorem freeSlot_compact : freeSlot (compact l spare) = l.length := by
  induction l with
  | nil => cases spare <;> rfl
  | cons e rest ih =>
    rw [freeSlot, compact, List.map_cons, List.cons_append, List.findIdx_cons]
    exact congrArg Nat.succ ih

theorem put_compact (e : κ × β) : put (compact l (spare + 1)) e = compact (l ++ [e]) spare := by
  have room : l.length < (compact l (spare + 1)).length := by
    rw [length_compact]
    omega
  have here : l.length = (l.map some).length + 0 := (List.length_map _).symm
  rw [put, freeSlot_compact, if_pos room, compact, compact, List.replicate_succ, List.map_append, List.append_assoc, here,
    List.set_append_right _ _ (Nat.le_add_right _ _), Nat.add_sub_cancel_left]
  rfl

theorem compact_of_empty {t : List (Option (κ × β))} (empty : bindings t = []) : t = compact [] t.length := by
  rw [compact, List.map_nil, List.nil_append, List.eq_replicate_iff]
  refine ⟨rfl, fun slot member => ?_⟩
  cases slot with
  | none => rfl
  | some e =>
    have bound := mem_bindings.mpr member
    rw [empty] at bound
    cases bound

end compact

end ShellOs.Lib.SlotMap
