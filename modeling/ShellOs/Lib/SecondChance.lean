import Mathlib.Logic.Function.Iterate
import Mathlib.Data.Nat.Find
import Mathlib.Algebra.GroupWithZero.Nat

/-! The second-chance algorithm: a hand goes round a ring of entries, clears each entry that it passes over and stops at
the first that is clear. -/

namespace ShellOs.Lib.SecondChance

variable {Entry : Type} {n : Nat} [NeZero n]

structure Ring (Entry : Type) (n : Nat) where
  entries : Fin n → Entry
  hand : Fin n

def pass (clear : Entry → Entry) (r : Ring Entry n) : Ring Entry n :=
  ⟨Function.update r.entries r.hand (clear (r.entries r.hand)), r.hand + 1⟩

def ahead (hand : Fin n) (k : Nat) : Fin n := hand + Fin.ofNat n k

def distance (hand i : Fin n) : Nat := (i - hand).val

section places

variable (hand i : Fin n)

theorem ahead_val (k : Nat) : (ahead hand k).val = (hand.val + k) % n := Nat.add_mod_mod ..

theorem ahead_zero : ahead hand 0 = hand := by
  apply Fin.ext
  rw [ahead_val, Nat.add_zero, Nat.mod_eq_of_lt hand.isLt]

theorem ahead_succ (k : Nat) : ahead hand (k + 1) = ahead hand k + 1 := by
  have one : (1 : Fin n).val = 1 % n := rfl
  apply Fin.ext
  rw [Fin.val_add, one, ahead_val, ahead_val, ← Nat.add_mod, Nat.add_assoc]

theorem ahead_size : ahead hand n = hand := by
  apply Fin.ext
  rw [ahead_val, Nat.add_mod_right, Nat.mod_eq_of_lt hand.isLt]

omit [NeZero n] in
theorem distance_lt : distance hand i < n := (i - hand).isLt

theorem ahead_distance : ahead hand (distance hand i) = i := by
  have round : hand.val + (n - hand.val + i.val) = n + i.val := by omega
  apply Fin.ext
  rw [ahead_val, distance, Fin.sub_def, Nat.add_mod_mod, round, Nat.add_mod_left, Nat.mod_eq_of_lt i.isLt]

theorem distance_ahead {k : Nat} (within : k < n) : distance hand (ahead hand k) = k := by
  have round : n - hand.val + (hand.val + k) = n + k := by omega
  rw [distance, Fin.sub_def]
  simp only [ahead_val]
  rw [Nat.add_mod_mod, round, Nat.add_mod_left, Nat.mod_eq_of_lt within]

theorem eq_ahead_iff {k : Nat} (within : k < n) : i = ahead hand k ↔ distance hand i = k := by
  constructor
  · rintro rfl
    exact distance_ahead hand within
  · rintro rfl
    exact (ahead_distance hand i).symm

end places

def found (clear : Entry → Entry) (r : Ring Entry n) (k : Nat) : Entry :=
  ((pass clear)^[k] r).entries ((pass clear)^[k] r).hand

section sweep

variable (clear : Entry → Entry) (r : Ring Entry n)

theorem hand_passes (k : Nat) : ((pass clear)^[k] r).hand = ahead r.hand k := by
  induction k with
  | zero => exact (ahead_zero r.hand).symm
  | succ k ih =>
    rw [Function.iterate_succ_apply', ahead_succ, ← ih]
    rfl

theorem entries_passes {k : Nat} (within : k ≤ n) (i : Fin n) :
    ((pass clear)^[k] r).entries i = if distance r.hand i < k then clear (r.entries i) else r.entries i := by
  induction k with
  | zero => rfl
  | succ k ih =>
    have inside : k < n := within
    rw [Function.iterate_succ_apply', pass, hand_passes]
    by_cases here : i = ahead r.hand k
    · have reached := (eq_ahead_iff r.hand i inside).mp here
      rw [← here]
      simp only [Function.update_self]
      rw [ih (Nat.le_of_lt inside), if_neg (by omega), if_pos (by omega)]
    · have other : distance r.hand i ≠ k := fun reached => here ((eq_ahead_iff r.hand i inside).mpr reached)
      simp only [Function.update_of_ne here]
      rw [ih (Nat.le_of_lt inside)]
      by_cases behind : distance r.hand i < k
      · rw [if_pos behind, if_pos (by omega)]
      · rw [if_neg behind, if_neg (by omega)]

theorem found_eq {k : Nat} (inside : k < n) : found clear r k = r.entries (ahead r.hand k) := by
  rw [found, hand_passes, entries_passes clear r (Nat.le_of_lt inside), distance_ahead r.hand inside,
    if_neg (Nat.lt_irrefl k)]

theorem found_size : found clear r n = clear (r.entries r.hand) := by
  have first : distance r.hand r.hand < n := distance_lt r.hand r.hand
  rw [found, hand_passes, ahead_size, entries_passes clear r (Nat.le_refl n), if_pos first]

/-- The hand stops after one round at the latest: at the first entry where it may, or where it began if there is none. -/
theorem first_stop {stops : Entry → Prop} (cleared : ∀ e, stops (clear e)) :
    ∃ k ≤ n, (∀ j < k, ¬ stops (found clear r j)) ∧ stops (found clear r k) ∧
      (k < n ∨ k = n ∧ ∀ i, ¬ stops (r.entries i)) := by
  classical
  by_cases some' : ∃ k, k < n ∧ stops (found clear r k)
  · obtain ⟨inside, here⟩ := Nat.find_spec some'
    refine ⟨Nat.find some', Nat.le_of_lt inside, fun j before stop => ?_, here, Or.inl inside⟩
    exact Nat.find_min some' before ⟨Nat.lt_trans before inside, stop⟩
  · have round : ∀ j < n, ¬ stops (found clear r j) := fun j inside stop => some' ⟨j, inside, stop⟩
    refine ⟨n, Nat.le_refl n, round, found_size clear r ▸ cleared _, Or.inr ⟨rfl, fun i stop => ?_⟩⟩
    have inside := distance_lt r.hand i
    apply round (distance r.hand i) inside
    rwa [found_eq clear r inside, ahead_distance]

end sweep

end ShellOs.Lib.SecondChance
