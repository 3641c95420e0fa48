import Mathlib.Order.Interval.Finset.Nat
import Mathlib.Tactic.Common

/-! Processes that take turns at frames of which the least recently used one is given up: where there are as many frames as
processes, they cannot keep each other from getting on for ever. -/

namespace ShellOs.Lib

/-- The last frame that is used in a turn, where `use` lists the frames used and `clock` counts the uses before a turn. -/
def loaded (use clock : Nat → Nat) (t : Nat) : Nat := use (clock (t + 1) - 1)

def Ticks (turns : Nat) (clock : Nat → Nat) : Prop :=
  ∀ t < turns, clock (t + 1) = clock t + 1 ∨ clock (t + 1) = clock t + 2

section ticks

variable {turns : Nat} {clock : Nat → Nat} {t s n a : Nat}

theorem Ticks.clock_lt (ticks : Ticks turns clock) (inside : t < turns) : clock t < clock (t + 1) := by
  rcases ticks t inside with one | two
  · omega
  · omega

theorem Ticks.clock_add (ticks : Ticks turns clock) (k : Nat) (inside : t + k ≤ turns) : clock t + k ≤ clock (t + k) := by
  induction k with
  | zero => exact Nat.le_refl _
  | succ k ih =>
    have before := ih (by omega)
    have next := ticks.clock_lt (show t + k < turns by omega)
    rw [← Nat.add_assoc t k 1]
    omega

theorem Ticks.clock_le (ticks : Ticks turns clock) (le : s ≤ t) (inside : t ≤ turns) : clock s ≤ clock t := by
  obtain ⟨k, rfl⟩ := Nat.exists_eq_add_of_le le
  exact Nat.le_trans (Nat.le_add_right ..) (ticks.clock_add k inside)

theorem Ticks.turn_of (ticks : Ticks turns clock) (k : Nat) (inside : a + k ≤ turns) (first : clock a ≤ n)
    (last : n < clock (a + k)) :
    ∃ t, a ≤ t ∧ t < a + k ∧ (n + 1 = clock (t + 1) ∨ (n = clock t ∧ clock (t + 1) = clock t + 2)) := by
  induction k with
  | zero => exact absurd first (Nat.not_le_of_lt last)
  | succ k ih =>
    by_cases earlier : n < clock (a + k)
    · obtain ⟨t, from', until', place⟩ := ih (by omega) earlier
      exact ⟨t, from', by omega, place⟩
    · have next : n < clock (a + k + 1) := last
      refine ⟨a + k, by omega, by omega, ?_⟩
      rcases ticks (a + k) (by omega) with one | two
      · omega
      · omega

end ticks

/-- Turns in which nobody gets on. In its turn a process may look at the frame that it loaded in the round before, if nobody
has used it since, and loads the frame with the oldest last use. Anybody could get on with the frame `good`: nobody looks at
it, and who has loaded it loses it within the round. -/
structure Stalled (frames processes turns good : Nat) (use clock : Nat → Nat) : Prop where
  ticks : Ticks turns clock
  inside : ∀ t < turns, loaded use clock t < frames
  other : ∀ t < turns, clock (t + 1) = clock t + 2 → use (clock t) < frames ∧ use (clock t) ≠ good
  own : ∀ t, t + processes < turns → clock (t + processes + 1) = clock (t + processes) + 2 →
    use (clock (t + processes)) = loaded use clock t ∧
      ∀ n, clock (t + 1) ≤ n → n < clock (t + processes) → use n ≠ loaded use clock t
  oldest : ∀ t < turns, ∀ m, m + 1 < clock (t + 1) → use m = loaded use clock t → ∀ i < frames, i ≠ loaded use clock t →
    ∃ n, m < n ∧ n + 1 < clock (t + 1) ∧ use n = i
  lost : ∀ t, t + processes < turns → loaded use clock t = good →
    ∃ s, t < s ∧ s < t + processes ∧ loaded use clock s = good

namespace Stalled

variable {frames processes turns good : Nat} {use clock : Nat → Nat} {t s m n a : Nat}

theorem use_lt (stalled : Stalled frames processes turns good use clock) (k : Nat) (inside : a + k ≤ turns)
    (first : clock a ≤ n) (last : n < clock (a + k)) : use n < frames := by
  obtain ⟨t, -, until', load | ⟨start, two⟩⟩ := stalled.ticks.turn_of k inside first last
  · have low := stalled.inside t (by omega)
    rw [loaded, ← load, Nat.add_sub_cancel] at low
    exact low
  · exact start ▸ (stalled.other t (by omega) two).1

theorem look (stalled : Stalled frames processes turns good use clock) (some' : 0 < processes) (late : processes ≤ t)
    (inside : t + processes < turns) (two : clock (t + processes + 1) = clock (t + processes) + 2) :
    clock (t + processes) + 1 ≤ clock (t + 1) + frames := by
  obtain ⟨-, unused⟩ := stalled.own t inside two
  have from' : t + 1 + (processes - 1) = t + processes := by omega
  have fresh : ∀ m n, clock (t + 1) ≤ m → m < n → n < clock (t + processes) → use m ≠ use n := by
    intro m n first before last same
    obtain ⟨s, after, until', place⟩ :=
      stalled.ticks.turn_of (processes - 1) (by omega) (show clock (t + 1) ≤ n by omega) (from' ▸ last)
    rcases place with load | ⟨start, two'⟩
    · have now : loaded use clock s = use n := by
        rw [loaded, ← load, Nat.add_sub_cancel]
      obtain ⟨k, behind, ahead, found⟩ := stalled.oldest s (by omega) m (by omega) (same.trans now.symm)
        (loaded use clock t) (stalled.inside _ (by omega)) fun equal => unused n (by omega) last (now.symm.trans equal.symm)
      exact unused k (by omega) (by omega) found
    · obtain ⟨r, rfl⟩ := Nat.exists_eq_add_of_le (show processes ≤ s by omega)
      rw [Nat.add_comm processes r] at *
      obtain ⟨looked, untouched⟩ := stalled.own r (by omega) two'
      have earlier := stalled.ticks.clock_le (show r + 1 ≤ t + 1 by omega) (by omega)
      exact untouched m (by omega) (by omega) (same.trans (start ▸ looked))
  have count : (Finset.Ico (clock (t + 1)) (clock (t + processes))).card ≤
      ((Finset.range frames).erase (loaded use clock t)).card := by
    apply Finset.card_le_card_of_injOn use
    · intro n member
      obtain ⟨first, last⟩ := Finset.mem_Ico.mp member
      have low := stalled.use_lt (processes - 1) (by omega) first (from' ▸ last)
      exact Finset.mem_erase.mpr ⟨unused n first last, Finset.mem_range.mpr low⟩
    · intro m first n second same
      rw [Finset.mem_coe, Finset.mem_Ico] at first second
      by_contra apart
      rcases Nat.lt_or_gt_of_ne apart with before | after
      · exact fresh m n first.1 before second.2 same
      · exact fresh n m second.1 after first.2 same.symm
  have here := stalled.inside t (by omega)
  rw [Nat.card_Ico, Finset.card_erase_of_mem (Finset.mem_range.mpr here), Finset.card_range] at count
  omega

/-- A round has at most one use more than there are frames. At first there may be a look for which the round before is not
known; a round without any look is short. -/
theorem round_uses (stalled : Stalled frames processes turns good use clock) (some' : 0 < processes)
    (enough : processes ≤ frames) (k : Nat) (inside : processes + k + processes ≤ turns) :
    clock (processes + k + processes) ≤ clock (processes + k) + frames + 1 ∨
      (k < processes ∧ clock (processes + k + processes) ≤ clock (processes + processes) + k) := by
  induction k with
  | zero => exact .inr ⟨some', Nat.le_refl _⟩
  | succ k ih =>
    have before := ih (by omega)
    have next := stalled.ticks.clock_lt (show processes + k < turns by omega)
    rw [show processes + (k + 1) + processes = processes + k + processes + 1 by omega, ← Nat.add_assoc processes k 1]
    rcases stalled.ticks (processes + k + processes) (by omega) with one | two
    · rcases before with short | ⟨early, short⟩
      · exact .inl (by omega)
      · by_cases last : k + 1 = processes
        · rw [show processes + k + 1 = processes + processes by omega]
          exact .inl (by omega)
        · exact .inr ⟨by omega, by omega⟩
    · have few := stalled.look some' (show processes ≤ processes + k by omega) (by omega) two
      exact .inl (by omega)

theorem rounds_uses (stalled : Stalled frames processes turns good use clock) (some' : 0 < processes)
    (enough : processes ≤ frames) (late : processes + processes ≤ t) (k : Nat) (inside : t + k * processes ≤ turns) :
    clock (t + k * processes) ≤ clock t + k * (frames + 1) := by
  induction k with
  | zero =>
    rw [Nat.zero_mul, Nat.zero_mul]
    exact Nat.le_refl _
  | succ k ih =>
    rw [Nat.succ_mul] at inside
    have before := ih (by omega)
    obtain ⟨j, same⟩ := Nat.exists_eq_add_of_le (show processes ≤ t + k * processes by omega)
    rcases stalled.round_uses some' enough j (by omega) with short | ⟨early, -⟩
    · rw [← same] at short
      rw [Nat.succ_mul, Nat.succ_mul, ← Nat.add_assoc]
      omega
    · omega

theorem reload (stalled : Stalled frames processes turns good use clock) (later : t < s) (inside : s < turns)
    (same : loaded use clock t = loaded use clock s) : clock (t + 1) + frames ≤ clock (s + 1) := by
  have early := stalled.ticks.clock_lt (show t < turns by omega)
  have between := stalled.ticks.clock_le (show t + 1 ≤ s by omega) (by omega)
  have last := stalled.ticks.clock_lt inside
  have others : (Finset.range frames).erase (loaded use clock s) ⊆
      (Finset.Ico (clock (t + 1)) (clock (s + 1) - 1)).image use := by
    intro i member
    obtain ⟨other, low⟩ := Finset.mem_erase.mp member
    obtain ⟨n, behind, ahead, found⟩ :=
      stalled.oldest s inside (clock (t + 1) - 1) (by omega) same i (Finset.mem_range.mp low) other
    exact Finset.mem_image.mpr ⟨n, Finset.mem_Ico.mpr ⟨by omega, by omega⟩, found⟩
  have count := (Finset.card_le_card others).trans Finset.card_image_le
  have here := stalled.inside s inside
  rw [Nat.card_Ico, Finset.card_erase_of_mem (Finset.mem_range.mpr here), Finset.card_range] at count
  omega

theorem finds (stalled : Stalled frames processes turns good use clock) (low : good < frames) (t : Nat)
    (inside : t + frames ≤ turns) : ∃ s, t ≤ s ∧ s < t + frames ∧ loaded use clock s = good := by
  by_contra none'
  have others : ∀ s, t ≤ s → s < t + frames → loaded use clock s ≠ good := fun s first last same =>
    none' ⟨s, first, last, same⟩
  have fresh : ∀ r s, t ≤ r → r < s → s < t + frames → loaded use clock r ≠ loaded use clock s := by
    intro r s first before last same
    have early := stalled.ticks.clock_lt (show r < turns by omega)
    have later := stalled.ticks.clock_lt (show s < turns by omega)
    have between := stalled.ticks.clock_le (show r + 1 ≤ s by omega) (by omega)
    obtain ⟨n, behind, ahead, found⟩ := stalled.oldest s (by omega) (clock (r + 1) - 1) (by omega) same good low
      (others s (by omega) last).symm
    obtain ⟨q, from', until', place⟩ := stalled.ticks.turn_of (s - r) (by omega) (show clock (r + 1) ≤ n by omega)
      (show n < clock (r + 1 + (s - r)) by rw [show r + 1 + (s - r) = s + 1 by omega]; omega)
    rcases place with load | ⟨start, two⟩
    · apply others q (by omega) (by omega)
      rw [loaded, ← load, Nat.add_sub_cancel, found]
    · exact (stalled.other q (by omega) two).2 (start ▸ found)
  have count : (Finset.Ico t (t + frames)).card ≤ ((Finset.range frames).erase good).card := by
    apply Finset.card_le_card_of_injOn (loaded use clock)
    · intro s member
      obtain ⟨first, last⟩ := Finset.mem_Ico.mp member
      exact Finset.mem_erase.mpr ⟨others s first last, Finset.mem_range.mpr (stalled.inside _ (by omega))⟩
    · intro r first s second same
      rw [Finset.mem_coe, Finset.mem_Ico] at first second
      by_contra apart
      rcases Nat.lt_or_gt_of_ne apart with before | after
      · exact fresh r s first.1 before second.2 same
      · exact fresh s r second.1 after first.2 same.symm
  rw [Nat.card_Ico, Finset.card_erase_of_mem (Finset.mem_range.mpr low), Finset.card_range] at count
  omega

theorem reloads (stalled : Stalled frames processes turns good use clock) (found : loaded use clock t = good) (k : Nat)
    (inside : t + k * processes < turns) : ∃ s, t ≤ s ∧ s + k ≤ t + k * processes ∧ loaded use clock s = good ∧
      clock (t + 1) + k * frames ≤ clock (s + 1) := by
  induction k with
  | zero => exact ⟨t, Nat.le_refl t, by omega, found, by omega⟩
  | succ k ih =>
    rw [Nat.succ_mul] at inside
    obtain ⟨s, from', until', here, uses⟩ := ih (by omega)
    obtain ⟨r, after, before, again⟩ := stalled.lost s (by omega) here
    have more := stalled.reload after (by omega) (here.trans again.symm)
    refine ⟨r, by omega, by rw [Nat.succ_mul]; omega, again, ?_⟩
    rw [Nat.succ_mul]
    omega

theorem short (stalled : Stalled frames processes turns good use clock) (some' : 0 < processes)
    (enough : processes ≤ frames) (low : good < frames) :
    turns ≤ processes + processes + frames + processes * processes := by
  by_contra long
  obtain ⟨others, rfl⟩ : ∃ others, processes = others + 1 := ⟨processes - 1, by omega⟩
  have square : (others + 1) * (others + 1) = others * (others + 1) + (others + 1) := Nat.succ_mul ..
  obtain ⟨t, late, soon, found⟩ := stalled.finds low (others + 1 + (others + 1)) (by omega)
  obtain ⟨s, from', until', -, many⟩ := stalled.reloads found (others + 1) (by omega)
  have few := stalled.rounds_uses some' enough (show others + 1 + (others + 1) ≤ t + 1 by omega) others (by omega)
  have bound := stalled.ticks.clock_le (show s + 1 ≤ t + 1 + others * (others + 1) by omega) (by omega)
  have less : others * (frames + 1) < (others + 1) * frames := by
    rw [Nat.mul_succ, Nat.succ_mul]
    omega
  omega

end Stalled

end ShellOs.Lib
