import ShellOs.Lib.BlockTree

/-! The order in which a walk comes to the blocks of a tree: each index block before those below it. -/

namespace ShellOs.Lib.BlockTree

section parts

variable {α : Type*}

theorem getElem?_flatMap_range {m c j r : Nat} {part : Nat → List α} (full : ∀ i, i < j → (part i).length = c)
    (inside : j < m) (small : r < (part j).length) : ((List.range m).flatMap part)[j * c + r]? = (part j)[r]? := by
  induction j generalizing m part with
  | zero =>
    obtain ⟨m, rfl⟩ : ∃ k, m = k + 1 := ⟨m - 1, by omega⟩
    rw [List.range_succ_eq_map, List.flatMap_cons, Nat.zero_mul, Nat.zero_add, List.getElem?_append_left small]
  | succ j ih =>
    obtain ⟨m, rfl⟩ : ∃ k, m = k + 1 := ⟨m - 1, by omega⟩
    have first := full 0 (Nat.succ_pos j)
    have later := @ih m (fun i => part (i + 1)) (fun i below => full (i + 1) (by omega)) (by omega) small
    have place : (j + 1) * c + r = c + (j * c + r) := by
      rw [Nat.add_mul, Nat.one_mul]
      omega
    rw [List.range_succ_eq_map, List.flatMap_cons, List.flatMap_map, place,
      List.getElem?_append_right (by omega), first, Nat.add_sub_cancel_left]
    exact later

theorem length_flatMap_range {m c : Nat} {part : Nat → List α} (full : ∀ i, i < m → (part i).length = c) :
    ((List.range m).flatMap part).length = m * c := by
  have same : (List.range m).map (fun i => (part i).length) = List.replicate m c := by
    rw [List.eq_replicate_iff, List.length_map, List.length_range]
    refine ⟨rfl, fun n member => ?_⟩
    obtain ⟨i, below, rfl⟩ := List.mem_map.mp member
    exact full i (List.mem_range.mp below)
  rw [List.length_flatMap, same, List.sum_replicate_nat]

end parts

section order

variable {α : Type*} [Zero α] [DecidableEq α] {k : Nat} {tbl tbl' : α → Nat → α}

def fullSize (k : Nat) : Nat → Nat
  | 0 => 1
  | l + 1 => 1 + k * fullSize k l

def place (k : Nat) : Nat → Nat → Nat
  | 0, _ => 0
  | l + 1, i => 1 + (i / k ^ l * fullSize k l + place k l (i % k ^ l))

theorem visited_congr {l n : Nat} {e : α} (bound : n ≤ k ^ l)
    (same : ∀ x ∈ visited k tbl l e n, x ∈ inner k tbl l e → tbl' x = tbl x) :
    visited k tbl' l e n = visited k tbl l e n := by
  induction l generalizing e n with
  | zero => rfl
  | succ l ih =>
    by_cases null : e = 0
    · simp only [visited, if_pos null]
    · rw [visited, inner, if_neg null, if_neg null] at same
      rw [visited, visited, if_neg null, if_neg null, same e List.mem_cons_self List.mem_cons_self]
      congr 1
      apply List.flatMap_congr
      intro j member
      have inside : j < k := by
        have unit : 0 < k ^ l := by
          rcases Nat.eq_zero_or_pos (k ^ l) with zero | positive
          · rw [zero, Nat.div_zero] at member
            cases member
          · exact positive
        have reached := (Nat.le_div_iff_mul_le unit).mp (Nat.succ_le_of_lt (List.mem_range.mp member))
        rw [pow_succ, Nat.mul_comm] at bound
        rw [Nat.succ_mul] at reached
        exact Nat.lt_of_mul_lt_mul_right (a := k ^ l) (by omega)
      refine ih (Nat.min_le_right _ _) fun x here index => same x ?_ ?_
      · exact List.mem_cons_of_mem _ (List.mem_flatMap.mpr ⟨j, member, here⟩)
      · exact List.mem_cons_of_mem _ (List.mem_flatMap.mpr ⟨j, List.mem_range.mpr inside, index⟩)

theorem leaf_entry {l i j : Nat} {e : α} (mapped : leaf k tbl (l + 1) e (j * k ^ l + i) ≠ 0) (small : i < k ^ l) :
    e ≠ 0 ∧ leaf k tbl l (tbl e j) i = leaf k tbl (l + 1) e (j * k ^ l + i) := by
  have unit : 0 < k ^ l := Nat.lt_of_le_of_lt (Nat.zero_le i) small
  have present : e ≠ 0 := by
    rintro rfl
    exact mapped (leaf_null k tbl _ _)
  refine ⟨present, ?_⟩
  rw [leaf, if_neg present, Nat.mul_comm, Nat.mul_add_div unit, Nat.div_eq_of_lt small, Nat.add_zero, Nat.mul_add_mod,
    Nat.mod_eq_of_lt small]

theorem visited_length {l : Nat} {e : α} (some : 0 < k) (mapped : ∀ i, i < k ^ l → leaf k tbl l e i ≠ 0) :
    (visited k tbl l e (k ^ l)).length = fullSize k l := by
  induction l generalizing e with
  | zero =>
    have present : e ≠ 0 := mapped 0 (by simp)
    rw [visited, if_neg present, fullSize, List.length_singleton]
  | succ l ih =>
    have unit : 0 < k ^ l := Nat.pow_pos some
    have inside : ∀ j i, j < k → i < k ^ l → j * k ^ l + i < k ^ (l + 1) := by
      intro j i below small
      have := Nat.mul_le_mul_right (k ^ l) (Nat.succ_le_of_lt below)
      rw [Nat.succ_mul] at this
      rw [pow_succ, Nat.mul_comm (k ^ l) k]
      omega
    have present : e ≠ 0 := by
      have first := mapped (0 * k ^ l + 0) (inside 0 0 some unit)
      exact (leaf_entry first unit).1
    have count : (k ^ (l + 1) + k ^ l - 1) / k ^ l = k := by
      rw [pow_succ, show k ^ l * k + k ^ l - 1 = k ^ l * k + (k ^ l - 1) by omega, Nat.mul_add_div unit,
        Nat.div_eq_of_lt (by omega), Nat.add_zero]
    rw [visited, if_neg present, List.length_cons, count, length_flatMap_range (c := fullSize k l), fullSize, Nat.add_comm]
    intro j below
    have share : min (k ^ (l + 1) - j * k ^ l) (k ^ l) = k ^ l := by
      have := inside j (k ^ l - 1) below (by omega)
      omega
    rw [share]
    apply ih
    intro i small
    have there := mapped _ (inside j i below small)
    rw [(leaf_entry there small).2]
    exact there

theorem visited_place {l n i : Nat} {e : α} (bound : n ≤ k ^ l) (mapped : ∀ i, i < n → leaf k tbl l e i ≠ 0)
    (below : i < n) : (visited k tbl l e n)[place k l i]? = some (leaf k tbl l e i) := by
  induction l generalizing e n i with
  | zero =>
    have present : e ≠ 0 := mapped i below
    rw [visited, if_neg present, place]
    rfl
  | succ l ih =>
    have unit : 0 < k ^ l := by
      rcases Nat.eq_zero_or_pos (k ^ l) with zero | positive
      · rw [pow_succ, zero, Nat.zero_mul] at bound
        omega
      · exact positive
    have some : 0 < k := by
      rcases Nat.eq_zero_or_pos k with zero | positive
      · rw [zero, pow_succ, Nat.mul_zero] at bound
        omega
      · exact positive
    obtain ⟨j, r, small, rfl⟩ : ∃ j r, r < k ^ l ∧ i = j * k ^ l + r :=
      ⟨i / k ^ l, i % k ^ l, Nat.mod_lt i unit, (Nat.div_add_mod' i (k ^ l)).symm⟩
    have quotient : (j * k ^ l + r) / k ^ l = j := by
      rw [Nat.mul_comm, Nat.mul_add_div unit, Nat.div_eq_of_lt small, Nat.add_zero]
    have remainder : (j * k ^ l + r) % k ^ l = r := by
      rw [Nat.mul_comm, Nat.mul_add_mod, Nat.mod_eq_of_lt small]
    obtain ⟨present, entry⟩ := leaf_entry (mapped _ below) small
    have tree : ∀ j r, r < min (n - j * k ^ l) (k ^ l) → leaf k tbl l (tbl e j) r ≠ 0 := by
      intro j r less
      have there := mapped (j * k ^ l + r) (by omega)
      rw [(leaf_entry there (by omega)).2]
      exact there
    have reach : j < (n + k ^ l - 1) / k ^ l := by
      rw [← Nat.succ_le_iff, Nat.le_div_iff_mul_le unit, Nat.succ_mul]
      omega
    have last := ih (n := min (n - j * k ^ l) (k ^ l)) (i := r) (by omega) (tree j) (by omega)
    rw [visited, if_neg present, place, quotient, remainder, Nat.add_comm 1, List.getElem?_cons_succ,
      getElem?_flatMap_range (c := fullSize k l) _ reach (List.getElem?_eq_some_iff.mp last).1, last, entry]
    -- the trees of the entries before it are full
    intro d less
    have early : (d + 1) * k ^ l ≤ j * k ^ l := Nat.mul_le_mul_right _ less
    rw [Nat.add_mul, Nat.one_mul] at early
    have share : min (n - d * k ^ l) (k ^ l) = k ^ l := by omega
    have whole := tree d
    rw [share] at whole ⊢
    exact visited_length some whole

end order

end ShellOs.Lib.BlockTree
