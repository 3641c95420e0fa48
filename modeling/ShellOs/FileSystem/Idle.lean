import ShellOs.FileSystem.Reserve

/-! A reservation that finds nothing free, or nothing missing, changes nothing but sector 0. -/

namespace ShellOs.FileSystem
open Lib BlockTree

/-- An index block that is not found is zeroed all the same, at sector 0. -/
def stalled (s : FlatFs) (needs : List BlockKind) : FlatFs :=
  if needs.head? = some .index then s.bufferCacheWrite 0 zeros else s

def Idle (s : FlatFs) (needs : List BlockKind) : Prop := freeSectors s.freeMap = [] ∨ needs = []

theorem Idle.append {s : FlatFs} {needs more : List BlockKind} (idle : Idle s (needs ++ more)) :
    Idle s needs ∧ Idle s more := by
  rcases idle with full | none
  · exact ⟨Or.inl full, Or.inl full⟩
  · exact ⟨Or.inr (List.append_eq_nil_iff.mp none).1, Or.inr (List.append_eq_nil_iff.mp none).2⟩

@[simp] theorem stalled_nil (s : FlatFs) : stalled s [] = s := rfl

theorem stalled_append (s : FlatFs) {needs : List BlockKind} (some : needs ≠ []) (more : List BlockKind) :
    stalled s (needs ++ more) = stalled s needs := by
  cases needs with
  | nil => exact absurd rfl some
  | cons kind rest => rfl

theorem isEmpty_append_left {needs : List BlockKind} (some : needs ≠ []) (more : List BlockKind) :
    (needs ++ more).isEmpty = false ∧ needs.isEmpty = false := by
  cases needs with
  | nil => exact absurd rfl some
  | cons kind rest => exact ⟨rfl, rfl⟩

section allocator

variable {allocate : FlatFs → Option BlockSector × FlatFs}

def StaysIdle (l : Nat) (reserve : FlatFs → BlockSector → Nat → Outcome (BlockSector → Sector) BlockSector) : Prop :=
  ∀ s e n, FreeMapOk s → Idle s (missing 128 (table s.cache) l e n) → 0 < n →
    reserve s e n = ⟨(missing 128 (table s.cache) l e n).isEmpty, e, stalled s (missing 128 (table s.cache) l e n)⟩

theorem reserveEntries_idle {l : Nat}
    {reserve : FlatFs → BlockSector → Nat → Outcome (BlockSector → Sector) BlockSector} (stays : StaysIdle l reserve)
    (count i n : Nat) (row : Nat → BlockSector) {s : FlatFs} (fine : FreeMapOk s)
    (shares : ∀ d, d < count → d * 128 ^ l < n)
    (idle : Idle s (missingRow 128 (table s.cache) l count i n row)) :
    reserveEntries reserve (128 ^ l) count i n row s = ⟨(missingRow 128 (table s.cache) l count i n row).isEmpty, row,
      stalled s (missingRow 128 (table s.cache) l count i n row)⟩ := by
  induction count generalizing i n with
  | zero => rfl
  | succ count ih =>
    have unit : 0 < 128 ^ l := Nat.pow_pos (by decide)
    have first := shares 0 (by omega)
    have one := stays s (row i) (min n (128 ^ l)) fine idle.append.1 (by omega)
    have rest := ih (i + 1) (n - min n (128 ^ l)) (fun d below => by
      have share := shares (d + 1) (by omega)
      rw [Nat.add_mul, Nat.one_mul] at share
      omega) idle.append.2
    rw [reserveEntries, missingRow]
    simp only [one, Function.update_eq_self]
    by_cases none : missing 128 (table s.cache) l (row i) (min n (128 ^ l)) = []
    · simp only [none, List.isEmpty_nil, if_true, stalled_nil, List.nil_append, rest]
    · obtain ⟨whole, part⟩ := isEmpty_append_left none
        (missingRow 128 (table s.cache) l count (i + 1) (n - min n (128 ^ l)) row)
      simp only [part, whole, Bool.false_eq_true, if_false, stalled_append s none]

theorem inodeReserveIndirect_idle (allocates : Allocates allocate) {l : Nat} (shallow : l ≤ 2) :
    StaysIdle l (inodeReserveIndirect allocate l) := by
  induction l with
  | zero =>
    intro s e n fine idle some
    by_cases null : e = 0
    · have full : freeSectors s.freeMap = [] := idle.resolve_right (by simp [missing, null])
      simp [inodeReserveIndirect, reserveSector, missing, null, (allocates s fine).1 full, stalled]
    · have mapped : missing 128 (table s.cache) 0 e n = [] := if_neg null
      rw [mapped, inodeReserveIndirect, reserveSector, if_neg null]
      rfl
  | succ l ih =>
    intro s e n fine idle some
    by_cases null : e = 0
    · have full : freeSectors s.freeMap = [] := idle.resolve_right (by simp [missing, null])
      rw [null, reserve_exhausted allocates (l + 1) n s fine full some]
      simp [missing, stalled]
    · have needs : missing 128 (table s.cache) (l + 1) e n = missingRow 128 (table s.cache) l
          ((n + 128 ^ l - 1) / 128 ^ l) 0 n (table s.cache e) := by
        rw [missing_succ, if_neg null, if_neg null, List.nil_append]
      rw [needs] at idle ⊢
      have row := reserveEntries_idle (ih (by omega)) ((n + 128 ^ l - 1) / 128 ^ l) 0 n (table s.cache e) fine
        (fun _ => share_positive) idle
      have same : s.bufferCacheWrite e (sectorOfWords (table s.cache e)) = s := by
        rw [sectorOfWords_sectorWord, flat_write, Function.update_eq_self]
      simp only [inodeReserveIndirect, obtainIndex, if_neg null, flat_read, indexUnit (show l ≤ 1 by omega), divRoundUp]
      rw [row]
      generalize missingRow 128 (table s.cache) l ((n + 128 ^ l - 1) / 128 ^ l) 0 n (table s.cache e) = needs
      cases needs with
      | nil => simp only [List.isEmpty_nil, if_true, stalled_nil, same]
      | cons kind rest => rfl

theorem setDirect_direct (d : InodeDisk) (i : Nat) : d.setDirect i (d.direct i) = d := by
  have same : (fun j : Fin DIRECT_BLOCKS_COUNT => if j.val = i then d.direct i else d.directBlocks j) = d.directBlocks := by
    funext j
    split
    · rename_i here
      rw [InodeDisk.direct, dif_pos (here ▸ j.isLt)]
      congr 1
      exact Fin.ext here.symm
    · rfl
  rw [InodeDisk.setDirect, same]

theorem reserveDirect_idle (allocates : Allocates allocate) (count i : Nat) (d : InodeDisk) {s : FlatFs}
    (fine : FreeMapOk s) (bound : i + count ≤ 123) (idle : Idle s (missingDirect d count i)) :
    reserveDirect allocate count i d s = ⟨(missingDirect d count i).isEmpty, d, s⟩ := by
  induction count generalizing i with
  | zero => rfl
  | succ count ih =>
    have rest := ih (i + 1) (by omega) idle.append.2
    rw [reserveDirect, missingDirect, ← direct_eq_entries d (by omega)]
    by_cases null : d.direct i = 0
    · have full : freeSectors s.freeMap = [] := idle.resolve_right (by
        rw [missingDirect, ← direct_eq_entries d (by omega), if_pos null]
        simp)
      have failed : reserveSector allocate s (d.direct i) = ⟨false, d.direct i, s⟩ := by
        rw [reserveSector, if_pos null, (allocates s fine).1 full]
      simp only [failed, if_pos null, setDirect_direct, Bool.false_eq_true, if_false, List.singleton_append,
        List.isEmpty_cons]
    · have mapped : reserveSector allocate s (d.direct i) = ⟨true, d.direct i, s⟩ := by
        rw [reserveSector, if_neg null]
      simp only [mapped, if_neg null, setDirect_direct, if_true, List.nil_append, rest]

theorem stalled_missingDirect (s : FlatFs) (d : InodeDisk) (count i : Nat) : stalled s (missingDirect d count i) = s := by
  have data : ∀ kind ∈ missingDirect d count i, kind = .data := by
    induction count generalizing i with
    | zero => exact fun _ never => by cases never
    | succ count ih =>
      intro kind member
      rw [missingDirect, List.mem_append] at member
      rcases member with here | later
      · split at here
        · exact List.mem_singleton.mp here
        · cases here
      · exact ih (i + 1) kind later
  rw [stalled, if_neg]
  intro index
  cases data _ (List.mem_of_head? index)

theorem inodeReserve_idle (allocates : Allocates allocate) {s : FlatFs} (fine : FreeMapOk s) (d : InodeDisk)
    {length : Int} (nonneg : 0 ≤ length) (idle : Idle s (inodeMissing s.cache d (bytesToSectors length))) :
    inodeReserve allocate s d length = ⟨(inodeMissing s.cache d (bytesToSectors length)).isEmpty &&
      decide (bytesToSectors length ≤ MAX_SECTORS), d, stalled s (inodeMissing s.cache d (bytesToSectors length))⟩ := by
  unfold inodeReserve
  rw [if_neg (by omega)]
  generalize bytesToSectors length = n at idle ⊢
  simp only [DIRECT_BLOCKS_COUNT, INDIRECT_BLOCKS_PER_SECTOR, MAX_SECTORS]
  have indirect : ∀ l e n, l ≤ 2 → 0 < n → Idle s (missing 128 (table s.cache) l e n) →
      inodeReserveIndirect allocate l s e n = ⟨(missing 128 (table s.cache) l e n).isEmpty, e,
        stalled s (missing 128 (table s.cache) l e n)⟩ :=
    fun l e n shallow some idle => inodeReserveIndirect_idle allocates shallow s e n fine idle some
  rw [inodeMissing] at idle ⊢
  rw [reserveDirect_idle allocates (min n 123) 0 d fine (by omega) idle.append.1]
  have single := idle.append.2.append.1
  have double := idle.append.2.append.2
  by_cases noDirect : missingDirect d (min n 123) 0 = []
  · simp only [noDirect, List.isEmpty_nil, Bool.true_eq_false, if_false, List.nil_append]
    by_cases direct : n ≤ 123
    · simp [show n - min n 123 = 0 by omega, show ¬123 < n by omega, show ¬251 < n by omega, show n ≤ 16635 by omega]
    · have more : 123 < n := by omega
      rw [if_pos more] at single ⊢
      rw [if_neg (by omega), show n - min n 123 = n - 123 by omega]
      have one := indirect 1 (d.entries 123) (min (n - 123) 128) (by decide) (by omega) single
      rw [entries_indirect] at one ⊢
      simp only [one]
      by_cases noSingle : missing 128 (table s.cache) 1 d.indirectBlock (min (n - 123) 128) = []
      · simp only [noSingle, List.isEmpty_nil, Bool.true_eq_false, if_false, List.nil_append, stalled_nil]
        by_cases few : n ≤ 251
        · simp [show n - 123 - min (n - 123) 128 = 0 by omega, show ¬251 < n by omega, show n ≤ 16635 by omega]
        · have most : 251 < n := by omega
          rw [if_pos most] at double ⊢
          rw [if_neg (by omega), show n - 123 - min (n - 123) 128 = n - 251 by omega]
          have two := indirect 2 (d.entries 124) (min (n - 251) 16384) (by decide) (by omega) double
          rw [entries_doublyIndirect] at two ⊢
          simp only [two]
          by_cases noDouble : missing 128 (table s.cache) 2 d.doublyIndirectBlock (min (n - 251) 16384) = []
          · have left : n - 251 - min (n - 251) 16384 = 0 ↔ n ≤ 16635 := by omega
            simp [noDouble, left]
          · have part := (isEmpty_append_left noDouble []).2
            simp only [part, if_true, Bool.false_and]
      · obtain ⟨whole, part⟩ := isEmpty_append_left noSingle
          (if 251 < n then missing 128 (table s.cache) 2 (d.entries 124) (min (n - 251) 16384) else [])
        simp only [part, whole, if_true, Bool.false_and, stalled_append s noSingle]
  · obtain ⟨whole, part⟩ := isEmpty_append_left noDirect
      ((if 123 < n then missing 128 (table s.cache) 1 (d.entries 123) (min (n - 123) 128) else []) ++
        if 251 < n then missing 128 (table s.cache) 2 (d.entries 124) (min (n - 251) 16384) else [])
    simp only [part, whole, if_true, Bool.false_and, stalled_append s noDirect, stalled_missingDirect]

end allocator

end ShellOs.FileSystem
