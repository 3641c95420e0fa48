import ShellOs.FileSystem.Inverse
import ShellOs.FileSystem.OpenFiles

/-! How many sectors a file of a given size takes, and how many are free. -/

namespace ShellOs.FileSystem
open Lib BlockTree SlotMap

def indexSectors (d : Nat) : Nat := if d ≤ 123 then 0 else if d ≤ 251 then 1 else 2 + (d - 251 + 127) / 128

theorem missingDirect_empty (count i : Nat) : (missingDirect InodeDisk.empty count i).length = count := by
  induction count generalizing i with
  | zero => rfl
  | succ count ih =>
    rw [missingDirect, if_pos (empty_entries i), List.length_append, ih, List.length_singleton, Nat.add_comm]

section trees

variable (table : BlockSector → Nat → BlockSector)

theorem missing_single (n : Nat) : (missing 128 table 1 0 n).length = 1 + n := by
  have row : ∀ count i n, (missingRow 128 table 0 count i n fun _ => 0).length = count := by
    intro count
    induction count with
    | zero => exact fun _ _ => rfl
    | succ count ih =>
      intro i n
      rw [missingRow, List.length_append, ih, missing, if_pos rfl, List.length_singleton, Nat.add_comm]
  rw [missing_succ, if_pos rfl, if_pos rfl, List.length_append, row, List.length_singleton, Nat.pow_zero, Nat.div_one,
    Nat.add_sub_cancel]

theorem missing_double (n : Nat) : (missing 128 table 2 0 n).length = 1 + (n + 127) / 128 + n := by
  have row : ∀ count i n, n ≤ 128 * count → (missingRow 128 table 1 count i n fun _ => 0).length = count + n := by
    intro count
    induction count with
    | zero =>
      intro i n few
      obtain rfl : n = 0 := by omega
      rfl
    | succ count ih =>
      intro i n few
      rw [missingRow, List.length_append, ih _ _ (by omega), missing_single]
      omega
  rw [missing_succ, if_pos rfl, if_pos rfl, List.length_append, row _ _ _ (by omega), List.length_singleton]
  omega

end trees

theorem inodeMissing_empty {d : Nat} (few : d ≤ MAX_SECTORS) :
    (inodeMissing (fun _ => zeros) InodeDisk.empty d).length = d + indexSectors d := by
  simp only [MAX_SECTORS] at few
  rw [inodeMissing, List.length_append, List.length_append, missingDirect_empty, indexSectors, empty_entries, empty_entries]
  by_cases direct : d ≤ 123
  · rw [if_neg (by omega), if_neg (by omega), if_pos direct, List.length_nil]
    omega
  · by_cases indirect : d ≤ 251
    · rw [if_pos (by omega), if_neg (by omega), if_neg direct, if_pos indirect, List.length_nil, missing_single]
      omega
    · rw [if_pos (by omega), if_pos (by omega), if_neg direct, if_neg indirect, missing_single, missing_double]
      omega

theorem createNeeds_length {size : Nat} (small : size < 2 ^ 31) (few : (size + 511) / 512 ≤ MAX_SECTORS) :
    (createNeeds size).length = (size + 511) / 512 + indexSectors ((size + 511) / 512) := by
  simp only [MAX_SECTORS] at few
  rw [createNeeds, offsetOf_eq (by omega) (by omega), if_neg (by omega), bytesToSectors_eq (by omega)]
  exact inodeMissing_empty (by simp only [MAX_SECTORS]; omega)

theorem sizeOk_iff {size : Nat} (small : size < 2 ^ 31) : SizeOk size ↔ (size + 511) / 512 ≤ MAX_SECTORS := by
  rw [SizeOk, offsetOf_eq (by omega) (by omega)]
  constructor
  · rintro ⟨-, few⟩
    rw [← (fits_of_sectors small few).2]
    exact few
  · intro few
    refine ⟨by omega, ?_⟩
    simp only [MAX_SECTORS] at few
    rw [bytesToSectors_eq (by omega)]
    exact few

theorem numFreeSectors_eq {σ : Type} [Store σ BlockSector Sector] (s : Fs σ) :
    numFreeSectors s = (freeSectors s.flat.freeMap).length := by
  show _ = (freeSectors s.freeMap).length
  rw [numFreeSectors, bitmapCount, freeSectors, List.length_map, freeBits, List.countP_eq_length_filter, bitmapSize]
  congr 1
  apply List.filter_congr
  intro i _
  rw [Nat.zero_add]
  cases bitmapTest s.freeMap i <;> rfl

theorem numFreeSectors_int {s : FlatFs} {n : Nat} (mounted : Mounted s n) :
    offsetOf (numFreeSectors s) = numFreeSectors s := by
  obtain ⟨f, opened, -⟩ := mounted.map
  have fits := (mounted.dir.fine.file f opened).layout.fits
  have count : numFreeSectors s ≤ s.freeMap.bitCnt := by
    rw [numFreeSectors_eq, freeSectors, List.length_map, freeBits, Fs.flat_flat]
    exact (List.length_filter_le _ _).trans (List.length_range).le
  simp only [byteCnt, elemCnt, divRoundUp, ELEM_BITS, MAX_LENGTH] at fits
  exact offsetOf_eq (by omega) (by omega)

/-- A file can be created exactly if there is room for its inode, its data and its index sectors, and takes these. -/
theorem filesysCreate_room (s : Fs BufferCache) {n size : Nat} (mounted : Mounted s.flat n) {name : CString}
    (named : NameOk name) (flat : slash ∉ name) (absent : name ∉ keys (rootSlots s.flat))
    (room : freeSlot (rootSlots s.flat) < (rootSlots s.flat).length) (small : size < 2 ^ 31) :
    let d := (size + 511) / 512
    let r := filesysCreate s name size false
    (r.1 = true ↔ d ≤ 16635 ∧ 1 + d + indexSectors d ≤ numFreeSectors s) ∧
      (r.1 = true → numFreeSectors r.2 + (1 + d + indexSectors d) = numFreeSectors s) := by
  intro d r
  obtain ⟨new, creation⟩ := filesysCreate_creation mounted name size
  rw [splitPathFilename_name (List.ne_nil_of_length_pos named.1) flat] at creation
  have count : numFreeSectors s = (freeSectors s.flat.freeMap).length := numFreeSectors_eq s
  have countAfter : numFreeSectors r.2 = (freeSectors r.2.flat.freeMap).length := numFreeSectors_eq r.2
  have missing := createMissing_room mounted room name size
  have needs : d ≤ 16635 → (createMissing s.flat name size).length = 1 + d + indexSectors d := by
    intro few
    rw [missing, List.length_cons, createNeeds_length small few]
    show d + indexSectors d + 1 = _
    omega
  have sized : SizeOk size ↔ d ≤ 16635 := sizeOk_iff small
  have done : r.1 = true ↔ d ≤ 16635 ∧ 1 + d + indexSectors d ≤ numFreeSectors s := by
    rw [creation.done, CreateFits, sized, count]
    constructor
    · rintro ⟨few, -, -, -, enough⟩
      exact ⟨few, needs few ▸ enough⟩
    · rintro ⟨few, enough⟩
      exact ⟨few, named, absent, Or.inl (freeSlot_inside mounted room), (needs few).symm ▸ enough⟩
  refine ⟨done, fun made => ?_⟩
  obtain ⟨few, enough⟩ := done.mp made
  obtain ⟨x, file, root, -, free, -⟩ := creation.made made
  have taken := congrArg List.length creation.taken
  have split : (freeSectors s.flat.freeMap).length = new.length + (freeSectors r.2.flat.freeMap).length := by
    rw [← List.length_append]
    exact congrArg List.length free
  rw [List.length_take, needs few] at taken
  rw [count] at enough ⊢
  rw [countAfter]
  omega

theorem filesysCreate_room_formatted : numFreeSectors (filesysCreate (formatted 80) [97] 512 false).2 + 2 = 5 := by
  have fresh := formatted_fresh (show FormatFits 80 by decide +kernel)
  have free : numFreeSectors (formatted 80) = 5 := by
    rw [numFreeSectors_eq, fresh.free_length]
    decide +kernel
  have needs : 1 + (512 + 511) / 512 + indexSectors ((512 + 511) / 512) = 2 := by decide
  -- The state is kept a variable, so that nothing evaluates it.
  have drops : ∀ s : Fs BufferCache, Fresh 80 s.flat → numFreeSectors s = 5 →
      numFreeSectors (filesysCreate s [97] 512 false).2 + 2 = 5 := by
    intro s fresh free
    have room := @filesysCreate_room s _ 512 fresh.mounted [97] (by decide) (by decide) (fresh.absent _) fresh.room
      (by decide)
    simp only [Nat.cast_ofNat] at room
    rw [free, needs] at room
    exact room.2 (room.1.mpr ⟨by decide, by decide⟩)
  exact drops _ fresh free

end ShellOs.FileSystem
