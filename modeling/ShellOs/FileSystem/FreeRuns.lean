import ShellOs.FileSystem.Reserve
import ShellOs.FileSystem.Exhaustion

/-! Runs of free sectors: which one `free_map_allocate` takes, and that `free_map_release` gives it back. -/

namespace ShellOs.FileSystem
open Lib

def FreeRun (b : Bitmap) (cnt i : Nat) : Prop :=
  i + cnt ≤ b.bitCnt ∧ ∀ j, i ≤ j → j < i + cnt → bitmapTest b j = false

def LowestRun (b : Bitmap) (cnt i : Nat) : Prop := FreeRun b cnt i ∧ ∀ k, k < i → ¬FreeRun b cnt k

section scan

variable {b : Bitmap} {cnt i : Nat}

theorem bitmap_ext {c : Bitmap} (size : c.bitCnt = b.bitCnt) (bits : ∀ j, bitmapTest c j = bitmapTest b j) :
    c = b := by
  have words : c.bits = b.bits := by
    funext word
    apply BitVec.eq_of_getLsbD_eq
    intro k small
    have same := bits (64 * word + k)
    rw [bitmapTest_eq, bitmapTest_eq, show (64 * word + k) / 64 = word by omega, Nat.mul_add_mod,
      Nat.mod_eq_of_lt small] at same
    exact same
  cases b
  cases c
  simp only at size words
  rw [size, words]

theorem bitmapContains_false :
    bitmapContains b i cnt true = false ↔ ∀ j, i ≤ j → j < i + cnt → bitmapTest b j = false := by
  rw [bitmapContains, List.any_eq_false]
  constructor
  · intro none j low high
    have clear := none (j - i) (List.mem_range.mpr (by omega))
    rw [Nat.add_sub_cancel' low] at clear
    simpa using clear
  · intro clear j member
    have below := List.mem_range.mp member
    simpa using clear (i + j) (Nat.le_add_right i j) (by omega)

theorem bitmapScan_spec (b : Bitmap) (cnt : Nat) :
    (∃ i, LowestRun b cnt i ∧ bitmapScan b 0 cnt false = i) ∨
      (∀ i, ¬FreeRun b cnt i) ∧ bitmapScan b 0 cnt false = BITMAP_ERROR := by
  rw [bitmapScan]
  by_cases fits : cnt ≤ b.bitCnt
  · rw [if_pos fits]
    simp only [Nat.sub_zero]
    have run : ∀ i, (!bitmapContains b i cnt (!false)) = true ↔
        ∀ j, i ≤ j → j < i + cnt → bitmapTest b j = false := by
      intro i
      rw [Bool.not_false, Bool.not_eq_true', bitmapContains_false]
    cases found : (List.range' 0 (b.bitCnt - cnt + 1)).find? fun i => !bitmapContains b i cnt (!false) with
    | none =>
      rw [List.find?_range'_eq_none] at found
      refine Or.inr ⟨fun i free => ?_, rfl⟩
      have taken := found i (Nat.zero_le i) (by have := free.1; omega)
      rw [(run i).mpr free.2] at taken
      cases taken
    | some i =>
      rw [List.find?_range'_eq_some, run, List.mem_range'_1] at found
      obtain ⟨clear, inside, first⟩ := found
      refine Or.inl ⟨i, ⟨⟨by omega, clear⟩, fun k before free => ?_⟩, rfl⟩
      have taken := first k (Nat.zero_le k) before
      rw [(run k).mpr free.2] at taken
      cases taken
  · rw [if_neg fits]
    exact Or.inr ⟨fun i free => fits (Nat.le_trans (Nat.le_add_left cnt i) free.1), rfl⟩

theorem FreeRun.restored (run : FreeRun b cnt i) :
    bitmapSetMultiple (bitmapSetMultiple b i cnt true) i cnt false = b := by
  have set := bitmapSetMultiple_spec b i cnt true
  have cleared := bitmapSetMultiple_spec (bitmapSetMultiple b i cnt true) i cnt false
  apply bitmap_ext
  · exact cleared.1.trans set.1
  · intro j
    rw [cleared.2]
    split
    next inside => exact (run.2 j inside.1 inside.2).symm
    next outside => rw [set.2, if_neg outside]

end scan

section write

variable {s : FlatFs} {x : BlockSector}

theorem writeChunk_freeMap (s : FlatFs) (sectorIdx : BlockSector) (sectorOfs chunk : Int) (buffer : Nat → Byte)
    (bytesWritten : Int) : (writeChunk s sectorIdx sectorOfs chunk buffer bytesWritten).freeMap = s.freeMap := by
  rw [writeChunk]
  split
  · rfl
  · simp only
    split <;> rfl

theorem inodeWriteLoop_freeMap (s : FlatFs) (inode : BlockSector) (buffer : Nat → Byte)
    (size offset bytesWritten : Int) :
    (inodeWriteLoop s inode buffer size offset bytesWritten).2.freeMap = s.freeMap := by
  fun_induction inodeWriteLoop s inode buffer size offset bytesWritten with
  | case1 s size offset bytesWritten more sectorIdx chunk stop =>
    exact congrArg Fs.freeMap (flat_byteToSector s inode offset)
  | case2 s size offset bytesWritten more sectorIdx sectorOfs chunk go ih =>
    rw [ih, writeChunk_freeMap]
    exact congrArg Fs.freeMap (flat_byteToSector s inode offset)
  | case3 s size offset bytesWritten none => rfl

/-- The file of the free map may not be written, or it has a sector for the last byte of the map. -/
def MapFileReady (s : FlatFs) : Prop := ∀ f, s.freeMapFile = some f → s.inodeDenyWriteCnt f.inode ≠ 0 ∨
  (byteToSector s f.inode (offsetOf (0 + offsetOf (bitmapFileSize s.freeMap) - 1))).1 ≠ NO_SECTOR

theorem bitmapWrite_freeMap (ready : MapFileReady s) {f : File} (opened : s.freeMapFile = some f) :
    (bitmapWrite s f).2.freeMap = s.freeMap := by
  have run : (bitmapWrite s f).2 = (inodeWriteWith (freeMapAllocateWith (inodeWriteDepth (s.freeMap.bitCnt + 1)) 1) s
      f.inode (bitmapBytes s.freeMap) (offsetOf (bitmapFileSize s.freeMap)) 0).2 := rfl
  rw [run, inodeWriteWith]
  rcases ready f opened with denied | inside
  · rw [if_pos denied]
  · split
    · rfl
    · simp only [if_neg inside]
      rw [inodeWriteLoop_freeMap]
      exact congrArg Fs.freeMap (flat_byteToSector s f.inode _)

theorem FreeMapOk.mapFileReady (ok : FreeMapOk s) : MapFileReady s := by
  intro f opened
  have file := ok.file f opened
  have some := byteCnt_pos (Nat.lt_of_le_of_lt (Nat.zero_le _) ok.first.1)
  right
  have fits := file.layout.fits
  have length : s.inodeLength f.inode = (byteCnt s.freeMap.bitCnt : Nat) := file.layout.length
  have last : offsetOf (0 + offsetOf (bitmapFileSize s.freeMap) - 1) =
      ((byteCnt s.freeMap.bitCnt - 1 : Nat) : Int) := by
    simp only [MAX_LENGTH] at fits
    rw [bitmapFileSize, offsetOf_eq (x := (byteCnt s.freeMap.bitCnt : Nat)) (by omega) (by omega),
      offsetOf_eq (by omega) (by omega)]
    omega
  rw [last, byteToSector_blockAt length fits file.layout.mapped (by omega)]
  exact used_ne_noSector ok.small (file.layout.block_used (by omega))

theorem MapFileReady.flipped (ready : MapFileReady s) {b : Bitmap} (size : b.bitCnt = s.freeMap.bitCnt) :
    MapFileReady { s with freeMap := b } := by
  intro f opened
  have look : ∀ pos, (byteToSector { s with freeMap := b } f.inode pos).1 = (byteToSector s f.inode pos).1 :=
    byteToSector_congr rfl rfl
  rw [look]
  have same := ready f opened
  rw [bitmapFileSize, ← size] at same
  exact same

theorem freeMapAllocate_cases (ready : MapFileReady s) {cnt : Nat} (positive : 1 ≤ cnt)
    (small : s.freeMap.bitCnt < 2 ^ 32 - 1) :
    (∃ i t, LowestRun s.freeMap cnt i ∧ freeMapAllocate s cnt = (some (BitVec.ofNat 32 i), t) ∧
      t.freeMap = bitmapSetMultiple s.freeMap i cnt true) ∨
    ∃ t, freeMapAllocate s cnt = (none, t) ∧ t.freeMap = s.freeMap ∧
      ((∀ i, ¬FreeRun s.freeMap cnt i) ∨
        ∃ i f, LowestRun s.freeMap cnt i ∧ s.freeMapFile = some f ∧
          (bitmapWrite { s with freeMap := bitmapSetMultiple s.freeMap i cnt true } f).1 = false) := by
  rcases bitmapScan_spec s.freeMap cnt with ⟨i, lowest, scanned⟩ | ⟨taken, scanned⟩
  · have proper : i ≠ BITMAP_ERROR := by
      have inside := lowest.1.1
      simp only [BITMAP_ERROR]
      omega
    have flip : bitmapScanAndFlip s.freeMap 0 cnt false = (i, bitmapSetMultiple s.freeMap i cnt true) := by
      simp only [bitmapScanAndFlip, scanned]
      exact if_pos proper
    rcases Option.eq_none_or_eq_some s.freeMapFile with opened | ⟨f, opened⟩
    · left
      refine ⟨i, { s with freeMap := bitmapSetMultiple s.freeMap i cnt true }, lowest, ?_, rfl⟩
      simp only [freeMapAllocate, freeMapAllocateWith, flip, if_neg proper, opened]
    · have wrote := bitmapWrite_freeMap (ready.flipped (bitmapSetMultiple_spec s.freeMap i cnt true).1) opened
      have run : freeMapAllocate s cnt =
          if (bitmapWrite { s with freeMap := bitmapSetMultiple s.freeMap i cnt true } f).1 then
            (some (BitVec.ofNat 32 i),
              (bitmapWrite { s with freeMap := bitmapSetMultiple s.freeMap i cnt true } f).2)
          else (none,
            { (bitmapWrite { s with freeMap := bitmapSetMultiple s.freeMap i cnt true } f).2 with
              freeMap := bitmapSetMultiple
                (bitmapWrite { s with freeMap := bitmapSetMultiple s.freeMap i cnt true } f).2.freeMap i cnt false }) := by
        simp only [freeMapAllocate, freeMapAllocateWith, flip, if_neg proper, opened]
        rfl
      cases success : (bitmapWrite { s with freeMap := bitmapSetMultiple s.freeMap i cnt true } f).1 with
      | true =>
        rw [if_pos success] at run
        exact Or.inl ⟨i, _, lowest, run, wrote⟩
      | false =>
        rw [success, if_neg Bool.false_ne_true] at run
        refine Or.inr ⟨_, run, ?_, Or.inr ⟨i, f, lowest, opened, success⟩⟩
        rw [wrote]
        exact lowest.1.restored
  · right
    have flip : bitmapScanAndFlip s.freeMap 0 cnt false = (BITMAP_ERROR, s.freeMap) := by
      simp only [bitmapScanAndFlip, scanned]
      exact if_neg (not_not.mpr rfl)
    refine ⟨s, ?_, rfl, Or.inl taken⟩
    simp only [freeMapAllocate, freeMapAllocateWith, flip]
    rfl

theorem freeMapRelease_freeMap (ready : MapFileReady s) (sector : BlockSector) (cnt : Nat) :
    (freeMapRelease s sector cnt).freeMap = bitmapSetMultiple s.freeMap sector.toNat cnt false := by
  rw [freeMapRelease]
  split
  next => rfl
  next f opened =>
    exact bitmapWrite_freeMap (ready.flipped (bitmapSetMultiple_spec s.freeMap sector.toNat cnt false).1) opened

end write

/-- Allocating takes the lowest run that is long enough and nothing else, and releasing it undoes that; an allocation
fails only for want of a run or because the map cannot be written, and then the map is as it was. -/
def AllocatesLowest (s : Fs BufferCache) (cnt : Nat) : Prop :=
  (∀ x t, freeMapAllocate s cnt = (some x, t) →
    LowestRun s.freeMap cnt x.toNat ∧ t.freeMap.bitCnt = s.freeMap.bitCnt ∧
    (∀ j, bitmapTest t.freeMap j = if x.toNat ≤ j ∧ j < x.toNat + cnt then true else bitmapTest s.freeMap j) ∧
    ∀ u : Fs BufferCache, u.freeMap = t.freeMap → MapFileReady u.flat → (freeMapRelease u x cnt).freeMap = s.freeMap) ∧
  ∀ t, freeMapAllocate s cnt = (none, t) → t.freeMap = s.freeMap ∧
    ((∀ i, ¬FreeRun s.freeMap cnt i) ∨ ∃ i f, LowestRun s.freeMap cnt i ∧ s.freeMapFile = some f ∧
      (bitmapWrite { s with freeMap := bitmapSetMultiple s.freeMap i cnt true } f).1 = false)

/-- `free_map_create` makes the file of the map as long as the map, so that it is `MapFileReady` ever after. -/
theorem freeMapAllocate_takes_lowest (s : Fs BufferCache) {cnt : Nat} (positive : 1 ≤ cnt)
    (small : s.freeMap.bitCnt < 2 ^ 32 - 1) (ready : MapFileReady s.flat) : AllocatesLowest s cnt := by
  have flatten : ∀ r t, freeMapAllocate s cnt = (r, t) → freeMapAllocate s.flat cnt = (r, t.flat) := by
    intro r t run
    rw [← freeMapAllocate_flat, run]
    rfl
  constructor
  · intro x t run
    rcases freeMapAllocate_cases ready positive small with ⟨i, v, lowest, found, set⟩ | ⟨v, failed, -⟩
    · obtain ⟨sector, state⟩ := Prod.mk.inj ((flatten _ t run).symm.trans found)
      have number : x.toNat = i := by
        have inside : i + cnt ≤ s.freeMap.bitCnt := lowest.1.1
        have below : i < 2 ^ 32 := by omega
        rw [Option.some.inj sector, BitVec.toNat_ofNat]
        exact Nat.mod_eq_of_lt below
      have map : t.freeMap = bitmapSetMultiple s.freeMap i cnt true := (congrArg Fs.freeMap state).trans set
      have bits := bitmapSetMultiple_spec s.freeMap i cnt true
      rw [number, map]
      refine ⟨lowest, bits.1, bits.2, fun u same settled => ?_⟩
      have released := freeMapRelease_freeMap settled x cnt
      rw [← freeMapRelease_flat, number] at released
      calc (freeMapRelease u x cnt).freeMap
          = bitmapSetMultiple u.freeMap i cnt false := released
        _ = s.freeMap := by rw [same]; exact lowest.1.restored
    · cases (flatten _ t run).symm.trans failed
  · intro t run
    rcases freeMapAllocate_cases ready positive small with ⟨i, v, lowest, found, -⟩ | ⟨v, failed, kept, why⟩
    · cases (flatten _ t run).symm.trans found
    · obtain ⟨-, state⟩ := Prod.mk.inj ((flatten _ t run).symm.trans failed)
      refine ⟨(congrArg Fs.freeMap state).trans kept, why.imp id ?_⟩
      rintro ⟨i, f, lowest, opened, denied⟩
      refine ⟨i, f, lowest, opened, ?_⟩
      have same := bitmapWrite_flat { s with freeMap := bitmapSetMultiple s.freeMap i cnt true } f
      exact (congrArg Prod.fst same).trans denied

theorem freeMapAllocate_takes_lowest_formatted : AllocatesLowest (formatted 80) 2 := by
  have general : ∀ s : Fs BufferCache, Fresh 80 s.flat → AllocatesLowest s 2 := by
    intro s fresh
    refine freeMapAllocate_takes_lowest s (by decide) ?_ fresh.mounted.dir.fine.mapFileReady
    have bits : s.freeMap.bitCnt = 79 := fresh.bitCnt
    omega
  exact general _ (formatted_fresh (by decide +kernel))

end ShellOs.FileSystem
