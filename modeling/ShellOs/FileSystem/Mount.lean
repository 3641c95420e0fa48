import ShellOs.FileSystem.Creation

/-! Reading the free map back from its file (`free_map_open`, `bitmap_read`). -/

namespace ShellOs.FileSystem
open Lib

theorem getLsbD_lastMask (b : Bitmap) {i : Nat} (inside : i < b.bitCnt) (last : i / 64 = elemCnt b.bitCnt - 1) :
    (lastMask b).getLsbD (i % 64) = true := by
  simp only [elemCnt, divRoundUp, ELEM_BITS] at last
  unfold lastMask ELEM_BITS
  split
  next partly =>
    have small : b.bitCnt % 64 < 64 := Nat.mod_lt _ (by decide)
    have power : 2 ^ (b.bitCnt % 64) < 2 ^ 64 := Nat.pow_lt_pow_right (by decide) small
    have positive : 0 < 2 ^ (b.bitCnt % 64) := Nat.two_pow_pos _
    have shifted : (1#64 <<< (b.bitCnt % 64)).toNat = 2 ^ (b.bitCnt % 64) := by
      rw [BitVec.toNat_shiftLeft, Nat.shiftLeft_eq, show (1#64).toNat = 1 from rfl, Nat.one_mul,
        Nat.mod_eq_of_lt power]
    have value : (1#64 <<< (b.bitCnt % 64) - 1).toNat = 2 ^ (b.bitCnt % 64) - 1 := by
      rw [BitVec.toNat_sub_of_le, shifted]
      · rfl
      · rw [BitVec.le_def, shifted]
        exact positive
    rw [BitVec.getLsbD, value, Nat.testBit_two_pow_sub_one]
    have below : i % 64 < b.bitCnt % 64 := by omega
    simpa using below
  next =>
    rw [BitVec.getLsbD_allOnes]
    simp [Nat.mod_lt]

theorem loadBitmap_spec (b : Bitmap) {bytes : List Byte} (whole : bytes.length = byteCnt b.bitCnt) {i : Nat}
    (inside : i < b.bitCnt) : bitmapTest (loadBitmap b bytes) i = (bytes.getD (i / 8) 0).getLsbD (i % 8) := by
  have below := byte_inside inside
  have word : (overlayBits b bytes (i / 64)).getLsbD (i % 64) = (bytes.getD (i / 8) 0).getLsbD (i % 8) := by
    rw [overlayBits, LittleEndian.wordAt, LittleEndian.getLsbD_ofBytes,
      show 8 * (i / 64) + i % 64 / 8 = i / 8 by omega, show i % 64 % 8 = i % 8 by omega,
      List.getD_eq_getElem?_getD, List.getD_eq_getElem?_getD, List.getElem?_eq_getElem (by omega)]
    simp [Nat.mod_lt]
  rw [bitmapTest_eq, ← word]
  simp only [loadBitmap]
  by_cases last : i / 64 = elemCnt b.bitCnt - 1
  · rw [last, Function.update_self, BitVec.getLsbD_and, getLsbD_lastMask b inside last, Bool.and_true]
  · rw [Function.update_of_ne last]

structure MapStored (v : Disk) (b : Bitmap) : Prop where
  small : b.bitCnt < 2 ^ 32
  first : Used b 0
  layout : Layout v b (InodeDisk.decode (v 0)) (byteCnt b.bitCnt)
  bits : ∀ i, i < b.bitCnt → (byteAt v (InodeDisk.decode (v 0)) (i / 8)).getLsbD (i % 8) = bitmapTest b i

def SameBits (b b' : Bitmap) : Prop := b'.bitCnt = b.bitCnt ∧ ∀ i, i < b.bitCnt → bitmapTest b' i = bitmapTest b i

theorem SameBits.used {b b' : Bitmap} (same : SameBits b b') (x : BlockSector) : Used b' x ↔ Used b x := by
  unfold Used
  rw [same.1]
  constructor <;> rintro ⟨inside, set⟩ <;> refine ⟨inside, ?_⟩
  · rw [← same.2 _ inside]
    exact set
  · rw [same.2 _ inside]
    exact set

theorem SameBits.free {b b' : Bitmap} (same : SameBits b b') : freeSectors b' = freeSectors b := by
  unfold freeSectors freeBits
  rw [same.1]
  refine congrArg _ (List.filter_congr fun i member => ?_)
  rw [same.2 i (List.mem_range.mp member)]

theorem freeMapOpen_spec {s : FlatFs} {b : Bitmap} (stored : MapStored s.cache b)
    (size : s.freeMap.bitCnt = b.bitCnt) (unlisted : s.findInode 0 = none) :
    ∃ b', SameBits b b' ∧ freeMapOpen s = { s with
      freeMap := b'
      freeMapFile := some (fileOpen FREE_MAP_SECTOR)
      openInodes := ⟨s.nextAddr, 0, 1, false, 0, InodeDisk.decode (s.cache 0)⟩ :: s.openInodes
      nextAddr := s.nextAddr + 1 } := by
  have fits := stored.layout.fits
  simp only [MAX_LENGTH] at fits
  have some : 0 < s.freeMap.bitCnt := by
    rw [size]
    exact Nat.zero_lt_of_lt stored.first.1
  let t : FlatFs := { s with
    freeMapFile := Option.some (fileOpen FREE_MAP_SECTOR)
    openInodes := ⟨s.nextAddr, 0, 1, false, 0, InodeDisk.decode (s.cache 0)⟩ :: s.openInodes
    nextAddr := s.nextAddr + 1 }
  have opened : openFreeMapFile s = t := by
    simp only [openFreeMapFile, inodeOpen, unlisted]
    rfl
  have data : t.inodeData 0 = InodeDisk.decode (s.cache 0) := by
    simp [t, Fs.inodeData, Fs.findInode]
  have length : t.inodeLength 0 = (byteCnt b.bitCnt : Nat) := by
    rw [Fs.inodeLength, data]
    exact stored.layout.length
  have read := inodeReadAt_spec length stored.layout.fits (by rw [data]; exact stored.layout.mapped)
    (byteCnt b.bitCnt) 0
  rw [data, Nat.sub_zero, Nat.min_self] at read
  have whole : (content t.cache (InodeDisk.decode (s.cache 0)) 0 (byteCnt b.bitCnt)).length =
      byteCnt s.freeMap.bitCnt := by simp [content, size]
  refine ⟨loadBitmap s.freeMap (content t.cache (InodeDisk.decode (s.cache 0)) 0 (byteCnt b.bitCnt)),
    ⟨size, fun i inside => ?_⟩, ?_⟩
  · have below := byte_inside inside
    rw [loadBitmap_spec _ whole (size ▸ inside), ← stored.bits i inside, List.getD_eq_getElem?_getD,
      getElem?_content, if_pos below, Nat.zero_add, Option.getD_some]
  · have bytes : offsetOf (byteCnt s.freeMap.bitCnt) = (byteCnt b.bitCnt : Nat) := by
      rw [size, offsetOf_eq (by omega) (by omega)]
    have run : inodeReadAt t (fileOpen FREE_MAP_SECTOR).inode (offsetOf (byteCnt t.freeMap.bitCnt)) 0 =
        (content t.cache (InodeDisk.decode (s.cache 0)) 0 (byteCnt b.bitCnt), t) := Eq.trans (by rw [bytes]; rfl) read
    rw [freeMapOpen, opened, bitmapRead, if_pos some]
    simp only [run]
    rfl

/-- The free map of a disk has been read into a file system on which nothing is open. -/
structure Remounted (s : FlatFs) (b : Bitmap) (t : FlatFs) : Prop where
  cache : t.cache = s.cache
  bits : SameBits b t.freeMap
  file : t.freeMapFile = some (fileOpen FREE_MAP_SECTOR)
  inodes : t.openInodes = [⟨s.nextAddr, 0, 1, false, 0, InodeDisk.decode (s.cache 0)⟩]
  cwd : t.cwd = s.cwd
  fileTable : t.fileTable = s.fileTable
  freed : t.usedFreed = s.usedFreed
  fine : FreeMapOk t
  nodes : freeMapNodes t = inodeNodes s.cache (InodeDisk.decode (s.cache 0))
  synced : Synced t

theorem freeMapOpen_remounted {s : FlatFs} {b : Bitmap} (stored : MapStored s.cache b)
    (size : s.freeMap.bitCnt = b.bitCnt) (closed : s.openInodes = []) : Remounted s b (freeMapOpen s) := by
  have unlisted : s.findInode 0 = none := by rw [Fs.findInode, closed]; rfl
  obtain ⟨b', bits, run⟩ := freeMapOpen_spec stored size unlisted
  rw [run, closed]
  set t : FlatFs := { s with
    freeMap := b'
    freeMapFile := some (fileOpen FREE_MAP_SECTOR)
    openInodes := [⟨s.nextAddr, 0, 1, false, 0, InodeDisk.decode (s.cache 0)⟩]
    nextAddr := s.nextAddr + 1 } with next
  have data : t.inodeData 0 = InodeDisk.decode (s.cache 0) := by simp [next, Fs.inodeData, Fs.findInode]
  refine ⟨rfl, bits, rfl, rfl, rfl, rfl, rfl, ⟨bits.1 ▸ stored.small, (bits.used 0).mpr stored.first, fun f same => ?_⟩, ?_,
    fun f same i inside => ?_⟩
  · obtain rfl := Option.some.inj same
    refine ⟨rfl, rfl, ?_⟩
    change Layout s.cache b' (t.inodeData 0) (byteCnt b'.bitCnt)
    rw [data, bits.1]
    exact stored.layout.congr (fun _ _ => rfl) fun z member => (bits.used z).mpr (stored.layout.used z member)
  · rw [freeMapNodes_open (f := fileOpen FREE_MAP_SECTOR) rfl]
    change inodeNodes s.cache (t.inodeData 0) = _
    rw [data]
  · obtain rfl := Option.some.inj same
    change (byteAt s.cache (t.inodeData 0) (i / 8)).getLsbD (i % 8) = bitmapTest b' i
    have inside : i < b.bitCnt := bits.1 ▸ inside
    rw [data, stored.bits i inside, bits.2 i inside]

theorem Remounted.fileAt {s t u : FlatFs} {b : Bitmap} {x : BlockSector} (mounted : Remounted s b t) (file : FileAt u x)
    (cache : u.cache = s.cache) (used : ∀ z, Used u.freeMap z → Used b z) (nodes : freeMapNodes u = freeMapNodes t) :
    FileAt t x ∧ (sectorsOf t x).Sublist (sectorsOf u x) ∧ contents t x = contents u x ∧
      t.inodeLength x = u.inodeLength x := by
  refine file.still (fun z _ => by rw [mounted.cache, cache])
    (fun z member => (mounted.bits.used z).mpr (used z (file.own.used z member))) nodes.symm (Or.inr ?_)
  have absent : t.findInode x = none := by
    rw [Fs.findInode, mounted.inodes, List.find?_eq_none]
    intro i member same
    rw [List.mem_singleton.mp member] at same
    have zero : (0 : BlockSector) = x := by simpa using same
    exact file.nonzero zero.symm
  rw [cache, ← mounted.cache]
  simp only [Fs.inodeData, absent]
  rfl

end ShellOs.FileSystem
