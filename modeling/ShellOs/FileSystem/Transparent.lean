import ShellOs.FileSystem.Inode

/-! What the store hides never shows: inode.c and free-map.c do over the buffer cache what they do
over plain sectors. -/

namespace ShellOs.FileSystem
open Lib

variable {σ : Type} [Store σ BlockSector Sector]

def flatten {β : Type} (r : β × Fs σ) : β × FlatFs := (r.1, r.2.flat)

def Outcome.flatten {β : Type} (r : Outcome σ β) : Outcome (BlockSector → Sector) β :=
  ⟨r.ok, r.value, r.fs.flat⟩

@[simp] theorem flatten_mk {β : Type} (b : β) (s : Fs σ) : flatten (b, s) = (b, s.flat) := rfl

@[simp] theorem flatten_fst {β : Type} (r : β × Fs σ) : (flatten r).1 = r.1 := rfl

@[simp] theorem flatten_snd {β : Type} (r : β × Fs σ) : (flatten r).2 = r.2.flat := rfl

@[simp] theorem Outcome.flatten_mk {β : Type} (ok : Bool) (value : β) (s : Fs σ) :
    (Outcome.mk ok value s).flatten = ⟨ok, value, s.flat⟩ := rfl

@[simp] theorem Outcome.flatten_ok {β : Type} (r : Outcome σ β) : r.flatten.ok = r.ok := rfl

@[simp] theorem Outcome.flatten_value {β : Type} (r : Outcome σ β) : r.flatten.value = r.value := rfl

@[simp] theorem Outcome.flatten_fs {β : Type} (r : Outcome σ β) : r.flatten.fs = r.fs.flat := rfl

@[simp] theorem flat_read (s : FlatFs) (sector : BlockSector) :
    s.bufferCacheRead sector = (s.cache sector, s) := rfl

theorem flat_write (s : FlatFs) (sector : BlockSector) (source : Sector) :
    s.bufferCacheWrite sector source =
      { s with cache := Function.update s.cache sector source } := rfl

variable [LawfulStore σ]

theorem indexToSector_flat (s : Fs σ) (d : InodeDisk) (index : Nat) :
    flatten (indexToSector s d index) = indexToSector s.flat d index := by
  unfold indexToSector
  split
  · rfl
  · split
    · simp [flatten]
    · split
      · simp [flatten]
      · rfl

theorem byteToSector_flat (s : Fs σ) (inode : BlockSector) (pos : Int) :
    flatten (byteToSector s inode pos) = byteToSector s.flat inode pos := by
  unfold byteToSector
  rw [Fs.inodeLength_flat, Fs.inodeData_flat]
  split
  · exact indexToSector_flat _ _ _
  · rfl

theorem flat_byteToSector (s : FlatFs) (inode : BlockSector) (pos : Int) :
    (byteToSector s inode pos).2 = s := by
  unfold byteToSector indexToSector
  split
  · split
    · rfl
    · split
      · rfl
      · split <;> rfl
  · rfl

theorem byteToSector_fst (s : Fs σ) (inode : BlockSector) (pos : Int) :
    (byteToSector s inode pos).1 = (byteToSector s.flat inode pos).1 := by
  rw [← byteToSector_flat]
  rfl

theorem byteToSector_snd (s : Fs σ) (inode : BlockSector) (pos : Int) :
    (byteToSector s inode pos).2.flat = s.flat := by
  have same := congrArg Prod.snd (byteToSector_flat s inode pos)
  rw [flat_byteToSector] at same
  exact same

theorem readChunk_flat (s : Fs σ) (sectorIdx : BlockSector) (sectorOfs chunk : Int) :
    flatten (readChunk s sectorIdx sectorOfs chunk) = readChunk s.flat sectorIdx sectorOfs chunk := by
  unfold readChunk
  split <;> simp only [flatten_mk, Fs.read_fst, Fs.read_flat, flat_read]

theorem writeChunk_flat (s : Fs σ) (sectorIdx : BlockSector) (sectorOfs chunk : Int)
    (buffer : Nat → Byte) (bytesWritten : Int) :
    (writeChunk s sectorIdx sectorOfs chunk buffer bytesWritten).flat =
      writeChunk s.flat sectorIdx sectorOfs chunk buffer bytesWritten := by
  unfold writeChunk
  split
  · rw [Fs.write_flat]
  · simp only [Fs.write_flat, flat_read]
    split <;> simp

theorem inodeReadLoop_flat (s : Fs σ) (inode : BlockSector) (size offset : Int)
    (buffer : List Byte) :
    flatten (inodeReadLoop s inode size offset buffer) =
      inodeReadLoop s.flat inode size offset buffer := by
  fun_induction inodeReadLoop s inode size offset buffer with
  | case1 s size offset buffer more sectorIdx chunk stop =>
    rw [inodeReadLoop, if_pos more]
    simp only [Fs.inodeLength_flat, flat_byteToSector]
    rw [if_pos stop, flatten_mk, byteToSector_snd]
  | case2 s size offset buffer more sectorIdx sectorOfs chunk go r ih =>
    have read : flatten r = readChunk sectorIdx.2.flat sectorIdx.1 sectorOfs chunk :=
      readChunk_flat sectorIdx.2 sectorIdx.1 sectorOfs chunk
    rw [byteToSector_snd] at read
    rw [ih, ← flatten_fst, ← flatten_snd, read, inodeReadLoop.eq_def s.flat, if_pos more]
    simp only [Fs.inodeLength_flat, flat_byteToSector]
    rw [if_neg go, byteToSector_fst]
  | case3 s size offset buffer stop =>
    rw [inodeReadLoop, if_neg stop, flatten_mk]

theorem inodeReadAt_flat (s : Fs σ) (inode : BlockSector) (size offset : Int) :
    flatten (inodeReadAt s inode size offset) = inodeReadAt s.flat inode size offset :=
  inodeReadLoop_flat s inode size offset []

theorem inodeWriteLoop_flat (s : Fs σ) (inode : BlockSector) (buffer : Nat → Byte)
    (size offset bytesWritten : Int) :
    flatten (inodeWriteLoop s inode buffer size offset bytesWritten) =
      inodeWriteLoop s.flat inode buffer size offset bytesWritten := by
  fun_induction inodeWriteLoop s inode buffer size offset bytesWritten with
  | case1 s size offset bytesWritten more sectorIdx chunk stop =>
    rw [inodeWriteLoop, if_pos more]
    simp only [Fs.inodeLength_flat, flat_byteToSector]
    rw [if_pos stop, flatten_mk, byteToSector_snd]
  | case2 s size offset bytesWritten more sectorIdx sectorOfs chunk go ih =>
    rw [ih, writeChunk_flat, byteToSector_snd, inodeWriteLoop.eq_def s.flat, if_pos more]
    simp only [Fs.inodeLength_flat, flat_byteToSector]
    rw [if_neg go, byteToSector_fst]
  | case3 s size offset bytesWritten stop =>
    rw [inodeWriteLoop, if_neg stop, flatten_mk]

section reserve

variable {allocate : Fs σ → Option BlockSector × Fs σ}
  {allocateFlat : FlatFs → Option BlockSector × FlatFs}

theorem reserveSector_flat (same : ∀ s, flatten (allocate s) = allocateFlat s.flat) (s : Fs σ)
    (entry : BlockSector) :
    (reserveSector allocate s entry).flatten = reserveSector allocateFlat s.flat entry := by
  unfold reserveSector
  rw [← same]
  split
  · simp only [flatten_fst]
    split <;> simp
  · rfl

theorem obtainIndex_flat (same : ∀ s, flatten (allocate s) = allocateFlat s.flat) (s : Fs σ)
    (entry : BlockSector) :
    flatten (obtainIndex allocate s entry) = obtainIndex allocateFlat s.flat entry := by
  unfold obtainIndex
  rw [← same]
  split <;> simp

omit [LawfulStore σ] in
theorem reserveEntries_flat {reserve : Fs σ → BlockSector → Nat → Outcome σ BlockSector}
    {reserveFlat : FlatFs → BlockSector → Nat → Outcome _ BlockSector}
    (same : ∀ s entry n, (reserve s entry n).flatten = reserveFlat s.flat entry n)
    (unit count i numSectors : Nat) (blocks : Nat → BlockSector) (s : Fs σ) :
    (reserveEntries reserve unit count i numSectors blocks s).flatten =
      reserveEntries reserveFlat unit count i numSectors blocks s.flat := by
  induction count generalizing i numSectors blocks s with
  | zero => rfl
  | succ count ih =>
    simp only [reserveEntries, ← same, Outcome.flatten_ok, Outcome.flatten_value,
      Outcome.flatten_fs]
    split
    · exact ih _ _ _ _
    · rfl

theorem inodeReserveIndirect_flat (same : ∀ s, flatten (allocate s) = allocateFlat s.flat)
    (level : Nat) (s : Fs σ) (entry : BlockSector) (numSectors : Nat) :
    (inodeReserveIndirect allocate level s entry numSectors).flatten =
      inodeReserveIndirect allocateFlat level s.flat entry numSectors := by
  induction level generalizing s entry numSectors with
  | zero => exact reserveSector_flat same s entry
  | succ level ih =>
    simp only [inodeReserveIndirect, ← obtainIndex_flat same, flatten_fst, flatten_snd, flat_read,
      Fs.read_fst]
    generalize obtainIndex allocate s entry = index
    have entries := reserveEntries_flat ih (if level + 1 = 1 then 1 else INDIRECT_BLOCKS_PER_SECTOR)
      (divRoundUp numSectors (if level + 1 = 1 then 1 else INDIRECT_BLOCKS_PER_SECTOR)) 0 numSectors
      (sectorWord (index.2.flat.cache index.1)) (index.2.bufferCacheRead index.1).2
    rw [Fs.read_flat] at entries
    rw [← entries]
    generalize reserveEntries (inodeReserveIndirect allocate level) _ _ _ _ _ _ = r
    cases done : r.ok with
    | true => simp [done]
    | false => simp [done]

theorem reserveDirect_flat (same : ∀ s, flatten (allocate s) = allocateFlat s.flat)
    (count i : Nat) (d : InodeDisk) (s : Fs σ) :
    (reserveDirect allocate count i d s).flatten = reserveDirect allocateFlat count i d s.flat := by
  induction count generalizing i d s with
  | zero => rfl
  | succ count ih =>
    simp only [reserveDirect, ← reserveSector_flat same, Outcome.flatten_ok, Outcome.flatten_value,
      Outcome.flatten_fs]
    split
    · exact ih _ _ _
    · rfl

theorem inodeReserve_flat (same : ∀ s, flatten (allocate s) = allocateFlat s.flat) (s : Fs σ)
    (d : InodeDisk) (length : Int) :
    (inodeReserve allocate s d length).flatten = inodeReserve allocateFlat s.flat d length := by
  unfold inodeReserve
  simp only [← reserveDirect_flat same, ← inodeReserveIndirect_flat same, Outcome.flatten_ok,
    Outcome.flatten_value, Outcome.flatten_fs]
  split
  · rfl
  split
  · rfl
  split
  · rfl
  split
  · rfl
  split
  · rfl
  split <;> rfl

theorem inodeWriteWith_flat (same : ∀ s, flatten (allocate s) = allocateFlat s.flat) (s : Fs σ)
    (inode : BlockSector) (buffer : Nat → Byte) (size offset : Int) :
    flatten (inodeWriteWith allocate s inode buffer size offset) =
      inodeWriteWith allocateFlat s.flat inode buffer size offset := by
  unfold inodeWriteWith
  rw [Fs.inodeDenyWriteCnt_flat]
  split
  · rfl
  · have looked := byteToSector_snd s inode (offsetOf (offset + size - 1))
    simp only [← byteToSector_fst, flat_byteToSector]
    generalize byteToSector s inode (offsetOf (offset + size - 1)) = last at *
    split
    · have reserved := inodeReserve_flat same last.2 (last.2.inodeData inode)
        (offsetOf (offset + size))
      rw [looked] at reserved
      rw [← Fs.inodeData_flat, looked] at reserved ⊢
      generalize inodeReserve allocate last.2 _ (offsetOf (offset + size)) = r at *
      rw [← reserved]
      cases done : r.ok with
      | true => simp [done, inodeWriteLoop_flat]
      | false => simp [done]
    · rw [inodeWriteLoop_flat, looked]

end reserve

section freeMap

variable {write : Fs σ → BlockSector → (Nat → Byte) → Int → Int → Int × Fs σ}
  {writeFlat : FlatFs → BlockSector → (Nat → Byte) → Int → Int → Int × FlatFs}

omit [LawfulStore σ] in
theorem bitmapWriteWith_flat
    (same : ∀ s inode buffer size offset,
      flatten (write s inode buffer size offset) = writeFlat s.flat inode buffer size offset)
    (s : Fs σ) (file : File) :
    flatten (bitmapWriteWith write s file) = bitmapWriteWith writeFlat s.flat file := by
  simp only [bitmapWriteWith, ← same, flatten_mk, flatten_fst, flatten_snd]
  rfl

omit [LawfulStore σ] in
theorem freeMapAllocateWith_flat
    (same : ∀ s inode buffer size offset,
      flatten (write s inode buffer size offset) = writeFlat s.flat inode buffer size offset)
    (cnt : Nat) (s : Fs σ) :
    flatten (freeMapAllocateWith write cnt s) = freeMapAllocateWith writeFlat cnt s.flat := by
  simp only [freeMapAllocateWith]
  rw [show s.flat.freeMap = s.freeMap from rfl, show s.flat.freeMapFile = s.freeMapFile from rfl]
  by_cases full : (bitmapScanAndFlip s.freeMap 0 cnt false).1 = BITMAP_ERROR
  · rw [if_pos full, if_pos full]
    rfl
  · rw [if_neg full, if_neg full]
    cases opened : s.freeMapFile with
    | none => rfl
    | some file =>
      have written := bitmapWriteWith_flat same
        { s with freeMap := (bitmapScanAndFlip s.freeMap 0 cnt false).2 } file
      simp only [Fs.flat, opened] at written ⊢
      rw [← written]
      generalize bitmapWriteWith write _ file = r
      cases done : r.1 <;> simp [done, Fs.flat]

end freeMap

theorem inodeWriteDepth_flat (depth : Nat) (s : Fs σ) (inode : BlockSector) (buffer : Nat → Byte)
    (size offset : Int) :
    flatten (inodeWriteDepth depth s inode buffer size offset) =
      inodeWriteDepth depth s.flat inode buffer size offset := by
  induction depth generalizing s inode buffer size offset with
  | zero => rfl
  | succ depth ih =>
    exact inodeWriteWith_flat (freeMapAllocateWith_flat ih 1) s inode buffer size offset

theorem inodeWriteAt_flat (s : Fs σ) (inode : BlockSector) (buffer : Nat → Byte)
    (size offset : Int) :
    flatten (inodeWriteAt s inode buffer size offset) =
      inodeWriteAt s.flat inode buffer size offset :=
  inodeWriteDepth_flat _ s inode buffer size offset

theorem bitmapWrite_flat (s : Fs σ) (file : File) :
    flatten (bitmapWrite s file) = bitmapWrite s.flat file :=
  bitmapWriteWith_flat inodeWriteAt_flat s file

theorem freeMapAllocate_flat (s : Fs σ) (cnt : Nat) :
    flatten (freeMapAllocate s cnt) = freeMapAllocate s.flat cnt :=
  freeMapAllocateWith_flat inodeWriteAt_flat cnt s

theorem freeMapRelease_flat (s : Fs σ) (sector : BlockSector) (cnt : Nat) :
    (freeMapRelease s sector cnt).flat = freeMapRelease s.flat sector cnt := by
  unfold freeMapRelease
  rw [show s.flat.freeMapFile = s.freeMapFile from rfl]
  split
  · rfl
  · exact congrArg Prod.snd (bitmapWrite_flat _ _)

theorem inodeCreate_flat (s : Fs σ) (sector : BlockSector) (length : Int) (isDir : Bool) :
    flatten (inodeCreate s sector length isDir) = inodeCreate s.flat sector length isDir := by
  have reserved : (inodeReserve (fun s => freeMapAllocate s 1) s (diskInode length isDir)
      (diskInode length isDir).length.toInt).flatten =
        inodeReserve (fun s => freeMapAllocate s 1) s.flat (diskInode length isDir)
          (diskInode length isDir).length.toInt :=
    inodeReserve_flat (fun s => freeMapAllocate_flat s 1) _ _ _
  simp only [inodeCreate, ← reserved]
  generalize inodeReserve _ s _ _ = r
  cases done : r.ok <;> simp [done]

theorem inodeOpen_flat (s : Fs σ) (sector : BlockSector) :
    flatten (inodeOpen s sector) = inodeOpen s.flat sector := by
  unfold inodeOpen
  rw [Fs.findInode_flat]
  split
  · rfl
  · simp only [flatten_mk, flat_read, Fs.read_fst]
    have hidden := Fs.read_flat s sector
    rw [← hidden]
    rfl

omit [LawfulStore σ] in
theorem deallocateEntries_flat {deallocate : Fs σ → BlockSector → Nat → Fs σ}
    {deallocateFlat : FlatFs → BlockSector → Nat → FlatFs}
    (same : ∀ s entry n, (deallocate s entry n).flat = deallocateFlat s.flat entry n)
    (unit count i numSectors : Nat) (blocks : Nat → BlockSector) (s : Fs σ) :
    (deallocateEntries deallocate unit count i numSectors blocks s).flat =
      deallocateEntries deallocateFlat unit count i numSectors blocks s.flat := by
  induction count generalizing i numSectors s with
  | zero => rfl
  | succ count ih => simp only [deallocateEntries, ih, same]

theorem inodeDeallocateIndirect_flat (level : Nat) (s : Fs σ) (entry : BlockSector)
    (numSectors : Nat) :
    (inodeDeallocateIndirect level s entry numSectors).flat =
      inodeDeallocateIndirect level s.flat entry numSectors := by
  induction level generalizing s entry numSectors with
  | zero => exact freeMapRelease_flat s entry 1
  | succ level ih =>
    simp only [inodeDeallocateIndirect, freeMapRelease_flat, deallocateEntries_flat ih, Fs.read_fst,
      Fs.read_flat, flat_read]

theorem deallocateDirect_flat (s : Fs σ) (d : InodeDisk) (l : Nat) :
    (deallocateDirect s d l).flat = deallocateDirect s.flat d l := by
  unfold deallocateDirect
  induction l with
  | zero => rfl
  | succ l ih => simp only [List.range_succ, List.foldl_append, List.foldl_cons, List.foldl_nil,
      freeMapRelease_flat, ih]

theorem inodeDeallocate_flat (s : Fs σ) (d : InodeDisk) :
    (inodeDeallocate s d).flat = inodeDeallocate s.flat d := by
  unfold inodeDeallocate
  split
  · rfl
  · simp only [apply_ite Fs.flat, inodeDeallocateIndirect_flat, deallocateDirect_flat]

theorem inodeClose_flat (s : Fs σ) (inode : BlockSector) :
    (inodeClose s inode).flat = inodeClose s.flat inode := by
  unfold inodeClose
  rw [Fs.findInode_flat]
  split
  · exact Fs.use_flat s inode
  · split
    · split
      · rw [inodeDeallocate_flat, freeMapRelease_flat]
        rfl
      · rfl
    · rfl

omit [LawfulStore σ] in
theorem inodeRemove_flat (s : Fs σ) (inode : BlockSector) :
    (inodeRemove s inode).flat = inodeRemove s.flat inode := rfl

end ShellOs.FileSystem
