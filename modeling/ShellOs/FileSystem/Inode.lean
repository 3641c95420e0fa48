import ShellOs.FileSystem.State

/-! Inodes, the free map and the part of file.c between them (inode.c, free-map.c).

`inode_write_at` may extend its file, for which it allocates sectors, for which it writes the
free-map file with `inode_write_at` again. Each turn of that recursion has first marked one more
bit, so it is at most `bit_cnt` deep, and the depth is what the definitions recurse on.
`ASSERT` and `PANIC` print a line and return, so they leave no trace here. -/

namespace ShellOs.FileSystem
open Lib

variable {σ : Type} [Store σ BlockSector Sector]

/-- What a function that fills in `value` and returns `ok` leaves behind. -/
structure Outcome (σ β : Type) where
  ok : Bool
  value : β
  fs : Fs σ

def bytesToSectors (size : Int) : Nat :=
  (((offsetOf (size + BLOCK_SECTOR_SIZE - 1)).tdiv BLOCK_SECTOR_SIZE) % 2 ^ 64).toNat

/-- The sector number that `-1` becomes. -/
abbrev NO_SECTOR : BlockSector := BitVec.allOnes 32

def indexToSector (s : Fs σ) (d : InodeDisk) (index : Nat) : BlockSector × Fs σ :=
  if index < DIRECT_BLOCKS_COUNT then (d.direct index, s)
  else if index < DIRECT_BLOCKS_COUNT + INDIRECT_BLOCKS_PER_SECTOR then
    let r := s.bufferCacheRead d.indirectBlock
    (sectorWord r.1 (index - DIRECT_BLOCKS_COUNT), r.2)
  else if index < DIRECT_BLOCKS_COUNT + INDIRECT_BLOCKS_PER_SECTOR +
      INDIRECT_BLOCKS_PER_SECTOR * INDIRECT_BLOCKS_PER_SECTOR then
    let base := DIRECT_BLOCKS_COUNT + INDIRECT_BLOCKS_PER_SECTOR
    let first := s.bufferCacheRead d.doublyIndirectBlock
    let second := first.2.bufferCacheRead
      (sectorWord first.1 ((index - base) / INDIRECT_BLOCKS_PER_SECTOR))
    (sectorWord second.1 ((index - base) % INDIRECT_BLOCKS_PER_SECTOR), second.2)
  else (NO_SECTOR, s)

def byteToSector (s : Fs σ) (inode : BlockSector) (pos : Int) : BlockSector × Fs σ :=
  if 0 ≤ pos ∧ pos < s.inodeLength inode then
    indexToSector s (s.inodeData inode) (pos / BLOCK_SECTOR_SIZE).toNat
  else (NO_SECTOR, s)

/-- The byte at an offset of a 512-byte buffer, which may lie outside of it. -/
def bufferByte (b : Sector) (i : Int) : Byte := if 0 ≤ i then sectorByte b i.toNat else 0

/-- How many bytes a transfer of `size` bytes moves within the sector at `offset`. -/
def chunkSize (length size offset : Int) : Int :=
  let inodeLeft := length - offset
  let sectorLeft := BLOCK_SECTOR_SIZE - offset.tmod BLOCK_SECTOR_SIZE
  let minLeft := if inodeLeft < sectorLeft then inodeLeft else sectorLeft
  if size < minLeft then size else minLeft

def readChunk (s : Fs σ) (sectorIdx : BlockSector) (sectorOfs chunk : Int) : List Byte × Fs σ :=
  let r := s.bufferCacheRead sectorIdx
  if sectorOfs = 0 ∧ chunk = BLOCK_SECTOR_SIZE then (List.ofFn r.1, r.2)
  else ((List.range chunk.toNat).map fun i : Nat => bufferByte r.1 (sectorOfs + i), r.2)

/-- The loop of `inode_read_at`; `buffer` is what has been read so far. -/
def inodeReadLoop (s : Fs σ) (inode : BlockSector) (size offset : Int) (buffer : List Byte) :
    List Byte × Fs σ :=
  if 0 < size then
    let sectorIdx := byteToSector s inode offset
    let sectorOfs := offset.tmod BLOCK_SECTOR_SIZE
    let chunk := chunkSize (s.inodeLength inode) size offset
    if chunk ≤ 0 then (buffer, sectorIdx.2)
    else
      let r := readChunk sectorIdx.2 sectorIdx.1 sectorOfs chunk
      inodeReadLoop r.2 inode (size - chunk) (offset + chunk) (buffer ++ r.1)
  else (buffer, s)
termination_by size.toNat
decreasing_by omega

/-- Reads `size` bytes at `offset`; the number of bytes read is the length of the list. -/
def inodeReadAt (s : Fs σ) (inode : BlockSector) (size offset : Int) : List Byte × Fs σ :=
  inodeReadLoop s inode size offset []

/-- One turn of `inode_write_at`: a whole sector goes out as it is, a part of one through the
bounce buffer. -/
def writeChunk (s : Fs σ) (sectorIdx : BlockSector) (sectorOfs chunk : Int) (buffer : Nat → Byte)
    (bytesWritten : Int) : Fs σ :=
  if sectorOfs = 0 ∧ chunk = BLOCK_SECTOR_SIZE then
    s.bufferCacheWrite sectorIdx fun i => buffer (bytesWritten.toNat + i.val)
  else
    let sectorLeft := BLOCK_SECTOR_SIZE - sectorOfs
    let bounce := if 0 < sectorOfs ∨ chunk < sectorLeft then s.bufferCacheRead sectorIdx else (zeros, s)
    bounce.2.bufferCacheWrite sectorIdx fun i =>
      if sectorOfs ≤ i.val ∧ i.val < sectorOfs + chunk then
        buffer (bytesWritten + (i.val - sectorOfs)).toNat
      else bounce.1 i

/-- The loop of `inode_write_at`; `buffer` is the memory at the caller's buffer. -/
def inodeWriteLoop (s : Fs σ) (inode : BlockSector) (buffer : Nat → Byte)
    (size offset bytesWritten : Int) : Int × Fs σ :=
  if 0 < size then
    let sectorIdx := byteToSector s inode offset
    let sectorOfs := offset.tmod BLOCK_SECTOR_SIZE
    let chunk := chunkSize (s.inodeLength inode) size offset
    if chunk ≤ 0 then (bytesWritten, sectorIdx.2)
    else
      inodeWriteLoop (writeChunk sectorIdx.2 sectorIdx.1 sectorOfs chunk buffer bytesWritten) inode
        buffer (size - chunk) (offset + chunk) (bytesWritten + chunk)
  else (bytesWritten, s)
termination_by size.toNat
decreasing_by omega

section reserve

-- `free_map_allocate (1, p)`: the sector stored at `p`, if there was one
variable (allocate : Fs σ → Option BlockSector × Fs σ)

def reserveSector (s : Fs σ) (entry : BlockSector) : Outcome σ BlockSector :=
  if entry = 0 then
    let r := allocate s
    match r.1 with
    | none => ⟨false, entry, r.2⟩
    | some sector => ⟨true, sector, r.2.bufferCacheWrite sector zeros⟩
  else ⟨true, entry, s⟩

/-- The loop over the entries `i, i + 1, ...` of an index block: each gets its share, at most
`unit`, of the `numSectors` sectors that are left. -/
def reserveEntries (reserve : Fs σ → BlockSector → Nat → Outcome σ BlockSector) (unit : Nat) :
    Nat → Nat → Nat → (Nat → BlockSector) → Fs σ → Outcome σ (Nat → BlockSector)
  | 0, _, _, blocks, s => ⟨true, blocks, s⟩
  | count + 1, i, numSectors, blocks, s =>
    let subsize := min numSectors unit
    let r := reserve s (blocks i) subsize
    let blocks := Function.update blocks i r.value
    if r.ok then reserveEntries reserve unit count (i + 1) (numSectors - subsize) blocks r.fs
    else ⟨false, blocks, r.fs⟩

/-- An index block is put into an empty entry without a look at whether one was found. -/
def obtainIndex (s : Fs σ) (entry : BlockSector) : BlockSector × Fs σ :=
  if entry = 0 then
    let r := allocate s
    let entry := r.1.getD entry
    (entry, r.2.bufferCacheWrite entry zeros)
  else (entry, s)

def inodeReserveIndirect : Nat → Fs σ → BlockSector → Nat → Outcome σ BlockSector
  | 0, s, entry, _ => reserveSector allocate s entry
  | level + 1, s, entry, numSectors =>
    let index := obtainIndex allocate s entry
    let block := index.2.bufferCacheRead index.1
    let unit := if level + 1 = 1 then 1 else INDIRECT_BLOCKS_PER_SECTOR
    let r := reserveEntries (inodeReserveIndirect level) unit (divRoundUp numSectors unit) 0
      numSectors (sectorWord block.1) block.2
    if r.ok then ⟨true, index.1, r.fs.bufferCacheWrite index.1 (sectorOfWords r.value)⟩
    else ⟨false, index.1, r.fs⟩

def reserveDirect : Nat → Nat → InodeDisk → Fs σ → Outcome σ InodeDisk
  | 0, _, d, s => ⟨true, d, s⟩
  | count + 1, i, d, s =>
    let r := reserveSector allocate s (d.direct i)
    let d := d.setDirect i r.value
    if r.ok then reserveDirect count (i + 1) d r.fs else ⟨false, d, r.fs⟩

def inodeReserve (s : Fs σ) (d : InodeDisk) (length : Int) : Outcome σ InodeDisk :=
  if length < 0 then ⟨false, d, s⟩
  else
    let numSectors := bytesToSectors length
    -- (1) direct blocks
    let l := min numSectors DIRECT_BLOCKS_COUNT
    let r := reserveDirect allocate l 0 d s
    if r.ok = false then r
    else
      let numSectors := numSectors - l
      if numSectors = 0 then r
      else
        -- (2) a single indirect block
        let l := min numSectors INDIRECT_BLOCKS_PER_SECTOR
        let r₁ := inodeReserveIndirect allocate 1 r.fs r.value.indirectBlock l
        let d := { r.value with indirectBlock := r₁.value }
        if r₁.ok = false then ⟨false, d, r₁.fs⟩
        else
          let numSectors := numSectors - l
          if numSectors = 0 then ⟨true, d, r₁.fs⟩
          else
            -- (3) a single doubly indirect block
            let l := min numSectors (INDIRECT_BLOCKS_PER_SECTOR * INDIRECT_BLOCKS_PER_SECTOR)
            let r₂ := inodeReserveIndirect allocate 2 r₁.fs d.doublyIndirectBlock l
            let d := { d with doublyIndirectBlock := r₂.value }
            if r₂.ok = false then ⟨false, d, r₂.fs⟩
            else ⟨numSectors - l = 0, d, r₂.fs⟩

def inodeWriteWith (s : Fs σ) (inode : BlockSector) (buffer : Nat → Byte) (size offset : Int) :
    Int × Fs σ :=
  if s.inodeDenyWriteCnt inode ≠ 0 then (0, s)
  else
    let last := byteToSector s inode (offsetOf (offset + size - 1))
    if last.1 = NO_SECTOR then
      let length := offsetOf (offset + size)
      let r := inodeReserve allocate last.2 (last.2.inodeData inode) length
      if r.ok = false then (0, r.fs.setInodeData inode r.value)
      else
        let d := { r.value with length := BitVec.ofInt 32 length }
        let extended := (r.fs.setInodeData inode d).bufferCacheWrite inode d.encode
        inodeWriteLoop extended inode buffer size offset 0
    else inodeWriteLoop last.2 inode buffer size offset 0

end reserve

section freeMap

-- `inode_write_at`
variable (write : Fs σ → BlockSector → (Nat → Byte) → Int → Int → Int × Fs σ)

def bitmapWriteWith (s : Fs σ) (file : File) : Bool × Fs σ :=
  let size := offsetOf (bitmapFileSize s.freeMap)
  let r := write s file.inode (bitmapBytes s.freeMap) size 0
  (r.1 = size, r.2)

def freeMapAllocateWith (cnt : Nat) (s : Fs σ) : Option BlockSector × Fs σ :=
  let scan := bitmapScanAndFlip s.freeMap 0 cnt false
  let flipped := { s with freeMap := scan.2 }
  if scan.1 = BITMAP_ERROR then (none, flipped)
  else match s.freeMapFile with
    | none => (some (BitVec.ofNat 32 scan.1), flipped)
    | some file =>
      let r := bitmapWriteWith write flipped file
      if r.1 then (some (BitVec.ofNat 32 scan.1), r.2)
      else (none, { r.2 with freeMap := bitmapSetMultiple r.2.freeMap scan.1 cnt false })

end freeMap

/-- `inode_write_at` with the free-map file written at most `depth` deep inside it. -/
def inodeWriteDepth : Nat → Fs σ → BlockSector → (Nat → Byte) → Int → Int → Int × Fs σ
  | 0, s, _, _, _, _ => (0, s)
  | depth + 1, s, inode, buffer, size, offset =>
    inodeWriteWith (freeMapAllocateWith (inodeWriteDepth depth) 1) s inode buffer size offset

def inodeWriteAt (s : Fs σ) (inode : BlockSector) (buffer : Nat → Byte) (size offset : Int) :
    Int × Fs σ :=
  inodeWriteDepth (s.freeMap.bitCnt + 2) s inode buffer size offset

def bitmapWrite (s : Fs σ) (file : File) : Bool × Fs σ := bitmapWriteWith inodeWriteAt s file

def freeMapAllocate (s : Fs σ) (cnt : Nat) : Option BlockSector × Fs σ :=
  freeMapAllocateWith inodeWriteAt cnt s

def freeMapRelease (s : Fs σ) (sector : BlockSector) (cnt : Nat) : Fs σ :=
  let cleared := { s with freeMap := bitmapSetMultiple s.freeMap sector.toNat cnt false }
  match s.freeMapFile with
  | none => cleared
  | some file => (bitmapWrite cleared file).2

def numFreeSectors (s : Fs σ) : Nat := bitmapCount s.freeMap 0 (bitmapSize s.freeMap) false

def diskInode (length : Int) (isDir : Bool) : InodeDisk :=
  { InodeDisk.empty with
    length := BitVec.ofInt 32 length
    magic := INODE_MAGIC
    isDirWord := if isDir then 1 else 0 }

def inodeCreate (s : Fs σ) (sector : BlockSector) (length : Int) (isDir : Bool) : Bool × Fs σ :=
  let d := diskInode length isDir
  let r := inodeReserve (fun s => freeMapAllocate s 1) s d d.length.toInt
  if r.ok then (true, r.fs.bufferCacheWrite sector r.value.encode) else (false, r.fs)

/-- `inode_reopen` returns its argument and counts nothing. -/
def inodeReopen (s : Fs σ) (inode : Inode) : Inode × Fs σ := (inode, s)

def inodeOpen (s : Fs σ) (sector : BlockSector) : Inode × Fs σ :=
  match s.findInode sector with
  | some inode => inodeReopen s inode
  | none =>
    let r := s.bufferCacheRead sector
    let inode := ⟨s.nextAddr, sector, 1, false, 0, InodeDisk.decode r.1⟩
    (inode, { r.2 with openInodes := inode :: r.2.openInodes, nextAddr := s.nextAddr + 1 })

/-- The loop over the entries of an index block in `inode_deallocate_indirect`. -/
def deallocateEntries (deallocate : Fs σ → BlockSector → Nat → Fs σ) (unit : Nat) :
    Nat → Nat → Nat → (Nat → BlockSector) → Fs σ → Fs σ
  | 0, _, _, _, s => s
  | count + 1, i, numSectors, blocks, s =>
    let subsize := min numSectors unit
    deallocateEntries deallocate unit count (i + 1) (numSectors - subsize) blocks
      (deallocate s (blocks i) subsize)

def inodeDeallocateIndirect : Nat → Fs σ → BlockSector → Nat → Fs σ
  | 0, s, entry, _ => freeMapRelease s entry 1
  | level + 1, s, entry, numSectors =>
    let block := s.bufferCacheRead entry
    let unit := if level + 1 = 1 then 1 else INDIRECT_BLOCKS_PER_SECTOR
    let emptied := deallocateEntries (inodeDeallocateIndirect level) unit
      (divRoundUp numSectors unit) 0 numSectors (sectorWord block.1) block.2
    freeMapRelease emptied entry 1

def deallocateDirect (s : Fs σ) (d : InodeDisk) (l : Nat) : Fs σ :=
  (List.range l).foldl (fun s i => freeMapRelease s (d.direct i) 1) s

def inodeDeallocate (s : Fs σ) (d : InodeDisk) : Fs σ :=
  if d.length.toInt < 0 then s
  else
    let numSectors := bytesToSectors d.length.toInt
    let l := min numSectors DIRECT_BLOCKS_COUNT
    let s := deallocateDirect s d l
    let numSectors := numSectors - l
    let l := min numSectors INDIRECT_BLOCKS_PER_SECTOR
    let s := if 0 < l then inodeDeallocateIndirect 1 s d.indirectBlock l else s
    let numSectors := numSectors - l
    let l := min numSectors (INDIRECT_BLOCKS_PER_SECTOR * INDIRECT_BLOCKS_PER_SECTOR)
    if 0 < l then inodeDeallocateIndirect 2 s d.doublyIndirectBlock l else s

/-- Drop the count of an inode; the last close takes it off the list and, if it is marked
removed, gives its sectors back. -/
def inodeClose (s : Fs σ) (inode : BlockSector) : Fs σ :=
  match s.findInode inode with
  | none => s.use inode
  | some i =>
    if i.openCnt - 1 = 0 then
      let unlisted := { s with openInodes := s.openInodes.eraseP fun other => other.sector == inode }
      if i.removed then inodeDeallocate (freeMapRelease unlisted i.sector 1) i.data else unlisted
    else
      { s with openInodes := s.openInodes.map fun other =>
          if other.sector = inode then { other with openCnt := other.openCnt - 1 } else other }

def inodeRemove (s : Fs σ) (inode : BlockSector) : Fs σ :=
  { s with openInodes := s.openInodes.map fun other =>
      if other.sector = inode then { other with removed := true } else other }

def inodeIsRemoved (s : Fs σ) (inode : BlockSector) : Bool :=
  match s.findInode inode with
  | some i => i.removed
  | none => false

def inodeIsDirectory (s : Fs σ) (inode : BlockSector) : Bool := (s.inodeData inode).isDir

end ShellOs.FileSystem
