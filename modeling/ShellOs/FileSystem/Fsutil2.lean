import ShellOs.FileSystem.Fsutil
import Mathlib.Data.List.DropRight

/-! Copying between the host and the disk, searching, defragmenting and recovering (fsutil2.c). A host file is the list
of its bytes; `malloc` always finds room. -/

namespace ShellOs.FileSystem
open Lib

def untilNul (bytes : List Byte) : CString := bytes.takeWhile fun c => c != 0

def ascii (text : String) : CString := text.toList.map fun c => BitVec.ofNat 8 c.toNat

def decimal (i : Nat) : CString := (Nat.toDigits 10 i).map fun c => BitVec.ofNat 8 c.toNat

section calls

variable {σ : Type} [Store σ BlockSector Sector]

/-- The part of `get_inode_data_sectors` behind the doubly indirect block. -/
def doublyDataSectors : Nat → Nat → Nat → (Nat → BlockSector) → Fs σ → List BlockSector × Fs σ
  | 0, _, _, _, s => ([], s)
  | count + 1, i, numSectors, blocks, s =>
    let subsize := min numSectors INDIRECT_BLOCKS_PER_SECTOR
    let block := s.bufferCacheRead (blocks i)
    let rest := doublyDataSectors count (i + 1) (numSectors - subsize) blocks block.2
    ((List.range subsize).map (sectorWord block.1) ++ rest.1, rest.2)

def readIndex (s : Fs σ) (wanted : Nat) (sector : BlockSector) : Sector × Fs σ :=
  if 0 < wanted then s.bufferCacheRead sector else (zeros, s)

def getInodeDataSectors (s : Fs σ) (inode : BlockSector) : List BlockSector × Fs σ :=
  let d := s.inodeData inode
  if d.length.toInt < 0 then ([], s)
  else
    let numSectors := bytesToSectors d.length.toInt
    let l := min numSectors DIRECT_BLOCKS_COUNT
    let direct := (List.range l).map d.direct
    let numSectors := numSectors - l
    let l := min numSectors INDIRECT_BLOCKS_PER_SECTOR
    let block := readIndex s l d.indirectBlock
    let indirect := (List.range l).map (sectorWord block.1)
    let numSectors := numSectors - l
    let l := min numSectors (INDIRECT_BLOCKS_PER_SECTOR * INDIRECT_BLOCKS_PER_SECTOR)
    let index := readIndex block.2 l d.doublyIndirectBlock
    let doubly := doublyDataSectors (divRoundUp l INDIRECT_BLOCKS_PER_SECTOR) 0 l (sectorWord index.1) index.2
    (direct ++ indirect ++ doubly.1, doubly.2)

variable [LawfulStore σ]

/-- `copy_in`; `none` for a host file that cannot be opened. -/
def copyIn (s : Fs σ) (fname : CString) (host : Option (List Byte)) : Int × Fs σ :=
  match host with
  | none => (-1, s)
  | some bytes =>
    let size : Int := bytes.length + 1
    let freespace := offsetOf (fsutilFreespace s * BLOCK_SECTOR_SIZE)
    let created := fsutilCreate s fname (if freespace < size then freespace else size)
    if created.1 = false then (9, created.2)
    else
      let written := fsutilWrite created.2 fname (fun i => bytes.getD i 0) size
      (if written.1 = -1 then 11 else 0, written.2)

/-- `copy_out`, and what it leaves in the host file if the host lets it write one. -/
def copyOut (s : Fs σ) (fname : CString) (creates : Bool) : Int × Option (List Byte) × Fs σ :=
  let size := fsutilSize s fname
  let opened := openNamed size.2 fname
  match opened.1 with
  | none => (-1, none, opened.2)
  | some file =>
    let r := fsutilRead (setFile opened.2 fname (fileSeek file 0)) fname size.1
    let restored := setFile r.2 fname file
    if creates then (0, some (untilNul (r.1.getD [])), restored) else (11, none, restored)

/-- One turn of `find_file`. A file that does not open is a null pointer that is then followed: the program is gone. -/
def findFileStep (pattern : CString) (found : Option (List CString)) (s : Fs σ) (name : CString) :
    Option (List CString) × Fs σ :=
  match found with
  | none => (none, s)
  | some names =>
    let opened := filesysOpen s name
    match opened.1 with
    | none => (none, opened.2)
    | some file =>
      let size := fsutilSize (addToFileTable opened.2 file name) name
      let r := fileRead size.2 (fileSeek file 0) size.1
      let removed := (removeFromFileTable r.2.2 name).2
      (some (if pattern <:+: untilNul r.1 then names ++ [name] else names), removed)

def findFile (s : Fs σ) (pattern : CString) : Option (List CString) × Fs σ :=
  forRootNames (findFileStep pattern) (some []) s

def fragmented (sectors : List BlockSector) : Bool :=
  (sectors.zip sectors.tail).any fun pair => 3 < pair.2.toInt - pair.1.toInt

/-- One turn of `fragmentation_degree`: how many files could be fragmented, and how many are. -/
def fragmentationStep (counts : Nat × Nat) (s : Fs σ) (fileName : CString) : (Nat × Nat) × Fs σ :=
  let opened := filesysOpen s fileName
  match opened.1 with
  | none => (counts, opened.2)
  | some file =>
    let totalBlocks := (fileLength opened.2 file).tdiv BLOCK_SECTOR_SIZE
    if 1 < totalBlocks then
      let sectors := getInodeDataSectors opened.2 file.inode
      let more := if fragmented (sectors.1.take totalBlocks.toNat) then 1 else 0
      ((counts.1 + 1, counts.2 + more), fileClose sectors.2 file)
    else (counts, fileClose opened.2 file)

/-- `fragmentation_degree`. The first turn comes before the first name is read: it sees what lies in `fileName`. -/
def fragmentationDegree (s : Fs σ) (fileName : CString) : (Nat × Nat) × Fs σ :=
  let dir := dirOpenRoot s
  let first := fragmentationStep (0, 0) dir.2 fileName
  let r := whileReaddir fragmentationStep (readdirCalls first.2 dir.1) first.1 first.2 dir.1
  (r.1, dirClose r.2.2 r.2.1)

/-- `FileData`; `name` is the string that starts in its name field. -/
structure FileData where
  name : CString
  data : List Byte
  size : Int

/-- `strncpy (files[k].name, name, NAME_MAX)`: a name that fills the field is followed by what lies behind it. -/
def storedName (stale : Nat → CString) (k : Nat) (name : CString) : CString :=
  if name.length < NAME_MAX then name else name.take NAME_MAX ++ stale k

def backUp (stale : Nat → CString) (dir : Dir) (files : List FileData) (s : Fs σ) (name : CString) :
    List FileData × Fs σ :=
  let found := dirLookup s dir name
  match found.1 with
  | none => (files, found.2)
  | some inode =>
    if inodeIsDirectory found.2 inode then (files, inodeClose found.2 inode)
    else
      let fileSize := found.2.inodeLength inode
      let r := inodeReadAt found.2 inode fileSize 0
      (files ++ [⟨storedName stale files.length name, r.1, fileSize⟩], (fsutilRm (inodeClose r.2 inode) name).2)

def rebuild : List FileData → Fs σ → Int × Fs σ
  | [], s => (0, s)
  | file :: rest, s =>
    let created := fsutilCreate s file.name file.size
    if created.1 then
      let written := fsutilWrite created.2 file.name (fun i => file.data.getD i 0) file.size
      if written.1 = -1 then (11, written.2) else rebuild rest written.2
    else (9, created.2)

/-- `defragment`; `stale` is what lies behind the name fields of its array. -/
def defragment (s : Fs σ) (stale : Nat → CString) : Int × Fs σ :=
  let dir := dirOpenRoot s
  let r := whileReaddir (backUp stale dir.1) (readdirCalls dir.2 dir.1) [] dir.2 dir.1
  rebuild r.1 (dirClose r.2.2 r.2.1)

def fileNameOf (text : CString) : CString := text.take NAME_MAX

def recoverInode (dir : Dir) (s : Fs σ) (i : Nat) : Fs σ :=
  if bitmapTest s.freeMap i then s
  else
    let r := s.bufferCacheRead (BitVec.ofNat 32 i)
    if (InodeDisk.decode r.1).magic = INODE_MAGIC then
      let added := dirAdd r.2 dir (fileNameOf (ascii "recovered0-" ++ decimal i)) (BitVec.ofNat 32 i) false
      if added.1 then { added.2 with freeMap := bitmapSet added.2.freeMap i true } else added.2
    else r.2

def recoverInodes (s : Fs σ) : Fs σ :=
  let dir := dirOpenRoot s
  dirClose ((List.range (bitmapSize s.freeMap)).foldl (recoverInode dir.1) dir.2) dir.1

structure HostFile where
  name : CString
  bytes : List Byte

/-- The text in a block that is not all zeros goes into a file of its own. -/
def recoveredBlock (files : List HostFile) (x : Nat) (block : Sector) : List HostFile :=
  if block = zeros then files
  else files ++ [⟨fileNameOf (ascii "recovered1-" ++ decimal x ++ ascii ".txt"), untilNul (List.ofFn block)⟩]

def recoverBlock (r : List HostFile × Fs σ) (x : Nat) : List HostFile × Fs σ :=
  let block := r.2.bufferCacheRead (BitVec.ofNat 32 x)
  (recoveredBlock r.1 x block.1, block.2)

def recoverBlocks (s : Fs σ) : List HostFile × Fs σ :=
  ((List.range (bitmapSize s.freeMap)).drop 4).foldl recoverBlock ([], s)

/-- The bytes from the first that is not NUL to the last, looking from `start` on. -/
def hiddenBytes (block : Sector) (start : Nat) : List Byte :=
  (((List.ofFn block).drop start).dropWhile fun c => c == 0).rdropWhile fun c => c == 0

def recoveredBytes (files : List HostFile) (filename : CString) (hidden : List Byte) : List HostFile :=
  if hidden = [] then files
  else files ++ [⟨fileNameOf (ascii "recovered2-" ++ filename ++ ascii ".txt"), hidden⟩]

def pastEndLoop (filename : CString) (fileSize : Int) (blockCount : Nat) :
    List BlockSector → Nat → List HostFile → Fs σ → List HostFile × Fs σ
  | [], _, files, s => (files, s)
  | sector :: rest, x, files, s =>
    let block := s.bufferCacheRead sector
    let start := if x = blockCount - 1 then (fileSize.tmod BLOCK_SECTOR_SIZE).toNat else BLOCK_SECTOR_SIZE
    pastEndLoop filename fileSize blockCount rest (x + 1)
      (recoveredBytes files filename (hiddenBytes block.1 start)) block.2

def recoverPastEnd (files : List HostFile) (s : Fs σ) (file : File) (filename : CString) : List HostFile × Fs σ :=
  let fileSize := fileLength s file
  let blockCount := divRoundUp fileSize.toNat BLOCK_SECTOR_SIZE
  let sectors := getInodeDataSectors s file.inode
  pastEndLoop filename fileSize blockCount (sectors.1.take blockCount) 0 files sectors.2

def recoverHidden (files : List HostFile) (s : Fs σ) (filename : CString) : List HostFile × Fs σ :=
  let opened := filesysOpen s filename
  match opened.1 with
  | none => (files, opened.2)
  | some file =>
    let r := recoverPastEnd files opened.2 file filename
    (r.1, fileClose r.2 file)

def recover (s : Fs σ) (flag : Int) : List HostFile × Fs σ :=
  if flag = 0 then ([], recoverInodes s)
  else if flag = 1 then recoverBlocks s
  else if flag = 2 then forRootNames recoverHidden [] s
  else ([], s)

end calls

end ShellOs.FileSystem
