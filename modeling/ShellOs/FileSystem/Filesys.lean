import ShellOs.FileSystem.Directory
import ShellOs.FileSystem.Cache

/-! Open files, the free-map file and the file system as a whole (file.c, free-map.c, filesys.c). -/

namespace ShellOs.FileSystem
open Lib

variable {σ : Type} [Store σ BlockSector Sector]

def inodeAllowWrite (s : Fs σ) (inode : BlockSector) : Fs σ :=
  { s with openInodes := s.openInodes.map fun i =>
      if i.sector = inode then { i with denyWriteCnt := i.denyWriteCnt - 1 } else i }

def fileOpen (inode : BlockSector) : File := ⟨inode, 0, false⟩

def fileClose (s : Fs σ) (file : File) : Fs σ :=
  inodeClose (if file.denyWrite then inodeAllowWrite s file.inode else s) file.inode

/-- The bitmap that `free_map_init` leaves in `free_map`, for a device of `size` sectors. -/
def freeMapInit (size : BlockSector) : Bitmap :=
  bitmapMark (bitmapMark (bitmapCreate (size - 1).toNat) FREE_MAP_SECTOR.toNat) ROOT_DIR_SECTOR.toNat

/-- The words of a bitmap after `bytes` have been read over its first words. -/
def overlayBits (b : Bitmap) (bytes : List Byte) (i : Nat) : BitVec 64 :=
  LittleEndian.wordAt 8 (fun k => bytes.getD k (bitmapBytes b k)) i

/-- What `bitmap_read` makes of the bytes it has read: the bits past the last are cleared. -/
def loadBitmap (b : Bitmap) (bytes : List Byte) : Bitmap :=
  let bits := overlayBits b bytes
  let last := elemCnt b.bitCnt - 1
  { b with bits := Function.update bits last (bits last &&& lastMask b) }

def bitmapRead (s : Fs σ) (file : File) : Fs σ :=
  if 0 < s.freeMap.bitCnt then
    let r := inodeReadAt s file.inode (offsetOf (byteCnt s.freeMap.bitCnt)) 0
    { r.2 with freeMap := loadBitmap s.freeMap r.1 }
  else s

def openFreeMapFile (s : Fs σ) : Fs σ :=
  { (inodeOpen s FREE_MAP_SECTOR).2 with freeMapFile := some (fileOpen FREE_MAP_SECTOR) }

def freeMapOpen (s : Fs σ) : Fs σ := bitmapRead (openFreeMapFile s) (fileOpen FREE_MAP_SECTOR)

def freeMapClose (s : Fs σ) : Fs σ :=
  match s.freeMapFile with
  | some file => fileClose s file
  | none => s

/-- `free_map_create`, and whether it went well; if not, it only says so. -/
def freeMapCreate (s : Fs σ) : Bool × Fs σ :=
  let r := inodeCreate s FREE_MAP_SECTOR (offsetOf (bitmapFileSize s.freeMap)) false
  let w := bitmapWrite (openFreeMapFile r.2) (fileOpen FREE_MAP_SECTOR)
  (r.1 && w.1, w.2)

abbrev MAX_FILES_IN_DIRECTORY : Nat := 1000

def freeFileTable (s : Fs σ) : Fs σ :=
  { s.fileTable.foldl (fun s entry => fileClose s entry.f) s with fileTable := [] }

/-- The state at the start of the process, once the modules are initialised. -/
def filesysStart (cache : σ) (size : BlockSector) : Fs σ where
  cache := cache
  freeMap := freeMapInit size
  freeMapFile := none
  openInodes := []
  nextAddr := 0
  cwd := none
  fileTable := []
  usedFreed := false

section whole

variable [LawfulStore σ]

def doFormat (s : Fs σ) : Fs σ :=
  freeMapClose (dirCreate (freeMapCreate s).2 ROOT_DIR_SECTOR MAX_FILES_IN_DIRECTORY).2

def filesysInit (cache : σ) (size : BlockSector) (format : Bool) : Fs σ :=
  let s := filesysStart cache size
  freeMapOpen (if format then doFormat s else s)

/-- The part of `filesys_create` between `free_map_allocate` and its undoing. -/
def createAt (s : Fs σ) (dir : Dir) (fileName : CString) (inodeSector : BlockSector) (initialSize : Int)
    (isDir : Bool) : Bool × Fs σ :=
  let created := inodeCreate s inodeSector initialSize isDir
  if created.1 then dirAdd created.2 dir fileName inodeSector isDir else (false, created.2)

def filesysCreate (s : Fs σ) (path : CString) (initialSize : Int) (isDir : Bool) : Bool × Fs σ :=
  let fileName := (splitPathFilename path).2
  let dir := dirOpenRoot s
  let sector := freeMapAllocate dir.2 1
  let inodeSector := sector.1.getD 0
  let r :=
    if sector.1.isSome then createAt sector.2 dir.1 fileName inodeSector initialSize isDir
    else (false, sector.2)
  let released := if r.1 = false ∧ inodeSector ≠ 0 then freeMapRelease r.2 inodeSector 1 else r.2
  (r.1, dirClose released dir.1)

/-- `file_open` of what `filesys_open` has found, if it has not been removed. -/
def openFound (r : Option BlockSector × Fs σ) : Option File × Fs σ :=
  match r.1 with
  | none => (none, r.2)
  | some inode =>
    let s := r.2.use inode
    if inodeIsRemoved s inode then (none, s) else (some (fileOpen inode), s)

/-- An empty file name stands for the root directory, whose handle is then not closed. -/
def filesysOpen (s : Fs σ) (name : CString) : Option File × Fs σ :=
  if name.length = 0 then (none, s)
  else
    let fileName := (splitPathFilename name).2
    let dir := dirOpenRoot s
    if 0 < fileName.length then
      let found := dirLookup dir.2 dir.1 fileName
      openFound (found.1, dirClose found.2 dir.1)
    else openFound (some dir.1.inode, dir.2)

def filesysRemove (s : Fs σ) (name : CString) : Bool × Fs σ :=
  let parts := splitPathFilename name
  let dir := dirOpenPath s parts.1
  match dir.1 with
  | none => (false, dir.2)
  | some d =>
    let r := dirRemove dir.2 d parts.2
    (r.1, dirClose r.2 d)

end whole

/-- `filesys_done`: the cache is flushed before the files in the table are closed. -/
def filesysDone (s : Fs BufferCache) : Fs BufferCache :=
  let closed := freeMapClose s
  freeFileTable { closed with cache := closed.cache.close }

end ShellOs.FileSystem
