import ShellOs.Lib.Store
import ShellOs.FileSystem.Bitmap

/-! The state of the file system: inodes on disk and in memory, open files, the root directory
handle and the file table (inode.h, file.h, directory.h). A handle to an in-memory inode is named
by the sector of the inode. The block store is any `Store`, so that the code below runs on the
buffer cache and on plain sectors alike. -/

namespace ShellOs.FileSystem
open Lib

abbrev INODE_MAGIC : BitVec 32 := 0x494e4f44
abbrev DIRECT_BLOCKS_COUNT : Nat := 123
abbrev INDIRECT_BLOCKS_PER_SECTOR : Nat := 128
abbrev FREE_MAP_SECTOR : BlockSector := 0
abbrev ROOT_DIR_SECTOR : BlockSector := 1

/-- `struct inode_disk`. The flag `is_dir` is the low byte of `isDirWord`, the rest is padding. -/
@[ext] structure InodeDisk where
  directBlocks : Fin DIRECT_BLOCKS_COUNT → BlockSector
  indirectBlock : BlockSector
  doublyIndirectBlock : BlockSector
  isDirWord : BitVec 32
  length : BitVec 32
  magic : BitVec 32

namespace InodeDisk

def empty : InodeDisk := ⟨fun _ => 0, 0, 0, 0, 0, 0⟩

def direct (d : InodeDisk) (i : Nat) : BlockSector :=
  if inside : i < DIRECT_BLOCKS_COUNT then d.directBlocks ⟨i, inside⟩ else 0

def setDirect (d : InodeDisk) (i : Nat) (e : BlockSector) : InodeDisk :=
  { d with directBlocks := fun j => if j.val = i then e else d.directBlocks j }

def isDir (d : InodeDisk) : Bool := d.isDirWord.extractLsb' 0 8 != 0

/-- The block tables as one row: the direct blocks, then the two index blocks. -/
def entries (d : InodeDisk) (j : Nat) : BlockSector :=
  if j < 123 then d.direct j else if j = 123 then d.indirectBlock
  else if j = 124 then d.doublyIndirectBlock else 0

def words (d : InodeDisk) (i : Nat) : BitVec 32 :=
  if i < 125 then d.entries i else if i = 125 then d.isDirWord else if i = 126 then d.length
  else d.magic

def encode (d : InodeDisk) : Sector := sectorOfWords d.words

def decode (b : Sector) : InodeDisk where
  directBlocks i := sectorWord b i.val
  indirectBlock := sectorWord b 123
  doublyIndirectBlock := sectorWord b 124
  isDirWord := sectorWord b 125
  length := sectorWord b 126
  magic := sectorWord b 127

@[simp] theorem decode_encode (d : InodeDisk) : decode (encode d) = d := by
  apply InodeDisk.ext
  · funext i
    have bound : i.val < 123 := i.isLt
    simp only [decode, encode]
    rw [sectorWord_sectorOfWords _ (by omega)]
    simp only [words, entries, direct, bound, show i.val < 125 by omega, if_true, dif_pos]
  all_goals
    simp only [decode, encode]
    rw [sectorWord_sectorOfWords _ (by decide)]
    rfl

theorem encode_decode (b : Sector) : encode (decode b) = b := by
  rw [← sectorOfWords_sectorWord b]
  apply sectorOfWords_congr
  intro i bound
  rw [sectorOfWords_sectorWord]
  unfold words entries direct
  by_cases isDirect : i < 123
  · simp only [isDirect, if_true, dif_pos, show i < 125 by omega]
    rfl
  · have last : i = 123 ∨ i = 124 ∨ i = 125 ∨ i = 126 ∨ i = 127 := by omega
    rcases last with rfl | rfl | rfl | rfl | rfl <;> rfl

@[simp] theorem decode_zeros : decode zeros = empty := by
  apply InodeDisk.ext <;> simp [decode, empty]

end InodeDisk

/-- `struct inode`. `addr` stands for the address that `malloc` returned for it. -/
structure Inode where
  addr : Nat
  sector : BlockSector
  openCnt : Int
  removed : Bool
  denyWriteCnt : Int
  data : InodeDisk

structure File where
  inode : BlockSector
  pos : Int
  denyWrite : Bool

structure Dir where
  addr : Nat
  inode : BlockSector
  pos : Int
  openCnt : Int

/-- A NUL-terminated string, without the NUL. -/
abbrev CString := List Byte

instance : LawfulBEq CString := inferInstance

structure FileTableEntry where
  fname : CString
  f : File

/-- What the process keeps. `usedFreed` is set for good by the first use of an inode that has been freed: from then on
the process may do anything, and the state only goes on as if the inode had been read from its sector again. -/
structure Fs (σ : Type) where
  cache : σ
  freeMap : Bitmap
  freeMapFile : Option File
  openInodes : List Inode
  nextAddr : Nat
  cwd : Option Dir
  fileTable : List FileTableEntry
  usedFreed : Bool

abbrev FlatFs := Fs (BlockSector → Sector)

namespace Fs

variable {σ : Type} [Store σ BlockSector Sector]

def flat (s : Fs σ) : FlatFs where
  cache := Store.view s.cache
  freeMap := s.freeMap
  freeMapFile := s.freeMapFile
  openInodes := s.openInodes
  nextAddr := s.nextAddr
  cwd := s.cwd
  fileTable := s.fileTable
  usedFreed := s.usedFreed

def bufferCacheRead (s : Fs σ) (sector : BlockSector) : Sector × Fs σ :=
  let r := Store.read s.cache sector
  (r.1, { s with cache := r.2 })

def bufferCacheWrite (s : Fs σ) (sector : BlockSector) (source : Sector) : Fs σ :=
  { s with cache := Store.write s.cache sector source }

def findInode (s : Fs σ) (sector : BlockSector) : Option Inode :=
  s.openInodes.find? fun inode => inode.sector == sector

/-- Goes to an inode through a handle, which is a failure if the inode has been freed. A handle is known by its sector, so
one on a freed inode whose sector has been opened again leads to the inode that is there now. -/
def use (s : Fs σ) (inode : BlockSector) : Fs σ :=
  if (s.findInode inode).isSome then s else { s with usedFreed := true }

/-- `inode->data`. For an inode that is not in memory it is what its sector holds. -/
def inodeData (s : Fs σ) (inode : BlockSector) : InodeDisk :=
  match s.findInode inode with
  | some i => i.data
  | none => InodeDisk.decode (Store.view s.cache inode)

def setInodeData (s : Fs σ) (inode : BlockSector) (d : InodeDisk) : Fs σ :=
  { s with openInodes := s.openInodes.map fun i => if i.sector = inode then { i with data := d } else i }

def inodeDenyWriteCnt (s : Fs σ) (inode : BlockSector) : Int :=
  match s.findInode inode with
  | some i => i.denyWriteCnt
  | none => 0

def inodeLength (s : Fs σ) (inode : BlockSector) : Int := (s.inodeData inode).length.toInt

section freed

omit [Store σ BlockSector Sector]

@[simp] theorem use_cache (s : Fs σ) (inode : BlockSector) : (s.use inode).cache = s.cache := by
  unfold use
  split <;> rfl

@[simp] theorem use_freeMap (s : Fs σ) (inode : BlockSector) : (s.use inode).freeMap = s.freeMap := by
  unfold use
  split <;> rfl

@[simp] theorem use_freeMapFile (s : Fs σ) (inode : BlockSector) : (s.use inode).freeMapFile = s.freeMapFile := by
  unfold use
  split <;> rfl

@[simp] theorem use_openInodes (s : Fs σ) (inode : BlockSector) : (s.use inode).openInodes = s.openInodes := by
  unfold use
  split <;> rfl

@[simp] theorem use_nextAddr (s : Fs σ) (inode : BlockSector) : (s.use inode).nextAddr = s.nextAddr := by
  unfold use
  split <;> rfl

@[simp] theorem use_cwd (s : Fs σ) (inode : BlockSector) : (s.use inode).cwd = s.cwd := by
  unfold use
  split <;> rfl

@[simp] theorem use_fileTable (s : Fs σ) (inode : BlockSector) : (s.use inode).fileTable = s.fileTable := by
  unfold use
  split <;> rfl

@[simp] theorem use_findInode (s : Fs σ) (inode other : BlockSector) :
    (s.use inode).findInode other = s.findInode other := by
  unfold findInode
  rw [use_openInodes]

@[simp] theorem use_inodeDenyWriteCnt (s : Fs σ) (inode other : BlockSector) :
    (s.use inode).inodeDenyWriteCnt other = s.inodeDenyWriteCnt other := by
  unfold inodeDenyWriteCnt
  rw [use_findInode]

theorem use_rest (s : Fs σ) (inode : BlockSector) :
    s.use inode = { s with usedFreed := (s.use inode).usedFreed } := by
  unfold use
  split <;> rfl

theorem use_open {s : Fs σ} {inode : BlockSector} (listed : (s.findInode inode).isSome) : s.use inode = s := if_pos listed

@[simp] theorem use_use (s : Fs σ) (inode : BlockSector) : (s.use inode).use inode = s.use inode := by
  by_cases listed : (s.findInode inode).isSome
  · rw [use_open listed, use_open listed]
  · have absent : s.use inode = { s with usedFreed := true } := if_neg listed
    rw [absent]
    exact if_neg listed

theorem use_self_iff {s : Fs σ} {inode : BlockSector} :
    s.use inode = s ↔ (s.findInode inode).isSome ∨ s.usedFreed = true := by
  by_cases listed : (s.findInode inode).isSome
  · exact iff_of_true (use_open listed) (Or.inl listed)
  · have absent : s.use inode = { s with usedFreed := true } := if_neg listed
    rw [absent]
    constructor
    · intro same
      exact Or.inr (congrArg usedFreed same).symm
    · intro flagged
      rw [← flagged.resolve_left listed]

theorem use_congr {s t : Fs σ} {inode : BlockSector} (ready : s.use inode = s) (inodes : t.openInodes = s.openInodes)
    (freed : t.usedFreed = s.usedFreed) : t.use inode = t := by
  rw [use_self_iff] at ready ⊢
  rw [freed, findInode, inodes]
  exact ready

end freed

@[simp] theorem use_inodeData (s : Fs σ) (inode other : BlockSector) :
    (s.use inode).inodeData other = s.inodeData other := by
  unfold inodeData
  rw [use_findInode, use_cache]

@[simp] theorem use_inodeLength (s : Fs σ) (inode other : BlockSector) :
    (s.use inode).inodeLength other = s.inodeLength other := by
  unfold inodeLength
  rw [use_inodeData]

section simulation

variable [LawfulStore σ]

@[simp] theorem read_fst (s : Fs σ) (sector : BlockSector) :
    (s.bufferCacheRead sector).1 = s.flat.cache sector := LawfulStore.read_value _ _

@[simp] theorem read_flat (s : Fs σ) (sector : BlockSector) :
    (s.bufferCacheRead sector).2.flat = s.flat := by
  simp only [bufferCacheRead, flat, LawfulStore.view_read]

@[simp] theorem write_flat (s : Fs σ) (sector : BlockSector) (source : Sector) :
    (s.bufferCacheWrite sector source).flat = s.flat.bufferCacheWrite sector source := by
  simp only [bufferCacheWrite, flat, LawfulStore.view_write]
  rfl

end simulation

@[simp] theorem flat_flat (s : FlatFs) : s.flat = s := rfl

@[simp] theorem inodeData_flat (s : Fs σ) (inode : BlockSector) :
    s.flat.inodeData inode = s.inodeData inode := rfl

@[simp] theorem inodeLength_flat (s : Fs σ) (inode : BlockSector) :
    s.flat.inodeLength inode = s.inodeLength inode := rfl

@[simp] theorem inodeDenyWriteCnt_flat (s : Fs σ) (inode : BlockSector) :
    s.flat.inodeDenyWriteCnt inode = s.inodeDenyWriteCnt inode := rfl

@[simp] theorem findInode_flat (s : Fs σ) (inode : BlockSector) :
    s.flat.findInode inode = s.findInode inode := rfl

@[simp] theorem setInodeData_flat (s : Fs σ) (inode : BlockSector) (d : InodeDisk) :
    (s.setInodeData inode d).flat = s.flat.setInodeData inode d := rfl

@[simp] theorem use_flat (s : Fs σ) (inode : BlockSector) : (s.use inode).flat = s.flat.use inode := by
  unfold use
  rw [findInode_flat]
  split <;> rfl

theorem inodeData_found {s : Fs σ} {inode : BlockSector} {i : Inode} {d : InodeDisk}
    (found : s.findInode inode = some i) (data : i.data = d) : s.inodeData inode = d := by
  unfold inodeData
  rw [found, ← data]

omit [Store σ BlockSector Sector] in
theorem inodeDenyWriteCnt_absent {s : Fs σ} {inode : BlockSector} (absent : s.findInode inode = none) :
    s.inodeDenyWriteCnt inode = 0 := by
  unfold inodeDenyWriteCnt
  rw [absent]

theorem inodeData_of_listed {s s' : Fs σ} {inode : BlockSector}
    (listed : (s.findInode inode).isSome) (same : s'.openInodes = s.openInodes) :
    s'.inodeData inode = s.inodeData inode := by
  have found : s'.findInode inode = s.findInode inode := by unfold findInode; rw [same]
  obtain ⟨i, held⟩ := Option.isSome_iff_exists.mp listed
  unfold inodeData
  rw [found, held]

omit [Store σ BlockSector Sector] in
theorem findInode_setInodeData (s : Fs σ) (inode other : BlockSector) (d : InodeDisk) :
    (s.setInodeData inode d).findInode other =
      (s.findInode other).map fun i => if i.sector = inode then { i with data := d } else i := by
  simp only [setInodeData, findInode, List.find?_map]
  have sectors : ((fun i : Inode => i.sector == other) ∘ fun i =>
      if i.sector = inode then { i with data := d } else i) = fun i => i.sector == other := by
    funext i
    simp only [Function.comp]
    split <;> rfl
  rw [sectors]

omit [Store σ BlockSector Sector] in
theorem findInode_sector {s : Fs σ} {inode : BlockSector} {i : Inode}
    (found : s.findInode inode = some i) : i.sector = inode := by
  simpa using List.find?_some found

omit [Store σ BlockSector Sector] in
theorem findInode_setInodeData_ne (s : Fs σ) {inode other : BlockSector} (different : other ≠ inode)
    (d : InodeDisk) : (s.setInodeData inode d).findInode other = s.findInode other := by
  rw [findInode_setInodeData]
  cases found : s.findInode other with
  | none => rfl
  | some i =>
    have sector := findInode_sector found
    simp only [Option.map_some]
    rw [if_neg (by rw [sector]; exact different)]

omit [Store σ BlockSector Sector] in
theorem listed_setInodeData (s : Fs σ) (inode other : BlockSector) (d : InodeDisk) :
    ((s.setInodeData inode d).findInode other).isSome = (s.findInode other).isSome := by
  rw [findInode_setInodeData, Option.isSome_map]

theorem inodeData_setInodeData {s : Fs σ} {inode : BlockSector} (listed : (s.findInode inode).isSome)
    (d : InodeDisk) : (s.setInodeData inode d).inodeData inode = d := by
  obtain ⟨i, found⟩ := Option.isSome_iff_exists.mp listed
  have sector := findInode_sector found
  unfold inodeData
  rw [findInode_setInodeData, found]
  simp only [Option.map_some, if_pos sector]

end Fs

end ShellOs.FileSystem
