import ShellOs.FileSystem.Transparent

/-! Directories (directory.c): files of 36-byte entries. The loops over the entries are one scan
with different ends. What the C code leaves uninitialised is zero here: the name in the parent entry
that `dir_add` writes into a new directory, and the bytes that a short read does not fill. -/

namespace ShellOs.FileSystem
open Lib

abbrev NAME_MAX : Nat := 30

abbrev ENTRY_SIZE : Nat := 36

structure DirEntry where
  inodeSector : BlockSector
  name : Fin (NAME_MAX + 1) → Byte
  inUse : Bool

namespace DirEntry

def encode (e : DirEntry) (k : Nat) : Byte :=
  if k < 4 then LittleEndian.byteOf (w := 4) e.inodeSector k
  else if inside : k - 4 < NAME_MAX + 1 then e.name ⟨k - 4, inside⟩
  else if k = 35 then if e.inUse then 1 else 0
  else 0

def decode (bytes : List Byte) : DirEntry where
  inodeSector := LittleEndian.ofBytes 4 fun j => bytes.getD j 0
  name i := bytes.getD (4 + i.val) 0
  inUse := bytes.getD 35 0 != 0

def cName (e : DirEntry) : CString := (List.ofFn e.name).takeWhile fun c => c != 0

end DirEntry

def strncpyName (name : CString) : Fin (NAME_MAX + 1) → Byte := fun i => name.getD i.val 0

def slash : Byte := 47

def dot : CString := [46]

def dotDot : CString := [46, 46]

def tokens (path : CString) : List CString := (path.splitOn slash).filter fun token => !token.isEmpty

def splitPathFilename (path : CString) : CString × CString :=
  ((if path.head? = some slash then [slash] else []) ++
    (tokens path).dropLast.flatMap (fun token => token ++ [slash]), (tokens path).getLastD [])

variable {σ : Type} [Store σ BlockSector Sector]

theorem flat_inodeReadLoop (s : FlatFs) (inode : BlockSector) (size offset : Int) (buffer : List Byte) :
    (inodeReadLoop s inode size offset buffer).2 = s ∧
      (inodeReadLoop s inode size offset buffer).1.length ≤
        buffer.length + (s.inodeLength inode - offset).toNat := by
  have state : ∀ (t : FlatFs) x ofs chunk, (readChunk t x ofs chunk).2 = t := by
    intro t x ofs chunk
    unfold readChunk
    split <;> rfl
  have count : ∀ (t : FlatFs) x ofs (chunk : Int), 0 < chunk →
      ((readChunk t x ofs chunk).1.length : Int) = chunk := by
    intro t x ofs chunk some
    unfold readChunk
    split
    next whole =>
      rw [whole.2, List.length_ofFn]
    next => simp only [List.length_map, List.length_range]; omega
  fun_induction inodeReadLoop s inode size offset buffer with
  | case1 s size offset buffer more sectorIdx chunk stop =>
    exact ⟨flat_byteToSector s inode offset, by simp only; omega⟩
  | case2 s size offset buffer more sectorIdx sectorOfs chunk go r ih =>
    have same : r.2 = s := (state _ _ _ _).trans (flat_byteToSector s inode offset)
    have length := count sectorIdx.2 sectorIdx.1 sectorOfs chunk (by omega)
    change (r.1.length : Int) = chunk at length
    have most : chunk ≤ s.inodeLength inode - offset := by
      simp only [chunk, chunkSize]
      split <;> split <;> omega
    rw [same, List.length_append] at ih
    rw [same]
    refine ⟨ih.1, Nat.le_trans ih.2 ?_⟩
    omega
  | case3 s size offset buffer none => exact ⟨rfl, by simp only; omega⟩

theorem inodeReadAt_length [LawfulStore σ] (s : Fs σ) (inode : BlockSector) (size offset : Int) :
    (inodeReadAt s inode size offset).1.length ≤ (s.inodeLength inode - offset).toNat := by
  have flat := (flat_inodeReadLoop s.flat inode size offset []).2
  change (inodeReadAt s.flat inode size offset).1.length ≤ _ at flat
  rw [← inodeReadAt_flat, flatten_fst, List.length_nil, Nat.zero_add, Fs.inodeLength_flat] at flat
  exact flat

theorem inodeReadAt_snd [LawfulStore σ] (s : Fs σ) (inode : BlockSector) (size offset : Int) :
    (inodeReadAt s inode size offset).2.flat = s.flat := by
  rw [← flatten_snd, inodeReadAt_flat]
  exact (flat_inodeReadLoop s.flat inode size offset []).1

/-- Read entry after entry from `ofs` on, up to one at which the loop stops; gives that entry, and
the offset at which the loop ends. -/
def scanEntries [LawfulStore σ] (s : Fs σ) (inode : BlockSector) (stop : DirEntry → Bool) (ofs : Int) :
    Option DirEntry × Int × Fs σ :=
  let r := inodeReadAt s inode ENTRY_SIZE ofs
  if _whole : r.1.length = ENTRY_SIZE then
    if stop (DirEntry.decode r.1) then (some (DirEntry.decode r.1), ofs, r.2)
    else scanEntries r.2 inode stop (ofs + ENTRY_SIZE)
  else (none, ofs, r.2)
termination_by (s.inodeLength inode - ofs).toNat
decreasing_by
  have most := inodeReadAt_length s inode ENTRY_SIZE ofs
  have same := congrArg (fun t : FlatFs => t.inodeLength inode) (inodeReadAt_snd s inode ENTRY_SIZE ofs)
  simp only [Fs.inodeLength_flat] at same
  have whole : (inodeReadAt s inode ENTRY_SIZE ofs).1.length = ENTRY_SIZE := _whole
  rw [same, ← whole]
  simp only [ENTRY_SIZE] at whole most ⊢
  omega

def dirOpen (s : Fs σ) (inode : BlockSector) : Dir × Fs σ :=
  (⟨s.nextAddr, inode, ENTRY_SIZE, 1⟩, { s with nextAddr := s.nextAddr + 1 })

/-- The directory that a pointer leads to: the one in `cwd` if it is the same. -/
def dirAt (s : Fs σ) (dir : Dir) : Dir :=
  match s.cwd with
  | some current => if current.addr = dir.addr then current else dir
  | none => dir

/-- Change the directory that a pointer leads to. -/
def setDir (s : Fs σ) (dir : Dir) : Fs σ :=
  match s.cwd with
  | some current => if current.addr = dir.addr then { s with cwd := some dir } else s
  | none => s

def dirOpenRoot (s : Fs σ) : Dir × Fs σ :=
  match s.cwd with
  | none =>
    let r := dirOpen (inodeOpen s ROOT_DIR_SECTOR).2 ROOT_DIR_SECTOR
    (r.1, { r.2 with cwd := some r.1 })
  | some current =>
    let dir := { current with openCnt := current.openCnt + 1 }
    (dir, { s with cwd := some dir })

/-- The inode of a reopened directory is not counted again. -/
def dirReopen (s : Fs σ) (dir : Dir) : Dir × Fs σ := dirOpen s dir.inode

def dirClose (s : Fs σ) (dir : Dir) : Fs σ :=
  let dir := dirAt s dir
  let dir := { dir with openCnt := dir.openCnt - 1 }
  if dir.openCnt = 0 then { inodeClose s dir.inode with cwd := none } else setDir s dir

section entries

variable [LawfulStore σ]

def lookup (s : Fs σ) (inode : BlockSector) (name : CString) : Option (DirEntry × Int) × Fs σ :=
  let r := scanEntries s inode (fun e => e.inUse && e.cName == name) ENTRY_SIZE
  (r.1.map fun e => (e, r.2.1), r.2.2)

def dirIsEmpty (s : Fs σ) (dir : Dir) : Bool × Fs σ :=
  let r := scanEntries s dir.inode (fun e => e.inUse) ENTRY_SIZE
  (r.1.isNone, r.2.2)

def dirLookup (s : Fs σ) (dir : Dir) (name : CString) : Option BlockSector × Fs σ :=
  if name = dot then (some dir.inode, s)
  else if name = dotDot then
    let r := inodeReadAt (s.use dir.inode) dir.inode ENTRY_SIZE 0
    let sector := (DirEntry.decode r.1).inodeSector
    (some sector, (inodeOpen r.2 sector).2)
  else
    let r := lookup (s.use dir.inode) dir.inode name
    match r.1 with
    | some found => (some found.1.inodeSector, (inodeOpen r.2 found.1.inodeSector).2)
    | none => (none, r.2)

def writeParent (s : Fs σ) (sector parent : BlockSector) : Bool × Fs σ :=
  let dir := dirOpen (inodeOpen s sector).2 sector
  let e : DirEntry := ⟨parent, fun _ => 0, true⟩
  let r := inodeWriteAt dir.2 sector e.encode ENTRY_SIZE 0
  (r.1 = ENTRY_SIZE, dirClose r.2 dir.1)

def dirAdd (s : Fs σ) (dir : Dir) (name : CString) (inodeSector : BlockSector) (isDir : Bool) :
    Bool × Fs σ :=
  if name.length = 0 ∨ NAME_MAX < name.length then (false, s)
  else
    let found := lookup (s.use dir.inode) dir.inode name
    if found.1.isSome then (false, found.2)
    else
      let parent := if isDir then writeParent found.2 inodeSector dir.inode else (true, found.2)
      if parent.1 = false then parent
      else
        -- the first slot that is not in use, or the end of the file
        let slot := scanEntries parent.2 dir.inode (fun e => !e.inUse) 0
        let e : DirEntry := ⟨inodeSector, strncpyName name, true⟩
        let r := inodeWriteAt slot.2.2 dir.inode e.encode ENTRY_SIZE slot.2.1
        (r.1 = ENTRY_SIZE, r.2)

def dirRemove (s : Fs σ) (dir : Dir) (name : CString) : Bool × Fs σ :=
  let found := lookup (s.use dir.inode) dir.inode name
  match found.1 with
  | none => (false, found.2)
  | some (e, ofs) =>
    let inode := e.inodeSector
    let opened := (inodeOpen found.2 inode).2
    let empty : Bool × Fs σ :=
      if inodeIsDirectory opened inode then
        let target := dirOpen opened inode
        let r := dirIsEmpty target.2 target.1
        (r.1, dirClose r.2 target.1)
      else (true, opened)
    if empty.1 = false then (false, inodeClose empty.2 inode)
    else
      let r := inodeWriteAt empty.2 dir.inode { e with inUse := false }.encode ENTRY_SIZE ofs
      if r.1 = ENTRY_SIZE then (true, inodeClose (inodeRemove r.2 inode) inode)
      else (false, inodeClose r.2 inode)

def dirReaddir (s : Fs σ) (dir : Dir) : Option CString × Dir × Fs σ :=
  let dir := dirAt s dir
  let r := scanEntries (s.use dir.inode) dir.inode (fun e => e.inUse) dir.pos
  let next := { dir with pos := if r.1.isSome then r.2.1 + ENTRY_SIZE else r.2.1 }
  (r.1.map DirEntry.cName, next, setDir r.2.2 next)

/-- The walk over the components of a path in `dir_open_path`. -/
def openComponents : List CString → Fs σ → Dir → Option Dir × Fs σ
  | [], s, curr =>
    let s := s.use curr.inode
    if inodeIsRemoved s curr.inode then (none, dirClose s curr) else (some curr, s)
  | token :: rest, s, curr =>
    let r := dirLookup s curr token
    match r.1 with
    | none => (none, dirClose r.2 curr)
    | some inode =>
      let next := dirOpen r.2 inode
      openComponents rest (dirClose next.2 curr) next.1

def dirOpenPath (s : Fs σ) (path : CString) : Option Dir × Fs σ :=
  let start :=
    if path.head? = some slash then dirOpenRoot s
    else match s.cwd with
      | none => dirOpenRoot s
      | some current => dirReopen s current
  openComponents (tokens path) start.2 start.1

def dirCreate (s : Fs σ) (sector : BlockSector) (entryCnt : Nat) : Bool × Fs σ :=
  let r := inodeCreate s sector (offsetOf (entryCnt * ENTRY_SIZE)) true
  if r.1 = false then (false, r.2) else writeParent r.2 sector sector

end entries

end ShellOs.FileSystem
