import ShellOs.FileSystem.FileTable

/-! What the shell's file commands call (fsutil.c). A printed line is left out where nothing else depends on it. -/

namespace ShellOs.FileSystem
open Lib

section calls

variable {σ : Type} [Store σ BlockSector Sector]

def fsutilFreespace (s : Fs σ) : Int := offsetOf (numFreeSectors s)

/-- The loop of `fsutil_cat`: what goes to `hex_dump`, with its position. -/
def catLoop [LawfulStore σ] (s : Fs σ) (file : File) (size : Int) (dumped : List (Int × List Byte)) :
    List (Int × List Byte) × File × Fs σ :=
  let r := fileRead s file size
  if _done : r.1.length = 0 then (dumped, r.2)
  else catLoop r.2.2 r.2.1 size (dumped ++ [(file.pos, r.1)])
termination_by (s.inodeLength file.inode - file.pos).toNat
decreasing_by
  have most := inodeReadAt_length (s.use file.inode) file.inode size file.pos
  have same := congrArg (fun t : FlatFs => t.inodeLength file.inode)
    (inodeReadAt_snd (s.use file.inode) file.inode size file.pos)
  simp only [Fs.inodeLength_flat, Fs.use_inodeLength] at most same
  have some : (inodeReadAt (s.use file.inode) file.inode size file.pos).1.length ≠ 0 := _done
  simp only [fileRead]
  rw [same]
  omega

variable [LawfulStore σ]

/-- How every command on an open file starts: the file is in the table, or it is opened and put there. -/
def openNamed (s : Fs σ) (fileName : CString) : Option File × Fs σ :=
  match getFileByFname s fileName with
  | some file => (some file, s)
  | none =>
    let r := filesysOpen s fileName
    match r.1 with
    | none => (none, r.2)
    | some file => (some file, addToFileTable r.2 file fileName)

/-- `while (dir_readdir (dir, name))`, for so many calls at most. -/
def whileReaddir {β : Type} (body : β → Fs σ → CString → β × Fs σ) : Nat → β → Fs σ → Dir → β × Dir × Fs σ
  | 0, acc, s, dir => (acc, dir, s)
  | calls + 1, acc, s, dir =>
    let r := dirReaddir s dir
    match r.1 with
    | none => (acc, r.2)
    | some name =>
      let b := body acc r.2.2 name
      whileReaddir body calls b.1 b.2 r.2.1

def readdirCalls (s : Fs σ) (dir : Dir) : Nat := (s.inodeLength dir.inode).toNat / ENTRY_SIZE + 1

def forRootNames {β : Type} (body : β → Fs σ → CString → β × Fs σ) (acc : β) (s : Fs σ) : β × Fs σ :=
  let dir := dirOpenRoot s
  let r := whileReaddir body (readdirCalls dir.2 dir.1) acc dir.2 dir.1
  (r.1, dirClose r.2.2 r.2.1)

def fsutilLs (s : Fs σ) : List CString × Fs σ := forRootNames (fun names s name => (names ++ [name], s)) [] s

def fsutilCat (s : Fs σ) (fileName : CString) : Option (List (Int × List Byte)) × Fs σ :=
  let opened := getFileByFname s fileName = none
  let r := openNamed s fileName
  match r.1 with
  | none => (none, r.2)
  | some file =>
    let c := catLoop r.2 (fileSeek file 0) (fileLength r.2 file) []
    let done := setFile c.2.2 fileName (fileSeek c.2.1 file.pos)
    (some c.1, if opened then (removeFromFileTable done fileName).2 else done)

def fsutilRm (s : Fs σ) (fileName : CString) : Bool × Fs σ :=
  filesysRemove (removeFromFileTable s fileName).2 fileName

def fsutilCreate (s : Fs σ) (fname : CString) (isize : Int) : Bool × Fs σ :=
  if fname.length = 0 ∨ 255 ≤ fname.length then (false, s) else filesysCreate s fname (offsetOf isize) false

def fsutilWrite (s : Fs σ) (fileName : CString) (buffer : Nat → Byte) (size : Int) : Int × Fs σ :=
  let r := openNamed s fileName
  match r.1 with
  | none => (-1, r.2)
  | some file =>
    let w := fileWrite r.2 file buffer (offsetOf size)
    (w.1, setFile w.2.2 fileName w.2.1)

def fsutilRead (s : Fs σ) (fileName : CString) (size : Int) : Option (List Byte) × Fs σ :=
  let r := openNamed s fileName
  match r.1 with
  | none => (none, r.2)
  | some file =>
    let w := fileRead r.2 file (offsetOf size)
    (some w.1, setFile w.2.2 fileName w.2.1)

def fsutilSize (s : Fs σ) (fileName : CString) : Int × Fs σ :=
  let r := openNamed s fileName
  match r.1 with
  | none => (-1, r.2)
  | some file =>
    let s := r.2.use file.inode
    (fileLength s file, setFile s fileName (fileSeek file file.pos))

def fsutilSeek (s : Fs σ) (fileName : CString) (offset : Int) : Int × Fs σ :=
  let r := openNamed s fileName
  match r.1 with
  | none => (-1, r.2)
  | some file => (0, setFile r.2 fileName (fileSeek file offset))

end calls

end ShellOs.FileSystem
