import ShellOs.FileSystem.TransparentCalls

/-! The table of open files and what is done to an open file (file.c). A pointer to a file that is in the table is
followed there by name, since no name is in the table twice. -/

namespace ShellOs.FileSystem
open Lib

section table

variable {σ : Type}

def getFileByFname (s : Fs σ) (fname : CString) : Option File :=
  (s.fileTable.find? fun entry => entry.fname == fname).map FileTableEntry.f

def addToFileTable (s : Fs σ) (file : File) (fname : CString) : Fs σ :=
  if (getFileByFname s fname).isSome then s else { s with fileTable := s.fileTable ++ [⟨fname, file⟩] }

def setFile (s : Fs σ) (fname : CString) (file : File) : Fs σ :=
  { s with fileTable := s.fileTable.map fun entry => if entry.fname = fname then { entry with f := file } else entry }

end table

section calls

variable {σ : Type} [Store σ BlockSector Sector]

def removeFromFileTable (s : Fs σ) (fname : CString) : Bool × Fs σ :=
  match getFileByFname s fname with
  | none => (false, s)
  | some file =>
    let closed := fileClose s file
    (true, { closed with fileTable := closed.fileTable.eraseP fun entry => entry.fname == fname })

def fileRead (s : Fs σ) (file : File) (size : Int) : List Byte × File × Fs σ :=
  let r := inodeReadAt (s.use file.inode) file.inode size file.pos
  (r.1, { file with pos := file.pos + r.1.length }, r.2)

/-- The last byte that is written is always the terminator. -/
def fileWrite (s : Fs σ) (file : File) (buffer : Nat → Byte) (size : Int) : Int × File × Fs σ :=
  let r := inodeWriteAt (s.use file.inode) file.inode (Function.update buffer (size - 1).toNat 0) size file.pos
  (r.1, { file with pos := file.pos + (r.1 - 2) }, r.2)

def fileLength (s : Fs σ) (file : File) : Int := s.inodeLength file.inode

def fileSeek (file : File) (newPos : Int) : File := { file with pos := newPos }

theorem getFileByFname_flat (s : Fs σ) (fname : CString) : getFileByFname s.flat fname = getFileByFname s fname := rfl

theorem addToFileTable_flat (s : Fs σ) (file : File) (fname : CString) :
    (addToFileTable s file fname).flat = addToFileTable s.flat file fname := by
  unfold addToFileTable
  rw [getFileByFname_flat]
  split <;> rfl

theorem setFile_flat (s : Fs σ) (fname : CString) (file : File) :
    (setFile s fname file).flat = setFile s.flat fname file := rfl

theorem fileLength_flat (s : Fs σ) (file : File) : fileLength s.flat file = fileLength s file := rfl

variable [LawfulStore σ]

theorem removeFromFileTable_flat (s : Fs σ) (fname : CString) :
    flatten (removeFromFileTable s fname) = removeFromFileTable s.flat fname := by
  unfold removeFromFileTable
  rw [getFileByFname_flat]
  cases getFileByFname s fname with
  | none => rfl
  | some file =>
    simp only [flatten_mk, ← fileClose_flat]
    rfl

theorem fileRead_flat (s : Fs σ) (file : File) (size : Int) : fileRead s.flat file size =
    ((fileRead s file size).1, (fileRead s file size).2.1, (fileRead s file size).2.2.flat) := by
  simp only [fileRead, ← Fs.use_flat, ← inodeReadAt_flat, flatten_fst, flatten_snd]

theorem fileWrite_flat (s : Fs σ) (file : File) (buffer : Nat → Byte) (size : Int) : fileWrite s.flat file buffer size =
    ((fileWrite s file buffer size).1, (fileWrite s file buffer size).2.1, (fileWrite s file buffer size).2.2.flat) := by
  simp only [fileWrite, ← Fs.use_flat, ← inodeWriteAt_flat, flatten_fst, flatten_snd]

end calls

end ShellOs.FileSystem
