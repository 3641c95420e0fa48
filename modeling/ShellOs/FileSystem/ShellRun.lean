import ShellOs.FileSystem.RootCursor
import ShellOs.FileSystem.WriteCommand
import ShellOs.Lib.Run

/-! The commands of the shell on the file system, and what they do to the handle on the root directory. -/

namespace ShellOs.FileSystem
open Lib

/-- The commands of the shell. Beside its words a command sees what the host has, and what lies in memory that it has
not written. -/
inductive ShellOp
  | ls
  | cat (name : CString)
  | rm (name : CString)
  | create (name : CString) (bytes : Int)
  | write (name : CString) (words : List CString)
  | findFile (pattern : CString)
  | read (name : CString) (bytes : Int)
  | copyIn (name : CString) (host : Option (List Byte))
  | copyOut (name : CString) (creates : Bool)
  | size (name : CString)
  | seek (name : CString) (offset : Int)
  | freespace
  | fragmentationDegree (fileName : CString)
  | defragment (stale : Nat → CString)
  | recover (flag : Int)

section step

variable {σ : Type} [Store σ BlockSector Sector] [LawfulStore σ]

def ShellOp.step (s : Fs σ) : ShellOp → Fs σ
  | ls => (fsutilLs s).2
  | cat name => (fsutilCat s name).2
  | rm name => (fsutilRm s name).2
  | create name bytes => (fsutilCreate s name bytes).2
  | write name words => (writeCommand s (ascii "write" :: name :: words)).elim s Prod.snd
  | findFile pattern => (FileSystem.findFile s pattern).2
  | read name bytes => (fsutilRead s name bytes).2
  | copyIn name host => (FileSystem.copyIn s name host).2
  | copyOut name creates => (FileSystem.copyOut s name creates).2.2
  | size name => (fsutilSize s name).2
  | seek name offset => (fsutilSeek s name offset).2
  | freespace => s
  | fragmentationDegree fileName => (FileSystem.fragmentationDegree s fileName).2
  | defragment stale => (FileSystem.defragment s stale).2
  | recover flag => (FileSystem.recover s flag).2

theorem ShellOp.step_flat (s : Fs σ) (op : ShellOp) : (step s op).flat = step s.flat op := by
  cases op with
  | ls => exact congrArg Prod.snd (fsutilLs_flat s)
  | cat name => exact congrArg Prod.snd (fsutilCat_flat s name)
  | rm name => exact congrArg Prod.snd (fsutilRm_flat s name)
  | create name size => exact congrArg Prod.snd (fsutilCreate_flat s name size)
  | write name words =>
    simp only [step]
    rw [← writeCommand_flat]
    cases writeCommand s (ascii "write" :: name :: words) <;> rfl
  | findFile pattern => exact congrArg Prod.snd (findFile_flat s pattern)
  | read name size => exact congrArg Prod.snd (fsutilRead_flat s name size)
  | copyIn name host => exact congrArg Prod.snd (copyIn_flat s name host)
  | copyOut name creates =>
    simp only [step]
    rw [copyOut_flat]
  | size name => exact congrArg Prod.snd (fsutilSize_flat s name)
  | seek name offset => exact congrArg Prod.snd (fsutilSeek_flat s name offset)
  | freespace => rfl
  | fragmentationDegree fileName => exact congrArg Prod.snd (fragmentationDegree_flat s fileName)
  | defragment stale => exact congrArg Prod.snd (defragment_flat s stale)
  | recover flag => exact congrArg Prod.snd (recover_flat s flag)

end step

section cwd

variable {σ : Type} [Store σ BlockSector Sector] [LawfulStore σ] {a : Nat} {name : CString}

theorem fileClose_cwd (s : Fs σ) (file : File) : (fileClose s file).cwd = s.cwd := by
  rw [fileClose, inodeClose_cwd]
  split <;> rfl

omit [Store σ BlockSector Sector] [LawfulStore σ] in
theorem addToFileTable_cwd (s : Fs σ) (file : File) (fname : CString) : (addToFileTable s file fname).cwd = s.cwd := by
  unfold addToFileTable
  split <;> rfl

theorem removeFromFileTable_cwd (s : Fs σ) (fname : CString) : (removeFromFileTable s fname).2.cwd = s.cwd := by
  unfold removeFromFileTable
  split
  · rfl
  · exact fileClose_cwd s _

theorem fileRead_cwd (s : Fs σ) (file : File) (size : Int) : (fileRead s file size).2.2.cwd = s.cwd :=
  (blind_cwd.inodeReadAt (s.use file.inode) file.inode size file.pos).trans (s.use_cwd file.inode)

theorem fileWrite_cwd (s : Fs σ) (file : File) (buffer : Nat → Byte) (size : Int) :
    (fileWrite s file buffer size).2.2.cwd = s.cwd :=
  (blind_cwd.inodeWriteAt (s.use file.inode) file.inode _ size file.pos).trans (s.use_cwd file.inode)

theorem openNamed_cwd (s : Fs σ) (named : Named name) (sole : Sole a s.cwd) : (openNamed s name).2.cwd = s.cwd := by
  have opened := filesysOpen_cwd s named sole.counted
  unfold openNamed
  split
  · rfl
  · simp only
    split
    · exact opened
    · rw [addToFileTable_cwd, opened]

theorem fsutilWrite_cwd (s : Fs σ) (named : Named name) (sole : Sole a s.cwd) (buffer : Nat → Byte) (size : Int) :
    (fsutilWrite s name buffer size).2.cwd = s.cwd := by
  have opened := openNamed_cwd s named sole
  unfold fsutilWrite
  simp only
  split
  · exact opened
  · exact (fileWrite_cwd _ _ _ _).trans opened

theorem fsutilRead_cwd (s : Fs σ) (named : Named name) (sole : Sole a s.cwd) (size : Int) :
    (fsutilRead s name size).2.cwd = s.cwd := by
  have opened := openNamed_cwd s named sole
  unfold fsutilRead
  simp only
  split
  · exact opened
  · exact (fileRead_cwd _ _ _).trans opened

theorem fsutilSize_cwd (s : Fs σ) (named : Named name) (sole : Sole a s.cwd) : (fsutilSize s name).2.cwd = s.cwd := by
  have opened := openNamed_cwd s named sole
  unfold fsutilSize
  simp only
  split
  · exact opened
  · exact (Fs.use_cwd _ _).trans opened

theorem fsutilSeek_cwd (s : Fs σ) (named : Named name) (sole : Sole a s.cwd) (offset : Int) :
    (fsutilSeek s name offset).2.cwd = s.cwd := by
  have opened := openNamed_cwd s named sole
  unfold fsutilSeek
  simp only
  split <;> exact opened

theorem catLoop_cwd (s : Fs σ) (file : File) (size : Int) (dumped : List (Int × List Byte)) :
    (catLoop s file size dumped).2.2.cwd = s.cwd := by
  fun_induction catLoop s file size dumped with
  | case1 s file dumped r done => exact fileRead_cwd s file size
  | case2 s file dumped r more ih => exact ih.trans (fileRead_cwd s file size)

theorem fsutilCat_cwd (s : Fs σ) (named : Named name) (sole : Sole a s.cwd) : (fsutilCat s name).2.cwd = s.cwd := by
  have opened := openNamed_cwd s named sole
  unfold fsutilCat
  simp only
  split
  · exact opened
  · split
    · exact (removeFromFileTable_cwd _ _).trans ((catLoop_cwd _ _ _ _).trans opened)
    · exact (catLoop_cwd _ _ _ _).trans opened

theorem copyOut_cwd (s : Fs σ) (named : Named name) (sole : Sole a s.cwd) (creates : Bool) :
    (FileSystem.copyOut s name creates).2.2.cwd = s.cwd := by
  have sized := fsutilSize_cwd s named sole
  have opened := openNamed_cwd (fsutilSize s name).2 named (by rw [sized]; exact sole)
  have read := fun file => fsutilRead_cwd
    (setFile (openNamed (fsutilSize s name).2 name).2 name (fileSeek file 0)) named
    (show Sole a (openNamed (fsutilSize s name).2 name).2.cwd by rw [opened, sized]; exact sole) (fsutilSize s name).1
  unfold FileSystem.copyOut
  simp only
  split
  · exact opened.trans sized
  · split <;> exact (read _).trans (opened.trans sized)

theorem fsutilCreate_cwd (name : CString) (s : Fs σ) (sole : Sole a s.cwd) (size : Int) :
    (fsutilCreate s name size).2.cwd = s.cwd := by
  unfold fsutilCreate
  split
  · rfl
  · exact filesysCreate_cwd s name _ sole.counted

theorem fsutilRm_sole (s : Fs σ) (sole : Sole a s.cwd) : Sole a (fsutilRm s name).2.cwd :=
  filesysRemove_sole _ name (by rw [removeFromFileTable_cwd]; exact sole)

theorem named_of_created (s : Fs σ) {size : Int} (made : (fsutilCreate s name size).1 = true) : Named name := by
  right
  intro empty
  have refused : ∀ (t : Fs σ) dir sector length, (createAt t dir [] sector length false).1 = false := by
    intro t dir sector length
    unfold createAt dirAdd
    simp only [List.length_nil, true_or, if_true]
    split <;> rfl
  unfold fsutilCreate at made
  split at made
  · cases made
  · unfold filesysCreate at made
    rw [empty] at made
    simp only at made
    split at made
    · rw [refused] at made
      cases made
    · cases made

theorem copyIn_cwd (s : Fs σ) (sole : Sole a s.cwd) (host : Option (List Byte)) :
    (FileSystem.copyIn s name host).2.cwd = s.cwd := by
  cases host with
  | none => rfl
  | some bytes =>
    have created := fun size => fsutilCreate_cwd name s sole size
    simp only [FileSystem.copyIn]
    generalize (if offsetOf (fsutilFreespace s * BLOCK_SECTOR_SIZE) < (bytes.length : Int) + 1 then
      offsetOf (fsutilFreespace s * BLOCK_SECTOR_SIZE) else (bytes.length : Int) + 1) = size
    split
    · exact created size
    next made =>
      have named := named_of_created s (Bool.not_eq_false _ ▸ made)
      rw [fsutilWrite_cwd _ named (by rw [created]; exact sole)]
      exact created size

theorem rebuild_cwd (files : List FileData) (s : Fs σ) (sole : Sole a s.cwd) : (rebuild files s).2.cwd = s.cwd := by
  induction files generalizing s with
  | nil => rfl
  | cons file rest ih =>
    have created := fsutilCreate_cwd file.name s sole file.size
    rw [rebuild]
    simp only
    split
    next made =>
      have named := named_of_created s made
      have written := fsutilWrite_cwd (fsutilCreate s file.name file.size).2 named (by rw [created]; exact sole)
        (fun i => file.data.getD i 0) file.size
      split
      · exact written.trans created
      · rw [ih _ (by rw [written, created]; exact sole), written, created]
    next => exact created

end cwd

end ShellOs.FileSystem
