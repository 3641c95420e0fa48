import ShellOs.FileSystem.RootCursor
import ShellOs.FileSystem.WriteCommand

/-! The table of open files: the calls on inodes, directories and paths leave it alone. -/

namespace ShellOs.FileSystem
open Lib

section handles

variable {σ : Type}

theorem blind_fileTable : Blind (Fs.fileTable : Fs σ → List FileTableEntry) :=
  ⟨fun _ _ => rfl, fun _ _ => rfl, fun _ _ _ => rfl⟩

theorem setDir_fileTable (s : Fs σ) (dir : Dir) : (setDir s dir).fileTable = s.fileTable := by
  unfold setDir
  split
  · split <;> rfl
  · rfl

variable [Store σ BlockSector Sector]

theorem inodeOpen_fileTable (s : Fs σ) (sector : BlockSector) : (inodeOpen s sector).2.fileTable = s.fileTable := by
  unfold inodeOpen
  split <;> rfl

theorem dirOpenRoot_fileTable (s : Fs σ) : (dirOpenRoot s).2.fileTable = s.fileTable := by
  unfold dirOpenRoot
  split
  · exact inodeOpen_fileTable s ROOT_DIR_SECTOR
  · rfl

variable [LawfulStore σ]

theorem inodeClose_fileTable (s : Fs σ) (inode : BlockSector) : (inodeClose s inode).fileTable = s.fileTable := by
  unfold inodeClose
  split
  · exact s.use_fileTable inode
  · simp only
    split
    · split
      · rw [blind_fileTable.inodeDeallocate, blind_fileTable.freeMapRelease]
      · rfl
    · rfl

theorem dirClose_fileTable (s : Fs σ) (dir : Dir) : (dirClose s dir).fileTable = s.fileTable := by
  unfold dirClose
  simp only
  split
  · exact inodeClose_fileTable s _
  · exact setDir_fileTable s _

theorem fileClose_fileTable (s : Fs σ) (file : File) : (fileClose s file).fileTable = s.fileTable := by
  rw [fileClose, inodeClose_fileTable]
  split <;> rfl

theorem fileRead_fileTable (s : Fs σ) (file : File) (size : Int) : (fileRead s file size).2.2.fileTable = s.fileTable :=
  (blind_fileTable.inodeReadAt (s.use file.inode) file.inode size file.pos).trans (s.use_fileTable file.inode)

theorem fileWrite_fileTable (s : Fs σ) (file : File) (buffer : Nat → Byte) (size : Int) :
    (fileWrite s file buffer size).2.2.fileTable = s.fileTable :=
  (blind_fileTable.inodeWriteAt (s.use file.inode) file.inode _ size file.pos).trans (s.use_fileTable file.inode)

end handles

section entries

variable {σ : Type} [Store σ BlockSector Sector] [LawfulStore σ]

theorem dirLookup_fileTable (s : Fs σ) (dir : Dir) (name : CString) :
    (dirLookup s dir name).2.fileTable = s.fileTable := by
  have used := s.use_fileTable dir.inode
  have read := (blind_fileTable.inodeReadAt (s.use dir.inode) dir.inode ENTRY_SIZE 0).trans used
  have found := (blind_fileTable.lookup (s.use dir.inode) dir.inode name).trans used
  unfold dirLookup
  split
  · rfl
  split
  · exact (inodeOpen_fileTable _ _).trans read
  simp only
  split
  · exact (inodeOpen_fileTable _ _).trans found
  · exact found

theorem writeParent_fileTable (s : Fs σ) (sector parent : BlockSector) :
    (writeParent s sector parent).2.fileTable = s.fileTable := by
  unfold writeParent
  simp only
  rw [dirClose_fileTable, blind_fileTable.inodeWriteAt]
  exact inodeOpen_fileTable s sector

theorem dirRemove_fileTable (s : Fs σ) (dir : Dir) (name : CString) :
    (dirRemove s dir name).2.fileTable = s.fileTable := by
  have found := (blind_fileTable.lookup (s.use dir.inode) dir.inode name).trans (s.use_fileTable dir.inode)
  have opened := fun x => (inodeOpen_fileTable (lookup (s.use dir.inode) dir.inode name).2 x).trans found
  have empty : ∀ (t : Fs σ) inode, t.fileTable = s.fileTable →
      (if inodeIsDirectory t inode then
        ((dirIsEmpty (dirOpen t inode).2 (dirOpen t inode).1).1,
          dirClose (dirIsEmpty (dirOpen t inode).2 (dirOpen t inode).1).2 (dirOpen t inode).1)
      else (true, t)).2.fileTable = s.fileTable := by
    intro t inode same
    split
    · simp only [dirIsEmpty]
      rw [dirClose_fileTable, blind_fileTable.scanEntries]
      exact same
    · exact same
  have last : ∀ (r : Bool × Fs σ) inode (buffer : Nat → Byte) ofs, r.2.fileTable = s.fileTable →
      (if r.1 = false then (false, inodeClose r.2 inode)
      else
        let w := inodeWriteAt r.2 dir.inode buffer ENTRY_SIZE ofs
        if w.1 = ENTRY_SIZE then (true, inodeClose (inodeRemove w.2 inode) inode)
        else (false, inodeClose w.2 inode)).2.fileTable = s.fileTable := by
    intro r inode buffer ofs same
    have wrote := (blind_fileTable.inodeWriteAt r.2 dir.inode buffer ENTRY_SIZE ofs).trans same
    simp only
    split
    · rw [inodeClose_fileTable, same]
    · split
      · rw [inodeClose_fileTable]
        exact wrote
      · rw [inodeClose_fileTable, wrote]
  unfold dirRemove
  simp only
  split
  · exact found
  · exact last _ _ _ _ (empty _ _ (opened _))

theorem dirReaddir_fileTable (s : Fs σ) (dir : Dir) : (dirReaddir s dir).2.2.fileTable = s.fileTable := by
  simp only [dirReaddir]
  rw [setDir_fileTable, blind_fileTable.scanEntries, Fs.use_fileTable]

theorem openComponents_fileTable (components : List CString) (s : Fs σ) (curr : Dir) :
    (openComponents components s curr).2.fileTable = s.fileTable := by
  induction components generalizing s curr with
  | nil =>
    have used := s.use_fileTable curr.inode
    unfold openComponents
    simp only
    split
    · exact (dirClose_fileTable _ curr).trans used
    · exact used
  | cons token rest ih =>
    have looked := dirLookup_fileTable s curr token
    unfold openComponents
    simp only
    split
    · rw [dirClose_fileTable, looked]
    · rw [ih, dirClose_fileTable]
      exact looked

theorem dirOpenPath_fileTable (s : Fs σ) (path : CString) : (dirOpenPath s path).2.fileTable = s.fileTable := by
  unfold dirOpenPath
  simp only
  rw [openComponents_fileTable]
  split
  · exact dirOpenRoot_fileTable s
  · split
    · exact dirOpenRoot_fileTable s
    · rfl

theorem filesysCreate_fileTable (s : Fs σ) (path : CString) (size : Int) :
    (filesysCreate s path size false).2.fileTable = s.fileTable := by
  have created := fun (t : Fs σ) => blind_fileTable.createAt Fs.use_fileTable t
  have allocated := (blind_fileTable.freeMapAllocate (dirOpenRoot s).2 1).trans (dirOpenRoot_fileTable s)
  unfold filesysCreate
  simp only
  rw [dirClose_fileTable]
  split <;> split <;> simp only [blind_fileTable.freeMapRelease, created, allocated]

omit [Store σ BlockSector Sector] [LawfulStore σ] in
theorem openFound_fileTable (r : Option BlockSector × Fs σ) : (openFound r).2.fileTable = r.2.fileTable := by
  rw [openFound_snd]
  cases r.1 with
  | none => rfl
  | some inode => exact r.2.use_fileTable inode

theorem filesysOpen_fileTable (s : Fs σ) (name : CString) : (filesysOpen s name).2.fileTable = s.fileTable := by
  unfold filesysOpen
  split
  · rfl
  · simp only
    split
    · rw [openFound_fileTable, dirClose_fileTable, dirLookup_fileTable, dirOpenRoot_fileTable]
    · rw [openFound_fileTable, dirOpenRoot_fileTable]

theorem filesysRemove_fileTable (s : Fs σ) (name : CString) : (filesysRemove s name).2.fileTable = s.fileTable := by
  have path := dirOpenPath_fileTable s (splitPathFilename name).1
  unfold filesysRemove
  simp only
  split
  · exact path
  · rw [dirClose_fileTable, dirRemove_fileTable, path]

omit [LawfulStore σ] in
theorem openFreeMapFile_fileTable (s : Fs σ) : (openFreeMapFile s).fileTable = s.fileTable :=
  inodeOpen_fileTable s FREE_MAP_SECTOR

theorem freeMapOpen_fileTable (s : Fs σ) : (freeMapOpen s).fileTable = s.fileTable := by
  rw [freeMapOpen, blind_fileTable.bitmapRead, openFreeMapFile_fileTable]

theorem freeMapClose_fileTable (s : Fs σ) : (freeMapClose s).fileTable = s.fileTable := by
  unfold freeMapClose
  split
  · exact fileClose_fileTable s _
  · rfl

theorem freeMapCreate_fileTable (s : Fs σ) : (freeMapCreate s).2.fileTable = s.fileTable := by
  have rest : ∀ r : Bool × Fs σ, (r.1 && (bitmapWrite (openFreeMapFile r.2) (fileOpen FREE_MAP_SECTOR)).1,
      (bitmapWrite (openFreeMapFile r.2) (fileOpen FREE_MAP_SECTOR)).2).2.fileTable = r.2.fileTable := by
    intro r
    simp only
    rw [blind_fileTable.bitmapWrite, openFreeMapFile_fileTable]
  rw [freeMapCreate_eq rfl]
  exact (rest _).trans (blind_fileTable.inodeCreate s FREE_MAP_SECTOR _ false)

theorem dirCreate_fileTable (s : Fs σ) (sector : BlockSector) (entryCnt : Nat) :
    (dirCreate s sector entryCnt).2.fileTable = s.fileTable := by
  have rest : ∀ r : Bool × Fs σ,
      (if r.1 = false then (false, r.2) else writeParent r.2 sector sector).2.fileTable = r.2.fileTable := by
    intro r
    split
    · rfl
    · exact writeParent_fileTable r.2 sector sector
  rw [dirCreate_eq rfl]
  exact (rest _).trans (blind_fileTable.inodeCreate s sector _ true)

theorem filesysInit_fileTable (cache : σ) (size : BlockSector) (format : Bool) :
    (filesysInit cache size format).fileTable = [] := by
  have start : (filesysStart cache size).fileTable = [] := rfl
  rw [filesysInit, freeMapOpen_fileTable]
  split
  · rw [doFormat, freeMapClose_fileTable, dirCreate_fileTable, freeMapCreate_fileTable, start]
  · exact start

end entries

end ShellOs.FileSystem
