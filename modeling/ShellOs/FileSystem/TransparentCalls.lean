import ShellOs.FileSystem.Filesys

/-! The calls of the file system run on plain sectors as they run on the buffer cache. -/

namespace ShellOs.FileSystem
open Lib

variable {σ : Type} [Store σ BlockSector Sector] [LawfulStore σ]

theorem scanEntries_flat (s : Fs σ) (inode : BlockSector) (stop : DirEntry → Bool) (ofs : Int) :
    scanEntries s.flat inode stop ofs =
      ((scanEntries s inode stop ofs).1, (scanEntries s inode stop ofs).2.1, s.flat) ∧
    (scanEntries s inode stop ofs).2.2.flat = s.flat := by
  fun_induction scanEntries s inode stop ofs with
  | case1 s ofs r whole found =>
    have same : flatten r = inodeReadAt s.flat inode ENTRY_SIZE ofs := inodeReadAt_flat _ _ _ _
    have state : r.2.flat = s.flat := inodeReadAt_snd _ _ _ _
    rw [scanEntries]
    simp only [← same, flatten_fst, flatten_snd, state]
    rw [dif_pos whole, if_pos found]
    exact ⟨rfl, trivial⟩
  | case2 s ofs r whole other ih =>
    have same : flatten r = inodeReadAt s.flat inode ENTRY_SIZE ofs := inodeReadAt_flat _ _ _ _
    have state : r.2.flat = s.flat := inodeReadAt_snd _ _ _ _
    rw [state] at ih
    rw [scanEntries]
    simp only [← same, flatten_fst, flatten_snd, state]
    rw [dif_pos whole, if_neg other]
    exact ih
  | case3 s ofs r short =>
    have same : flatten r = inodeReadAt s.flat inode ENTRY_SIZE ofs := inodeReadAt_flat _ _ _ _
    have state : r.2.flat = s.flat := inodeReadAt_snd _ _ _ _
    rw [scanEntries]
    simp only [← same, flatten_fst, flatten_snd, state]
    rw [dif_neg short]
    exact ⟨rfl, trivial⟩

theorem lookup_flat (s : Fs σ) (inode : BlockSector) (name : CString) :
    flatten (lookup s inode name) = lookup s.flat inode name := by
  obtain ⟨flat, state⟩ := scanEntries_flat s inode (fun e => e.inUse && e.cName == name) ENTRY_SIZE
  simp only [lookup, flat, flatten_mk, state]

omit [LawfulStore σ] in
theorem flatten_ite {β : Type} (c : Prop) [Decidable c] (r t : β × Fs σ) :
    flatten (if c then r else t) = if c then flatten r else flatten t := apply_ite _ _ _ _

omit [LawfulStore σ] in
theorem flat_ite (c : Prop) [Decidable c] (s t : Fs σ) :
    (if c then s else t).flat = if c then s.flat else t.flat := apply_ite _ _ _ _

omit [LawfulStore σ] in
theorem cwd_flat (s : Fs σ) : s.flat.cwd = s.cwd := rfl

omit [LawfulStore σ] in
theorem dirAt_flat (s : Fs σ) (dir : Dir) : dirAt s.flat dir = dirAt s dir := rfl

omit [LawfulStore σ] in
theorem inodeIsDirectory_flat (s : Fs σ) (inode : BlockSector) :
    inodeIsDirectory s.flat inode = inodeIsDirectory s inode := rfl

omit [LawfulStore σ] in
theorem setDir_flat (s : Fs σ) (dir : Dir) : (setDir s dir).flat = setDir s.flat dir := by
  unfold setDir
  rw [cwd_flat]
  cases s.cwd with
  | none => rfl
  | some current =>
    simp only [flat_ite]
    rfl

omit [LawfulStore σ] in
theorem dirOpen_flat (s : Fs σ) (inode : BlockSector) :
    flatten (dirOpen s inode) = dirOpen s.flat inode := rfl

theorem dirOpenRoot_flat (s : Fs σ) : flatten (dirOpenRoot s) = dirOpenRoot s.flat := by
  unfold dirOpenRoot
  rw [cwd_flat]
  cases s.cwd with
  | none =>
    simp only [← inodeOpen_flat, flatten_snd]
    rfl
  | some current => rfl

theorem dirClose_flat (s : Fs σ) (dir : Dir) : (dirClose s dir).flat = dirClose s.flat dir := by
  simp only [dirClose, dirAt_flat, flat_ite, setDir_flat, ← inodeClose_flat]
  rfl

theorem dirIsEmpty_flat (s : Fs σ) (dir : Dir) :
    flatten (dirIsEmpty s dir) = dirIsEmpty s.flat dir := by
  obtain ⟨flat, state⟩ := scanEntries_flat s dir.inode (fun e => e.inUse) ENTRY_SIZE
  simp only [dirIsEmpty, flat, flatten_mk, state]

theorem dirLookup_flat (s : Fs σ) (dir : Dir) (name : CString) :
    flatten (dirLookup s dir name) = dirLookup s.flat dir name := by
  simp only [dirLookup, flatten_ite, ← Fs.use_flat, ← inodeReadAt_flat, ← lookup_flat, flatten_fst, flatten_snd,
    ← inodeOpen_flat, flatten_mk]
  congr 2
  cases (lookup (s.use dir.inode) dir.inode name).1 <;> rfl

theorem writeParent_flat (s : Fs σ) (sector parent : BlockSector) :
    flatten (writeParent s sector parent) = writeParent s.flat sector parent := by
  simp only [writeParent, ← inodeOpen_flat, flatten_fst, flatten_snd, ← dirOpen_flat, ← inodeWriteAt_flat,
    ← dirClose_flat, flatten_mk]

theorem dirAdd_flat (s : Fs σ) (dir : Dir) (name : CString) (inodeSector : BlockSector) (isDir : Bool) :
    flatten (dirAdd s dir name inodeSector isDir) = dirAdd s.flat dir name inodeSector isDir := by
  unfold dirAdd
  simp only [← Fs.use_flat]
  generalize s.use dir.inode = t
  simp only [← lookup_flat, flatten_fst, flatten_snd]
  have parent : (if isDir = true then writeParent (lookup t dir.inode name).2.flat inodeSector dir.inode
      else (true, (lookup t dir.inode name).2.flat)) =
      flatten (if isDir = true then writeParent (lookup t dir.inode name).2 inodeSector dir.inode
      else (true, (lookup t dir.inode name).2)) := by
    rw [flatten_ite, writeParent_flat, flatten_mk]
  rw [parent]
  generalize (if isDir = true then writeParent (lookup t dir.inode name).2 inodeSector dir.inode
      else (true, (lookup t dir.inode name).2)) = r
  obtain ⟨flat, state⟩ := scanEntries_flat r.2 dir.inode (fun e => !e.inUse) 0
  simp only [flatten_ite, flatten_fst, flatten_snd, flatten_mk, flat]
  rw [← state, ← inodeWriteAt_flat]
  rfl

theorem dirRemove_flat (s : Fs σ) (dir : Dir) (name : CString) :
    flatten (dirRemove s dir name) = dirRemove s.flat dir name := by
  simp only [dirRemove, ← Fs.use_flat, ← lookup_flat, flatten_fst, flatten_snd]
  cases (lookup (s.use dir.inode) dir.inode name).1 with
  | none => rfl
  | some found =>
    generalize (lookup (s.use dir.inode) dir.inode name).2 = t
    simp only [← inodeOpen_flat, flatten_snd, inodeIsDirectory_flat, flatten_ite]
    generalize (inodeOpen t found.1.inodeSector).2 = u
    have empty : (if inodeIsDirectory u found.1.inodeSector = true then
          ((dirIsEmpty (dirOpen u.flat found.1.inodeSector).2 (dirOpen u.flat found.1.inodeSector).1).1,
            dirClose (dirIsEmpty (dirOpen u.flat found.1.inodeSector).2
              (dirOpen u.flat found.1.inodeSector).1).2 (dirOpen u.flat found.1.inodeSector).1)
          else (true, u.flat)) =
        flatten (if inodeIsDirectory u found.1.inodeSector = true then
          ((dirIsEmpty (dirOpen u found.1.inodeSector).2 (dirOpen u found.1.inodeSector).1).1,
            dirClose (dirIsEmpty (dirOpen u found.1.inodeSector).2
              (dirOpen u found.1.inodeSector).1).2 (dirOpen u found.1.inodeSector).1)
          else (true, u)) := by
      simp only [flatten_ite, flatten_mk, ← dirOpen_flat, flatten_fst, flatten_snd, ← dirIsEmpty_flat,
        dirClose_flat]
    rw [empty]
    generalize (if inodeIsDirectory u found.1.inodeSector = true then _ else (true, u)) = r
    simp only [flatten_fst, flatten_snd, ← inodeWriteAt_flat, flatten_mk, inodeClose_flat, inodeRemove_flat]

theorem dirReaddir_flat (s : Fs σ) (dir : Dir) :
    dirReaddir s.flat dir = ((dirReaddir s dir).1, (dirReaddir s dir).2.1, (dirReaddir s dir).2.2.flat) := by
  obtain ⟨flat, state⟩ :=
    scanEntries_flat (s.use (dirAt s dir).inode) (dirAt s dir).inode (fun e => e.inUse) (dirAt s dir).pos
  simp only [dirReaddir, dirAt_flat, ← Fs.use_flat, flat, setDir_flat, state]

theorem openComponents_flat (components : List CString) (s : Fs σ) (curr : Dir) :
    flatten (openComponents components s curr) = openComponents components s.flat curr := by
  induction components generalizing s curr with
  | nil =>
    simp only [openComponents, ← Fs.use_flat, flatten_ite, flatten_mk, dirClose_flat]
    rfl
  | cons token rest ih =>
    simp only [openComponents, ← dirLookup_flat, flatten_fst, flatten_snd]
    cases (dirLookup s curr token).1 with
    | none => simp only [flatten_mk, dirClose_flat]
    | some inode => simp only [ih, dirClose_flat, ← dirOpen_flat, flatten_fst, flatten_snd]

theorem dirOpenPath_flat (s : Fs σ) (path : CString) :
    flatten (dirOpenPath s path) = dirOpenPath s.flat path := by
  unfold dirOpenPath
  rw [openComponents_flat, cwd_flat]
  cases s.cwd with
  | none =>
    simp only [← dirOpenRoot_flat]
    split <;> rfl
  | some current =>
    simp only [← dirOpenRoot_flat]
    split <;> rfl

omit [LawfulStore σ] in
theorem dirCreate_eq {s : Fs σ} {sector : BlockSector} {entryCnt : Nat} {r : Bool × Fs σ}
    (created : inodeCreate s sector (offsetOf (entryCnt * ENTRY_SIZE)) true = r) :
    dirCreate s sector entryCnt =
      if r.1 = false then (false, r.2) else writeParent r.2 sector sector := by
  rw [← created]
  rfl

theorem dirCreate_flat (s : Fs σ) (sector : BlockSector) (entryCnt : Nat) :
    flatten (dirCreate s sector entryCnt) = dirCreate s.flat sector entryCnt := by
  have rest : ∀ r : Bool × Fs σ, flatten (if r.1 = false then (false, r.2)
      else writeParent r.2 sector sector) = if (flatten r).1 = false then (false, (flatten r).2)
        else writeParent (flatten r).2 sector sector := by
    intro r
    rw [flatten_ite, writeParent_flat, flatten_mk, flatten_snd, flatten_fst]
  have same := inodeCreate_flat s sector (offsetOf (entryCnt * ENTRY_SIZE)) true
  exact ((congrArg flatten (dirCreate_eq rfl)).trans (rest _)).trans (dirCreate_eq same.symm).symm

omit [LawfulStore σ] in
theorem inodeAllowWrite_flat (s : Fs σ) (inode : BlockSector) :
    (inodeAllowWrite s inode).flat = inodeAllowWrite s.flat inode := rfl

theorem fileClose_flat (s : Fs σ) (file : File) : (fileClose s file).flat = fileClose s.flat file := by
  simp only [fileClose, inodeClose_flat, flat_ite, inodeAllowWrite_flat]

theorem bitmapRead_flat (s : Fs σ) (file : File) : (bitmapRead s file).flat = bitmapRead s.flat file := by
  have load : ∀ r : List Byte × Fs σ, Fs.flat { r.2 with freeMap := loadBitmap s.freeMap r.1 } =
      { (flatten r).2 with freeMap := loadBitmap s.freeMap (flatten r).1 } := fun _ => rfl
  have read := inodeReadAt_flat s file.inode (offsetOf (byteCnt s.freeMap.bitCnt)) 0
  unfold bitmapRead
  rw [flat_ite, load, read]
  rfl

theorem openFreeMapFile_flat (s : Fs σ) : (openFreeMapFile s).flat = openFreeMapFile s.flat := by
  simp only [openFreeMapFile, ← inodeOpen_flat, flatten_snd]
  rfl

theorem freeMapOpen_flat (s : Fs σ) : (freeMapOpen s).flat = freeMapOpen s.flat := by
  simp only [freeMapOpen, bitmapRead_flat, openFreeMapFile_flat]

theorem freeMapClose_flat (s : Fs σ) : (freeMapClose s).flat = freeMapClose s.flat := by
  have file : s.flat.freeMapFile = s.freeMapFile := rfl
  simp only [freeMapClose, file]
  cases s.freeMapFile with
  | none => rfl
  | some file => exact fileClose_flat s file

omit [LawfulStore σ] in
theorem freeMapCreate_eq {s : Fs σ} {r : Bool × Fs σ}
    (created : inodeCreate s FREE_MAP_SECTOR (offsetOf (bitmapFileSize s.freeMap)) false = r) :
    freeMapCreate s = (r.1 && (bitmapWrite (openFreeMapFile r.2) (fileOpen FREE_MAP_SECTOR)).1,
      (bitmapWrite (openFreeMapFile r.2) (fileOpen FREE_MAP_SECTOR)).2) := by
  unfold freeMapCreate
  rw [created]

theorem freeMapCreate_flat (s : Fs σ) : flatten (freeMapCreate s) = freeMapCreate s.flat := by
  have rest : ∀ r : Bool × Fs σ, flatten
      (r.1 && (bitmapWrite (openFreeMapFile r.2) (fileOpen FREE_MAP_SECTOR)).1,
        (bitmapWrite (openFreeMapFile r.2) (fileOpen FREE_MAP_SECTOR)).2) =
      ((flatten r).1 && (bitmapWrite (openFreeMapFile (flatten r).2) (fileOpen FREE_MAP_SECTOR)).1,
        (bitmapWrite (openFreeMapFile (flatten r).2) (fileOpen FREE_MAP_SECTOR)).2) := by
    intro r
    simp only [flatten_mk, flatten_fst, flatten_snd, ← openFreeMapFile_flat, ← bitmapWrite_flat]
  have create := inodeCreate_flat s FREE_MAP_SECTOR (offsetOf (bitmapFileSize s.freeMap)) false
  exact ((congrArg flatten (freeMapCreate_eq rfl)).trans (rest _)).trans
    (freeMapCreate_eq (s := s.flat) create.symm).symm

theorem doFormat_flat (s : Fs σ) : (doFormat s).flat = doFormat s.flat := by
  simp only [doFormat, freeMapClose_flat]
  rw [← flatten_snd, dirCreate_flat, ← flatten_snd, freeMapCreate_flat]

theorem filesysInit_flat (cache : σ) (size : BlockSector) (format : Bool) :
    (filesysInit cache size format).flat = filesysInit (Store.view cache) size format := by
  simp only [filesysInit, freeMapOpen_flat, flat_ite, doFormat_flat]
  rfl

theorem createAt_flat (s : Fs σ) (dir : Dir) (fileName : CString) (inodeSector : BlockSector)
    (initialSize : Int) (isDir : Bool) : flatten (createAt s dir fileName inodeSector initialSize isDir) =
      createAt s.flat dir fileName inodeSector initialSize isDir := by
  simp only [createAt, flatten_ite, ← inodeCreate_flat, flatten_fst, flatten_snd, ← dirAdd_flat, flatten_mk]

theorem filesysCreate_flat (s : Fs σ) (path : CString) (initialSize : Int) (isDir : Bool) :
    flatten (filesysCreate s path initialSize isDir) = filesysCreate s.flat path initialSize isDir := by
  have rest : ∀ (dir : Dir) (inodeSector : BlockSector) (r : Bool × Fs σ), flatten
      (r.1, dirClose (if r.1 = false ∧ inodeSector ≠ 0 then freeMapRelease r.2 inodeSector 1 else r.2) dir) =
      ((flatten r).1, dirClose (if (flatten r).1 = false ∧ inodeSector ≠ 0
        then freeMapRelease (flatten r).2 inodeSector 1 else (flatten r).2) dir) := by
    intro dir inodeSector r
    simp only [flatten_mk, dirClose_flat, flat_ite, freeMapRelease_flat, flatten_fst, flatten_snd]
    rfl
  unfold filesysCreate
  simp only [← dirOpenRoot_flat, ← freeMapAllocate_flat, flatten_fst, flatten_snd, rest, flatten_ite,
    createAt_flat, flatten_mk]

omit [LawfulStore σ] in
theorem openFound_flat (r : Option BlockSector × Fs σ) : flatten (openFound r) = openFound (flatten r) := by
  unfold openFound
  simp only [flatten_fst, flatten_snd]
  cases r.1 with
  | none => rfl
  | some inode =>
    simp only [flatten_ite, flatten_mk, ← Fs.use_flat]
    rfl

theorem filesysOpen_flat (s : Fs σ) (name : CString) :
    flatten (filesysOpen s name) = filesysOpen s.flat name := by
  simp only [filesysOpen, flatten_ite, openFound_flat, ← dirOpenRoot_flat, flatten_fst, flatten_snd,
    ← dirLookup_flat, flatten_mk, dirClose_flat]

theorem filesysRemove_flat (s : Fs σ) (name : CString) :
    flatten (filesysRemove s name) = filesysRemove s.flat name := by
  simp only [filesysRemove, ← dirOpenPath_flat, flatten_fst, flatten_snd]
  cases (dirOpenPath s (splitPathFilename name).1).1 with
  | none => rfl
  | some d => simp only [← dirRemove_flat, flatten_fst, flatten_snd, flatten_mk, dirClose_flat]

end ShellOs.FileSystem
