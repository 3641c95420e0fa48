import ShellOs.FileSystem.Fsutil2

/-! The shell's file commands run on plain sectors as they run on the buffer cache. -/

namespace ShellOs.FileSystem
open Lib

variable {σ : Type} [Store σ BlockSector Sector] [LawfulStore σ]

theorem openNamed_flat (s : Fs σ) (fileName : CString) : flatten (openNamed s fileName) = openNamed s.flat fileName := by
  simp only [openNamed, getFileByFname_flat, ← filesysOpen_flat, flatten_fst, flatten_snd]
  cases getFileByFname s fileName with
  | some file => rfl
  | none =>
    cases (filesysOpen s fileName).1 with
    | none => rfl
    | some file => simp only [flatten_mk, addToFileTable_flat]

theorem fsutilCreate_flat (s : Fs σ) (fname : CString) (isize : Int) :
    flatten (fsutilCreate s fname isize) = fsutilCreate s.flat fname isize := by
  simp only [fsutilCreate, flatten_ite, flatten_mk, filesysCreate_flat]

theorem fsutilRm_flat (s : Fs σ) (fileName : CString) : flatten (fsutilRm s fileName) = fsutilRm s.flat fileName := by
  simp only [fsutilRm, filesysRemove_flat, ← removeFromFileTable_flat, flatten_snd]

theorem fsutilWrite_flat (s : Fs σ) (fileName : CString) (buffer : Nat → Byte) (size : Int) :
    flatten (fsutilWrite s fileName buffer size) = fsutilWrite s.flat fileName buffer size := by
  simp only [fsutilWrite, ← openNamed_flat, flatten_fst, flatten_snd]
  cases (openNamed s fileName).1 with
  | none => rfl
  | some file => simp only [flatten_mk, fileWrite_flat, setFile_flat]

theorem fsutilRead_flat (s : Fs σ) (fileName : CString) (size : Int) :
    flatten (fsutilRead s fileName size) = fsutilRead s.flat fileName size := by
  simp only [fsutilRead, ← openNamed_flat, flatten_fst, flatten_snd]
  cases (openNamed s fileName).1 with
  | none => rfl
  | some file => simp only [flatten_mk, fileRead_flat, setFile_flat]

theorem fsutilSize_flat (s : Fs σ) (fileName : CString) :
    flatten (fsutilSize s fileName) = fsutilSize s.flat fileName := by
  simp only [fsutilSize, ← openNamed_flat, flatten_fst, flatten_snd]
  cases (openNamed s fileName).1 with
  | none => rfl
  | some file => simp only [flatten_mk, ← Fs.use_flat, fileLength_flat, setFile_flat]

theorem fsutilSeek_flat (s : Fs σ) (fileName : CString) (offset : Int) :
    flatten (fsutilSeek s fileName offset) = fsutilSeek s.flat fileName offset := by
  simp only [fsutilSeek, ← openNamed_flat, flatten_fst, flatten_snd]
  cases (openNamed s fileName).1 with
  | none => rfl
  | some file => rfl

theorem catLoop_flat (s : Fs σ) (file : File) (size : Int) (dumped : List (Int × List Byte)) :
    catLoop s.flat file size dumped = ((catLoop s file size dumped).1, (catLoop s file size dumped).2.1,
      (catLoop s file size dumped).2.2.flat) := by
  fun_induction catLoop s file size dumped with
  | case1 s file dumped r done =>
    have same := fileRead_flat s file size
    rw [catLoop, dif_pos (by rw [same]; exact done)]
    rw [same]
  | case2 s file dumped r more ih =>
    have same := fileRead_flat s file size
    rw [catLoop, dif_neg (by rw [same]; exact more)]
    rw [same]
    exact ih

theorem fsutilCat_flat (s : Fs σ) (fileName : CString) :
    flatten (fsutilCat s fileName) = fsutilCat s.flat fileName := by
  simp only [fsutilCat, getFileByFname_flat, ← openNamed_flat, flatten_fst, flatten_snd]
  cases (openNamed s fileName).1 with
  | none => rfl
  | some file =>
    simp only [flatten_mk, catLoop_flat, fileLength_flat, flat_ite, ← removeFromFileTable_flat, ← setFile_flat,
      flatten_snd]

section loops

variable {β : Type} {body : β → Fs σ → CString → β × Fs σ} {flatBody : β → FlatFs → CString → β × FlatFs}

theorem whileReaddir_flat (same : ∀ acc s name, flatten (body acc s name) = flatBody acc s.flat name) (calls : Nat)
    (acc : β) (s : Fs σ) (dir : Dir) : whileReaddir flatBody calls acc s.flat dir =
      ((whileReaddir body calls acc s dir).1, (whileReaddir body calls acc s dir).2.1,
        (whileReaddir body calls acc s dir).2.2.flat) := by
  induction calls generalizing acc s dir with
  | zero => rfl
  | succ calls ih =>
    rw [whileReaddir, whileReaddir, dirReaddir_flat]
    simp only
    cases (dirReaddir s dir).1 with
    | none => rfl
    | some name => simp only [← same, flatten_fst, flatten_snd, ih]

omit [LawfulStore σ] in
theorem readdirCalls_flat (s : Fs σ) (dir : Dir) : readdirCalls s.flat dir = readdirCalls s dir := rfl

theorem forRootNames_flat (same : ∀ acc s name, flatten (body acc s name) = flatBody acc s.flat name) (acc : β)
    (s : Fs σ) : flatten (forRootNames body acc s) = forRootNames flatBody acc s.flat := by
  simp only [forRootNames, ← dirOpenRoot_flat, flatten_fst, flatten_snd, readdirCalls_flat, whileReaddir_flat same,
    flatten_mk, dirClose_flat]

end loops

theorem fsutilLs_flat (s : Fs σ) : flatten (fsutilLs s) = fsutilLs s.flat := forRootNames_flat (fun _ _ _ => rfl) _ _

theorem copyIn_flat (s : Fs σ) (fname : CString) (host : Option (List Byte)) :
    flatten (copyIn s fname host) = copyIn s.flat fname host := by
  cases host with
  | none => rfl
  | some bytes =>
    have space : fsutilFreespace s.flat = fsutilFreespace s := rfl
    simp only [copyIn, space, ← fsutilCreate_flat, flatten_fst, flatten_snd, ← fsutilWrite_flat, flatten_ite, flatten_mk]

theorem copyOut_flat (s : Fs σ) (fname : CString) (creates : Bool) : copyOut s.flat fname creates =
    ((copyOut s fname creates).1, (copyOut s fname creates).2.1, (copyOut s fname creates).2.2.flat) := by
  simp only [copyOut, ← fsutilSize_flat, flatten_fst, flatten_snd, ← openNamed_flat]
  cases (openNamed (fsutilSize s fname).2 fname).1 with
  | none => rfl
  | some file =>
    simp only [← setFile_flat, ← fsutilRead_flat, flatten_fst, flatten_snd]
    split <;> rfl

theorem findFileStep_flat (pattern : CString) (found : Option (List CString)) (s : Fs σ) (name : CString) :
    flatten (findFileStep pattern found s name) = findFileStep pattern found s.flat name := by
  cases found with
  | none => rfl
  | some names =>
    simp only [findFileStep, ← filesysOpen_flat, flatten_fst, flatten_snd]
    cases (filesysOpen s name).1 with
    | none => rfl
    | some file =>
      simp only [flatten_mk, ← addToFileTable_flat, ← fsutilSize_flat, flatten_fst, flatten_snd, fileRead_flat,
        ← removeFromFileTable_flat]

theorem findFile_flat (s : Fs σ) (pattern : CString) : flatten (findFile s pattern) = findFile s.flat pattern :=
  forRootNames_flat (findFileStep_flat pattern) _ _

theorem doublyDataSectors_flat (count i numSectors : Nat) (blocks : Nat → BlockSector) (s : Fs σ) :
    flatten (doublyDataSectors count i numSectors blocks s) = doublyDataSectors count i numSectors blocks s.flat := by
  induction count generalizing i numSectors s with
  | zero => rfl
  | succ count ih =>
    have later := ih (i + 1) (numSectors - min numSectors INDIRECT_BLOCKS_PER_SECTOR) (s.bufferCacheRead (blocks i)).2
    rw [Fs.read_flat] at later
    simp only [doublyDataSectors, flat_read, ← later, flatten_mk, flatten_fst, flatten_snd, Fs.read_fst]

theorem readIndex_flat (s : Fs σ) (wanted : Nat) (sector : BlockSector) :
    flatten (readIndex s wanted sector) = readIndex s.flat wanted sector := by
  unfold readIndex
  split
  · simp [flatten]
  · rfl

theorem getInodeDataSectors_flat (s : Fs σ) (inode : BlockSector) :
    flatten (getInodeDataSectors s inode) = getInodeDataSectors s.flat inode := by
  simp only [getInodeDataSectors, Fs.inodeData_flat, flatten_ite, ← readIndex_flat, flatten_fst, flatten_snd,
    ← doublyDataSectors_flat, flatten_mk]

theorem fragmentationStep_flat (counts : Nat × Nat) (s : Fs σ) (fileName : CString) :
    flatten (fragmentationStep counts s fileName) = fragmentationStep counts s.flat fileName := by
  simp only [fragmentationStep, ← filesysOpen_flat, flatten_fst, flatten_snd]
  cases (filesysOpen s fileName).1 with
  | none => rfl
  | some file =>
    simp only [fileLength_flat, ← getInodeDataSectors_flat, flatten_fst, flatten_snd, flatten_ite, flatten_mk,
      fileClose_flat]

theorem fragmentationDegree_flat (s : Fs σ) (fileName : CString) :
    flatten (fragmentationDegree s fileName) = fragmentationDegree s.flat fileName := by
  simp only [fragmentationDegree, ← dirOpenRoot_flat, flatten_fst, flatten_snd, ← fragmentationStep_flat,
    readdirCalls_flat, whileReaddir_flat fragmentationStep_flat, flatten_mk, dirClose_flat]

theorem backUp_flat (stale : Nat → CString) (dir : Dir) (files : List FileData) (s : Fs σ) (name : CString) :
    flatten (backUp stale dir files s name) = backUp stale dir files s.flat name := by
  simp only [backUp, ← dirLookup_flat, flatten_fst, flatten_snd]
  cases (dirLookup s dir name).1 with
  | none => rfl
  | some inode =>
    simp only [inodeIsDirectory_flat, Fs.inodeLength_flat, ← inodeReadAt_flat, flatten_fst, flatten_snd,
      ← inodeClose_flat, ← fsutilRm_flat, flatten_ite, flatten_mk]

theorem rebuild_flat (files : List FileData) (s : Fs σ) : flatten (rebuild files s) = rebuild files s.flat := by
  induction files generalizing s with
  | nil => rfl
  | cons file rest ih =>
    simp only [rebuild, ← fsutilCreate_flat, flatten_fst, flatten_snd, ← fsutilWrite_flat, flatten_ite, flatten_mk, ih]

theorem defragment_flat (s : Fs σ) (stale : Nat → CString) : flatten (defragment s stale) = defragment s.flat stale := by
  simp only [defragment, ← dirOpenRoot_flat, flatten_fst, flatten_snd, readdirCalls_flat,
    whileReaddir_flat (backUp_flat stale (dirOpenRoot s).1), rebuild_flat, dirClose_flat]

theorem recoverInode_flat (dir : Dir) (s : Fs σ) (i : Nat) :
    (recoverInode dir s i).flat = recoverInode dir s.flat i := by
  have bits : s.flat.freeMap = s.freeMap := rfl
  simp only [recoverInode, bits, flat_read, ← Fs.read_fst]
  rw [← Fs.read_flat s (BitVec.ofNat 32 i), ← dirAdd_flat]
  simp only [flat_ite, flatten_fst, flatten_snd, Fs.read_flat]
  rfl

theorem recoverInodes_flat (s : Fs σ) : (recoverInodes s).flat = recoverInodes s.flat := by
  have loop : ∀ (dir : Dir) (sectors : List Nat) (t : Fs σ),
      (sectors.foldl (recoverInode dir) t).flat = sectors.foldl (recoverInode dir) t.flat := by
    intro dir sectors
    induction sectors with
    | nil => exact fun _ => rfl
    | cons i rest ih => exact fun t => by rw [List.foldl_cons, List.foldl_cons, ih, recoverInode_flat]
  have bits : s.flat.freeMap = s.freeMap := rfl
  simp only [recoverInodes, ← dirOpenRoot_flat, flatten_fst, flatten_snd, dirClose_flat, loop, bits]

theorem recoverBlocks_flat (s : Fs σ) : flatten (recoverBlocks s) = recoverBlocks s.flat := by
  have step : ∀ (r : List HostFile × Fs σ) (x : Nat), flatten (recoverBlock r x) = recoverBlock (flatten r) x := by
    intro r x
    simp only [recoverBlock, flatten_mk, flatten_fst, flatten_snd, flat_read, Fs.read_flat, Fs.read_fst]
  have loop : ∀ (blocks : List Nat) (r : List HostFile × Fs σ),
      flatten (blocks.foldl recoverBlock r) = blocks.foldl recoverBlock (flatten r) := by
    intro blocks
    induction blocks with
    | nil => exact fun _ => rfl
    | cons x rest ih => exact fun r => by rw [List.foldl_cons, List.foldl_cons, ih, step]
  exact loop _ _

theorem pastEndLoop_flat (filename : CString) (fileSize : Int) (blockCount : Nat) (sectors : List BlockSector) (x : Nat)
    (files : List HostFile) (s : Fs σ) : flatten (pastEndLoop filename fileSize blockCount sectors x files s) =
      pastEndLoop filename fileSize blockCount sectors x files s.flat := by
  induction sectors generalizing x files s with
  | nil => rfl
  | cons sector rest ih =>
    simp only [pastEndLoop, ih, Fs.read_flat, flat_read, Fs.read_fst]

theorem recoverHidden_flat (files : List HostFile) (s : Fs σ) (filename : CString) :
    flatten (recoverHidden files s filename) = recoverHidden files s.flat filename := by
  simp only [recoverHidden, ← filesysOpen_flat, flatten_fst, flatten_snd]
  cases (filesysOpen s filename).1 with
  | none => rfl
  | some file =>
    simp only [recoverPastEnd, fileLength_flat, ← getInodeDataSectors_flat, flatten_fst, flatten_snd,
      ← pastEndLoop_flat, flatten_mk, fileClose_flat]

theorem recover_flat (s : Fs σ) (flag : Int) : flatten (recover s flag) = recover s.flat flag := by
  simp only [recover, flatten_ite, flatten_mk, recoverInodes_flat, recoverBlocks_flat,
    forRootNames_flat recoverHidden_flat]

end ShellOs.FileSystem
