import ShellOs.FileSystem.FindFile
import ShellOs.FileSystem.ShellRun

/-! Whether `ls` lists every file: it does as long as the handle on the root directory is closed before it starts. -/

namespace ShellOs.FileSystem
open Lib SlotMap

section scan

variable {σ : Type} [Store σ BlockSector Sector] [LawfulStore σ] {β : Type} {a : Nat}
  {body : β → Fs σ → CString → β × Fs σ}

def namesRead (body : β → Fs σ → CString → β × Fs σ) : Nat → β → Fs σ → Dir → List CString
  | 0, _, _, _ => []
  | calls + 1, acc, s, dir =>
    let r := dirReaddir s dir
    match r.1 with
    | none => []
    | some name =>
      let b := body acc r.2.2 name
      name :: namesRead body calls b.1 b.2 r.2.1

def rootNamesRead (body : β → Fs σ → CString → β × Fs σ) (acc : β) (s : Fs σ) : List CString :=
  let dir := dirOpenRoot s
  namesRead body (readdirCalls dir.2 dir.1) acc dir.2 dir.1

theorem dirReaddir_sole (s : Fs σ) (dir : Dir) (sole : Sole dir.addr s.cwd) :
    Sole dir.addr (dirReaddir s dir).2.2.cwd ∧ (dirReaddir s dir).2.1.addr = dir.addr := by
  have scanned : ∀ inode stop ofs, (scanEntries (s.use inode) inode stop ofs).2.2.cwd = s.cwd := by
    intro inode stop ofs
    rw [blind_cwd.scanEntries, Fs.use_cwd]
  cases held : s.cwd with
  | none =>
    simp only [dirReaddir, dirAt, held, setDir_cwd, scanned, Option.map_none]
    exact ⟨sole_none _, trivial⟩
  | some c =>
    obtain ⟨here, once⟩ := sole c held
    simp only [dirReaddir, dirAt, held, setDir_cwd, scanned, if_pos here, Option.map_some, if_true]
    refine ⟨fun d same => ?_, here⟩
    rw [← Option.some.inj same]
    exact ⟨here, once⟩

theorem whileReaddir_sole (allowed : CString → Prop)
    (keeps : ∀ acc t name, allowed name → Sole a t.cwd → Sole a (body acc t name).2.cwd) (calls : Nat) (acc : β)
    {s : Fs σ} {dir : Dir} (sole : Sole a s.cwd) (here : dir.addr = a)
    (all : ∀ name ∈ namesRead body calls acc s dir, allowed name) :
    Sole a (whileReaddir body calls acc s dir).2.2.cwd ∧ (whileReaddir body calls acc s dir).2.1.addr = a := by
  induction calls generalizing acc s dir with
  | zero => exact ⟨sole, here⟩
  | succ calls ih =>
    have read := dirReaddir_sole s dir (by rw [here]; exact sole)
    rw [here] at read
    rw [namesRead] at all
    simp only at all
    rw [whileReaddir]
    simp only
    split
    · exact read
    next name found =>
      rw [found] at all
      apply ih
      · exact keeps acc _ name (all name List.mem_cons_self) read.1
      · exact read.2
      · exact fun later member => all later (List.mem_cons_of_mem _ member)

theorem closedCwd_own {cwd : Option Dir} {d : Dir} (sole : Sole a cwd) (here : d.addr = a) :
    closedCwd cwd d = none := by
  cases cwd with
  | none => rfl
  | some c =>
    obtain ⟨same, once⟩ := sole c rfl
    rw [closedCwd, if_pos (same.trans here.symm), once]
    rfl

theorem forRootNames_idle (allowed : CString → Prop)
    (keeps : ∀ a acc t name, allowed name → Sole a t.cwd → Sole a (body acc t name).2.cwd) {acc : β} {s : Fs σ}
    (idle : s.cwd = none) (all : ∀ name ∈ rootNamesRead body acc s, allowed name) :
    (forRootNames body acc s).2.cwd = none := by
  obtain ⟨sole, here⟩ := whileReaddir_sole allowed (keeps _) _ acc (dirOpenRoot_sole s idle) rfl all
  rw [forRootNames]
  simp only
  rw [dirClose_cwd, closedCwd_own sole here]

end scan

section turns

variable {σ : Type} [Store σ BlockSector Sector] [LawfulStore σ] {a : Nat}

theorem findFileStep_sole (pattern : CString) (found : Option (List CString)) (t : Fs σ) (name : CString)
    (named : Named name) (sole : Sole a t.cwd) : Sole a (findFileStep pattern found t name).2.cwd := by
  have opened := filesysOpen_cwd t named sole.counted
  unfold findFileStep
  cases found with
  | none => exact sole
  | some names =>
    simp only
    split
    · rw [opened]
      exact sole
    next file _ =>
      have added : (addToFileTable (filesysOpen t name).2 file name).cwd = t.cwd := by rw [addToFileTable_cwd, opened]
      rw [removeFromFileTable_cwd, fileRead_cwd, fsutilSize_cwd _ named (by rw [added]; exact sole), added]
      exact sole

theorem fragmentationStep_sole (counts : Nat × Nat) (t : Fs σ) (name : CString) (named : Named name)
    (sole : Sole a t.cwd) : Sole a (fragmentationStep counts t name).2.cwd := by
  have opened := filesysOpen_cwd t named sole.counted
  unfold fragmentationStep
  simp only
  split
  · rw [opened]
    exact sole
  · split
    · simp only
      rw [fileClose_cwd, blind_cwd.getInodeDataSectors, opened]
      exact sole
    · simp only
      rw [fileClose_cwd, opened]
      exact sole

theorem recoverHidden_sole (files : List HostFile) (t : Fs σ) (name : CString) (named : Named name)
    (sole : Sole a t.cwd) : Sole a (recoverHidden files t name).2.cwd := by
  have opened := filesysOpen_cwd t named sole.counted
  unfold recoverHidden
  simp only
  split
  · rw [opened]
    exact sole
  · simp only [recoverPastEnd]
    rw [fileClose_cwd, blind_cwd.pastEndLoop, blind_cwd.getInodeDataSectors, opened]
    exact sole

theorem backUp_sole (stale : Nat → CString) (dir : Dir) (files : List FileData) (t : Fs σ) (name : CString)
    (sole : Sole a t.cwd) : Sole a (backUp stale dir files t name).2.cwd := by
  have looked := dirLookup_cwd t dir name
  unfold backUp
  simp only
  split
  · rw [looked]
    exact sole
  · split
    · simp only
      rw [inodeClose_cwd, looked]
      exact sole
    · apply fsutilRm_sole
      rw [inodeClose_cwd, blind_cwd.inodeReadAt, looked]
      exact sole

theorem recoverInode_cwd (dir : Dir) (s : Fs σ) (i : Nat) : (recoverInode dir s i).cwd = s.cwd := by
  have added := fun name sector => blind_cwd.dirAdd Fs.use_cwd (s.bufferCacheRead (BitVec.ofNat 32 i)).2 dir name sector
  unfold recoverInode
  split
  · rfl
  · simp only
    split
    · split <;> exact added _ _
    · rfl

theorem recoverInodes_idle (s : Fs σ) (idle : s.cwd = none) : (recoverInodes s).cwd = none := by
  have loop : ∀ (dir : Dir) (sectors : List Nat) (t : Fs σ), (sectors.foldl (recoverInode dir) t).cwd = t.cwd := by
    intro dir sectors
    induction sectors with
    | nil => exact fun _ => rfl
    | cons i rest ih => exact fun t => (ih _).trans (recoverInode_cwd dir t i)
  rw [recoverInodes, dirClose_cwd, loop]
  exact closedCwd_own (dirOpenRoot_sole s idle) rfl

end turns

section run

variable {σ : Type} [Store σ BlockSector Sector] [LawfulStore σ]

/-- No path that the command opens consists of slashes only: neither the one it is given nor one that it finds in the
root directory. -/
def OpensNamed (s : Fs σ) : ShellOp → Prop
  | .cat name | .write name _ | .read name _ | .copyOut name _ | .size name | .seek name _ => Named name
  | .findFile pattern => ∀ name ∈ rootNamesRead (findFileStep pattern) (some []) s, Named name
  | .fragmentationDegree fileName =>
    let dir := dirOpenRoot s
    let first := fragmentationStep (0, 0) dir.2 fileName
    Named fileName ∧ ∀ name ∈ namesRead fragmentationStep (readdirCalls first.2 dir.1) first.1 first.2 dir.1, Named name
  | .recover flag => flag = 2 → ∀ name ∈ rootNamesRead recoverHidden [] s, Named name
  | .ls | .rm _ | .create _ _ | .copyIn _ _ | .freespace | .defragment _ => True

theorem ShellOp.step_idle {s : Fs σ} {op : ShellOp} (named : OpensNamed s op) (idle : s.cwd = none) :
    (ShellOp.step s op).cwd = none := by
  have sole : ∀ a, Sole a s.cwd := by
    intro a
    rw [idle]
    exact sole_none a
  cases op with
  | ls => exact forRootNames_idle (fun _ => True) (fun _ _ _ _ _ sole => sole) idle fun _ _ => trivial
  | cat name => exact (fsutilCat_cwd s named (sole 0)).trans idle
  | rm name => exact none_of_sole fun a => fsutilRm_sole s (sole a)
  | create name bytes => exact (fsutilCreate_cwd name s (sole 0) bytes).trans idle
  | write name words =>
    simp only [step]
    cases words with
    | nil => exact idle
    | cons word rest =>
      simp only [writeCommand]
      cases writeBuffer (word :: rest) with
      | none => exact idle
      | some buf => exact (fsutilWrite_cwd s named (sole 0) _ _).trans idle
  | findFile pattern => exact forRootNames_idle Named (fun _ => findFileStep_sole pattern) idle named
  | read name bytes => exact (fsutilRead_cwd s named (sole 0) bytes).trans idle
  | copyIn name host => exact (copyIn_cwd s (sole 0) host).trans idle
  | copyOut name creates => exact (copyOut_cwd s named (sole 0) creates).trans idle
  | size name => exact (fsutilSize_cwd s named (sole 0)).trans idle
  | seek name offset => exact (fsutilSeek_cwd s named (sole 0) offset).trans idle
  | freespace => exact idle
  | fragmentationDegree fileName =>
    obtain ⟨given, read⟩ := named
    have first := fragmentationStep_sole (0, 0) (dirOpenRoot s).2 fileName given (dirOpenRoot_sole s idle)
    obtain ⟨sole, here⟩ := whileReaddir_sole Named fragmentationStep_sole _ _ first rfl read
    simp only [step, FileSystem.fragmentationDegree]
    rw [dirClose_cwd, closedCwd_own sole here]
  | defragment stale =>
    obtain ⟨sole, here⟩ := whileReaddir_sole (fun _ => True)
      (fun acc t name _ => backUp_sole stale (dirOpenRoot s).1 acc t name)
      (readdirCalls (dirOpenRoot s).2 (dirOpenRoot s).1) [] (dirOpenRoot_sole s idle) rfl fun _ _ => trivial
    have closed := dirClose_cwd (whileReaddir (backUp stale (dirOpenRoot s).1)
      (readdirCalls (dirOpenRoot s).2 (dirOpenRoot s).1) [] (dirOpenRoot s).2 (dirOpenRoot s).1).2.2
    simp only [step, FileSystem.defragment]
    rw [rebuild_cwd _ _ (by rw [closed, closedCwd_own sole here]; exact sole_none 0), closed, closedCwd_own sole here]
  | recover flag =>
    simp only [step, FileSystem.recover]
    split
    · exact recoverInodes_idle s idle
    · split
      · exact (blind_cwd.recoverBlocks s).trans idle
      · split
        next two => exact forRootNames_idle Named (fun _ => recoverHidden_sole) idle (named two)
        next => exact idle

omit [LawfulStore σ] in
theorem openFreeMapFile_cwd (s : Fs σ) : (openFreeMapFile s).cwd = s.cwd := by
  rw [openFreeMapFile, inodeOpen_cwd]

theorem freeMapOpen_cwd (s : Fs σ) : (freeMapOpen s).cwd = s.cwd := by
  rw [freeMapOpen, blind_cwd.bitmapRead, openFreeMapFile_cwd]

theorem freeMapClose_cwd (s : Fs σ) : (freeMapClose s).cwd = s.cwd := by
  unfold freeMapClose
  split
  · exact fileClose_cwd s _
  · rfl

theorem freeMapCreate_cwd (s : Fs σ) : (freeMapCreate s).2.cwd = s.cwd := by
  have rest : ∀ r : Bool × Fs σ, (r.1 && (bitmapWrite (openFreeMapFile r.2) (fileOpen FREE_MAP_SECTOR)).1,
      (bitmapWrite (openFreeMapFile r.2) (fileOpen FREE_MAP_SECTOR)).2).2.cwd = r.2.cwd := by
    intro r
    simp only
    rw [blind_cwd.bitmapWrite, openFreeMapFile_cwd]
  rw [freeMapCreate_eq rfl]
  exact (rest _).trans (blind_cwd.inodeCreate s FREE_MAP_SECTOR _ false)

theorem writeParent_idle (s : Fs σ) (idle : s.cwd = none) (sector parent : BlockSector) :
    (writeParent s sector parent).2.cwd = none := by
  unfold writeParent
  simp only
  rw [dirClose_cwd, blind_cwd.inodeWriteAt, dirOpen_cwd, inodeOpen_cwd, idle]
  exact closedCwd_none _

theorem dirCreate_idle (s : Fs σ) (idle : s.cwd = none) (sector : BlockSector) (entryCnt : Nat) :
    (dirCreate s sector entryCnt).2.cwd = none := by
  have rest : ∀ r : Bool × Fs σ, r.2.cwd = none →
      (if r.1 = false then (false, r.2) else writeParent r.2 sector sector).2.cwd = none := by
    intro r created
    split
    · exact created
    · exact writeParent_idle r.2 created sector sector
  rw [dirCreate_eq rfl]
  exact rest _ ((blind_cwd.inodeCreate s sector _ true).trans idle)

theorem filesysInit_idle (cache : σ) (size : BlockSector) (format : Bool) :
    (filesysInit cache size format).cwd = none := by
  have start : (filesysStart cache size).cwd = none := rfl
  rw [filesysInit, freeMapOpen_cwd]
  split
  · rw [doFormat, freeMapClose_cwd]
    apply dirCreate_idle
    rw [freeMapCreate_cwd, start]
  · exact start

end run

section slots

variable {σ : Type} [Store σ BlockSector Sector] [LawfulStore σ]

def rootEntry (s : Fs σ) (i : Nat) : DirEntry :=
  DirEntry.decode (inodeReadAt s ROOT_DIR_SECTOR ENTRY_SIZE (ENTRY_SIZE * i : Nat)).1

def rootSlotCount (s : Fs σ) : Nat := (s.inodeLength ROOT_DIR_SECTOR).toNat / ENTRY_SIZE

/-- The names in the slots that are in use, from slot `k` on and in their order. -/
def namesFrom (s : Fs σ) (k : Nat) : List CString :=
  (List.range' k (rootSlotCount s - k)).filterMap fun i =>
    if (rootEntry s i).inUse then some (rootEntry s i).cName else none

end slots

section listing

variable {s t : FlatFs} {dir : Dir} {k : Nat}

theorem read_slot (s : FlatFs) (i : Nat) :
    (inodeReadAt s ROOT_DIR_SECTOR ENTRY_SIZE (ENTRY_SIZE * i : Nat)).1.length = ENTRY_SIZE ↔ i < rootSlotCount s := by
  have most := inodeReadAt_length s ROOT_DIR_SECTOR ENTRY_SIZE (ENTRY_SIZE * i : Nat)
  rw [rootSlotCount]
  simp only [ENTRY_SIZE] at most ⊢
  constructor
  · intro whole
    omega
  · intro inside
    have length : s.inodeLength ROOT_DIR_SECTOR = (s.inodeLength ROOT_DIR_SECTOR).toNat := by omega
    rw [inodeReadAt_raw length, List.length_map, List.length_range]
    omega

theorem rootEntry_congr (cache : t.cache = s.cache) (data : t.inodeData ROOT_DIR_SECTOR = s.inodeData ROOT_DIR_SECTOR)
    (i : Nat) : rootEntry t i = rootEntry s i := by
  have same : t.inodeLength ROOT_DIR_SECTOR = s.inodeLength ROOT_DIR_SECTOR := by
    rw [Fs.inodeLength, Fs.inodeLength, data]
  rw [rootEntry, rootEntry]
  congr 1
  rcases Int.lt_or_le (s.inodeLength ROOT_DIR_SECTOR) 0 with negative | known
  · have none : ∀ u : FlatFs, u.inodeLength ROOT_DIR_SECTOR < 0 →
        (inodeReadAt u ROOT_DIR_SECTOR ENTRY_SIZE (ENTRY_SIZE * i : Nat)).1 = [] := by
      intro u below
      have most := inodeReadAt_length u ROOT_DIR_SECTOR ENTRY_SIZE (ENTRY_SIZE * i : Nat)
      exact List.eq_nil_of_length_eq_zero (by omega)
    rw [none s negative, none t (same ▸ negative)]
  · have length : s.inodeLength ROOT_DIR_SECTOR = (s.inodeLength ROOT_DIR_SECTOR).toNat := by omega
    rw [inodeReadAt_raw length, inodeReadAt_raw (same.trans length)]
    apply List.map_congr_left
    exact fun j _ => rawByte_congr cache data _

theorem namesFrom_end (behind : rootSlotCount s ≤ k) : namesFrom s k = [] := by
  rw [namesFrom, Nat.sub_eq_zero_of_le behind]
  rfl

theorem namesFrom_step (inside : k < rootSlotCount s) : namesFrom s k =
    if (rootEntry s k).inUse then (rootEntry s k).cName :: namesFrom s (k + 1) else namesFrom s (k + 1) := by
  rw [namesFrom, namesFrom, show rootSlotCount s - k = rootSlotCount s - (k + 1) + 1 by omega, List.range'_succ,
    List.filterMap_cons]
  split <;> split <;> simp_all

theorem scanEntries_slot (s : FlatFs) (k : Nat) :
    scanEntries s ROOT_DIR_SECTOR (fun e => e.inUse) (ENTRY_SIZE * k : Nat) =
      if k < rootSlotCount s then
        if (rootEntry s k).inUse then (some (rootEntry s k), ((ENTRY_SIZE * k : Nat) : Int), s)
        else scanEntries s ROOT_DIR_SECTOR (fun e => e.inUse) (ENTRY_SIZE * (k + 1) : Nat)
      else (none, ((ENTRY_SIZE * k : Nat) : Int), s) := by
  have state : (inodeReadAt s ROOT_DIR_SECTOR ENTRY_SIZE (ENTRY_SIZE * k : Nat)).2 = s := inodeReadAt_snd s _ _ _
  have next : ((ENTRY_SIZE * k : Nat) : Int) + (ENTRY_SIZE : Nat) = (ENTRY_SIZE * (k + 1) : Nat) := by
    rw [Nat.mul_succ, Nat.cast_add]
  rw [scanEntries, state, next]
  by_cases inside : k < rootSlotCount s
  · rw [dif_pos ((read_slot s k).mpr inside), if_pos inside]
    rfl
  · rw [dif_neg (mt (read_slot s k).mp inside), if_neg inside]

theorem scanEntries_next (s : FlatFs) (k : Nat) :
    let r := scanEntries s ROOT_DIR_SECTOR (fun e => e.inUse) (ENTRY_SIZE * k : Nat)
    r.2.2 = s ∧
      ((∃ j, rootSlotCount s ≤ j ∧ r.1 = none ∧ r.2.1 = (ENTRY_SIZE * j : Nat) ∧ namesFrom s k = []) ∨
        ∃ j, k ≤ j ∧ r.1 = some (rootEntry s j) ∧ r.2.1 = (ENTRY_SIZE * j : Nat) ∧
          namesFrom s k = (rootEntry s j).cName :: namesFrom s (j + 1)) := by
  induction left : rootSlotCount s - k generalizing k with
  | zero =>
    have behind : rootSlotCount s ≤ k := by omega
    rw [scanEntries_slot, if_neg (Nat.not_lt.mpr behind)]
    exact ⟨rfl, Or.inl ⟨k, behind, rfl, rfl, namesFrom_end behind⟩⟩
  | succ left ih =>
    have inside : k < rootSlotCount s := by omega
    rw [scanEntries_slot, if_pos inside, namesFrom_step inside]
    by_cases used : (rootEntry s k).inUse = true
    · rw [if_pos used, if_pos used]
      exact ⟨rfl, Or.inr ⟨k, Nat.le_refl k, rfl, rfl, rfl⟩⟩
    · rw [if_neg used, if_neg used]
      obtain ⟨same, rest⟩ := ih (k + 1) (by omega)
      refine ⟨same, rest.imp id ?_⟩
      rintro ⟨j, later, found⟩
      exact ⟨j, by omega, found⟩

theorem namesFrom_congr (cache : t.cache = s.cache)
    (data : t.inodeData ROOT_DIR_SECTOR = s.inodeData ROOT_DIR_SECTOR) (k : Nat) : namesFrom t k = namesFrom s k := by
  have count : rootSlotCount t = rootSlotCount s := by
    rw [rootSlotCount, rootSlotCount, Fs.inodeLength, Fs.inodeLength, data]
  rw [namesFrom, namesFrom, count]
  simp only [rootEntry_congr cache data]

/-- The directory that a scan goes through stands before slot `k`. -/
structure AtSlot (s : FlatFs) (dir : Dir) (k : Nat) : Prop where
  inode : (dirAt s dir).inode = ROOT_DIR_SECTOR
  pos : (dirAt s dir).pos = (ENTRY_SIZE * k : Nat)

/-- Nothing but the handle has changed, or else a freed inode has been used. -/
def OnlyMoved (s t : FlatFs) : Prop := t = { s with cwd := t.cwd, usedFreed := t.usedFreed }

theorem onlyMoved_setDir (s : FlatFs) (dir : Dir) : OnlyMoved s (setDir (s.use ROOT_DIR_SECTOR) dir) := by
  rw [OnlyMoved, setDir_rest, Fs.use_rest]

theorem OnlyMoved.count (moved : OnlyMoved s t) : rootSlotCount t = rootSlotCount s := by
  rw [moved]
  rfl

theorem OnlyMoved.names (moved : OnlyMoved s t) (k : Nat) : namesFrom t k = namesFrom s k := by
  apply namesFrom_congr
  · rw [moved]
  · rw [moved]
    rfl

theorem dirReaddir_next (stands : AtSlot s dir k) : OnlyMoved s (dirReaddir s dir).2.2 ∧
    ((dirReaddir s dir).1 = none ∧ namesFrom s k = [] ∧
        (∃ j, rootSlotCount s ≤ j ∧ AtSlot (dirReaddir s dir).2.2 (dirReaddir s dir).2.1 j) ∨
      ∃ j, k ≤ j ∧ (dirReaddir s dir).1 = some (rootEntry s j).cName ∧
        namesFrom s k = (rootEntry s j).cName :: namesFrom s (j + 1) ∧
        AtSlot (dirReaddir s dir).2.2 (dirReaddir s dir).2.1 (j + 1)) := by
  have names : ∀ i, namesFrom (s.use ROOT_DIR_SECTOR) i = namesFrom s i :=
    namesFrom_congr (s.use_cache _) (s.use_inodeData _ _)
  have entry := rootEntry_congr (s.use_cache ROOT_DIR_SECTOR) (s.use_inodeData ROOT_DIR_SECTOR _)
  have count : rootSlotCount (s.use ROOT_DIR_SECTOR) = rootSlotCount s := by
    rw [rootSlotCount, rootSlotCount, Fs.use_inodeLength]
  obtain ⟨state, found⟩ := scanEntries_next (s.use ROOT_DIR_SECTOR) k
  simp only [names, entry, count] at found
  simp only [dirReaddir, stands.inode, stands.pos, state]
  refine ⟨onlyMoved_setDir s _, ?_⟩
  rcases found with ⟨j, behind, none, ofs, empty⟩ | ⟨j, later, some, ofs, rest⟩
  · refine Or.inl ⟨by rw [none]; rfl, empty, j, behind, ?_, ?_⟩
    · rw [dirAt_setDir]
    · rw [dirAt_setDir]
      simp only [none, Option.isSome_none, Bool.false_eq_true, if_false, ofs]
  · refine Or.inr ⟨j, later, by rw [some]; rfl, rest, ?_, ?_⟩
    · rw [dirAt_setDir]
    · rw [dirAt_setDir]
      simp only [some, Option.isSome_some, if_true, ofs]
      rw [Nat.mul_succ, Nat.cast_add]

abbrev lsBody (names : List CString) (s : FlatFs) (name : CString) : List CString × FlatFs := (names ++ [name], s)

theorem ls_loop (calls : Nat) (names : List CString) (stands : AtSlot s dir k) (enough : rootSlotCount s ≤ calls + k) :
    let r := whileReaddir lsBody (calls + 1) names s dir
    r.1 = names ++ namesFrom s k ∧ OnlyMoved s r.2.2 ∧ ∃ j, rootSlotCount s ≤ j ∧ AtSlot r.2.2 r.2.1 j := by
  induction calls generalizing s dir k names with
  | zero =>
    obtain ⟨moved, ⟨none, empty, ended⟩ | ⟨j, later, -, rest, -⟩⟩ := dirReaddir_next stands
    · simp only [whileReaddir, none]
      rw [empty, List.append_nil]
      exact ⟨rfl, moved, ended⟩
    · rw [namesFrom_end (by omega)] at rest
      cases rest
  | succ calls ih =>
    obtain ⟨moved, ⟨none, empty, ended⟩ | ⟨j, later, some, rest, next⟩⟩ := dirReaddir_next stands
    · rw [whileReaddir]
      simp only [none]
      rw [empty, List.append_nil]
      exact ⟨rfl, moved, ended⟩
    · obtain ⟨listed, onward, i, behind, ended⟩ := ih (names ++ [(rootEntry s j).cName]) next
        (by rw [moved.count]; omega)
      rw [whileReaddir]
      simp only [some]
      rw [moved.names] at listed
      rw [moved.count] at behind
      refine ⟨?_, ?_, i, behind, ended⟩
      · rw [listed, rest, List.append_assoc, List.singleton_append]
      · rw [OnlyMoved] at moved onward ⊢
        rw [onward, moved]

theorem ls_held (calls : Nat) (names : List CString) (held : s.cwd = some dir) :
    let r := whileReaddir lsBody calls names s dir
    r.2.2.cwd = some r.2.1 ∧ r.2.1.openCnt = dir.openCnt := by
  induction calls generalizing s dir names with
  | zero => exact ⟨held, rfl⟩
  | succ calls ih =>
    have here : dirAt s dir = dir := by
      simp only [dirAt, held, if_true]
    have next : (dirReaddir s dir).2.2.cwd = some (dirReaddir s dir).2.1 ∧
        (dirReaddir s dir).2.1.openCnt = dir.openCnt := by
      simp only [dirReaddir, here, setDir_cwd, blind_cwd.scanEntries, Fs.use_cwd, held, Option.map_some, if_true]
      exact ⟨trivial, trivial⟩
    rw [whileReaddir]
    simp only
    split
    · exact next
    next name _ =>
      obtain ⟨later, count⟩ := ih (names ++ [name]) next.1
      exact ⟨later, count.trans next.2⟩

theorem dirOpenRoot_held (s : FlatFs) : (dirOpenRoot s).2.cwd = some (dirOpenRoot s).1 := by
  cases held : s.cwd <;> simp only [dirOpenRoot, held, dirOpen]

theorem fsutilLs_from (s : FlatFs) (inode : (dirOpenRoot s).1.inode = ROOT_DIR_SECTOR)
    (pos : (dirOpenRoot s).1.pos = (ENTRY_SIZE * k : Nat)) : ∃ u d j,
      fsutilLs s = (namesFrom (dirOpenRoot s).2 k, dirClose u d) ∧ OnlyMoved (dirOpenRoot s).2 u ∧
      u.cwd = some d ∧ d.openCnt = (dirOpenRoot s).1.openCnt ∧
      rootSlotCount (dirOpenRoot s).2 ≤ j ∧ d.inode = ROOT_DIR_SECTOR ∧ d.pos = (ENTRY_SIZE * j : Nat) := by
  have held := dirOpenRoot_held s
  have here : dirAt (dirOpenRoot s).2 (dirOpenRoot s).1 = (dirOpenRoot s).1 := by
    simp only [dirAt, held, if_true]
  have calls : readdirCalls (dirOpenRoot s).2 (dirOpenRoot s).1 = rootSlotCount (dirOpenRoot s).2 + 1 := by
    rw [readdirCalls, inode, rootSlotCount]
  obtain ⟨listed, moved, j, behind, ended⟩ := ls_loop (rootSlotCount (dirOpenRoot s).2) []
    ⟨by rw [here, inode], by rw [here, pos]⟩ (Nat.le_add_right _ _)
  obtain ⟨kept, count⟩ := ls_held (rootSlotCount (dirOpenRoot s).2 + 1) [] held
  refine ⟨_, _, j, ?_, moved, kept, count, behind, ?_, ?_⟩
  · rw [fsutilLs, forRootNames, calls]
    exact Prod.ext listed rfl
  · have last := ended.inode
    simp only [dirAt, kept, if_true] at last
    exact last
  · have last := ended.pos
    simp only [dirAt, kept, if_true] at last
    exact last

theorem fsutilLs_idle (idle : s.cwd = none) : (fsutilLs s).1 = namesFrom s 1 := by
  have opened := inodeOpen_spec s ROOT_DIR_SECTOR
  have root : (dirOpenRoot s).2.cache = s.cache ∧
      (dirOpenRoot s).2.inodeData ROOT_DIR_SECTOR = s.inodeData ROOT_DIR_SECTOR ∧
      (dirOpenRoot s).1.inode = ROOT_DIR_SECTOR ∧ (dirOpenRoot s).1.pos = (ENTRY_SIZE * 1 : Nat) := by
    simp only [dirOpenRoot, idle, dirOpen]
    exact ⟨opened.cache, opened.data ROOT_DIR_SECTOR, trivial, by rw [Nat.mul_one]⟩
  obtain ⟨cache, data, inode, pos⟩ := root
  obtain ⟨u, d, j, run, -⟩ := fsutilLs_from s inode pos
  rw [run]
  exact namesFrom_congr cache data 1

theorem fsutilLs_twice {c : Dir} (held : s.cwd = some c) (inode : c.inode = ROOT_DIR_SECTOR)
    (pos : c.pos = (ENTRY_SIZE * k : Nat)) (once : c.openCnt = 1) :
    (fsutilLs (fsutilLs s).2).1 = [] ∧ OnlyMoved s (fsutilLs s).2 := by
  have root : dirOpenRoot s = ({ c with openCnt := c.openCnt + 1 },
      { s with cwd := some { c with openCnt := c.openCnt + 1 } }) := by
    simp only [dirOpenRoot, held]
  obtain ⟨u, d, j, run, moved, last, count, behind, inodeD, posD⟩ :=
    fsutilLs_from s (k := k) (by rw [root]; exact inode) (by rw [root]; exact pos)
  rw [root] at moved count behind
  have two : d.openCnt = 2 := by rw [count, once]; rfl
  have more : ¬d.openCnt - 1 = 0 := by omega
  have closed : dirClose u d = { u with cwd := some { d with openCnt := d.openCnt - 1 } } := by
    simp only [dirClose, dirAt, last, if_true, if_neg more, setDir]
  have only : OnlyMoved s (fsutilLs s).2 := by
    rw [run, closed, OnlyMoved]
    rw [OnlyMoved] at moved
    simp only
    rw [moved]
  have again : dirOpenRoot (fsutilLs s).2 = ({ d with openCnt := d.openCnt - 1 + 1 },
      { u with cwd := some { d with openCnt := d.openCnt - 1 + 1 } }) := by
    simp only [run, closed, dirOpenRoot]
  obtain ⟨v, e, i, second, -⟩ :=
    fsutilLs_from (fsutilLs s).2 (k := j) (by rw [again]; exact inodeD) (by rw [again]; exact posD)
  refine ⟨?_, only⟩
  rw [second]
  apply namesFrom_end
  have count : rootSlotCount { u with cwd := some { d with openCnt := d.openCnt - 1 + 1 } } = rootSlotCount u := rfl
  rw [again, count, moved.count]
  exact behind

theorem DirOk.namesFrom_keys {n : Nat} (ok : DirOk s n) : namesFrom s 1 = keys (rootSlots s) := by
  have entry : ∀ i, i < n → rootEntry s i = entryAt s.cache (s.inodeData ROOT_DIR_SECTOR) i := by
    intro i inside
    have read := inodeReadAt_spec ok.inodeLength ok.fits ok.mapped ENTRY_SIZE (ENTRY_SIZE * i)
    simp only [ENTRY_SIZE] at read
    rw [show min 36 (36 * n - 36 * i) = 36 by omega] at read
    rw [rootEntry, entryAt, read]
  have count : rootSlotCount s = n := by
    rw [rootSlotCount, ok.inodeLength, Int.toNat_natCast]
    exact Nat.mul_div_cancel_left n (by decide)
  rw [namesFrom, keys, bindings, ok.slots, dirSlots, count, List.filterMap_map, List.map_filterMap]
  apply List.filterMap_congr
  intro i member
  have bounds := List.mem_range'_1.mp member
  rw [entry i (by omega), Function.comp, DirEntry.slot]
  split <;> rfl

end listing

section complete

variable {s : Fs BufferCache}

theorem namesFrom_flat (s : Fs BufferCache) (k : Nat) : namesFrom s.flat k = namesFrom s k := by
  have entry : ∀ i, rootEntry s.flat i = rootEntry s i := by
    intro i
    rw [rootEntry, rootEntry, ← inodeReadAt_flat, flatten_fst]
  have count : rootSlotCount s.flat = rootSlotCount s := by
    rw [rootSlotCount, rootSlotCount, Fs.inodeLength_flat]
  rw [namesFrom, namesFrom, count]
  simp only [entry]

/-- In a run in which no command opens a path of slashes only, `ls` always lists the names of all entries in use but
slot 0's, each once and in the order of the slots. -/
theorem ls_complete (cache : BufferCache) (size : BlockSector) (format : Bool)
    (run : Run OpensNamed ShellOp.step (filesysInit cache size format) s) : (fsutilLs s).1 = namesFrom s 1 := by
  have idle : s.cwd = none :=
    run.invariant (fun t => t.cwd = none) (filesysInit_idle cache size format) fun _ _ idle named =>
      ShellOp.step_idle named idle
  have flat : (fsutilLs s.flat).1 = namesFrom s.flat 1 := fsutilLs_idle idle
  rw [← fsutilLs_flat, flatten_fst, namesFrom_flat] at flat
  exact flat

/-- A new file system in which the file "a" has been made and its size asked for. -/
theorem ls_complete_sized :
    let s := ShellOp.step (ShellOp.step (formatted 80) (ShellOp.create [97] 512)) (ShellOp.size [97])
    (fsutilLs s).1 = namesFrom s 1 := by
  have run : ∀ t : Fs BufferCache, Run OpensNamed ShellOp.step t
      (ShellOp.step (ShellOp.step t (ShellOp.create [97] 512)) (ShellOp.size [97])) := by
    intro t
    have named : OpensNamed (ShellOp.step t (ShellOp.create [97] 512)) (ShellOp.size [97]) := Or.inr (by decide)
    exact (Run.start.next (ShellOp.create [97] 512) trivial).next (ShellOp.size [97]) named
  rw [formatted]
  exact ls_complete (blankDisk 80) 80 true (run _)

theorem fsutilSize_slash {t : FlatFs} (idle : t.cwd = none) (unlisted : t.fileTable = []) :
    let u := (fsutilSize t [slash]).2
    u.cache = t.cache ∧ u.inodeData ROOT_DIR_SECTOR = t.inodeData ROOT_DIR_SECTOR ∧
      ∃ c, u.cwd = some c ∧ c.inode = ROOT_DIR_SECTOR ∧ c.pos = (ENTRY_SIZE * 1 : Nat) ∧ c.openCnt = 1 := by
  have opened := inodeOpen_spec t ROOT_DIR_SECTOR
  have root : ∃ c u, dirOpenRoot t = (c, u) ∧ u.cache = t.cache ∧
      u.inodeData ROOT_DIR_SECTOR = t.inodeData ROOT_DIR_SECTOR ∧ u.cwd = some c ∧
      c.inode = ROOT_DIR_SECTOR ∧ c.pos = (ENTRY_SIZE * 1 : Nat) ∧ c.openCnt = 1 := by
    simp only [dirOpenRoot, idle, dirOpen]
    exact ⟨_, _, rfl, opened.cache, opened.data ROOT_DIR_SECTOR, rfl, rfl, by rw [Nat.mul_one], rfl⟩
  obtain ⟨c, u, root, cache, data, held, inode, pos, once⟩ := root
  have path : (splitPathFilename [slash]).2 = [] := by decide
  have absent : getFileByFname t [slash] = none := by
    rw [getFileByFname, unlisted]
    rfl
  have found : (filesysOpen t [slash]).2 = u.use c.inode := by
    simp only [filesysOpen, path, root, List.length_singleton, Nat.one_ne_zero, List.length_nil, Nat.lt_irrefl,
      if_false, openFound_snd, Option.elim_some]
  have table : ∃ entries freed, (fsutilSize t [slash]).2 = { u with fileTable := entries, usedFreed := freed } := by
    have named : ∃ entries freed,
        (openNamed t [slash]).2 = { u with fileTable := entries, usedFreed := freed } := by
      simp only [openNamed, absent, addToFileTable]
      rw [found, Fs.use_rest]
      split
      · exact ⟨u.fileTable, _, rfl⟩
      · split
        · exact ⟨u.fileTable, _, rfl⟩
        · exact ⟨_, _, rfl⟩
    obtain ⟨entries, freed, named⟩ := named
    simp only [fsutilSize, setFile, named]
    split
    · exact ⟨_, _, rfl⟩
    · rw [Fs.use_rest]
      exact ⟨_, _, rfl⟩
  obtain ⟨entries, freed, table⟩ := table
  simp only [table]
  exact ⟨cache, data, c, held, inode, pos, once⟩

/-- After "/" has been opened, the second listing of a directory that holds "a" is empty. -/
theorem ls_loses_slash :
    let s := ShellOp.step (ShellOp.step (ShellOp.step (formatted 80) (ShellOp.create [97] 512)) (ShellOp.size [slash]))
      ShellOp.ls
    (fsutilLs s).1 = [] ∧ namesFrom s 1 = [[97]] := by
  have made := formatted_makesA (show SizeOk 512 by decide) (by decide)
  have general : ∀ t : Fs BufferCache, Fresh 80 t.flat → (filesysCreate t [97] 512 false).1 = true →
      let s := ShellOp.step (ShellOp.step (ShellOp.step t (ShellOp.create [97] 512)) (ShellOp.size [slash])) ShellOp.ls
      (fsutilLs s).1 = [] ∧ namesFrom s 1 = [[97]] := by
    intro t fresh made s
    have made : (filesysCreate t.flat [97] 512 false).1 = true := by
      rw [← filesysCreate_flat]
      exact made
    obtain ⟨n, x, just⟩ := fresh.createsA made
    have created : ShellOp.step t.flat (ShellOp.create [97] 512) = (filesysCreate t.flat [97] 512 false).2 := by
      rw [ShellOp.step, fsutilCreate, show offsetOf 512 = 512 by decide]
      rfl
    have here : s.flat = (fsutilLs (fsutilSize (filesysCreate t.flat [97] 512 false).2 [slash]).2).2 := by
      simp only [s]
      rw [ShellOp.step_flat, ShellOp.step_flat, ShellOp.step_flat, created]
      rfl
    generalize (filesysCreate t.flat [97] 512 false).2 = v at just here
    obtain ⟨cache, data, c, held, inode, pos, once⟩ := fsutilSize_slash just.shut.1 just.fileTable
    obtain ⟨empty, moved⟩ := fsutilLs_twice held inode pos once
    rw [← here] at empty moved
    rw [← fsutilLs_flat, flatten_fst] at empty
    refine ⟨empty, ?_⟩
    rw [← namesFrom_flat, moved.names, namesFrom_congr cache data, just.volume.mounted.dir.namesFrom_keys, keys,
      just.slots]
    rfl
  exact general _ (formatted_fresh (by decide +kernel)) made

end complete

end ShellOs.FileSystem
