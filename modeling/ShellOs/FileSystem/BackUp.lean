import ShellOs.FileSystem.FindFile
import ShellOs.FileSystem.CopyIn

/-! The first loop of `defragment`: every file is read into memory and removed. -/

namespace ShellOs.FileSystem
open Lib SlotMap GrowArray

section remove

variable {s t : FlatFs} {n : Nat} {name : CString} {x : BlockSector}

theorem dirOpenPath_quiet (mounted : Mounted s n) (quiet : Quiet s) :
    ∃ d a, dirOpenPath s [] = (some d, a) ∧ d.inode = ROOT_DIR_SECTOR ∧ d.openCnt = 1 ∧ RootClosed s a ∧ Quiet a ∧
      (a.findInode ROOT_DIR_SECTOR).isSome ∧ a.usedFreed = s.usedFreed := by
  obtain ⟨d, a, run, here, only⟩ := @dirOpenPath_dots s n mounted [] (by decide)
  have walk : ∀ (u : FlatFs) (e : Dir), e.inode = ROOT_DIR_SECTOR → (u.findInode ROOT_DIR_SECTOR).isSome →
      openComponents [] u e = (some d, a) → e = d ∧ u = a := by
    intro u e inode listed same
    rw [openComponents, inode, Fs.use_open listed] at same
    split at same
    · cases same
    · exact ⟨Option.some.inj (Prod.mk.inj same).1, (Prod.mk.inj same).2⟩
  have opened := dirOpenRoot_spec mounted.handle
  refine ⟨d, a, run, here, ?_⟩
  rw [dirOpenPath, if_neg (by decide)] at run
  cases closed : s.cwd with
  | none =>
    rw [closed] at run
    obtain ⟨rfl, rfl⟩ := walk _ _ opened.dir.1 opened.dir.2.2 run
    obtain ⟨after, once⟩ := opened.quiet closed quiet
    exact ⟨once, only, after, opened.dir.2.2, (congrArg Fs.usedFreed opened.rest :)⟩
  | some current =>
    rw [closed] at run
    obtain ⟨inode, -, listed⟩ := mounted.handle.held current closed
    obtain ⟨rfl, rfl⟩ := walk (dirReopen s current).2 (dirReopen s current).1 inode listed run
    exact ⟨rfl, only, quiet, listed, rfl⟩

theorem filesysRemove_shut (vol : Volume s n) (quiet : Quiet s) (named : FileName name)
    (bound : some (name, x) ∈ rootSlots s) :
    Shut (filesysRemove s name).2 ∧ (filesysRemove s name).2.usedFreed = s.usedFreed := by
  obtain ⟨d, a, run, here, once, only, quietA, listed, freed⟩ := dirOpenPath_quiet vol.mounted quiet
  obtain ⟨volA, slots, -⟩ := vol.only only
  rw [← slots] at bound
  obtain ⟨k, y, slot, effect⟩ := dirRemove_effect volA.mounted.dir here only.handle.nodup (mem_keys.mpr ⟨x, bound⟩)
    fun y member => volA.removable (mem_rootFiles.mpr ⟨_, member⟩)
  have away := (volA.ne_root (mem_rootFiles.mpr ⟨_, List.mem_of_getElem? slot⟩)).symm
  have root := effect.others _ away
  have handle := only.handle.congr effect.nodup root effect.cwd
  have result : filesysRemove s name = ((dirRemove a d name).1, dirClose (dirRemove a d name).2 d) := by
    rw [filesysRemove, named.split, run]
  rw [result]
  refine ⟨(quietA.congr root effect.cwd).dirClose handle here once, ?_⟩
  rw [dirClose_freed handle here (by rw [root]; exact listed), effect.rest, Fs.use_open listed, freed]

theorem Quiet.lookedUp (quiet : Quiet s) (same : t = s ∨ t = (inodeOpen (s.use ROOT_DIR_SECTOR) ROOT_DIR_SECTOR).2) :
    Quiet t := by
  rcases same with rfl | rfl
  · exact quiet
  · have used := quiet.congr (s.use_findInode ROOT_DIR_SECTOR ROOT_DIR_SECTOR) (s.use_cwd ROOT_DIR_SECTOR)
    have opened := inodeOpen_spec (s.use ROOT_DIR_SECTOR) ROOT_DIR_SECTOR
    have cwd : (inodeOpen (s.use ROOT_DIR_SECTOR) ROOT_DIR_SECTOR).2.cwd = (s.use ROOT_DIR_SECTOR).cwd :=
      (congrArg Fs.cwd opened.rest :)
    cases found : (s.use ROOT_DIR_SECTOR).findInode ROOT_DIR_SECTOR with
    | some i =>
      refine used.congr ?_ cwd
      rw [Fs.findInode, opened.kept i found, Fs.findInode]
    | none =>
      refine ⟨fun d current => used.1 d (cwd ▸ current), fun j held => ?_⟩
      obtain ⟨i, list, sector, once, -⟩ := opened.fresh found
      rw [Fs.findInode, list, List.find?_cons_of_pos (by simpa using sector)] at held
      obtain rfl := Option.some_inj.mp held
      exact once

/-- A walk over "." and ".." closes every handle on the root directory but the last. -/
theorem openComponents_quiet (handle : RootHandle s) (ok : DirOk s n)
    (foreign : ∀ f, s.freeMapFile = some f → f.inode ≠ ROOT_DIR_SECTOR) (quiet : Quiet s) {dir : Dir}
    (here : dir.inode = ROOT_DIR_SECTOR) (once : dir.openCnt = 1) (path : List CString)
    (dots : ∀ token ∈ path, token = dot ∨ token = dotDot) :
    ∃ d t, openComponents path s dir = (some d, t) ∧ d.inode = ROOT_DIR_SECTOR ∧ d.openCnt = 1 ∧ RootClosed s t ∧
      Quiet t := by
  induction path generalizing s dir with
  | nil =>
    have used := RootClosed.use handle ROOT_DIR_SECTOR
    obtain ⟨d, t, run, -, -⟩ := openComponents_dots handle ok foreign [] dots here
    rw [openComponents] at run
    split at run
    · cases run
    next kept =>
      refine ⟨dir, _, ?_, here, once, used, quiet.congr (s.use_findInode _ _) (s.use_cwd _)⟩
      rw [openComponents, here] at *
      exact if_neg kept
  | cons token rest ih =>
    obtain ⟨t, found, looked, same⟩ := dirLookup_dots ok handle here (dots token List.mem_cons_self)
    have next : RootClosed s (dirOpen t ROOT_DIR_SECTOR).2 :=
      looked.trans ⟨⟨rfl, fun _ => Or.inl rfl, fun _ => Or.inl rfl, fun _ _ => rfl⟩, fun _ _ => rfl,
        ⟨looked.handle.nodup, looked.handle.kept, looked.handle.held⟩, rfl⟩
    have fileSame := next.rehandled.freeMapFile
    have closed := next.trans (dirClose_spec next.handle here (fileSame ▸ foreign))
    have quietT : Quiet t := quiet.lookedUp same
    have quietN : Quiet (dirOpen t ROOT_DIR_SECTOR).2 := quietT
    have shut := quietN.dirClose next.handle here once
    obtain ⟨d, u, run, root, last, only, quietU⟩ := ih closed.handle (ok.rehandled closed.rehandled).1
      (by rw [closed.rehandled.freeMapFile]; exact foreign) shut.quiet
      (show (dirOpen t ROOT_DIR_SECTOR).1.inode = ROOT_DIR_SECTOR from rfl) rfl
      fun token member => dots token (List.mem_cons_of_mem _ member)
    refine ⟨d, u, ?_, root, last, closed.trans only, quietU⟩
    rw [openComponents, found]
    exact run

/-- The same when the path to the directory is one of "." and "..": the handles are closed on the way. -/
theorem filesysRemove_dots_shut (vol : Volume s n) (shut : Shut s) {path : CString}
    (dots : OnlyDots (splitPathFilename path).1) (bound : some ((splitPathFilename path).2, x) ∈ rootSlots s) :
    Shut (filesysRemove s path).2 := by
  have opened := dirOpenRoot_spec vol.mounted.handle
  have only := opened.only vol.mounted.dir.fine
  obtain ⟨quiet, once⟩ := opened.quiet shut.1 shut.quiet
  obtain ⟨d, a, run, here, last, walked, quietA⟩ := openComponents_quiet opened.handle
    (vol.mounted.dir.rehandled only.rehandled).1 (by rw [only.rehandled.freeMapFile]; exact vol.mounted.foreign) quiet
    opened.dir.1 once (tokens (splitPathFilename path).1) dots
  have start : dirOpenPath s (splitPathFilename path).1 = (some d, a) := by
    rw [dirOpenPath, shut.1]
    simp only [ite_self]
    exact run
  obtain ⟨volA, slots, -⟩ := vol.only (only.trans walked)
  rw [← slots] at bound
  obtain ⟨k, y, slot, effect⟩ := dirRemove_effect volA.mounted.dir here walked.handle.nodup (mem_keys.mpr ⟨x, bound⟩)
    fun y member => volA.removable (mem_rootFiles.mpr ⟨_, member⟩)
  have root := effect.others _ (volA.ne_root (mem_rootFiles.mpr ⟨_, List.mem_of_getElem? slot⟩)).symm
  have result : filesysRemove s path = ((dirRemove a d (splitPathFilename path).2).1,
      dirClose (dirRemove a d (splitPathFilename path).2).2 d) := by
    rw [filesysRemove, start]
  rw [result]
  exact (quietA.congr root effect.cwd).dirClose (walked.handle.congr effect.nodup root effect.cwd) here last

end remove

section turn

variable {s t : FlatFs} {n : Nat} {name : CString} {x : BlockSector} {dir : Dir}

/-- A file is not in the table any more, and is about to be removed. -/
structure ReadOut (s c : FlatFs) (n : Nat) (name : CString) (x : BlockSector) : Prop where
  volume : Volume c n
  rehandled : Rehandled s c
  slots : rootSlots c = rootSlots s
  others : ∀ y ∈ rootFiles s, Volume.Untouched s c y
  handles : ∀ z, z ≠ x → c.findInode z = s.findInode z
  cwd : c.cwd = s.cwd
  fileTable : c.fileTable = without s [name]

theorem without_absent (absent : getFileByFname s name = none) : without s [name] = s.fileTable := by
  rw [without, List.filter_eq_self]
  intro entry member
  have other := getFileByFname_none.mp absent entry member
  simpa using other

theorem removeFromFileTable_closed (handle : RootHandle s) (names : (s.fileTable.map FileTableEntry.fname).Nodup)
    (mine : ∀ f, getFileByFname s name = some f → f.inode = x ∧ f.denyWrite = false) (gone : s.findInode x = none) :
    ∃ u, RootClosed s u ∧ u.cwd = s.cwd ∧ u.openInodes = s.openInodes ∧
      (removeFromFileTable s name).2 = { u with fileTable := without s [name] } := by
  cases found : getFileByFname s name with
  | none =>
    refine ⟨s, RootClosed.refl handle, rfl, rfl, ?_⟩
    rw [without_absent found]
    simp only [removeFromFileTable, found]
  | some f =>
    obtain ⟨inode, writable⟩ := mine f found
    have closed : fileClose s f = s.use x := by
      simp only [fileClose, inode, writable, inodeClose, gone, Bool.false_eq_true, if_false]
    refine ⟨s.use x, RootClosed.use handle x, s.use_cwd x, s.use_openInodes x, ?_⟩
    simp only [removeFromFileTable, found, closed, Fs.use_fileTable, eraseP_name names, without]

theorem Volume.opensInode (vol : Volume s n) (listed : x ∈ rootFiles s) : FileOpened s (inodeOpen s x).2 x :=
  (inodeOpen_spec s x).fileOpened vol.mounted.handle vol.mounted.dir.fine (vol.ne_root listed)

theorem Volume.readsOut (vol : Volume s n) (ok : TableOk s) (bound : some (name, x) ∈ rootSlots s) :
    ReadOut s (removeFromFileTable (inodeClose (inodeOpen s x).2 x) name).2 n name x := by
  have listed := mem_rootFiles.mpr ⟨_, bound⟩
  have inner := inodeOpen_spec s x
  obtain ⟨volA, slotsA, othersA⟩ := vol.opens listed (vol.opensInode listed)
  have openedA := vol.opensInode listed
  generalize (inodeOpen s x).2 = a at *
  have listedA : x ∈ rootFiles a := by
    rw [rootFiles, slotsA]
    exact listed
  have closed : FileClosed a (inodeClose a x) x := volA.fileClosed ⟨listedA, openedA.held⟩
  obtain ⟨volB, slotsB, othersB⟩ := volA.closes listedA closed
  have tableB : (inodeClose a x).fileTable = s.fileTable :=
    (congrArg Fs.fileTable closed.rest :).trans openedA.fileTable
  obtain ⟨u, only, cwdU, inodesU, dropped⟩ :=
    @removeFromFileTable_closed (inodeClose a x) name x volB.mounted.handle (by rw [tableB]; exact ok.names)
    (fun f found => by
      have member := getFileByFname_mem found
      rw [tableB] at member
      obtain ⟨inode, writable, -⟩ := ok.held _ member x bound
      exact ⟨inode, writable⟩) closed.gone
  obtain ⟨volU, slotsU, othersU⟩ := volB.only only
  obtain ⟨volC, slotsC, othersC⟩ := volU.tabled (without (inodeClose a x) [name])
  rw [dropped]
  refine ⟨volC, ?_, slotsC.trans (slotsU.trans (slotsB.trans slotsA)), fun y mine => ?_, fun z away => ?_, ?_, ?_⟩
  · have late := closed.rehandled (volA.foreign (List.mem_cons_of_mem _ listedA))
    have tabled : Rehandled u { u with fileTable := without (inodeClose a x) [name] } :=
      ⟨rfl, fun _ => Or.inl rfl, fun _ => Or.inl rfl, fun _ _ => rfl⟩
    exact openedA.rehandled.trans (late.trans (only.rehandled.trans tabled))
  · have early := (othersA y mine).trans (othersB y (othersA y mine).1)
    have later := early.trans (othersU y early.1)
    exact later.trans (othersC y later.1)
  · have same : ({ u with fileTable := without (inodeClose a x) [name] } : FlatFs).findInode z =
        (inodeClose a x).findInode z := by
      unfold Fs.findInode
      rw [inodesU]
    exact same.trans ((closed.others z away).trans (inner.others z away))
  · exact cwdU.trans ((congrArg Fs.cwd closed.rest :).trans (congrArg Fs.cwd inner.rest :))
  · rw [without, tableB]
    rfl

theorem backUp_spec (vol : Volume s n) (ok : TableOk s) (named : FileName name) (here : dir.inode = ROOT_DIR_SECTOR)
    (ready : s.use ROOT_DIR_SECTOR = s) (bound : some (name, x) ∈ rootSlots s) (stale : Nat → CString) (files : List FileData) :
    ∃ c, ReadOut s c n name x ∧ backUp stale dir files s name =
      (files ++ [⟨storedName stale files.length name, contents s x, fileLen s x⟩], (filesysRemove c name).2) := by
  have listed := mem_rootFiles.mpr ⟨_, bound⟩
  obtain ⟨k, y, slot, found⟩ := dirLookup_present vol.mounted.dir here ready ⟨named.single, named.double⟩
    (mem_keys.mpr ⟨x, bound⟩)
  obtain rfl := vol.bound bound (List.mem_of_getElem? slot)
  obtain ⟨volA, slotsA, othersA⟩ := vol.opens listed (vol.opensInode listed)
  obtain ⟨listedA, bytes, length⟩ := othersA x listed
  have regular : inodeIsDirectory (inodeOpen s x).2 x = false := (volA.file x listedA).2
  have size : s.inodeLength x = (fileLen s x : Int) := (vol.file x listed).1.length
  have read : inodeReadAt (inodeOpen s x).2 x (fileLen s x) 0 = (contents s x, (inodeOpen s x).2) := by
    apply Prod.ext
    · rw [← bytes, (volA.file x listedA).1.reads_all (by rw [length, size])]
    · exact inodeReadAt_snd (inodeOpen s x).2 x _ _
  refine ⟨_, vol.readsOut ok bound, ?_⟩
  simp only [backUp, found, regular, Bool.false_eq_true, if_false, length, size, read, fsutilRm]

end turn

section loop

variable {s t u : FlatFs} {n j k : Nat} {name : CString} {x : BlockSector} {dir : Dir}
  {A B : List (CString × BlockSector)}

/-- Files have been backed up, and their names are free. -/
structure BackedUp (s t : FlatFs) (n : Nat) (gone : List (CString × BlockSector)) : Prop where
  volume : Volume t n
  ok : TableOk t
  quiet : Quiet t
  slots : (bindings (rootSlots s)).Perm (gone ++ bindings (rootSlots t))
  kept : ∀ b ∈ bindings (rootSlots t), Volume.Untouched s t b.2
  fileTable : t.fileTable = without s (gone.map Prod.fst)

theorem without_without (tables : t.fileTable = without s (A.map Prod.fst)) :
    without t (B.map Prod.fst) = without s ((A ++ B).map Prod.fst) := by
  rw [without, tables, without, without, List.filter_filter, List.map_append]
  apply List.filter_congr
  intro entry _
  rw [← Bool.decide_and, decide_eq_decide, List.mem_append, not_or, and_comm]

theorem BackedUp.trans (early : BackedUp s t n A) (late : BackedUp t u n B) : BackedUp s u n (A ++ B) where
  volume := late.volume
  ok := late.ok
  quiet := late.quiet
  slots := by
    rw [List.append_assoc]
    exact early.slots.trans (late.slots.append_left A)
  kept b member := (early.kept b (late.slots.symm.subset (List.mem_append_right _ member))).trans (late.kept b member)
  fileTable := late.fileTable.trans (without_without early.fileTable)

theorem RootClosed.backedUp (vol : Volume s n) (ok : TableOk s) (only : RootClosed s t) (quiet : Quiet t) :
    BackedUp s t n [] := by
  obtain ⟨volume, slots, others⟩ := vol.only only
  refine ⟨volume, only.tableOk vol ok, quiet, ?_, fun b member => ?_, ?_⟩
  · rw [slots, List.nil_append]
  · rw [slots] at member
    exact others _ (mem_rootFiles.mpr ⟨b.1, mem_bindings.mp member⟩)
  · rw [only.fileTable, without]
    simp

theorem Volume.unlinks (vol : Volume s n) (named : FileName name) (slot : (rootSlots s)[j]? = some (some (name, x))) :
    Unlinked s (filesysRemove s name).2 x n j := by
  have bound := List.mem_of_getElem? slot
  have nowhere : OnlyDots [] := by decide
  have part : OnlyDots (splitPathFilename name).1 := by
    rw [named.split]
    exact nowhere
  obtain ⟨i, y, found, -, unlinked⟩ := filesysRemove_effect vol.mounted part
    (by rw [named.split]; exact mem_keys.mpr ⟨x, bound⟩)
    (by rw [named.split]; exact fun y member => vol.removable (mem_rootFiles.mpr ⟨_, member⟩))
  rw [named.split] at found
  obtain rfl := vol.bound bound (List.mem_of_getElem? found)
  rw [slot_unique vol.names slot found]
  exact unlinked

theorem ReadOut.removed {c : FlatFs} (out : ReadOut s c n name x) (vol : Volume s n) (ok : TableOk s) (quiet : Quiet s)
    (named : FileName name) (slot : (rootSlots s)[j]? = some (some (name, x))) :
    BackedUp s (filesysRemove c name).2 n [(name, x)] ∧ Shut (filesysRemove c name).2 ∧
      rootSlots (filesysRemove c name).2 = (rootSlots s).set j none ∧ (filesysRemove c name).2.usedFreed = c.usedFreed := by
  have bound := List.mem_of_getElem? slot
  rw [← out.slots] at slot
  have unlinked := out.volume.unlinks named slot
  obtain ⟨volume, perm, others⟩ := out.volume.removes slot unlinked
  have root := (vol.ne_root (mem_rootFiles.mpr ⟨name, bound⟩)).symm
  obtain ⟨shut, freed⟩ := filesysRemove_shut out.volume (quiet.congr (out.handles _ root) out.cwd) named
    (List.mem_of_getElem? slot)
  rw [out.slots] at perm
  have slots := unlinked.slots
  rw [out.slots] at slots
  have table := unlinked.fileTable.trans out.fileTable
  generalize (filesysRemove c name).2 = d at *
  refine ⟨⟨volume, ⟨?_, fun entry member y here => ?_⟩, shut.quiet, perm, fun b member => ?_, table⟩, shut, slots, freed⟩
  · rw [table]
    exact ok.names.sublist (List.filter_sublist.map _)
  · rw [table] at member
    obtain ⟨member, other⟩ := List.mem_filter.mp member
    have still : some (entry.fname, y) ∈ rootSlots s :=
      mem_bindings.mp (perm.symm.subset (List.mem_cons_of_mem _ (mem_bindings.mpr here)))
    obtain ⟨inode, writable, held⟩ := ok.held entry member y still
    have different : y ≠ x := by
      rintro rfl
      exact absurd (vol.nameOf bound still) (by simpa using other)
    refine ⟨inode, writable, ?_⟩
    rw [unlinked.others y different (vol.ne_root (mem_rootFiles.mpr ⟨_, still⟩)), out.handles y different]
    exact held
  · have still : b ∈ bindings (rootSlots s) := perm.symm.subset (List.mem_cons_of_mem _ member)
    have listed := mem_rootFiles.mpr ⟨b.1, mem_bindings.mp still⟩
    have different : b.2 ≠ x := by
      intro same
      have again : some (b.1, x) ∈ rootSlots s := same ▸ mem_bindings.mp still
      have freed := (List.nodup_cons.mp ((keys_perm perm).nodup_iff.mp vol.names)).1
      have name : b.1 = name := vol.nameOf bound again
      rw [← name] at freed
      exact freed (mem_keys.mpr ⟨b.2, mem_bindings.mp member⟩)
    have early := out.others _ listed
    exact early.trans (others _ early.1 different)

def Stored (s : FlatFs) (x : BlockSector) : Prop := s.inodeData x = InodeDisk.decode (s.cache x)

/-- The inodes of the files that are left are on the disk, and what went with the others is free again. -/
structure Reclaimed (s t : FlatFs) (gone : List (CString × BlockSector)) : Prop where
  size : t.freeMap.bitCnt = s.freeMap.bitCnt
  used : ∀ z, Used t.freeMap z ↔ Used s.freeMap z ∧ ∀ b ∈ gone, z ∉ givenBack s b.2
  stored : ∀ y ∈ rootFiles t, Stored t y
  given : ∀ y ∈ rootFiles t, givenBack t y = givenBack s y

theorem BackedUp.listed (all : BackedUp s t n A) :
    (∀ b ∈ A, b.2 ∈ rootFiles s) ∧ ∀ y ∈ rootFiles t, y ∈ rootFiles s := by
  constructor
  · intro b member
    exact List.mem_map_of_mem (all.slots.symm.subset (List.mem_append_left _ member))
  · intro y listed
    obtain ⟨b, member, rfl⟩ := List.mem_map.mp listed
    exact List.mem_map_of_mem (all.slots.symm.subset (List.mem_append_right _ member))

theorem Reclaimed.trans (early : Reclaimed s t A) (late : Reclaimed t u B) (all : BackedUp t u n B) :
    Reclaimed s u (A ++ B) := by
  obtain ⟨listed, left⟩ := all.listed
  refine ⟨late.size.trans early.size, fun z => ?_, late.stored, fun y mine => ?_⟩
  · have same : (∀ b ∈ B, z ∉ givenBack t b.2) ↔ ∀ b ∈ B, z ∉ givenBack s b.2 := by
      apply forall₂_congr
      intro b member
      rw [early.given _ (listed b member)]
    rw [late.used, early.used, same, and_assoc, ← List.forall_mem_append]
  · rw [late.given y mine, early.given y (left y mine)]

theorem Rehandled.kept (same : Rehandled s t) (stored : Stored s x) :
    t.inodeData x = s.inodeData x ∧ Stored t x := by
  have data : t.inodeData x = s.inodeData x := (same.data x).elim id fun again => again.trans stored.symm
  refine ⟨data, ?_⟩
  rw [Stored, data, same.cache]
  exact stored

theorem Rehandled.given (same : Rehandled s t) (file : FileAt s x) (stored : Stored s x) :
    givenBack t x = givenBack s x :=
  file.givenBack_congr (fun z _ => by rw [same.cache]) (same.kept stored).1

theorem RootClosed.reclaimed (vol : Volume s n) (stored : ∀ y ∈ rootFiles s, Stored s y)
    (only : RootClosed s t) : Reclaimed s t [] := by
  obtain ⟨-, slots, -⟩ := vol.only only
  have files : rootFiles t = rootFiles s := by rw [rootFiles, slots, rootFiles]
  refine ⟨by rw [only.rehandled.bits], fun z => ?_, fun y mine => ?_, fun y mine => ?_⟩
  · rw [only.rehandled.bits]
    simp
  · rw [files] at mine
    exact (only.rehandled.kept (stored y mine)).2
  · rw [files] at mine
    exact only.rehandled.given (vol.file y mine).1 (stored y mine)

theorem ReadOut.reclaimed {c : FlatFs} (out : ReadOut s c n name x) (vol : Volume s n) (named : FileName name)
    (stored : ∀ y ∈ rootFiles s, Stored s y) (slot : (rootSlots s)[j]? = some (some (name, x))) :
    Reclaimed s (filesysRemove c name).2 [(name, x)] := by
  have listed := mem_rootFiles.mpr ⟨_, List.mem_of_getElem? slot⟩
  have given : ∀ y ∈ rootFiles s, givenBack c y = givenBack s y := fun y mine =>
    out.rehandled.given (vol.file y mine).1 (stored y mine)
  have slotC := slot
  rw [← out.slots] at slotC
  have unlinked := out.volume.unlinks named slotC
  obtain ⟨-, perm, -⟩ := out.volume.removes slotC unlinked
  rw [out.slots] at perm
  generalize (filesysRemove c name).2 = d at *
  have left : ∀ y ∈ rootFiles d, y ∈ rootFiles s ∧ y ≠ x := by
    intro y mine
    have both := (perm.map Prod.snd).nodup_iff.mp (List.nodup_cons.mp vol.owners).2
    refine ⟨(perm.map Prod.snd).symm.subset (List.mem_cons_of_mem _ mine), ?_⟩
    rintro rfl
    exact (List.nodup_cons.mp both).1 mine
  -- nothing of the other files has been touched
  have frame : ∀ y ∈ rootFiles s, y ≠ x → FileAt c y ∧ d.inodeData y = c.inodeData y ∧
      ∀ z ∈ sectorsOf c y, d.cache z = c.cache z := by
    intro y old different
    have oldC : y ∈ rootFiles c := by
      rw [rootFiles, out.slots]
      exact old
    have listedC : x ∈ rootFiles c := by
      rw [rootFiles, out.slots]
      exact listed
    have file := (out.volume.file y oldC).1
    have away : ∀ z ∈ sectorsOf c y, z ∉ sectorsOf c ROOT_DIR_SECTOR ++ sectorsOf c x := by
      intro z inside member
      have mineY := List.mem_cons_of_mem ROOT_DIR_SECTOR oldC
      rcases List.mem_append.mp member with root | theirs
      · exact out.volume.apart y mineY _ List.mem_cons_self (out.volume.ne_root oldC) z inside root
      · exact out.volume.apart y mineY x (List.mem_cons_of_mem _ listedC) different z inside theirs
    obtain ⟨-, -, -, -, data⟩ := Volume.bystander file unlinked.change away
      (unlinked.others y different (vol.ne_root old))
    refine ⟨file, data, fun z inside => ?_⟩
    exact unlinked.change.frame z (file.own_ne_zero inside) (file.own.used z inside) (away z inside)
      (file.own.apart z inside)
  refine ⟨unlinked.change.size.trans (by rw [out.rehandled.bits]), fun z => ?_, fun y mine => ?_, fun y mine => ?_⟩
  · rw [unlinked.used, given x listed, out.rehandled.bits]
    simp
  · obtain ⟨old, different⟩ := left y mine
    obtain ⟨-, data, same⟩ := frame y old different
    rw [Stored, data, same y List.mem_cons_self]
    exact (out.rehandled.kept (stored y old)).2
  · obtain ⟨old, different⟩ := left y mine
    obtain ⟨file, data, same⟩ := frame y old different
    rw [file.givenBack_congr same data, given y old]

theorem backUp_backedUp (vol : Volume s n) (ok : TableOk s) (quiet : Quiet s) (named : FileName name)
    (here : dir.inode = ROOT_DIR_SECTOR) (ready : s.use ROOT_DIR_SECTOR = s)
    (slot : (rootSlots s)[j]? = some (some (name, x))) (stale : Nat → CString) (files : List FileData) : ∃ t, backUp stale dir files s name =
      (files ++ [⟨storedName stale files.length name, contents s x, fileLen s x⟩], t) ∧
      BackedUp s t n [(name, x)] ∧ Shut t ∧ rootSlots t = (rootSlots s).set j none ∧
      ((∀ y ∈ rootFiles s, Stored s y) → Reclaimed s t [(name, x)]) := by
  obtain ⟨c, out, run⟩ := backUp_spec vol ok named here ready (List.mem_of_getElem? slot) stale files
  obtain ⟨backed, shut, slots, -⟩ := out.removed vol ok quiet named slot
  exact ⟨_, run, backed, shut, slots, fun stored => out.reclaimed vol named stored slot⟩

/-- What is in memory of the files of some bindings, if `i` files come before them. -/
def backUps (stale : Nat → CString) (s : FlatFs) : Nat → List (CString × BlockSector) → List FileData
  | _, [] => []
  | i, (name, x) :: rest => ⟨storedName stale i name, contents s x, fileLen s x⟩ :: backUps stale s (i + 1) rest

theorem mem_backUps {stale : Nat → CString} {i : Nat} {file : FileData} (member : file ∈ backUps stale s i A) :
    ∃ k name x, (name, x) ∈ A ∧ file = ⟨storedName stale k name, contents s x, fileLen s x⟩ := by
  induction A generalizing i with
  | nil => cases member
  | cons b rest ih =>
    rcases List.mem_cons.mp member with rfl | later
    · exact ⟨i, b.1, b.2, List.mem_cons_self, rfl⟩
    · obtain ⟨k, name, x, inside, same⟩ := ih later
      exact ⟨k, name, x, List.mem_cons_of_mem _ inside, same⟩

theorem backUps_congr (stale : Nat → CString) (same : ∀ b ∈ A, Volume.Untouched s t b.2) (i : Nat) :
    backUps stale t i A = backUps stale s i A := by
  induction A generalizing i with
  | nil => rfl
  | cons b rest ih =>
    obtain ⟨-, bytes, length⟩ := same b List.mem_cons_self
    rw [backUps, backUps, bytes, fileLen, fileLen, length, ih fun b member => same b (List.mem_cons_of_mem _ member)]

structure LoopBackedUp (stale : Nat → CString) (s : FlatFs) (n k : Nat) (files : List FileData)
    (r : List FileData × Dir × FlatFs) : Prop where
  value : r.1 = files ++ backUps stale s files.length (bindings ((rootSlots s).drop k))
  here : r.2.1.inode = ROOT_DIR_SECTOR
  once : r.2.1.openCnt = 1
  backed : BackedUp s r.2.2 n (bindings ((rootSlots s).drop k))
  reclaimed : (∀ y ∈ rootFiles s, Stored s y) → Reclaimed s r.2.2 (bindings ((rootSlots s).drop k))

theorem LoopBackedUp.of_closed {stale : Nat → CString} {files : List FileData} {r : List FileData × Dir × FlatFs}
    (loop : LoopBackedUp stale t n k files r) (vol : Volume s n) (ok : TableOk s) (only : RootClosed s t)
    (quiet : Quiet t) : LoopBackedUp stale s n k files r := by
  obtain ⟨-, slots, others⟩ := vol.only only
  have first := only.backedUp vol ok quiet
  have untouched : ∀ b ∈ bindings ((rootSlots s).drop k), Volume.Untouched s t b.2 := fun b member =>
    others _ (mem_rootFiles.mpr ⟨b.1, List.mem_of_mem_drop (mem_bindings.mp member)⟩)
  have value := loop.value
  have backed := first.trans loop.backed
  have reclaimed := loop.reclaimed
  rw [slots] at value backed reclaimed
  rw [backUps_congr stale untouched] at value
  refine ⟨value, loop.here, loop.once, backed, fun stored => ?_⟩
  have one := only.reclaimed vol stored
  have all := one.trans (reclaimed one.stored) (slots ▸ loop.backed)
  exact all

/-- The run lemma: the loop backs up the files of the bindings from its slot on, in the order of their slots. -/
theorem whileReaddir_backedUp (vol : Volume s n) (ok : TableOk s) (quiet : Quiet s)
    (named : ∀ name ∈ keys (rootSlots s), FileName name) (before : Before s dir k) (once : dir.openCnt = 1)
    (inside : k ≤ (rootSlots s).length) {calls : Nat} (enough : (bindings ((rootSlots s).drop k)).length < calls)
    (stale : Nat → CString) {root : Dir} (here : root.inode = ROOT_DIR_SECTOR) (files : List FileData) :
    LoopBackedUp stale s n k files (whileReaddir (backUp stale root) calls files s dir) := by
  induction calls generalizing s dir k files with
  | zero => exact absurd enough (Nat.not_lt_zero _)
  | succ calls ih =>
    -- the root directory may have been freed by the turn before
    have used := RootClosed.use vol.mounted.handle ROOT_DIR_SECTOR
    have again : whileReaddir (backUp stale root) (calls + 1) files s dir =
        whileReaddir (backUp stale root) (calls + 1) files (s.use ROOT_DIR_SECTOR) dir := by
      simp only [whileReaddir, dirReaddir_use s before.1]
    have quietU := quiet.congr (s.use_findInode ROOT_DIR_SECTOR ROOT_DIR_SECTOR) (s.use_cwd ROOT_DIR_SECTOR)
    obtain ⟨volU, slots, -⟩ := vol.only used
    rw [again]
    refine LoopBackedUp.of_closed ?_ vol ok used quietU
    have okU := used.tableOk vol ok
    have beforeU : Before (s.use ROOT_DIR_SECTOR) dir k := by
      rw [Before, dirAt, Fs.use_cwd]
      exact before
    rw [← slots] at named inside enough
    have ready := s.use_use ROOT_DIR_SECTOR
    clear again used slots quiet before ok vol
    generalize s.use ROOT_DIR_SECTOR = u at *
    rcases dirReaddir_spec volU.mounted.dir ready beforeU inside with
      ⟨empty, run, -⟩ | ⟨j, name, x, -, slot, rest, run, next⟩
    · have only := setDir_moved volU.mounted.handle dir (36 * n : Nat)
      obtain ⟨quietV, onceV⟩ := quietU.moved once (36 * n : Nat)
      simp only [whileReaddir, run]
      refine ⟨?_, beforeU.1, onceV, ?_, fun stored => ?_⟩
      · rw [empty, backUps, List.append_nil]
      · rw [empty]
        exact only.backedUp volU okU quietV
      · rw [empty]
        exact only.reclaimed volU stored
    · have only := setDir_moved volU.mounted.handle dir (36 * (j + 2) : Nat)
      obtain ⟨quietV, onceV⟩ := quietU.moved once (36 * (j + 2) : Nat)
      have first := only.backedUp volU okU quietV
      obtain ⟨-, slotsV, othersV⟩ := volU.only only
      have fileName := named name (mem_keys.mpr ⟨x, List.mem_of_getElem? slot⟩)
      have bound := slot
      rw [← slotsV] at slot
      obtain ⟨v, turn, second, shut, slotsW, given⟩ :=
        backUp_backedUp first.volume first.ok quietV fileName here (setDir_use u _ ready) slot stale files
      have both := first.trans second
      -- the handle of the scan is now nobody's but its own
      have beforeV : Before v (moved u dir (36 * (j + 2) : Nat)) (j + 1) := by
        have own : dirAt v (moved u dir (36 * (j + 2) : Nat)) = moved u dir (36 * (j + 2) : Nat) := by
          simp only [dirAt, shut.1]
        rw [Before, own]
        exact ⟨beforeU.1, rfl⟩
      have small : j + 1 ≤ (rootSlots v).length := by
        rw [slotsW, List.length_set]
        exact (List.getElem?_eq_some_iff.mp slot).1
      have later : (rootSlots v).drop (j + 1) = (rootSlots u).drop (j + 1) := by
        rw [slotsW, slotsV, List.drop_set_of_lt (Nat.lt_succ_self j)]
      rw [rest, List.length_cons] at enough
      have namedV : ∀ name ∈ keys (rootSlots v), FileName name := by
        intro name present
        obtain ⟨b, member, rfl⟩ := List.mem_map.mp present
        exact named _ (List.mem_map_of_mem (both.slots.symm.subset (List.mem_append_right _ member)))
      obtain ⟨went, hereV, onceW, third, givenLater⟩ := ih both.volume both.ok both.quiet namedV beforeV onceV small
        (by rw [later]; omega) (files ++
          [⟨storedName stale files.length name, contents (setDir u (moved u dir (36 * (j + 2) : Nat))) x,
            fileLen (setDir u (moved u dir (36 * (j + 2) : Nat))) x⟩])
      simp only [whileReaddir, run, turn]
      rw [later] at went third givenLater
      refine ⟨?_, hereV, onceW, ?_, fun stored => ?_⟩
      · obtain ⟨-, bytes, length⟩ := othersV x (mem_rootFiles.mpr ⟨name, List.mem_of_getElem? bound⟩)
        have kept : ∀ b ∈ bindings ((rootSlots u).drop (j + 1)), Volume.Untouched u v b.2 := by
          intro b member
          rw [← later] at member
          exact both.kept b (mem_bindings.mpr (List.mem_of_mem_drop (mem_bindings.mp member)))
        rw [went, backUps_congr stale kept, rest, backUps, List.length_append, List.length_singleton, List.append_assoc,
          bytes, fileLen, length]
        rfl
      · rw [rest]
        exact both.trans third
      · have one := only.reclaimed volU stored
        have two := one.trans (given one.stored) second
        rw [rest]
        exact two.trans (givenLater two.stored) third

theorem Volume.backsUp (vol : Volume s n) (ok : TableOk s) (shut : Shut s)
    (named : ∀ name ∈ keys (rootSlots s), FileName name) (stale : Nat → CString) :
    let o := dirOpenRoot s
    let r := whileReaddir (backUp stale o.1) (readdirCalls o.2 o.1) [] o.2 o.1
    r.1 = backUps stale s 0 (bindings (rootSlots s)) ∧
      BackedUp s (dirClose r.2.2 r.2.1) n (bindings (rootSlots s)) ∧ Shut (dirClose r.2.2 r.2.1) ∧
      ((∀ y ∈ rootFiles s, Stored s y) → Reclaimed s (dirClose r.2.2 r.2.1) (bindings (rootSlots s))) := by
  intro o r
  have opened := dirOpenRoot_spec vol.mounted.handle
  obtain ⟨quiet, once⟩ := opened.quiet shut.1 shut.quiet
  have only := opened.only vol.mounted.dir.fine
  have first := only.backedUp vol ok quiet
  have slots := (vol.only only).2.1
  have enough := first.volume.mounted.dir.readdirCalls opened.dir.1 0
  obtain ⟨went, here, onceR, scan, given⟩ := whileReaddir_backedUp first.volume first.ok quiet (by rw [slots]; exact named)
    shut.before once (Nat.zero_le _) enough stale opened.dir.1 []
  have both := first.trans scan
  have handle := both.volume.mounted.handle
  have closed := scan.quiet.dirClose handle here onceR
  have shutting := dirClose_spec handle here both.volume.mounted.foreign
  have last := shutting.backedUp both.volume both.ok closed.quiet
  have all := both.trans last
  have reclaims : (∀ y ∈ rootFiles s, Stored s y) → Reclaimed s (dirClose r.2.2 r.2.1) _ := fun stored => by
    have one := (opened.only vol.mounted.dir.fine).reclaimed vol stored
    have two := one.trans (given one.stored) scan
    exact two.trans (shutting.reclaimed both.volume two.stored) last
  rw [List.drop_zero, slots] at went all reclaims
  rw [List.append_nil, List.nil_append] at all reclaims
  refine ⟨?_, all, closed, reclaims⟩
  rw [went, List.nil_append]
  apply backUps_congr
  intro b member
  exact (vol.only only).2.2 _ (mem_rootFiles.mpr ⟨b.1, mem_bindings.mp member⟩)

theorem BackedUp.emptied (all : BackedUp s t n (bindings (rootSlots s))) : bindings (rootSlots t) = [] := by
  have count := all.slots.length_eq
  rw [List.length_append] at count
  exact List.eq_nil_of_length_eq_zero (by omega)

end loop

end ShellOs.FileSystem
