import ShellOs.FileSystem.Inverse

/-! Persistence: what the next process finds on the device is what this one had when it shut the file system down. -/

namespace ShellOs.FileSystem
open Lib SlotMap

def FileOp.Fits (s : FlatFs) : FileOp → Prop
  | create path size => (createMissing s (splitPathFilename path).2 size).length ≤ (freeSectors s.freeMap).length
  | write inode _ size offset => offset + size < 2 ^ 31 →
      (writeNeeds s inode (offset + size)).length ≤ (freeSectors s.freeMap).length
  | _ => True

/-- The free map on the disk is the one in memory, and only `free_map_file` has it open. -/
structure Durable (size : BlockSector) (s : FlatFs) : Prop where
  synced : Synced s
  zero : SectorZero s
  file : s.freeMapFile = some (fileOpen FREE_MAP_SECTOR)
  held : ∃ i, s.findInode FREE_MAP_SECTOR = some i ∧ i.openCnt = 1 ∧ i.removed = false
  bitCnt : s.freeMap.bitCnt = (size - 1).toNat
  fileTable : s.fileTable = []

section steps

variable {size : BlockSector} {s t : FlatFs} {n : Nat} {x : BlockSector}

theorem Fresh.durable (fresh : Fresh size s) : Durable size s := by
  refine ⟨fresh.synced, fresh.sectorZero, fresh.file, ?_, fresh.bitCnt, fresh.fileTable⟩
  obtain ⟨a, inodes⟩ := fresh.inodes
  exact ⟨_, by rw [Fs.findInode, inodes]; rfl, rfl, rfl⟩

theorem Durable.change (durable : Durable size s) {touched : List BlockSector} (change : Change s t touched)
    (same : t.findInode FREE_MAP_SECTOR = s.findInode FREE_MAP_SECTOR) (zero : t.cache 0 = s.cache 0)
    (fileTable : t.fileTable = s.fileTable) : Durable size t := by
  refine ⟨change.synced durable.synced, ?_, change.freeMapFile.trans durable.file, ?_,
    change.size.trans durable.bitCnt, fileTable.trans durable.fileTable⟩
  · rw [SectorZero, inodeData_of_find same zero, zero]
    exact durable.zero
  · rw [same]
    exact durable.held

theorem Durable.rehandled (durable : Durable size s) (fine : FreeMapOk s) (same : Rehandled s t)
    (fileTable : t.fileTable = s.fileTable) : Durable size t :=
  durable.change (same.change fine) (same.freeMap _ durable.file) (by rw [same.cache]) fileTable

theorem Durable.step (durable : Durable size s) (vol : Volume s n) {op : FileOp} (effect : OpEffect s n op t)
    (fits : op.Fits s) : Durable size t := by
  have fine := vol.mounted.dir.fine
  cases effect with
  | created _ creation =>
    refine durable.change creation.change (creation.others _ (by decide)) (creation.zero.trans ?_) creation.fileTable
    rw [List.getElem?_eq_none (show (createMissing s _ _).length ≤ _ from fits)]
    exact if_neg (by simp)
  | opened _ opened => exact durable.rehandled fine opened.rehandled opened.fileTable
  | looked only => exact durable.rehandled fine only.rehandled only.fileTable
  | wrote listed _ small effect =>
    exact durable.change (effect.took.change fine) (effect.handles.others _ (vol.file _ listed).1.nonzero.symm)
      (effect.enough (fits small)).2 (congrArg Fs.fileTable effect.took.rest :)
  | closed listed closed =>
    exact durable.rehandled fine (closed.rehandled (vol.foreign (List.mem_cons_of_mem _ listed)))
      (congrArg Fs.fileTable closed.rest :)
  | removed slot unlinked =>
    have listed := mem_rootFiles.mpr ⟨_, List.mem_of_getElem? slot⟩
    exact durable.change unlinked.change (unlinked.others _ (vol.file _ listed).1.nonzero.symm (by decide))
      unlinked.zero unlinked.fileTable

theorem Durable.stored (durable : Durable size s) (fine : FreeMapOk s) : MapStored s.cache s.freeMap := by
  have layout := (fine.file _ durable.file).layout
  have zero : s.inodeData FREE_MAP_SECTOR = InodeDisk.decode (s.cache 0) := durable.zero.symm
  refine ⟨fine.small, fine.first, ?_, fun i inside => ?_⟩
  · rw [← zero]
    exact layout
  · rw [← zero]
    exact durable.synced _ durable.file i inside

theorem Durable.remount (durable : Durable size s) (vol : Volume s n) :
    let next : FlatFs := filesysInit s.cache size false
    SameBits s.freeMap next.freeMap ∧ rootSlots next = rootSlots s ∧ ∀ x ∈ rootFiles s, SameFile s next x := by
  intro next
  have fine := vol.mounted.dir.fine
  have bits : (filesysStart s.cache size).freeMap.bitCnt = s.freeMap.bitCnt :=
    (freeMapInit_spec size).1.trans durable.bitCnt.symm
  have mounted : Remounted (filesysStart s.cache size) s.freeMap next :=
    freeMapOpen_remounted (durable.stored fine) bits rfl
  have nodes : freeMapNodes s = freeMapNodes next := by
    rw [mounted.nodes, freeMapNodes_open durable.file]
    exact congrArg (inodeNodes s.cache) durable.zero.symm
  have files : ∀ x ∈ owners s, FileAt next x ∧ contents next x = contents s x ∧ next.inodeLength x = s.inodeLength x := by
    intro x owner
    obtain ⟨file, -, bytes, length⟩ := mounted.fileAt (vol.owner owner) rfl (fun _ => id) nodes
    exact ⟨file, bytes, length⟩
  obtain ⟨root, bytesRoot, lengthRoot⟩ := files ROOT_DIR_SECTOR List.mem_cons_self
  have writable : next.inodeDenyWriteCnt ROOT_DIR_SECTOR = 0 := by
    apply Fs.inodeDenyWriteCnt_absent
    rw [Fs.findInode, mounted.inodes]
    rfl
  have slots := (vol.mounted.dir.same mounted.fine root lengthRoot bytesRoot writable).2
  refine ⟨mounted.bits, slots, fun x listed => ?_⟩
  obtain ⟨file, bytes, length⟩ := files x (List.mem_cons_of_mem _ listed)
  refine ⟨by rw [Fs.flat_flat, rootFiles, slots]; exact listed, length, fun k o => ?_⟩
  rw [file.reads, (vol.file x listed).1.reads, bytes]

end steps

def SoundSession (cache : BufferCache) (size : BlockSector) (s : Fs BufferCache) : Prop :=
  Run (fun s op => FileOp.May s.flat op ∧ FileOp.Fits s.flat op) FileOp.step (filesysInit cache size true) s

theorem SoundSession.durable {cache : BufferCache} {size : BlockSector} {s : Fs BufferCache}
    (run : SoundSession cache size s) (went : formats cache size = true) :
    Durable size s.flat ∧ ∃ n, Volume s.flat n := by
  refine Run.invariant (fun u => Durable size u.flat ∧ ∃ n, Volume u.flat n) run ?_ fun u op before may => ?_
  · rw [filesysInit_flat]
    have fresh : Fresh size (filesysInit (Store.view cache) size true) :=
      filesysInit_fresh (by rw [formats_flat]; exact went)
    exact ⟨fresh.durable, _, fresh.volume⟩
  · obtain ⟨durable, n, vol⟩ := before
    have effect := vol.effect may.1
    rw [FileOp.step_flat]
    exact ⟨durable.step vol effect may.2, (vol.kept effect).volume⟩

theorem filesysDone_device {size : BlockSector} {s : Fs BufferCache} (durable : Durable size s.flat) :
    (filesysDone s).cache.state.fsDevice.sectors = s.flat.cache := by
  obtain ⟨i, found, last, live⟩ := durable.held
  have flat : (freeMapClose s).flat = unlist s.flat FREE_MAP_SECTOR :=
    (freeMapClose_flat s).trans (freeMapClose_last durable.file found last live)
  have table : (freeMapClose s).fileTable = [] :=
    (show (freeMapClose s).flat.fileTable = [] by rw [flat, unlist_fileTable]; exact durable.fileTable)
  have shut : filesysDone s = { freeMapClose s with cache := (freeMapClose s).cache.close, fileTable := [] } := by
    simp only [filesysDone, freeFileTable, table, List.foldl_nil]
  have kept : Store.view (freeMapClose s).cache = s.flat.cache := (congrArg Fs.cache flat).trans unlist_cache
  have cache : (filesysDone s).cache = (freeMapClose s).cache.close := by rw [shut]
  rw [cache, BufferCache.device_close, kept]

/-- What `filesys_done` leaves on the device, `filesys_init (false)` finds again in the next process, whatever is in
its cache slots before they are cleared. -/
theorem filesysDone_persists {cache : BufferCache} {size : BlockSector} (went : formats cache size = true)
    {s : Fs BufferCache} (run : SoundSession cache size s) (slots : Slot → BufferCacheEntry) (clock : Slot) :
    let next := filesysInit (BufferCache.init ⟨slots, clock, (filesysDone s).cache.state.fsDevice⟩) size false
    SameBits s.freeMap next.freeMap ∧ rootSlots next.flat = rootSlots s.flat ∧
      ∀ x ∈ rootFiles s.flat, SameFile s next x := by
  obtain ⟨durable, n, vol⟩ := run.durable went
  intro next
  have flat : next.flat = filesysInit s.flat.cache size false := by
    rw [filesysInit_flat, BufferCache.view_init, filesysDone_device durable]
  obtain ⟨bits, entries, files⟩ := durable.remount vol
  rw [← flat] at bits entries files
  refine ⟨bits, entries, fun x listed => ?_⟩
  have same := files x listed
  refine ⟨same.listed, same.length, fun k o => ?_⟩
  rw [inodeReadAt_fst, inodeReadAt_fst s]
  exact same.reads k o

theorem filesysDone_persists_create : rootSlots (filesysInit (BufferCache.init ⟨fun _ => ⟨true, 7, zeros, true, true⟩, 3,
    (filesysDone (FileOp.step (formatted 80) (.create [97] 512))).cache.state.fsDevice⟩) 80 false).flat =
      rootSlots (FileOp.step (formatted 80) (.create [97] 512)).flat := by
  have fits : FormatFits 80 := by decide +kernel
  have fresh := formatted_fresh fits
  have proper : (0 : Byte) ∉ [97] := by decide
  have free : (freeSectors (formatted 80).flat.freeMap).length = 5 := fresh.free_length.trans (by decide +kernel)
  have needs : (createMissing (formatted 80).flat (splitPathFilename [97]).2 512).length = 2 :=
    (congrArg List.length (fresh.createMissing _ _)).trans (by decide +kernel)
  have few : FileOp.Fits (formatted 80).flat (.create [97] 512) := (needs.le.trans (by decide)).trans free.ge
  have run : SoundSession (blankDisk 80) 80 (FileOp.step (formatted 80) (.create [97] 512)) :=
    .next _ .start ⟨proper, few⟩
  exact (filesysDone_persists (formats_blank fits) run _ 3).2.1

end ShellOs.FileSystem
