import ShellOs.FileSystem.Refinement
import ShellOs.FileSystem.Persistence

/-! The shell over many processes: one shuts the file system down, and the next one mounts what is on the device. -/

namespace ShellOs.FileSystem
open Lib SlotMap

section shutdown

variable {σ : Type} [Store σ BlockSector Sector] {s : Fs σ}

def NoneRemoved (s : Fs σ) : Prop := ∀ i ∈ s.openInodes, i.removed = false

theorem fileClose_idle (none : NoneRemoved s) (f : File) :
    (fileClose s f).cache = s.cache ∧ NoneRemoved (fileClose s f) := by
  have allowed : NoneRemoved (if f.denyWrite then inodeAllowWrite s f.inode else s) := by
    split
    next =>
      intro i member
      obtain ⟨j, before, rfl⟩ := List.mem_map.mp member
      split <;> exact none j before
    next => exact none
  have cache : (if f.denyWrite then inodeAllowWrite s f.inode else s).cache = s.cache := by
    split <;> rfl
  rw [fileClose, ← cache]
  generalize (if f.denyWrite then inodeAllowWrite s f.inode else s) = t at allowed
  unfold inodeClose
  split
  next =>
    refine ⟨Fs.use_cache t f.inode, fun i member => ?_⟩
    rw [Fs.use_openInodes] at member
    exact allowed i member
  next i found =>
    have live := allowed i (List.mem_of_find?_eq_some found)
    simp only [live, Bool.false_eq_true, if_false]
    split
    next => exact ⟨rfl, fun j member => allowed j (List.mem_of_mem_eraseP member)⟩
    next =>
      refine ⟨rfl, fun j member => ?_⟩
      obtain ⟨k, before, rfl⟩ := List.mem_map.mp member
      split <;> exact allowed k before

theorem freeFileTable_idle (none : NoneRemoved s) : (freeFileTable s).cache = s.cache := by
  have closes : ∀ (entries : List FileTableEntry) (t : Fs σ), NoneRemoved t →
      (entries.foldl (fun t entry => fileClose t entry.f) t).cache = t.cache := by
    intro entries
    induction entries with
    | nil => exact fun _ _ => rfl
    | cons entry rest ih =>
      intro t none
      obtain ⟨cache, still⟩ := fileClose_idle none entry.f
      rw [List.foldl_cons, ih _ still, cache]
  exact closes s.fileTable s none

/-- Each file in the table has an inode of its own, and it is open. -/
structure OwnInodes (entries : List FileTableEntry) (s : FlatFs) : Prop where
  nodup : HandlesNodup s
  none : NoneRemoved s
  apart : (entries.map fun entry => entry.f.inode).Nodup
  held : ∀ entry ∈ entries, entry.f.denyWrite = false ∧ (s.findInode entry.f.inode).isSome

theorem OwnInodes.congr {entries : List FileTableEntry} {s t : FlatFs} (own : OwnInodes entries s)
    (inodes : t.openInodes = s.openInodes) : OwnInodes entries t := by
  obtain ⟨nodup, none, apart, held⟩ := own
  refine ⟨?_, ?_, apart, fun entry member => ?_⟩
  · rw [HandlesNodup, inodes]
    exact nodup
  · rw [NoneRemoved, inodes]
    exact none
  · rw [Fs.findInode, inodes]
    exact held entry member

theorem OwnInodes.freed {entries : List FileTableEntry} {s : FlatFs} (own : OwnInodes entries s) :
    (entries.foldl (fun t entry => fileClose t entry.f) s).usedFreed = s.usedFreed := by
  induction entries generalizing s with
  | nil => rfl
  | cons entry rest ih =>
    obtain ⟨writable, listed⟩ := own.held entry List.mem_cons_self
    obtain ⟨fresh, apart⟩ := List.nodup_cons.mp own.apart
    have close : fileClose s entry.f = inodeClose s entry.f.inode := by
      rw [fileClose, writable]
      rfl
    have closed := inodeClose_spec (x := entry.f.inode) own.nodup fun i found =>
      own.none i (List.mem_of_find?_eq_some found)
    obtain ⟨-, still⟩ := fileClose_idle own.none entry.f
    rw [List.foldl_cons]
    rw [close] at still ⊢
    have next : OwnInodes rest (inodeClose s entry.f.inode) := by
      refine ⟨closed.nodup, still, apart, fun other member => ?_⟩
      obtain ⟨writable, held⟩ := own.held other (List.mem_cons_of_mem _ member)
      have away : other.f.inode ≠ entry.f.inode := by
        intro same
        exact fresh (List.mem_map.mpr ⟨other, member, same⟩)
      rw [closed.others _ away]
      exact ⟨writable, held⟩
    exact (ih next).trans (closed.freed listed)

end shutdown

section process

variable {size : BlockSector} {s t : FlatFs} {n : Nat} {x : BlockSector}

/-- The free map on the disk is the one in memory, whatever files are open. -/
def Lasting (size : BlockSector) (s : FlatFs) : Prop := Durable size { s with fileTable := [] }

theorem Steady.lasting (steady : Steady s t) (lasting : Lasting size s) : Lasting size t := by
  refine ⟨steady.synced lasting.synced, ?_, steady.file.trans lasting.file, ?_, steady.size.trans lasting.bitCnt, rfl⟩
  · have zero : InodeDisk.decode (s.cache 0) = s.inodeData FREE_MAP_SECTOR := lasting.zero
    have same : t.inodeData FREE_MAP_SECTOR = s.inodeData FREE_MAP_SECTOR := inodeData_of_find steady.map steady.zero
    change InodeDisk.decode (t.cache 0) = t.inodeData FREE_MAP_SECTOR
    rw [same, steady.zero, zero]
  · obtain ⟨i, found, rest⟩ := lasting.held
    exact ⟨i, steady.map.trans found, rest⟩

theorem Fresh.lasting (fresh : Fresh size s) : Lasting size s := by
  have durable := fresh.durable
  have table := fresh.fileTable
  rw [Lasting, ← table]
  exact durable

theorem findInode_mem (nodup : HandlesNodup s) {i : Inode} (member : i ∈ s.openInodes) : s.findInode i.sector = some i := by
  obtain ⟨j, found⟩ := Option.isSome_iff_exists.mp
    (List.find?_isSome.mpr ⟨i, member, beq_self_eq_true i.sector⟩ : (s.findInode i.sector).isSome)
  rw [Fs.findInode, found, List.inj_on_of_nodup_map nodup (List.mem_of_find?_eq_some found) member (Fs.findInode_sector found)]

theorem ShellOk.noneRemoved (ok : ShellOk s) (lasting : Lasting size s) : NoneRemoved s := by
  obtain ⟨n, vol⟩ := ok.volume
  intro i member
  have found := findInode_mem vol.mounted.handle.nodup member
  by_cases map : i.sector = FREE_MAP_SECTOR
  · obtain ⟨j, held, -, live⟩ := lasting.held
    have same : s.findInode FREE_MAP_SECTOR = some j := held
    rw [map, same] at found
    rw [← Option.some.inj found]
    exact live
  · by_cases root : i.sector = ROOT_DIR_SECTOR
    · rw [root, ok.shut.2] at found
      cases found
    · exact (vol.single _ i found map root).2.2.1

/-- `filesys_done` leaves on the device what the cache held, though it closes files after the cache. -/
theorem filesysDone_leaves {s : Fs BufferCache} (ok : ShellOk s.flat) (lasting : Lasting size s.flat) :
    (filesysDone s).cache.state.fsDevice.sectors = s.flat.cache := by
  obtain ⟨i, found, last, live⟩ := lasting.held
  have flat : (freeMapClose s).flat = unlist s.flat FREE_MAP_SECTOR :=
    (freeMapClose_flat s).trans (freeMapClose_last lasting.file found last live)
  have inodes : (freeMapClose s).openInodes = (unlist s.flat FREE_MAP_SECTOR).openInodes := congrArg Fs.openInodes flat
  have none : NoneRemoved { freeMapClose s with cache := (freeMapClose s).cache.close } := by
    intro i member
    exact ok.noneRemoved lasting i (List.mem_of_mem_eraseP (inodes ▸ member))
  have kept : Store.view (freeMapClose s).cache = s.flat.cache := (congrArg Fs.cache flat).trans unlist_cache
  rw [filesysDone, freeFileTable_idle none, BufferCache.device_close, kept]

/-- What the next process finds, if it mounts the sectors that this one leaves. -/
structure Mounts (size : BlockSector) (s next : FlatFs) (n : Nat) : Prop where
  volume : Volume next n
  shut : Shut next
  slots : rootSlots next = rootSlots s
  bytes : ∀ x ∈ rootFiles s, contents next x = contents s x
  fileTable : next.fileTable = []
  freed : next.usedFreed = false
  lasting : Lasting size next

theorem Lasting.mounts (lasting : Lasting size s) (vol : Volume s n) : Mounts size s (filesysInit s.cache size false) n := by
  have fine := vol.mounted.dir.fine
  have bits : (filesysStart s.cache size).freeMap.bitCnt = s.freeMap.bitCnt :=
    (freeMapInit_spec size).1.trans lasting.bitCnt.symm
  have stored : MapStored s.cache s.freeMap := by
    obtain ⟨volume, -, -⟩ := vol.tabled []
    have durable : Durable size { s with fileTable := [] } := lasting
    exact durable.stored volume.mounted.dir.fine
  have mounted : Remounted (filesysStart s.cache size) s.freeMap (filesysInit s.cache size false) :=
    freeMapOpen_remounted stored bits rfl
  have zero : InodeDisk.decode (s.cache 0) = s.inodeData FREE_MAP_SECTOR := lasting.zero
  generalize (filesysInit s.cache size false : FlatFs) = next at mounted
  have cache : next.cache = s.cache := mounted.cache
  have nodes : freeMapNodes s = freeMapNodes next := by
    rw [mounted.nodes, freeMapNodes_open (show s.freeMapFile = _ from lasting.file)]
    exact congrArg (inodeNodes s.cache) zero.symm
  have files : ∀ x ∈ owners s, FileAt next x ∧ (sectorsOf next x).Sublist (sectorsOf s x) ∧
      contents next x = contents s x ∧ next.inodeLength x = s.inodeLength x := fun x owner =>
    mounted.fileAt (vol.owner owner) rfl (fun _ => id) nodes
  -- only the free map's file is open
  have map : next.findInode FREE_MAP_SECTOR = some ⟨(filesysStart s.cache size).nextAddr, 0, 1, false, 0,
      InodeDisk.decode ((filesysStart s.cache size).cache 0)⟩ := by
    rw [Fs.findInode, mounted.inodes]
    rfl
  have opened : ∀ x i, next.findInode x = some i → x = FREE_MAP_SECTOR := by
    intro x i found
    have member := List.mem_of_find?_eq_some found
    rw [mounted.inodes, List.mem_singleton] at member
    rw [← Fs.findInode_sector found, member]
  have closed : ∀ x, x ≠ FREE_MAP_SECTOR → next.findInode x = none := by
    intro x away
    rw [Option.eq_none_iff_forall_ne_some]
    exact fun i found => away (opened x i found)
  obtain ⟨root, -, bytesRoot, lengthRoot⟩ := files ROOT_DIR_SECTOR List.mem_cons_self
  obtain ⟨dir, slots⟩ := vol.mounted.dir.same mounted.fine root lengthRoot bytesRoot
    (Fs.inodeDenyWriteCnt_absent (closed _ (by decide)))
  have listed : rootFiles next = rootFiles s := by rw [rootFiles, slots, rootFiles]
  have mine : owners next = owners s := by rw [owners, listed, owners]
  have handle : RootHandle next := by
    refine ⟨?_, fun i found => ?_, fun d held => ?_⟩
    · rw [HandlesNodup, mounted.inodes]
      exact List.nodup_singleton _
    · rw [closed _ (by decide)] at found
      cases found
    · rw [mounted.cwd] at held
      cases held
  have used : ∀ z, (next.findInode z).isSome → Used next.freeMap z := by
    intro z held
    obtain ⟨i, found⟩ := Option.isSome_iff_exists.mp held
    rw [opened z i found]
    exact mounted.fine.first
  refine ⟨⟨⟨dir, ⟨_, mounted.file, rfl⟩, handle, used⟩, by rw [slots]; exact vol.names, by rw [mine]; exact vol.owners,
    fun x inside => ?_, fun x ownerX y ownerY different z inX inY => ?_, fun z i found away => absurd (opened z i found) away⟩,
    ⟨mounted.cwd, closed _ (by decide)⟩, slots, fun x inside => (files x (List.mem_cons_of_mem _ inside)).2.2.1,
    mounted.fileTable, mounted.freed, ?_⟩
  · rw [listed] at inside
    obtain ⟨file, regular⟩ := vol.file x inside
    refine ⟨(files x (List.mem_cons_of_mem _ inside)).1, ?_⟩
    rw [Fs.inodeData, closed x file.nonzero, cache]
    exact (Volume.isDir_disk file).trans regular
  · rw [mine] at ownerX ownerY
    exact vol.apart x ownerX y ownerY different z ((files x ownerX).2.1.subset inX) ((files y ownerY).2.1.subset inY)
  · refine ⟨mounted.synced, ?_, mounted.file, ?_, mounted.bits.1.trans lasting.bitCnt, rfl⟩
    · change InodeDisk.decode (next.cache 0) = next.inodeData FREE_MAP_SECTOR
      rw [Fs.inodeData_found map rfl, cache]
      rfl
    · exact ⟨_, map, rfl, rfl⟩

theorem Ready.mounts {next : FlatFs} (ready : Ready s) (mounts : Mounts size s next n) :
    Ready next ∧ desk next = fun name => (desk s name).map Document.closed := by
  constructor
  · refine ⟨.of_files mounts.volume mounts.shut (by rw [mounts.slots]; exact ready.ok.named) ?_ ?_, ?_⟩
    · rw [mounts.fileTable]
      exact List.nodup_nil
    · rw [mounts.fileTable]
      exact fun entry member => by cases member
    · rw [mounts.fileTable]
      exact fun entry member => by cases member
  · funext name
    rw [desk, desk, mounts.slots, Option.map_map]
    apply Option.map_congr
    intro x bound
    rw [mounts.bytes x (mem_rootFiles.mpr ⟨name, mem_bindings.mp (find_mem bound)⟩), getFileByFname, mounts.fileTable]
    rfl

end process

/-- What a user does: commands, and now and then `quit`, before the shell is started again on the same disk. The cache of
the new process lies where it may. -/
inductive SessionCall
  | command (op : ShellOp)
  | restart (format : Bool) (slots : Slot → BufferCacheEntry) (clock : Slot)

namespace SessionCall

def run (size : BlockSector) (s : Fs BufferCache) : SessionCall → Option Reply × Fs BufferCache
  | command op => (some (op.run s).1, (op.run s).2)
  | restart format slots clock =>
    (none, filesysInit (BufferCache.init ⟨slots, clock, (filesysDone s).cache.state.fsDevice⟩) size format)

/-- A command is one that the shell can call, and no index block it needs is the first sector that the disk does not have. -/
def Proper (s : Fs BufferCache) : SessionCall → Prop
  | command op => op.Proper s.flat ∧ op.Spares s.flat
  | restart _ _ _ => True

end SessionCall

/-- On a desk nothing is lost when the shell is left, unless the next one formats the disk. -/
inductive Desk.SessionStep (d : Desk) : SessionCall → Option Reply → Desk → Prop
  | command {op : ShellOp} {reply : Reply} {e : Desk} (step : Desk.Step d op reply e) :
      SessionStep d (.command op) (some reply) e
  | restart {slots : Slot → BufferCacheEntry} {clock : Slot} :
      SessionStep d (.restart false slots clock) none fun name => (d name).map Document.closed
  | format {slots : Slot → BufferCacheEntry} {clock : Slot} : SessionStep d (.restart true slots clock) none fun _ => none

section sessions

variable {cache : BufferCache} {size : BlockSector} {s : Fs BufferCache}

/-- What holds between the calls, and through all processes. -/
structure Held (size : BlockSector) (s : FlatFs) : Prop where
  ready : Ready s
  lasting : Lasting size s
  unused : s.usedFreed = false

theorem SessionCall.steps (fits : FormatFits size) (held : Held size s.flat) {call : SessionCall} (proper : call.Proper s) :
    (desk s.flat).SessionStep call (call.run size s).1 (desk (call.run size s).2.flat) ∧
      Held size (call.run size s).2.flat := by
  obtain ⟨ready, lasting, unused⟩ := held
  cases call with
  | command op =>
    obtain ⟨step, next, freed, steady⟩ := ready.refines proper.1
    have kept := (steady proper.2).lasting lasting
    rw [ShellOp.reply_flat, ← ShellOp.step_flat] at step
    rw [← ShellOp.step_flat] at next kept freed
    exact ⟨.command step, next, kept, freed.trans unused⟩
  | restart format slots clock =>
    have flat : (filesysInit (BufferCache.init ⟨slots, clock, (filesysDone s).cache.state.fsDevice⟩) size format).flat =
        filesysInit s.flat.cache size format := by
      rw [filesysInit_flat, BufferCache.view_init, filesysDone_leaves ready.ok lasting]
    simp only [run, flat]
    cases format with
    | false =>
      obtain ⟨n, vol⟩ := ready.ok.volume
      have mounts := lasting.mounts vol
      obtain ⟨next, view⟩ := ready.mounts mounts
      rw [view]
      exact ⟨.restart, next, mounts.lasting, mounts.freed⟩
    | true =>
      have fresh : Fresh size (filesysInit s.flat.cache size true) := (formats_of_fits fits).2
      obtain ⟨next, empty⟩ := fresh.ready
      rw [empty]
      exact ⟨.format, next, fresh.lasting, fresh.freed⟩

end sessions

end ShellOs.FileSystem
