import ShellOs.FileSystem.Mount

/-! Formatting: the file system that `filesys_init (true)` leaves behind. -/

namespace ShellOs.FileSystem
open Lib BlockTree SlotMap

section formats

variable {σ : Type} [Store σ BlockSector Sector] [LawfulStore σ]

def formats (cache : σ) (size : BlockSector) : Bool :=
  let map := freeMapCreate (filesysStart cache size)
  map.1 && (dirCreate map.2 ROOT_DIR_SECTOR MAX_FILES_IN_DIRECTORY).1

theorem formats_flat (cache : σ) (size : BlockSector) : formats (Store.view cache) size = formats cache size := by
  have start : filesysStart (Store.view cache) size = (filesysStart cache size).flat := rfl
  unfold formats
  rw [start, ← freeMapCreate_flat]
  simp only [flatten_fst, flatten_snd]
  rw [← dirCreate_flat, flatten_fst]

end formats

theorem freeMapInit_spec (size : BlockSector) : (freeMapInit size).bitCnt = (size - 1).toNat ∧
    ∀ i, bitmapTest (freeMapInit size) i = decide (i = 0 ∨ i = 1) := by
  have create := bitmapCreate_spec (size - 1).toNat
  have marks : freeMapInit size =
      bitmapSet (bitmapSet (bitmapCreate (size - 1).toNat) 0 true) 1 true := rfl
  refine ⟨by rw [marks, bitmapSet_bitCnt, bitmapSet_bitCnt, create.1], fun i => ?_⟩
  rw [marks, bitmapTest_set, bitmapTest_set, create.2]
  by_cases first : i = 1
  · simp [first]
  · by_cases zero : i = 0 <;> simp [first, zero]

theorem inodeReserve_starved (allocate : FlatFs → Option BlockSector × FlatFs) {s : FlatFs} (d : InodeDisk)
    {length : Int} (nonneg : 0 ≤ length) (some : 0 < bytesToSectors length) (null : d.direct 0 = 0)
    (starved : allocate s = (none, s)) : (inodeReserve allocate s d length).ok = false := by
  obtain ⟨m, count⟩ : ∃ m, min (bytesToSectors length) DIRECT_BLOCKS_COUNT = m + 1 :=
    ⟨min (bytesToSectors length) DIRECT_BLOCKS_COUNT - 1, by simp only [DIRECT_BLOCKS_COUNT]; omega⟩
  unfold inodeReserve
  rw [if_neg (by omega)]
  simp only [count, reserveDirect, reserveSector, null, starved, if_true, Bool.false_eq_true, if_false]

theorem dirCreate_starved {s : FlatFs} (full : freeSectors s.freeMap = []) (sector : BlockSector) :
    (dirCreate s sector MAX_FILES_IN_DIRECTORY).1 = false := by
  have starved : freeMapAllocate s 1 = (none, s) := by
    simp only [freeMapAllocate, freeMapAllocateWith, scanAndFlip_none full, if_true]
  have size : offsetOf ((MAX_FILES_IN_DIRECTORY : Int) * ENTRY_SIZE) = 36000 := by decide
  have length : (diskInode 36000 true).length.toInt = 36000 := by decide
  have failed : (inodeCreate s sector 36000 true).1 = false := by
    have stopped := inodeReserve_starved (fun s => freeMapAllocate s 1) (diskInode 36000 true)
      (show (0 : Int) ≤ 36000 by decide) (by decide) rfl starved
    simp only [inodeCreate, length, stopped, Bool.false_eq_true, if_false]
  rw [dirCreate, size, if_pos failed]

/-- The free-map file has been made and is open, nothing else is. -/
structure MapCreated (s t : FlatFs) (new : List BlockSector) : Prop where
  fine : FreeMapOk t
  rest : t = { s with
    cache := t.cache
    freeMap := t.freeMap
    freeMapFile := some (fileOpen FREE_MAP_SECTOR)
    openInodes := [⟨s.nextAddr, 0, 1, false, 0, InodeDisk.decode (t.cache 0)⟩]
    nextAddr := s.nextAddr + 1 }
  synced : Synced t
  size : t.freeMap.bitCnt = s.freeMap.bitCnt
  free : freeSectors s.freeMap = new ++ freeSectors t.freeMap
  count : new.length = (createNeeds (bitmapFileSize s.freeMap : Nat)).length
  nonempty : new ≠ []
  nodes : ∀ z ∈ freeMapNodes t, z ∈ new

theorem freeMapCreate_run {s : FlatFs} {len : Nat} (held : bitmapFileSize s.freeMap = len) (small : len < 2 ^ 31) :
    freeMapCreate s =
      let r := inodeReserve (fun s => freeMapAllocate s 1) s (diskInode len false) len
      let c := if r.ok then (true, r.fs.bufferCacheWrite FREE_MAP_SECTOR r.value.encode) else (false, r.fs)
      let w := bitmapWrite (openFreeMapFile c.2) (fileOpen FREE_MAP_SECTOR)
      (c.1 && w.1, w.2) := by
  have bytes : offsetOf (len : Int) = len := offsetOf_eq (by omega) (by omega)
  have length := diskInode_length len false
  rw [bytes] at length
  simp only [freeMapCreate, inodeCreate, held, bytes, length]

theorem reserveNew_spec {s : FlatFs} (fine : FreeMapOk s) {len : Nat} (small : len < 2 ^ 31) :
    ∃ new leaked reached, Grown (Within 128 inodeShape)
      (fun p => ∃ i, i < bytesToSectors len ∧ i < MAX_SECTORS ∧ p = position i) s (inodeAt s.cache (diskInode len false))
      (inodeReserve (fun s => freeMapAllocate s 1) s (diskInode len false) len).fs
      (inodeAt (inodeReserve (fun s => freeMapAllocate s 1) s (diskInode len false) len).fs.cache
        (inodeReserve (fun s => freeMapAllocate s 1) s (diskInode len false) len).value)
      reached (createNeeds len) new leaked ∧
      ((inodeReserve (fun s => freeMapAllocate s 1) s (diskInode len false) len).ok = true ↔ CanCreate s len) ∧
      (CanCreate s len → reached = true) ∧
      Extends (diskInode len false) (inodeReserve (fun s => freeMapAllocate s 1) s (diskInode len false) len).value := by
  have bytes : offsetOf (len : Int) = len := offsetOf_eq (by omega) (by omega)
  have null := diskInode_entries len false
  have none := inodeNodes_null s.cache null
  have needs : createNeeds len = inodeMissing s.cache (diskInode len false) (bytesToSectors len) := by
    rw [createNeeds, bytes, if_neg (by omega), inodeMissing_null s.cache null]
  obtain ⟨new, leaked, reached, grown, done, extended⟩ := inodeReserve_spec freeMapAllocate_allocates fine
    (d := diskInode len false) ⟨by rw [none]; exact List.nodup_nil, by simp [none], by simp [none]⟩
    (show (0 : Int) ≤ len by omega)
  have enough := grown.enough
  rw [← needs] at grown enough
  generalize inodeReserve (fun s => freeMapAllocate s 1) s (diskInode len false) len = r at *
  refine ⟨new, leaked, reached, grown, ?_, fun can => enough.mpr can.2.2, extended⟩
  rw [done, Bool.and_eq_true, decide_eq_true_eq, enough, CanCreate, bytes]
  exact ⟨fun both => ⟨by omega, both.2, both.1⟩, fun can => ⟨can.2.2, can.2.1⟩⟩

theorem freeMapCreate_room {s : FlatFs} (fine : FreeMapOk s) (small : bitmapFileSize s.freeMap < 2 ^ 31)
    (went : (freeMapCreate s).1 = true) : CanCreate s (bitmapFileSize s.freeMap : Nat) := by
  generalize held : bitmapFileSize s.freeMap = len at *
  obtain ⟨-, -, -, -, done, -⟩ := reserveNew_spec fine small
  rw [freeMapCreate_run held small] at went
  simp only at went
  generalize inodeReserve (fun s => freeMapAllocate s 1) s (diskInode len false) len = r at *
  refine done.mp ?_
  by_contra bad
  simp only [bad, Bool.false_eq_true, if_false, Bool.false_and] at went

theorem freeMapCreate_spec {s : FlatFs} (fine : FreeMapOk s) (unlisted : s.openInodes = [])
    (small : bitmapFileSize s.freeMap < 2 ^ 31) (can : CanCreate s (bitmapFileSize s.freeMap : Nat)) :
    (freeMapCreate s).1 = true ∧ ∃ new, MapCreated s (freeMapCreate s).2 new := by
  have positive : 0 < bitmapFileSize s.freeMap := byteCnt_pos (Nat.zero_lt_of_lt fine.first.1)
  have file : byteCnt s.freeMap.bitCnt = bitmapFileSize s.freeMap := rfl
  generalize held : bitmapFileSize s.freeMap = len at *
  have bytes : offsetOf (len : Int) = len := offsetOf_eq (by omega) (by omega)
  have length := diskInode_length len false
  rw [bytes] at length
  have few := can.2.1
  rw [bytes] at few
  obtain ⟨new, leaked, reached, grown, done, hit, extended⟩ := reserveNew_spec fine small
  rw [freeMapCreate_run held small]
  simp only
  generalize inodeReserve (fun s => freeMapAllocate s 1) s (diskInode len false) len = r at *
  rw [if_pos (done.mpr can)]
  rw [hit can] at grown
  obtain ⟨good, -, own, sub⟩ := createdInode (diskInode_entries len false) length few extended fine grown
  have start : r.fs = { s with cache := r.fs.cache, freeMap := r.fs.freeMap } := by
    have opened := grown.opened
    conv_lhs => rw [grown.took.rest, opened]
  set t : FlatFs := { s with
    cache := Function.update r.fs.cache 0 r.value.encode
    freeMap := r.fs.freeMap
    freeMapFile := some (fileOpen FREE_MAP_SECTOR)
    openInodes := [⟨s.nextAddr, 0, 1, false, 0, r.value⟩]
    nextAddr := s.nextAddr + 1 } with next
  have opened : openFreeMapFile (r.fs.bufferCacheWrite FREE_MAP_SECTOR r.value.encode) = t := by
    have absent : (r.fs.bufferCacheWrite FREE_MAP_SECTOR r.value.encode).findInode FREE_MAP_SECTOR = Option.none := by
      unfold Fs.findInode Fs.bufferCacheWrite
      rw [grown.opened, unlisted]
      rfl
    have disk : InodeDisk.decode (Function.update r.fs.cache FREE_MAP_SECTOR r.value.encode FREE_MAP_SECTOR) = r.value := by
      rw [Function.update_self, InodeDisk.decode_encode]
    simp only [openFreeMapFile, inodeOpen, absent]
    rw [start, next]
    change ({ s with
      cache := Function.update r.fs.cache 0 r.value.encode
      freeMap := r.fs.freeMap
      freeMapFile := some (fileOpen FREE_MAP_SECTOR)
      openInodes := ⟨s.nextAddr, 0, 1, false, 0, InodeDisk.decode
        (Function.update r.fs.cache FREE_MAP_SECTOR r.value.encode FREE_MAP_SECTOR)⟩ :: s.openInodes
      nextAddr := s.nextAddr + 1 } : FlatFs) = _
    rw [disk, unlisted]
  have data : t.inodeData 0 = r.value := by
    simp [next, Fs.inodeData, Fs.findInode]
  have apart : ∀ z ∈ inodeNodes r.fs.cache r.value, t.cache z = r.fs.cache z := by
    rintro z member
    refine Function.update_of_ne ?_ _ _
    rintro rfl
    exact zero_not_mem_inodeNodes _ _ member
  obtain ⟨nodes, -, -⟩ := inode_congr (d := r.value) (e := r.value) (fun _ _ => rfl) fun z member =>
    apart z (inodeInner_sub member)
  have layout : Layout t.cache t.freeMap r.value len :=
    good.toLayout.congr (fun z member => apart z (inodeInner_sub member)) good.used
  have okMap : FreeMapOk t := by
    refine ⟨grown.took.ok.small, grown.took.ok.first, fun f same => ?_⟩
    obtain rfl := Option.some.inj same
    refine ⟨rfl, rfl, ?_⟩
    change Layout t.cache t.freeMap (t.inodeData 0) (byteCnt r.fs.freeMap.bitCnt)
    rw [data, grown.took.size, file]
    exact layout
  obtain ⟨w, write, frame, synced⟩ := bitmapWrite_spec okMap (f := fileOpen FREE_MAP_SECTOR) rfl
  have sector0 : w 0 = t.cache 0 := frame 0 fun member =>
    zero_not_mem_freeMapNodes t (freeMapData_sub okMap member)
  obtain ⟨fineNext, nodesNext, -⟩ := okMap.change (w := w) rfl (okMap.kept fun _ used => used) fun y _ apart => frame y apart
  have nodesNew : ∀ z ∈ freeMapNodes t, z ∈ new := by
    intro z member
    rw [freeMapNodes_open (f := fileOpen FREE_MAP_SECTOR) rfl] at member
    change z ∈ inodeNodes t.cache (t.inodeData 0) at member
    rw [data, nodes] at member
    exact sub z member
  simp only
  rw [opened, write]
  refine ⟨rfl, new, fineNext, ?_, synced, grown.took.size, grown.took.free, ?_, ?_, fun z member =>
    nodesNew z (nodesNext ▸ member)⟩
  · simp only
    have first : t.cache 0 = r.value.encode := by
      rw [next]
      exact Function.update_self (0 : BlockSector) r.value.encode r.fs.cache
    rw [sector0, first, InodeDisk.decode_encode]
  · rw [held]
    exact (grown.done can.2.2).2.2.1
  · intro empty
    have first := sub _ (blockAt_mem (good.small (i := 0) (by omega)) (good.mapped 0 (by omega)))
    rw [empty] at first
    cases first

structure RootCreated (t u : FlatFs) (new : List BlockSector) : Prop where
  cwd : u.cwd = none
  fileTable : u.fileTable = t.fileTable
  freed : u.usedFreed = t.usedFreed
  nodup : HandlesNodup u
  dir : DirOk u MAX_FILES_IN_DIRECTORY
  slots : rootSlots u = List.replicate 999 none
  change : Change t u [ROOT_DIR_SECTOR]
  free : freeSectors t.freeMap = new ++ freeSectors u.freeMap
  count : new.length = (createNeeds 36000).length
  others : ∀ z, z ≠ ROOT_DIR_SECTOR → u.findInode z = t.findInode z
  closed : u.findInode ROOT_DIR_SECTOR = none
  sector0 : u.cache 0 = t.cache 0
  sectors : ∀ z ∈ sectorsOf u ROOT_DIR_SECTOR, z = ROOT_DIR_SECTOR ∨ z ∈ new

theorem decode_zero {bytes : List Byte} (zero : ∀ k, k < 36 → bytes.getD k 0 = 0) :
    (DirEntry.decode bytes).inUse = false := by
  simp only [DirEntry.decode, zero 35 (by decide)]
  decide

theorem dirSlots_new {v : Disk} {d : InodeDisk} {n : Nat} (zero : ∀ p, 36 ≤ p → p < 36 * n → byteAt v d p = 0) :
    dirSlots v d n = List.replicate (n - 1) none := by
  refine List.eq_replicate_iff.mpr ⟨length_dirSlots v d n, fun slot member => ?_⟩
  obtain ⟨k, inRange, rfl⟩ := List.mem_map.mp member
  obtain ⟨low, high⟩ := List.mem_range'_1.mp inRange
  have unused : (entryAt v d k).inUse = false := by
    refine decode_zero fun i small => ?_
    rw [List.getD_eq_getElem?_getD, getElem?_content, if_pos small, Option.getD_some]
    exact zero _ (by omega) (by omega)
  rw [DirEntry.slot, unused]
  rfl

theorem dirCreate_room {t : FlatFs} (fine : FreeMapOk t) (used : Used t.freeMap ROOT_DIR_SECTOR)
    (apart : ROOT_DIR_SECTOR ∉ freeMapNodes t) (unlisted : t.findInode ROOT_DIR_SECTOR = none)
    (went : (dirCreate t ROOT_DIR_SECTOR MAX_FILES_IN_DIRECTORY).1 = true) : CanCreate t 36000 := by
  have size : offsetOf ((MAX_FILES_IN_DIRECTORY : Int) * ENTRY_SIZE) = 36000 := by decide
  obtain ⟨new, created⟩ := inodeCreate_effect fine (by decide) used apart unlisted 36000 true
  unfold dirCreate at went
  simp only [size] at went
  generalize inodeCreate t ROOT_DIR_SECTOR 36000 true = c at *
  refine created.done.mp ?_
  by_contra bad
  rw [Bool.not_eq_true] at bad
  rw [if_pos bad] at went
  cases went

theorem dirCreate_spec {t : FlatFs} (fine : FreeMapOk t) (used : Used t.freeMap ROOT_DIR_SECTOR)
    (apart : ROOT_DIR_SECTOR ∉ freeMapNodes t) (unlisted : t.findInode ROOT_DIR_SECTOR = none)
    (nodup : HandlesNodup t) (closed : t.cwd = none)
    (foreign : ∀ f, t.freeMapFile = some f → f.inode ≠ ROOT_DIR_SECTOR)
    (can : CanCreate t 36000) : (dirCreate t ROOT_DIR_SECTOR MAX_FILES_IN_DIRECTORY).1 = true ∧
      ∃ new, RootCreated t (dirCreate t ROOT_DIR_SECTOR MAX_FILES_IN_DIRECTORY).2 new := by
  have size : offsetOf ((MAX_FILES_IN_DIRECTORY : Int) * ENTRY_SIZE) = 36000 := by decide
  obtain ⟨new, created⟩ := inodeCreate_effect fine (by decide) used apart unlisted 36000 true
  unfold dirCreate
  simp only [size]
  generalize inodeCreate t ROOT_DIR_SECTOR 36000 true = c at *
  have good := created.done.mpr can
  rw [if_neg (by rw [good]; decide)]
  obtain ⟨file, sectors, -, length, zero⟩ := created.file good
  obtain ⟨count, sector0⟩ := created.enough can.2.2
  have opened := inodeOpen_spec c.2 ROOT_DIR_SECTOR
  have absent : c.2.findInode ROOT_DIR_SECTOR = none := by
    unfold Fs.findInode
    rw [created.opened]
    exact unlisted
  have run : writeParent c.2 ROOT_DIR_SECTOR ROOT_DIR_SECTOR =
      let p := (inodeOpen c.2 ROOT_DIR_SECTOR).2
      let e : DirEntry := ⟨ROOT_DIR_SECTOR, fun _ => 0, true⟩
      let r := inodeWriteAt { p with nextAddr := p.nextAddr + 1 } ROOT_DIR_SECTOR e.encode ((36 : Nat) : Int)
        ((0 : Nat) : Int)
      (decide (r.1 = (36 : Nat)), dirClose r.2 ⟨p.nextAddr, ROOT_DIR_SECTOR, ENTRY_SIZE, 1⟩) := rfl
  rw [run]
  simp only
  generalize (inodeOpen c.2 ROOT_DIR_SECTOR).2 = p at *
  set q : FlatFs := { p with nextAddr := p.nextAddr + 1 } with next
  have same : Rehandled c.2 q :=
    (opened.rehandled created.took.ok).trans ⟨rfl, fun _ => Or.inl rfl, fun _ => Or.inl rfl, fun _ _ => rfl⟩
  obtain ⟨fileNext, sub, bytes, lengthNext⟩ := same.file created.took.ok file
  have len : fileLen q ROOT_DIR_SECTOR = 36000 := by
    rw [fileLen, lengthNext, length]
    decide
  have blank : ∀ i, i < 36000 → byteAt q.cache (q.inodeData ROOT_DIR_SECTOR) i = 0 := by
    intro i below
    have here := congrArg (fun l : List Byte => l[i]?) (bytes.trans zero)
    rw [fileNext.contents_content, getElem?_content, len, if_pos below, Nat.zero_add, List.getElem?_replicate,
      if_pos (by simpa [offsetOf] using below)] at here
    exact Option.some.inj here
  obtain ⟨i, list, sector, once, kept, writable, -⟩ := opened.fresh absent
  have found : q.findInode ROOT_DIR_SECTOR = some i := by
    simp only [next, Fs.findInode, list]
    exact List.find?_cons_of_pos (by simpa using sector)
  have effect := writeEffect_inside (n := 36) (o := 0) (same.ok created.took.ok).1 fileNext
    (by simp only [Fs.inodeDenyWriteCnt, found, writable]) (by decide) (by omega)
    (DirEntry.encode ⟨ROOT_DIR_SECTOR, fun _ => 0, true⟩)
  generalize inodeWriteAt q ROOT_DIR_SECTOR (DirEntry.encode ⟨ROOT_DIR_SECTOR, fun _ => 0, true⟩) ((36 : Nat) : Int)
    ((0 : Nat) : Int) = w at effect
  have done : w.1 = (36 : Nat) :=
    effect.done.mpr ⟨by simp only [Fs.inodeDenyWriteCnt, found, writable], Or.inl (by omega)⟩
  obtain ⟨lenNext, written⟩ := effect.bytes fileNext (by decide) done
  rw [len] at lenNext written
  have whole : fileLen w.2 ROOT_DIR_SECTOR = 36 * MAX_FILES_IN_DIRECTORY := lenNext
  have first : entryAt w.2.cache (w.2.inodeData ROOT_DIR_SECTOR) 0 = ⟨ROOT_DIR_SECTOR, fun _ => 0, true⟩ := by
    rw [← decode_encode ⟨ROOT_DIR_SECTOR, fun _ => 0, true⟩]
    refine congrArg DirEntry.decode (List.map_congr_left fun j member => ?_)
    have small := List.mem_range.mp member
    rw [written _ (by omega), if_pos (by omega), Nat.mul_zero, Nat.zero_add, Nat.sub_zero]
  obtain ⟨d, foundNext⟩ := effect.handles.this
  rw [found, Option.map_some] at foundNext
  have dir : DirOk w.2 MAX_FILES_IN_DIRECTORY :=
    ⟨effect.took.ok, effect.file, whole, by decide, by rw [first]; exact ⟨rfl, rfl⟩, by
      simp only [Fs.inodeDenyWriteCnt, foundNext, writable]⟩
  have slots : rootSlots w.2 = List.replicate 999 none := by
    rw [dir.slots]
    refine dirSlots_new fun k low high => ?_
    simp only [MAX_FILES_IN_DIRECTORY] at high
    rw [written k (by omega), if_neg (by omega), if_pos (by omega), blank k (by omega)]
  have nodupNext : HandlesNodup w.2 := by
    rw [HandlesNodup, effect.handles.sectors]
    refine opened.nodup ?_
    rw [HandlesNodup, created.opened]
    exact nodup
  have cwd : w.2.cwd = none := by
    rw [effect.took.rest, next, opened.rest, created.took.rest]
    exact closed
  have close : dirClose w.2 ⟨p.nextAddr, ROOT_DIR_SECTOR, ENTRY_SIZE, 1⟩ =
      { inodeClose w.2 ROOT_DIR_SECTOR with cwd := none } := by
    simp only [dirClose, dirAt, cwd, Int.sub_self, if_true]
  rw [close, inodeClose_last foundNext once kept]
  have closedInode := inodeClose_spec (x := ROOT_DIR_SECTOR) nodupNext fun j held => by
    rw [foundNext] at held
    obtain rfl := Option.some.inj held
    exact kept
  rw [inodeClose_last foundNext once kept] at closedInode
  have foreignNext : ∀ f, w.2.freeMapFile = some f → f.inode ≠ ROOT_DIR_SECTOR := by
    rw [effect.took.freeMapFile, same.freeMapFile, created.took.freeMapFile]
    exact foreign
  have last := (closedInode.rehandled foreignNext).setCwd none
  obtain ⟨dirNext, slotsNext⟩ := dir.rehandled last
  obtain ⟨-, subNext, -, -⟩ := last.file effect.took.ok effect.file
  have inNew : ∀ z ∈ sectorsOf q ROOT_DIR_SECTOR, z = ROOT_DIR_SECTOR ∨ z ∈ new := fun z member =>
    sectors z (sub.subset member)
  refine ⟨decide_eq_true done, new, rfl, ?_, ?_, closedInode.nodup, dirNext, slotsNext.trans slots, ?_, ?_, count,
    fun z other => ?_, unlist_none nodupNext, ?_, fun z member => ?_⟩
  · change w.2.fileTable = t.fileTable
    rw [effect.took.rest, next, opened.rest, created.took.rest]
  · change w.2.usedFreed = t.usedFreed
    rw [effect.took.rest, next, opened.rest, created.took.rest]
  · refine (((created.took.change fine).trans (same.change created.took.ok) (fun z member => member) (by simp)).trans
      (effect.took.change (same.ok created.took.ok).1) (fun z member => member) fun z member used => ?_).trans
        (last.change effect.took.ok) (fun z member => member) (by simp)
    rcases inNew z member with rfl | fresh
    · exact List.mem_singleton_self _
    · exact absurd used (created.took.new_not_used fresh)
  · rw [created.took.free, ← same.bits, effect.took.free]
    rfl
  · change (unlist w.2 ROOT_DIR_SECTOR).findInode z = t.findInode z
    rw [unlist_others other, effect.handles.others z other]
    change p.findInode z = t.findInode z
    rw [opened.others z other]
    unfold Fs.findInode
    rw [created.opened]
  · change w.2.cache 0 = t.cache 0
    have none : writeNeeds q ROOT_DIR_SECTOR (0 + 36) = [] := if_pos (Or.inr (by omega))
    rw [(effect.enough (by rw [none]; exact Nat.zero_le _)).2, same.cache, sector0]
  · rcases effect.sectors z (subNext.subset member) with old | fresh
    · exact inNew z old
    · cases fresh

structure Fresh (size : BlockSector) (s : FlatFs) : Prop where
  mounted : Mounted s MAX_FILES_IN_DIRECTORY
  shut : Shut s
  slots : rootSlots s = List.replicate 999 none
  synced : Synced s
  inodes : ∃ a, s.openInodes = [⟨a, 0, 1, false, 0, InodeDisk.decode (s.cache 0)⟩]
  file : s.freeMapFile = some (fileOpen FREE_MAP_SECTOR)
  fileTable : s.fileTable = []
  freed : s.usedFreed = false
  bitCnt : s.freeMap.bitCnt = (size - 1).toNat
  free : freeSectors s.freeMap = (freeSectors (freeMapInit size)).drop
    ((createNeeds (bitmapFileSize (freeMapInit size) : Nat)).length + (createNeeds 36000).length)

theorem openInodes_nil {s : FlatFs} (none : ∀ z, s.findInode z = none) : s.openInodes = [] := by
  rw [List.eq_nil_iff_forall_not_mem]
  intro i member
  have absent := none i.sector
  rw [Fs.findInode, List.find?_eq_none] at absent
  exact absent i member (by simp)

theorem freeMapInit_small (size : BlockSector) : bitmapFileSize (freeMapInit size) < 2 ^ 31 := by
  have bound := (size - 1).isLt
  simp only [bitmapFileSize, (freeMapInit_spec size).1, byteCnt, elemCnt, divRoundUp, ELEM_BITS]
  omega

theorem freeMapInit_used {size x : BlockSector} :
    Used (freeMapInit size) x ↔ x.toNat < (size - 1).toNat ∧ (x = 0 ∨ x = 1) := by
  obtain ⟨bitCnt, test⟩ := freeMapInit_spec size
  rw [Used, bitCnt, test, decide_eq_true_eq]
  have zero : x.toNat = 0 ↔ x = 0 := ⟨fun same => BitVec.eq_of_toNat_eq same, fun same => by rw [same]; rfl⟩
  have one : x.toNat = 1 ↔ x = 1 := ⟨fun same => BitVec.eq_of_toNat_eq same, fun same => by rw [same]; rfl⟩
  rw [zero, one]

theorem inodeReserve_nothing (allocate : FlatFs → Option BlockSector × FlatFs) (s : FlatFs) (d : InodeDisk) :
    inodeReserve allocate s d 0 = ⟨true, d, s⟩ := by
  have none : bytesToSectors 0 = 0 := by decide
  unfold inodeReserve
  rw [if_neg (by decide)]
  simp only [none, Nat.zero_min, reserveDirect, Bool.true_eq_false, if_false, Nat.sub_zero, if_true]

theorem freeMapCreate_nothing {s : FlatFs} (none : s.freeMap.bitCnt = 0) :
    (freeMapCreate s).2.freeMap = s.freeMap := by
  have size : bitmapFileSize s.freeMap = 0 := by
    simp only [bitmapFileSize, byteCnt, none]
    decide
  have zero : offsetOf ((0 : Nat) : Int) = 0 := by decide
  have length : (diskInode 0 false).length.toInt = 0 := by decide
  have create : inodeCreate s FREE_MAP_SECTOR 0 false =
      (true, s.bufferCacheWrite FREE_MAP_SECTOR (diskInode 0 false).encode) := by
    simp only [inodeCreate, length, inodeReserve_nothing, if_true]
  simp only [freeMapCreate, size, zero, create]
  have kept : (openFreeMapFile (s.bufferCacheWrite FREE_MAP_SECTOR (diskInode 0 false).encode)).freeMap = s.freeMap := by
    simp only [openFreeMapFile]
    rw [(inodeOpen_spec _ FREE_MAP_SECTOR).freeMap]
    rfl
  rw [← kept] at size
  rw [← kept]
  generalize openFreeMapFile (s.bufferCacheWrite FREE_MAP_SECTOR (diskInode 0 false).encode) = t at *
  have outside : byteToSector t (fileOpen FREE_MAP_SECTOR).inode (offsetOf (0 + 0 - 1)) = (NO_SECTOR, t) :=
    if_neg fun inside => absurd inside.1 (by decide)
  have loop : ∀ (u : FlatFs) x buffer, inodeWriteLoop u x buffer 0 0 0 = (0, u) := by
    intro u x buffer
    rw [inodeWriteLoop, if_neg (by decide)]
  simp only [bitmapWrite, bitmapWriteWith, size, zero, inodeWriteAt, inodeWriteDepth, inodeWriteWith, outside,
    if_true, show offsetOf (0 + 0) = 0 by decide, inodeReserve_nothing, Bool.true_eq_false, if_false, loop]
  split <;> rfl

theorem freeMapClose_last {s : FlatFs} {x : BlockSector} {i : Inode} (file : s.freeMapFile = some (fileOpen x))
    (found : s.findInode x = some i) (last : i.openCnt = 1) (kept : i.removed = false) :
    freeMapClose s = unlist s x := by
  simp only [freeMapClose, file, fileClose, fileOpen, Bool.false_eq_true, if_false]
  exact inodeClose_last found last kept

theorem filesysInit_eq (v : Disk) (size : BlockSector) : filesysInit v size true = freeMapOpen (freeMapClose
    (dirCreate (freeMapCreate (filesysStart v size)).2 ROOT_DIR_SECTOR MAX_FILES_IN_DIRECTORY).2) := by
  simp only [filesysInit, doFormat, if_true]

def FormatFits (size : BlockSector) : Prop :=
  SizeOk (bitmapFileSize (freeMapInit size) : Nat) ∧
    (createNeeds (bitmapFileSize (freeMapInit size) : Nat)).length + (createNeeds 36000).length ≤
      (freeSectors (freeMapInit size)).length

instance (size : BlockSector) : Decidable (FormatFits size) := inferInstanceAs (Decidable (_ ∧ _))

structure Start (size : BlockSector) (s : FlatFs) : Prop where
  bits : s.freeMap = freeMapInit size
  closed : s.openInodes = []
  noFile : s.freeMapFile = none
  noCwd : s.cwd = none
  noFiles : s.fileTable = []
  noFreed : s.usedFreed = false

theorem filesysStart_start (v : Disk) (size : BlockSector) : Start size (filesysStart v size) :=
  ⟨rfl, rfl, rfl, rfl, rfl, rfl⟩

section start

variable {size : BlockSector} {s : FlatFs}

theorem Start.few (start : Start size s) : s.freeMap.bitCnt < 2 ^ 32 := by
  rw [start.bits, (freeMapInit_spec size).1]
  exact (size - 1).isLt

theorem Start.fine (start : Start size s) (positive : 0 < (size - 1).toNat) : FreeMapOk s := by
  refine ⟨start.few, by rw [start.bits]; exact freeMapInit_used.mpr ⟨positive, Or.inl rfl⟩, fun f same => ?_⟩
  rw [start.noFile] at same
  cases same

/-- What is needed for the root directory, once the free-map file is there. -/
structure RootReady (size : BlockSector) (s t : FlatFs) (new : List BlockSector) : Prop where
  map : MapCreated s t new
  used : Used t.freeMap ROOT_DIR_SECTOR
  apart : ROOT_DIR_SECTOR ∉ freeMapNodes t
  file : t.freeMapFile = some (fileOpen FREE_MAP_SECTOR)
  inodes : t.openInodes = [⟨s.nextAddr, 0, 1, false, 0, InodeDisk.decode (t.cache 0)⟩]
  unlisted : t.findInode ROOT_DIR_SECTOR = none
  foreign : ∀ f, t.freeMapFile = some f → f.inode ≠ ROOT_DIR_SECTOR

theorem Start.ready (start : Start size s) {t : FlatFs} {new : List BlockSector} (map : MapCreated s t new) :
    RootReady size s t new := by
  obtain ⟨bitCnt, test⟩ := freeMapInit_spec size
  have few := start.few
  have free := map.free
  have sameSize := map.size
  rw [start.bits] at free sameSize few
  obtain ⟨z, rest, first⟩ := List.exists_cons_of_ne_nil map.nonempty
  have spare : z ∈ freeSectors (freeMapInit size) := by
    rw [free, first]
    exact List.mem_append_left _ List.mem_cons_self
  obtain ⟨inside, clear⟩ := (mem_freeSectors few).mp spare
  rw [test, decide_eq_false_iff_not] at clear
  have rootUsed : Used (freeMapInit size) ROOT_DIR_SECTOR := by
    refine freeMapInit_used.mpr ⟨?_, Or.inr rfl⟩
    rw [bitCnt] at inside
    change 1 < _
    omega
  have file : t.freeMapFile = some (fileOpen FREE_MAP_SECTOR) := congrArg Fs.freeMapFile map.rest
  have inodes : t.openInodes = [⟨s.nextAddr, 0, 1, false, 0, InodeDisk.decode (t.cache 0)⟩] :=
    congrArg Fs.openInodes map.rest
  refine ⟨map, (used_of_free few sameSize free _).mpr (Or.inl rootUsed), fun member => ?_, file, inodes, ?_, ?_⟩
  · have fresh : ROOT_DIR_SECTOR ∈ freeSectors (freeMapInit size) := by
      rw [free]
      exact List.mem_append_left _ (map.nodes _ member)
    exact ((used_iff_not_free few).mp rootUsed).2 fresh
  · rw [Fs.findInode, inodes]
    rfl
  · intro f same
    rw [file] at same
    obtain rfl := Option.some.inj same
    decide

theorem RootReady.fresh (start : Start size s) {t u : FlatFs} {newMap newRoot : List BlockSector}
    (ready : RootReady size s t newMap) (root : RootCreated t u newRoot) :
    Fresh size (freeMapOpen (freeMapClose u)) := by
  obtain ⟨bitCnt, -⟩ := freeMapInit_spec size
  have fileNext : u.freeMapFile = some (fileOpen FREE_MAP_SECTOR) := root.change.freeMapFile.trans ready.file
  obtain ⟨i, found, once, kept, memory⟩ : ∃ i, u.findInode 0 = some i ∧ i.openCnt = 1 ∧ i.removed = false ∧
      i.data = InodeDisk.decode (u.cache 0) := by
    refine ⟨⟨s.nextAddr, 0, 1, false, 0, InodeDisk.decode (t.cache 0)⟩, ?_, rfl, rfl, by rw [root.sector0]⟩
    rw [root.others 0 (by decide), Fs.findInode, ready.inodes]
    exact List.find?_cons_of_pos (by simp)
  have data : u.inodeData 0 = InodeDisk.decode (u.cache 0) := Fs.inodeData_found found memory
  have close := freeMapClose_last fileNext found once kept
  have nothing : (unlist u 0).openInodes = [] := by
    refine openInodes_nil fun z => ?_
    by_cases zero : z = 0
    · rw [zero]
      exact unlist_none root.nodup
    · rw [unlist_others zero]
      by_cases one : z = ROOT_DIR_SECTOR
      · rw [one]
        exact root.closed
      · rw [root.others z one, Fs.findInode, ready.inodes, List.find?_eq_none]
        intro i member same
        rw [List.mem_singleton.mp member] at same
        have equal : (0 : BlockSector) = z := by simpa using same
        exact zero equal.symm
  have stored : MapStored u.cache u.freeMap := by
    have layout := (root.change.ok.file _ fileNext).layout
    have synced := root.change.synced ready.map.synced _ fileNext
    change Layout u.cache u.freeMap (u.inodeData 0) _ at layout
    change ∀ i, i < u.freeMap.bitCnt → (byteAt u.cache (u.inodeData 0) (i / 8)).getLsbD (i % 8) = _ at synced
    rw [data] at layout synced
    exact ⟨root.change.ok.small, root.change.ok.first, layout, synced⟩
  have mounted := freeMapOpen_remounted (s := unlist u 0) (b := u.freeMap) (by rw [unlist_cache]; exact stored)
    (by rw [unlist_freeMap]) nothing
  rw [close]
  generalize freeMapOpen (unlist u 0) = w at *
  have cache : w.cache = u.cache := mounted.cache.trans unlist_cache
  have nodes : freeMapNodes u = freeMapNodes w := by
    rw [mounted.nodes, freeMapNodes_open fileNext, unlist_cache]
    change inodeNodes u.cache (u.inodeData 0) = _
    rw [data]
  obtain ⟨rootFile, -, rootBytes, rootLength⟩ := mounted.fileAt root.dir.file unlist_cache.symm (fun z used => used) nodes
  have rootClosed : w.findInode ROOT_DIR_SECTOR = none := by
    rw [Fs.findInode, mounted.inodes]
    rfl
  obtain ⟨dir, slots⟩ := root.dir.same mounted.fine rootFile rootLength rootBytes
    (Fs.inodeDenyWriteCnt_absent rootClosed)
  have wInodes : w.openInodes = [⟨u.nextAddr, 0, 1, false, 0, InodeDisk.decode (w.cache 0)⟩] := by
    rw [mounted.inodes, mounted.cache, unlist_nextAddr]
  refine ⟨⟨dir, ⟨_, mounted.file, rfl⟩, ⟨?_, fun i held => ?_, fun d held => ?_⟩, fun z held => ?_⟩, ⟨?_, rootClosed⟩,
    slots.trans root.slots, mounted.synced, ⟨_, wInodes⟩, mounted.file, ?_, ?_, ?_, ?_⟩
  · rw [HandlesNodup, wInodes]
    simp
  · rw [rootClosed] at held
    cases held
  · rw [mounted.cwd, unlist_cwd, root.cwd] at held
    cases held
  · rw [Fs.findInode, wInodes, List.find?_isSome] at held
    obtain ⟨i, member, same⟩ := held
    rw [List.mem_singleton.mp member] at same
    have zero : (0 : BlockSector) = z := by simpa using same
    rw [← zero]
    exact mounted.fine.first
  · rw [mounted.cwd, unlist_cwd]
    exact root.cwd
  · rw [mounted.fileTable, unlist_fileTable]
    exact root.fileTable.trans ((congrArg Fs.fileTable ready.map.rest).trans start.noFiles)
  · rw [mounted.freed, unlist_usedFreed]
    exact root.freed.trans ((congrArg Fs.usedFreed ready.map.rest).trans start.noFreed)
  · rw [mounted.bits.1, root.change.size, ready.map.size, start.bits, bitCnt]
  · have free := ready.map.free
    have count := ready.map.count
    rw [start.bits] at free count
    rw [mounted.bits.free, free, root.free, ← List.append_assoc, ← count, ← root.count, ← List.length_append,
      List.drop_left]

end start

theorem createNeeds_root : (createNeeds 36000).length = 71 := by decide +kernel

theorem formats_of_fits {v : Disk} {size : BlockSector} (fits : FormatFits size) :
    formats v size = true ∧ Fresh size (filesysInit v size true) := by
  rw [filesysInit_eq]
  unfold formats
  simp only
  obtain ⟨s, begin⟩ : ∃ s, s = filesysStart v size := ⟨_, rfl⟩
  have start : Start size s := by
    rw [begin]
    exact filesysStart_start v size
  rw [← begin]
  clear begin
  obtain ⟨sizeOk, enough⟩ := fits
  have positive : 0 < (size - 1).toNat := by
    have some : 0 < (freeSectors (freeMapInit size)).length := by
      rw [createNeeds_root] at enough
      omega
    obtain ⟨z, member⟩ := List.exists_mem_of_length_pos some
    have few := start.few
    rw [start.bits] at few
    have inside := ((mem_freeSectors few).mp member).1
    rw [(freeMapInit_spec size).1] at inside
    omega
  have fine := start.fine positive
  rw [← start.bits] at sizeOk enough
  obtain ⟨went, newMap, map⟩ := freeMapCreate_spec fine start.closed (by rw [start.bits]; exact freeMapInit_small size)
    ⟨sizeOk.1, sizeOk.2, by omega⟩
  rw [went, Bool.true_and]
  generalize (freeMapCreate s).2 = t at *
  have ready := start.ready map
  have split := congrArg List.length map.free
  rw [List.length_append, map.count] at split
  obtain ⟨wentRoot, newRoot, root⟩ := dirCreate_spec map.fine ready.used ready.apart ready.unlisted
    (by rw [HandlesNodup, ready.inodes]; simp) ((congrArg Fs.cwd map.rest).trans start.noCwd) ready.foreign
    ⟨by decide, by decide, by omega⟩
  exact ⟨wentRoot, ready.fresh start root⟩

theorem fits_of_formats {v : Disk} {size : BlockSector} (went : formats v size = true) : FormatFits size := by
  unfold formats at went
  simp only at went
  rw [Bool.and_eq_true] at went
  obtain ⟨wentMap, wentRoot⟩ := went
  obtain ⟨s, begin⟩ : ∃ s, s = filesysStart v size := ⟨_, rfl⟩
  have start : Start size s := by
    rw [begin]
    exact filesysStart_start v size
  rw [← begin] at wentMap wentRoot
  clear begin
  have positive : 0 < (size - 1).toNat := by
    by_contra none
    have zero : s.freeMap.bitCnt = 0 := by
      rw [start.bits, (freeMapInit_spec size).1]
      omega
    have full : freeSectors (freeMapCreate s).2.freeMap = [] := by
      rw [freeMapCreate_nothing zero, freeSectors, freeBits, zero]
      rfl
    rw [dirCreate_starved full] at wentRoot
    cases wentRoot
  have fine := start.fine positive
  have small : bitmapFileSize s.freeMap < 2 ^ 31 := by
    rw [start.bits]
    exact freeMapInit_small size
  have can := freeMapCreate_room fine small wentMap
  obtain ⟨-, newMap, map⟩ := freeMapCreate_spec fine start.closed small can
  generalize (freeMapCreate s).2 = t at *
  have ready := start.ready map
  have canRoot := dirCreate_room map.fine ready.used ready.apart ready.unlisted wentRoot
  have split := congrArg List.length map.free
  rw [List.length_append, map.count] at split
  rw [FormatFits, ← start.bits]
  refine ⟨⟨can.1, can.2.1⟩, ?_⟩
  have most := canRoot.2.2
  omega

theorem filesysInit_fresh {v : Disk} {size : BlockSector} (went : formats v size = true) :
    Fresh size (filesysInit v size true) := (formats_of_fits (fits_of_formats went)).2

end ShellOs.FileSystem
