import ShellOs.FileSystem.RootHandle

/-! What an operation leaves alone, however it is put together from allocations, releases, writes and
the opening and closing of inodes. -/

namespace ShellOs.FileSystem
open Lib BlockTree SlotMap

/-- Sectors that are in use and not `touched` stay in use and keep their bytes. -/
structure Change (s t : FlatFs) (touched : List BlockSector) : Prop where
  size : t.freeMap.bitCnt = s.freeMap.bitCnt
  freeMapFile : t.freeMapFile = s.freeMapFile
  used : ∀ x, Used s.freeMap x → x ∉ touched → Used t.freeMap x
  frame : ∀ x, x ≠ 0 → Used s.freeMap x → x ∉ touched → x ∉ freeMapNodes s → t.cache x = s.cache x
  nodes : freeMapNodes t = freeMapNodes s
  data : freeMapData t = freeMapData s
  ok : FreeMapOk t
  synced : Synced s → Synced t

theorem Took.change {s t : FlatFs} {new touched : List BlockSector} (took : Took s t new touched)
    (fine : FreeMapOk s) : Change s t touched :=
  ⟨took.size, took.freeMapFile, fun x used _ => took.keepsUsed x used,
    fun _ nonzero used apart other => took.frame_used fine nonzero used other apart, took.nodes, took.data,
    took.ok, took.synced⟩

theorem Released.change {s t : FlatFs} {gone : List BlockSector} (released : Released s t gone)
    (fine : FreeMapOk s) : Change s t gone :=
  ⟨released.size, by rw [released.rest], fun x used kept => (released.used x).mpr ⟨used, kept⟩,
    fun _ _ _ _ other => released.elsewhere fine other, released.nodes, released.data, released.ok,
    released.synced⟩

theorem Rehandled.change {s t : FlatFs} (same : Rehandled s t) (fine : FreeMapOk s) : Change s t [] := by
  obtain ⟨ok, nodes, data, synced⟩ := same.ok fine
  exact ⟨by rw [same.bits], same.freeMapFile, fun _ used _ => by rw [same.bits]; exact used,
    fun _ _ _ _ _ => by rw [same.cache], nodes, data, ok, synced⟩

namespace Change

variable {s t u : FlatFs} {touched touchedA touchedB : List BlockSector} {x : BlockSector}

theorem trans (early : Change s t touchedA) (late : Change t u touchedB)
    (first : ∀ z ∈ touchedA, z ∈ touched) (second : ∀ z ∈ touchedB, Used s.freeMap z → z ∈ touched) :
    Change s u touched := by
  refine ⟨late.size.trans early.size, late.freeMapFile.trans early.freeMapFile, fun z used apart => ?_,
    fun z nonzero used apart other => ?_, late.nodes.trans early.nodes, late.data.trans early.data, late.ok,
    fun synced => late.synced (early.synced synced)⟩
  · exact late.used z (early.used z used fun member => apart (first z member)) fun member =>
      apart (second z member used)
  · have still := early.used z used fun member => apart (first z member)
    rw [late.frame z nonzero still (fun member => apart (second z member used)) (early.nodes ▸ other),
      early.frame z nonzero used (fun member => apart (first z member)) other]

theorem touch (change : Change s t touchedA) (sub : ∀ z ∈ touchedA, z ∈ touched) : Change s t touched :=
  { change with
    used := fun x used apart => change.used x used fun member => apart (sub x member)
    frame := fun x nonzero used apart => change.frame x nonzero used fun member => apart (sub x member) }

theorem file (change : Change s t touched) (file : FileAt s x) (apart : ∀ z ∈ sectorsOf s x, z ∉ touched)
    (data : t.inodeData x = s.inodeData x ∨ t.inodeData x = InodeDisk.decode (s.cache x)) :
    FileAt t x ∧ (sectorsOf t x).Sublist (sectorsOf s x) ∧ contents t x = contents s x ∧
      t.inodeLength x = s.inodeLength x := by
  have nonzero : ∀ z ∈ sectorsOf s x, z ≠ 0 := by
    intro z member
    rcases List.mem_cons.mp member with rfl | inNodes
    · exact file.nonzero
    · rintro rfl
      exact zero_not_mem_inodeNodes _ _ inNodes
  refine file.still (fun z member => ?_) (fun z member => ?_) change.nodes data
  · exact change.frame z (nonzero z member) (file.own.used z member) (apart z member) (file.own.apart z member)
  · exact change.used z (file.own.used z member) (apart z member)

end Change

theorem DirOk.change {s t : FlatFs} {n : Nat} {touched : List BlockSector} (ok : DirOk s n)
    (change : Change s t touched) (away : ∀ z ∈ sectorsOf s ROOT_DIR_SECTOR, z ∉ touched)
    (data : t.inodeData ROOT_DIR_SECTOR = s.inodeData ROOT_DIR_SECTOR ∨
      t.inodeData ROOT_DIR_SECTOR = InodeDisk.decode (s.cache ROOT_DIR_SECTOR))
    (writable : t.inodeDenyWriteCnt ROOT_DIR_SECTOR = 0) :
    DirOk t n ∧ rootSlots t = rootSlots s ∧
      (sectorsOf t ROOT_DIR_SECTOR).Sublist (sectorsOf s ROOT_DIR_SECTOR) := by
  obtain ⟨file, sub, bytes, length⟩ := change.file ok.file away data
  obtain ⟨next, slots⟩ := ok.same change.ok file length bytes writable
  exact ⟨next, slots, sub⟩

theorem deny_of_opened {s t : FlatFs} (opened : t.openInodes = s.openInodes) (x : BlockSector) :
    t.inodeDenyWriteCnt x = s.inodeDenyWriteCnt x := by
  unfold Fs.inodeDenyWriteCnt Fs.findInode
  rw [opened]

theorem used_of_free {b b' : Bitmap} {new : List BlockSector} (small : b.bitCnt < 2 ^ 32) (size : b'.bitCnt = b.bitCnt)
    (free : freeSectors b = new ++ freeSectors b') (z : BlockSector) : Used b' z ↔ Used b z ∨ z ∈ new := by
  have nodup := freeSectors_nodup small
  rw [free, List.nodup_append] at nodup
  rw [used_iff_not_free small, used_iff_not_free (size ▸ small), size, free, List.mem_append, not_or]
  constructor
  · rintro ⟨inside, apart⟩
    by_cases taken : z ∈ new
    · exact Or.inr taken
    · exact Or.inl ⟨inside, taken, apart⟩
  · rintro (⟨inside, -, apart⟩ | taken)
    · exact ⟨inside, apart⟩
    · refine ⟨((mem_freeSectors small).mp ?_).1, fun still => nodup.2.2 z taken z still rfl⟩
      rw [free]
      exact List.mem_append_left _ taken

end ShellOs.FileSystem
