import ShellOs.FileSystem.Creation
import ShellOs.FileSystem.Release

/-! What `dir_remove` does to a regular file: its entry is cleared, its inode is closed for the last time,
and its sectors go back to the free map. -/

namespace ShellOs.FileSystem
open Lib BlockTree SlotMap

theorem deallocated_congr {v w : Disk} {d : InodeDisk} {n : Nat} (same : ∀ z ∈ deallocated v d n, w z = v z) :
    deallocated w d n = deallocated v d n := by
  have trees : ∀ {l m : Nat} {e : BlockSector}, (∀ z ∈ (if 0 < m then walk 128 (table v) l e m else []), w z = v z) →
      (if 0 < m then walk 128 (table w) l e m else []) = if 0 < m then walk 128 (table v) l e m else [] := by
    intro l m e kept
    split
    next some =>
      rw [if_pos some] at kept
      exact walk_congr fun z member => congrArg sectorWord (kept z member)
    next => rfl
  unfold deallocated at same ⊢
  rw [trees fun z member => same z (List.mem_append_left _ (List.mem_append_right _ member)),
    trees fun z member => same z (List.mem_append_right _ member)]

/-- The sectors that go back to the free map with a file: not more than it owns. -/
def givenBack (s : FlatFs) (x : BlockSector) : List BlockSector :=
  x :: deallocated s.cache (s.inodeData x) (bytesToSectors (s.inodeLength x))

section given

variable {s t : FlatFs} {x : BlockSector}

theorem FileAt.givenBack_sub (file : FileAt s x) : ∀ z ∈ givenBack s x, z ∈ sectorsOf s x := by
  intro z member
  rcases List.mem_cons.mp member with rfl | inside
  · exact List.mem_cons_self
  · refine List.mem_cons_of_mem _ (deallocated_sub (fun i below => ?_) inside)
    have fits := file.good.fits
    simp only [MAX_LENGTH] at fits
    rw [file.length, bytesToSectors_eq (by omega)] at below
    exact file.good.mapped i (by omega)

theorem FileAt.own_ne_zero (file : FileAt s x) {z : BlockSector} (mine : z ∈ sectorsOf s x) : z ≠ 0 := by
  intro zero
  rcases List.mem_cons.mp mine with rfl | inside
  · exact file.nonzero zero
  · exact zero_not_mem_inodeNodes _ _ (zero ▸ inside)

theorem FileAt.releasable (file : FileAt s x) : Releasable s (givenBack s x) := by
  intro z member
  have mine := file.givenBack_sub z member
  exact ⟨file.own_ne_zero mine, file.own.apart z mine⟩

theorem FileAt.givenBack_congr (file : FileAt s x) (same : ∀ z ∈ sectorsOf s x, t.cache z = s.cache z)
    (data : t.inodeData x = s.inodeData x) : givenBack t x = givenBack s x := by
  rw [givenBack, givenBack, Fs.inodeLength, Fs.inodeLength, data]
  exact congrArg (x :: ·) (deallocated_congr fun z member =>
    same z (file.givenBack_sub z (List.mem_cons_of_mem _ member)))

end given

section close

variable {s : FlatFs} {x : BlockSector}

theorem unlist_ok (fine : FreeMapOk s) (foreign : ∀ f, s.freeMapFile = some f → f.inode ≠ x) :
    FreeMapOk (unlist s x) ∧ freeMapNodes (unlist s x) = freeMapNodes s := by
  obtain ⟨ok, nodes, -, -⟩ := fine.reopen (l := (unlist s x).openInodes) fun f opened =>
    unlist_others (foreign f opened)
  exact ⟨ok, nodes⟩

theorem inodeClose_gone {i : Inode} (fine : FreeMapOk s) (file : FileAt s x) (found : s.findInode x = some i)
    (last : i.openCnt = 1) (gone : i.removed = true) (foreign : ∀ f, s.freeMapFile = some f → f.inode ≠ x) :
    Released (unlist s x) (inodeClose s x) (givenBack s x) := by
  have data : s.inodeData x = i.data := Fs.inodeData_found found rfl
  obtain ⟨ok, nodes⟩ := unlist_ok fine foreign
  have may : Releasable (unlist s x) (givenBack s x) := fun z member => by
    obtain ⟨nonzero, apart⟩ := file.releasable z member
    exact ⟨nonzero, fun inside => apart (nodes ▸ inside)⟩
  have first : Released (unlist s x) (freeMapRelease (unlist s x) x 1) [x] :=
    freeMapRelease_spec ok file.nonzero (may x List.mem_cons_self).2
  have same : deallocated (freeMapRelease (unlist s x) x 1).cache i.data (bytesToSectors i.data.length.toInt) =
      deallocated s.cache i.data (bytesToSectors i.data.length.toInt) := by
    refine deallocated_congr fun z member => first.elsewhere ok (may z ?_).2
    rw [givenBack, Fs.inodeLength, data]
    exact List.mem_cons_of_mem _ member
  rw [inodeClose_removed found last gone, givenBack, Fs.inodeLength, data, ← same]
  refine first.trans (inodeDeallocate_spec first.ok ?_ (first.releasable ?_))
  · have length := file.length
    rw [Fs.inodeLength, data] at length
    omega
  · rw [same]
    intro z member
    refine may z ?_
    rw [givenBack, Fs.inodeLength, data]
    exact List.mem_cons_of_mem _ member

end close

section remove

variable {s t : FlatFs} {n k : Nat} {x : BlockSector} {dir : Dir} {name : CString}

theorem inodeRemove_find (s : FlatFs) (x z : BlockSector) : (inodeRemove s x).findInode z =
    (s.findInode z).map fun i => if i.sector = x then { i with removed := true } else i := by
  simp only [inodeRemove, Fs.findInode, List.find?_map]
  have sectors : ((fun i : Inode => i.sector == z) ∘ fun i =>
      if i.sector = x then { i with removed := true } else i) = fun i => i.sector == z := by
    funext i
    simp only [Function.comp]
    split <;> rfl
  rw [sectors]

theorem inodeRemove_sectors (s : FlatFs) (x : BlockSector) :
    (inodeRemove s x).openInodes.map Inode.sector = s.openInodes.map Inode.sector := by
  rw [inodeRemove, List.map_map]
  refine List.map_congr_left fun i _ => ?_
  simp only [Function.comp]
  split <;> rfl

theorem inodeData_of_find {s t : FlatFs} {z : BlockSector} (same : t.findInode z = s.findInode z)
    (cache : t.cache z = s.cache z) : t.inodeData z = s.inodeData z := by
  unfold Fs.inodeData
  rw [same]
  cases s.findInode z with
  | none => exact congrArg InodeDisk.decode cache
  | some i => rfl

theorem deny_of_find {s t : FlatFs} {z : BlockSector} (same : t.findInode z = s.findInode z) :
    t.inodeDenyWriteCnt z = s.inodeDenyWriteCnt z := by
  unfold Fs.inodeDenyWriteCnt
  rw [same]

/-- A file that only its last handle keeps is removed and that handle closed. -/
structure Dropped (s t : FlatFs) (x : BlockSector) : Prop where
  rest : t = { s with cache := t.cache, freeMap := t.freeMap, openInodes := t.openInodes }
  through : ∃ m, Rehandled s m ∧ Released m t (givenBack s x)
  others : ∀ z, z ≠ x → t.findInode z = s.findInode z
  gone : t.findInode x = none
  nodup : HandlesNodup t

theorem inodeRemove_close {i : Inode} (fine : FreeMapOk s) (file : FileAt s x) (found : s.findInode x = some i)
    (last : i.openCnt = 1) (nodup : HandlesNodup s) (foreign : ∀ f, s.freeMapFile = some f → f.inode ≠ x) :
    Dropped s (inodeClose (inodeRemove s x) x) x := by
  have sector := Fs.findInode_sector found
  have marked : (inodeRemove s x).findInode x = some { i with removed := true } := by
    rw [inodeRemove_find, found, Option.map_some, if_pos sector]
  have others : ∀ z, z ≠ x → (inodeRemove s x).findInode z = s.findInode z := by
    intro z different
    rw [inodeRemove_find]
    cases held : s.findInode z with
    | none => rfl
    | some j => rw [Option.map_some, if_neg (by rw [Fs.findInode_sector held]; exact different)]
  have data : (inodeRemove s x).inodeData x = s.inodeData x := by
    rw [Fs.inodeData_found marked rfl, Fs.inodeData_found found rfl]
  have nodupNext : HandlesNodup (inodeRemove s x) := by
    rw [HandlesNodup, inodeRemove_sectors]
    exact nodup
  obtain ⟨ok, nodes, -, -⟩ := fine.reopen (l := (inodeRemove s x).openInodes) fun f opened => others _ (foreign f opened)
  obtain ⟨fileNext, -⟩ := file.frame (t := inodeRemove s x) (fun _ _ => rfl) file.own.used nodes data
  have released : Released (unlist (inodeRemove s x) x) (inodeClose (inodeRemove s x) x) (givenBack s x) := by
    rw [← file.givenBack_congr (t := inodeRemove s x) (fun _ _ => rfl) data]
    exact inodeClose_gone ok fileNext marked last rfl foreign
  have away : ∀ z, z ≠ x → (unlist (inodeRemove s x) x).findInode z = s.findInode z := fun z different =>
    (unlist_others different).trans (others z different)
  have none : (unlist (inodeRemove s x) x).findInode x = none := unlist_none nodupNext
  have opened : ∀ z, (inodeClose (inodeRemove s x) x).findInode z = (unlist (inodeRemove s x) x).findInode z := by
    intro z
    unfold Fs.findInode
    rw [released.opened]
  have rest : inodeClose (inodeRemove s x) x = { s with
      cache := (inodeClose (inodeRemove s x) x).cache
      freeMap := (inodeClose (inodeRemove s x) x).freeMap
      openInodes := (inodeClose (inodeRemove s x) x).openInodes } := by
    conv_lhs => rw [released.rest]
    rw [released.opened]
    rfl
  refine ⟨rest, ⟨_, ⟨rfl, fun z => ?_, fun z => ?_, fun f held => away _ (foreign f held)⟩, released⟩,
    fun z different => (opened z).trans (away z different), (opened x).trans none, ?_⟩
  · by_cases same : z = x
    · rw [same]
      refine Or.inr ?_
      unfold Fs.inodeData
      rw [none]
      rfl
    · exact Or.inl (inodeData_of_find (away z same) rfl)
  · by_cases same : z = x
    · rw [same]
      exact Or.inr (Fs.inodeDenyWriteCnt_absent none)
    · exact Or.inl (deny_of_find (away z same))
  · rw [HandlesNodup, released.opened]
    exact unlist_nodup nodupNext

namespace Dropped

theorem change (dropped : Dropped s t x) (fine : FreeMapOk s) : Change s t (givenBack s x) := by
  obtain ⟨m, same, released⟩ := dropped.through
  exact (same.change fine).trans (released.change (same.ok fine).1) (by simp) fun z member _ => member

theorem used (dropped : Dropped s t x) (z : BlockSector) :
    Used t.freeMap z ↔ Used s.freeMap z ∧ z ∉ givenBack s x := by
  obtain ⟨m, same, released⟩ := dropped.through
  rw [released.used, same.bits]

theorem zero (dropped : Dropped s t x) (fine : FreeMapOk s) : t.cache 0 = s.cache 0 := by
  obtain ⟨m, same, released⟩ := dropped.through
  obtain ⟨ok, -⟩ := same.ok fine
  rw [released.elsewhere ok (zero_not_mem_freeMapNodes _), same.cache]

theorem other (dropped : Dropped s t x) (fine : FreeMapOk s) {y : BlockSector} (file : FileAt s y)
    (apart : ∀ z ∈ sectorsOf s y, z ∉ givenBack s x) : t.inodeData y = s.inodeData y := by
  refine inodeData_of_find (dropped.others y fun same => ?_) ?_
  · exact apart y List.mem_cons_self (same ▸ List.mem_cons_self)
  · exact (dropped.change fine).frame y file.nonzero (file.own.used y List.mem_cons_self)
      (apart y List.mem_cons_self) (file.own.apart y List.mem_cons_self)

end Dropped

/-- What `dir_remove` does with the name of a regular file. -/
structure RemoveEffect (s : FlatFs) (x : BlockSector) (n k : Nat) (r : Bool × FlatFs) : Prop where
  rest : r.2 = { s.use ROOT_DIR_SECTOR with
    cache := r.2.cache, freeMap := r.2.freeMap, openInodes := r.2.openInodes, nextAddr := r.2.nextAddr }
  removed : r.1 = true
  change : Change s r.2 (sectorsOf s ROOT_DIR_SECTOR ++ sectorsOf s x)
  used : ∀ z, Used r.2.freeMap z ↔ Used s.freeMap z ∧ z ∉ givenBack s x
  zero : r.2.cache 0 = s.cache 0
  dir : DirOk r.2 n
  slots : rootSlots r.2 = (rootSlots s).set k none
  root : sectorsOf r.2 ROOT_DIR_SECTOR = sectorsOf s ROOT_DIR_SECTOR
  gone : r.2.findInode x = none
  others : ∀ z, z ≠ x → r.2.findInode z = s.findInode z
  nodup : HandlesNodup r.2

theorem DirOk.cleared (ok : DirOk s n) (inside : k + 1 < n) {e : DirEntry} (clear : e.inUse = false) :
    ∃ w, inodeWriteAt s ROOT_DIR_SECTOR e.encode ENTRY_SIZE ((36 * (k + 1) : Nat) : Int) =
        ((ENTRY_SIZE : Int), { s with cache := w }) ∧
      Took s { s with cache := w } [] (sectorsOf s ROOT_DIR_SECTOR) ∧ w 0 = s.cache 0 ∧
      DirOk { s with cache := w } n ∧ rootSlots { s with cache := w } = (rootSlots s).set k none ∧
      sectorsOf { s with cache := w } ROOT_DIR_SECTOR = sectorsOf s ROOT_DIR_SECTOR := by
  have bound : 36 * (k + 1) + ENTRY_SIZE ≤ fileLen s ROOT_DIR_SECTOR := by
    rw [ok.length]
    simp only [ENTRY_SIZE]
    omega
  have effect := writeEffect_inside ok.fine ok.file ok.writable (by decide) bound e.encode
  obtain ⟨w, run, sectors⟩ := inodeWriteAt_overwrites ok.fine ok.file ok.writable (by decide) bound e.encode
  obtain ⟨next, slots⟩ := (ok.written (by omega) effect).1 (by rw [run])
  have zero := (effect.enough (by rw [writeNeeds, if_pos (Or.inr bound)]; exact Nat.zero_le _)).2
  have took := effect.took
  have empty : e.slot = none := by
    rw [DirEntry.slot, clear]
    rfl
  rw [run] at next slots zero took
  rw [if_pos inside, empty] at slots
  rw [show max n (k + 2) = n by omega] at next
  exact ⟨w, run, took, zero, next, slots, sectors⟩

/-- A regular file that may be removed: only its last handle keeps it, if any. -/
structure Removable (s : FlatFs) (x : BlockSector) : Prop where
  file : FileAt s x
  regular : (s.inodeData x).isDir = false
  apart : ∀ z ∈ sectorsOf s ROOT_DIR_SECTOR, z ∉ sectorsOf s x
  last : ∀ i, s.findInode x = some i → i.openCnt = 1
  foreign : ∀ f, s.freeMapFile = some f → f.inode ≠ x

theorem Removable.use (may : Removable s x) (fine : FreeMapOk s) (z : BlockSector) : Removable (s.use z) x := by
  have same := Rehandled.use s z
  have sectors : ∀ y, sectorsOf (s.use z) y = sectorsOf s y := fun y => by
    rw [sectorsOf, sectorsOf, Fs.use_cache, Fs.use_inodeData]
  refine ⟨(same.file fine may.file).1, ?_, ?_, ?_, ?_⟩
  · rw [Fs.use_inodeData]
    exact may.regular
  · rw [sectors, sectors]
    exact may.apart
  · rw [Fs.use_findInode]
    exact may.last
  · rw [Fs.use_freeMapFile]
    exact may.foreign

theorem Opened.single (opened : Opened s t x) (last : ∀ i, s.findInode x = some i → i.openCnt = 1) :
    ∃ i, t.findInode x = some i ∧ i.openCnt = 1 := by
  cases found : s.findInode x with
  | some i =>
    refine ⟨i, ?_, last i found⟩
    rw [← found]
    unfold Fs.findInode
    rw [opened.kept i found]
  | none =>
    obtain ⟨i, list, sector, count, -⟩ := opened.fresh found
    refine ⟨i, ?_, count⟩
    rw [Fs.findInode, list, List.find?_cons_of_pos (by rw [sector, beq_self_eq_true])]

theorem Removable.ne_root (may : Removable s x) : x ≠ ROOT_DIR_SECTOR := fun same =>
  may.apart ROOT_DIR_SECTOR List.mem_cons_self (same ▸ List.mem_cons_self)

theorem dirRemove_use (s : FlatFs) (dir : Dir) (name : CString) :
    dirRemove (s.use dir.inode) dir name = dirRemove s dir name := by
  simp only [dirRemove, Fs.use_use]

theorem dirRemove_absent (ok : DirOk s n) (here : dir.inode = ROOT_DIR_SECTOR) (absent : name ∉ keys (rootSlots s)) :
    dirRemove s dir name = (false, s.use ROOT_DIR_SECTOR) := by
  obtain ⟨next, slots⟩ := ok.rehandled (Rehandled.use s ROOT_DIR_SECTOR)
  rw [← slots] at absent
  rw [dirRemove, here, next.lookup_absent absent]

theorem dirRemove_ready (ok : DirOk s n) (here : dir.inode = ROOT_DIR_SECTOR) (nodup : HandlesNodup s)
    (ready : s.use ROOT_DIR_SECTOR = s) (present : name ∈ keys (rootSlots s)) (may : ∀ x, some (name, x) ∈ rootSlots s → Removable s x) :
    ∃ k x, (rootSlots s)[k]? = some (some (name, x)) ∧ RemoveEffect s x n k (dirRemove s dir name) := by
  obtain ⟨k, e, inside, -, -, slot, found⟩ := ok.lookup_present present
  have removable := may e.inodeSector (List.mem_of_getElem? slot)
  refine ⟨k, e.inodeSector, slot, ?_⟩
  obtain ⟨x, sector⟩ : ∃ x, x = e.inodeSector := ⟨_, rfl⟩
  rw [← sector] at removable ⊢
  have opened := inodeOpen_spec s x
  have run : dirRemove s dir name =
      let r := inodeWriteAt (inodeOpen s x).2 ROOT_DIR_SECTOR { e with inUse := false }.encode ENTRY_SIZE
        ((36 * (k + 1) : Nat) : Int)
      if r.1 = ENTRY_SIZE then (true, inodeClose (inodeRemove r.2 x) x) else (false, inodeClose r.2 x) := by
    have regular : inodeIsDirectory (inodeOpen s x).2 x = false := by
      rw [inodeIsDirectory, opened.data]
      exact removable.regular
    simp only [dirRemove, here, ready, found, ← sector, regular, Bool.false_eq_true, if_false]
    rfl
  obtain ⟨i, listed, last⟩ := opened.single removable.last
  have rehandled := opened.rehandled ok.fine
  obtain ⟨ok₁, slots₁⟩ := ok.rehandled rehandled
  obtain ⟨fine, nodes, -, -⟩ := rehandled.ok ok.fine
  have nodup₁ := opened.nodup nodup
  obtain ⟨file, sectors, -, -⟩ := removable.file.frame (t := (inodeOpen s x).2) (fun _ _ => by rw [opened.cache])
    (by rw [opened.freeMap]; exact removable.file.own.used) nodes (opened.data x)
  have root : sectorsOf (inodeOpen s x).2 ROOT_DIR_SECTOR = sectorsOf s ROOT_DIR_SECTOR := by
    rw [sectorsOf, sectorsOf, opened.cache, opened.data]
  have given : givenBack (inodeOpen s x).2 x = givenBack s x :=
    removable.file.givenBack_congr (fun _ _ => by rw [opened.cache]) (opened.data x)
  have foreign : ∀ f, (inodeOpen s x).2.freeMapFile = some f → f.inode ≠ x := by
    rw [opened.freeMapFile]
    exact removable.foreign
  obtain ⟨w, wrote, took, zero, next, slots, rootNodes⟩ :=
    ok₁.cleared inside (e := { e with inUse := false }) rfl
  rw [run]
  simp only
  rw [wrote, if_pos rfl]
  generalize (inodeOpen s x).2 = t at *
  have apart : ∀ z ∈ sectorsOf s x, z ∉ sectorsOf t ROOT_DIR_SECTOR := fun z mine theirs =>
    removable.apart z (root ▸ theirs) mine
  obtain ⟨fileNext, sectorsNext, -, -⟩ := file.kept fine took (fun z member => apart z (sectors ▸ member))
    (Fs.inodeData_of_listed (by rw [listed]; rfl) rfl)
  have dropped := inodeRemove_close took.ok fileNext listed last nodup₁ foreign
  have givenNext : givenBack { t with cache := w } x = givenBack s x := by
    rw [← given]
    refine file.givenBack_congr (fun z member => ?_) (Fs.inodeData_of_listed (by rw [listed]; rfl) rfl)
    by_cases null : z = 0
    · rw [null]
      exact zero
    · exact took.frame z null (by simp) (apart z (sectors ▸ member)) fun inMap =>
        file.own.apart z member (freeMapData_sub fine inMap)
  have away : ∀ z ∈ sectorsOf { t with cache := w } ROOT_DIR_SECTOR, z ∉ givenBack { t with cache := w } x := by
    intro z theirs mine
    rw [rootNodes] at theirs
    exact apart z (removable.file.givenBack_sub z (givenNext ▸ mine)) theirs
  have change := dropped.change took.ok
  generalize inodeClose (inodeRemove { t with cache := w } x) x = u at *
  have data : u.inodeData ROOT_DIR_SECTOR = ({ t with cache := w } : FlatFs).inodeData ROOT_DIR_SECTOR :=
    dropped.other took.ok next.file away
  have rootSame := removable.ne_root.symm
  obtain ⟨last₁, slotsLast, -⟩ := next.change change away (Or.inl data)
    ((deny_of_find (dropped.others _ rootSame)).trans next.writable)
  refine ⟨?_, rfl, ?_, fun z => ?_, ?_, last₁, ?_, ?_, dropped.gone, fun z different => ?_, dropped.nodup⟩
  · have addr : u.nextAddr = t.nextAddr := (congrArg Fs.nextAddr dropped.rest :)
    have file : t.freeMapFile = s.freeMapFile := opened.freeMapFile
    have cwd : t.cwd = s.cwd := (congrArg Fs.cwd opened.rest :)
    have table : t.fileTable = s.fileTable := (congrArg Fs.fileTable opened.rest :)
    have freed : t.usedFreed = s.usedFreed := (congrArg Fs.usedFreed opened.rest :)
    rw [addr, ready]
    conv_lhs => rw [dropped.rest]
    simp only [file, cwd, table, freed]
  · have early : Change s { t with cache := w } (sectorsOf s ROOT_DIR_SECTOR ++ sectorsOf s x) :=
      (rehandled.change ok.fine).trans (took.change fine) (by simp) fun z member _ =>
        List.mem_append_left _ (root ▸ member)
    refine early.trans change (fun z member => member) fun z member _ => List.mem_append_right _ ?_
    exact removable.file.givenBack_sub z (givenNext ▸ member)
  · rw [dropped.used, givenNext]
    exact and_congr_left' (by rw [← opened.freeMap])
  · rw [dropped.zero took.ok, ← opened.cache]
    exact zero
  · rw [slotsLast, slots, slots₁]
  · have same : ∀ z ∈ sectorsOf { t with cache := w } ROOT_DIR_SECTOR, u.cache z = w z := fun z member =>
      change.frame z (next.file.own_ne_zero member) (next.file.own.used z member) (away z member)
        (next.file.own.apart z member)
    have used : ∀ z ∈ sectorsOf { t with cache := w } ROOT_DIR_SECTOR, Used u.freeMap z := fun z member =>
      change.used z (next.file.own.used z member) (away z member)
    obtain ⟨-, sectorsLast, -, -⟩ := next.file.frame same used change.nodes data
    rw [sectorsLast, rootNodes, root]
  · exact (dropped.others z different).trans (opened.others z different)

theorem RemoveEffect.of_use {r : Bool × FlatFs} (effect : RemoveEffect (s.use ROOT_DIR_SECTOR) x n k r)
    (fine : FreeMapOk s) : RemoveEffect s x n k r := by
  have same := Rehandled.use s ROOT_DIR_SECTOR
  have sectors : ∀ z, sectorsOf (s.use ROOT_DIR_SECTOR) z = sectorsOf s z := fun z => by
    rw [sectorsOf, sectorsOf, Fs.use_cache, Fs.use_inodeData]
  have given : givenBack (s.use ROOT_DIR_SECTOR) x = givenBack s x := by
    simp only [givenBack, Fs.use_cache, Fs.use_inodeData, Fs.use_inodeLength]
  have slots : rootSlots (s.use ROOT_DIR_SECTOR) = rootSlots s := by
    simp only [rootSlots, fileLen, Fs.use_cache, Fs.use_inodeData, Fs.use_inodeLength]
  refine ⟨effect.rest.trans (by rw [Fs.use_use]), effect.removed, ?_, fun z => ?_, ?_, effect.dir, ?_, ?_, effect.gone,
    fun z different => ?_, effect.nodup⟩
  · have change := (same.change fine).trans effect.change (by simp) fun z member _ => member
    rw [sectors, sectors] at change
    exact change
  · rw [effect.used, given, Fs.use_freeMap]
  · rw [effect.zero, Fs.use_cache]
  · rw [effect.slots, slots]
  · rw [effect.root, sectors]
  · rw [effect.others z different, Fs.use_findInode]

theorem dirRemove_effect (ok : DirOk s n) (here : dir.inode = ROOT_DIR_SECTOR) (nodup : HandlesNodup s)
    (present : name ∈ keys (rootSlots s)) (may : ∀ x, some (name, x) ∈ rootSlots s → Removable s x) :
    ∃ k x, (rootSlots s)[k]? = some (some (name, x)) ∧ RemoveEffect s x n k (dirRemove s dir name) := by
  have same := Rehandled.use s ROOT_DIR_SECTOR
  obtain ⟨next, slots⟩ := ok.rehandled same
  have nodupNext : HandlesNodup (s.use ROOT_DIR_SECTOR) := by rwa [HandlesNodup, Fs.use_openInodes]
  rw [← slots] at present may ⊢
  obtain ⟨k, x, slot, effect⟩ := dirRemove_ready next here nodupNext (Fs.use_use s _) present fun x member =>
    (may x member).use ok.fine _
  have run := dirRemove_use s dir name
  rw [here] at run
  rw [run] at effect
  exact ⟨k, x, slot, effect.of_use ok.fine⟩

end remove

end ShellOs.FileSystem
