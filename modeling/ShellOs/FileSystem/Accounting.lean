import ShellOs.FileSystem.Persistence
import ShellOs.FileSystem.Defragment
import ShellOs.FileSystem.Commands

/-! Accounting for sectors: in a session in which nothing fails, every sector that has been taken since formatting belongs
to one of the files, and no file has more than its length asks for. -/

namespace ShellOs.FileSystem
open Lib BlockTree SlotMap

section exact

variable {s t : FlatFs} {x : BlockSector} {n k o : Nat}

/-- An inode that refers to nothing beyond its length has nothing that its copy on the disk lacks. -/
theorem Exact.stored (exact : Exact s x) (file : FileAt s x) : Stored s x := by
  have fits := file.good.fits
  simp only [MAX_LENGTH] at fits
  have extended := file.extended
  have mapped := file.mapped
  have nodup : (forestNodes 128 (table s.cache) inodeShape (s.inodeData x).entries).Nodup := file.good.nodup
  rw [Stored]
  generalize InodeDisk.decode (s.cache x) = disk at *
  have same : ∀ j, j < 125 → (s.inodeData x).entries j = disk.entries j := by
    intro j inside
    by_cases null : disk.entries j = 0
    · by_contra other
      rw [null] at other
      -- the tree of that entry is wanted, so the disk has it
      have node : (s.inodeData x).entries j ∈ nodes 128 (table s.cache) (inodeShape.level j) ((s.inodeData x).entries j) := by
        cases inodeShape.level j with
        | zero => rw [nodes, if_neg other]; exact List.mem_singleton_self _
        | succ l => rw [nodes, if_neg other]; exact List.mem_cons_self
      have wanted := exact _ (mem_forestNodes.mpr ⟨j, inside, node⟩)
      obtain ⟨i, member, here⟩ := List.mem_flatMap.mp wanted
      split at here
      case isFalse => cases here
      case isTrue below =>
        have there := (visited_sublist (Nat.min_le_right _ _)).subset here
        obtain rfl := forestNodes_unique nodup (List.mem_range.mp member) inside there node
        have start : treeStart i * 512 < fileLen s x := by
          rw [file.sectorCount] at below
          omega
        apply mapped (treeStart i) start
        have place : (position (treeStart i)).1 = i := by
          unfold treeStart position
          split <;> split <;> (try split) <;> omega
        rw [blockAt, forestLeaf, place, null, leaf_null]
    · exact extended.entries j null
  apply InodeDisk.ext
  · funext i
    have direct := same i.val (by have := i.isLt; simp only [DIRECT_BLOCKS_COUNT] at this; omega)
    have small : i.val < 123 := i.isLt
    rw [← direct_eq_entries _ small, ← direct_eq_entries _ small, InodeDisk.direct, InodeDisk.direct, dif_pos i.isLt,
      dif_pos i.isLt] at direct
    exact direct
  · exact same 123 (by decide)
  · exact same 124 (by decide)
  · exact extended.isDirWord
  · exact extended.length
  · exact extended.magic

theorem Exact.congr (exact : Exact s x) (data : t.inodeData x = s.inodeData x)
    (same : ∀ z ∈ sectorsOf s x, t.cache z = s.cache z) : Exact t x ∧ sectorsOf t x = sectorsOf s x := by
  have nodes : inodeNodes t.cache (t.inodeData x) = inodeNodes s.cache (s.inodeData x) := by
    rw [data]
    exact (inode_congr (fun _ _ => rfl) fun z index => same z (List.mem_cons_of_mem _ (inodeInner_sub index))).1
  refine ⟨fun z node => ?_, by rw [sectorsOf, nodes, sectorsOf]⟩
  rw [nodes] at node
  rw [data, Fs.inodeLength, data, inodeVisited_congr fun z member _ => same z (List.mem_cons_of_mem _ (mem_inodeVisited member))]
  exact exact z node

theorem Exact.rehandled (exact : Exact s x) (file : FileAt s x) (again : Rehandled s t) :
    Exact t x ∧ sectorsOf t x = sectorsOf s x :=
  exact.congr (again.kept (exact.stored file)).1 fun z _ => by rw [again.cache]

theorem Exact.wrote {buffer : Nat → Byte} {r : Int × FlatFs} {new : List BlockSector} (exact : Exact s x)
    (file : FileAt s x) (effect : WriteEffect s x buffer k o r new) (some : 0 < k) (small : o + k < 2 ^ 31)
    (done : r.1 = k) : Exact r.2 x ∧ ∀ z, z ∈ sectorsOf r.2 x ↔ z ∈ sectorsOf s x ∨ z ∈ new := by
  have length := (effect.bytes file some done).1
  have can := effect.done.mp done
  have before := file.sectorCount
  have after := effect.file.sectorCount
  have count : new.length = (inodeMissing s.cache (s.inodeData x) (bytesToSectors (r.2.inodeLength x))).length := by
    by_cases inside : o + k ≤ fileLen s x
    · have needs : writeNeeds s x (o + k) = [] := by rw [writeNeeds, if_pos (Or.inr inside)]
      have none := (effect.enough (by rw [needs]; exact Nat.zero_le _)).1
      rw [none, needs, after, length, show max (fileLen s x) (o + k) = fileLen s x by omega, ← before,
        inodeMissing_mapped fun i => file.blocks (i := i)]
    · obtain ⟨few, room⟩ := can.2.resolve_left inside
      have needs : writeNeeds s x (o + k) = inodeMissing s.cache (s.inodeData x) (bytesToSectors (o + k : Nat)) := by
        rw [writeNeeds, if_neg (not_or.mpr ⟨not_not.mpr can.1, inside⟩)]
      rw [(effect.enough room).1, needs, after, length, show max (fileLen s x) (o + k) = o + k by omega,
        (fits_of_sectors small few).2]
  obtain ⟨next, perm⟩ := exact_step file.good.nodup exact
    (show bytesToSectors (s.inodeLength x) ≤ bytesToSectors (r.2.inodeLength x) by rw [before, after, length]; omega)
    effect.file.good.nodup (fun z node => by
      rcases effect.sectors z (List.mem_cons_of_mem _ node) with old | added
      · rcases List.mem_cons.mp old with rfl | inside
        · exact absurd node effect.file.apart
        · exact Or.inl inside
      · exact Or.inr added) count fun i => effect.file.blocks
  refine ⟨next, fun z => ?_⟩
  rw [sectorsOf, sectorsOf, List.mem_cons, List.mem_cons, perm.mem_iff, List.mem_append, or_assoc]

end exact

namespace FileOp

/-- A call on a regular file: its path is a C string, the offset at which a write ends is an `int`, and a handle is one
on neither the free map nor the root directory. -/
def Regular : FileOp → Prop
  | create path _ => 0 ∉ path
  | openFile path => Plain (splitPathFilename path).2
  | read _ _ _ => True
  | write inode _ size offset => (inode ≠ FREE_MAP_SECTOR ∧ inode ≠ ROOT_DIR_SECTOR) ∧ offset + size < 2 ^ 31
  | close inode => inode ≠ FREE_MAP_SECTOR ∧ inode ≠ ROOT_DIR_SECTOR
  | remove path => 0 ∉ path

section run

variable {σ : Type} [Store σ BlockSector Sector] [LawfulStore σ]

/-- A call that does not fail, and for which the root directory does not grow. -/
def Succeeds (s : Fs σ) : FileOp → Prop
  | create path size => (filesysCreate s path size false).1 = true ∧ freeSlot (rootSlots s.flat) < (rootSlots s.flat).length
  | openFile path => (filesysOpen s path).1.isSome
  | read _ _ _ => True
  | write inode buffer size offset => (inodeWriteAt s inode buffer size offset).1 = size
  | close _ => True
  | remove path => (filesysRemove s path).1 = true

theorem succeeds_flat (s : Fs σ) (op : FileOp) : op.Succeeds s.flat ↔ op.Succeeds s := by
  cases op with
  | create path size =>
    rw [Succeeds, Succeeds, ← filesysCreate_flat, flatten_fst]
    exact Iff.rfl
  | openFile path => rw [Succeeds, Succeeds, ← filesysOpen_flat, flatten_fst]
  | read inode size offset => exact Iff.rfl
  | write inode buffer size offset => rw [Succeeds, Succeeds, ← inodeWriteAt_flat, flatten_fst]
  | close inode => exact Iff.rfl
  | remove path => rw [Succeeds, Succeeds, ← filesysRemove_flat, flatten_fst]

end run

/-- A write goes to a file that the root directory lists, not through a handle that is left over from a file that has been
removed. It writes something, or is at a place behind a byte of the file: a write of nothing at the start sets the length
to 0, and beyond the end it takes sectors. The path of a file that is removed does not lead through another file. -/
def Orderly (s : FlatFs) : FileOp → Prop
  | write inode _ size offset => inode ∈ rootFiles s ∧ (0 < size ∨ 0 < offset ∧ offset ≤ fileLen s inode)
  | remove path => OnlyDots (splitPathFilename path).1
  | _ => True

end FileOp

/-- Since `f`, the sectors of the files have been taken and no others. -/
structure Accounted (f s : FlatFs) : Prop where
  volume : ∃ n, Volume s n
  shut : Shut s
  named : ∀ name ∈ keys (rootSlots s), NameOk name ∧ slash ∉ name ∧ (0 : Byte) ∉ name
  fileTable : s.fileTable = []
  size : s.freeMap.bitCnt = f.freeMap.bitCnt
  used : ∀ z, Used s.freeMap z ↔ Used f.freeMap z ∨ ∃ x ∈ rootFiles s, z ∈ sectorsOf s x
  fresh : ∀ x ∈ rootFiles s, ∀ z ∈ sectorsOf s x, ¬Used f.freeMap z
  exact : ∀ x ∈ rootFiles s, Exact s x

section steps

variable {f s t : FlatFs} {n : Nat} {x : BlockSector}

theorem Accounted.rehandled (all : Accounted f s) (again : Rehandled s t) (vol : Volume t n)
    (slots : rootSlots t = rootSlots s) (shut : Shut t) (table : t.fileTable = s.fileTable) : Accounted f t := by
  obtain ⟨m, volume⟩ := all.volume
  have files : rootFiles t = rootFiles s := by rw [rootFiles, slots, rootFiles]
  have same : ∀ x ∈ rootFiles s, Exact t x ∧ sectorsOf t x = sectorsOf s x := fun x listed =>
    (all.exact x listed).rehandled (volume.file x listed).1 again
  refine ⟨⟨n, vol⟩, shut, by rw [slots]; exact all.named, table.trans all.fileTable, by rw [again.bits, all.size],
    fun z => ?_, fun x listed z mine => ?_, fun x listed => ?_⟩
  · rw [again.bits, all.used, files]
    apply or_congr_right
    exact exists_congr fun x => and_congr_right fun listed => by rw [(same x listed).2]
  · rw [files] at listed
    rw [(same x listed).2] at mine
    exact all.fresh x listed z mine
  · rw [files] at listed
    exact (same x listed).1

theorem Accounted.bystander {touched : List BlockSector} (all : Accounted f s) (vol : Volume s n)
    (change : Change s t touched) (listed : x ∈ rootFiles s) (away : ∀ z ∈ sectorsOf s x, z ∉ touched)
    (same : t.findInode x = s.findInode x) : Exact t x ∧ sectorsOf t x = sectorsOf s x := by
  have file := (vol.file x listed).1
  obtain ⟨-, -, -, -, data⟩ := Volume.bystander file change away same
  apply (all.exact x listed).congr data
  intro z mine
  exact change.frame z (file.own_ne_zero mine) (file.own.used z mine) (away z mine) (file.own.apart z mine)

theorem Accounted.wrote (all : Accounted f s) (vol : Volume s n) {buffer : Nat → Byte} {k o : Nat} {r : Int × FlatFs}
    {new : List BlockSector} (effect : WriteEffect s x buffer k o r new) (listed : x ∈ rootFiles s) (some : 0 < k)
    (small : o + k < 2 ^ 31) (done : r.1 = k) : Accounted f r.2 := by
  have fine := vol.mounted.dir.fine
  obtain ⟨volume, slots, -⟩ := vol.writes listed effect
  have files : rootFiles r.2 = rootFiles s := by rw [rootFiles, slots, rootFiles]
  obtain ⟨exact, sectors⟩ := (all.exact x listed).wrote (vol.file x listed).1 effect some small done
  have others : ∀ y ∈ rootFiles s, y ≠ x → Exact r.2 y ∧ sectorsOf r.2 y = sectorsOf s y := fun y mine different =>
    all.bystander vol (effect.took.change fine) mine
      (fun z inside => vol.apart y (List.mem_cons_of_mem _ mine) x (List.mem_cons_of_mem _ listed) different z inside)
      (effect.handles.others y different)
  have used := used_of_free fine.small effect.took.size effect.took.free
  have root := effect.handles.others _ (vol.ne_root listed).symm
  refine ⟨⟨n, volume⟩, ⟨(congrArg Fs.cwd effect.took.rest :).trans all.shut.1, root.trans all.shut.2⟩,
    by rw [slots]; exact all.named, (congrArg Fs.fileTable effect.took.rest :).trans all.fileTable,
    effect.took.size.trans all.size, fun z => ?_, fun y mine z inside => ?_, fun y mine => ?_⟩
  · rw [used, all.used, files]
    constructor
    · rintro ((old | ⟨y, mine, inside⟩) | added)
      · exact Or.inl old
      · by_cases same : y = x
        · exact Or.inr ⟨x, listed, (sectors z).mpr (Or.inl (same ▸ inside))⟩
        · exact Or.inr ⟨y, mine, by rw [(others y mine same).2]; exact inside⟩
      · exact Or.inr ⟨x, listed, (sectors z).mpr (Or.inr added)⟩
    · rintro (old | ⟨y, mine, inside⟩)
      · exact Or.inl (Or.inl old)
      · by_cases same : y = x
        · rcases (sectors z).mp (same ▸ inside) with before | added
          · exact Or.inl (Or.inr ⟨x, listed, before⟩)
          · exact Or.inr added
        · rw [(others y mine same).2] at inside
          exact Or.inl (Or.inr ⟨y, mine, inside⟩)
  · rw [files] at mine
    by_cases same : y = x
    · rcases (sectors z).mp (same ▸ inside) with before | added
      · exact all.fresh x listed z before
      · exact fun old => effect.took.new_not_used added ((all.used z).mpr (Or.inl old))
    · rw [(others y mine same).2] at inside
      exact all.fresh y mine z inside
  · rw [files] at mine
    by_cases same : y = x
    · rw [same]
      exact exact
    · exact (others y mine same).1

theorem Accounted.removed (all : Accounted f s) (vol : Volume s n) {name : CString} {k : Nat}
    (slot : (rootSlots s)[k]? = some (some (name, x))) (unlinked : Unlinked s t x n k) (shut : Shut t) :
    Accounted f t := by
  have listed := mem_rootFiles.mpr ⟨_, List.mem_of_getElem? slot⟩
  obtain ⟨volume, perm, -⟩ := vol.removes slot unlinked
  have files : ∀ y, y ∈ rootFiles s ↔ y = x ∨ y ∈ rootFiles t := by
    intro y
    rw [rootFiles, (perm.map Prod.snd).mem_iff, List.map_cons, List.mem_cons, rootFiles]
  have distinct : x ∉ rootFiles t := by
    have both := (perm.map Prod.snd).nodup_iff.mp (List.nodup_cons.mp vol.owners).2
    exact (List.nodup_cons.mp both).1
  have others : ∀ y ∈ rootFiles t, Exact t y ∧ sectorsOf t y = sectorsOf s y := by
    intro y mine
    have old := (files y).mpr (Or.inr mine)
    have different : y ≠ x := fun same => distinct (same ▸ mine)
    refine all.bystander vol unlinked.change old (fun z inside member => ?_) (unlinked.others y different (vol.ne_root old))
    rcases List.mem_append.mp member with root | theirs
    · exact vol.apart y (List.mem_cons_of_mem _ old) _ List.mem_cons_self (vol.ne_root old) z inside root
    · exact vol.apart y (List.mem_cons_of_mem _ old) x (List.mem_cons_of_mem _ listed) different z inside theirs
  have given : ∀ z, z ∈ givenBack s x ↔ z ∈ sectorsOf s x := fun z =>
    (all.exact x listed).given (vol.file x listed).1
  refine ⟨⟨n, volume⟩, shut, fun key present => ?_, unlinked.fileTable.trans all.fileTable,
    unlinked.change.size.trans all.size, fun z => ?_, fun y mine z inside => ?_, fun y mine => (others y mine).1⟩
  · exact all.named key ((keys_perm perm).symm.subset (List.mem_cons_of_mem _ present))
  · rw [unlinked.used, given, all.used]
    constructor
    · rintro ⟨old | ⟨y, mine, inside⟩, apart⟩
      · exact Or.inl old
      · rcases (files y).mp mine with rfl | left
        · exact absurd inside apart
        · exact Or.inr ⟨y, left, by rw [(others y left).2]; exact inside⟩
    · rintro (old | ⟨y, left, inside⟩)
      · exact ⟨Or.inl old, fun mine => all.fresh x listed z mine old⟩
      · rw [(others y left).2] at inside
        have mine := (files y).mpr (Or.inr left)
        refine ⟨Or.inr ⟨y, mine, inside⟩, fun theirs => ?_⟩
        exact vol.apart y (List.mem_cons_of_mem _ mine) x (List.mem_cons_of_mem _ listed)
          (fun same => distinct (same ▸ left)) z inside theirs
  · rw [(others y mine).2] at inside
    exact all.fresh y ((files y).mpr (Or.inr mine)) z inside

theorem Accounted.created (all : Accounted f s) (vol : Volume s n) {name : CString} {size : Int} {r : Bool × FlatFs}
    {new : List BlockSector} (creation : Creation s name size r new) (made : r.1 = true) (flat : slash ∉ name)
    (proper : (0 : Byte) ∉ name) (room : freeSlot (rootSlots s) < (rootSlots s).length) : Accounted f r.2 := by
  obtain ⟨volume, -, newFile, -⟩ := vol.creates creation proper
  obtain ⟨x, file⟩ := newFile made
  have perm := put_perm (rootSlots s) (name, x)
  rw [← file.slots] at perm
  have took := OnlyTook.creates vol.mounted creation made proper room
    (mem_bindings.mp (perm.symm.subset List.mem_cons_self))
  have files : ∀ y, y ∈ rootFiles r.2 ↔ y = x ∨ y ∈ rootFiles s := by
    intro y
    rw [rootFiles, (perm.map Prod.snd).mem_iff, List.map_cons, List.mem_cons, rootFiles]
  have others : ∀ y ∈ rootFiles s, Exact r.2 y ∧ sectorsOf r.2 y = sectorsOf s y := fun y mine =>
    all.bystander vol creation.change mine
      (fun z inside => vol.apart y (List.mem_cons_of_mem _ mine) _ List.mem_cons_self (vol.ne_root mine) z inside)
      (creation.others y (vol.ne_root mine))
  refine ⟨volume, creation.shut all.shut, fun key present => ?_, creation.fileTable.trans all.fileTable,
    took.size.trans all.size, fun z => ?_, fun y mine z inside => ?_, fun y mine => ?_⟩
  · rcases List.mem_cons.mp ((keys_perm perm).subset present) with rfl | old
    · exact ⟨(creation.done.mp made).2.1, flat, proper⟩
    · exact all.named key old
  · rw [took.used, all.used, or_assoc]
    apply or_congr_right
    constructor
    · rintro (⟨y, mine, inside⟩ | new)
      · exact ⟨y, (files y).mpr (Or.inr mine), by rw [(others y mine).2]; exact inside⟩
      · exact ⟨x, (files x).mpr (Or.inl rfl), new⟩
    · rintro ⟨y, mine, inside⟩
      rcases (files y).mp mine with rfl | old
      · exact Or.inr inside
      · exact Or.inl ⟨y, old, by rw [← (others y old).2]; exact inside⟩
  · rcases (files y).mp mine with rfl | old
    · exact fun before => took.fresh z inside ((all.used z).mpr (Or.inl before))
    · rw [(others y old).2] at inside
      exact all.fresh y old z inside
  · rcases (files y).mp mine with rfl | old
    · exact took.exact
    · exact (others y old).1

theorem Accounted.looked (all : Accounted f s) (only : RootClosed s t) (shut : Shut t) : Accounted f t := by
  obtain ⟨n, vol⟩ := all.volume
  obtain ⟨volume, slots, -⟩ := vol.only only
  exact all.rehandled only.rehandled volume slots shut only.fileTable

/-- The handle that is closed may be one on a file that is not there any more. -/
theorem Accounted.closed (all : Accounted f s) (inMap : x ≠ FREE_MAP_SECTOR) (notRoot : x ≠ ROOT_DIR_SECTOR) :
    Accounted f (fileClose s (fileOpen x)) := by
  obtain ⟨n, vol⟩ := all.volume
  cases found : s.findInode x with
  | none =>
    have run : fileClose s (fileOpen x) = s.use x := by
      simp only [fileClose, fileOpen, inodeClose, found, Bool.false_eq_true, if_false]
    rw [run]
    refine all.looked (RootClosed.use vol.mounted.handle x) ⟨?_, ?_⟩
    · rw [Fs.use_cwd]
      exact all.shut.1
    · rw [Fs.use_findInode]
      exact all.shut.2
  | some i =>
    have held : FileOp.Held s x := ⟨(vol.single x i found inMap notRoot).1, by rw [found]; rfl⟩
    have closed := vol.fileClosed held
    obtain ⟨volume, slots, -⟩ := vol.closes held.1 closed
    refine all.rehandled (closed.rehandled (vol.foreign (List.mem_cons_of_mem _ held.1))) volume slots ?_
      (congrArg Fs.fileTable closed.rest :)
    exact ⟨(congrArg Fs.cwd closed.rest :).trans all.shut.1, (closed.others _ notRoot.symm).trans all.shut.2⟩

/-- The step lemma. -/
theorem Accounted.step (all : Accounted f s) {op : FileOp} (regular : op.Regular) (went : op.Succeeds s)
    (orderly : op.Orderly s) : Accounted f (FileOp.step s op) := by
  obtain ⟨n, vol⟩ := all.volume
  cases op with
  | create path size =>
    obtain ⟨made, room⟩ := went
    obtain ⟨new, creation⟩ := filesysCreate_effect vol.mounted path size
    exact all.created vol creation made (slash_notMem_filename path) (fun inside => regular (mem_of_fileName inside)) room
  | openFile path =>
    have present : (splitPathFilename path).2 ∈ keys (rootSlots s) := by
      by_contra absent
      rw [FileOp.Succeeds, (filesysOpen_absent vol.mounted regular absent).1] at went
      cases went
    obtain ⟨k, x, slot, -, opened⟩ := filesysOpen_effect vol.mounted regular present fun x member => vol.openable member
    obtain ⟨volume, slots, -⟩ := vol.opens (mem_rootFiles.mpr ⟨_, List.mem_of_getElem? slot⟩) opened
    exact all.rehandled opened.rehandled volume slots (opened.shut all.shut) opened.fileTable
  | read inode size offset =>
    have same : FileOp.step s (.read inode size offset) = s := inodeReadAt_snd s inode size offset
    rw [same]
    exact all
  | write inode buffer size offset =>
    obtain ⟨-, small⟩ := regular
    obtain ⟨listed, place⟩ := orderly
    have file := (vol.file inode listed).1
    rcases Nat.eq_zero_or_pos size with rfl | some
    · obtain ⟨front, behind⟩ := place.resolve_left (Nat.lt_irrefl 0)
      have same := congrArg Prod.snd (inodeWriteAt_skips vol.mounted.dir.fine file front behind buffer)
      rw [show FileOp.step s (.write inode buffer 0 offset) = s from same]
      exact all
    · have wrote : (inodeWriteAt s inode buffer size offset).1 = size := went
      obtain ⟨new, effect⟩ := inodeWriteAt_settles vol.mounted.dir.fine file
        (vol.foreign (List.mem_cons_of_mem _ listed)) some small buffer (Or.inr (by rw [wrote]; omega))
      exact all.wrote vol effect listed some small wrote
  | close inode => exact all.closed regular.1 regular.2
  | remove path =>
    have present : (splitPathFilename path).2 ∈ keys (rootSlots s) := by
      by_contra absent
      rw [FileOp.Succeeds, (filesysRemove_absent vol.mounted orderly absent).1] at went
      cases went
    obtain ⟨j, x, slot, -, unlinked⟩ := filesysRemove_effect vol.mounted orderly present fun x member =>
      vol.removable (mem_rootFiles.mpr ⟨_, member⟩)
    exact all.removed vol slot unlinked (filesysRemove_dots_shut vol all.shut orderly (List.mem_of_getElem? slot))

end steps

theorem Volume.accounted {s : FlatFs} {n : Nat} (vol : Volume s n) (shut : Shut s) (table : s.fileTable = [])
    (none : rootFiles s = []) : Accounted s s := by
  refine ⟨⟨n, vol⟩, shut, fun name present => ?_, table, rfl, fun z => ?_, ?_, ?_⟩
  · obtain ⟨x, bound⟩ := mem_keys.mp present
    have listed := mem_rootFiles.mpr ⟨name, bound⟩
    rw [none] at listed
    cases listed
  · simp [none]
  · simp [none]
  · simp [none]

theorem Fresh.accounted {size : BlockSector} {s : FlatFs} (fresh : Fresh size s) : Accounted s s := by
  refine fresh.volume.accounted fresh.shut fresh.fileTable (List.eq_nil_iff_forall_not_mem.mpr fun x member => ?_)
  obtain ⟨name, bound⟩ := mem_rootFiles.mp member
  exact fresh.absent name (mem_keys.mpr ⟨x, bound⟩)

section space

variable {f s t : FlatFs} {n : Nat} {x : BlockSector}

theorem Exact.length (exact : Exact s x) (file : FileAt s x) : (sectorsOf s x).length = sectorsNeeded (fileLen s x) := by
  have part := inodeVisited_sublist s.cache (s.inodeData x) (bytesToSectors (s.inodeLength x))
  have whole := (List.subperm_of_subset file.good.nodup exact).length_le
  have laid := length_laidOut file file.length
  rw [laidOut, part.eq_of_length_le whole] at laid
  exact laid

theorem Accounted.free (all : Accounted f s) (vol : Volume s n) :
    (freeSectors f.freeMap).Perm (freeSectors s.freeMap ++ (rootFiles s).flatMap (sectorsOf s)) := by
  have small := vol.mounted.dir.fine.small
  have smallF : f.freeMap.bitCnt < 2 ^ 32 := all.size ▸ small
  have mine : ∀ z, z ∈ (rootFiles s).flatMap (sectorsOf s) ↔ ∃ x ∈ rootFiles s, z ∈ sectorsOf s x := fun z =>
    List.mem_flatMap
  have owners := (List.nodup_cons.mp vol.owners).2
  have nodup : ((rootFiles s).flatMap (sectorsOf s)).Nodup := by
    refine List.nodup_flatMap.mpr ⟨fun x listed => (vol.file x listed).1.own.nodup, ?_⟩
    apply owners.imp_of_mem
    intro x y listedX listedY different z inX inY
    exact vol.apart x (List.mem_cons_of_mem _ listedX) y (List.mem_cons_of_mem _ listedY) different z inX inY
  have inside : ∀ z, z ∈ freeSectors s.freeMap ↔ z.toNat < s.freeMap.bitCnt ∧ ¬Used s.freeMap z := by
    intro z
    rw [used_iff_not_free small]
    constructor
    · exact fun member => ⟨((mem_freeSectors small).mp member).1, fun used => used.2 member⟩
    · rintro ⟨below, unused⟩
      by_contra outside
      exact unused ⟨below, outside⟩
  rw [List.perm_ext_iff_of_nodup (freeSectors_nodup smallF)]
  · intro z
    rw [List.mem_append, inside, mine, all.used, all.size]
    have insideF := (mem_freeSectors smallF (x := z))
    constructor
    · intro free
      obtain ⟨below, clear⟩ := insideF.mp free
      by_cases owned : ∃ x ∈ rootFiles s, z ∈ sectorsOf s x
      · exact Or.inr owned
      · refine Or.inl ⟨below, ?_⟩
        rintro (⟨-, set⟩ | held)
        · rw [clear] at set
          cases set
        · exact owned held
    · intro either
      have unused : z.toNat < f.freeMap.bitCnt ∧ ¬Used f.freeMap z := by
        rcases either with ⟨below, unused⟩ | ⟨x, listed, owned⟩
        · exact ⟨below, fun old => unused (Or.inl old)⟩
        · refine ⟨?_, all.fresh x listed z owned⟩
          rw [← all.size]
          exact ((vol.file x listed).1.own.used z owned).1
      refine insideF.mpr ⟨unused.1, ?_⟩
      by_contra set
      exact unused.2 ⟨unused.1, by simpa using set⟩
  · refine List.nodup_append.mpr ⟨freeSectors_nodup small, nodup, ?_⟩
    rintro z free y owned rfl
    obtain ⟨x, listed, held⟩ := (mine z).mp owned
    exact ((inside z).mp free).2 ((vol.file x listed).1.own.used z held)

theorem Accounted.free_length (all : Accounted f s) : (freeSectors s.freeMap).length +
    ((rootFiles s).map fun x => sectorsNeeded (fileLen s x)).sum = (freeSectors f.freeMap).length := by
  obtain ⟨n, vol⟩ := all.volume
  have lengths : (rootFiles s).map (fun x => (sectorsOf s x).length) =
      (rootFiles s).map fun x => sectorsNeeded (fileLen s x) :=
    List.map_congr_left fun x listed => (all.exact x listed).length (vol.file x listed).1
  rw [(all.free vol).length_eq, List.length_append, List.length_flatMap, lengths]

theorem Accounted.available (all : Accounted f s) : FileSystem.available s = freeSectors f.freeMap := by
  obtain ⟨n, vol⟩ := all.volume
  rw [FileSystem.available, freeSectors, freeBits, List.filter_map, all.size]
  congr 1
  apply List.filter_congr
  intro i inside
  have below := List.mem_range.mp inside
  have small : f.freeMap.bitCnt < 2 ^ 32 := all.size ▸ vol.mounted.dir.fine.small
  have value : (BitVec.ofNat 32 i).toNat = i := by
    rw [BitVec.toNat_ofNat, Nat.mod_eq_of_lt (by omega)]
  have used := all.used (BitVec.ofNat 32 i)
  rw [Used, Used, value, all.size] at used
  rw [Function.comp, value, Bool.eq_iff_iff]
  simp only [Bool.not_eq_true', Bool.or_eq_true, List.any_eq_true, List.contains_iff_mem]
  have given : ∀ x ∈ rootFiles s, ∀ z, z ∈ givenBack s x ↔ z ∈ sectorsOf s x := fun x listed z =>
    (all.exact x listed).given (vol.file x listed).1
  constructor
  · rintro (free | ⟨x, listed, member⟩)
    · by_contra set
      have still := (used.mpr (Or.inl ⟨below, by simpa using set⟩)).2
      rw [free] at still
      cases still
    · by_contra set
      rw [given x listed] at member
      exact all.fresh x listed _ member ⟨by rw [value]; exact below, by rw [value]; simpa using set⟩
  · intro free
    by_cases set : bitmapTest s.freeMap i = true
    · rcases used.mp ⟨below, set⟩ with ⟨-, old⟩ | ⟨x, listed, member⟩
      · rw [free] at old
        cases old
      · exact Or.inr ⟨x, listed, (given x listed _).mpr member⟩
    · exact Or.inl (by simpa using set)

theorem Accounted.defragmentable (all : Accounted f s) (vol : Volume s n)
    (plain : ∀ name ∈ keys (rootSlots s), name ≠ dot ∧ name ≠ dotDot) : Defragmentable s n := by
  refine ⟨vol, ⟨?_, ?_⟩, all.shut, fun y listed => (all.exact y listed).stored (vol.file y listed).1, fun name present => ?_⟩
  · rw [all.fileTable]
    exact List.nodup_nil
  · rw [all.fileTable]
    exact fun entry member => by cases member
  · obtain ⟨ok, flat, proper⟩ := all.named name present
    exact ⟨ok, flat, proper, (plain name present).1, (plain name present).2⟩

theorem Fresh.consecutive {size : BlockSector} (fresh : Fresh size s) : Consecutive (freeSectors s.freeMap) := by
  obtain ⟨count, test⟩ := freeMapInit_spec size
  have bits : freeBits (freeMapInit size) = List.range' 2 ((freeMapInit size).bitCnt - 2) := by
    rw [freeBits, List.filter_congr fun i _ => congrArg _ (test i)]
    rcases Nat.lt_or_ge (freeMapInit size).bitCnt 2 with few | many
    · have all : (freeMapInit size).bitCnt = 0 ∨ (freeMapInit size).bitCnt = 1 := by omega
      rcases all with none | one
      · rw [none]
        rfl
      · rw [one]
        rfl
    · obtain ⟨k, more⟩ := Nat.exists_eq_add_of_le many
      have rest : ∀ i ∈ List.range' 2 k, (!decide (i = 0 ∨ i = 1)) = true := by
        intro i member
        have := (List.mem_range'_1.mp member).1
        simp
        omega
      have split : List.range (2 + k) = List.range' 0 2 ++ List.range' 2 k := by
        rw [List.range_eq_range', List.range'_append_1]
      rw [more, split, List.filter_append, List.filter_eq_self.mpr rest, Nat.add_sub_cancel_left]
      rfl
  have whole : Consecutive (freeSectors (freeMapInit size)) := by
    refine ⟨2, ?_⟩
    have bound := (size - 1).isLt
    rw [freeSectors, List.map_map, List.length_map, bits, List.length_range']
    refine (List.map_congr_left fun i member => ?_).trans (List.map_id _)
    have inside := (List.mem_range'_1.mp member).2
    rw [Function.comp, BitVec.toNat_ofNat, Nat.mod_eq_of_lt (by omega)]
    rfl
  rw [fresh.free]
  rw [← List.take_append_drop ((createNeeds (bitmapFileSize (freeMapInit size) : Nat)).length + (createNeeds 36000).length)
    (freeSectors (freeMapInit size)), ← List.append_nil (List.drop _ _)] at whole
  exact whole.part

end space

/-- The states of a session in which nothing fails and every write goes to a file. -/
def CleanSession (cache : BufferCache) (size : BlockSector) (s : Fs BufferCache) : Prop :=
  Run (fun s op => FileOp.Regular op ∧ op.Succeeds s ∧ op.Orderly s.flat) FileOp.step (filesysInit cache size true) s

theorem CleanSession.accounted {cache : BufferCache} {size : BlockSector} {s : Fs BufferCache}
    (run : CleanSession cache size s) (went : formats cache size = true) :
    Accounted (filesysInit cache size true).flat s.flat := by
  refine Run.invariant (fun u => Accounted (filesysInit cache size true).flat u.flat) run ?_ fun u op all may => ?_
  · have fresh : Fresh size (filesysInit cache size true).flat := by
      rw [filesysInit_flat]
      exact filesysInit_fresh (by rw [formats_flat]; exact went)
    exact fresh.accounted
  · obtain ⟨regular, succeeds, orderly⟩ := may
    rw [FileOp.step_flat]
    exact all.step regular ((FileOp.succeeds_flat u op).mpr succeeds) orderly

section session

variable {cache : BufferCache} {size : BlockSector} {s : Fs BufferCache}

theorem formatted_createsA {size : Int} (sized : SizeOk size) (few : (createNeeds size).length < 5) :
    CleanSession (blankDisk 80) 80 (FileOp.step (formatted 80) (.create [97] size)) := by
  have general : ∀ s : Fs BufferCache, Fresh 80 s.flat → (filesysCreate s [97] size false).1 = true →
      FileOp.Succeeds s (.create [97] size) := by
    intro s fresh made
    exact ⟨made, fresh.room⟩
  exact .next _ .start ⟨show (0 : Byte) ∉ [97] by decide,
    general _ (formatted_fresh (by decide +kernel)) (formatted_makesA sized few), trivial⟩

end session

end ShellOs.FileSystem
