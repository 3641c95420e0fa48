import ShellOs.FileSystem.Naming
import ShellOs.Lib.Run

/-! The file system as a whole: the root directory and the files it lists, each with its own sectors, and what
creating, opening, writing, closing and removing files does to it. -/

namespace ShellOs.FileSystem
open Lib SlotMap

/-- The inodes that the root directory lists. -/
def rootFiles (s : FlatFs) : List BlockSector := (bindings (rootSlots s)).map Prod.snd

def owners (s : FlatFs) : List BlockSector := ROOT_DIR_SECTOR :: rootFiles s

theorem mem_rootFiles {s : FlatFs} {x : BlockSector} : x ∈ rootFiles s ↔ ∃ name, some (name, x) ∈ rootSlots s := by
  simp only [rootFiles, List.mem_map, mem_bindings, Prod.exists, exists_eq_right]

/-- A mounted file system that lists regular files, which share no sectors and are open at most once. -/
structure Volume (s : FlatFs) (n : Nat) : Prop where
  mounted : Mounted s n
  names : (keys (rootSlots s)).Nodup
  owners : (owners s).Nodup
  file : ∀ x ∈ rootFiles s, FileAt s x ∧ (s.inodeData x).isDir = false
  apart : ∀ x ∈ FileSystem.owners s, ∀ y ∈ FileSystem.owners s, x ≠ y → ∀ z ∈ sectorsOf s x, z ∉ sectorsOf s y
  single : ∀ z i, s.findInode z = some i → z ≠ FREE_MAP_SECTOR → z ≠ ROOT_DIR_SECTOR →
    z ∈ rootFiles s ∧ i.openCnt = 1 ∧ i.removed = false ∧ i.denyWriteCnt = 0

namespace Volume

variable {s t : FlatFs} {m n : Nat} {x y : BlockSector} {name : CString}

theorem owner (vol : Volume s n) (mine : x ∈ FileSystem.owners s) : FileAt s x := by
  rcases List.mem_cons.mp mine with rfl | listed
  · exact vol.mounted.dir.file
  · exact (vol.file x listed).1

theorem ne_root (vol : Volume s n) (listed : x ∈ rootFiles s) : x ≠ ROOT_DIR_SECTOR := fun same =>
  (List.nodup_cons.mp vol.owners).1 (same ▸ listed)

theorem foreign (vol : Volume s n) (mine : x ∈ FileSystem.owners s) :
    ∀ f, s.freeMapFile = some f → f.inode ≠ x := by
  obtain ⟨f, held, inode⟩ := vol.mounted.map
  intro g same
  rw [held] at same
  obtain rfl := Option.some.inj same
  rw [inode]
  exact (vol.owner mine).nonzero.symm

theorem removable (vol : Volume s n) (listed : x ∈ rootFiles s) : Removable s x := by
  obtain ⟨file, regular⟩ := vol.file x listed
  refine ⟨file, regular, ?_, ?_, vol.foreign (List.mem_cons_of_mem _ listed)⟩
  · exact vol.apart _ List.mem_cons_self x (List.mem_cons_of_mem _ listed) (vol.ne_root listed).symm
  · intro i held
    exact (vol.single x i held file.nonzero (vol.ne_root listed)).2.1

/-- An operation takes no sector in use from its owner, and gives none that was not to two. -/
structure Grew (mine : List BlockSector) (s t : FlatFs) : Prop where
  old : ∀ x ∈ FileSystem.owners t, ∀ z ∈ sectorsOf t x, Used s.freeMap z → x ∈ mine ∧ z ∈ sectorsOf s x
  new : ∀ x ∈ FileSystem.owners t, ∀ y ∈ FileSystem.owners t, x ≠ y → ∀ z ∈ sectorsOf t x, z ∈ sectorsOf t y →
    Used s.freeMap z

theorem Grew.disjoint {mine : List BlockSector} (grew : Grew mine s t)
    (apart : ∀ x ∈ mine, ∀ y ∈ mine, x ≠ y → ∀ z ∈ sectorsOf s x, z ∉ sectorsOf s y) :
    ∀ x ∈ FileSystem.owners t, ∀ y ∈ FileSystem.owners t, x ≠ y → ∀ z ∈ sectorsOf t x, z ∉ sectorsOf t y := by
  intro x mineX y mineY different z inX inY
  have used := grew.new x mineX y mineY different z inX inY
  obtain ⟨ownerX, oldX⟩ := grew.old x mineX z inX used
  obtain ⟨ownerY, oldY⟩ := grew.old y mineY z inY used
  exact apart x ownerX y ownerY different z oldX oldY

def Untouched (s t : FlatFs) (y : BlockSector) : Prop :=
  y ∈ rootFiles t ∧ contents t y = contents s y ∧ t.inodeLength y = s.inodeLength y

theorem Untouched.trans {u : FlatFs} (early : Untouched s t y) (late : Untouched t u y) : Untouched s u y :=
  ⟨late.1, late.2.1.trans early.2.1, late.2.2.trans early.2.2⟩

theorem isDir_disk (file : FileAt s x) : (InodeDisk.decode (s.cache x)).isDir = (s.inodeData x).isDir := by
  rw [InodeDisk.isDir, InodeDisk.isDir, file.extended.isDirWord]

theorem rehandled (vol : Volume s n) (same : Rehandled s t) (mounted : Mounted t n)
    (single : ∀ z i, t.findInode z = some i → z ≠ FREE_MAP_SECTOR → z ≠ ROOT_DIR_SECTOR →
      z ∈ rootFiles s ∧ i.openCnt = 1 ∧ i.removed = false ∧ i.denyWriteCnt = 0) :
    Volume t n ∧ rootSlots t = rootSlots s ∧ ∀ y ∈ rootFiles s, Untouched s t y := by
  have slots := (vol.mounted.dir.rehandled same).2
  have files : rootFiles t = rootFiles s := by rw [rootFiles, slots, rootFiles]
  have mine : FileSystem.owners t = FileSystem.owners s := by rw [FileSystem.owners, files, FileSystem.owners]
  have sub : ∀ x ∈ FileSystem.owners t, x ∈ FileSystem.owners s ∧ ∀ z ∈ sectorsOf t x, z ∈ sectorsOf s x := by
    intro x owner
    rw [mine] at owner
    exact ⟨owner, fun z inside => (same.file vol.mounted.dir.fine (vol.owner owner)).2.1.subset inside⟩
  have grew : Grew (FileSystem.owners s) s t := by
    refine ⟨fun x owner z inside _ => ⟨(sub x owner).1, (sub x owner).2 z inside⟩, fun x owner _ _ _ z inside _ => ?_⟩
    exact (vol.owner (sub x owner).1).own.used z ((sub x owner).2 z inside)
  refine ⟨⟨mounted, by rw [slots]; exact vol.names, by rw [mine]; exact vol.owners, fun x listed => ?_,
    grew.disjoint vol.apart, by rw [files]; exact single⟩, slots, fun y listed => ?_⟩
  · rw [files] at listed
    obtain ⟨file, regular⟩ := vol.file x listed
    refine ⟨(same.file vol.mounted.dir.fine file).1, ?_⟩
    rcases same.data x with kept | again
    · rw [kept]
      exact regular
    · rw [again, isDir_disk file]
      exact regular
  · obtain ⟨-, -, bytes, length⟩ := same.file vol.mounted.dir.fine (vol.file y listed).1
    exact ⟨by rw [files]; exact listed, bytes, length⟩

theorem bystander {touched : List BlockSector} (file : FileAt s y) (change : Change s t touched)
    (away : ∀ z ∈ sectorsOf s y, z ∉ touched) (same : t.findInode y = s.findInode y) :
    FileAt t y ∧ sectorsOf t y = sectorsOf s y ∧ contents t y = contents s y ∧
      t.inodeLength y = s.inodeLength y ∧ t.inodeData y = s.inodeData y := by
  have kept : ∀ z ∈ sectorsOf s y, t.cache z = s.cache z := fun z mine =>
    change.frame z (file.own_ne_zero mine) (file.own.used z mine) (away z mine) (file.own.apart z mine)
  have data := inodeData_of_find same (kept y List.mem_cons_self)
  obtain ⟨next, sectors, bytes, length⟩ := file.frame kept
    (fun z mine => change.used z (file.own.used z mine) (away z mine)) change.nodes data
  exact ⟨next, sectors, bytes, length, data⟩

/-- The data of a file has been written, and it may have taken sectors, or others have for it. -/
structure Alters (s t : FlatFs) (x : BlockSector) (new : List BlockSector) : Prop where
  took : Took s t new (sectorsOf s x)
  handles : SameHandles s t x
  isDirWord : (t.inodeData x).isDirWord = (s.inodeData x).isDirWord
  file : FileAt t x
  sectors : ∀ z ∈ sectorsOf t x, z ∈ sectorsOf s x ∨ z ∈ new

theorem alters (vol : Volume s n) (listed : x ∈ rootFiles s) {new : List BlockSector} (effect : Alters s t x new) :
    Volume t n ∧ rootSlots t = rootSlots s ∧ ∀ y ∈ rootFiles s, y ≠ x → Untouched s t y := by
  have fine := vol.mounted.dir.fine
  have mineX := List.mem_cons_of_mem ROOT_DIR_SECTOR listed
  have notRoot := vol.ne_root listed
  have change := effect.took.change fine
  have others : ∀ y ∈ FileSystem.owners s, y ≠ x → FileAt t y ∧ sectorsOf t y = sectorsOf s y ∧
      contents t y = contents s y ∧ t.inodeLength y = s.inodeLength y ∧ t.inodeData y = s.inodeData y :=
    fun y mine different => bystander (vol.owner mine) change
      (fun z inside => vol.apart y mine x mineX different z inside) (effect.handles.others y different)
  obtain ⟨-, -, -, -, dataRoot⟩ := others ROOT_DIR_SECTOR List.mem_cons_self notRoot.symm
  obtain ⟨ok, slots, -⟩ := vol.mounted.dir.change change
    (fun z inside => vol.apart _ List.mem_cons_self x mineX notRoot.symm z inside) (Or.inl dataRoot)
    ((deny_of_find (effect.handles.others _ notRoot.symm)).trans vol.mounted.dir.writable)
  have files : rootFiles t = rootFiles s := by rw [rootFiles, slots, rootFiles]
  have mine : FileSystem.owners t = FileSystem.owners s := by rw [FileSystem.owners, files, FileSystem.owners]
  have cwd : t.cwd = s.cwd := by rw [effect.took.rest]
  have nodup : HandlesNodup t := by
    rw [HandlesNodup, effect.handles.sectors]
    exact vol.mounted.handle.nodup
  have mounted : Mounted t n := by
    refine ⟨ok, ?_, vol.mounted.handle.congr nodup (effect.handles.others _ notRoot.symm) cwd, fun z held => ?_⟩
    · rw [change.freeMapFile]
      exact vol.mounted.map
    · rw [effect.handles.listed] at held
      exact effect.took.keepsUsed z (vol.mounted.listed z held)
  have still : ∀ y ∈ FileSystem.owners t, y ≠ x → ∀ z ∈ sectorsOf t y, z ∈ sectorsOf s y := by
    intro y owner different z inside
    rw [mine] at owner
    rwa [(others y owner different).2.1] at inside
  have grew : Grew (FileSystem.owners s) s t := by
    refine ⟨fun y owner z inside used => ⟨by rwa [mine] at owner, ?_⟩, fun y ownerY w ownerW different z inY inW => ?_⟩
    · by_cases same : y = x
      · rw [same] at inside ⊢
        exact (effect.sectors z inside).resolve_right fun added => effect.took.new_not_used added used
      · exact still y owner same z inside
    · by_cases same : y = x
      · rw [mine] at ownerW
        have old := still w (by rwa [mine]) (same ▸ different.symm) z inW
        exact (vol.owner ownerW).own.used z old
      · have old := still y ownerY same z inY
        rw [mine] at ownerY
        exact (vol.owner ownerY).own.used z old
  refine ⟨⟨mounted, by rw [slots]; exact vol.names, by rw [mine]; exact vol.owners, fun y listedY => ?_,
    grew.disjoint vol.apart, fun z i held notMap away => ?_⟩, slots, fun y listedY different => ?_⟩
  · rw [files] at listedY
    by_cases same : y = x
    · rw [same, InodeDisk.isDir, effect.isDirWord]
      exact ⟨effect.file, (vol.file x listed).2⟩
    · obtain ⟨file, -, -, -, data⟩ := others y (List.mem_cons_of_mem _ listedY) same
      rw [data]
      exact ⟨file, (vol.file y listedY).2⟩
  · rw [files]
    by_cases same : z = x
    · obtain ⟨d, this⟩ := effect.handles.this
      rw [same, this] at held
      obtain ⟨j, before, rfl⟩ := Option.map_eq_some_iff.mp held
      rw [same]
      exact vol.single x j before (same ▸ notMap) notRoot
    · rw [effect.handles.others z same] at held
      exact vol.single z i held notMap away
  · obtain ⟨-, -, bytes, length, -⟩ := others y (List.mem_cons_of_mem _ listedY) different
    exact ⟨by rw [files]; exact listedY, bytes, length⟩

theorem writes (vol : Volume s n) (listed : x ∈ rootFiles s) {buffer : Nat → Byte} {k o : Nat} {r : Int × FlatFs}
    {new : List BlockSector} (effect : WriteEffect s x buffer k o r new) :
    Volume r.2 n ∧ rootSlots r.2 = rootSlots s ∧ ∀ y ∈ rootFiles s, y ≠ x → Untouched s r.2 y :=
  vol.alters listed ⟨effect.took, effect.handles, effect.isDirWord, effect.file, effect.sectors⟩

theorem root_grows {size : Int} {r : Bool × FlatFs} {new : List BlockSector} (mounted : Mounted s n)
    (creation : Creation s name size r new) {z : BlockSector} (inside : z ∈ sectorsOf r.2 ROOT_DIR_SECTOR)
    (used : Used s.freeMap z) : z ∈ sectorsOf s ROOT_DIR_SECTOR := by
  have spare : z ∉ new := by
    intro member
    rw [creation.taken] at member
    exact ((used_iff_not_free mounted.dir.fine.small).mp used).2 (List.mem_of_mem_take member)
  cases made : r.1 with
  | true =>
    obtain ⟨x, file, root, all, -, sub, -⟩ := creation.made made
    refine (sub z inside).resolve_right fun added => spare ?_
    rw [all]
    exact List.mem_cons_of_mem _ (List.mem_append_right _ added)
  | false =>
    exact ((creation.failed made).2.2 z inside).resolve_right fun added => spare (List.mem_of_mem_tail added)

theorem creates (vol : Volume s n) {size : Int} {r : Bool × FlatFs} {new : List BlockSector}
    (creation : Creation s name size r new) (proper : (0 : Byte) ∉ name) :
    (∃ m, Volume r.2 m) ∧ (∀ y ∈ rootFiles s, Untouched s r.2 y) ∧
      (r.1 = true → ∃ x, NewFile s r.2 name size x) ∧ (r.1 = false → rootSlots r.2 = rootSlots s) := by
  obtain ⟨m, mounted⟩ := creation.mounted
  have others : ∀ y ∈ rootFiles s, FileAt r.2 y ∧ sectorsOf r.2 y = sectorsOf s y ∧
      contents r.2 y = contents s y ∧ r.2.inodeLength y = s.inodeLength y ∧ r.2.inodeData y = s.inodeData y := by
    intro y listed
    have mine := List.mem_cons_of_mem ROOT_DIR_SECTOR listed
    exact bystander (vol.owner mine) creation.change
      (fun z inside => vol.apart y mine _ List.mem_cons_self (vol.ne_root listed) z inside)
      (creation.others y (vol.ne_root listed))
  have usedOld : ∀ y ∈ rootFiles s, ∀ z ∈ sectorsOf r.2 y, z ∈ sectorsOf s y ∧ Used s.freeMap z := by
    intro y listed z inside
    rw [(others y listed).2.1] at inside
    exact ⟨inside, (vol.file y listed).1.own.used z inside⟩
  have kept : ∀ z i, r.2.findInode z = some i → z ≠ FREE_MAP_SECTOR → z ≠ ROOT_DIR_SECTOR →
      z ∈ rootFiles s ∧ i.openCnt = 1 ∧ i.removed = false ∧ i.denyWriteCnt = 0 := by
    intro z i held notMap notRoot
    rw [creation.others z notRoot] at held
    exact vol.single z i held notMap notRoot
  cases made : r.1 with
  | true =>
    obtain ⟨x, created⟩ := creation.newFile vol.mounted made proper
    have perm : (bindings (rootSlots r.2)).Perm ((name, x) :: bindings (rootSlots s)) := by
      rw [created.slots]
      exact put_perm _ _
    have files : ∀ y, y ∈ rootFiles r.2 ↔ y = x ∨ y ∈ rootFiles s := fun y => by
      rw [rootFiles, (perm.map Prod.snd).mem_iff, List.map_cons, List.mem_cons]
      rfl
    have stranger : x ∉ FileSystem.owners s := fun mine =>
      created.fresh ((vol.owner mine).own.used x List.mem_cons_self)
    have grew : Grew (FileSystem.owners s) s r.2 := by
      refine ⟨fun y owner z inside used => ?_, fun y ownerY w ownerW different z inY inW => ?_⟩
      · rcases List.mem_cons.mp owner with rfl | listed
        · exact ⟨List.mem_cons_self, root_grows vol.mounted creation inside used⟩
        · rcases (files y).mp listed with rfl | old
          · exact absurd used (created.unused z inside)
          · exact ⟨List.mem_cons_of_mem _ old, (usedOld y old z inside).1⟩
      · rcases List.mem_cons.mp ownerY with rfl | listedY
        · rcases (files w).mp ((List.mem_cons.mp ownerW).resolve_left different.symm) with rfl | old
          · exact absurd inW (created.apart z inY)
          · exact (usedOld w old z inW).2
        · rcases (files y).mp listedY with rfl | oldY
          · rcases List.mem_cons.mp ownerW with rfl | listedW
            · exact absurd inY (created.apart z inW)
            · exact (usedOld w (((files w).mp listedW).resolve_left different.symm) z inW).2
          · exact (usedOld y oldY z inY).2
    refine ⟨⟨m, mounted, ?_, ?_, fun y listed => ?_, grew.disjoint vol.apart, fun z i held notMap notRoot => ?_⟩,
      fun y listed => ?_, fun _ => ⟨x, created⟩, (fun never => by cases never)⟩
    · exact (keys_perm perm).nodup_iff.mpr (List.nodup_cons.mpr ⟨created.absent, vol.names⟩)
    · obtain ⟨rootApart, distinct⟩ := List.nodup_cons.mp vol.owners
      refine List.nodup_cons.mpr ⟨fun listed => ?_, ?_⟩
      · rcases (files _).mp listed with same | old
        · exact stranger (same ▸ List.mem_cons_self)
        · exact rootApart old
      · exact (perm.map Prod.snd).nodup_iff.mpr (List.nodup_cons.mpr
          ⟨fun old => stranger (List.mem_cons_of_mem _ old), distinct⟩)
    · rcases (files y).mp listed with rfl | old
      · exact ⟨created.file, created.regular⟩
      · obtain ⟨file, -, -, -, data⟩ := others y old
        rw [data]
        exact ⟨file, (vol.file y old).2⟩
    · obtain ⟨old, facts⟩ := kept z i held notMap notRoot
      exact ⟨(files z).mpr (Or.inr old), facts⟩
    · obtain ⟨-, -, bytes, length, -⟩ := others y listed
      exact ⟨(files y).mpr (Or.inr listed), bytes, length⟩
  | false =>
    have slots := (creation.failed made).1
    have files : rootFiles r.2 = rootFiles s := by rw [rootFiles, slots, rootFiles]
    have mine : FileSystem.owners r.2 = FileSystem.owners s := by rw [FileSystem.owners, files, FileSystem.owners]
    have grew : Grew (FileSystem.owners s) s r.2 := by
      refine ⟨fun y owner z inside used => ?_, fun y ownerY w ownerW different z inY inW => ?_⟩
      · rw [mine] at owner
        refine ⟨owner, ?_⟩
        rcases List.mem_cons.mp owner with rfl | listed
        · exact root_grows vol.mounted creation inside used
        · exact (usedOld y listed z inside).1
      · rw [mine] at ownerY ownerW
        rcases List.mem_cons.mp ownerY with rfl | listedY
        · exact (usedOld w ((List.mem_cons.mp ownerW).resolve_left different.symm) z inW).2
        · exact (usedOld y listedY z inY).2
    refine ⟨⟨m, mounted, by rw [slots]; exact vol.names, by rw [mine]; exact vol.owners, fun y listed => ?_,
      grew.disjoint vol.apart, by rw [files]; exact kept⟩, fun y listed => ?_, (fun never => by cases never), fun _ => slots⟩
    · rw [files] at listed
      obtain ⟨file, -, -, -, data⟩ := others y listed
      rw [data]
      exact ⟨file, (vol.file y listed).2⟩
    · obtain ⟨-, -, bytes, length, -⟩ := others y listed
      exact ⟨by rw [files]; exact listed, bytes, length⟩

theorem removes (vol : Volume s n) {k : Nat} (slot : (rootSlots s)[k]? = some (some (name, x)))
    (unlinked : Unlinked s t x n k) :
    Volume t n ∧ (bindings (rootSlots s)).Perm ((name, x) :: bindings (rootSlots t)) ∧
      ∀ y ∈ rootFiles s, y ≠ x → Untouched s t y := by
  have listed : x ∈ rootFiles s := mem_rootFiles.mpr ⟨name, List.mem_of_getElem? slot⟩
  have mineX := List.mem_cons_of_mem ROOT_DIR_SECTOR listed
  have fileX := (vol.file x listed).1
  have perm : (bindings (rootSlots s)).Perm ((name, x) :: bindings (rootSlots t)) := by
    rw [unlinked.slots]
    exact bindings_clear slot
  have distinct := (perm.map Prod.snd).nodup_iff.mp (List.nodup_cons.mp vol.owners).2
  obtain ⟨goneX, distinctNext⟩ := List.nodup_cons.mp distinct
  have files : ∀ y, y ∈ rootFiles s ↔ y = x ∨ y ∈ rootFiles t := fun y => by
    rw [rootFiles, (perm.map Prod.snd).mem_iff, List.map_cons, List.mem_cons]
    rfl
  have away : ∀ y ∈ rootFiles s, y ≠ x → ∀ z ∈ sectorsOf s y,
      z ∉ sectorsOf s ROOT_DIR_SECTOR ++ sectorsOf s x := by
    intro y old different z inside member
    have mine := List.mem_cons_of_mem ROOT_DIR_SECTOR old
    rcases List.mem_append.mp member with root | theirs
    · exact vol.apart y mine _ List.mem_cons_self (vol.ne_root old) z inside root
    · exact vol.apart y mine x mineX different z inside theirs
  have others : ∀ y ∈ rootFiles s, y ≠ x → FileAt t y ∧ sectorsOf t y = sectorsOf s y ∧
      contents t y = contents s y ∧ t.inodeLength y = s.inodeLength y ∧ t.inodeData y = s.inodeData y :=
    fun y old different => bystander (vol.file y old).1 unlinked.change (away y old different)
      (unlinked.others y different (vol.ne_root old))
  have single : ∀ z i, t.findInode z = some i → z ≠ FREE_MAP_SECTOR → z ≠ ROOT_DIR_SECTOR →
      z ∈ rootFiles t ∧ i.openCnt = 1 ∧ i.removed = false ∧ i.denyWriteCnt = 0 := by
    intro z i held notMap notRoot
    have different : z ≠ x := fun same => by
      rw [same, unlinked.gone] at held
      cases held
    rw [unlinked.others z different notRoot] at held
    obtain ⟨old, facts⟩ := vol.single z i held notMap notRoot
    exact ⟨((files z).mp old).resolve_left different, facts⟩
  have mounted : Mounted t n := by
    refine ⟨unlinked.dir, ?_, unlinked.handle, fun z held => ?_⟩
    · rw [unlinked.change.freeMapFile]
      exact vol.mounted.map
    · by_cases root : z = ROOT_DIR_SECTOR
      · rw [root]
        exact unlinked.dir.file.own.used _ List.mem_cons_self
      · have different : z ≠ x := fun same => by
          rw [same, unlinked.gone] at held
          cases held
        rw [unlinked.others z different root] at held
        refine (unlinked.used z).mpr ⟨vol.mounted.listed z held, fun given => ?_⟩
        by_cases map : z = FREE_MAP_SECTOR
        · exact (fileX.releasable z given).1 map
        · obtain ⟨i, found⟩ := Option.isSome_iff_exists.mp held
          have old := (vol.single z i found map root).1
          exact away z old different z List.mem_cons_self
            (List.mem_append_right _ (fileX.givenBack_sub z given))
  have sub : ∀ y ∈ FileSystem.owners t, y ∈ FileSystem.owners s ∧ ∀ z ∈ sectorsOf t y, z ∈ sectorsOf s y := by
    intro y owner
    rcases List.mem_cons.mp owner with rfl | later
    · exact ⟨List.mem_cons_self, fun z inside => unlinked.root.subset inside⟩
    · have old := (files y).mpr (Or.inr later)
      refine ⟨List.mem_cons_of_mem _ old, fun z inside => ?_⟩
      rwa [(others y old fun same => goneX (same ▸ later)).2.1] at inside
  have grew : Grew (FileSystem.owners s) s t :=
    ⟨fun y owner z inside _ => ⟨(sub y owner).1, (sub y owner).2 z inside⟩, fun y owner _ _ _ z inside _ =>
      (vol.owner (sub y owner).1).own.used z ((sub y owner).2 z inside)⟩
  refine ⟨⟨mounted, ?_, ?_, fun y later => ?_, grew.disjoint vol.apart, single⟩, perm, fun y old different => ?_⟩
  · exact (List.nodup_cons.mp ((perm.map Prod.fst).nodup_iff.mp vol.names)).2
  · refine List.nodup_cons.mpr ⟨fun later => ?_, distinctNext⟩
    exact (List.nodup_cons.mp vol.owners).1 ((files _).mpr (Or.inr later))
  · have old := (files y).mpr (Or.inr later)
    obtain ⟨file, -, -, -, data⟩ := others y old fun same => goneX (same ▸ later)
    rw [data]
    exact ⟨file, (vol.file y old).2⟩
  · obtain ⟨-, -, bytes, length, -⟩ := others y old different
    exact ⟨((files y).mp old).resolve_left different, bytes, length⟩

theorem opens (vol : Volume s n) (listed : x ∈ rootFiles s) (opened : FileOpened s t x) :
    Volume t n ∧ rootSlots t = rootSlots s ∧ ∀ y ∈ rootFiles s, Untouched s t y := by
  have used := (vol.file x listed).1.own.used x List.mem_cons_self
  refine vol.rehandled opened.rehandled (opened.mounted vol.mounted used) fun z i held notMap notRoot => ?_
  by_cases same : z = x
  · subst same
    cases before : s.findInode z with
    | none =>
      obtain ⟨j, found, count, live, deny⟩ := opened.fresh before
      rw [found] at held
      obtain rfl := Option.some.inj held
      exact ⟨listed, count, live, deny⟩
    | some j =>
      rw [opened.kept j before] at held
      obtain rfl := Option.some.inj held
      exact vol.single z j before notMap notRoot
  · rw [opened.others z same notRoot] at held
    exact vol.single z i held notMap notRoot

theorem closes (vol : Volume s n) (listed : x ∈ rootFiles s) (closed : FileClosed s t x) :
    Volume t n ∧ rootSlots t = rootSlots s ∧ ∀ y ∈ rootFiles s, Untouched s t y := by
  have foreign := vol.foreign (List.mem_cons_of_mem _ listed)
  refine vol.rehandled (closed.rehandled foreign) (closed.mounted vol.mounted (vol.ne_root listed) foreign)
    fun z i held notMap notRoot => ?_
  by_cases same : z = x
  · rw [same, closed.gone] at held
    cases held
  · rw [closed.others z same] at held
    exact vol.single z i held notMap notRoot

end Volume

end ShellOs.FileSystem
