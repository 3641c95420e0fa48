import ShellOs.FileSystem.Change
import ShellOs.FileSystem.Filesys

/-! What `filesys_create` does: the sectors it goes through, when it goes well, and what is left behind
when it does not. -/

namespace ShellOs.FileSystem
open Lib BlockTree SlotMap

theorem inodeMissing_congr {v w : Disk} {d : InodeDisk} (same : ∀ x ∈ inodeInner v d, w x = v x) (n : Nat) :
    inodeMissing w d n = inodeMissing v d n := by
  have agree : ∀ j, j < 125 → SameTree v w d d j := by
    refine fun j small => ⟨rfl, fun x member k _ => ?_⟩
    simp only [table, same x (mem_forestInner.mpr ⟨j, small, member⟩)]
  simp only [inodeMissing]
  rw [missing_sameTree (l := 1) rfl (by omega) (agree 123 (by decide)),
    missing_sameTree (l := 2) rfl (by omega) (agree 124 (by decide))]

theorem writeNeeds_congr {s t : FlatFs} {x : BlockSector} (deny : t.inodeDenyWriteCnt x = s.inodeDenyWriteCnt x)
    (data : t.inodeData x = s.inodeData x) (same : ∀ z ∈ inodeInner s.cache (s.inodeData x), t.cache z = s.cache z)
    (fin : Nat) : writeNeeds t x fin = writeNeeds s x fin := by
  unfold writeNeeds fileLen Fs.inodeLength
  rw [deny, data, inodeMissing_congr same]

def SizeOk (size : Int) : Prop := 0 ≤ offsetOf size ∧ bytesToSectors (offsetOf size) ≤ MAX_SECTORS

instance (size : Int) : Decidable (SizeOk size) := inferInstanceAs (Decidable (_ ∧ _))

/-- The root directory has a free slot, or is not yet as long as a file can be. -/
def RootRoom (s : FlatFs) : Prop :=
  36 * (freeSlot (rootSlots s) + 1) + 36 ≤ fileLen s ROOT_DIR_SECTOR ∨
    bytesToSectors (36 * (freeSlot (rootSlots s) + 1) + 36 : Nat) ≤ MAX_SECTORS

/-- The sectors that `filesys_create` comes to ask for, in this order: the inode, the file, and what the
root directory has to grow by. -/
def createMissing (s : FlatFs) (name : CString) (size : Int) : List BlockKind :=
  .data :: (createNeeds size ++ if SizeOk size then addNeeds s name else [])

def CreateFits (s : FlatFs) (name : CString) (size : Int) : Prop :=
  SizeOk size ∧ NameOk name ∧ name ∉ keys (rootSlots s) ∧ RootRoom s ∧
    (createMissing s name size).length ≤ (freeSectors s.freeMap).length

theorem canWrite_root {s : FlatFs} (writable : s.inodeDenyWriteCnt ROOT_DIR_SECTOR = 0) :
    CanWrite s ROOT_DIR_SECTOR (36 * (freeSlot (rootSlots s) + 1) + 36) ↔ RootRoom s ∧
      (writeNeeds s ROOT_DIR_SECTOR (36 * (freeSlot (rootSlots s) + 1) + 36)).length ≤
        (freeSectors s.freeMap).length := by
  unfold CanWrite RootRoom
  constructor
  · rintro ⟨-, inside | ⟨few, enough⟩⟩
    · refine ⟨Or.inl inside, ?_⟩
      rw [writeNeeds, if_pos (Or.inr inside)]
      exact Nat.zero_le _
    · exact ⟨Or.inr few, enough⟩
  · rintro ⟨inside | few, enough⟩
    · exact ⟨writable, Or.inl inside⟩
    · exact ⟨writable, Or.inr ⟨few, enough⟩⟩

theorem taken_append {new₁ new₂ free rest : List BlockSector} {needs₁ needs₂ : List BlockKind}
    (all : free = new₁ ++ rest) (enough : new₁.length = needs₁.length) (take : new₂ = rest.take needs₂.length) :
    new₁ ++ new₂ = free.take (needs₁ ++ needs₂).length := by
  rw [all, List.length_append, ← enough, List.take_length_add_append, take]

theorem taken {new free rest : List BlockSector} {needs : List BlockKind} (all : free = new ++ rest)
    (enough : needs.length ≤ free.length → new.length = needs.length)
    (short : free.length < needs.length → rest = []) : new = free.take needs.length := by
  by_cases fits : needs.length ≤ free.length
  · rw [all, ← enough fits, List.take_left']
    rfl
  · have none := short (by omega)
    rw [List.take_of_length_le (by omega), all, none, List.append_nil]

/-- What has become of the inode sector `x` and the root directory between the allocation of `x` and its
release in `filesys_create`. -/
structure CreateAt (s : FlatFs) (name : CString) (x : BlockSector) (size : Int) (r : Bool × FlatFs)
    (file root : List BlockSector) : Prop where
  rest : r.2 = { s with cache := r.2.cache, freeMap := r.2.freeMap, openInodes := r.2.openInodes }
  change : Change s r.2 (x :: sectorsOf s ROOT_DIR_SECTOR)
  handles : SameHandles s r.2 ROOT_DIR_SECTOR
  dir : ∃ n, DirOk r.2 n
  free : freeSectors s.freeMap = (file ++ root) ++ freeSectors r.2.freeMap
  taken : file ++ root = (freeSectors s.freeMap).take (createMissing s name size).tail.length
  zero : r.2.cache 0 = if (createMissing s name size).tail[(freeSectors s.freeMap).length]? = some .index
    then zeros else s.cache 0
  rootSectors : ∀ z ∈ sectorsOf r.2 ROOT_DIR_SECTOR, z ∈ sectorsOf s ROOT_DIR_SECTOR ∨ z ∈ root
  made : r.1 = true → FileAt r.2 x ∧ (∀ z ∈ sectorsOf r.2 x, z = x ∨ z ∈ file) ∧
    (r.2.inodeData x).isDirWord = 0 ∧ r.2.inodeLength x = offsetOf size ∧
    contents r.2 x = List.replicate (offsetOf size).toNat 0 ∧
    ((0 : Byte) ∉ name → rootSlots r.2 = put (rootSlots s) (name, x))
  failed : r.1 = false → rootSlots r.2 = rootSlots s
  done : r.1 = true ↔ SizeOk size ∧ NameOk name ∧ name ∉ keys (rootSlots s) ∧ RootRoom s ∧
    (createMissing s name size).tail.length ≤ (freeSectors s.freeMap).length

section create

variable {s : FlatFs} {n : Nat} {dir : Dir} {x : BlockSector}

theorem Took.all {t : FlatFs} {new touched : List BlockSector} (took : Took s t new touched)
    (full : freeSectors t.freeMap = []) : new = freeSectors s.freeMap := by
  rw [took.free, full, List.append_nil]

theorem createAt_effect (ok : DirOk s n) (here : dir.inode = ROOT_DIR_SECTOR)
    (listed : (s.findInode ROOT_DIR_SECTOR).isSome)
    (foreign : ∀ f, s.freeMapFile = some f → f.inode ≠ ROOT_DIR_SECTOR) (nonzero : x ≠ 0)
    (used : Used s.freeMap x) (apart : x ∉ freeMapNodes s) (unlisted : s.findInode x = none)
    (own : x ∉ sectorsOf s ROOT_DIR_SECTOR) (name : CString) (size : Int) :
    ∃ file root, CreateAt s name x size (createAt s dir name x size false) file root := by
  obtain ⟨new, created⟩ := inodeCreate_effect ok.fine nonzero used apart unlisted size false
  unfold createAt
  generalize inodeCreate s x size false = c at created
  have data : c.2.inodeData ROOT_DIR_SECTOR = s.inodeData ROOT_DIR_SECTOR :=
    Fs.inodeData_of_listed listed created.opened
  have deny : c.2.inodeDenyWriteCnt ROOT_DIR_SECTOR = s.inodeDenyWriteCnt ROOT_DIR_SECTOR := by
    unfold Fs.inodeDenyWriteCnt Fs.findInode
    rw [created.opened]
  have away : ∀ z ∈ sectorsOf s ROOT_DIR_SECTOR, z ∉ [x] := fun z member same =>
    own (List.mem_singleton.mp same ▸ member)
  obtain ⟨rootFile, rootSectors, rootBytes, rootLength⟩ := ok.file.kept ok.fine created.took away data
  obtain ⟨mid, slots⟩ := ok.same created.took.ok rootFile rootLength rootBytes (deny.trans ok.writable)
  have tail : (createMissing s name size).tail =
      createNeeds size ++ if SizeOk size then addNeeds s name else [] := rfl
  have handles : SameHandles s c.2 ROOT_DIR_SECTOR := SameHandles.refl _ created.opened
  simp only
  cases good : c.1 with
  | false =>
    simp only [Bool.false_eq_true, if_false]
    have cannot : ¬CanCreate s size := fun can => by
      rw [created.done.mpr can] at good
      cases good
    refine ⟨new, [], created.took.rest, ((created.took.change ok.fine).touch fun z member => ?_), handles, ⟨n, mid⟩,
      by rw [List.append_nil]; exact created.took.free, ?_, ?_, fun z member => ?_, (fun never => by cases never),
      fun _ => slots, ⟨(fun never => by cases never), fun all => ?_⟩⟩
    · rw [List.mem_singleton.mp member]
      exact List.mem_cons_self
    · rw [List.append_nil, tail]
      by_cases enough : (createNeeds size).length ≤ (freeSectors s.freeMap).length
      · rw [if_neg fun fits => cannot ⟨fits.1, fits.2, enough⟩, List.append_nil]
        exact taken created.took.free (fun _ => (created.enough enough).1) fun less => by omega
      · rw [created.took.all (created.short (by omega)).1, List.take_of_length_le]
        rw [List.length_append]
        omega
    · rw [tail]
      by_cases enough : (createNeeds size).length ≤ (freeSectors s.freeMap).length
      · have bad : ¬SizeOk size := fun fits => cannot ⟨fits.1, fits.2, enough⟩
        rw [if_neg bad, List.append_nil, List.getElem?_eq_none enough, if_neg (by simp)]
        exact (created.enough enough).2
      · rw [List.getElem?_append_left (by omega)]
        exact (created.short (by omega)).2
    · exact Or.inl (rootSectors ▸ member)
    · refine absurd ⟨all.1.1, all.1.2, ?_⟩ cannot
      have most := all.2.2.2.2
      rw [tail, List.length_append] at most
      omega
  | true =>
    obtain ⟨nonneg, few, enough⟩ := created.done.mp good
    have fits : SizeOk size := ⟨nonneg, few⟩
    rw [if_pos fits] at tail
    obtain ⟨fileAt, fileSectors, isDirWord, fileLength, fileBytes⟩ := created.file good
    obtain ⟨count, zero⟩ := created.enough enough
    have needs : addNeeds c.2 name = addNeeds s name := by
      unfold addNeeds
      rw [slots, writeNeeds_congr deny data]
      intro z member
      have inNodes : z ∈ inodeNodes s.cache (s.inodeData ROOT_DIR_SECTOR) := inodeInner_sub member
      have inSectors : z ∈ sectorsOf s ROOT_DIR_SECTOR := List.mem_cons_of_mem _ inNodes
      refine created.took.frame_used ok.fine (fun same => ?_) (ok.file.own.used z inSectors)
        (ok.file.own.apart z inSectors) (away z inSectors)
      exact zero_not_mem_inodeNodes _ _ (same ▸ inNodes)
    obtain ⟨more, added⟩ := dirAdd_effect mid here (by rw [handles.listed]; exact listed)
      (by rw [created.took.freeMapFile]; exact foreign) name x
    have left : (freeSectors s.freeMap).length = new.length + (freeSectors c.2.freeMap).length := by
      rw [created.took.free, List.length_append]
    have split : (createNeeds size ++ addNeeds s name)[(freeSectors s.freeMap).length]? =
        (addNeeds s name)[(freeSectors c.2.freeMap).length]? := by
      rw [List.getElem?_append_right enough, left, count, Nat.add_sub_cancel_left]
    simp only [if_true]
    generalize dirAdd c.2 dir name x false = r at added
    have fileApart : ∀ z ∈ sectorsOf c.2 x, z ∉ sectorsOf c.2 ROOT_DIR_SECTOR := by
      intro z member inRoot
      rw [rootSectors] at inRoot
      rcases fileSectors z member with rfl | fresh
      · exact own inRoot
      · exact created.took.new_not_used fresh (ok.file.own.used z inRoot)
    have different : x ≠ ROOT_DIR_SECTOR := fun same => own (same ▸ List.mem_cons_self)
    have fileData : r.2.inodeData x = c.2.inodeData x := by
      have disk : r.2.cache x = c.2.cache x := added.took.frame_used created.took.ok nonzero
        (fileAt.own.used x List.mem_cons_self) (fileAt.own.apart x List.mem_cons_self)
        (fileApart x List.mem_cons_self)
      unfold Fs.inodeData
      rw [added.handles.others x different]
      cases c.2.findInode x with
      | none => exact congrArg InodeDisk.decode disk
      | some i => rfl
    obtain ⟨fileNext, sectorsNext, bytesNext, lengthNext⟩ := fileAt.kept created.took.ok added.took fileApart fileData
    refine ⟨new, more, ?_, ?_, ?_, added.dir, ?_, ?_, ?_, ?_, fun made => ⟨fileNext, ?_, ?_, ?_, ?_, fun proper => ?_⟩,
      fun failed => (added.failed failed).trans slots, ?_⟩
    · rw [added.took.rest, created.took.rest]
    · have early : Change s c.2 (x :: sectorsOf s ROOT_DIR_SECTOR) :=
        (created.took.change ok.fine).touch fun z member => by
          rw [List.mem_singleton.mp member]
          exact List.mem_cons_self
      refine early.trans (added.took.change created.took.ok) (fun z member => member) ?_
      · intro z member _
        rw [rootSectors] at member
        exact List.mem_cons_of_mem _ member
    · refine ⟨fun z other => (added.handles.others z other).trans (handles.others z other), ?_,
        added.handles.sectors.trans handles.sectors⟩
      obtain ⟨d, found⟩ := added.handles.this
      refine ⟨d, found.trans ?_⟩
      unfold Fs.findInode
      rw [created.opened]
    · rw [created.took.free, added.took.free, List.append_assoc]
    · rw [tail]
      refine taken_append created.took.free count ?_
      rw [← needs]
      exact taken added.took.free (fun less => (added.enough less).1) fun less => (added.short less).1
    · rw [tail, split, ← needs]
      by_cases room : (addNeeds c.2 name).length ≤ (freeSectors c.2.freeMap).length
      · rw [List.getElem?_eq_none room, if_neg (by simp), (added.enough room).2, zero]
      · rw [(added.short (by omega)).2, zero]
    · intro z member
      rw [← rootSectors]
      exact added.sectors z member
    · rw [sectorsNext]
      exact fileSectors
    · rw [fileData]
      exact isDirWord
    · rw [lengthNext]
      exact fileLength
    · rw [bytesNext]
      exact fileBytes
    · rw [added.slots made proper, slots]
    · have len : fileLen c.2 ROOT_DIR_SECTOR = fileLen s ROOT_DIR_SECTOR := by rw [fileLen, rootLength]; rfl
      have room : RootRoom c.2 ↔ RootRoom s := by rw [RootRoom, RootRoom, slots, len]
      rw [added.done, canWrite_root (deny.trans ok.writable), room, tail, List.length_append, ← needs]
      constructor
      · rintro ⟨valid, absent, can, most⟩
        refine ⟨fits, valid, slots ▸ absent, can, ?_⟩
        rw [addNeeds, if_pos ⟨valid, absent⟩]
        omega
      · rintro ⟨-, valid, absent, can, most⟩
        rw [← slots] at absent
        refine ⟨valid, absent, can, ?_⟩
        rw [addNeeds, if_pos ⟨valid, absent⟩] at most
        omega

end create

structure Mounted (s : FlatFs) (n : Nat) : Prop where
  dir : DirOk s n
  map : ∃ f, s.freeMapFile = some f ∧ f.inode = FREE_MAP_SECTOR
  handle : RootHandle s
  listed : ∀ z, (s.findInode z).isSome → Used s.freeMap z

theorem Mounted.foreign {s : FlatFs} {n : Nat} (mounted : Mounted s n) :
    ∀ f, s.freeMapFile = some f → f.inode ≠ ROOT_DIR_SECTOR := by
  obtain ⟨f, opened, inode⟩ := mounted.map
  intro g same
  rw [opened] at same
  obtain rfl := Option.some.inj same
  rw [inode]
  decide

/-- What `filesys_create` does with the file name it finds in the path; `new` are the sectors it takes. -/
structure Creation (s : FlatFs) (name : CString) (size : Int) (r : Bool × FlatFs) (new : List BlockSector) :
    Prop where
  change : Change s r.2 (sectorsOf s ROOT_DIR_SECTOR)
  mounted : ∃ n, Mounted r.2 n
  others : ∀ z, z ≠ ROOT_DIR_SECTOR → r.2.findInode z = s.findInode z
  shut : Shut s → Shut r.2
  fileTable : r.2.fileTable = s.fileTable
  freed : r.2.usedFreed = s.usedFreed
  taken : new = (freeSectors s.freeMap).take (createMissing s name size).length
  zero : r.2.cache 0 = if (createMissing s name size)[(freeSectors s.freeMap).length]? = some .index
    then zeros else s.cache 0
  made : r.1 = true → ∃ x file root, new = x :: (file ++ root) ∧ freeSectors s.freeMap = new ++ freeSectors r.2.freeMap ∧
    (∀ z ∈ sectorsOf r.2 ROOT_DIR_SECTOR, z ∈ sectorsOf s ROOT_DIR_SECTOR ∨ z ∈ root) ∧
    FileAt r.2 x ∧ (∀ z ∈ sectorsOf r.2 x, z = x ∨ z ∈ file) ∧
    (r.2.inodeData x).isDirWord = 0 ∧ r.2.inodeLength x = offsetOf size ∧
    contents r.2 x = List.replicate (offsetOf size).toNat 0 ∧
    ((0 : Byte) ∉ name → rootSlots r.2 = put (rootSlots s) (name, x))
  failed : r.1 = false → rootSlots r.2 = rootSlots s ∧
    (∀ z, Used r.2.freeMap z ↔ Used s.freeMap z ∨ z ∈ new.tail) ∧
    ∀ z ∈ sectorsOf r.2 ROOT_DIR_SECTOR, z ∈ sectorsOf s ROOT_DIR_SECTOR ∨ z ∈ new.tail
  done : r.1 = true ↔ CreateFits s name size

/-- What `filesys_create` does between opening the root directory and closing it. -/
def createIn (s : FlatFs) (dir : Dir) (name : CString) (size : Int) : Bool × FlatFs :=
  let sector := freeMapAllocate s 1
  let inodeSector := sector.1.getD 0
  let r :=
    if sector.1.isSome then createAt sector.2 dir name inodeSector size false
    else (false, sector.2)
  (r.1, if r.1 = false ∧ inodeSector ≠ 0 then freeMapRelease r.2 inodeSector 1 else r.2)

theorem filesysCreate_eq (s : FlatFs) (path : CString) (size : Int) : filesysCreate s path size false =
    let dir := dirOpenRoot s
    let r := createIn dir.2 dir.1 (splitPathFilename path).2 size
    (r.1, dirClose r.2 dir.1) := rfl

theorem DirOk.took {s t : FlatFs} {n : Nat} {new touched : List BlockSector} (ok : DirOk s n)
    (listed : (s.findInode ROOT_DIR_SECTOR).isSome) (took : Took s t new touched)
    (away : ∀ z ∈ sectorsOf s ROOT_DIR_SECTOR, z ∉ touched) (opened : t.openInodes = s.openInodes) :
    DirOk t n ∧ rootSlots t = rootSlots s ∧ sectorsOf t ROOT_DIR_SECTOR = sectorsOf s ROOT_DIR_SECTOR ∧
      fileLen t ROOT_DIR_SECTOR = fileLen s ROOT_DIR_SECTOR ∧ ∀ name, addNeeds t name = addNeeds s name := by
  have data : t.inodeData ROOT_DIR_SECTOR = s.inodeData ROOT_DIR_SECTOR := Fs.inodeData_of_listed listed opened
  have deny : t.inodeDenyWriteCnt ROOT_DIR_SECTOR = s.inodeDenyWriteCnt ROOT_DIR_SECTOR := by
    unfold Fs.inodeDenyWriteCnt Fs.findInode
    rw [opened]
  obtain ⟨file, sectors, bytes, length⟩ := ok.file.kept ok.fine took away data
  obtain ⟨next, slots⟩ := ok.same took.ok file length bytes (deny.trans ok.writable)
  refine ⟨next, slots, sectors, by rw [fileLen, length]; rfl, fun name => ?_⟩
  unfold addNeeds
  rw [slots, writeNeeds_congr deny data]
  intro z member
  have inNodes : z ∈ inodeNodes s.cache (s.inodeData ROOT_DIR_SECTOR) := inodeInner_sub member
  have inSectors : z ∈ sectorsOf s ROOT_DIR_SECTOR := List.mem_cons_of_mem _ inNodes
  refine took.frame_used ok.fine (fun same => ?_) (ok.file.own.used z inSectors)
    (ok.file.own.apart z inSectors) (away z inSectors)
  exact zero_not_mem_inodeNodes _ _ (same ▸ inNodes)

/-- The root directory is open, and `createIn` has run. -/
structure CreateIn (s : FlatFs) (name : CString) (size : Int) (r : Bool × FlatFs) (new : List BlockSector) :
    Prop where
  rest : r.2 = { s with cache := r.2.cache, freeMap := r.2.freeMap, openInodes := r.2.openInodes }
  change : Change s r.2 (sectorsOf s ROOT_DIR_SECTOR)
  handles : SameHandles s r.2 ROOT_DIR_SECTOR
  dir : ∃ n, DirOk r.2 n
  taken : new = (freeSectors s.freeMap).take (createMissing s name size).length
  zero : r.2.cache 0 = if (createMissing s name size)[(freeSectors s.freeMap).length]? = some .index
    then zeros else s.cache 0
  made : r.1 = true → ∃ x file root, new = x :: (file ++ root) ∧ freeSectors s.freeMap = new ++ freeSectors r.2.freeMap ∧
    (∀ z ∈ sectorsOf r.2 ROOT_DIR_SECTOR, z ∈ sectorsOf s ROOT_DIR_SECTOR ∨ z ∈ root) ∧
    FileAt r.2 x ∧ (∀ z ∈ sectorsOf r.2 x, z = x ∨ z ∈ file) ∧
    (r.2.inodeData x).isDirWord = 0 ∧ r.2.inodeLength x = offsetOf size ∧
    contents r.2 x = List.replicate (offsetOf size).toNat 0 ∧
    ((0 : Byte) ∉ name → rootSlots r.2 = put (rootSlots s) (name, x))
  failed : r.1 = false → rootSlots r.2 = rootSlots s ∧
    (∀ z, Used r.2.freeMap z ↔ Used s.freeMap z ∨ z ∈ new.tail) ∧
    ∀ z ∈ sectorsOf r.2 ROOT_DIR_SECTOR, z ∈ sectorsOf s ROOT_DIR_SECTOR ∨ z ∈ new.tail
  done : r.1 = true ↔ CreateFits s name size

theorem createIn_effect {s : FlatFs} {n : Nat} {dir : Dir} (ok : DirOk s n) (here : dir.inode = ROOT_DIR_SECTOR)
    (listed : (s.findInode ROOT_DIR_SECTOR).isSome)
    (foreign : ∀ f, s.freeMapFile = some f → f.inode ≠ ROOT_DIR_SECTOR)
    (open' : ∀ z, (s.findInode z).isSome → Used s.freeMap z) (name : CString) (size : Int) :
    ∃ new, CreateIn s name size (createIn s dir name size) new := by
  obtain ⟨exhausted, takes⟩ := freeMapAllocate_allocates s ok.fine
  unfold createIn
  cases free : freeSectors s.freeMap with
  | nil =>
    have run : freeMapAllocate s 1 = (none, s) := exhausted free
    rw [run]
    simp only [Option.isSome_none, Bool.false_eq_true, if_false, Option.getD_none, ne_eq, not_true, and_false]
    refine ⟨[], rfl, ((Took.refl ok.fine).change ok.fine).touch (by simp), SameHandles.refl _ rfl, ⟨n, ok⟩, ?_, ?_,
      (fun never => by cases never), fun _ => ⟨rfl, fun z => by simp, fun z member => Or.inl member⟩,
      ⟨(fun never => by cases never), fun fits => ?_⟩⟩
    · rw [free, List.take_nil]
    · rw [free]
      exact (if_neg (by simp [createMissing])).symm
    · have most := fits.2.2.2.2
      rw [free] at most
      simp [createMissing] at most
  | cons x rest =>
    obtain ⟨t, run, took, zero, opened⟩ := takes x rest free
    have alone : freeMapAllocate s 1 = (some x, t) := run
    rw [alone]
    simp only [Option.isSome_some, if_true, Option.getD_some]
    have fresh : x ∉ sectorsOf s ROOT_DIR_SECTOR := fun member =>
      took.new_not_used (List.mem_singleton_self x) (ok.file.own.used x member)
    have nonzero := took.new_ne_zero ok.fine (List.mem_singleton_self x)
    have apart := took.new_not_freeMapNodes ok.fine (List.mem_singleton_self x)
    have same : SameHandles s t ROOT_DIR_SECTOR := SameHandles.refl _ opened
    obtain ⟨mid, slots, sectors, len, needs⟩ := ok.took listed took (by simp) opened
    have unlisted : t.findInode x = none := by
      rw [← Option.not_isSome_iff_eq_none]
      intro held
      unfold Fs.findInode at held
      rw [opened] at held
      exact took.new_not_used (List.mem_singleton_self x) (open' x held)
    have left : rest = freeSectors t.freeMap := by
      have split := took.free
      rw [free] at split
      exact (List.cons.inj split).2
    have missing : createMissing t name size = createMissing s name size := by
      rw [createMissing, needs]
      rfl
    have tail : createMissing s name size = .data :: (createMissing s name size).tail := rfl
    obtain ⟨file, root, effect⟩ := createAt_effect mid here (by rw [same.listed]; exact listed)
      (by rw [took.freeMapFile]; exact foreign) nonzero (took.new_used (List.mem_singleton_self x))
      (by rw [took.nodes]; exact apart) unlisted (sectors.symm ▸ fresh) name size
    generalize createAt t dir name x size false = r at effect
    have change : Change s r.2 (sectorsOf s ROOT_DIR_SECTOR) := by
      refine ((took.change ok.fine).touch (by simp)).trans effect.change (fun z member => member) ?_
      intro z member used
      rw [sectors] at member
      rcases List.mem_cons.mp member with rfl | inRoot
      · exact absurd used (took.new_not_used (List.mem_singleton_self z))
      · exact inRoot
    have handles : SameHandles s r.2 ROOT_DIR_SECTOR := by
      refine ⟨fun z other => (effect.handles.others z other).trans (same.others z other), ?_,
        effect.handles.sectors.trans same.sectors⟩
      obtain ⟨d, found⟩ := effect.handles.this
      refine ⟨d, found.trans ?_⟩
      unfold Fs.findInode
      rw [opened]
    have whole : x :: (file ++ root) = (freeSectors s.freeMap).take (createMissing s name size).length := by
      rw [tail, free, List.length_cons, List.take_succ_cons, left, ← missing, ← effect.taken]
    have sector0 : r.2.cache 0 = if (createMissing s name size)[(freeSectors s.freeMap).length]? = some .index
        then zeros else s.cache 0 := by
      rw [effect.zero, zero, missing, tail, free, List.length_cons, List.getElem?_cons_succ, left, List.tail_cons]
    have all : freeSectors s.freeMap = (x :: (file ++ root)) ++ freeSectors r.2.freeMap := by
      rw [free, left, effect.free, List.cons_append]
    have nodup : (x :: (file ++ root)).Nodup := by
      have every := freeSectors_nodup ok.fine.small
      rw [all] at every
      exact every.of_append_left
    have fits : r.1 = true ↔ CreateFits s name size := by
      rw [effect.done, CreateFits, missing, slots, RootRoom, RootRoom, slots, len, free, tail, List.length_cons,
        List.length_cons, List.tail_cons, left, Nat.add_le_add_iff_right]
    have rest' : r.2 = { s with cache := r.2.cache, freeMap := r.2.freeMap, openInodes := r.2.openInodes } := by
      rw [effect.rest, took.rest]
    refine ⟨x :: (file ++ root), ?_⟩
    cases good : r.1 with
    | true =>
      simp only [Bool.true_eq_false, false_and, if_false]
      obtain ⟨fileAt, fileSectors, isDirWord, length, bytes, put⟩ := effect.made good
      refine ⟨rest', change, handles, effect.dir, whole, sector0, fun _ => ⟨x, file, root, rfl, all, fun z member => ?_,
        fileAt, fileSectors, isDirWord, length, bytes, fun proper => ?_⟩, (fun never => by cases never), good ▸ fits⟩
      · rw [← sectors]
        exact effect.rootSectors z member
      · rw [put proper, slots]
    | false =>
      simp only [true_and, if_pos nonzero]
      have released := freeMapRelease_spec effect.change.ok nonzero
        (by rw [effect.change.nodes, took.nodes]; exact apart)
      have rootApart : ∀ z ∈ sectorsOf r.2 ROOT_DIR_SECTOR, z ∉ [x] := by
        intro z member same
        rw [List.mem_singleton.mp same] at member
        rcases effect.rootSectors x member with inRoot | inNew
        · exact fresh (sectors ▸ inRoot)
        · exact (List.nodup_cons.mp nodup).1 (List.mem_append_right _ inNew)
      obtain ⟨m, last⟩ := effect.dir
      have listedLast : (r.2.findInode ROOT_DIR_SECTOR).isSome := by
        rw [handles.listed]
        exact listed
      obtain ⟨next, slotsNext, sub⟩ := last.change (released.change effect.change.ok) rootApart
        (Or.inl (Fs.inodeData_of_listed listedLast released.opened))
        ((deny_of_opened released.opened _).trans last.writable)
      generalize freeMapRelease r.2 x 1 = u at *
      refine ⟨?_, ?_, ?_, ⟨m, next⟩, whole, ?_, (fun never => by cases never), fun _ => ⟨?_, fun z => ?_,
        fun z member => ?_⟩, good ▸ fits⟩
      · simp only [released.opened]
        conv_lhs => rw [released.rest, rest']
      · refine change.trans (released.change effect.change.ok) (fun z member => member) fun z member used => ?_
        rw [List.mem_singleton.mp member] at used
        exact absurd used (took.new_not_used (List.mem_singleton_self x))
      · refine ⟨fun z other => ?_, ?_, ?_⟩
        · unfold Fs.findInode
          rw [released.opened]
          exact handles.others z other
        · unfold Fs.findInode
          rw [released.opened]
          exact handles.this
        · rw [released.opened]
          exact handles.sectors
      · rw [released.elsewhere effect.change.ok (zero_not_mem_freeMapNodes _)]
        exact sector0
      · rw [slotsNext, effect.failed good, slots]
      · rw [released.used, used_of_free ok.fine.small change.size all, List.mem_singleton, List.tail_cons,
          List.mem_cons]
        constructor
        · rintro ⟨used | same | taken, other⟩
          · exact Or.inl used
          · exact absurd same other
          · exact Or.inr taken
        · rintro (used | taken)
          · refine ⟨Or.inl used, ?_⟩
            rintro rfl
            exact took.new_not_used (List.mem_singleton_self z) used
          · refine ⟨Or.inr (Or.inr taken), ?_⟩
            rintro rfl
            exact (List.nodup_cons.mp nodup).1 taken
      · rcases effect.rootSectors z (sub.subset member) with inRoot | inNew
        · exact Or.inl (sectors ▸ inRoot)
        · exact Or.inr (List.mem_append_right _ inNew)

theorem filesysCreate_effect {s : FlatFs} {n : Nat} (mounted : Mounted s n) (path : CString) (size : Int) :
    ∃ new, Creation s (splitPathFilename path).2 size (filesysCreate s path size false) new := by
  have opened := dirOpenRoot_spec mounted.handle
  have rehandled := opened.rehandled mounted.dir.fine
  obtain ⟨ok, slots⟩ := mounted.dir.rehandled rehandled
  rw [filesysCreate_eq]
  simp only
  generalize (splitPathFilename path).2 = name
  generalize (dirOpenRoot s).2 = t at *
  generalize (dirOpenRoot s).1 = dir at *
  have foreign : ∀ f, t.freeMapFile = some f → f.inode ≠ ROOT_DIR_SECTOR := by
    rw [rehandled.freeMapFile]
    exact mounted.foreign
  have rootSectors : sectorsOf t ROOT_DIR_SECTOR = sectorsOf s ROOT_DIR_SECTOR := by
    rw [sectorsOf, sectorsOf, rehandled.cache, opened.data]
  have rootLen : fileLen t ROOT_DIR_SECTOR = fileLen s ROOT_DIR_SECTOR := by
    rw [fileLen, fileLen, Fs.inodeLength, Fs.inodeLength, opened.data]
  have needs : addNeeds t name = addNeeds s name := by
    unfold addNeeds
    rw [slots, writeNeeds_congr (opened.deny _) (opened.data _) fun z _ => by rw [rehandled.cache]]
  have missing : createMissing t name size = createMissing s name size := by
    rw [createMissing, needs]
    rfl
  have open' : ∀ z, (t.findInode z).isSome → Used t.freeMap z := by
    intro z held
    rw [rehandled.bits]
    by_cases root : z = ROOT_DIR_SECTOR
    · rw [root]
      exact mounted.dir.file.own.used _ List.mem_cons_self
    · rw [opened.others z root] at held
      exact mounted.listed z held
  obtain ⟨new, effect⟩ := createIn_effect ok opened.dir.1 opened.dir.2.2 foreign open' name size
  generalize createIn t dir name size = r at effect
  have cwd : r.2.cwd = t.cwd := by rw [effect.rest]
  have foreignNext : ∀ f, r.2.freeMapFile = some f → f.inode ≠ ROOT_DIR_SECTOR := by
    rw [effect.change.freeMapFile]
    exact foreign
  obtain ⟨closed, others, shut⟩ := opened.close effect.handles cwd foreignNext
  obtain ⟨m, last⟩ := effect.dir
  obtain ⟨next, slotsNext⟩ := last.rehandled closed.rehandled
  obtain ⟨-, subNext, -, -⟩ := closed.rehandled.file last.fine last.file
  have keeps : KeepsUsed s.freeMap r.2.freeMap := by
    intro z used
    rw [← rehandled.bits] at used
    cases good : r.1 with
    | true =>
      obtain ⟨x, file, root, -, all, -⟩ := effect.made good
      exact (used_of_free ok.fine.small effect.change.size all z).mpr (Or.inl used)
    | false => exact ((effect.failed good).2.1 z).mpr (Or.inl used)
  refine ⟨new, ?_, ⟨m, next, ?_, closed.handle, fun z held => ?_⟩, others, shut, ?_, ?_, ?_, ?_, fun made => ?_,
    fun failed => ?_, ?_⟩
  · have early : Change s r.2 (sectorsOf s ROOT_DIR_SECTOR) :=
      (rehandled.change mounted.dir.fine).trans effect.change (by simp) fun z member _ => rootSectors ▸ member
    exact early.trans (closed.rehandled.change last.fine) (fun z member => member) (by simp)
  · obtain ⟨f, held, inode⟩ := mounted.map
    exact ⟨f, by rw [closed.rehandled.freeMapFile, effect.change.freeMapFile, rehandled.freeMapFile, held], inode⟩
  · rw [closed.rehandled.bits]
    by_cases root : z = ROOT_DIR_SECTOR
    · rw [root]
      exact last.file.own.used _ List.mem_cons_self
    · rw [others z root] at held
      exact keeps z (mounted.listed z held)
  · have same : (dirClose r.2 dir).fileTable = r.2.fileTable := by
      rw [dirClose_root (opened.handle.same effect.handles cwd) (cwd.trans opened.cwd)]
      split
      next =>
        have list := (inodeClose_spec (x := ROOT_DIR_SECTOR) (opened.handle.same effect.handles cwd).nodup
          (opened.handle.same effect.handles cwd).kept).rest
        rw [list]
      next => rfl
    rw [same, effect.rest, opened.rest]
  · have listed : (r.2.findInode ROOT_DIR_SECTOR).isSome := by
      rw [effect.handles.listed]
      exact opened.dir.2.2
    rw [dirClose_freed (opened.handle.same effect.handles cwd) opened.dir.1 listed, effect.rest, opened.rest]
  · rw [effect.taken, rehandled.bits, missing]
  · rw [closed.rehandled.cache, effect.zero, rehandled.bits, missing, rehandled.cache]
  · obtain ⟨x, file, root, split, all, rootNew, fileAt, fileNew, isDirWord, length, bytes, put⟩ := effect.made made
    obtain ⟨fileNext, sub, bytesNext, lengthNext⟩ := closed.rehandled.file last.fine fileAt
    refine ⟨x, file, root, split, ?_, fun z member => ?_, fileNext, fun z member => fileNew z (sub.subset member), ?_,
      lengthNext.trans length, bytesNext.trans bytes, fun proper => ?_⟩
    · rw [closed.rehandled.bits, ← all, rehandled.bits]
    · rw [← rootSectors]
      exact rootNew z (subNext.subset member)
    · have kept : ((dirClose r.2 dir).inodeData x).isDirWord = (r.2.inodeData x).isDirWord := by
        rcases closed.rehandled.data x with same | disk
        · rw [same]
        · rw [disk, fileAt.extended.isDirWord]
      exact kept.trans isDirWord
    · rw [slotsNext, put proper, slots]
  · obtain ⟨same, bits, rootNew⟩ := effect.failed failed
    refine ⟨slotsNext.trans (same.trans slots), fun z => ?_, fun z member => ?_⟩
    · rw [closed.rehandled.bits, bits, rehandled.bits]
    · rw [← rootSectors]
      exact rootNew z (subNext.subset member)
  · simp only
    rw [effect.done, CreateFits, CreateFits, missing, slots, RootRoom, RootRoom, slots, rootLen, rehandled.bits]

end ShellOs.FileSystem
