import ShellOs.FileSystem.Paths
import ShellOs.FileSystem.Exhaustion

/-! What a path names: `filesys_create` and `filesys_open` go by its last component only, `filesys_remove`
by its directory part as well, and "." and ".." are special to some of them. -/

namespace ShellOs.FileSystem
open Lib SlotMap

theorem mem_of_fileName {path : CString} {b : Byte} (inside : b ∈ (splitPathFilename path).2) : b ∈ path := by
  change b ∈ (tokens path).getLastD [] at inside
  cases last : (tokens path).getLast? with
  | none =>
    rw [List.getLastD_eq_getLast?, last] at inside
    cases inside
  | some token =>
    rw [List.getLastD_eq_getLast?, last] at inside
    exact (mem_of_pieces (List.mem_of_getLast? last) inside).1

section mounted

variable {s t : FlatFs} {n : Nat} {x : BlockSector}

theorem Mounted.rehandled (mounted : Mounted s n) (same : Rehandled s t) (handle : RootHandle t)
    (listed : ∀ z, z ≠ ROOT_DIR_SECTOR → (t.findInode z).isSome → Used s.freeMap z) : Mounted t n := by
  refine ⟨(mounted.dir.rehandled same).1, ?_, handle, fun z held => ?_⟩
  · rw [same.freeMapFile]
    exact mounted.map
  · rw [same.bits]
    by_cases root : z = ROOT_DIR_SECTOR
    · rw [root]
      exact mounted.dir.file.own.used _ List.mem_cons_self
    · exact listed z root held

theorem FileOpened.mounted (mounted : Mounted s n) (opened : FileOpened s t x) (used : Used s.freeMap x) :
    Mounted t n := by
  refine mounted.rehandled opened.rehandled opened.handle fun z away held => ?_
  by_cases same : z = x
  · rw [same]
    exact used
  · rw [opened.others z same away] at held
    exact mounted.listed z held

structure FileClosed (s t : FlatFs) (x : BlockSector) : Prop where
  rest : t = { s with openInodes := t.openInodes }
  others : ∀ z, z ≠ x → t.findInode z = s.findInode z
  gone : t.findInode x = none
  nodup : HandlesNodup t

theorem fileClose_last {i : Inode} (nodup : HandlesNodup s) (found : s.findInode x = some i) (last : i.openCnt = 1)
    (kept : i.removed = false) : FileClosed s (fileClose s (fileOpen x)) x := by
  have run : fileClose s (fileOpen x) = unlist s x := by
    rw [fileClose, ← inodeClose_last found last kept]
    rfl
  rw [run]
  exact ⟨rfl, fun z away => unlist_others away, unlist_none nodup, unlist_nodup nodup⟩

theorem FileClosed.rehandled (closed : FileClosed s t x) (foreign : ∀ f, s.freeMapFile = some f → f.inode ≠ x) :
    Rehandled s t :=
  Closed.rehandled ⟨by rw [closed.rest], fun _ => by rw [closed.rest], closed.others, Or.inl closed.gone, closed.nodup⟩
    foreign

theorem FileClosed.handle (closed : FileClosed s t x) (handle : RootHandle s) (away : x ≠ ROOT_DIR_SECTOR) :
    RootHandle t :=
  handle.congr closed.nodup (closed.others _ away.symm) (congrArg Fs.cwd closed.rest :)

theorem FileClosed.mounted (mounted : Mounted s n) (closed : FileClosed s t x) (away : x ≠ ROOT_DIR_SECTOR)
    (foreign : ∀ f, s.freeMapFile = some f → f.inode ≠ x) : Mounted t n := by
  refine mounted.rehandled (closed.rehandled foreign) (closed.handle mounted.handle away) fun z _ held => ?_
  by_cases same : z = x
  · rw [same, closed.gone] at held
    cases held
  · rw [closed.others z same] at held
    exact mounted.listed z held

end mounted

section created

variable {s t : FlatFs} {n : Nat} {name path : CString} {size : Int} {r : Bool × FlatFs} {new : List BlockSector}

/-- A file has been created: it is there, it shares nothing with the root directory, and nobody has it open. -/
structure NewFile (s t : FlatFs) (name : CString) (size : Int) (x : BlockSector) : Prop where
  unused : ∀ z ∈ sectorsOf t x, ¬Used s.freeMap z
  absent : name ∉ keys (rootSlots s)
  slots : rootSlots t = put (rootSlots s) (name, x)
  file : FileAt t x
  regular : (t.inodeData x).isDir = false
  length : t.inodeLength x = offsetOf size
  blank : contents t x = List.replicate (offsetOf size).toNat 0
  apart : ∀ z ∈ sectorsOf t ROOT_DIR_SECTOR, z ∉ sectorsOf t x
  unlisted : t.findInode x = none

theorem Creation.newFile (mounted : Mounted s n) (creation : Creation s name size r new) (made : r.1 = true)
    (proper : (0 : Byte) ∉ name) : ∃ x, NewFile s r.2 name size x := by
  obtain ⟨x, file, root, all, free, rootSub, fileAt, fileSub, isDir, length, blank, slots⟩ := creation.made made
  have small := mounted.dir.fine.small
  have spare : ∀ z ∈ new, z ∈ freeSectors s.freeMap := fun z member => by
    rw [free]
    exact List.mem_append_left _ member
  have unused : ∀ z ∈ new, ¬Used s.freeMap z := fun z member used =>
    ((used_iff_not_free small).mp used).2 (spare z member)
  have nodup : new.Nodup := by
    have whole := freeSectors_nodup small
    rw [free] at whole
    exact (List.nodup_append.mp whole).1
  have mine : ∀ z, z = x ∨ z ∈ file → z ∈ new := by
    rintro z (rfl | member) <;> rw [all]
    · exact List.mem_cons_self
    · exact List.mem_cons_of_mem _ (List.mem_append_left _ member)
  have inNew : ∀ z ∈ sectorsOf r.2 x, z ∈ new := fun z member => mine z (fileSub z member)
  have fresh := unused x (mine x (Or.inl rfl))
  have away : x ≠ ROOT_DIR_SECTOR := fun same =>
    fresh (same ▸ mounted.dir.file.own.used _ List.mem_cons_self)
  refine ⟨x, fun z member => unused z (inNew z member), (creation.done.mp made).2.2.1, slots proper, fileAt, ?_,
    length, blank, fun z theirs member => ?_, ?_⟩
  · rw [InodeDisk.isDir, isDir]
    decide
  · rcases rootSub z theirs with old | added
    · exact unused z (inNew z member) (mounted.dir.file.own.used z old)
    · rw [all] at nodup
      rcases fileSub z member with rfl | inFile
      · exact (List.nodup_cons.mp nodup).1 (List.mem_append_right _ added)
      · exact (List.nodup_append.mp (List.nodup_cons.mp nodup).2).2.2 z inFile z added rfl
  · rw [creation.others x away]
    cases held : s.findInode x with
    | none => rfl
    | some i => exact absurd (mounted.listed x (by rw [held]; rfl)) fresh

theorem NewFile.fresh {x : BlockSector} (created : NewFile s t name size x) : ¬Used s.freeMap x :=
  created.unused x List.mem_cons_self

theorem NewFile.reopened {x : BlockSector} (mounted : Mounted t n)
    (created : NewFile s t (splitPathFilename path).2 size x) (plain : Plain (splitPathFilename path).2) :
    x ≠ ROOT_DIR_SECTOR ∧
      filesysOpen t path = (some (fileOpen x), dirClose (inodeOpen (dirOpenRoot t).2 x).2 (dirOpenRoot t).1) ∧
      FileOpened t (filesysOpen t path).2 x ∧
      FileClosed (filesysOpen t path).2 (fileClose (filesysOpen t path).2 (fileOpen x)) x := by
  have bound : ∀ v, some ((splitPathFilename path).2, v) ∈ rootSlots t → v = x := by
    intro v member
    rw [created.slots] at member
    obtain ⟨k, slot⟩ := List.getElem?_of_mem member
    exact (put_slot created.absent slot).2
  have away : x ≠ ROOT_DIR_SECTOR := fun same =>
    created.apart ROOT_DIR_SECTOR List.mem_cons_self (same ▸ List.mem_cons_self)
  have present : (splitPathFilename path).2 ∈ keys (rootSlots t) := by
    rw [created.slots]
    exact mem_keys.mpr ⟨x, List.mem_of_getElem? (put_freeSlot _ _)⟩
  obtain ⟨k, v, slot, -, run⟩ := filesysOpen_run mounted plain present fun v member => by
    rw [bound v member, created.unlisted]
    exact ⟨away, (fun i never => by cases never)⟩
  obtain rfl := bound v (List.mem_of_getElem? slot)
  have opened : FileOpened t (filesysOpen t path).2 v := by
    rw [run]
    exact (dirOpenRoot_spec mounted.handle).openFile mounted.dir.fine away mounted.foreign
  obtain ⟨i, found, last, kept, -⟩ := opened.fresh created.unlisted
  exact ⟨away, run, opened, fileClose_last opened.handle.nodup found last kept⟩

theorem NewFile.opens {x : BlockSector} (mounted : Mounted t n) (created : NewFile s t (splitPathFilename path).2 size x)
    (plain : Plain (splitPathFilename path).2) : (filesysOpen t path).1 = some (fileOpen x) ∧
      let closed := fileClose (filesysOpen t path).2 (fileOpen x)
      Mounted closed n ∧ rootSlots closed = rootSlots t ∧ Removable closed x := by
  obtain ⟨away, run, opened, closed⟩ := created.reopened mounted plain
  have used := created.file.own.used x List.mem_cons_self
  have foreign : ∀ f, t.freeMapFile = some f → f.inode ≠ x := by
    obtain ⟨f, held, inode⟩ := mounted.map
    intro g same
    rw [held] at same
    obtain rfl := Option.some.inj same
    rw [inode]
    exact created.file.nonzero.symm
  have mountedNext := opened.mounted mounted used
  have foreignNext : ∀ f, (filesysOpen t path).2.freeMapFile = some f → f.inode ≠ x := by
    rw [opened.rehandled.freeMapFile]
    exact foreign
  have rehandled := opened.rehandled.trans (closed.rehandled foreignNext)
  obtain ⟨file, sub, -, -⟩ := rehandled.file mounted.dir.fine created.file
  obtain ⟨-, subRoot, -, -⟩ := rehandled.file mounted.dir.fine mounted.dir.file
  have data : (fileClose (filesysOpen t path).2 (fileOpen x)).inodeData x = t.inodeData x := by
    refine inodeData_of_find (closed.gone.trans created.unlisted.symm) ?_
    rw [rehandled.cache]
  refine ⟨by rw [run], closed.mounted mountedNext away foreignNext, (mounted.dir.rehandled rehandled).2, file, ?_, ?_, ?_, ?_⟩
  · rw [data]
    exact created.regular
  · exact fun z theirs mine => created.apart z (subRoot.subset theirs) (sub.subset mine)
  · rw [closed.gone]
    exact (fun j never => by cases never)
  · rw [rehandled.freeMapFile]
    exact foreign

end created

section failing

variable {s : FlatFs} {n : Nat} {path : CString}

theorem filesysOpen_dots (mounted : Mounted s n)
    (dots : (splitPathFilename path).2 = dot ∨ (splitPathFilename path).2 = dotDot) :
    (filesysOpen s path).1 = some (fileOpen ROOT_DIR_SECTOR) := by
  have opened := dirOpenRoot_spec mounted.handle
  have only := opened.only mounted.dir.fine
  obtain ⟨t, found, looked, -⟩ := dirLookup_dots (mounted.dir.rehandled only.rehandled).1 opened.handle opened.dir.1 dots
  have closed := dirClose_spec looked.handle opened.dir.1 (by
    rw [looked.rehandled.freeMapFile, only.rehandled.freeMapFile]
    exact mounted.foreign)
  have some : 0 < (splitPathFilename path).2.length := by
    rcases dots with single | double
    · rw [single]
      decide
    · rw [double]
      decide
  have named : ¬path.length = 0 := fun empty => by
    rw [List.length_eq_zero_iff.mp empty] at some
    exact absurd some (by decide)
  have removed : inodeIsRemoved ((dirClose t (dirOpenRoot s).1).use ROOT_DIR_SECTOR) ROOT_DIR_SECTOR = false := by
    unfold inodeIsRemoved
    rw [Fs.use_findInode]
    cases held : (dirClose t (dirOpenRoot s).1).findInode ROOT_DIR_SECTOR with
    | none => rfl
    | some i => exact closed.handle.kept i held
  simp only [filesysOpen, if_neg named, if_pos some, found, openFound, removed, Bool.false_eq_true, if_false]

def Lost (names : List CString) (path : CString) : Prop :=
  ∃ before token after, tokens path = before ++ token :: after ∧
    (∀ c ∈ before, c = dot ∨ c = dotDot) ∧ token ≠ dot ∧ token ≠ dotDot ∧ token ∉ names

theorem openComponents_lost {dir : Dir} {before after : List CString} {token : CString} (handle : RootHandle s)
    (ok : DirOk s n) (foreign : ∀ f, s.freeMapFile = some f → f.inode ≠ ROOT_DIR_SECTOR)
    (dots : ∀ c ∈ before, c = dot ∨ c = dotDot) (plain : token ≠ dot ∧ token ≠ dotDot)
    (absent : token ∉ keys (rootSlots s)) (here : dir.inode = ROOT_DIR_SECTOR) :
    (openComponents (before ++ token :: after) s dir).1 = none := by
  induction before generalizing s dir with
  | nil =>
    have nothing : (dirLookup s dir token).1 = none := by
      have used := Rehandled.use s ROOT_DIR_SECTOR
      obtain ⟨okU, slots⟩ := ok.rehandled used
      rw [← slots] at absent
      rw [dirLookup, if_neg plain.1, if_neg plain.2, here, okU.lookup_absent absent]
    rw [List.nil_append, openComponents, nothing]
  | cons c rest ih =>
    obtain ⟨next, t, step, nextHere, only⟩ :=
      openComponents_step handle ok foreign here (dots c List.mem_cons_self) (rest ++ token :: after)
    obtain ⟨okNext, slots⟩ := ok.rehandled only.rehandled
    rw [List.cons_append, step]
    exact ih only.handle okNext (by rw [only.rehandled.freeMapFile]; exact foreign)
      (fun d member => dots d (List.mem_cons_of_mem _ member)) (by rw [slots]; exact absent) nextHere

theorem filesysRemove_lost (mounted : Mounted s n) (lost : Lost (keys (rootSlots s)) (splitPathFilename path).1) :
    (filesysRemove s path).1 = false := by
  obtain ⟨before, token, after, split, dots, single, double, absent⟩ := lost
  have started : ∀ start : Dir × FlatFs, start.1.inode = ROOT_DIR_SECTOR → RootClosed s start.2 →
      (openComponents (tokens (splitPathFilename path).1) start.2 start.1).1 = none := by
    intro start here only
    obtain ⟨ok, slots⟩ := mounted.dir.rehandled only.rehandled
    rw [split]
    exact openComponents_lost only.handle ok (by rw [only.rehandled.freeMapFile]; exact mounted.foreign) dots
      ⟨single, double⟩ (by rw [slots]; exact absent) here
  obtain ⟨start, here, only, run⟩ := dirOpenPath_start mounted (splitPathFilename path).1
  have none := started start here only
  rw [← run] at none
  simp only [filesysRemove, none]

end failing

section made

variable {s : FlatFs} {n : Nat} {path : CString} {size : Int}

theorem filesysCreate_newFile (mounted : Mounted s n) (made : (filesysCreate s path size false).1 = true)
    (proper : (0 : Byte) ∉ path) : ∃ m x, Mounted (filesysCreate s path size false).2 m ∧
      NewFile s (filesysCreate s path size false).2 (splitPathFilename path).2 size x := by
  obtain ⟨new, creation⟩ := filesysCreate_effect mounted path size
  obtain ⟨m, next⟩ := creation.mounted
  obtain ⟨x, created⟩ := creation.newFile mounted made fun inside => proper (mem_of_fileName inside)
  exact ⟨m, x, next, created⟩

theorem fileName_nonempty (mounted : Mounted s n) (made : (filesysCreate s path size false).1 = true) :
    (splitPathFilename path).2 ≠ [] := by
  obtain ⟨new, creation⟩ := filesysCreate_effect mounted path size
  obtain ⟨-, ⟨some, -⟩, -⟩ := creation.done.mp made
  exact List.length_pos_iff.mp some

theorem formatted_creates {name : CString} (named : NameOk name) (last : (splitPathFilename name).2 = name) :
    (filesysCreate (formatted 80) name 512 false).1 = true := by
  have fresh := formatted_fresh (show FormatFits 80 by decide +kernel)
  have free : (freeSectors (formatted 80).flat.freeMap).length = 5 := fresh.free_length.trans (by decide +kernel)
  refine (filesysCreate_done fresh.mounted name 512).mpr ?_
  rw [last]
  exact fresh.fits free named (by decide) (by decide)

end made

end ShellOs.FileSystem
