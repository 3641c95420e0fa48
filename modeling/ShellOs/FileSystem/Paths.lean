import ShellOs.FileSystem.Removal

/-! How paths are resolved: `filesys_open` looks the last component up in the root directory,
`filesys_remove` walks the directory part first. -/

namespace ShellOs.FileSystem
open Lib SlotMap

section handle

variable {s t : FlatFs} {n : Nat} {dir : Dir}

theorem RootClosed.refl (handle : RootHandle s) : RootClosed s s := ⟨Rehandled.refl s, fun _ _ => rfl, handle, rfl⟩

theorem RootClosed.trans {u : FlatFs} (early : RootClosed s t) (late : RootClosed t u) : RootClosed s u :=
  ⟨early.rehandled.trans late.rehandled, fun z away => (late.others z away).trans (early.others z away), late.handle,
    late.fileTable.trans early.fileTable⟩

theorem RootHandle.use (handle : RootHandle s) (x : BlockSector) : RootHandle (s.use x) := by
  refine ⟨by rw [HandlesNodup, Fs.use_openInodes]; exact handle.nodup, fun i found => ?_, fun d current => ?_⟩
  · rw [Fs.use_findInode] at found
    exact handle.kept i found
  · rw [Fs.use_cwd] at current
    rw [Fs.use_findInode]
    exact handle.held d current

theorem RootClosed.use (handle : RootHandle s) (x : BlockSector) : RootClosed s (s.use x) :=
  ⟨Rehandled.use s x, fun z _ => s.use_findInode x z, handle.use x, s.use_fileTable x⟩

theorem RootHandle.opened (handle : RootHandle s) (opened : Opened s t ROOT_DIR_SECTOR) : RootHandle t := by
  refine ⟨opened.nodup handle.nodup, fun i found => ?_, fun d current => ?_⟩
  · cases before : s.findInode ROOT_DIR_SECTOR with
    | some j =>
      refine handle.kept i ?_
      rw [← found]
      unfold Fs.findInode
      rw [opened.kept j before]
    | none =>
      obtain ⟨j, list, sector, -, kept, -⟩ := opened.fresh before
      have first : t.findInode ROOT_DIR_SECTOR = some j := by
        rw [Fs.findInode, list]
        exact List.find?_cons_of_pos (by simpa using sector)
      rw [first] at found
      obtain rfl := Option.some.inj found
      exact kept
  · rw [opened.rest] at current
    obtain ⟨inode, count, -⟩ := handle.held d current
    exact ⟨inode, count, opened.listed⟩

theorem Opened.root (handle : RootHandle s) (fine : FreeMapOk s) (opened : Opened s t ROOT_DIR_SECTOR) :
    RootClosed s t := ⟨opened.rehandled fine, opened.others, handle.opened opened, by rw [opened.rest]⟩

theorem RootOpened.only (opened : RootOpened s t dir) (fine : FreeMapOk s) : RootClosed s t :=
  ⟨opened.rehandled fine, opened.others, opened.handle, by rw [opened.rest]⟩

theorem RootClosed.data (only : RootClosed s t) {z : BlockSector} (away : z ≠ ROOT_DIR_SECTOR) :
    t.inodeData z = s.inodeData z := inodeData_of_find (only.others z away) (by rw [only.rehandled.cache])

end handle

section lookup

variable {s : FlatFs} {n : Nat} {dir : Dir} {name : CString}

theorem dirLookup_absent (ok : DirOk s n) (here : dir.inode = ROOT_DIR_SECTOR)
    (ready : s.use ROOT_DIR_SECTOR = s) (plain : name ≠ dot ∧ name ≠ dotDot)
    (absent : name ∉ keys (rootSlots s)) : dirLookup s dir name = (none, s) := by
  rw [dirLookup, if_neg plain.1, if_neg plain.2, here, ready, ok.lookup_absent absent]

theorem dirLookup_present (ok : DirOk s n) (here : dir.inode = ROOT_DIR_SECTOR)
    (ready : s.use ROOT_DIR_SECTOR = s) (plain : name ≠ dot ∧ name ≠ dotDot)
    (present : name ∈ keys (rootSlots s)) :
    ∃ (k : Nat) (x : BlockSector), (rootSlots s)[k]? = some (some (name, x)) ∧
      dirLookup s dir name = (some x, (inodeOpen s x).2) := by
  obtain ⟨k, e, -, -, -, slot, found⟩ := ok.lookup_present present
  refine ⟨k, e.inodeSector, slot, ?_⟩
  rw [dirLookup, if_neg plain.1, if_neg plain.2, here, ready, found]

theorem dirLookup_dots (ok : DirOk s n) (handle : RootHandle s) (here : dir.inode = ROOT_DIR_SECTOR)
    (dots : name = dot ∨ name = dotDot) : ∃ t, dirLookup s dir name = (some ROOT_DIR_SECTOR, t) ∧ RootClosed s t ∧
      (t = s ∨ t = (inodeOpen (s.use ROOT_DIR_SECTOR) ROOT_DIR_SECTOR).2) := by
  by_cases single : name = dot
  · exact ⟨s, by rw [dirLookup, if_pos single, here], RootClosed.refl handle, Or.inl rfl⟩
  · have double : name = dotDot := dots.resolve_left single
    have used := RootClosed.use handle ROOT_DIR_SECTOR
    have okU := (ok.rehandled used.rehandled).1
    have run : dirLookup s dir name = dirLookup (s.use ROOT_DIR_SECTOR) dir name := by
      simp only [dirLookup, if_neg single, if_pos double, here, Fs.use_use]
    have ready := s.use_use ROOT_DIR_SECTOR
    generalize s.use ROOT_DIR_SECTOR = u at used okU run ready
    have read : inodeReadAt u ROOT_DIR_SECTOR ENTRY_SIZE 0 =
        (content u.cache (u.inodeData ROOT_DIR_SECTOR) (36 * 0) 36, u) := by
      have inside := okU.nonempty
      have bytes := inodeReadAt_spec okU.inodeLength okU.fits okU.mapped 36 0
      rw [show min 36 (36 * n - 0) = 36 by omega] at bytes
      exact bytes
    refine ⟨(inodeOpen u ROOT_DIR_SECTOR).2, ?_,
      used.trans ((inodeOpen_spec u ROOT_DIR_SECTOR).root used.handle okU.fine), Or.inr rfl⟩
    have parent : (DirEntry.decode (content u.cache (u.inodeData ROOT_DIR_SECTOR) (36 * 0) 36)).inodeSector =
        ROOT_DIR_SECTOR := okU.parent.2
    rw [run, dirLookup, if_neg single, if_pos double, here, ready, read]
    simp only
    rw [parent]

/-- Only the components "." and "..", by which one stays in the root directory. -/
def OnlyDots (path : CString) : Prop := ∀ token ∈ tokens path, token = dot ∨ token = dotDot

instance (path : CString) : Decidable (OnlyDots path) := inferInstanceAs (Decidable (∀ token ∈ tokens path, _))

theorem openComponents_step (handle : RootHandle s) (ok : DirOk s n)
    (foreign : ∀ f, s.freeMapFile = some f → f.inode ≠ ROOT_DIR_SECTOR) (here : dir.inode = ROOT_DIR_SECTOR)
    {token : CString} (dots : token = dot ∨ token = dotDot) (rest : List CString) :
    ∃ d t, openComponents (token :: rest) s dir = openComponents rest t d ∧ d.inode = ROOT_DIR_SECTOR ∧
      RootClosed s t := by
  obtain ⟨t, found, looked, -⟩ := dirLookup_dots ok handle here dots
  have next : RootClosed s (dirOpen t ROOT_DIR_SECTOR).2 :=
    looked.trans ⟨⟨rfl, fun _ => Or.inl rfl, fun _ => Or.inl rfl, fun _ _ => rfl⟩, fun _ _ => rfl,
      ⟨looked.handle.nodup, looked.handle.kept, looked.handle.held⟩, rfl⟩
  have same := next.rehandled.freeMapFile
  have closed := next.trans (dirClose_spec next.handle here (same ▸ foreign))
  exact ⟨(dirOpen t ROOT_DIR_SECTOR).1, _, by rw [openComponents, found], rfl, closed⟩

theorem openComponents_dots (handle : RootHandle s) (ok : DirOk s n)
    (foreign : ∀ f, s.freeMapFile = some f → f.inode ≠ ROOT_DIR_SECTOR) (path : List CString)
    (dots : ∀ token ∈ path, token = dot ∨ token = dotDot) (here : dir.inode = ROOT_DIR_SECTOR) :
    ∃ d t, openComponents path s dir = (some d, t) ∧ d.inode = ROOT_DIR_SECTOR ∧ RootClosed s t := by
  induction path generalizing s dir with
  | nil =>
    have used := RootClosed.use handle ROOT_DIR_SECTOR
    have kept : inodeIsRemoved (s.use ROOT_DIR_SECTOR) ROOT_DIR_SECTOR = false := by
      unfold inodeIsRemoved
      cases found : (s.use ROOT_DIR_SECTOR).findInode ROOT_DIR_SECTOR with
      | none => rfl
      | some i => exact used.handle.kept i found
    exact ⟨dir, _, by rw [openComponents, here, kept]; rfl, here, used⟩
  | cons token rest ih =>
    obtain ⟨next, t, step, nextHere, only⟩ :=
      openComponents_step handle ok foreign here (dots token List.mem_cons_self) rest
    obtain ⟨d, u, run, root, last⟩ := ih only.handle (ok.rehandled only.rehandled).1
      (by rw [only.rehandled.freeMapFile]; exact foreign)
      (fun token member => dots token (List.mem_cons_of_mem _ member)) nextHere
    exact ⟨d, u, step.trans run, root, only.trans last⟩

theorem dirOpenPath_start (mounted : Mounted s n) (path : CString) : ∃ start : Dir × FlatFs,
    start.1.inode = ROOT_DIR_SECTOR ∧ RootClosed s start.2 ∧
      dirOpenPath s path = openComponents (tokens path) start.2 start.1 := by
  have opened := dirOpenRoot_spec mounted.handle
  have only := opened.only mounted.dir.fine
  by_cases absolute : path.head? = some slash
  · exact ⟨dirOpenRoot s, opened.dir.1, only, by rw [dirOpenPath, if_pos absolute]⟩
  · cases current : s.cwd with
    | none => exact ⟨dirOpenRoot s, opened.dir.1, only, by rw [dirOpenPath, if_neg absolute, current]⟩
    | some c =>
      obtain ⟨inode, -, -⟩ := mounted.handle.held c current
      refine ⟨dirReopen s c, inode, ⟨⟨rfl, fun _ => Or.inl rfl, fun _ => Or.inl rfl, fun _ _ => rfl⟩,
        fun _ _ => rfl, ⟨mounted.handle.nodup, mounted.handle.kept, mounted.handle.held⟩, rfl⟩, ?_⟩
      rw [dirOpenPath, if_neg absolute, current]

theorem dirOpenPath_dots (mounted : Mounted s n) {path : CString} (dots : OnlyDots path) :
    ∃ d t, dirOpenPath s path = (some d, t) ∧ d.inode = ROOT_DIR_SECTOR ∧ RootClosed s t := by
  obtain ⟨start, here, only, run⟩ := dirOpenPath_start mounted path
  obtain ⟨d, t, walk, root, last⟩ := openComponents_dots only.handle (mounted.dir.rehandled only.rehandled).1
    (by rw [only.rehandled.freeMapFile]; exact mounted.foreign) (tokens path) dots here
  exact ⟨d, t, run.trans walk, root, only.trans last⟩

end lookup

section unlink

variable {s t : FlatFs} {n k : Nat} {x : BlockSector} {dir : Dir} {name : CString}

/-- A regular file has been removed from the root directory. -/
structure Unlinked (s t : FlatFs) (x : BlockSector) (n k : Nat) : Prop where
  change : Change s t (sectorsOf s ROOT_DIR_SECTOR ++ sectorsOf s x)
  used : ∀ z, Used t.freeMap z ↔ Used s.freeMap z ∧ z ∉ givenBack s x
  zero : t.cache 0 = s.cache 0
  dir : DirOk t n
  slots : rootSlots t = (rootSlots s).set k none
  root : (sectorsOf t ROOT_DIR_SECTOR).Sublist (sectorsOf s ROOT_DIR_SECTOR)
  gone : t.findInode x = none
  others : ∀ z, z ≠ x → z ≠ ROOT_DIR_SECTOR → t.findInode z = s.findInode z
  handle : RootHandle t
  fileTable : t.fileTable = s.fileTable

theorem Removable.only (may : Removable s x) (only : RootClosed s t) (fine : FreeMapOk s)
    (file : FileAt s ROOT_DIR_SECTOR) : Removable t x ∧ sectorsOf t x = sectorsOf s x ∧
      givenBack t x = givenBack s x := by
  have data := only.data may.ne_root
  obtain ⟨-, nodes, -, -⟩ := only.rehandled.ok fine
  have cache : ∀ z ∈ sectorsOf s x, t.cache z = s.cache z := fun _ _ => by rw [only.rehandled.cache]
  obtain ⟨next, sectors, -, -⟩ := may.file.frame cache
    (by rw [only.rehandled.bits]; exact may.file.own.used) nodes data
  obtain ⟨-, sub, -, -⟩ := only.rehandled.file fine file
  refine ⟨⟨next, by rw [data]; exact may.regular, fun z theirs mine => ?_, fun i found => ?_, ?_⟩, sectors,
    may.file.givenBack_congr cache data⟩
  · exact may.apart z (sub.subset theirs) (sectors ▸ mine)
  · exact may.last i (only.others x may.ne_root ▸ found)
  · rw [only.rehandled.freeMapFile]
    exact may.foreign

theorem RootHandle.congr (handle : RootHandle s) (nodup : HandlesNodup t)
    (this : t.findInode ROOT_DIR_SECTOR = s.findInode ROOT_DIR_SECTOR) (cwd : t.cwd = s.cwd) : RootHandle t := by
  refine ⟨nodup, fun i found => handle.kept i (this ▸ found), fun d current => ?_⟩
  rw [this]
  exact handle.held d (cwd ▸ current)

theorem RemoveEffect.cwd {r : Bool × FlatFs} (effect : RemoveEffect s x n k r) : r.2.cwd = s.cwd :=
  (congrArg Fs.cwd effect.rest).trans (s.use_cwd ROOT_DIR_SECTOR)

theorem RemoveEffect.unlinked {a : FlatFs} {r : Bool × FlatFs} (before : RootClosed s a)
    (effect : RemoveEffect a x n k r) (after : RootClosed r.2 t) (ok : DirOk s n) (may : Removable s x) :
    Unlinked s t x n k := by
  obtain ⟨-, sectors, given⟩ := may.only before ok.fine ok.file
  obtain ⟨okA, slotsA⟩ := ok.rehandled before.rehandled
  obtain ⟨-, subA, -, -⟩ := before.rehandled.file ok.fine ok.file
  obtain ⟨okT, slotsT⟩ := effect.dir.rehandled after.rehandled
  obtain ⟨-, subT, -, -⟩ := after.rehandled.file effect.dir.fine effect.dir.file
  have table : r.2.fileTable = a.fileTable := (congrArg Fs.fileTable effect.rest).trans (a.use_fileTable ROOT_DIR_SECTOR)
  have inside : ∀ z ∈ sectorsOf a ROOT_DIR_SECTOR ++ sectorsOf a x,
      z ∈ sectorsOf s ROOT_DIR_SECTOR ++ sectorsOf s x := by
    intro z member
    rcases List.mem_append.mp member with root | mine
    · exact List.mem_append_left _ (subA.subset root)
    · exact List.mem_append_right _ (sectors ▸ mine)
  have early : Change s r.2 (sectorsOf s ROOT_DIR_SECTOR ++ sectorsOf s x) :=
    (before.rehandled.change ok.fine).trans effect.change (by simp) fun z member _ => inside z member
  refine ⟨early.trans (after.rehandled.change effect.dir.fine) (fun z member => member) (by simp), fun z => ?_, ?_,
    okT, ?_, ?_, ?_, fun z away notRoot => ?_, after.handle, ?_⟩
  · rw [after.rehandled.bits, effect.used, before.rehandled.bits, given]
  · rw [after.rehandled.cache, effect.zero, before.rehandled.cache]
  · rw [slotsT, effect.slots, slotsA]
  · exact (effect.root ▸ subT).trans subA
  · exact (after.others x may.ne_root).trans effect.gone
  · rw [after.others z notRoot, effect.others z away, before.others z notRoot]
  · rw [after.fileTable, table, before.fileTable]

theorem dirRemove_unlinks {a : FlatFs} (mounted : Mounted s n) (before : RootClosed s a)
    (here : dir.inode = ROOT_DIR_SECTOR) (present : name ∈ keys (rootSlots s))
    (may : ∀ x, some (name, x) ∈ rootSlots s → Removable s x) :
    ∃ (k : Nat) (x : BlockSector), (rootSlots s)[k]? = some (some (name, x)) ∧ (dirRemove a dir name).1 = true ∧
      Unlinked s (dirClose (dirRemove a dir name).2 dir) x n k := by
  have ok := mounted.dir
  obtain ⟨okA, slotsA⟩ := ok.rehandled before.rehandled
  rw [← slotsA] at present may ⊢
  obtain ⟨k, x, slot, effect⟩ := dirRemove_effect okA here before.handle.nodup present fun x bound =>
    ((may x bound).only before ok.fine ok.file).1
  have removable := may x (List.mem_of_getElem? slot)
  have handle := before.handle.congr effect.nodup (effect.others _ removable.ne_root.symm) effect.cwd
  have after := dirClose_spec handle here (by
    rw [effect.change.freeMapFile, before.rehandled.freeMapFile]
    exact mounted.foreign)
  exact ⟨k, x, slot, effect.removed, effect.unlinked before after ok removable⟩

theorem filesysRemove_effect {path : CString} (mounted : Mounted s n) (dots : OnlyDots (splitPathFilename path).1)
    (present : (splitPathFilename path).2 ∈ keys (rootSlots s))
    (may : ∀ x, some ((splitPathFilename path).2, x) ∈ rootSlots s → Removable s x) :
    ∃ (k : Nat) (x : BlockSector), (rootSlots s)[k]? = some (some ((splitPathFilename path).2, x)) ∧
      (filesysRemove s path).1 = true ∧ Unlinked s (filesysRemove s path).2 x n k := by
  obtain ⟨d, a, run, here, only⟩ := dirOpenPath_dots mounted dots
  obtain ⟨k, x, slot, removed, unlinked⟩ := dirRemove_unlinks mounted only here present may
  have result : filesysRemove s path = ((dirRemove a d (splitPathFilename path).2).1,
      dirClose (dirRemove a d (splitPathFilename path).2).2 d) := by
    rw [filesysRemove, run]
  rw [result]
  exact ⟨k, x, slot, removed, unlinked⟩

theorem filesysRemove_absent {path : CString} (mounted : Mounted s n) (dots : OnlyDots (splitPathFilename path).1)
    (absent : (splitPathFilename path).2 ∉ keys (rootSlots s)) :
    (filesysRemove s path).1 = false ∧ RootClosed s (filesysRemove s path).2 := by
  obtain ⟨d, a, run, here, only⟩ := dirOpenPath_dots mounted dots
  obtain ⟨ok, slots⟩ := mounted.dir.rehandled only.rehandled
  rw [← slots] at absent
  have result : filesysRemove s path = (false, dirClose (a.use ROOT_DIR_SECTOR) d) := by
    rw [filesysRemove, run]
    simp only [dirRemove_absent ok here absent]
  rw [result]
  have used := only.trans (RootClosed.use only.handle ROOT_DIR_SECTOR)
  refine ⟨rfl, used.trans (dirClose_spec used.handle here ?_)⟩
  rw [used.rehandled.freeMapFile]
  exact mounted.foreign

end unlink

section opening

variable {s t : FlatFs} {n : Nat} {x : BlockSector}

/-- A name under which a file can be found: not empty, and not one of those for directories. -/
def Plain (name : CString) : Prop := name ≠ [] ∧ name ≠ dot ∧ name ≠ dotDot

instance (name : CString) : Decidable (Plain name) := inferInstanceAs (Decidable (_ ∧ _ ∧ _))

structure FileOpened (s t : FlatFs) (x : BlockSector) : Prop where
  rehandled : Rehandled s t
  handle : RootHandle t
  others : ∀ z, z ≠ x → z ≠ ROOT_DIR_SECTOR → t.findInode z = s.findInode z
  kept : ∀ i, s.findInode x = some i → t.findInode x = some i
  fresh : s.findInode x = none →
    ∃ i, t.findInode x = some i ∧ i.openCnt = 1 ∧ i.removed = false ∧ i.denyWriteCnt = 0
  data : t.inodeData x = s.inodeData x
  shut : Shut s → Shut t
  fileTable : t.fileTable = s.fileTable
  freed : t.usedFreed = s.usedFreed

theorem RootOpened.openFile {a : FlatFs} {dir : Dir} (opened : RootOpened s a dir) (fine : FreeMapOk s)
    (away : x ≠ ROOT_DIR_SECTOR) (foreign : ∀ f, s.freeMapFile = some f → f.inode ≠ ROOT_DIR_SECTOR) :
    FileOpened s (dirClose (inodeOpen a x).2 dir) x := by
  have inner := inodeOpen_spec a x
  have only := opened.only fine
  have fineA := (only.rehandled.ok fine).1
  have root := inner.others ROOT_DIR_SECTOR away.symm
  obtain ⟨i, found⟩ := Option.isSome_iff_exists.mp opened.dir.2.2
  have cwd : (inodeOpen a x).2.cwd = a.cwd := (congrArg Fs.cwd inner.rest :)
  have table : (inodeOpen a x).2.fileTable = a.fileTable := (congrArg Fs.fileTable inner.rest :)
  have file : (inodeOpen a x).2.freeMapFile = s.freeMapFile := inner.freeMapFile.trans only.rehandled.freeMapFile
  obtain ⟨closed, shut⟩ := opened.shut (e := i.data) (inner.nodup opened.handle.nodup)
    (by rw [root, found]; rfl) cwd (by rw [file]; exact foreign)
  have this : (dirClose (inodeOpen a x).2 dir).findInode x = (inodeOpen a x).2.findInode x := closed.others x away
  refine ⟨(only.rehandled.trans (inner.rehandled fineA)).trans closed.rehandled, closed.handle,
    fun z different notRoot => ?_, fun j before => ?_, fun absent => ?_, ?_, shut, ?_, ?_⟩
  · rw [closed.others z notRoot, inner.others z different, only.others z notRoot]
  · have held : a.findInode x = some j := (only.others x away).trans before
    rw [this, ← held]
    unfold Fs.findInode
    rw [inner.kept j held]
  · obtain ⟨j, list, sector, count, removed, deny, -⟩ := inner.fresh ((only.others x away).trans absent)
    refine ⟨j, ?_, count, removed, deny⟩
    rw [this, Fs.findInode, list, List.find?_cons_of_pos (by rw [sector, beq_self_eq_true])]
  · rw [closed.data away, inner.data, only.data away]
  · rw [closed.fileTable, table, only.fileTable]
  · have handle := opened.handle.congr (inner.nodup opened.handle.nodup) root cwd
    rw [dirClose_freed handle opened.dir.1 (by rw [root, found]; rfl), inner.rest, opened.rest]

theorem filesysOpen_run {path : CString} (mounted : Mounted s n) (plain : Plain (splitPathFilename path).2)
    (present : (splitPathFilename path).2 ∈ keys (rootSlots s))
    (may : ∀ x, some ((splitPathFilename path).2, x) ∈ rootSlots s →
      x ≠ ROOT_DIR_SECTOR ∧ ∀ i, s.findInode x = some i → i.removed = false) :
    ∃ (k : Nat) (x : BlockSector), (rootSlots s)[k]? = some (some ((splitPathFilename path).2, x)) ∧
      x ≠ ROOT_DIR_SECTOR ∧ filesysOpen s path =
        (some (fileOpen x), dirClose (inodeOpen (dirOpenRoot s).2 x).2 (dirOpenRoot s).1) := by
  have opened := dirOpenRoot_spec mounted.handle
  have only := opened.only mounted.dir.fine
  obtain ⟨ok, slots⟩ := mounted.dir.rehandled only.rehandled
  rw [← slots] at present may ⊢
  obtain ⟨k, x, slot, found⟩ := dirLookup_present ok opened.dir.1 (Fs.use_open opened.dir.2.2) plain.2 present
  obtain ⟨away, kept⟩ := may x (List.mem_of_getElem? slot)
  have effect := opened.openFile (x := x) mounted.dir.fine away mounted.foreign
  have named : ¬path.length = 0 := fun empty => plain.1 (by rw [List.length_eq_zero_iff.mp empty]; rfl)
  have some : 0 < (splitPathFilename path).2.length := List.length_pos_of_ne_nil plain.1
  obtain ⟨j, held, live⟩ : ∃ j, (dirClose (inodeOpen (dirOpenRoot s).2 x).2 (dirOpenRoot s).1).findInode x = Option.some j ∧
      j.removed = false := by
    cases before : s.findInode x with
    | none =>
      obtain ⟨j, held, -, live, -⟩ := effect.fresh before
      exact ⟨j, held, live⟩
    | some j => exact ⟨j, effect.kept j before, kept j before⟩
  have removed : inodeIsRemoved (dirClose (inodeOpen (dirOpenRoot s).2 x).2 (dirOpenRoot s).1) x = false := by
    unfold inodeIsRemoved
    rw [held]
    exact live
  have listed : (dirClose (inodeOpen (dirOpenRoot s).2 x).2 (dirOpenRoot s).1).use x =
      dirClose (inodeOpen (dirOpenRoot s).2 x).2 (dirOpenRoot s).1 := Fs.use_open (by rw [held]; rfl)
  refine ⟨k, x, slot, away, ?_⟩
  simp only [filesysOpen, if_neg named, if_pos some, found, openFound, listed, removed, Bool.false_eq_true, if_false]

theorem filesysOpen_effect {path : CString} (mounted : Mounted s n) (plain : Plain (splitPathFilename path).2)
    (present : (splitPathFilename path).2 ∈ keys (rootSlots s))
    (may : ∀ x, some ((splitPathFilename path).2, x) ∈ rootSlots s →
      x ≠ ROOT_DIR_SECTOR ∧ ∀ i, s.findInode x = some i → i.removed = false) :
    ∃ (k : Nat) (x : BlockSector), (rootSlots s)[k]? = some (some ((splitPathFilename path).2, x)) ∧
      (filesysOpen s path).1 = some (fileOpen x) ∧ FileOpened s (filesysOpen s path).2 x := by
  obtain ⟨k, x, slot, away, run⟩ := filesysOpen_run mounted plain present may
  rw [run]
  exact ⟨k, x, slot, rfl, (dirOpenRoot_spec mounted.handle).openFile mounted.dir.fine away mounted.foreign⟩

theorem filesysOpen_nothing {path : CString} (mounted : Mounted s n) (plain : Plain (splitPathFilename path).2)
    (absent : (splitPathFilename path).2 ∉ keys (rootSlots s)) :
    filesysOpen s path = (none, dirClose (dirOpenRoot s).2 (dirOpenRoot s).1) := by
  have opened := dirOpenRoot_spec mounted.handle
  have only := opened.only mounted.dir.fine
  obtain ⟨ok, slots⟩ := mounted.dir.rehandled only.rehandled
  rw [← slots] at absent
  have found := dirLookup_absent ok opened.dir.1 (Fs.use_open opened.dir.2.2) plain.2 absent
  have named : ¬path.length = 0 := fun empty => plain.1 (by rw [List.length_eq_zero_iff.mp empty]; rfl)
  have some : 0 < (splitPathFilename path).2.length := List.length_pos_of_ne_nil plain.1
  simp only [filesysOpen, if_neg named, if_pos some, found, openFound]

theorem filesysOpen_absent {path : CString} (mounted : Mounted s n) (plain : Plain (splitPathFilename path).2)
    (absent : (splitPathFilename path).2 ∉ keys (rootSlots s)) :
    (filesysOpen s path).1 = none ∧ RootClosed s (filesysOpen s path).2 := by
  have opened := dirOpenRoot_spec mounted.handle
  have only := opened.only mounted.dir.fine
  rw [filesysOpen_nothing mounted plain absent]
  refine ⟨rfl, only.trans (dirClose_spec only.handle opened.dir.1 ?_)⟩
  rw [only.rehandled.freeMapFile]
  exact mounted.foreign

theorem dirClose_opened_freed (mounted : Mounted s n) :
    (dirClose (dirOpenRoot s).2 (dirOpenRoot s).1).usedFreed = s.usedFreed := by
  have opened := dirOpenRoot_spec mounted.handle
  exact (dirClose_freed opened.handle opened.dir.1 opened.dir.2.2).trans (congrArg Fs.usedFreed opened.rest :)

theorem dirClose_opened_shut (mounted : Mounted s n) (shut : Shut s) : Shut (dirClose (dirOpenRoot s).2 (dirOpenRoot s).1) := by
  have opened := dirOpenRoot_spec mounted.handle
  have only := opened.only mounted.dir.fine
  obtain ⟨i, found⟩ := Option.isSome_iff_exists.mp opened.dir.2.2
  refine (opened.shut (e := i.data) opened.handle.nodup (by rw [found]; rfl) rfl ?_).2 shut
  rw [only.rehandled.freeMapFile]
  exact mounted.foreign

end opening

end ShellOs.FileSystem
