import ShellOs.FileSystem.Inverse
import ShellOs.FileSystem.Scan

/-! The root directory as a finite map from names to inode sectors. -/

namespace ShellOs.FileSystem
open Lib SlotMap

namespace Volume

variable {s t : FlatFs} {n : Nat} {x : BlockSector}

theorem quiet (vol : Volume s n) (change : Change s t []) (inodes : t.openInodes = s.openInodes)
    (cwd : t.cwd = s.cwd) : Volume t n ∧ rootSlots t = rootSlots s := by
  have find : ∀ z, t.findInode z = s.findInode z := fun z => by rw [Fs.findInode, inodes]; rfl
  have still : ∀ y ∈ FileSystem.owners s, FileAt t y ∧ sectorsOf t y = sectorsOf s y ∧ contents t y = contents s y ∧
      t.inodeLength y = s.inodeLength y ∧ t.inodeData y = s.inodeData y := fun y mine =>
    bystander (vol.owner mine) change (fun z _ => List.not_mem_nil) (find y)
  obtain ⟨-, -, -, -, dataRoot⟩ := still ROOT_DIR_SECTOR List.mem_cons_self
  obtain ⟨ok, slots, -⟩ := vol.mounted.dir.change change (fun z _ => List.not_mem_nil) (Or.inl dataRoot)
    ((deny_of_find (find _)).trans vol.mounted.dir.writable)
  have files : rootFiles t = rootFiles s := by rw [rootFiles, slots, rootFiles]
  have mine : FileSystem.owners t = FileSystem.owners s := by rw [FileSystem.owners, files, FileSystem.owners]
  have nodup : HandlesNodup t := by
    rw [HandlesNodup, inodes]
    exact vol.mounted.handle.nodup
  have mounted : Mounted t n := by
    refine ⟨ok, ?_, vol.mounted.handle.congr nodup (find _) cwd, fun z held => ?_⟩
    · rw [change.freeMapFile]
      exact vol.mounted.map
    · rw [find] at held
      exact change.used z (vol.mounted.listed z held) List.not_mem_nil
  refine ⟨⟨mounted, by rw [slots]; exact vol.names, by rw [mine]; exact vol.owners, fun y listed => ?_,
    fun a mineA b mineB different z inA => ?_, fun z i held notMap notRoot => ?_⟩, slots⟩
  · rw [files] at listed
    obtain ⟨file, -, -, -, data⟩ := still y (List.mem_cons_of_mem _ listed)
    rw [data]
    exact ⟨file, (vol.file y listed).2⟩
  · rw [mine] at mineA mineB
    rw [(still a mineA).2.1] at inA
    rw [(still b mineB).2.1]
    exact vol.apart a mineA b mineB different z inA
  · rw [files]
    rw [find] at held
    exact vol.single z i held notMap notRoot

end Volume

/-- A well-formed regular file that the root directory does not list and nobody has open. -/
structure Spare (s : FlatFs) (x : BlockSector) : Prop where
  file : FileAt s x
  regular : (s.inodeData x).isDir = false
  unlisted : x ∉ owners s
  apart : ∀ y ∈ owners s, ∀ z ∈ sectorsOf s y, z ∉ sectorsOf s x
  closed : s.findInode x = none

namespace Volume

variable {s t : FlatFs} {n : Nat} {x : BlockSector} {name : CString}

theorem adds (vol : Volume s n) (spare : Spare s x) (proper : (0 : Byte) ∉ name) {r : Bool × FlatFs}
    {new : List BlockSector} (effect : AddEffect s name x r new) :
    (∃ m, Volume r.2 m) ∧ (r.2.findInode ROOT_DIR_SECTOR).isSome = (s.findInode ROOT_DIR_SECTOR).isSome ∧
      (r.1 = true → name ∉ keys (rootSlots s) ∧ rootSlots r.2 = put (rootSlots s) (name, x)) ∧
      (r.1 = false → rootSlots r.2 = rootSlots s) := by
  have fine := vol.mounted.dir.fine
  have change := effect.took.change fine
  obtain ⟨m, ok⟩ := effect.dir
  have cwd : r.2.cwd = s.cwd := by rw [effect.took.rest]
  have mounted : Mounted r.2 m := by
    refine ⟨ok, ?_, vol.mounted.handle.same effect.handles cwd, fun z held => ?_⟩
    · rw [change.freeMapFile]
      exact vol.mounted.map
    · rw [effect.handles.listed] at held
      exact effect.took.keepsUsed z (vol.mounted.listed z held)
  have file : ∀ y ∈ x :: rootFiles s, FileAt s y ∧ (s.inodeData y).isDir = false ∧ y ≠ ROOT_DIR_SECTOR ∧
      ∀ z ∈ sectorsOf s y, z ∉ sectorsOf s ROOT_DIR_SECTOR := by
    intro y member
    rcases List.mem_cons.mp member with rfl | listed
    · refine ⟨spare.file, spare.regular, fun same => spare.unlisted (same ▸ List.mem_cons_self), ?_⟩
      exact fun z mine theirs => spare.apart _ List.mem_cons_self z theirs mine
    · obtain ⟨fileY, regular⟩ := vol.file y listed
      exact ⟨fileY, regular, vol.ne_root listed,
        vol.apart y (List.mem_cons_of_mem _ listed) _ List.mem_cons_self (vol.ne_root listed)⟩
  have still : ∀ y ∈ x :: rootFiles s, FileAt r.2 y ∧ sectorsOf r.2 y = sectorsOf s y ∧
      (r.2.inodeData y).isDir = false := by
    intro y member
    obtain ⟨fileY, regular, away, apart⟩ := file y member
    obtain ⟨next, sectors, -, -, data⟩ := bystander fileY change apart (effect.handles.others y away)
    rw [data]
    exact ⟨next, sectors, regular⟩
  have single : ∀ z i, r.2.findInode z = some i → z ≠ FREE_MAP_SECTOR → z ≠ ROOT_DIR_SECTOR →
      z ∈ rootFiles s ∧ i.openCnt = 1 ∧ i.removed = false ∧ i.denyWriteCnt = 0 := by
    intro z i held notMap notRoot
    rw [effect.handles.others z notRoot] at held
    exact vol.single z i held notMap notRoot
  have apartS : ∀ a ∈ x :: FileSystem.owners s, ∀ b ∈ x :: FileSystem.owners s, a ≠ b →
      ∀ z ∈ sectorsOf s a, z ∉ sectorsOf s b := by
    intro a mineA b mineB different z inA inB
    rcases List.mem_cons.mp mineA with rfl | ownerA
    · rcases List.mem_cons.mp mineB with rfl | ownerB
      · exact different rfl
      · exact spare.apart b ownerB z inB inA
    · rcases List.mem_cons.mp mineB with rfl | ownerB
      · exact spare.apart a ownerA z inA inB
      · exact vol.apart a ownerA b ownerB different z inA inB
  -- who owns a sector afterwards owned it before, unless the directory has just taken it
  have disjoint : (∀ y ∈ rootFiles r.2, y ∈ x :: rootFiles s) → ∀ a ∈ FileSystem.owners r.2,
      ∀ b ∈ FileSystem.owners r.2, a ≠ b → ∀ z ∈ sectorsOf r.2 a, z ∉ sectorsOf r.2 b := by
    intro sub
    have usedOld : ∀ y ∈ rootFiles r.2, ∀ z ∈ sectorsOf r.2 y, z ∈ sectorsOf s y ∧ Used s.freeMap z := by
      intro y listed z inside
      rw [(still y (sub y listed)).2.1] at inside
      exact ⟨inside, (file y (sub y listed)).1.own.used z inside⟩
    have among : ∀ y ∈ rootFiles r.2, y ∈ x :: FileSystem.owners s := fun y listed => by
      rcases List.mem_cons.mp (sub y listed) with rfl | old
      · exact List.mem_cons_self
      · exact List.mem_cons_of_mem _ (List.mem_cons_of_mem _ old)
    have grew : Grew (x :: FileSystem.owners s) s r.2 := by
      refine ⟨fun y owner z inside used => ?_, fun a ownerA b ownerB different z inA inB => ?_⟩
      · rcases List.mem_cons.mp owner with rfl | listed
        · refine ⟨List.mem_cons_of_mem _ List.mem_cons_self, ?_⟩
          exact (effect.sectors z inside).resolve_right fun added => effect.took.new_not_used added used
        · exact ⟨among y listed, (usedOld y listed z inside).1⟩
      · rcases List.mem_cons.mp ownerA with rfl | listedA
        · exact (usedOld b ((List.mem_cons.mp ownerB).resolve_left different.symm) z inB).2
        · exact (usedOld a listedA z inA).2
    exact grew.disjoint apartS
  refine ⟨?_, effect.handles.listed _, fun made => ⟨(effect.done.mp made).2.1, effect.slots made proper⟩, effect.failed⟩
  cases made : r.1 with
  | true =>
    have perm : (bindings (rootSlots r.2)).Perm ((name, x) :: bindings (rootSlots s)) := by
      rw [effect.slots made proper]
      exact put_perm _ _
    have files : ∀ y, y ∈ rootFiles r.2 ↔ y ∈ x :: rootFiles s := fun y => by
      rw [rootFiles, (perm.map Prod.snd).mem_iff, List.map_cons]
      rfl
    obtain ⟨rootApart, distinct⟩ := List.nodup_cons.mp vol.owners
    have stranger : x ∉ rootFiles s := fun listed => spare.unlisted (List.mem_cons_of_mem _ listed)
    refine ⟨m, mounted, ?_, List.nodup_cons.mpr ⟨fun listed => ?_, ?_⟩, fun y listed => ?_,
      disjoint fun y => (files y).mp, fun z i held notMap notRoot => ?_⟩
    · exact (keys_perm perm).nodup_iff.mpr (List.nodup_cons.mpr ⟨(effect.done.mp made).2.1, vol.names⟩)
    · rcases List.mem_cons.mp ((files _).mp listed) with same | old
      · exact spare.unlisted (same ▸ List.mem_cons_self)
      · exact rootApart old
    · exact (perm.map Prod.snd).nodup_iff.mpr (List.nodup_cons.mpr ⟨stranger, distinct⟩)
    · obtain ⟨next, -, regular⟩ := still y ((files y).mp listed)
      exact ⟨next, regular⟩
    · obtain ⟨old, facts⟩ := single z i held notMap notRoot
      exact ⟨(files z).mpr (List.mem_cons_of_mem _ old), facts⟩
  | false =>
    have slots := effect.failed made
    have files : rootFiles r.2 = rootFiles s := by rw [rootFiles, slots, rootFiles]
    have mine : FileSystem.owners r.2 = FileSystem.owners s := by rw [FileSystem.owners, files, FileSystem.owners]
    refine ⟨m, mounted, by rw [slots]; exact vol.names, by rw [mine]; exact vol.owners, fun y listed => ?_,
      disjoint fun y listed => List.mem_cons_of_mem _ (files ▸ listed), by rw [files]; exact single⟩
    rw [files] at listed
    obtain ⟨next, -, regular⟩ := still y (List.mem_cons_of_mem _ listed)
    exact ⟨next, regular⟩

end Volume

section operations

variable {σ : Type} [Store σ BlockSector Sector] [LawfulStore σ]

/-- What `filesys_create` does before it enters a new file in the directory. -/
def makeFile (s : Fs σ) (size : Int) : Option BlockSector × Fs σ :=
  let sector := freeMapAllocate s 1
  match sector.1 with
  | none => (none, sector.2)
  | some x =>
    let r := inodeCreate sector.2 x size false
    if r.1 then (some x, r.2) else (none, freeMapRelease r.2 x 1)

/-- Up to `calls` calls of `dir_readdir`: the names they give, whether the last one gave none, and the handle. -/
def readNames : Nat → Fs σ → Dir → List CString × Bool × Dir × Fs σ
  | 0, s, dir => ([], false, dir, s)
  | calls + 1, s, dir =>
    let r := dirReaddir s dir
    match r.1 with
    | none => ([], true, r.2)
    | some name =>
      let later := readNames calls r.2.2 r.2.1
      (name :: later.1, later.2)

theorem makeFile_flat (s : Fs σ) (size : Int) : flatten (makeFile s size) = makeFile s.flat size := by
  have sector := freeMapAllocate_flat s 1
  have value := congrArg Prod.fst sector
  have state := congrArg Prod.snd sector
  simp only [flatten_fst, flatten_snd] at value state
  unfold makeFile
  simp only [← value, ← state]
  cases (freeMapAllocate s 1).1 with
  | none => rfl
  | some x =>
    have r := inodeCreate_flat (freeMapAllocate s 1).2 x size false
    simp only [← r, flatten_fst, flatten_snd, flatten_ite, flatten_mk, freeMapRelease_flat]

theorem readNames_flat (calls : Nat) (s : Fs σ) (dir : Dir) : readNames calls s.flat dir =
    ((readNames calls s dir).1, (readNames calls s dir).2.1, (readNames calls s dir).2.2.1,
      (readNames calls s dir).2.2.2.flat) := by
  induction calls generalizing s dir with
  | zero => rfl
  | succ calls ih =>
    rw [readNames, readNames, dirReaddir_flat]
    simp only
    cases (dirReaddir s dir).1 with
    | none => rfl
    | some name => simp only [ih]

end operations

section effects

variable {s t : FlatFs} {n : Nat} {x : BlockSector} {dir : Dir}

theorem makeFile_cases (vol : Volume s n) (size : Int) :
    (freeSectors s.freeMap = [] ∧ makeFile s size = (none, s)) ∨
    ∃ y m new, Took s m [y] [] ∧ m.openInodes = s.openInodes ∧
      CreateEffect m y size false (inodeCreate m y size false) new ∧
      makeFile s size = if (inodeCreate m y size false).1 then (some y, (inodeCreate m y size false).2)
        else (none, freeMapRelease (inodeCreate m y size false).2 y 1) := by
  have fine := vol.mounted.dir.fine
  obtain ⟨exhausted, takes⟩ := freeMapAllocate_allocates s fine
  unfold makeFile
  cases free : freeSectors s.freeMap with
  | nil =>
    have run : freeMapAllocate s 1 = (none, s) := exhausted free
    rw [run]
    exact Or.inl ⟨rfl, rfl⟩
  | cons y rest =>
    obtain ⟨m, run, took, -, opened⟩ := takes y rest free
    have alone : freeMapAllocate s 1 = (some y, m) := run
    have mine := List.mem_singleton_self y
    have unlisted : m.findInode y = none := by
      rw [← Option.not_isSome_iff_eq_none, Fs.findInode, opened]
      exact fun held => took.new_not_used mine (vol.mounted.listed y held)
    have apart : y ∉ freeMapNodes m := by
      rw [took.nodes]
      exact took.new_not_freeMapNodes fine mine
    obtain ⟨new, effect⟩ := inodeCreate_effect took.ok (took.new_ne_zero fine mine) (took.new_used mine) apart unlisted
      size false
    rw [alone]
    exact Or.inr ⟨y, m, new, took, opened, effect, rfl⟩

theorem makeFile_quiet (vol : Volume s n) (size : Int) : Change s (makeFile s size).2 [] ∧
    (makeFile s size).2.openInodes = s.openInodes ∧ (makeFile s size).2.cwd = s.cwd := by
  have fine := vol.mounted.dir.fine
  rcases makeFile_cases vol size with ⟨-, run⟩ | ⟨y, m, new, took, opened, effect, run⟩
  · rw [run]
    exact ⟨(Took.refl fine).change fine, rfl, rfl⟩
  · have mine := List.mem_singleton_self y
    have fresh := took.new_not_used mine
    have made : Change s (inodeCreate m y size false).2 [] :=
      (took.change fine).trans (effect.took.change took.ok) (fun z never => never) fun z member used =>
        absurd (List.mem_singleton.mp member ▸ used) fresh
    have rest : (inodeCreate m y size false).2.cwd = s.cwd := by
      rw [effect.took.rest, took.rest]
    rw [run]
    split
    · exact ⟨made, effect.opened.trans opened, rest⟩
    · have released := freeMapRelease_spec (x := y) effect.took.ok (took.new_ne_zero fine mine) (by
        rw [effect.took.nodes, took.nodes]
        exact took.new_not_freeMapNodes fine mine)
      have inodes : (freeMapRelease (inodeCreate m y size false).2 y 1).openInodes =
          (inodeCreate m y size false).2.openInodes := (congrArg Fs.openInodes released.rest :)
      have cwd : (freeMapRelease (inodeCreate m y size false).2 y 1).cwd =
          (inodeCreate m y size false).2.cwd := (congrArg Fs.cwd released.rest :)
      exact ⟨made.trans (released.change effect.took.ok) (fun z never => never) fun z member used =>
        absurd (List.mem_singleton.mp member ▸ used) fresh, inodes.trans (effect.opened.trans opened), cwd.trans rest⟩

theorem makeFile_spare (vol : Volume s n) {size : Int} (sizeOk : SizeOk size)
    (enough : (createNeeds size).length < (freeSectors s.freeMap).length) :
    ∃ x, (makeFile s size).1 = some x ∧ Spare (makeFile s size).2 x := by
  have fine := vol.mounted.dir.fine
  obtain ⟨change, inodes, cwd⟩ := makeFile_quiet vol size
  obtain ⟨next, slots⟩ := vol.quiet change inodes cwd
  rcases makeFile_cases vol size with ⟨full, -⟩ | ⟨y, m, new, took, opened, effect, run⟩
  · rw [full] at enough
    exact absurd enough (Nat.not_lt_zero _)
  · have left := congrArg List.length took.free
    rw [List.length_append, List.length_singleton] at left
    have done := effect.done.mpr ⟨sizeOk.1, sizeOk.2, by omega⟩
    rw [run, if_pos done] at change inodes next slots ⊢
    have made : Change s (inodeCreate m y size false).2 [] := change
    obtain ⟨file, sub, isDir, -⟩ := effect.file done
    have unused : ∀ z ∈ sectorsOf (inodeCreate m y size false).2 y, ¬Used s.freeMap z := by
      intro z member used
      rcases sub z member with rfl | added
      · exact took.new_not_used (List.mem_singleton_self z) used
      · exact effect.took.new_not_used added (took.keepsUsed z used)
    have mine : owners (inodeCreate m y size false).2 = owners s := by
      rw [owners, rootFiles, slots]
      rfl
    refine ⟨y, rfl, file, by rw [InodeDisk.isDir, isDir]; decide, fun owner => ?_, fun z owner w theirs here => ?_, ?_⟩
    · rw [mine] at owner
      exact unused y List.mem_cons_self ((vol.owner owner).own.used y List.mem_cons_self)
    · rw [mine] at owner
      have find : (inodeCreate m y size false).2.findInode z = s.findInode z := by
        rw [Fs.findInode, inodes]
        rfl
      obtain ⟨-, same, -⟩ := Volume.bystander (vol.owner owner) made (fun _ _ => List.not_mem_nil) find
      rw [same] at theirs
      exact unused w here ((vol.owner owner).own.used w theirs)
    · rw [Fs.findInode, inodes]
      cases held : s.findInode y with
      | none => exact held
      | some i =>
        exact absurd (vol.mounted.listed y (by rw [held]; rfl)) (unused y List.mem_cons_self)

theorem dirReaddir_state (s : FlatFs) (dir : Dir) :
    ∃ pos, (dirReaddir s dir).2 = (moved s dir pos, setDir (s.use (dirAt s dir).inode) (moved s dir pos)) := by
  obtain ⟨-, state⟩ :=
    scanEntries_flat (s.use (dirAt s dir).inode) (dirAt s dir).inode (fun e => e.inUse) (dirAt s dir).pos
  simp only [Fs.flat_flat] at state
  simp only [dirReaddir, state]
  exact ⟨_, rfl⟩

theorem readNames_closed (handle : RootHandle s) (calls : Nat) (dir : Dir) :
    RootClosed s (readNames calls s dir).2.2.2 ∧ (readNames calls s dir).2.2.2.openInodes = s.openInodes := by
  induction calls generalizing s dir with
  | zero => exact ⟨RootClosed.refl handle, rfl⟩
  | succ calls ih =>
    obtain ⟨pos, state⟩ := dirReaddir_state s dir
    have used := RootClosed.use handle (dirAt s dir).inode
    have same : moved (s.use (dirAt s dir).inode) dir pos = moved s dir pos := by rw [moved, dirAt, Fs.use_cwd]; rfl
    have only := used.trans (setDir_moved used.handle dir pos)
    have inodes : (setDir (s.use (dirAt s dir).inode) (moved s dir pos)).openInodes = s.openInodes := by
      rw [setDir_rest, Fs.use_openInodes]
    rw [same] at only
    simp only [readNames]
    cases (dirReaddir s dir).1 with
    | none =>
      rw [state]
      exact ⟨only, inodes⟩
    | some name =>
      rw [state]
      obtain ⟨later, same⟩ := ih only.handle (moved s dir pos)
      exact ⟨only.trans later, same.trans inodes⟩

theorem readNames_spec (ok : DirOk s n) (handle : RootHandle s) (listed : (s.findInode ROOT_DIR_SECTOR).isSome)
    {k : Nat} (before : Before s dir k)
    (inside : k ≤ (rootSlots s).length) {calls : Nat} (enough : (bindings ((rootSlots s).drop k)).length < calls) :
    (readNames calls s dir).1 = keys ((rootSlots s).drop k) ∧ (readNames calls s dir).2.1 = true := by
  induction calls generalizing s dir k with
  | zero => exact absurd enough (Nat.not_lt_zero _)
  | succ calls ih =>
    rcases dirReaddir_spec ok (Fs.use_open listed) before inside with ⟨empty, run, -⟩ | ⟨j, name, x, -, slot, rest, run, next⟩
    · simp only [readNames, run]
      exact ⟨by rw [keys, empty]; rfl, trivial⟩
    · have only := setDir_moved handle dir (36 * (j + 2) : Nat)
      obtain ⟨okNext, slots⟩ := ok.rehandled only.rehandled
      have small : j + 1 ≤ (rootSlots s).length := (List.getElem?_eq_some_iff.mp slot).1
      rw [rest, List.length_cons] at enough
      have still : ((setDir s (moved s dir (36 * (j + 2) : Nat))).findInode ROOT_DIR_SECTOR).isSome := by
        rw [setDir_rest]
        exact listed
      obtain ⟨names, complete⟩ := ih okNext only.handle still next (by rw [slots]; exact small) (by rw [slots]; omega)
      simp only [readNames, run]
      refine ⟨?_, complete⟩
      rw [names, slots, keys, keys, rest, List.map_cons]

theorem dirRemove_unlinked (vol : Volume s n) (here : dir.inode = ROOT_DIR_SECTOR) {name : CString}
    (present : name ∈ keys (rootSlots s)) : ∃ (k : Nat) (x : BlockSector),
      (rootSlots s)[k]? = some (some (name, x)) ∧ (dirRemove s dir name).1 = true ∧
        Unlinked s (dirRemove s dir name).2 x n k ∧
        (dirRemove s dir name).2.findInode ROOT_DIR_SECTOR = s.findInode ROOT_DIR_SECTOR := by
  have may : ∀ x, some (name, x) ∈ rootSlots s → Removable s x := fun x member =>
    vol.removable (mem_rootFiles.mpr ⟨_, member⟩)
  have handle := vol.mounted.handle
  obtain ⟨k, x, slot, effect⟩ := dirRemove_effect vol.mounted.dir here handle.nodup present may
  have mayX := may x (List.mem_of_getElem? slot)
  have root := effect.others ROOT_DIR_SECTOR mayX.ne_root.symm
  have handleNext := handle.congr effect.nodup root effect.cwd
  exact ⟨k, x, slot, effect.removed,
    effect.unlinked (RootClosed.refl handle) (RootClosed.refl handleNext) vol.mounted.dir mayX, root⟩

end effects

/-- The calls on the root directory, and the making of files to be entered in it. -/
inductive DirOp
  | make (size : Int)
  | add (name : CString) (sector : BlockSector)
  | remove (name : CString)
  | lookup (name : CString)
  | scan (handle : Dir) (calls : Nat)

namespace DirOp

/-- What the directory should hold: the names added and not yet removed, each with its latest sector. -/
abbrev Entries := CString → Option BlockSector

def step {σ : Type} [Store σ BlockSector Sector] [LawfulStore σ] (dir : Dir) (p : Fs σ × Entries) :
    DirOp → Fs σ × Entries
  | make size => ((makeFile p.1 size).2, p.2)
  | add name sector =>
    let r := dirAdd p.1 dir name sector false
    (r.2, if r.1 then Function.update p.2 name (some sector) else p.2)
  | remove name =>
    let r := dirRemove p.1 dir name
    (r.2, if r.1 then Function.update p.2 name none else p.2)
  | lookup name => ((dirLookup p.1 dir name).2, p.2)
  | scan handle calls => ((readNames calls p.1 handle).2.2.2, p.2)

/-- Names are strings other than "." and "..", and what is added is a well-formed file that is not listed yet. -/
def May (s : FlatFs) : DirOp → Prop
  | make _ => True
  | add name sector => 0 ∉ name ∧ Spare s sector
  | remove _ => True
  | lookup name => name ≠ dot ∧ name ≠ dotDot
  | scan _ _ => True

theorem step_flat {σ : Type} [Store σ BlockSector Sector] [LawfulStore σ] (dir : Dir) (p : Fs σ × Entries) (op : DirOp) :
    ((step dir p op).1.flat, (step dir p op).2) = step dir (p.1.flat, p.2) op := by
  cases op with
  | make size => simp only [step, ← makeFile_flat, flatten_snd]
  | add name sector => simp only [step, ← dirAdd_flat, flatten_fst, flatten_snd]
  | remove name => simp only [step, ← dirRemove_flat, flatten_fst, flatten_snd]
  | lookup name => simp only [step, ← dirLookup_flat, flatten_snd]
  | scan handle calls => simp only [step, readNames_flat]

end DirOp

/-- The root directory is open and holds what it should. -/
structure DirHolds (s : FlatFs) (m : DirOp.Entries) : Prop where
  volume : ∃ n, Volume s n
  held : (s.findInode ROOT_DIR_SECTOR).isSome
  map : ∀ name, find (rootSlots s) name = m name

namespace DirHolds

variable {s : FlatFs} {m : DirOp.Entries} {dir : Dir} {name : CString} {x : BlockSector}

theorem bound_iff (holds : DirHolds s m) : name ∈ keys (rootSlots s) ↔ m name ≠ none := by
  rw [← holds.map, ne_eq, find_eq_none, not_not]

theorem congr {t : FlatFs} (holds : DirHolds s m) {n : Nat} (vol : Volume t n) (slots : rootSlots t = rootSlots s)
    (held : (t.findInode ROOT_DIR_SECTOR).isSome) : DirHolds t m :=
  ⟨⟨n, vol⟩, held, fun name => by rw [slots]; exact holds.map name⟩

theorem add (holds : DirHolds s m) (here : dir.inode = ROOT_DIR_SECTOR) (proper : (0 : Byte) ∉ name)
    (spare : Spare s x) : DirHolds (dirAdd s dir name x false).2
      (if (dirAdd s dir name x false).1 then Function.update m name (some x) else m) := by
  obtain ⟨n, vol⟩ := holds.volume
  obtain ⟨new, effect⟩ := dirAdd_effect vol.mounted.dir here holds.held vol.mounted.foreign name x
  obtain ⟨next, held, made, failed⟩ := vol.adds spare proper effect
  refine ⟨next, held.trans holds.held, fun q => ?_⟩
  split
  next done =>
    obtain ⟨absent, slots⟩ := made done
    have added : (bindings (rootSlots (dirAdd s dir name x false).2)).Perm ((name, x) :: bindings (rootSlots s)) := by
      rw [slots]
      exact put_perm _ _
    rw [find_added added vol.names absent, Function.update_apply, holds.map]
  next refused =>
    rw [failed (Bool.eq_false_iff.mpr refused)]
    exact holds.map q

theorem remove (holds : DirHolds s m) (here : dir.inode = ROOT_DIR_SECTOR) (name : CString) :
    DirHolds (dirRemove s dir name).2 (if (dirRemove s dir name).1 then Function.update m name none else m) := by
  obtain ⟨n, vol⟩ := holds.volume
  by_cases present : name ∈ keys (rootSlots s)
  · obtain ⟨k, x, slot, done, unlinked, root⟩ := dirRemove_unlinked vol here present
    obtain ⟨next, perm, -⟩ := vol.removes slot unlinked
    refine ⟨⟨n, next⟩, by rw [root]; exact holds.held, fun q => ?_⟩
    rw [if_pos done, find_removed perm vol.names, Function.update_apply, holds.map]
  · rw [dirRemove_absent vol.mounted.dir here present, Fs.use_open holds.held]
    exact holds

theorem lookup (holds : DirHolds s m) (here : dir.inode = ROOT_DIR_SECTOR) (plain : name ≠ dot ∧ name ≠ dotDot) :
    (dirLookup s dir name).1 = m name ∧ DirHolds (dirLookup s dir name).2 m := by
  obtain ⟨n, vol⟩ := holds.volume
  by_cases present : name ∈ keys (rootSlots s)
  · obtain ⟨k, x, slot, run⟩ := dirLookup_present vol.mounted.dir here (Fs.use_open holds.held) plain present
    have member := List.mem_of_getElem? slot
    have listed : x ∈ rootFiles s := mem_rootFiles.mpr ⟨_, member⟩
    have opened := (inodeOpen_spec s x).fileOpened vol.mounted.handle vol.mounted.dir.fine (vol.ne_root listed)
    obtain ⟨next, slots, -⟩ := vol.opens listed opened
    rw [run]
    refine ⟨?_, holds.congr next slots ?_⟩
    · rw [← holds.map, (find_eq_some vol.names).mpr (mem_bindings.mpr member)]
    · rw [(inodeOpen_spec s x).others _ (vol.ne_root listed).symm]
      exact holds.held
  · rw [dirLookup_absent vol.mounted.dir here (Fs.use_open holds.held) plain present]
    exact ⟨(not_not.mp (mt holds.bound_iff.mpr present)).symm, holds⟩

theorem step (holds : DirHolds s m) (here : dir.inode = ROOT_DIR_SECTOR) {op : DirOp} (may : op.May s) :
    DirHolds (DirOp.step dir (s, m) op).1 (DirOp.step dir (s, m) op).2 := by
  obtain ⟨n, vol⟩ := holds.volume
  cases op with
  | make size =>
    obtain ⟨change, inodes, cwd⟩ := makeFile_quiet vol size
    obtain ⟨next, slots⟩ := vol.quiet change inodes cwd
    have find : (makeFile s size).2.findInode ROOT_DIR_SECTOR = s.findInode ROOT_DIR_SECTOR := by
      rw [Fs.findInode, inodes]
      rfl
    exact holds.congr next slots (find ▸ holds.held)
  | add name sector => exact holds.add here may.1 may.2
  | remove name => exact holds.remove here name
  | lookup name => exact (holds.lookup here may).2
  | scan handle calls =>
    obtain ⟨only, inodes⟩ := readNames_closed vol.mounted.handle calls handle
    obtain ⟨next, slots, -⟩ := vol.only only
    have find : (readNames calls s handle).2.2.2.findInode ROOT_DIR_SECTOR = s.findInode ROOT_DIR_SECTOR := by
      rw [Fs.findInode, inodes]
      rfl
    exact holds.congr next slots (find ▸ holds.held)

end DirHolds

def HasRoom (s : FlatFs) : Prop :=
  freeSlot (rootSlots s) < (rootSlots s).length ∨
    (36 * (freeSlot (rootSlots s) + 1) + 36 ≤ MAX_LENGTH ∧
      (writeNeeds s ROOT_DIR_SECTOR (36 * (freeSlot (rootSlots s) + 1) + 36)).length ≤ (freeSectors s.freeMap).length)

/-- What the calls on a directory answer when it holds `m`. -/
structure Answers (s : Fs BufferCache) (dir : Dir) (m : DirOp.Entries) : Prop where
  add : ∀ name x, 0 ∉ name → Spare s.flat x →
    ((dirAdd s dir name x false).1 = true ↔ NameOk name ∧ m name = none ∧ HasRoom s.flat)
  remove : ∀ name, (dirRemove s dir name).1 = true ↔ m name ≠ none
  lookup : ∀ name, name ≠ dot → name ≠ dotDot → (dirLookup s dir name).1 = m name
  scan : ∀ handle, Before s.flat handle 0 → ∀ calls, (rootSlots s.flat).length < calls →
    (readNames calls s handle).2.1 = true ∧ (readNames calls s handle).1.Nodup ∧
      ∀ name, name ∈ (readNames calls s handle).1 ↔ m name ≠ none

theorem hasRoom_iff {s : FlatFs} {n : Nat} (vol : Volume s n) :
    CanWrite s ROOT_DIR_SECTOR (36 * (freeSlot (rootSlots s) + 1) + 36) ↔ HasRoom s := by
  have length := vol.mounted.dir.length_slots
  have fits := vol.mounted.dir.fits
  have most := freeSlot_le (rootSlots s)
  simp only [MAX_LENGTH] at fits
  have count := bytesToSectors_eq (x := 36 * (freeSlot (rootSlots s) + 1) + 36) (by omega)
  simp only [CanWrite, HasRoom, vol.mounted.dir.writable, true_and, vol.mounted.dir.length, count, MAX_SECTORS, MAX_LENGTH]
  constructor
  · rintro (inside | ⟨few, enough⟩)
    · exact Or.inl (by omega)
    · exact Or.inr ⟨by omega, enough⟩
  · rintro (slot | ⟨few, enough⟩)
    · exact Or.inl (by omega)
    · exact Or.inr ⟨by omega, enough⟩

theorem DirHolds.answers {s : Fs BufferCache} {m : DirOp.Entries} {dir : Dir} (holds : DirHolds s.flat m)
    (here : dir.inode = ROOT_DIR_SECTOR) : Answers s dir m := by
  obtain ⟨n, vol⟩ := holds.volume
  refine ⟨fun name x proper spare => ?_, fun name => ?_, fun name single double => ?_, fun handle before calls enough => ?_⟩
  · obtain ⟨new, effect⟩ := dirAdd_effect vol.mounted.dir here holds.held vol.mounted.foreign name x
    have done := effect.done
    rw [← dirAdd_flat, flatten_fst, hasRoom_iff vol, holds.bound_iff, not_not] at done
    exact done
  · have flat := congrArg Prod.fst (dirRemove_flat s dir name)
    rw [flatten_fst] at flat
    rw [flat]
    constructor
    · intro done
      rw [← holds.bound_iff]
      by_contra absent
      rw [dirRemove_absent vol.mounted.dir here absent] at done
      cases done
    · intro bound
      obtain ⟨-, -, -, done, -⟩ := dirRemove_unlinked vol here (holds.bound_iff.mpr bound)
      exact done
  · have flat := congrArg Prod.fst (dirLookup_flat s dir name)
    rw [flatten_fst] at flat
    rw [flat]
    exact (holds.lookup here ⟨single, double⟩).1
  · have flat := readNames_flat calls s handle
    have few : (bindings ((rootSlots s.flat).drop 0)).length < calls :=
      lt_of_le_of_lt (List.length_filterMap_le _ _) enough
    obtain ⟨names, complete⟩ := readNames_spec vol.mounted.dir vol.mounted.handle holds.held before (Nat.zero_le _) few
    rw [flat, List.drop_zero] at names
    rw [flat] at complete
    refine ⟨complete, ?_, fun name => ?_⟩
    · rw [show (readNames calls s handle).1 = keys (rootSlots s.flat) from names]
      exact vol.names
    · rw [show (readNames calls s handle).1 = keys (rootSlots s.flat) from names]
      exact holds.bound_iff

theorem DirHolds.run {s t : Fs BufferCache} {m l : DirOp.Entries} {dir : Dir} (holds : DirHolds s.flat m)
    (here : dir.inode = ROOT_DIR_SECTOR)
    (run : Run (fun p op => DirOp.May p.1.flat op) (DirOp.step dir) (s, m) (t, l)) : DirHolds t.flat l := by
  apply Run.invariant (fun p => DirHolds p.1.flat p.2) run holds
  intro p op holds may
  have next := holds.step here may
  rw [← DirOp.step_flat] at next
  exact next

theorem dirOpenRoot_holds {s : Fs BufferCache} {size : BlockSector} (fresh : Fresh size s.flat) :
    (dirOpenRoot s).1.inode = ROOT_DIR_SECTOR ∧ DirHolds (dirOpenRoot s).2.flat (fun _ => none) ∧
      (dirOpenRoot s).2.flat.freeMap = s.flat.freeMap ∧ rootSlots (dirOpenRoot s).2.flat = List.replicate 999 none := by
  have opened := dirOpenRoot_spec fresh.mounted.handle
  rw [← dirOpenRoot_flat, flatten_fst, flatten_snd] at opened
  obtain ⟨here, -, held⟩ := opened.dir
  have only := opened.only fresh.mounted.dir.fine
  obtain ⟨vol, slots, -⟩ := fresh.volume.only only
  refine ⟨here, ⟨⟨_, vol⟩, held, fun name => ?_⟩, (congrArg Fs.freeMap only.rehandled.rest :), slots.trans fresh.slots⟩
  rw [slots, find_eq_none]
  exact fresh.absent name

/-- In every run on the root directory after formatting, the calls answer as a finite map would. -/
theorem directory_finite_map {cache : BufferCache} {size : BlockSector} (went : formats cache size = true)
    {s : Fs BufferCache} {m : DirOp.Entries}
    (run : Run (fun p op => DirOp.May p.1.flat op) (DirOp.step (dirOpenRoot (filesysInit cache size true)).1)
      ((dirOpenRoot (filesysInit cache size true)).2, fun _ => none) (s, m)) :
    Answers s (dirOpenRoot (filesysInit cache size true)).1 m := by
  have fresh : Fresh size (filesysInit cache size true).flat := by
    rw [filesysInit_flat]
    exact filesysInit_fresh (by rw [formats_flat]; exact went)
  obtain ⟨here, start, -, -⟩ := dirOpenRoot_holds fresh
  exact (start.run here run).answers here

theorem made_entered {s : Fs BufferCache} {dir : Dir} {m : DirOp.Entries} (holds : DirHolds s.flat m)
    (here : dir.inode = ROOT_DIR_SECTOR) {size : Int} (sizeOk : SizeOk size)
    (enough : (createNeeds size).length < (freeSectors s.flat.freeMap).length) {name : CString} (nameOk : NameOk name)
    (proper : 0 ∉ name) (free : m name = none)
    (room : freeSlot (rootSlots s.flat) < (rootSlots s.flat).length) :
    ∃ t x, Run (fun p op => DirOp.May p.1.flat op) (DirOp.step dir) (s, m) (t, Function.update m name (some x)) := by
  obtain ⟨n, vol⟩ := holds.volume
  obtain ⟨x, -, spare⟩ := makeFile_spare vol sizeOk enough
  obtain ⟨change, inodes, cwd⟩ := makeFile_quiet vol size
  obtain ⟨-, slots⟩ := vol.quiet change inodes cwd
  have one : Run (fun p op => DirOp.May p.1.flat op) (DirOp.step dir) (s, m) ((makeFile s size).2, m) :=
    .next (DirOp.make size) .start trivial
  have made := holds.run here one
  simp only [← makeFile_flat, flatten_snd] at slots spare
  have done := ((made.answers here).add name x proper spare).mpr ⟨nameOk, free, Or.inl (by rw [slots]; exact room)⟩
  have two := Run.next (DirOp.add name x) one ⟨proper, spare⟩
  simp only [DirOp.step, if_pos done] at two
  exact ⟨_, x, two⟩

theorem directory_finite_map_formatted : ∃ s x,
    Answers s (dirOpenRoot (formatted 80)).1 (Function.update (fun _ => none) [97] (some x)) := by
  have fits : FormatFits 80 := by decide +kernel
  have fresh := formatted_fresh fits
  obtain ⟨here, start, bits, slots⟩ := dirOpenRoot_holds fresh
  have needs : (createNeeds 512).length < 5 := by decide +kernel
  have free : (freeSectors (formatted 80).flat.freeMap).length = 5 := fresh.free_length.trans (by decide +kernel)
  have enough : (createNeeds 512).length < (freeSectors (dirOpenRoot (formatted 80)).2.flat.freeMap).length := by
    rw [bits, free]
    exact needs
  have room : freeSlot (rootSlots (dirOpenRoot (formatted 80)).2.flat) <
      (rootSlots (dirOpenRoot (formatted 80)).2.flat).length := by
    rw [slots, ← fresh.slots]
    exact fresh.room
  have sizeOk : SizeOk 512 := by decide +kernel
  have nameOk : NameOk [97] := by decide
  have proper : (0 : Byte) ∉ [97] := by decide
  obtain ⟨s, x, run⟩ := made_entered start here sizeOk enough nameOk proper rfl room
  exact ⟨s, x, directory_finite_map (formats_blank fits) run⟩

end ShellOs.FileSystem
