import ShellOs.FileSystem.Session

/-! Scans of the root directory with `dir_readdir`: a scan goes through the bindings in the order of their slots. -/

namespace ShellOs.FileSystem
open Lib SlotMap

section readdir

variable {s : FlatFs} {n : Nat} {dir : Dir}

def Before (s : FlatFs) (dir : Dir) (k : Nat) : Prop :=
  (dirAt s dir).inode = ROOT_DIR_SECTOR ∧ (dirAt s dir).pos = (36 * (k + 1) : Nat)

theorem setDir_rest (s : FlatFs) (dir : Dir) : setDir s dir = { s with cwd := (setDir s dir).cwd } := by
  unfold setDir
  split
  · split <;> rfl
  · rfl

theorem dirAt_setDir (s : FlatFs) (next : Dir) : dirAt (setDir s next) next = next := by
  unfold dirAt setDir
  cases held : s.cwd with
  | none => simp only [held]
  | some current =>
    simp only
    by_cases here : current.addr = next.addr
    · simp only [if_pos here, if_true]
    · simp only [if_neg here, held]

theorem DirOk.inUse_none (ok : DirOk s n) {i : Nat} (inside : i + 1 < n) (empty : (rootSlots s)[i]? = some none) :
    (entryAt s.cache (s.inodeData ROOT_DIR_SECTOR) (i + 1)).inUse = false := by
  rw [← Bool.not_eq_true, ok.inUse_of_slot inside, empty]
  simp

theorem DirOk.scan_from (ok : DirOk s n) {k : Nat} (inside : k ≤ (rootSlots s).length) :
    (bindings ((rootSlots s).drop k) = [] ∧
      scanEntries s ROOT_DIR_SECTOR (fun e => e.inUse) (36 * (k + 1) : Nat) = (none, ((36 * n : Nat) : Int), s)) ∨
    ∃ j e x, k ≤ j ∧ (rootSlots s)[j]? = some (some (DirEntry.cName e, x)) ∧
      bindings ((rootSlots s).drop k) = (e.cName, x) :: bindings ((rootSlots s).drop (j + 1)) ∧
      scanEntries s ROOT_DIR_SECTOR (fun e => e.inUse) (36 * (k + 1) : Nat) =
        (some e, ((36 * (j + 1) : Nat) : Int), s) := by
  have length := ok.length_slots
  have scan := scanEntries_spec ok.inodeLength ok.fits ok.mapped (fun e => e.inUse) (show k + 1 ≤ n by omega)
  rw [scan]
  rcases bindings_drop (rootSlots s) k with ⟨none, empty⟩ | ⟨j, b, low, found, empty, rest⟩
  · refine Or.inl ⟨none, ?_⟩
    have stop : (List.range' (k + 1) (n - (k + 1))).find? (fun j =>
        (entryAt s.cache (s.inodeData ROOT_DIR_SECTOR) j).inUse) = Option.none := by
      rw [List.find?_range'_eq_none]
      intro i above below
      obtain ⟨i, rfl⟩ : ∃ m, i = m + 1 := ⟨i - 1, by omega⟩
      rw [ok.inUse_none (by omega) (empty i (by omega) (by omega))]
      rfl
    rw [stop]
  · have small : j < (rootSlots s).length := (List.getElem?_eq_some_iff.mp found).1
    have stop : (List.range' (k + 1) (n - (k + 1))).find? (fun j =>
        (entryAt s.cache (s.inodeData ROOT_DIR_SECTOR) j).inUse) = some (j + 1) := by
      rw [List.find?_range'_eq_some]
      refine ⟨(ok.inUse_of_slot (by omega)).mpr ⟨b, found⟩, List.mem_range'_1.mpr ⟨by omega, by omega⟩,
        fun i above below => ?_⟩
      obtain ⟨i, rfl⟩ : ∃ m, i = m + 1 := ⟨i - 1, by omega⟩
      rw [ok.inUse_none (by omega) (empty i (by omega) (by omega))]
      rfl
    have slot := found
    rw [ok.slots, getElem?_dirSlots _ _ (by omega), DirEntry.slot,
      if_pos ((ok.inUse_of_slot (by omega)).mpr ⟨b, found⟩)] at slot
    have bound := Option.some.inj (Option.some.inj slot)
    refine Or.inr ⟨j, entryAt s.cache (s.inodeData ROOT_DIR_SECTOR) (j + 1),
      (entryAt s.cache (s.inodeData ROOT_DIR_SECTOR) (j + 1)).inodeSector, low, ?_, ?_, by rw [stop]⟩
    · rw [found, ← bound]
    · rw [rest, ← bound]

def moved (s : FlatFs) (dir : Dir) (pos : Int) : Dir := { dirAt s dir with pos := pos }

theorem Before.moved (before : Before s dir n) {k : Nat} {pos : Int} (here : pos = (36 * (k + 1) : Nat)) :
    Before (setDir s (moved s dir pos)) (moved s dir pos) k := by
  refine ⟨?_, ?_⟩ <;> rw [dirAt_setDir]
  · exact before.1
  · exact here

theorem setDir_moved (handle : RootHandle s) (dir : Dir) (pos : Int) : RootClosed s (setDir s (moved s dir pos)) := by
  have rest := setDir_rest s (moved s dir pos)
  have find : ∀ z, (setDir s (moved s dir pos)).findInode z = s.findInode z := fun z => by
    rw [rest]
    rfl
  have cwd : (setDir s (moved s dir pos)).cwd = s.cwd ∨
      ∃ d, s.cwd = some d ∧ (setDir s (moved s dir pos)).cwd = some { d with pos := pos } := by
    unfold setDir moved dirAt
    cases held : s.cwd with
    | none => exact Or.inl held
    | some current =>
      simp only
      by_cases same : current.addr = dir.addr
      · simp only [if_pos same, if_true]
        exact Or.inr ⟨current, rfl, rfl⟩
      · simp only [if_neg same]
        exact Or.inl held
  have data : ∀ z, (setDir s (moved s dir pos)).inodeData z = s.inodeData z := fun z =>
    inodeData_of_find (find z) (by rw [rest])
  refine ⟨⟨by rw [rest], fun z => Or.inl (data z), fun z => Or.inl (deny_of_find (find z)), fun f _ => find _⟩,
    fun z _ => find z, ⟨?_, fun i => ?_, fun d held => ?_⟩, by rw [rest]⟩
  · rw [HandlesNodup, rest]
    exact handle.nodup
  · rw [find]
    exact handle.kept i
  · rw [find]
    rcases cwd with same | ⟨current, before, after⟩
    · exact handle.held d (same ▸ held)
    · rw [after] at held
      obtain rfl := Option.some.inj held
      exact handle.held current before

theorem setDir_current (s : FlatFs) (dir : Dir) (pos : Int) :
    (setDir s (moved s dir pos)).usedFreed = s.usedFreed ∧
      (setDir s (moved s dir pos)).cwd.isSome = s.cwd.isSome := by
  refine ⟨by rw [setDir_rest], ?_⟩
  unfold setDir
  cases current : s.cwd with
  | none => simp only [current]
  | some c =>
    simp only
    split
    · rfl
    · rw [current]

theorem dirReaddir_use (s : FlatFs) {dir : Dir} (here : (dirAt s dir).inode = ROOT_DIR_SECTOR) :
    dirReaddir (s.use ROOT_DIR_SECTOR) dir = dirReaddir s dir := by
  have same : dirAt (s.use ROOT_DIR_SECTOR) dir = dirAt s dir := by rw [dirAt, Fs.use_cwd]; rfl
  simp only [dirReaddir, same, here, Fs.use_use]

theorem setDir_use (s : FlatFs) (dir : Dir) (ready : s.use ROOT_DIR_SECTOR = s) :
    (setDir s dir).use ROOT_DIR_SECTOR = setDir s dir :=
  Fs.use_congr ready (by rw [setDir_rest]) (by rw [setDir_rest])

theorem dirReaddir_spec (ok : DirOk s n) (ready : s.use ROOT_DIR_SECTOR = s) {k : Nat} (before : Before s dir k)
    (inside : k ≤ (rootSlots s).length) :
    (bindings ((rootSlots s).drop k) = [] ∧
      let next := moved s dir (36 * n : Nat)
      dirReaddir s dir = (none, next, setDir s next) ∧ Before (setDir s next) next (rootSlots s).length) ∨
    ∃ j name x, k ≤ j ∧ (rootSlots s)[j]? = some (some (name, x)) ∧
      bindings ((rootSlots s).drop k) = (name, x) :: bindings ((rootSlots s).drop (j + 1)) ∧
      let next := moved s dir (36 * (j + 2) : Nat)
      dirReaddir s dir = (some name, next, setDir s next) ∧ Before (setDir s next) next (j + 1) := by
  obtain ⟨here, pos⟩ := before
  have length := ok.length_slots
  rcases ok.scan_from inside with ⟨none, scan⟩ | ⟨j, e, x, low, slot, rest, scan⟩
  · refine Or.inl ⟨none, ?_, Before.moved ⟨here, pos⟩ (by omega)⟩
    simp only [dirReaddir, moved, here, ready, pos, scan, Option.isSome_none, Bool.false_eq_true, if_false, Option.map_none]
  · refine Or.inr ⟨j, e.cName, x, low, slot, rest, ?_, Before.moved ⟨here, pos⟩ (by omega)⟩
    have step : ((36 * (j + 1) : Nat) : Int) + (ENTRY_SIZE : Nat) = (36 * (j + 2) : Nat) := by
      simp only [ENTRY_SIZE]
      omega
    simp only [dirReaddir, moved, here, ready, pos, scan, Option.isSome_some, if_true, step, Option.map_some]

end readdir

section quiet

variable {s t : FlatFs} {n : Nat} {dir : Dir}

/-- The handles on the root directory and on its inode are counted once. -/
def Quiet (s : FlatFs) : Prop :=
  (∀ d, s.cwd = some d → d.openCnt = 1) ∧ ∀ i, s.findInode ROOT_DIR_SECTOR = some i → i.openCnt = 1

theorem Shut.quiet (shut : Shut s) : Quiet s := by
  constructor
  · intro d held
    rw [shut.1] at held
    cases held
  · intro i found
    rw [shut.2] at found
    cases found

theorem Quiet.congr (quiet : Quiet s) (this : t.findInode ROOT_DIR_SECTOR = s.findInode ROOT_DIR_SECTOR)
    (cwd : t.cwd = s.cwd) : Quiet t := by
  rw [Quiet, this, cwd]
  exact quiet

theorem inodeClose_once {x : BlockSector} (nodup : HandlesNodup s)
    (once : ∀ i, s.findInode x = some i → i.openCnt = 1 ∧ i.removed = false) : (inodeClose s x).findInode x = none := by
  cases found : s.findInode x with
  | none => simp only [inodeClose, found, Fs.use_findInode]
  | some i =>
    obtain ⟨last, kept⟩ := once i found
    rw [inodeClose_last found last kept]
    exact unlist_none nodup

theorem Quiet.root_gone (quiet : Quiet s) (handle : RootHandle s) :
    (inodeClose s ROOT_DIR_SECTOR).findInode ROOT_DIR_SECTOR = none :=
  inodeClose_once handle.nodup fun i found => ⟨quiet.2 i found, handle.kept i found⟩

theorem Quiet.dirClose (quiet : Quiet s) (handle : RootHandle s) (here : dir.inode = ROOT_DIR_SECTOR)
    (once : dir.openCnt = 1) : Shut (FileSystem.dirClose s dir) := by
  have this : (dirAt s dir).openCnt = 1 ∧ (dirAt s dir).inode = ROOT_DIR_SECTOR := by
    unfold dirAt
    cases current : s.cwd with
    | none => exact ⟨once, here⟩
    | some c =>
      simp only
      split
      next => exact ⟨quiet.1 c current, (handle.held c current).1⟩
      next => exact ⟨once, here⟩
  have run : FileSystem.dirClose s dir = { inodeClose s ROOT_DIR_SECTOR with cwd := none } := by
    simp only [FileSystem.dirClose, this.1, this.2, Int.sub_self, if_true]
  rw [run]
  exact ⟨rfl, quiet.root_gone handle⟩

theorem RootOpened.root (opened : RootOpened s t dir) (quiet : Quiet s) :
    ∀ i, t.findInode ROOT_DIR_SECTOR = some i → i.openCnt = 1 := by
  intro i found
  cases before : s.findInode ROOT_DIR_SECTOR with
  | none =>
    obtain ⟨j, -, here, once⟩ := opened.fresh before
    rw [here] at found
    rw [← Option.some.inj found]
    exact once
  | some j =>
    have same : t.findInode ROOT_DIR_SECTOR = s.findInode ROOT_DIR_SECTOR := by
      unfold Fs.findInode
      rw [opened.kept j before]
    rw [same] at found
    exact quiet.2 i found

theorem RootOpened.quiet (opened : RootOpened s t dir) (closed : s.cwd = none) (quiet : Quiet s) :
    Quiet t ∧ dir.openCnt = 1 := by
  have once : dir.openCnt = 1 := by
    have before := opened.before
    rw [closed] at before
    by_contra more
    rw [if_neg more] at before
    cases before
  refine ⟨⟨fun d held => ?_, opened.root quiet⟩, once⟩
  rw [opened.cwd] at held
  rw [← Option.some.inj held]
  exact once

theorem Quiet.moved (quiet : Quiet s) (once : dir.openCnt = 1) (pos : Int) :
    Quiet (setDir s (FileSystem.moved s dir pos)) ∧ (FileSystem.moved s dir pos).openCnt = 1 := by
  have count : (FileSystem.moved s dir pos).openCnt = 1 := by
    unfold FileSystem.moved dirAt
    cases current : s.cwd with
    | none => exact once
    | some c =>
      simp only
      split
      next => exact quiet.1 c current
      next => exact once
  refine ⟨⟨fun d held => ?_, fun i found => ?_⟩, count⟩
  · unfold setDir at held
    cases current : s.cwd with
    | none =>
      simp only [current] at held
      cases held
    | some c =>
      simp only [current] at held
      split at held
      next =>
        rw [← Option.some.inj held]
        exact count
      next => exact quiet.1 d held
  · rw [setDir_rest] at found
    exact quiet.2 i found

end quiet

end ShellOs.FileSystem
