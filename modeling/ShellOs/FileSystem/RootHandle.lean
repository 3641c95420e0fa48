import ShellOs.FileSystem.Handles
import ShellOs.FileSystem.RootDirectory

/-! The handle on the root directory: what opening and closing it changes. -/

namespace ShellOs.FileSystem
open Lib SlotMap GrowArray

theorem FileAt.bytes_eq {s t : FlatFs} {x : BlockSector} (file : FileAt s x) (next : FileAt t x)
    (length : t.inodeLength x = s.inodeLength x) (bytes : contents t x = contents s x) {p : Nat}
    (below : p < fileLen s x) : byteAt t.cache (t.inodeData x) p = byteAt s.cache (s.inodeData x) p := by
  have len : fileLen t x = fileLen s x := by rw [fileLen, length]; rfl
  have here := congrArg (fun l : List Byte => l[p]?) bytes
  rw [next.contents_content, file.contents_content, getElem?_content, getElem?_content, len, if_pos below,
    if_pos below, Nat.zero_add] at here
  exact Option.some.inj here

theorem DirOk.same {s t : FlatFs} {n : Nat} (ok : DirOk s n) (fine : FreeMapOk t) (file : FileAt t ROOT_DIR_SECTOR)
    (length : t.inodeLength ROOT_DIR_SECTOR = s.inodeLength ROOT_DIR_SECTOR)
    (bytes : contents t ROOT_DIR_SECTOR = contents s ROOT_DIR_SECTOR)
    (writable : t.inodeDenyWriteCnt ROOT_DIR_SECTOR = 0) : DirOk t n ∧ rootSlots t = rootSlots s := by
  have len : fileLen t ROOT_DIR_SECTOR = 36 * n := by
    rw [fileLen, length, ← ok.length]
    rfl
  have same : ∀ p, p < 36 * n → byteAt t.cache (t.inodeData ROOT_DIR_SECTOR) p =
      byteAt s.cache (s.inodeData ROOT_DIR_SECTOR) p := fun p below =>
    ok.file.bytes_eq file length bytes (ok.length.symm ▸ below)
  have first := entryAt_congr (k := 0) (by have := ok.nonempty; omega) same
  have next : DirOk t n := ⟨fine, file, len, ok.nonempty, by rw [first]; exact ok.parent, writable⟩
  exact ⟨next, by rw [next.slots, ok.slots]; exact dirSlots_congr same⟩

theorem DirOk.rehandled {s t : FlatFs} {n : Nat} (ok : DirOk s n) (same : Rehandled s t) :
    DirOk t n ∧ rootSlots t = rootSlots s := by
  obtain ⟨file, -, bytes, length⟩ := same.file ok.fine ok.file
  refine ok.same (same.ok ok.fine).1 file length bytes ?_
  rcases same.deny ROOT_DIR_SECTOR with kept | none
  · rw [kept]
    exact ok.writable
  · exact none

/-- The root directory's inode and what `cwd` says of it. -/
structure RootHandle (s : FlatFs) : Prop where
  nodup : HandlesNodup s
  kept : ∀ i, s.findInode ROOT_DIR_SECTOR = some i → i.removed = false
  held : ∀ d, s.cwd = some d →
    d.inode = ROOT_DIR_SECTOR ∧ 0 < d.openCnt ∧ (s.findInode ROOT_DIR_SECTOR).isSome

theorem RootHandle.listed {s : FlatFs} (handle : RootHandle s) (current : s.cwd.isSome) :
    (s.findInode ROOT_DIR_SECTOR).isSome := by
  obtain ⟨d, held⟩ := Option.isSome_iff_exists.mp current
  exact (handle.held d held).2.2

structure RootOpened (s t : FlatFs) (dir : Dir) : Prop where
  rest : t = { s with openInodes := t.openInodes, nextAddr := t.nextAddr, cwd := some dir }
  data : ∀ z, t.inodeData z = s.inodeData z
  deny : ∀ z, t.inodeDenyWriteCnt z = s.inodeDenyWriteCnt z
  others : ∀ z, z ≠ ROOT_DIR_SECTOR → t.findInode z = s.findInode z
  kept : ∀ i, s.findInode ROOT_DIR_SECTOR = some i → t.openInodes = s.openInodes
  fresh : s.findInode ROOT_DIR_SECTOR = none → ∃ i, t.openInodes = i :: s.openInodes ∧
    t.findInode ROOT_DIR_SECTOR = some i ∧ i.openCnt = 1
  handle : RootHandle t
  before : s.cwd = if dir.openCnt = 1 then none else some { dir with openCnt := dir.openCnt - 1 }

theorem dirOpenRoot_spec {s : FlatFs} (handle : RootHandle s) :
    RootOpened s (dirOpenRoot s).2 (dirOpenRoot s).1 := by
  cases current : s.cwd with
  | none =>
    have opened := inodeOpen_spec s ROOT_DIR_SECTOR
    have run : dirOpenRoot s = (⟨(inodeOpen s ROOT_DIR_SECTOR).2.nextAddr, ROOT_DIR_SECTOR, ENTRY_SIZE, 1⟩,
        { (inodeOpen s ROOT_DIR_SECTOR).2 with
          nextAddr := (inodeOpen s ROOT_DIR_SECTOR).2.nextAddr + 1
          cwd := some ⟨(inodeOpen s ROOT_DIR_SECTOR).2.nextAddr, ROOT_DIR_SECTOR, ENTRY_SIZE, 1⟩ }) := by
      simp only [dirOpenRoot, current, dirOpen]
    rw [run]
    generalize (inodeOpen s ROOT_DIR_SECTOR).2 = t at opened
    refine ⟨?_, opened.data, opened.deny, opened.others, opened.kept, fun absent => ?_, ⟨opened.nodup handle.nodup,
      fun i found => ?_, fun d same => ?_⟩, ?_⟩
    · rw [opened.rest]
    · obtain ⟨i, list, sector, once, -⟩ := opened.fresh absent
      refine ⟨i, list, ?_, once⟩
      simp only [Fs.findInode, list]
      exact List.find?_cons_of_pos (by simpa using sector)
    · change t.findInode ROOT_DIR_SECTOR = some i at found
      cases before : s.findInode ROOT_DIR_SECTOR with
      | some j =>
        have same : t.findInode ROOT_DIR_SECTOR = s.findInode ROOT_DIR_SECTOR := by
          unfold Fs.findInode
          rw [opened.kept j before]
        exact handle.kept i (same ▸ found)
      | none =>
        obtain ⟨j, list, sector, -, kept, -⟩ := opened.fresh before
        have first : t.findInode ROOT_DIR_SECTOR = some j := by
          rw [Fs.findInode, list]
          exact List.find?_cons_of_pos (by simpa using sector)
        rw [first] at found
        obtain rfl := Option.some.inj found
        exact kept
    · obtain rfl := Option.some.inj same
      exact ⟨rfl, Int.one_pos, opened.listed⟩
    · rw [if_pos rfl]
      exact current
  | some d =>
    obtain ⟨inode, count, listed⟩ := handle.held d current
    have run : dirOpenRoot s =
        ({ d with openCnt := d.openCnt + 1 }, { s with cwd := some { d with openCnt := d.openCnt + 1 } }) := by
      simp only [dirOpenRoot, current]
    rw [run]
    refine ⟨rfl, fun _ => rfl, fun _ => rfl, fun _ _ => rfl, fun _ _ => rfl, fun absent => ?_,
      ⟨handle.nodup, handle.kept, fun e same => ?_⟩, ?_⟩
    · rw [absent] at listed
      cases listed
    · obtain rfl := Option.some.inj same
      exact ⟨inode, by simp only; omega, listed⟩
    · simp only
      rw [if_neg (by omega), Int.add_sub_cancel, current]

theorem RootOpened.rehandled {s t : FlatFs} {dir : Dir} (opened : RootOpened s t dir) (fine : FreeMapOk s) :
    Rehandled s t := by
  refine ⟨opened.rest.trans ?_, fun z => Or.inl (opened.data z), fun z => Or.inl (opened.deny z), fun f held => ?_⟩
  · rw [opened.rest]
  · by_cases same : f.inode = ROOT_DIR_SECTOR
    · obtain ⟨i, found⟩ := Option.isSome_iff_exists.mp (fine.file f held).listed
      unfold Fs.findInode
      rw [opened.kept i (same ▸ found)]
    · exact opened.others _ same

theorem RootOpened.cwd {s t : FlatFs} {dir : Dir} (opened : RootOpened s t dir) : t.cwd = some dir := by
  rw [opened.rest]

theorem RootOpened.dir {s t : FlatFs} {dir : Dir} (opened : RootOpened s t dir) :
    dir.inode = ROOT_DIR_SECTOR ∧ 0 < dir.openCnt ∧ (t.findInode ROOT_DIR_SECTOR).isSome :=
  opened.handle.held dir opened.cwd

theorem dirClose_root {s : FlatFs} {dir : Dir} (handle : RootHandle s) (current : s.cwd = some dir) :
    dirClose s dir = if dir.openCnt = 1 then { inodeClose s ROOT_DIR_SECTOR with cwd := none }
      else { s with cwd := some { dir with openCnt := dir.openCnt - 1 } } := by
  obtain ⟨inode, -, -⟩ := handle.held dir current
  have this : dirAt s dir = dir := by simp only [dirAt, current, if_true]
  simp only [dirClose, this, inode]
  by_cases last : dir.openCnt = 1
  · rw [if_pos (by omega), if_pos last]
  · rw [if_neg (by omega), if_neg last]
    simp only [setDir, current, if_true]

structure RootClosed (s t : FlatFs) : Prop where
  rehandled : Rehandled s t
  others : ∀ z, z ≠ ROOT_DIR_SECTOR → t.findInode z = s.findInode z
  handle : RootHandle t
  fileTable : t.fileTable = s.fileTable

theorem inodeClose_root {s : FlatFs} (handle : RootHandle s)
    (foreign : ∀ f, s.freeMapFile = some f → f.inode ≠ ROOT_DIR_SECTOR) :
    RootClosed s { inodeClose s ROOT_DIR_SECTOR with cwd := none } := by
  have closed := inodeClose_spec handle.nodup handle.kept
  have table : (inodeClose s ROOT_DIR_SECTOR).fileTable = s.fileTable := (congrArg Fs.fileTable closed.rest :)
  refine ⟨(closed.rehandled foreign).setCwd none, closed.others, ⟨closed.nodup, fun i found => ?_,
    (fun d never => by cases never)⟩, table⟩
  change (inodeClose s ROOT_DIR_SECTOR).findInode ROOT_DIR_SECTOR = some i at found
  rcases closed.this with gone | ⟨c, still⟩
  · rw [gone] at found
    cases found
  · cases before : s.findInode ROOT_DIR_SECTOR with
    | none =>
      rw [still, before] at found
      cases found
    | some j =>
      rw [still, before] at found
      obtain rfl := Option.some.inj found
      exact handle.kept j before

theorem dirClose_spec {s : FlatFs} {dir : Dir} (handle : RootHandle s) (here : dir.inode = ROOT_DIR_SECTOR)
    (foreign : ∀ f, s.freeMapFile = some f → f.inode ≠ ROOT_DIR_SECTOR) : RootClosed s (dirClose s dir) := by
  have closed := inodeClose_root handle foreign
  have refl : RootClosed s s := ⟨Rehandled.refl s, fun _ _ => rfl, handle, rfl⟩
  cases current : s.cwd with
  | none =>
    have this : dirAt s dir = dir := by simp only [dirAt, current]
    simp only [dirClose, this, here]
    split
    next => exact closed
    next => simpa only [setDir, current] using refl
  | some c =>
    by_cases same : c.addr = dir.addr
    · obtain ⟨inode, count, listed⟩ := handle.held c current
      have this : dirAt s dir = c := by simp only [dirAt, current, if_pos same]
      simp only [dirClose, this, inode]
      split
      next => exact closed
      next more =>
        simp only [setDir, current, if_true]
        refine ⟨⟨rfl, fun _ => Or.inl rfl, fun _ => Or.inl rfl, fun _ _ => rfl⟩, fun _ _ => rfl,
          ⟨handle.nodup, handle.kept, fun e now => ?_⟩, rfl⟩
        obtain rfl := Option.some.inj now
        exact ⟨rfl, by simp only; omega, listed⟩
    · have this : dirAt s dir = dir := by simp only [dirAt, current, if_neg same]
      simp only [dirClose, this, here]
      split
      next => exact closed
      next => simpa only [setDir, current, if_neg same] using refl

theorem dirClose_freed {s : FlatFs} {dir : Dir} (handle : RootHandle s) (here : dir.inode = ROOT_DIR_SECTOR)
    (listed : (s.findInode ROOT_DIR_SECTOR).isSome) : (dirClose s dir).usedFreed = s.usedFreed := by
  have inode : (dirAt s dir).inode = ROOT_DIR_SECTOR := by
    unfold dirAt
    cases current : s.cwd with
    | none => exact here
    | some c =>
      simp only
      split
      · exact (handle.held c current).1
      · exact here
  unfold dirClose
  simp only [inode]
  split
  · exact (inodeClose_spec handle.nodup handle.kept).freed listed
  · unfold setDir
    split
    · split <;> rfl
    · rfl

theorem RootHandle.keep {s t : FlatFs} {e : InodeDisk} (handle : RootHandle s) (nodup : HandlesNodup t)
    (this : t.findInode ROOT_DIR_SECTOR = (s.findInode ROOT_DIR_SECTOR).map fun i => { i with data := e })
    (cwd : t.cwd = s.cwd) : RootHandle t := by
  refine ⟨nodup, fun i found => ?_, fun d current => ?_⟩
  · rw [found] at this
    cases before : s.findInode ROOT_DIR_SECTOR with
    | none =>
      rw [before] at this
      cases this
    | some j =>
      rw [before, Option.map_some] at this
      obtain rfl := Option.some.inj this
      exact handle.kept j before
  · rw [this, Option.isSome_map]
    exact handle.held d (cwd ▸ current)

theorem RootHandle.same {s t : FlatFs} (handle : RootHandle s) (same : SameHandles s t ROOT_DIR_SECTOR)
    (cwd : t.cwd = s.cwd) : RootHandle t := by
  obtain ⟨e, this⟩ := same.this
  exact handle.keep (by rw [HandlesNodup, same.sectors]; exact handle.nodup) this cwd

def Shut (s : FlatFs) : Prop := s.cwd = none ∧ s.findInode ROOT_DIR_SECTOR = none

theorem RootOpened.shut {s t u : FlatFs} {dir : Dir} {e : InodeDisk} (opened : RootOpened s t dir)
    (nodup : HandlesNodup u)
    (this : u.findInode ROOT_DIR_SECTOR = (t.findInode ROOT_DIR_SECTOR).map fun i => { i with data := e })
    (cwd : u.cwd = t.cwd) (foreign : ∀ f, u.freeMapFile = some f → f.inode ≠ ROOT_DIR_SECTOR) :
    RootClosed u (dirClose u dir) ∧ (Shut s → Shut (dirClose u dir)) := by
  have current : u.cwd = some dir := cwd.trans opened.cwd
  have handle := opened.handle.keep nodup this cwd
  refine ⟨dirClose_spec handle opened.dir.1 foreign, fun shut => ?_⟩
  obtain ⟨i, -, found, once⟩ := opened.fresh shut.2
  have last : dir.openCnt = 1 := by
    have before := opened.before
    rw [shut.1] at before
    by_contra more
    rw [if_neg more] at before
    cases before
  rw [found, Option.map_some] at this
  rw [dirClose_root handle current, if_pos last, inodeClose_last this once (opened.handle.kept i found)]
  exact ⟨rfl, unlist_none handle.nodup⟩

theorem RootOpened.close {s t u : FlatFs} {dir : Dir} (opened : RootOpened s t dir)
    (same : SameHandles t u ROOT_DIR_SECTOR) (cwd : u.cwd = t.cwd)
    (foreign : ∀ f, u.freeMapFile = some f → f.inode ≠ ROOT_DIR_SECTOR) :
    RootClosed u (dirClose u dir) ∧
      (∀ z, z ≠ ROOT_DIR_SECTOR → (dirClose u dir).findInode z = s.findInode z) ∧
      (Shut s → Shut (dirClose u dir)) := by
  obtain ⟨e, this⟩ := same.this
  have nodup : HandlesNodup u := by
    rw [HandlesNodup, same.sectors]
    exact opened.handle.nodup
  obtain ⟨closed, shut⟩ := opened.shut nodup this cwd foreign
  exact ⟨closed, fun z different => by
    rw [closed.others z different, same.others z different, opened.others z different], shut⟩

end ShellOs.FileSystem
