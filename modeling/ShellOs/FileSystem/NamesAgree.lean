import ShellOs.FileSystem.InodeLifetime
import ShellOs.FileSystem.RootCursor
import ShellOs.FileSystem.Scan

/-! Whether create, open and remove agree on what a path names. For `filesys_remove` it matters how the directory part
gets to the root directory: `dir_open_path` closes what it has left behind, and with it the one inode of the root
directory, which it goes on to use. -/

namespace ShellOs.FileSystem
open Lib SlotMap

section used

variable {σ : Type} [Store σ BlockSector Sector] [LawfulStore σ] {s : Fs σ} {dir : Dir} {x : BlockSector}

omit [Store σ BlockSector Sector] [LawfulStore σ] in
theorem use_used (used : s.usedFreed = true) : (s.use x).usedFreed = true := by
  unfold Fs.use
  split
  · exact used
  · rfl

omit [LawfulStore σ] in
theorem inodeOpen_usedFreed : (inodeOpen s x).2.usedFreed = s.usedFreed := by
  unfold inodeOpen
  split <;> rfl

theorem inodeClose_used (used : s.usedFreed = true) : (inodeClose s x).usedFreed = true := by
  unfold inodeClose
  split
  · exact use_used used
  · simp only
    split
    · split
      · rw [blind_usedFreed.inodeDeallocate, blind_usedFreed.freeMapRelease]
        exact used
      · exact used
    · exact used

theorem dirClose_used (used : s.usedFreed = true) : (dirClose s dir).usedFreed = true := by
  unfold dirClose
  simp only
  split
  · exact inodeClose_used used
  · unfold setDir
    split
    · split <;> exact used
    · exact used

theorem dirLookup_used {name : CString} (used : s.usedFreed = true) : (dirLookup s dir name).2.usedFreed = true := by
  have looked := (blind_usedFreed.lookup (s.use dir.inode) dir.inode name).trans (use_used used)
  unfold dirLookup
  split
  · exact used
  · split
    · rw [inodeOpen_usedFreed, blind_usedFreed.inodeReadAt]
      exact use_used used
    · simp only
      split
      · rw [inodeOpen_usedFreed]
        exact looked
      · exact looked

theorem openComponents_used {path : List CString} (used : s.usedFreed = true) :
    (openComponents path s dir).2.usedFreed = true := by
  induction path generalizing s dir with
  | nil =>
    rw [openComponents]
    split
    · exact dirClose_used (use_used used)
    · exact use_used used
  | cons token rest ih =>
    have looked : (dirLookup s dir token).2.usedFreed = true := dirLookup_used used
    rw [openComponents]
    simp only
    split
    · exact dirClose_used looked
    · exact ih (dirClose_used looked)

theorem dirRemove_used {name : CString} (used : s.usedFreed = true) : (dirRemove s dir name).2.usedFreed = true := by
  have looked := (blind_usedFreed.lookup (s.use dir.inode) dir.inode name).trans (use_used used)
  have opened := fun y => (@inodeOpen_usedFreed σ _ (lookup (s.use dir.inode) dir.inode name).2 y).trans looked
  have emptied : ∀ (t : Fs σ) y, t.usedFreed = true →
      (if inodeIsDirectory t y then
        ((dirIsEmpty (dirOpen t y).2 (dirOpen t y).1).1, dirClose (dirIsEmpty (dirOpen t y).2 (dirOpen t y).1).2 (dirOpen t y).1)
      else (true, t)).2.usedFreed = true := by
    intro t y kept
    split
    · exact dirClose_used ((blind_usedFreed.scanEntries _ _ _ _).trans kept)
    · exact kept
  have last : ∀ (r : Bool × Fs σ) y (buffer : Nat → Byte) ofs, r.2.usedFreed = true →
      (if r.1 = false then (false, inodeClose r.2 y)
      else
        let w := inodeWriteAt r.2 dir.inode buffer ENTRY_SIZE ofs
        if w.1 = ENTRY_SIZE then (true, inodeClose (inodeRemove w.2 y) y)
        else (false, inodeClose w.2 y)).2.usedFreed = true := by
    intro r y buffer ofs kept
    have wrote := (blind_usedFreed.inodeWriteAt r.2 dir.inode buffer ENTRY_SIZE ofs).trans kept
    simp only
    split
    · exact inodeClose_used kept
    · split
      · exact inodeClose_used wrote
      · exact inodeClose_used wrote
  unfold dirRemove
  simp only
  split
  · exact looked
  · exact last _ _ _ _ (emptied _ _ (opened _))

theorem filesysRemove_used {path : CString} (used : (dirOpenPath s (splitPathFilename path).1).2.usedFreed = true) :
    (filesysRemove s path).2.usedFreed = true := by
  unfold filesysRemove
  simp only
  split
  · exact used
  · exact dirClose_used (dirRemove_used used)

end used

section walk

variable {s t : FlatFs} {n : Nat} {dir : Dir} {path : CString}

theorem dirLookup_dots_listed (ok : DirOk s n) (handle : RootHandle s) (here : dir.inode = ROOT_DIR_SECTOR)
    (listed : (s.findInode ROOT_DIR_SECTOR).isSome) {name : CString} (dots : name = dot ∨ name = dotDot) :
    dirLookup s dir name = (some ROOT_DIR_SECTOR, s) := by
  obtain ⟨t, run, -⟩ := dirLookup_dots ok handle here dots
  have first : (dirLookup s dir name).1 = some ROOT_DIR_SECTOR := by rw [run]
  refine Prod.ext first ?_
  rcases dots with rfl | rfl
  · rw [dirLookup, if_pos rfl]
  · obtain ⟨i, found⟩ := Option.isSome_iff_exists.mp listed
    have read : (inodeReadAt s ROOT_DIR_SECTOR ENTRY_SIZE 0).2 = s := inodeReadAt_snd s _ _ _
    rw [dirLookup, if_neg (by decide), if_pos rfl, here, Fs.use_open listed] at first ⊢
    simp only [read] at first ⊢
    rw [Option.some.inj first, inodeOpen, found]
    rfl

theorem openComponents_gone (here : dir.inode = ROOT_DIR_SECTOR) (once : dir.openCnt = 1) (shut : Shut s)
    (parts : List CString) : (openComponents parts s dir).2.usedFreed = true := by
  have used : (s.use ROOT_DIR_SECTOR).usedFreed = true := by
    rw [Fs.use, shut.2]
    rfl
  cases parts with
  | nil =>
    rw [openComponents, here]
    split
    · exact dirClose_used used
    · exact used
  | cons token rest =>
    rw [openComponents]
    by_cases single : token = dot
    · have looked : dirLookup s dir token = (some ROOT_DIR_SECTOR, s) := by rw [dirLookup, if_pos single, here]
      have closed : dirClose (dirOpen s ROOT_DIR_SECTOR).2 dir =
          { inodeClose (dirOpen s ROOT_DIR_SECTOR).2 ROOT_DIR_SECTOR with cwd := none } := by
        simp only [dirClose, dirAt, dirOpen, shut.1, here, once, Int.sub_self, if_true]
      have gone : (dirOpen s ROOT_DIR_SECTOR).2.findInode ROOT_DIR_SECTOR = none := shut.2
      rw [looked]
      apply openComponents_used
      rw [closed]
      simp only [inodeClose, gone]
      rw [Fs.use, gone]
      rfl
    · have same : dirLookup s dir token = dirLookup (s.use ROOT_DIR_SECTOR) dir token := by
        simp only [dirLookup, if_neg single, here, Fs.use_use]
      have looked : (dirLookup s dir token).2.usedFreed = true := by
        rw [same]
        exact dirLookup_used used
      simp only
      split
      · exact dirClose_used looked
      · exact openComponents_used (dirClose_used looked)

theorem openComponents_frees (ok : DirOk s n) (handle : RootHandle s) (quiet : Quiet s) (here : dir.inode = ROOT_DIR_SECTOR)
    (once : dir.openCnt = 1) (listed : (s.findInode ROOT_DIR_SECTOR).isSome) {token : CString}
    (dots : token = dot ∨ token = dotDot) (rest : List CString) :
    (openComponents (token :: rest) s dir).2.usedFreed = true := by
  have shut : Shut (dirClose (dirOpen s ROOT_DIR_SECTOR).2 dir) := by
    have next : Quiet (dirOpen s ROOT_DIR_SECTOR).2 := quiet
    exact next.dirClose ⟨handle.nodup, handle.kept, handle.held⟩ here once
  rw [openComponents, dirLookup_dots_listed ok handle here listed dots]
  exact openComponents_gone rfl rfl shut rest

/-- Where the root directory is in use elsewhere, an absolute path takes one such step with a handle of its own. -/
theorem openComponents_shared {c : Dir} (ok : DirOk s n) (handle : RootHandle s) (current : s.cwd = some c)
    {token : CString} (dots : token = dot ∨ token = dotDot) (rest : List CString) :
    openComponents (token :: rest) (dirOpenRoot s).2 (dirOpenRoot s).1 =
      openComponents rest (dirOpen s ROOT_DIR_SECTOR).2 (dirOpen s ROOT_DIR_SECTOR).1 := by
  have opened := dirOpenRoot_spec handle
  have okNext := (ok.rehandled (opened.only ok.fine).rehandled).1
  have looked := dirLookup_dots_listed okNext opened.handle opened.dir.1 opened.dir.2.2 dots
  obtain ⟨-, count, -⟩ := handle.held c current
  have run : dirOpenRoot s =
      ({ c with openCnt := c.openCnt + 1 }, { s with cwd := some { c with openCnt := c.openCnt + 1 } }) := by
    simp only [dirOpenRoot, current]
  have held : (dirOpen (dirOpenRoot s).2 ROOT_DIR_SECTOR).2.cwd = some (dirOpenRoot s).1 := opened.cwd
  have handleNext : RootHandle (dirOpen (dirOpenRoot s).2 ROOT_DIR_SECTOR).2 :=
    ⟨opened.handle.nodup, opened.handle.kept, opened.handle.held⟩
  have closed := dirClose_root handleNext held
  rw [if_neg (by rw [run]; simp only; omega)] at closed
  rw [openComponents, looked]
  simp only
  rw [closed, run]
  simp only [dirOpen, Int.add_sub_cancel]
  rw [← current]

theorem openComponents_arrived (handle : RootHandle s) (here : dir.inode = ROOT_DIR_SECTOR)
    (listed : (s.findInode ROOT_DIR_SECTOR).isSome) : openComponents [] s dir = (some dir, s) := by
  have kept : inodeIsRemoved s ROOT_DIR_SECTOR = false := by
    unfold inodeIsRemoved
    cases found : s.findInode ROOT_DIR_SECTOR with
    | none => rfl
    | some i => exact handle.kept i found
  rw [openComponents, here, Fs.use_open listed, kept]
  rfl

theorem dirOpen_own (handle : RootHandle s) : RootClosed s (dirOpen s ROOT_DIR_SECTOR).2 :=
  ⟨⟨rfl, fun _ => Or.inl rfl, fun _ => Or.inl rfl, fun _ _ => rfl⟩, fun _ _ => rfl,
    ⟨handle.nodup, handle.kept, handle.held⟩, rfl⟩

/-- How many steps a walk may take through the root directory before it closes the last handle on it. -/
def sharedSteps {σ : Type} (s : Fs σ) (path : CString) : Nat := if s.cwd.isSome ∧ path.head? = some slash then 1 else 0

/-- A path that leads to the root directory and leaves its inode alone. -/
def StaysInRoot {σ : Type} (s : Fs σ) (path : CString) : Prop :=
  OnlyDots path ∧ (tokens path).length ≤ sharedSteps s path

def FreesRoot {σ : Type} (s : Fs σ) (path : CString) : Prop :=
  sharedSteps s path < ((tokens path).takeWhile fun token => token = dot ∨ token = dotDot).length

theorem dirOpenPath_stays (mounted : Mounted s n) (stays : StaysInRoot s path) :
    ∃ d a, dirOpenPath s path = (some d, a) ∧ d.inode = ROOT_DIR_SECTOR ∧ RootClosed s a ∧
      (a.findInode ROOT_DIR_SECTOR).isSome ∧ a.usedFreed = s.usedFreed := by
  obtain ⟨dots, few⟩ := stays
  have opened := dirOpenRoot_spec mounted.handle
  have only := opened.only mounted.dir.fine
  have freed : (dirOpenRoot s).2.usedFreed = s.usedFreed := (congrArg Fs.usedFreed opened.rest :)
  have own := dirOpen_own mounted.handle
  cases parts : tokens path with
  | nil =>
    rw [dirOpenPath, parts]
    split
    · exact ⟨_, _, openComponents_arrived opened.handle opened.dir.1 opened.dir.2.2, opened.dir.1, only, opened.dir.2.2, freed⟩
    · cases current : s.cwd with
      | none =>
        exact ⟨_, _, openComponents_arrived opened.handle opened.dir.1 opened.dir.2.2, opened.dir.1, only, opened.dir.2.2, freed⟩
      | some c =>
        obtain ⟨inode, -, listed⟩ := mounted.handle.held c current
        simp only [dirReopen, inode]
        exact ⟨_, _, openComponents_arrived own.handle rfl listed, rfl, own, listed, rfl⟩
  | cons token rest =>
    rw [parts, List.length_cons, sharedSteps] at few
    split at few
    next shared =>
      obtain ⟨c, current⟩ := Option.isSome_iff_exists.mp shared.1
      obtain ⟨-, -, listed⟩ := mounted.handle.held c current
      obtain rfl := List.eq_nil_of_length_eq_zero (l := rest) (by omega)
      have step := openComponents_shared mounted.dir mounted.handle current (dots token (by rw [parts]; exact List.mem_cons_self)) []
      rw [openComponents_arrived own.handle rfl listed] at step
      refine ⟨(dirOpen s ROOT_DIR_SECTOR).1, (dirOpen s ROOT_DIR_SECTOR).2, ?_, rfl, own, listed, rfl⟩
      rw [dirOpenPath, parts, if_pos shared.2]
      exact step
    next => omega

theorem dirOpenPath_frees (mounted : Mounted s n) (quiet : Quiet s) (frees : FreesRoot s path) :
    (dirOpenPath s path).2.usedFreed = true := by
  have opened := dirOpenRoot_spec mounted.handle
  have okNext := (mounted.dir.rehandled (opened.only mounted.dir.fine).rehandled).1
  have own := (dirOpen_own mounted.handle).handle
  have okOwn := (mounted.dir.rehandled (dirOpen_own mounted.handle).rehandled).1
  rw [FreesRoot] at frees
  cases parts : tokens path with
  | nil =>
    rw [parts] at frees
    exact absurd frees (Nat.not_lt_zero _)
  | cons token rest =>
    rw [parts] at frees
    have dots : token = dot ∨ token = dotDot := by
      by_contra plain
      rw [List.takeWhile_cons_of_neg (by simpa using plain)] at frees
      exact absurd frees (Nat.not_lt_zero _)
    rw [List.takeWhile_cons_of_pos (by simpa using dots), List.length_cons] at frees
    rw [dirOpenPath, parts]
    cases current : s.cwd with
    | none =>
      obtain ⟨quietNext, once⟩ := opened.quiet current quiet
      simp only [ite_self]
      exact openComponents_frees okNext opened.handle quietNext opened.dir.1 once opened.dir.2.2 dots rest
    | some c =>
      obtain ⟨inode, -, listed⟩ := mounted.handle.held c current
      by_cases absolute : path.head? = some slash
      · rw [sharedSteps, current, if_pos ⟨rfl, absolute⟩] at frees
        rw [if_pos absolute, openComponents_shared mounted.dir mounted.handle current dots]
        cases rest with
        | nil => exact absurd frees (by decide)
        | cons second rest =>
          have next : second = dot ∨ second = dotDot := by
            by_contra plain
            rw [List.takeWhile_cons_of_neg (by simpa using plain)] at frees
            exact absurd frees (by decide)
          exact openComponents_frees okOwn own quiet rfl rfl listed next rest
      · rw [if_neg absolute]
        simp only [dirReopen, inode]
        exact openComponents_frees okOwn own quiet rfl rfl listed dots rest

theorem filesysRemove_stays {path : CString} (mounted : Mounted s n) (stays : StaysInRoot s (splitPathFilename path).1)
    (present : (splitPathFilename path).2 ∈ keys (rootSlots s))
    (may : ∀ x, some ((splitPathFilename path).2, x) ∈ rootSlots s → Removable s x) :
    (filesysRemove s path).2.usedFreed = s.usedFreed := by
  obtain ⟨d, a, run, here, only, listed, freed⟩ := dirOpenPath_stays mounted stays
  obtain ⟨ok, slots⟩ := mounted.dir.rehandled only.rehandled
  rw [← slots] at present may
  obtain ⟨k, x, slot, effect⟩ := dirRemove_effect ok here only.handle.nodup present fun x bound =>
    ((may x bound).only only mounted.dir.fine mounted.dir.file).1
  have root := effect.others _ (may x (List.mem_of_getElem? slot)).ne_root.symm
  have handle := only.handle.congr effect.nodup root effect.cwd
  have result : filesysRemove s path = ((dirRemove a d (splitPathFilename path).2).1,
      dirClose (dirRemove a d (splitPathFilename path).2).2 d) := by
    rw [filesysRemove, run]
  rw [result, dirClose_freed handle here (by rw [root]; exact listed), effect.rest, Fs.use_open listed, freed]

end walk

section quiet

variable {s t : FlatFs} {n : Nat} {path : CString}

theorem RootHandle.heads (handle : RootHandle s) (same : heads t = heads s) (cwd : t.cwd = s.cwd) : RootHandle t ∧
    ∀ i, t.findInode ROOT_DIR_SECTOR = some i → ∃ j, s.findInode ROOT_DIR_SECTOR = some j ∧ i.openCnt = j.openCnt := by
  have sectors : ∀ u : FlatFs, (FileSystem.heads u).map (fun e => e.handle.sector) = u.openInodes.map Inode.sector :=
    fun u => List.map_map
  have nodup : HandlesNodup t := by
    rw [HandlesNodup, ← sectors, same, sectors]
    exact handle.nodup
  have counterpart : ∀ {u v : FlatFs}, HandlesNodup v → FileSystem.heads u = FileSystem.heads v → ∀ i,
      u.findInode ROOT_DIR_SECTOR = some i → ∃ j, v.findInode ROOT_DIR_SECTOR = some j ∧ j.head = i.head := by
    intro u v distinct equal i found
    obtain ⟨member, here⟩ := findInode_head found
    rw [equal] at member
    obtain ⟨j, there, head⟩ := findInode_of_head (by rw [sectors]; exact distinct) member
    rw [show i.head.handle.sector = ROOT_DIR_SECTOR from here] at there
    exact ⟨j, there, head⟩
  refine ⟨⟨nodup, fun i found => ?_, fun d current => ?_⟩, fun i found => ?_⟩
  · obtain ⟨j, there, head⟩ := counterpart handle.nodup same i found
    exact (congrArg Head.removed head).symm.trans (handle.kept j there)
  · obtain ⟨inode, count, listed⟩ := handle.held d (cwd ▸ current)
    obtain ⟨j, there⟩ := Option.isSome_iff_exists.mp listed
    obtain ⟨i, found, -⟩ := counterpart nodup same.symm j there
    exact ⟨inode, count, by rw [found]; rfl⟩
  · obtain ⟨j, there, head⟩ := counterpart handle.nodup same i found
    exact ⟨j, there, (congrArg Head.openCnt head).symm⟩

theorem Quiet.between (quiet : Quiet s) (handle : RootHandle s) (inner : RootHandle t) (cwd : t.cwd = (dirOpenRoot s).2.cwd)
    (counts : ∀ i, t.findInode ROOT_DIR_SECTOR = some i →
      ∃ j, (dirOpenRoot s).2.findInode ROOT_DIR_SECTOR = some j ∧ i.openCnt = j.openCnt) :
    Quiet (FileSystem.dirClose t (dirOpenRoot s).1) := by
  have opened := dirOpenRoot_spec handle
  have current : t.cwd = some (dirOpenRoot s).1 := cwd.trans opened.cwd
  have root : ∀ i, t.findInode ROOT_DIR_SECTOR = some i → i.openCnt = 1 := by
    intro i found
    obtain ⟨j, there, same⟩ := counts i found
    exact same.trans (opened.root quiet j there)
  by_cases last : (dirOpenRoot s).1.openCnt = 1
  · have only : Quiet t := by
      refine ⟨fun d held => ?_, root⟩
      rw [current] at held
      rw [← Option.some.inj held]
      exact last
    exact (only.dirClose inner opened.dir.1 last).quiet
  · have before := opened.before
    rw [if_neg last] at before
    rw [dirClose_root inner current, if_neg last]
    exact ⟨fun d held => quiet.1 d (before.trans held), root⟩

theorem Blind.createIn {β : Type} {view : FlatFs → β} (blind : Blind view) (uses : ∀ (t : FlatFs) x, view (t.use x) = view t)
    (t : FlatFs) (dir : Dir) (name : CString) (size : Int) : view (createIn t dir name size).2 = view t := by
  have created := fun u : FlatFs => blind.createAt uses u
  have allocated := blind.freeMapAllocate t 1
  unfold FileSystem.createIn
  simp only
  split <;> split <;> simp only [blind.freeMapRelease, created, allocated]

theorem filesysCreate_quiet (mounted : Mounted s n) (quiet : Quiet s) (size : Int) :
    Quiet (filesysCreate s path size false).2 := by
  have opened := dirOpenRoot_spec mounted.handle
  have uses : ∀ (t : FlatFs) x, (FileSystem.heads (t.use x), (t.use x).nextAddr) = (FileSystem.heads t, t.nextAddr) :=
    fun t x => by rw [FileSystem.heads, FileSystem.heads, Fs.use_openInodes, Fs.use_nextAddr]
  have heads := congrArg Prod.fst
    (blind_heads.createIn uses (dirOpenRoot s).2 (dirOpenRoot s).1 (splitPathFilename path).2 size)
  have cwd := blind_cwd.createIn Fs.use_cwd (dirOpenRoot s).2 (dirOpenRoot s).1 (splitPathFilename path).2 size
  obtain ⟨handle, counts⟩ := opened.handle.heads heads cwd
  exact quiet.between mounted.handle handle cwd counts

theorem filesysOpen_quiet {x : BlockSector} (mounted : Mounted s n) (quiet : Quiet s) (away : x ≠ ROOT_DIR_SECTOR)
    (run : filesysOpen s path = (some (fileOpen x), dirClose (inodeOpen (dirOpenRoot s).2 x).2 (dirOpenRoot s).1)) :
    Quiet (filesysOpen s path).2 := by
  have opened := dirOpenRoot_spec mounted.handle
  have inner := inodeOpen_spec (dirOpenRoot s).2 x
  have root := inner.others ROOT_DIR_SECTOR away.symm
  have cwd : (inodeOpen (dirOpenRoot s).2 x).2.cwd = (dirOpenRoot s).2.cwd := (congrArg Fs.cwd inner.rest :)
  rw [run]
  refine quiet.between mounted.handle (opened.handle.congr (inner.nodup opened.handle.nodup) root cwd) cwd fun i found => ?_
  rw [root] at found
  exact ⟨i, found, rfl⟩

/-- Opening a new file and closing it again: the root directory is as it was, and no freed inode has been used. -/
theorem NewFile.settled {size : Int} {x : BlockSector} (mounted : Mounted t n)
    (created : NewFile s t (splitPathFilename path).2 size x) (plain : Plain (splitPathFilename path).2) :
    let closed := fileClose (filesysOpen t path).2 (fileOpen x)
    closed.cwd = t.cwd ∧ (Quiet t → Quiet closed) ∧ closed.usedFreed = t.usedFreed := by
  obtain ⟨away, run, opened, closed⟩ := created.reopened mounted plain
  have counted : ∀ c, t.cwd = some c → c.openCnt ≠ 0 := by
    intro c held
    obtain ⟨-, count, -⟩ := mounted.handle.held c held
    omega
  refine ⟨?_, fun quiet => ?_, ?_⟩
  · rw [closed.rest]
    exact filesysOpen_cwd t (Or.inr plain.1) counted
  · exact (filesysOpen_quiet mounted quiet away run).congr (closed.others _ away.symm) (congrArg Fs.cwd closed.rest :)
  · rw [closed.rest]
    exact opened.freed

end quiet

section agree

/-- `filesys_open` and `filesys_remove` take a path for the file that `filesys_create` has made of it, and use no inode
that has been freed. -/
def NamesAgree {σ : Type} [Store σ BlockSector Sector] [LawfulStore σ] (s : Fs σ) (path : CString) (size : Int) :
    Prop :=
  let created := (filesysCreate s path size false).2
  ∃ x, ¬Used s.freeMap x ∧ rootSlots created.flat = put (rootSlots s.flat) ((splitPathFilename path).2, x) ∧
    (filesysOpen created path).1 = some (fileOpen x) ∧
    let closed := fileClose (filesysOpen created path).2 (fileOpen x)
    (filesysRemove closed path).1 = true ∧
      rootSlots (filesysRemove closed path).2.flat = (rootSlots created.flat).set (freeSlot (rootSlots s.flat)) none ∧
      (filesysRemove closed path).2.usedFreed = false

theorem namesAgree_flat {σ : Type} [Store σ BlockSector Sector] [LawfulStore σ] (s : Fs σ) (path : CString)
    (size : Int) : NamesAgree s.flat path size ↔ NamesAgree s path size := by
  have freed : ∀ t : Fs σ, t.flat.usedFreed = t.usedFreed := fun _ => rfl
  simp only [NamesAgree, ← filesysCreate_flat, ← filesysOpen_flat, ← fileClose_flat, ← filesysRemove_flat,
    flatten_fst, flatten_snd, Fs.flat_flat, freed]
  rfl

variable {s : FlatFs} {n : Nat} {path : CString} {size : Int}

theorem filesysCreate_settled (mounted : Mounted s n) (made : (filesysCreate s path size false).1 = true)
    (proper : (0 : Byte) ∉ path) (single : (splitPathFilename path).2 ≠ dot) (double : (splitPathFilename path).2 ≠ dotDot) :
    ∃ m x, NewFile s (filesysCreate s path size false).2 (splitPathFilename path).2 size x ∧
      (filesysOpen (filesysCreate s path size false).2 path).1 = some (fileOpen x) ∧
      let closed := fileClose (filesysOpen (filesysCreate s path size false).2 path).2 (fileOpen x)
      Mounted closed m ∧ rootSlots closed = rootSlots (filesysCreate s path size false).2 ∧ Removable closed x ∧
        closed.cwd = s.cwd ∧ (Quiet s → Quiet closed) ∧ closed.usedFreed = s.usedFreed := by
  obtain ⟨m, x, next, created⟩ := filesysCreate_newFile mounted made proper
  have plain : Plain (splitPathFilename path).2 := ⟨fileName_nonempty mounted made, single, double⟩
  obtain ⟨opens, closed, slots, removable⟩ := created.opens next plain
  obtain ⟨cwd, quiet, freed⟩ := created.settled next plain
  obtain ⟨new, creation⟩ := filesysCreate_effect mounted path size
  have counted : ∀ c, s.cwd = some c → c.openCnt ≠ 0 := by
    intro c held
    obtain ⟨-, count, -⟩ := mounted.handle.held c held
    omega
  exact ⟨m, x, created, opens, closed, slots, removable, cwd.trans (filesysCreate_cwd s path size counted),
    fun before => quiet (filesysCreate_quiet mounted before size), freed.trans creation.freed⟩

theorem namesAgree_of_stays (mounted : Mounted s n) (intact : s.usedFreed = false)
    (made : (filesysCreate s path size false).1 = true) (proper : (0 : Byte) ∉ path)
    (single : (splitPathFilename path).2 ≠ dot) (double : (splitPathFilename path).2 ≠ dotDot)
    (stays : StaysInRoot s (splitPathFilename path).1) : NamesAgree s path size := by
  obtain ⟨m, x, created, opens, closed, slots, removable, cwd, -, freed⟩ :=
    filesysCreate_settled mounted made proper single double
  refine ⟨x, created.fresh, created.slots, opens, ?_⟩
  simp only [Fs.flat_flat]
  generalize fileClose (filesysOpen (filesysCreate s path size false).2 path).2 (fileOpen x) = c at *
  have bound : ∀ (k : Nat) v, (rootSlots c)[k]? = some (some ((splitPathFilename path).2, v)) →
      k = freeSlot (rootSlots s) ∧ v = x := by
    intro k v slot
    rw [slots, created.slots] at slot
    exact put_slot created.absent slot
  have present : (splitPathFilename path).2 ∈ keys (rootSlots c) := by
    rw [slots, created.slots]
    exact mem_keys.mpr ⟨x, List.mem_of_getElem? (put_freeSlot _ _)⟩
  have may : ∀ v, some ((splitPathFilename path).2, v) ∈ rootSlots c → Removable c v := by
    intro v member
    obtain ⟨k, slot⟩ := List.getElem?_of_mem member
    obtain ⟨-, rfl⟩ := bound k v slot
    exact removable
  have staysNext : StaysInRoot c (splitPathFilename path).1 := by
    rw [StaysInRoot, sharedSteps, cwd]
    exact stays
  obtain ⟨k, v, slot, removed, unlinked⟩ := filesysRemove_effect closed stays.1 present may
  obtain ⟨rfl, rfl⟩ := bound k v slot
  exact ⟨removed, by rw [unlinked.slots, slots],
    (filesysRemove_stays closed staysNext present may).trans (freed.trans intact)⟩

theorem not_namesAgree_of_special (mounted : Mounted s n) (made : (filesysCreate s path size false).1 = true)
    (proper : (0 : Byte) ∉ path)
    (special : (splitPathFilename path).2 = dot ∨ (splitPathFilename path).2 = dotDot) : ¬NamesAgree s path size := by
  rintro ⟨x, fresh, -, opens, -⟩
  obtain ⟨m, -, next, -⟩ := filesysCreate_newFile mounted made proper
  rw [filesysOpen_dots next special] at opens
  obtain rfl : ROOT_DIR_SECTOR = x := congrArg File.inode (Option.some.inj opens)
  exact fresh (mounted.dir.file.own.used _ List.mem_cons_self)

/-- The directory part leads to something that is not there, or frees the inode of the root directory. -/
theorem not_namesAgree_of_astray (mounted : Mounted s n) (made : (filesysCreate s path size false).1 = true)
    (proper : (0 : Byte) ∉ path) (astray : Lost ((splitPathFilename path).2 :: keys (rootSlots s)) (splitPathFilename path).1 ∨
      Quiet s ∧ FreesRoot s (splitPathFilename path).1) : ¬NamesAgree s path size := by
  by_cases special : (splitPathFilename path).2 = dot ∨ (splitPathFilename path).2 = dotDot
  · exact not_namesAgree_of_special mounted made proper special
  · rintro ⟨x, -, -, opens, removed, -, unused⟩
    obtain ⟨single, double⟩ := not_or.mp special
    obtain ⟨m, y, created, again, closed, same, -, cwd, quiet, -⟩ :=
      filesysCreate_settled mounted made proper single double
    rw [opens] at again
    obtain rfl : x = y := congrArg File.inode (Option.some.inj again)
    rcases astray with ⟨before, token, after, split, dots, notDot, notDouble, absent⟩ | ⟨before, frees⟩
    · refine Bool.false_ne_true ((filesysRemove_lost closed ⟨before, token, after, split, dots, notDot, notDouble, ?_⟩).symm.trans
        removed)
      rw [same, created.slots]
      exact fun bound => absent ((keys_perm (put_perm (rootSlots s) _)).mem_iff.mp bound)
    · rw [FreesRoot, sharedSteps, ← cwd] at frees
      have used := filesysRemove_used (dirOpenPath_frees closed (quiet before) frees)
      exact Bool.false_ne_true (unused.symm.trans used)

theorem filesysCreate_special (s : Fs BufferCache) {n : Nat} (mounted : Mounted s.flat n) (path : CString)
    (proper : (0 : Byte) ∉ path) (size : Int) (made : (filesysCreate s path size false).1 = true)
    (special : (splitPathFilename path).2 = dot ∨ (splitPathFilename path).2 = dotDot) : ¬NamesAgree s path size := by
  rw [← namesAgree_flat]
  refine not_namesAgree_of_special mounted ?_ proper special
  rw [← filesysCreate_flat]
  exact made

/-- Create, open and remove agree on what a path names if its last component is neither "." nor "..", and the directory
part does not leave the root directory open for the last time; they do not if the last component is one of these, or the
directory part leads to something that is not there or frees the inode of the root directory on its way. -/
theorem filesysCreate_names_agree (s : Fs BufferCache) {n : Nat} (mounted : Mounted s.flat n)
    (intact : s.usedFreed = false) (path : CString) (proper : (0 : Byte) ∉ path) (size : Int)
    (made : (filesysCreate s path size false).1 = true) :
    ((splitPathFilename path).2 ≠ dot ∧ (splitPathFilename path).2 ≠ dotDot ∧ StaysInRoot s (splitPathFilename path).1 →
      NamesAgree s path size) ∧
    ((splitPathFilename path).2 = dot ∨ (splitPathFilename path).2 = dotDot ∨
        Lost ((splitPathFilename path).2 :: keys (rootSlots s.flat)) (splitPathFilename path).1 ∨
        Quiet s.flat ∧ FreesRoot s (splitPathFilename path).1 →
      ¬NamesAgree s path size) := by
  have madeFlat : (filesysCreate s.flat path size false).1 = true := by
    rw [← filesysCreate_flat]
    exact made
  constructor
  · rintro ⟨single, double, stays⟩
    exact (namesAgree_flat s path size).mp (namesAgree_of_stays mounted intact madeFlat proper single double stays)
  · rintro (single | double | astray)
    · exact filesysCreate_special s mounted path proper size made (Or.inl single)
    · exact filesysCreate_special s mounted path proper size made (Or.inr double)
    · rw [← namesAgree_flat]
      exact not_namesAgree_of_astray mounted madeFlat proper astray

theorem names_agree_formatted : NamesAgree (formatted 80) [97] 512 := by
  have general : ∀ s : Fs BufferCache, Fresh 80 s.flat → (filesysCreate s [97] 512 false).1 = true →
      NamesAgree s [97] 512 := fun s fresh made =>
    (filesysCreate_names_agree s fresh.mounted fresh.freed [97] (by decide) 512 made).1
      ⟨by decide, by decide, by decide, Nat.zero_le _⟩
  exact general _ (formatted_fresh (by decide +kernel)) (formatted_creates (by decide) (by decide))

/-- A file that is called "." cannot be opened. -/
theorem filesysCreate_dot : ∃ n, Mounted (formatted 80).flat n ∧ (filesysCreate (formatted 80) dot 512 false).1 = true ∧
    ¬NamesAgree (formatted 80) dot 512 := by
  have fresh := formatted_fresh (show FormatFits 80 by decide +kernel)
  have made : (filesysCreate (formatted 80) dot 512 false).1 = true := formatted_creates (by decide) (by decide)
  exact ⟨_, fresh.mounted, made,
    filesysCreate_special _ fresh.mounted dot (by decide) 512 made (Or.inl (by decide))⟩

end agree

end ShellOs.FileSystem
