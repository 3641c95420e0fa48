import ShellOs.FileSystem.Frame

/-! The handle on the root directory that all scans share. Its cursor is reset only when its last user closes it, and no
call below the directories touches it. -/

namespace ShellOs.FileSystem
open Lib

section cwd

variable {σ : Type}

theorem blind_cwd : Blind (Fs.cwd : Fs σ → Option Dir) := ⟨fun _ _ => rfl, fun _ _ => rfl, fun _ _ _ => rfl⟩

theorem blind_usedFreed : Blind (Fs.usedFreed : Fs σ → Bool) := ⟨fun _ _ => rfl, fun _ _ => rfl, fun _ _ _ => rfl⟩

variable [Store σ BlockSector Sector]

theorem inodeOpen_cwd (s : Fs σ) (sector : BlockSector) : (inodeOpen s sector).2.cwd = s.cwd := by
  unfold inodeOpen
  split <;> rfl

theorem inodeClose_cwd [LawfulStore σ] (s : Fs σ) (inode : BlockSector) : (inodeClose s inode).cwd = s.cwd := by
  unfold inodeClose
  split
  · exact Fs.use_cwd s inode
  · simp only
    split
    · split
      · rw [blind_cwd.inodeDeallocate, blind_cwd.freeMapRelease]
      · rfl
    · rfl

end cwd

def closedCwd (cwd : Option Dir) (dir : Dir) : Option Dir :=
  match cwd with
  | none => none
  | some c =>
    if c.addr = dir.addr then if c.openCnt - 1 = 0 then none else some { c with openCnt := c.openCnt - 1 }
    else if dir.openCnt - 1 = 0 then none else some c

def Sole (addr : Nat) (cwd : Option Dir) : Prop := ∀ c, cwd = some c → c.addr = addr ∧ c.openCnt = 1

section handle

variable {cwd : Option Dir} {d target : Dir} {a : Nat}

theorem sole_none (a : Nat) : Sole a none := fun _ same => by cases same

theorem none_of_sole (sole : ∀ a, Sole a cwd) : cwd = none := by
  cases cwd with
  | none => rfl
  | some c => exact absurd (sole (c.addr + 1) c rfl).1 (Nat.succ_ne_self _).symm

theorem Sole.counted (sole : Sole a cwd) : ∀ c, cwd = some c → c.openCnt ≠ 0 := by
  intro c held
  rw [(sole c held).2]
  decide

theorem closedCwd_none (d : Dir) : closedCwd none d = none := rfl

theorem closedCwd_sole (sole : Sole a cwd) (once : d.openCnt = 1) : closedCwd cwd d = none := by
  cases cwd with
  | none => rfl
  | some c =>
    rw [closedCwd, (sole c rfl).2, once]
    split <;> rfl

theorem Sole.between (sole : Sole a (closedCwd cwd d)) (once : target.openCnt = 1) :
    Sole a (closedCwd (closedCwd cwd target) d) := by
  cases cwd with
  | none => exact sole_none a
  | some c =>
    by_cases same : c.addr = target.addr
    · by_cases last : c.openCnt - 1 = 0
      · rw [closedCwd.eq_def (some c) target]
        simp only [if_pos same, if_pos last]
        exact sole_none a
      · have first : closedCwd (some c) target = some { c with openCnt := c.openCnt - 1 } := by
          simp only [closedCwd, if_pos same, if_neg last]
        rw [first]
        simp only [closedCwd] at sole ⊢
        by_cases here : c.addr = d.addr
        · rw [if_pos here, if_neg last] at sole
          have two := (sole _ rfl).2
          rw [if_pos here, if_pos (by simp only at two; omega)]
          exact sole_none a
        · rw [if_neg here] at sole ⊢
          by_cases gone : d.openCnt - 1 = 0
          · rw [if_pos gone]
            exact sole_none a
          · rw [if_neg gone] at sole
            have one := (sole c rfl).2
            omega
    · have first : closedCwd (some c) target = none := by
        simp only [closedCwd, if_neg same, once]
        rfl
      rw [first]
      exact sole_none a

end handle

section calls

variable {σ : Type} {a : Nat}

theorem setDir_cwd (s : Fs σ) (dir : Dir) :
    (setDir s dir).cwd = s.cwd.map fun c => if c.addr = dir.addr then dir else c := by
  cases held : s.cwd with
  | none =>
    rw [setDir, held]
    exact held
  | some c =>
    simp only [setDir, held, Option.map_some]
    split
    · rfl
    · exact held

theorem dirOpen_cwd (s : Fs σ) (inode : BlockSector) : (dirOpen s inode).2.cwd = s.cwd := rfl

variable [Store σ BlockSector Sector]

theorem dirOpenRoot_closed (s : Fs σ) (counted : ∀ c, s.cwd = some c → c.openCnt ≠ 0) :
    closedCwd (dirOpenRoot s).2.cwd (dirOpenRoot s).1 = s.cwd := by
  cases held : s.cwd with
  | none =>
    simp only [dirOpenRoot, held, closedCwd, dirOpen]
    rfl
  | some c =>
    have more : ¬c.openCnt + 1 - 1 = 0 := by
      rw [Int.add_sub_cancel]
      exact counted c held
    simp only [dirOpenRoot, held, closedCwd, if_true, if_neg more]
    rw [show c.openCnt + 1 - 1 = c.openCnt by omega]

theorem dirOpenRoot_inode (s : Fs σ) (idle : s.cwd = none) :
    ∃ c, (dirOpenRoot s).2.cwd = some c ∧ (dirOpenRoot s).1 = c ∧ c.openCnt = 1 ∧ c.inode = ROOT_DIR_SECTOR ∧
      c.pos = ENTRY_SIZE := by
  simp only [dirOpenRoot, idle, dirOpen]
  exact ⟨_, rfl, rfl, rfl, rfl, rfl⟩

theorem dirOpenRoot_sole (s : Fs σ) (idle : s.cwd = none) :
    Sole (dirOpenRoot s).1.addr (dirOpenRoot s).2.cwd := by
  obtain ⟨c, held, same, once, -⟩ := dirOpenRoot_inode s idle
  intro d found
  rw [held] at found
  rw [← Option.some.inj found, same]
  exact ⟨rfl, once⟩

theorem dirClose_cwd (s : Fs σ) (dir : Dir) : (dirClose s dir).cwd = closedCwd s.cwd dir := by
  have map := fun d : Dir => setDir_cwd s d
  cases held : s.cwd with
  | none =>
    simp only [dirClose, dirAt, held, closedCwd]
    split
    · rfl
    · rw [map, held, Option.map_none]
  | some c =>
    by_cases same : c.addr = dir.addr
    · simp only [dirClose, dirAt, held, closedCwd, if_pos same]
      split
      · rfl
      · rw [map, held, Option.map_some, if_pos rfl]
    · simp only [dirClose, dirAt, held, closedCwd, if_neg same]
      split
      · rfl
      · rw [map, held, Option.map_some, if_neg same]

variable [LawfulStore σ]

theorem dirLookup_cwd (s : Fs σ) (dir : Dir) (name : CString) : (dirLookup s dir name).2.cwd = s.cwd := by
  unfold dirLookup
  split
  · rfl
  · split
    · exact (inodeOpen_cwd _ _).trans ((blind_cwd.inodeReadAt _ dir.inode _ _).trans (s.use_cwd dir.inode))
    · have looked := (blind_cwd.lookup (s.use dir.inode) dir.inode name).trans (s.use_cwd dir.inode)
      simp only
      split
      · exact (inodeOpen_cwd _ _).trans looked
      · exact looked

theorem dirRemove_cwd (s : Fs σ) (dir : Dir) (name : CString) : (dirRemove s dir name).2.cwd = s.cwd ∨
    ∃ target : Dir, target.openCnt = 1 ∧ (dirRemove s dir name).2.cwd = closedCwd s.cwd target := by
  have looked := (blind_cwd.lookup (s.use dir.inode) dir.inode name).trans (s.use_cwd dir.inode)
  unfold dirRemove
  simp only
  split
  · exact Or.inl looked
  next e ofs found =>
    generalize opened : (inodeOpen (lookup (s.use dir.inode) dir.inode name).2 e.inodeSector).2 = o
    have cwd : o.cwd = s.cwd := by rw [← opened, inodeOpen_cwd, looked]
    -- what is left to do once it is known whether the directory is empty
    have rest : ∀ empty : Bool × Fs σ, (if empty.1 = false then (false, inodeClose empty.2 e.inodeSector) else
        if (inodeWriteAt empty.2 dir.inode { e with inUse := false }.encode ENTRY_SIZE ofs).1 = ENTRY_SIZE then
          (true, inodeClose (inodeRemove (inodeWriteAt empty.2 dir.inode { e with inUse := false }.encode ENTRY_SIZE
            ofs).2 e.inodeSector) e.inodeSector)
        else (false, inodeClose (inodeWriteAt empty.2 dir.inode { e with inUse := false }.encode ENTRY_SIZE ofs).2
          e.inodeSector)).2.cwd = empty.2.cwd := by
      intro empty
      split
      · exact inodeClose_cwd _ _
      · split
        · rw [inodeClose_cwd]
          exact blind_cwd.inodeWriteAt _ _ _ _ _
        · rw [inodeClose_cwd, blind_cwd.inodeWriteAt]
    rw [rest]
    split
    · right
      refine ⟨(dirOpen o e.inodeSector).1, rfl, ?_⟩
      rw [dirClose_cwd, dirIsEmpty]
      simp only
      rw [blind_cwd.scanEntries, dirOpen_cwd, cwd]
    · exact Or.inl cwd

theorem openComponents_sole (parts : List CString) (s : Fs σ) (curr : Dir) (sole : Sole a (closedCwd s.cwd curr)) :
    ((openComponents parts s curr).1 = none → Sole a (openComponents parts s curr).2.cwd) ∧
      ∀ d, (openComponents parts s curr).1 = some d → Sole a (closedCwd (openComponents parts s curr).2.cwd d) := by
  induction parts generalizing s curr with
  | nil =>
    rw [openComponents]
    rw [← s.use_cwd curr.inode] at sole
    split
    · rw [dirClose_cwd]
      exact ⟨fun _ => sole, fun d same => by cases same⟩
    · refine ⟨fun same => (by cases same), fun d same => ?_⟩
      rw [← Option.some.inj same]
      exact sole
  | cons token rest ih =>
    have looked := dirLookup_cwd s curr token
    rw [openComponents]
    simp only
    split
    · rw [dirClose_cwd, looked]
      exact ⟨fun _ => sole, fun d same => by cases same⟩
    · apply ih
      rw [dirClose_cwd, dirOpen_cwd, looked, closedCwd_sole sole rfl]
      exact sole_none a

theorem dirOpenPath_sole (s : Fs σ) (path : CString) (sole : Sole a s.cwd) :
    ((dirOpenPath s path).1 = none → Sole a (dirOpenPath s path).2.cwd) ∧
      ∀ d, (dirOpenPath s path).1 = some d → Sole a (closedCwd (dirOpenPath s path).2.cwd d) := by
  have root : Sole a (closedCwd (dirOpenRoot s).2.cwd (dirOpenRoot s).1) := by
    rw [dirOpenRoot_closed s sole.counted]
    exact sole
  unfold dirOpenPath
  simp only
  apply openComponents_sole
  split
  · exact root
  · split
    · exact root
    · rw [dirReopen, dirOpen_cwd, closedCwd_sole sole rfl]
      exact sole_none a

theorem filesysRemove_sole (s : Fs σ) (path : CString) (sole : Sole a s.cwd) :
    Sole a (filesysRemove s path).2.cwd := by
  obtain ⟨failed, reached⟩ := dirOpenPath_sole s (splitPathFilename path).1 sole
  unfold filesysRemove
  simp only
  split
  next none => exact failed none
  next d some =>
    have before := reached d some
    rw [dirClose_cwd]
    rcases dirRemove_cwd (dirOpenPath s (splitPathFilename path).1).2 d (splitPathFilename path).2 with
      same | ⟨target, once, closed⟩
    · rw [same]
      exact before
    · rw [closed]
      exact before.between once

theorem filesysCreate_cwd (s : Fs σ) (path : CString) (size : Int) (counted : ∀ c, s.cwd = some c → c.openCnt ≠ 0) :
    (filesysCreate s path size false).2.cwd = s.cwd := by
  have created := fun (t : Fs σ) => blind_cwd.createAt Fs.use_cwd t
  unfold filesysCreate
  simp only
  rw [dirClose_cwd]
  refine Eq.trans (congrArg (closedCwd · _) ?_) (dirOpenRoot_closed s counted)
  split <;> split <;> simp only [blind_cwd.freeMapRelease, created, blind_cwd.freeMapAllocate]

def Named (path : CString) : Prop := path = [] ∨ (splitPathFilename path).2 ≠ []

instance (path : CString) : Decidable (Named path) := inferInstanceAs (Decidable (_ ∨ _))

omit [Store σ BlockSector Sector] [LawfulStore σ] in
theorem openFound_snd (r : Option BlockSector × Fs σ) : (openFound r).2 = r.1.elim r.2 r.2.use := by
  unfold openFound
  split
  next none =>
    rw [none]
    rfl
  next inode found =>
    rw [found]
    simp only
    split <;> rfl

omit [Store σ BlockSector Sector] [LawfulStore σ] in
theorem openFound_cwd (r : Option BlockSector × Fs σ) : (openFound r).2.cwd = r.2.cwd := by
  rw [openFound_snd]
  cases r.1 with
  | none => rfl
  | some inode => exact r.2.use_cwd inode

theorem filesysOpen_cwd (s : Fs σ) {path : CString} (named : Named path)
    (counted : ∀ c, s.cwd = some c → c.openCnt ≠ 0) :
    (filesysOpen s path).2.cwd = s.cwd := by
  unfold filesysOpen
  split
  · rfl
  next long =>
    have last : 0 < (splitPathFilename path).2.length := by
      rcases named with empty | some
      · exact absurd (by rw [empty]; rfl) long
      · exact List.length_pos_of_ne_nil some
    simp only [if_pos last]
    rw [openFound_cwd, dirClose_cwd, dirLookup_cwd, dirOpenRoot_closed s counted]

end calls

end ShellOs.FileSystem
