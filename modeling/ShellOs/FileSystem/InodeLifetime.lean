import ShellOs.FileSystem.Frame
import ShellOs.FileSystem.Exhaustion
import ShellOs.Lib.Run

/-! The inodes in memory and the handles on them: `inode_reopen` does not count, so the first close of an inode frees
it, whatever other handles there are. -/

namespace ShellOs.FileSystem
open Lib

structure Handle where
  addr : Nat
  sector : BlockSector
  deriving DecidableEq

def Inode.handle (i : Inode) : Handle := ⟨i.addr, i.sector⟩

inductive InodeCall
  | inodeOpen (sector : BlockSector)
  | inodeReopen (handle : Handle)
  | inodeClose (handle : Handle)
  | inodeRemove (handle : Handle)

/-- The handles that the callers have got and not closed (as often as they have got them), the addresses of the inodes
that have been marked removed, and of those whose sectors have been released. -/
structure Handles (σ : Type) where
  fs : Fs σ
  live : List Handle
  removed : List Nat
  released : List Nat

section calls

variable {σ : Type} [Store σ BlockSector Sector]

/-- The close of this handle is the last of its inode, and releases its sectors. -/
def releases (s : Fs σ) (h : Handle) : Bool :=
  (s.findInode h.sector).any fun i => decide (i.openCnt - 1 = 0) && i.removed

def InodeCall.step (t : Handles σ) : InodeCall → Handles σ
  | inodeOpen sector =>
    let r := FileSystem.inodeOpen t.fs sector
    { t with fs := r.2, live := r.1.handle :: t.live }
  | inodeReopen h =>
    match t.fs.findInode h.sector with
    | none => t
    | some inode =>
      let r := FileSystem.inodeReopen t.fs inode
      { t with fs := r.2, live := r.1.handle :: t.live }
  | inodeClose h =>
    { t with
      fs := FileSystem.inodeClose t.fs h.sector
      live := t.live.erase h
      released := if releases t.fs h then h.addr :: t.released else t.released }
  | inodeRemove h => { t with fs := FileSystem.inodeRemove t.fs h.sector, removed := h.addr :: t.removed }

/-- A handle is used only while it is open, so it is closed at most once. -/
def InodeCall.Held (t : Handles σ) : InodeCall → Prop
  | inodeOpen _ => True
  | inodeReopen h | inodeClose h | inodeRemove h => h ∈ t.live

/-- And an inode is closed only by the handle that is the only one on it. -/
def InodeCall.ClosesSole (t : Handles σ) (c : InodeCall) : Prop := c.Held t ∧ ∀ h, c = inodeClose h → t.live.count h = 1

/-- The inodes in memory are those that there are handles on, and those of the others that were marked removed have been
released, each once. -/
structure Lifetime (t : Handles σ) : Prop where
  listed : ∀ a, (∃ i ∈ t.fs.openInodes, i.addr = a) ↔ ∃ h ∈ t.live, h.addr = a
  released : ∀ a, (∀ h ∈ t.live, h.addr ≠ a) → t.released.count a = if a ∈ t.removed then 1 else 0
  kept : ∀ h ∈ t.live, h.addr ∉ t.released

end calls

section heads

structure Head where
  handle : Handle
  openCnt : Int
  removed : Bool

def Inode.head (i : Inode) : Head := ⟨i.handle, i.openCnt, i.removed⟩

variable {σ : Type}

def heads (s : Fs σ) : List Head := s.openInodes.map Inode.head

theorem blind_heads : Blind (fun s : Fs σ => (heads s, s.nextAddr)) := by
  refine ⟨fun _ _ => rfl, fun _ _ => rfl, fun s x d => ?_⟩
  simp only [heads, Fs.setInodeData, List.map_map]
  congr 1
  apply List.map_congr_left
  intro i _
  simp only [Function.comp]
  split <;> rfl

theorem mem_eraseP {l : List Head} (nodup : (l.map fun e => e.handle.sector).Nodup) (x : BlockSector) (e : Head) :
    e ∈ l.eraseP (fun f => f.handle.sector == x) ↔ e ∈ l ∧ e.handle.sector ≠ x := by
  induction l with
  | nil => simp
  | cons f rest ih =>
    obtain ⟨first, later⟩ := List.nodup_cons.mp nodup
    by_cases here : f.handle.sector = x
    · rw [List.eraseP_cons_of_pos (by simpa using here), List.mem_cons]
      constructor
      · intro member
        refine ⟨Or.inr member, fun same => first ?_⟩
        exact List.mem_map.mpr ⟨e, member, same.trans here.symm⟩
      · rintro ⟨rfl | member, different⟩
        · exact absurd here different
        · exact member
    · rw [List.eraseP_cons_of_neg (by simpa using here), List.mem_cons, List.mem_cons, ih later]
      constructor
      · rintro (rfl | ⟨member, different⟩)
        · exact ⟨Or.inl rfl, here⟩
        · exact ⟨Or.inr member, different⟩
      · rintro ⟨rfl | member, different⟩
        · exact Or.inl rfl
        · exact Or.inr ⟨member, different⟩

theorem findInode_head {s : Fs σ} {x : BlockSector} {i : Inode} (found : s.findInode x = some i) :
    i.head ∈ heads s ∧ i.sector = x :=
  ⟨List.mem_map_of_mem (List.mem_of_find?_eq_some found), by simpa using List.find?_some found⟩

theorem findInode_no_head {s : Fs σ} {x : BlockSector} (none : s.findInode x = none) :
    ∀ e ∈ heads s, e.handle.sector ≠ x := by
  intro e member same
  obtain ⟨i, listed, rfl⟩ := List.mem_map.mp member
  exact List.find?_eq_none.mp none i listed (beq_iff_eq.mpr same)

theorem findInode_of_head {s : Fs σ} (nodup : ((heads s).map fun e => e.handle.sector).Nodup) {e : Head}
    (member : e ∈ heads s) : ∃ i, s.findInode e.handle.sector = some i ∧ i.head = e := by
  cases found : s.findInode e.handle.sector with
  | none => exact absurd rfl (findInode_no_head found e member)
  | some i =>
    obtain ⟨listed, sector⟩ := findInode_head found
    exact ⟨i, rfl, List.inj_on_of_nodup_map nodup listed member sector⟩

end heads

section runs

variable {σ : Type}

/-- No inode is counted twice, and the handles are those on the inodes in memory. -/
structure Counted (t : Handles σ) : Prop where
  live : ∀ h, h ∈ t.live ↔ ∃ e ∈ heads t.fs, e.handle = h
  once : ∀ e ∈ heads t.fs, e.openCnt = 1
  sectors : ((heads t.fs).map fun e => e.handle.sector).Nodup
  addrs : ((heads t.fs).map fun e => e.handle.addr).Nodup
  fresh : ∀ e ∈ heads t.fs, e.handle.addr < t.fs.nextAddr
  known : ∀ a ∈ t.removed, a < t.fs.nextAddr
  removed : ∀ e ∈ heads t.fs, e.removed = true ↔ e.handle.addr ∈ t.removed
  kept : ∀ e ∈ heads t.fs, e.handle.addr ∉ t.released
  released : ∀ a, (∀ e ∈ heads t.fs, e.handle.addr ≠ a) → t.released.count a = if a ∈ t.removed then 1 else 0

theorem Counted.lifetime {t : Handles σ} (counted : Counted t) : Lifetime t := by
  have listed : ∀ a, (∃ e ∈ heads t.fs, e.handle.addr = a) ↔ ∃ h ∈ t.live, h.addr = a := by
    intro a
    constructor
    · rintro ⟨e, member, same⟩
      exact ⟨e.handle, (counted.live e.handle).mpr ⟨e, member, rfl⟩, same⟩
    · rintro ⟨h, member, same⟩
      obtain ⟨e, inList, rfl⟩ := (counted.live h).mp member
      exact ⟨e, inList, same⟩
  refine ⟨fun a => ?_, fun a closed => ?_, fun h member => ?_⟩
  · rw [← listed a]
    constructor
    · rintro ⟨i, inList, same⟩
      exact ⟨i.head, List.mem_map_of_mem inList, same⟩
    · rintro ⟨e, inList, same⟩
      obtain ⟨i, member, rfl⟩ := List.mem_map.mp inList
      exact ⟨i, member, same⟩
  · apply counted.released a
    intro e member same
    exact closed e.handle ((counted.live e.handle).mpr ⟨e, member, rfl⟩) same
  · obtain ⟨e, inList, rfl⟩ := (counted.live h).mp member
    exact counted.kept e inList

theorem Counted.again {t : Handles σ} (counted : Counted t) {x : BlockSector} {i : Inode}
    (found : t.fs.findInode x = some i) : Counted { t with live := i.handle :: t.live } := by
  refine ⟨fun h => ?_, counted.once, counted.sectors, counted.addrs, counted.fresh, counted.known, counted.removed,
    counted.kept, counted.released⟩
  rw [List.mem_cons, counted.live h]
  constructor
  · rintro (rfl | listed)
    · exact ⟨i.head, (findInode_head found).1, rfl⟩
    · exact listed
  · exact Or.inr

variable [Store σ BlockSector Sector]

theorem Counted.opens {t : Handles σ} (counted : Counted t) (x : BlockSector) :
    Counted (InodeCall.step t (.inodeOpen x)) := by
  simp only [InodeCall.step, inodeOpen]
  split
  next i found => exact counted.again found
  next none =>
    have absent := findInode_no_head none
    have unmarked : t.fs.nextAddr ∉ t.removed := fun marked => (counted.known _ marked).ne rfl
    refine ⟨fun h => ?_, ?_, ?_, ?_, ?_, ?_, ?_, ?_, ?_⟩
    · rw [List.mem_cons, counted.live h]
      constructor
      · rintro (rfl | ⟨e, old, same⟩)
        · exact ⟨_, List.mem_cons_self, rfl⟩
        · exact ⟨e, List.mem_cons_of_mem _ old, same⟩
      · rintro ⟨e, member, same⟩
        rcases List.mem_cons.mp member with rfl | old
        · exact Or.inl same.symm
        · exact Or.inr ⟨e, old, same⟩
    · intro e member
      rcases List.mem_cons.mp member with rfl | old
      · rfl
      · exact counted.once e old
    · refine List.nodup_cons.mpr ⟨fun member => ?_, counted.sectors⟩
      obtain ⟨e, old, same⟩ := List.mem_map.mp member
      exact absent e old same
    · refine List.nodup_cons.mpr ⟨fun member => ?_, counted.addrs⟩
      obtain ⟨e, old, same⟩ := List.mem_map.mp member
      exact (counted.fresh e old).ne same
    · intro e member
      rcases List.mem_cons.mp member with rfl | old
      · exact Nat.lt_succ_self _
      · exact Nat.lt_succ_of_lt (counted.fresh e old)
    · exact fun a marked => Nat.lt_succ_of_lt (counted.known a marked)
    · intro e member
      rcases List.mem_cons.mp member with rfl | old
      · exact iff_of_false Bool.false_ne_true unmarked
      · exact counted.removed e old
    · intro e member
      rcases List.mem_cons.mp member with rfl | old
      · intro gone
        have count := counted.released t.fs.nextAddr fun e old => (counted.fresh e old).ne
        rw [if_neg unmarked] at count
        exact List.count_pos_iff.mpr gone |>.ne' count
      · exact counted.kept e old
    · exact fun a closed => counted.released a fun e old => closed e (List.mem_cons_of_mem _ old)

theorem Counted.reopens {t : Handles σ} (counted : Counted t) (h : Handle) :
    Counted (InodeCall.step t (.inodeReopen h)) := by
  simp only [InodeCall.step, inodeReopen]
  split
  · exact counted
  next i found => exact counted.again found

def Head.mark (x : BlockSector) (e : Head) : Head := if e.handle.sector = x then { e with removed := true } else e

@[simp] theorem Head.mark_handle (x : BlockSector) (e : Head) : (e.mark x).handle = e.handle := by
  unfold Head.mark
  split <;> rfl

@[simp] theorem Head.mark_openCnt (x : BlockSector) (e : Head) : (e.mark x).openCnt = e.openCnt := by
  unfold Head.mark
  split <;> rfl

omit [Store σ BlockSector Sector] in
theorem heads_remove (s : Fs σ) (x : BlockSector) : heads (inodeRemove s x) = (heads s).map (Head.mark x) := by
  simp only [heads, inodeRemove, List.map_map]
  apply List.map_congr_left
  intro i _
  simp only [Function.comp]
  by_cases here : i.sector = x
  · rw [if_pos here, Head.mark, if_pos (show i.head.handle.sector = x from here)]
    rfl
  · rw [if_neg here, Head.mark, if_neg (show i.head.handle.sector ≠ x from here)]

theorem Counted.removes {t : Handles σ} (counted : Counted t) {h : Handle} (held : h ∈ t.live) :
    Counted (InodeCall.step t (.inodeRemove h)) := by
  obtain ⟨this, here, rfl⟩ := (counted.live h).mp held
  simp only [InodeCall.step]
  refine ⟨fun h => ?_, ?_, ?_, ?_, ?_, ?_, ?_, ?_, ?_⟩ <;> simp only [heads_remove]
  · rw [counted.live h]
    simp
  · simpa using counted.once
  · simpa [Function.comp_def] using counted.sectors
  · simpa [Function.comp_def] using counted.addrs
  · simpa [inodeRemove] using counted.fresh
  · intro a marked
    rcases List.mem_cons.mp marked with rfl | old
    · exact counted.fresh this here
    · exact counted.known a old
  · intro f member
    obtain ⟨e, old, rfl⟩ := List.mem_map.mp member
    rw [Head.mark_handle, List.mem_cons]
    by_cases same : e.handle.sector = this.handle.sector
    · have one : e = this := List.inj_on_of_nodup_map counted.sectors old here same
      rw [one, Head.mark, if_pos rfl]
      simp
    · have other : e.handle.addr ≠ this.handle.addr := by
        intro equal
        exact same (by rw [List.inj_on_of_nodup_map counted.addrs old here equal])
      rw [Head.mark, if_neg same, counted.removed e old]
      simp [other]
  · simpa using counted.kept
  · intro a closed
    have gone : ∀ e ∈ heads t.fs, e.handle.addr ≠ a := by simpa using closed
    simp only [counted.released a gone, List.mem_cons, (gone this here).symm, false_or]

variable [LawfulStore σ]

/-- The close of the only handle on an inode takes it off the list, and what it releases does not count. -/
theorem heads_close {s : Fs σ} {i : Inode} (found : s.findInode i.sector = some i) (once : i.openCnt = 1) :
    heads (inodeClose s i.sector) = (heads s).eraseP (fun e => e.handle.sector == i.sector) ∧
      (inodeClose s i.sector).nextAddr = s.nextAddr := by
  have view : (heads (inodeClose s i.sector), (inodeClose s i.sector).nextAddr) =
      (heads { s with openInodes := s.openInodes.eraseP fun other => other.sector == i.sector }, s.nextAddr) := by
    simp only [inodeClose, found, once]
    rw [if_pos (by rfl)]
    split
    · exact (blind_heads.inodeDeallocate _ _).trans (blind_heads.freeMapRelease _ _ _)
    · rfl
  have list : heads { s with openInodes := s.openInodes.eraseP fun other => other.sector == i.sector } =
      (heads s).eraseP (fun e => e.handle.sector == i.sector) := by
    simp only [heads, List.eraseP_map]
    rfl
  rw [list] at view
  exact ⟨congrArg Prod.fst view, congrArg Prod.snd view⟩

theorem Counted.closes {t : Handles σ} (counted : Counted t) {h : Handle} (held : h ∈ t.live)
    (sole : t.live.count h = 1) : Counted (InodeCall.step t (.inodeClose h)) := by
  obtain ⟨this, here, rfl⟩ := (counted.live h).mp held
  obtain ⟨i, found, rfl⟩ := findInode_of_head counted.sectors here
  replace found : t.fs.findInode i.sector = some i := found
  have once : i.openCnt = 1 := counted.once _ here
  obtain ⟨list, next⟩ := heads_close found once
  have members := mem_eraseP counted.sectors i.sector
  have others : ∀ e ∈ heads t.fs, e.handle.sector ≠ i.sector ↔ e.handle ≠ i.handle := by
    intro e old
    refine not_congr ⟨fun same => ?_, fun same => by rw [same]; rfl⟩
    rw [List.inj_on_of_nodup_map counted.sectors old here same]
    rfl
  have addr : ∀ e ∈ heads t.fs, e.handle.sector ≠ i.sector → e.handle.addr ≠ i.addr := by
    intro e old different same
    exact different (congrArg (fun f : Head => f.handle.sector) (List.inj_on_of_nodup_map counted.addrs old here same))
  have frees : releases t.fs i.handle = i.removed := by
    rw [releases, show i.handle.sector = i.sector from rfl, found, Option.any_some, once]
    simp
  have unmarked : i.addr ∈ t.removed ↔ i.removed = true := (counted.removed _ here).symm
  have sublist : ((heads t.fs).eraseP fun e => e.handle.sector == i.sector).Sublist (heads t.fs) :=
    List.eraseP_sublist
  have live : ∀ h, h ∈ t.live.erase i.handle ↔ h ∈ t.live ∧ h ≠ i.handle := by
    intro h
    by_cases same : h = i.handle
    · rw [same, ← List.count_pos_iff, List.count_erase_self]
      have one : t.live.count i.handle = 1 := sole
      simp [one]
    · rw [List.mem_erase_of_ne same]
      simp [same]
  simp only [InodeCall.step]
  rw [show i.head.handle = i.handle from rfl, show i.handle.sector = i.sector from rfl, frees]
  refine ⟨fun h => ?_, ?_, ?_, ?_, ?_, ?_, ?_, ?_, ?_⟩ <;> simp only [list, next]
  · rw [live h, counted.live h]
    constructor
    · rintro ⟨⟨e, old, rfl⟩, different⟩
      exact ⟨e, (members e).mpr ⟨old, (others e old).mpr different⟩, rfl⟩
    · rintro ⟨e, member, rfl⟩
      obtain ⟨old, different⟩ := (members e).mp member
      exact ⟨⟨e, old, rfl⟩, (others e old).mp different⟩
  · exact fun e member => counted.once e ((members e).mp member).1
  · exact counted.sectors.sublist (sublist.map _)
  · exact counted.addrs.sublist (sublist.map _)
  · exact fun e member => counted.fresh e ((members e).mp member).1
  · exact counted.known
  · exact fun e member => counted.removed e ((members e).mp member).1
  · intro e member
    obtain ⟨old, different⟩ := (members e).mp member
    have kept := counted.kept e old
    split
    · exact fun gone => (List.mem_cons.mp gone).elim (addr e old different) kept
    · exact kept
  · intro a closed
    by_cases this : a = i.addr
    · have none : t.released.count i.addr = 0 := List.count_eq_zero.mpr (counted.kept _ here)
      rw [this, show i.handle.addr = i.addr from rfl]
      simp only [unmarked]
      split
      · rw [List.count_cons_self, none]
      · exact none
    · have gone : ∀ e ∈ heads t.fs, e.handle.addr ≠ a := by
        intro e old
        by_cases same : e.handle.sector = i.sector
        · rw [List.inj_on_of_nodup_map counted.sectors old here same]
          exact Ne.symm this
        · exact closed e ((members e).mpr ⟨old, same⟩)
      rw [← counted.released a gone]
      split
      · exact List.count_cons_of_ne (Ne.symm this)
      · rfl

theorem Counted.closes_shared {t : Handles σ} (counted : Counted t) {h : Handle} (shared : 1 < t.live.count h) :
    ¬Lifetime (InodeCall.step t (.inodeClose h)) := by
  intro lifetime
  obtain ⟨this, here, rfl⟩ := (counted.live h).mp (List.count_pos_iff.mp (by omega))
  obtain ⟨i, found, rfl⟩ := findInode_of_head counted.sectors here
  have list := (heads_close (show t.fs.findInode i.sector = some i from found) (counted.once _ here)).1
  have still : i.handle ∈ t.live.erase i.handle := by
    rw [← List.count_pos_iff, List.count_erase_self]
    exact Nat.sub_pos_of_lt shared
  obtain ⟨j, inList, addr⟩ := (lifetime.listed i.addr).mpr ⟨i.handle, still, rfl⟩
  have member : j.head ∈ heads (inodeClose t.fs i.sector) := List.mem_map_of_mem inList
  rw [list, mem_eraseP counted.sectors] at member
  apply member.2
  rw [List.inj_on_of_nodup_map counted.addrs member.1 here addr]
  rfl

theorem Counted.step {t : Handles σ} (counted : Counted t) {c : InodeCall} (sole : c.ClosesSole t) :
    Counted (c.step t) := by
  obtain ⟨held, once⟩ := sole
  cases c with
  | inodeOpen x => exact counted.opens x
  | inodeReopen h => exact counted.reopens h
  | inodeClose h => exact counted.closes held (once h rfl)
  | inodeRemove h => exact counted.removes held

omit [LawfulStore σ] in
theorem InodeCall.step_freeMap (t : Handles σ) (c : InodeCall) :
    (c.step t).fs.freeMap = t.fs.freeMap ∨ ∃ h, c = .inodeClose h ∧ releases t.fs h = true := by
  cases c with
  | inodeOpen x =>
    left
    simp only [InodeCall.step, FileSystem.inodeOpen]
    split <;> rfl
  | inodeReopen h =>
    left
    simp only [InodeCall.step]
    split <;> rfl
  | inodeRemove h => exact Or.inl rfl
  | inodeClose h =>
    by_cases frees : releases t.fs h = true
    · exact Or.inr ⟨h, rfl, frees⟩
    · left
      simp only [InodeCall.step, FileSystem.inodeClose]
      split
      · exact Fs.use_freeMap _ _
      next i found =>
        simp only [releases, found, Option.any_some, Bool.and_eq_true, decide_eq_true_eq] at frees
        split
        next last =>
          rw [if_neg fun removed => frees ⟨last, removed⟩]
        next => rfl

end runs

def Handles.start (cache : BufferCache) (size : BlockSector) : Handles BufferCache :=
  ⟨filesysStart cache size, [], [], []⟩

theorem Handles.start_counted (cache : BufferCache) (size : BlockSector) : Counted (Handles.start cache size) := by
  constructor <;> simp [Handles.start, filesysStart, heads]

/-- If each inode that is closed has no other handle on it, then in every state an inode is in memory exactly as long as
there is a handle on it; the sectors of those marked removed are released once, and nothing else touches the free
map. -/
theorem inode_lifetime (cache : BufferCache) (size : BlockSector) {t : Handles BufferCache}
    (run : Run (fun t c => InodeCall.ClosesSole t c) InodeCall.step (Handles.start cache size) t) :
    Lifetime t ∧ ∀ c, (InodeCall.step t c).fs.freeMap = t.fs.freeMap ∨
      ∃ h, c = .inodeClose h ∧ releases t.fs h = true := by
  have counted := run.invariant Counted (Handles.start_counted cache size) fun _ _ counted sole => counted.step sole
  exact ⟨counted.lifetime, fun c => c.step_freeMap t⟩

theorem inode_lifetime_removed :
    let t := InodeCall.step (InodeCall.step (InodeCall.step (Handles.start (blankDisk 80) 80) (.inodeOpen 5))
      (.inodeRemove ⟨0, 5⟩)) (.inodeClose ⟨0, 5⟩)
    Lifetime t := by
  intro t
  have removed : Run (fun t c => InodeCall.ClosesSole t c) InodeCall.step (Handles.start (blankDisk 80) 80)
      (InodeCall.step (InodeCall.step (Handles.start (blankDisk 80) 80) (.inodeOpen 5)) (.inodeRemove ⟨0, 5⟩)) :=
    (Run.start.next (InodeCall.inodeOpen 5) ⟨trivial, by simp⟩).next (InodeCall.inodeRemove ⟨0, 5⟩)
      ⟨List.mem_cons_self, by simp⟩
  have run : Run (fun t c => InodeCall.ClosesSole t c) InodeCall.step (Handles.start (blankDisk 80) 80) t := by
    refine removed.next (InodeCall.inodeClose ⟨0, 5⟩) ⟨List.mem_cons_self, ?_⟩
    rintro h ⟨⟩
    rfl
  exact (inode_lifetime (blankDisk 80) 80 run).1

/-- An inode is opened twice and closed once: it is gone, although there is a handle on it. -/
theorem inode_freed_early :
    let t := InodeCall.step (InodeCall.step (InodeCall.step (Handles.start (blankDisk 80) 80) (.inodeOpen 5))
      (.inodeOpen 5)) (.inodeClose ⟨0, 5⟩)
    Run (fun t c => InodeCall.Held t c) InodeCall.step (Handles.start (blankDisk 80) 80) t ∧ ¬Lifetime t := by
  intro t
  have twice := ((Handles.start_counted (blankDisk 80) 80).opens 5).opens 5
  refine ⟨?_, twice.closes_shared (by decide)⟩
  exact ((Run.start.next (InodeCall.inodeOpen 5) trivial).next (InodeCall.inodeOpen 5) trivial).next
    (InodeCall.inodeClose ⟨0, 5⟩) List.mem_cons_self

end ShellOs.FileSystem
