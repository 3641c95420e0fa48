import ShellOs.FileSystem.Release

/-! Opening and closing inodes: what stays as it is, and what the last close of an inode does. -/

namespace ShellOs.FileSystem
open Lib BlockTree

theorem FreeMapOk.congr {s t : FlatFs} (ok : FreeMapOk s) (cache : t.cache = s.cache)
    (freeMap : t.freeMap = s.freeMap) (freeMapFile : t.freeMapFile = s.freeMapFile)
    (same : ∀ f, s.freeMapFile = some f → t.findInode f.inode = s.findInode f.inode) :
    FreeMapOk t ∧ freeMapNodes t = freeMapNodes s ∧ freeMapData t = freeMapData s ∧
      (Synced s → Synced t) := by
  obtain ⟨c, b, file, inodes, nextAddr, cwd, fileTable, usedFreed⟩ := t
  simp only at cache freeMap freeMapFile
  subst cache freeMap freeMapFile
  obtain ⟨next, nodes, data, synced⟩ := ok.reopen (l := inodes) same
  exact ⟨⟨next.small, next.first, fun f opened =>
    ⟨(next.file f opened).listed, (next.file f opened).writable, (next.file f opened).layout⟩⟩, nodes, data, synced⟩

def HandlesNodup (s : FlatFs) : Prop := (s.openInodes.map Inode.sector).Nodup

structure Opened (s t : FlatFs) (x : BlockSector) : Prop where
  rest : t = { s with openInodes := t.openInodes, nextAddr := t.nextAddr }
  data : ∀ z, t.inodeData z = s.inodeData z
  deny : ∀ z, t.inodeDenyWriteCnt z = s.inodeDenyWriteCnt z
  others : ∀ z, z ≠ x → t.findInode z = s.findInode z
  listed : (t.findInode x).isSome
  kept : ∀ i, s.findInode x = some i → t.openInodes = s.openInodes
  fresh : s.findInode x = none → ∃ i, t.openInodes = i :: s.openInodes ∧ i.sector = x ∧ i.openCnt = 1 ∧
    i.removed = false ∧ i.denyWriteCnt = 0 ∧ i.data = InodeDisk.decode (s.cache x)

theorem inodeOpen_spec (s : FlatFs) (x : BlockSector) : Opened s (inodeOpen s x).2 x := by
  cases found : s.findInode x with
  | some i =>
    have same : (inodeOpen s x).2 = s := by simp only [inodeOpen, found, inodeReopen]
    rw [same]
    exact ⟨rfl, fun _ => rfl, fun _ => rfl, fun _ _ => rfl, by rw [found]; rfl, fun _ _ => rfl,
      fun none => by rw [found] at none; cases none⟩
  | none =>
    have opened : (inodeOpen s x).2 = { s with
        openInodes := ⟨s.nextAddr, x, 1, false, 0, InodeDisk.decode (s.cache x)⟩ :: s.openInodes
        nextAddr := s.nextAddr + 1 } := by
      simp only [inodeOpen, found]
      rfl
    have others : ∀ z, z ≠ x → (inodeOpen s x).2.findInode z = s.findInode z := by
      intro z different
      rw [opened]
      simp only [Fs.findInode, List.find?_cons, beq_eq_false_iff_ne.mpr (Ne.symm different)]
    have this : (inodeOpen s x).2.findInode x =
        some ⟨s.nextAddr, x, 1, false, 0, InodeDisk.decode (s.cache x)⟩ := by
      rw [opened]
      simp [Fs.findInode]
    have cache : (inodeOpen s x).2.cache = s.cache := by rw [opened]
    refine ⟨by rw [opened], fun z => ?_, fun z => ?_, others, by rw [this]; rfl, fun i held => ?_, fun _ => ?_⟩
    · by_cases same : z = x
      · subst same
        simp only [Fs.inodeData, this, found]
        rfl
      · simp only [Fs.inodeData, others z same, cache]
    · by_cases same : z = x
      · subst same
        simp only [Fs.inodeDenyWriteCnt, this, found]
      · simp only [Fs.inodeDenyWriteCnt, others z same]
    · rw [found] at held
      cases held
    · exact ⟨_, by rw [opened], rfl, rfl, rfl, rfl, rfl⟩

theorem Opened.cache {s t : FlatFs} {x : BlockSector} (opened : Opened s t x) : t.cache = s.cache := by
  rw [opened.rest]

theorem Opened.freeMap {s t : FlatFs} {x : BlockSector} (opened : Opened s t x) : t.freeMap = s.freeMap := by
  rw [opened.rest]

theorem Opened.freeMapFile {s t : FlatFs} {x : BlockSector} (opened : Opened s t x) :
    t.freeMapFile = s.freeMapFile := by rw [opened.rest]

theorem Opened.nodup {s t : FlatFs} {x : BlockSector} (opened : Opened s t x) (nodup : HandlesNodup s) :
    HandlesNodup t := by
  cases found : s.findInode x with
  | some i => rwa [HandlesNodup, opened.kept i found]
  | none =>
    obtain ⟨i, list, sector, -⟩ := opened.fresh found
    rw [HandlesNodup, list, List.map_cons, List.nodup_cons, sector]
    refine ⟨fun member => ?_, nodup⟩
    obtain ⟨other, inList, same⟩ := List.mem_map.mp member
    exact absurd same (by simpa using List.find?_eq_none.mp found other inList)

/-- A file stays as it is when its sectors do and its inode is one between those on the disk and in
memory. -/
theorem FileAt.between {s t : FlatFs} {x : BlockSector} (file : FileAt s x)
    (same : ∀ z ∈ sectorsOf s x, t.cache z = s.cache z) (used : ∀ z ∈ sectorsOf s x, Used t.freeMap z)
    (nodes : freeMapNodes t = freeMapNodes s) (lower : Extends (InodeDisk.decode (s.cache x)) (t.inodeData x))
    (upper : Extends (t.inodeData x) (s.inodeData x)) :
    FileAt t x ∧ (sectorsOf t x).Sublist (sectorsOf s x) ∧ contents t x = contents s x ∧
      t.inodeLength x = s.inodeLength x := by
  have sub := upper.nodes s.cache
  have mapped : Mapped s.cache (t.inodeData x) (fileLen s x) := by
    intro i below
    rw [← lower.blockAt_same s.cache (blockAt_entry (file.mapped i below))]
    exact file.mapped i below
  have inNodes : ∀ z ∈ inodeNodes s.cache (t.inodeData x), z ∈ sectorsOf s x := fun z member =>
    List.mem_cons_of_mem _ (sub.subset member)
  obtain ⟨good, bytes⟩ := (upper.inodeOk file.good mapped).congr (w := t.cache)
    (fun z member => same z (inNodes z member)) fun z member => used z (inNodes z member)
  obtain ⟨allNodes, -, blocks⟩ := inode_congr (d := t.inodeData x) (e := t.inodeData x) (fun _ _ => rfl)
    fun z member => same z (inNodes z (inodeInner_sub member))
  have length : t.inodeLength x = s.inodeLength x := by rw [Fs.inodeLength, ← upper.length]; rfl
  have len : fileLen t x = fileLen s x := by rw [fileLen, length]; rfl
  have disk : t.cache x = s.cache x := same x List.mem_cons_self
  have inside : (sectorsOf t x).Sublist (sectorsOf s x) := by
    rw [sectorsOf, sectorsOf, allNodes]
    exact sub.cons_cons x
  have next : FileAt t x := by
    refine ⟨file.nonzero, by rw [len]; exact good, ⟨file.own.nodup.sublist inside, fun z member =>
      used z (inside.subset member), fun z member => ?_⟩, by rw [disk]; exact lower, ?_⟩
    · rw [nodes]
      exact file.own.apart z (inside.subset member)
    · rw [disk, len]
      exact lower.mapped (Extends.refl _) file.mapped fun i below => blocks i (file.good.small below)
  refine ⟨next, inside, ?_, length⟩
  rw [next.contents_content, file.contents_content, len]
  refine List.map_congr_left fun p member => ?_
  have below := List.mem_range.mp member
  rw [bytes _ (by omega), byteAt, byteAt,
    upper.blockAt_same s.cache (blockAt_entry (mapped _ (by omega)))]

theorem FileAt.still {s t : FlatFs} {x : BlockSector} (file : FileAt s x)
    (same : ∀ z ∈ sectorsOf s x, t.cache z = s.cache z) (used : ∀ z ∈ sectorsOf s x, Used t.freeMap z)
    (nodes : freeMapNodes t = freeMapNodes s)
    (data : t.inodeData x = s.inodeData x ∨ t.inodeData x = InodeDisk.decode (s.cache x)) :
    FileAt t x ∧ (sectorsOf t x).Sublist (sectorsOf s x) ∧ contents t x = contents s x ∧
      t.inodeLength x = s.inodeLength x := by
  rcases data with memory | disk
  · refine file.between same used nodes ?_ ?_
    · rw [memory]
      exact file.extended
    · rw [memory]
      exact Extends.refl _
  · refine file.between same used nodes ?_ ?_
    · rw [disk]
      exact Extends.refl _
    · rw [disk]
      exact file.extended

/-- Inodes have been opened and closed, and nothing else. -/
structure Rehandled (s t : FlatFs) : Prop where
  rest : t = { s with
    openInodes := t.openInodes
    nextAddr := t.nextAddr
    cwd := t.cwd
    fileTable := t.fileTable
    usedFreed := t.usedFreed }
  data : ∀ z, t.inodeData z = s.inodeData z ∨ t.inodeData z = InodeDisk.decode (s.cache z)
  deny : ∀ z, t.inodeDenyWriteCnt z = s.inodeDenyWriteCnt z ∨ t.inodeDenyWriteCnt z = 0
  freeMap : ∀ f, s.freeMapFile = some f → t.findInode f.inode = s.findInode f.inode

namespace Rehandled

variable {s t u : FlatFs} {x : BlockSector}

theorem refl (s : FlatFs) : Rehandled s s := ⟨rfl, fun _ => Or.inl rfl, fun _ => Or.inl rfl, fun _ _ => rfl⟩

theorem use (s : FlatFs) (x : BlockSector) : Rehandled s (s.use x) := by
  refine ⟨?_, fun z => Or.inl (s.use_inodeData x z), fun z => Or.inl (s.use_inodeDenyWriteCnt x z), fun f _ =>
    s.use_findInode x f.inode⟩
  unfold Fs.use
  split <;> rfl

theorem cache (same : Rehandled s t) : t.cache = s.cache := by rw [same.rest]

theorem bits (same : Rehandled s t) : t.freeMap = s.freeMap := by rw [same.rest]

theorem freeMapFile (same : Rehandled s t) : t.freeMapFile = s.freeMapFile := by rw [same.rest]

theorem trans (early : Rehandled s t) (late : Rehandled t u) : Rehandled s u := by
  refine ⟨by rw [late.rest, early.rest], fun z => ?_, fun z => ?_, fun f opened => ?_⟩
  · rcases late.data z with same | disk
    · rw [same]
      exact early.data z
    · rw [disk, early.cache]
      exact Or.inr rfl
  · rcases late.deny z with same | none
    · rw [same]
      exact early.deny z
    · exact Or.inr none
  · rw [late.freeMap f (early.freeMapFile ▸ opened), early.freeMap f opened]

theorem setCwd (same : Rehandled s t) (cwd : Option Dir) : Rehandled s { t with cwd := cwd } := by
  refine ⟨?_, same.data, same.deny, same.freeMap⟩
  conv_lhs => rw [same.rest]

theorem ok (same : Rehandled s t) (fine : FreeMapOk s) : FreeMapOk t ∧ freeMapNodes t = freeMapNodes s ∧
    freeMapData t = freeMapData s ∧ (Synced s → Synced t) :=
  fine.congr same.cache same.bits same.freeMapFile same.freeMap

theorem file (same : Rehandled s t) (fine : FreeMapOk s) (file : FileAt s x) :
    FileAt t x ∧ (sectorsOf t x).Sublist (sectorsOf s x) ∧ contents t x = contents s x ∧
      t.inodeLength x = s.inodeLength x := by
  refine file.still (fun z _ => by rw [same.cache]) (fun z member => ?_) (same.ok fine).2.1 (same.data x)
  rw [same.bits]
  exact file.own.used z member

end Rehandled

theorem Opened.rehandled {s t : FlatFs} {x : BlockSector} (opened : Opened s t x) (fine : FreeMapOk s) :
    Rehandled s t := by
  refine ⟨opened.rest.trans ?_, fun z => Or.inl (opened.data z), fun z => Or.inl (opened.deny z), fun f held => ?_⟩
  · rw [opened.rest]
  · by_cases same : f.inode = x
    · obtain ⟨i, found⟩ := Option.isSome_iff_exists.mp (fine.file f held).listed
      unfold Fs.findInode
      rw [opened.kept i (same ▸ found)]
    · exact opened.others _ same

section close

variable {s : FlatFs} {x : BlockSector} {i : Inode}

def unlist (s : FlatFs) (x : BlockSector) : FlatFs :=
  { s with openInodes := s.openInodes.eraseP fun other => other.sector == x }

theorem unlist_cache : (unlist s x).cache = s.cache := rfl

theorem unlist_freeMap : (unlist s x).freeMap = s.freeMap := rfl

theorem unlist_nextAddr : (unlist s x).nextAddr = s.nextAddr := rfl

theorem unlist_cwd : (unlist s x).cwd = s.cwd := rfl

theorem unlist_fileTable : (unlist s x).fileTable = s.fileTable := rfl

theorem unlist_usedFreed : (unlist s x).usedFreed = s.usedFreed := rfl

theorem unlist_others {z : BlockSector} (different : z ≠ x) : (unlist s x).findInode z = s.findInode z := by
  simp only [unlist, Fs.findInode]
  induction s.openInodes with
  | nil => rfl
  | cons first rest ih =>
    by_cases here : first.sector = x
    · rw [List.eraseP_cons_of_pos (by simpa using here), List.find?_cons_of_neg (by simp [here, Ne.symm different])]
    · rw [List.eraseP_cons_of_neg (by simpa using here), List.find?_cons, List.find?_cons, ih]

theorem unlist_none (nodup : HandlesNodup s) : (unlist s x).findInode x = none := by
  rw [HandlesNodup] at nodup
  simp only [unlist, Fs.findInode]
  generalize s.openInodes = inodes at nodup ⊢
  induction inodes with
  | nil => rfl
  | cons first rest ih =>
    rw [List.map_cons, List.nodup_cons] at nodup
    by_cases here : first.sector = x
    · rw [List.eraseP_cons_of_pos (by simpa using here), List.find?_eq_none]
      intro other member same
      have equal : other.sector = x := by simpa using same
      exact nodup.1 (here ▸ equal ▸ List.mem_map_of_mem member)
    · rw [List.eraseP_cons_of_neg (by simpa using here), List.find?_cons_of_neg (by simpa using here)]
      exact ih nodup.2

theorem unlist_nodup (nodup : HandlesNodup s) : HandlesNodup (unlist s x) :=
  nodup.sublist (List.eraseP_sublist.map _)

theorem inodeClose_last (found : s.findInode x = some i) (last : i.openCnt = 1) (kept : i.removed = false) :
    inodeClose s x = unlist s x := by
  simp only [inodeClose, found, last, Int.sub_self, if_true, kept, Bool.false_eq_true, if_false, unlist]

theorem inodeClose_removed (found : s.findInode x = some i) (last : i.openCnt = 1) (gone : i.removed = true) :
    inodeClose s x = inodeDeallocate (freeMapRelease (unlist s x) x 1) i.data := by
  have sector := Fs.findInode_sector found
  simp only [inodeClose, found, last, Int.sub_self, if_true, gone, unlist, sector]

structure Closed (s t : FlatFs) (x : BlockSector) : Prop where
  rest : t = { s with openInodes := t.openInodes, usedFreed := t.usedFreed }
  freed : (s.findInode x).isSome → t.usedFreed = s.usedFreed
  others : ∀ z, z ≠ x → t.findInode z = s.findInode z
  this : t.findInode x = none ∨ ∃ c, t.findInode x = (s.findInode x).map fun i => { i with openCnt := c }
  nodup : HandlesNodup t

def lowered (s : FlatFs) (x : BlockSector) : FlatFs :=
  { s with openInodes := s.openInodes.map fun other =>
      if other.sector = x then { other with openCnt := other.openCnt - 1 } else other }

theorem lowered_find (s : FlatFs) (x z : BlockSector) : (lowered s x).findInode z =
    (s.findInode z).map fun i => if i.sector = x then { i with openCnt := i.openCnt - 1 } else i := by
  simp only [lowered, Fs.findInode, List.find?_map]
  have sectors : ((fun i : Inode => i.sector == z) ∘ fun i =>
      if i.sector = x then { i with openCnt := i.openCnt - 1 } else i) = fun i => i.sector == z := by
    funext i
    simp only [Function.comp]
    split <;> rfl
  rw [sectors]

theorem lowered_sectors (s : FlatFs) (x : BlockSector) :
    (lowered s x).openInodes.map Inode.sector = s.openInodes.map Inode.sector := by
  simp only [lowered, List.map_map]
  refine List.map_congr_left fun i _ => ?_
  simp only [Function.comp]
  split <;> rfl

theorem inodeClose_spec (nodup : HandlesNodup s)
    (kept : ∀ i, s.findInode x = some i → i.removed = false) : Closed s (inodeClose s x) x := by
  cases found : s.findInode x with
  | none =>
    have same : inodeClose s x = { s with usedFreed := true } := by
      simp only [inodeClose, Fs.use, found, Option.isSome_none, Bool.false_eq_true, if_false]
    rw [same]
    refine ⟨rfl, fun listed => ?_, fun _ _ => rfl, Or.inl found, nodup⟩
    rw [found] at listed
    cases listed
  | some i =>
    by_cases last : i.openCnt - 1 = 0
    · rw [inodeClose_last found (by omega) (kept i found)]
      exact ⟨rfl, fun _ => rfl, fun z different => unlist_others different, Or.inl (unlist_none nodup), unlist_nodup nodup⟩
    · have run : inodeClose s x = lowered s x := by
        simp only [inodeClose, found, if_neg last, lowered]
      rw [run]
      refine ⟨rfl, fun _ => rfl, fun z different => ?_, Or.inr ⟨i.openCnt - 1, ?_⟩, ?_⟩
      · rw [lowered_find]
        cases other : s.findInode z with
        | none => rfl
        | some j =>
          have sector := Fs.findInode_sector other
          simp only [Option.map_some]
          rw [if_neg (by rw [sector]; exact different)]
      · rw [lowered_find, found]
        simp only [Option.map_some, if_pos (Fs.findInode_sector found)]
      · rw [HandlesNodup, lowered_sectors]
        exact nodup

theorem Closed.rehandled {t : FlatFs} (closed : Closed s t x)
    (foreign : ∀ f, s.freeMapFile = some f → f.inode ≠ x) : Rehandled s t := by
  have cache : t.cache = s.cache := by rw [closed.rest]
  refine ⟨closed.rest.trans (by rw [closed.rest]), fun z => ?_, fun z => ?_, fun f opened =>
    closed.others _ (foreign f opened)⟩
  · by_cases same : z = x
    · subst same
      rcases closed.this with gone | ⟨c, still⟩
      · right
        simp only [Fs.inodeData, gone, cache]
        rfl
      · left
        cases found : s.findInode z with
        | none =>
          rw [found] at still
          simp only [Fs.inodeData, still, found, Option.map_none, cache]
        | some i =>
          rw [found] at still
          simp only [Fs.inodeData, still, found, Option.map_some]
    · left
      simp only [Fs.inodeData, closed.others z same, cache]
  · by_cases same : z = x
    · subst same
      rcases closed.this with gone | ⟨c, still⟩
      · right
        simp only [Fs.inodeDenyWriteCnt, gone]
      · left
        cases found : s.findInode z with
        | none =>
          rw [found] at still
          simp only [Fs.inodeDenyWriteCnt, still, found, Option.map_none]
        | some i =>
          rw [found] at still
          simp only [Fs.inodeDenyWriteCnt, still, found, Option.map_some]
    · left
      simp only [Fs.inodeDenyWriteCnt, closed.others z same]

end close

end ShellOs.FileSystem
