import ShellOs.FileSystem.Session

/-! Removing a file gives back every sector that creating and writing it has taken: allocation, which looks for
entries that are 0, and release, which goes by the length, visit the same sectors. -/

namespace ShellOs.FileSystem
open Lib BlockTree SlotMap

def treeStart (j : Nat) : Nat := if j ≤ 123 then j else 251

/-- The sectors that hold the first `n` sectors of a file, those that are there. -/
def inodeVisited (v : Disk) (d : InodeDisk) (n : Nat) : List BlockSector :=
  (List.range 125).flatMap fun j =>
    if treeStart j < n then
      visited 128 (table v) (inodeShape.level j) (d.entries j) (min (n - treeStart j) (128 ^ inodeShape.level j))
    else []

/-- What the walk does with each tree: first with the direct blocks that there are, then with the two index blocks. -/
theorem flatMap_trees {β : Type} (f : Nat → List β) (n : Nat) :
    ((List.range 125).flatMap fun j => if treeStart j < n then f j else []) =
      (List.range' 0 (min n 123)).flatMap f ++ ((if 123 < n then f 123 else []) ++ if 251 < n then f 124 else []) := by
  have trees : List.range 125 = List.range' 0 (min n 123) ++ (List.range' (min n 123) (123 - min n 123) ++ [123, 124]) := by
    rw [← List.append_assoc, show List.range' (min n 123) (123 - min n 123) =
      List.range' (0 + 1 * min n 123) (123 - min n 123) by simp, List.range'_append,
      show min n 123 + (123 - min n 123) = 123 by omega]
    rfl
  have early : ∀ j ∈ List.range' 0 (min n 123), (if treeStart j < n then f j else []) = f j := by
    intro j member
    have small := (List.mem_range'_1.mp member).2
    have start : treeStart j = j := if_pos (by omega)
    rw [start, if_pos (by omega)]
  have late : ∀ j ∈ List.range' (min n 123) (123 - min n 123), (if treeStart j < n then f j else []) = [] := by
    intro j member
    have large := List.mem_range'_1.mp member
    have start : treeStart j = j := if_pos (by omega)
    rw [start, if_neg (by omega)]
  rw [trees, List.flatMap_append, List.flatMap_append, List.flatMap_congr early,
    List.flatMap_eq_nil_iff.mpr late, List.nil_append]
  simp [treeStart]

theorem missingDirect_eq (v : Disk) (d : InodeDisk) (count i : Nat) : missingDirect d count i =
    (List.range' i count).flatMap fun j => missing 128 (table v) 0 (d.entries j) 1 := by
  induction count generalizing i with
  | zero => rfl
  | succ count ih => rw [missingDirect, ih, List.range'_succ, List.flatMap_cons, missing]

theorem inodeMissing_eq (v : Disk) (d : InodeDisk) (n : Nat) : inodeMissing v d n = (List.range 125).flatMap fun j =>
    if treeStart j < n then
      missing 128 (table v) (inodeShape.level j) (d.entries j) (min (n - treeStart j) (128 ^ inodeShape.level j))
    else [] := by
  have direct : ∀ j ∈ List.range' 0 (min n 123), missing 128 (table v) (inodeShape.level j) (d.entries j)
      (min (n - treeStart j) (128 ^ inodeShape.level j)) = missing 128 (table v) 0 (d.entries j) 1 := by
    intro j member
    have small := (List.mem_range'_1.mp member).2
    rw [show inodeShape.level j = 0 from if_pos (by omega), missing, missing]
  rw [flatMap_trees, List.flatMap_congr direct, inodeMissing, missingDirect_eq v]
  simp [treeStart, inodeShape]

theorem inodeVisited_sublist (v : Disk) (d : InodeDisk) (n : Nat) : (inodeVisited v d n).Sublist (inodeNodes v d) := by
  unfold inodeNodes forestNodes inodeVisited
  change ((List.range 125).flatMap _).Sublist ((List.range 125).flatMap _)
  induction List.range 125 with
  | nil => exact List.Sublist.refl _
  | cons j rest ih =>
    rw [List.flatMap_cons, List.flatMap_cons]
    apply List.Sublist.append _ ih
    split
    · exact visited_sublist (by omega)
    · exact List.nil_sublist _

theorem inodeVisited_mono {v : Disk} {d : InodeDisk} {n m : Nat} (le : n ≤ m) {z : BlockSector}
    (member : z ∈ inodeVisited v d n) : z ∈ inodeVisited v d m := by
  simp only [inodeVisited, List.mem_flatMap] at member ⊢
  obtain ⟨j, inside, member⟩ := member
  refine ⟨j, inside, ?_⟩
  split at member
  · rw [if_pos (by omega)]
    exact visited_mono (by omega) member
  · cases member

theorem inodeMissing_visited (v : Disk) (d : InodeDisk) (n : Nat) :
    (inodeMissing v d n).length + (inodeVisited v d n).length =
      (inodeMissing (fun _ => zeros) InodeDisk.empty n).length := by
  have none : ∀ j, InodeDisk.empty.entries j = 0 := fun j => by
    simp [InodeDisk.entries, InodeDisk.direct, InodeDisk.empty]
  rw [← inodeMissing_null v none, inodeMissing_eq, inodeMissing_eq, inodeVisited]
  induction List.range 125 with
  | nil => rfl
  | cons j rest ih =>
    simp only [List.flatMap_cons, List.length_append]
    have here : (missing 128 (table v) (inodeShape.level j) (d.entries j) _).length +
        (visited 128 (table v) (inodeShape.level j) (d.entries j) _).length = _ :=
      missing_visited _ _ (min (n - treeStart j) (128 ^ inodeShape.level j))
    split
    · rw [none]
      omega
    · simp only [List.length_nil]
      omega

section mapped

variable {v : Disk} {d : InodeDisk} {n : Nat} (mapped : ∀ i, i < n → blockAt v d i ≠ 0)
include mapped

theorem tree_mapped {j i : Nat} (inside : j < 125) (below : i < min (n - treeStart j) (128 ^ inodeShape.level j)) :
    leaf 128 (table v) (inodeShape.level j) (d.entries j) i ≠ 0 := by
  have present := mapped (treeStart j + i) (by omega)
  have place : position (treeStart j + i) = (j, i) := by
    have cases : j < 123 ∨ j = 123 ∨ j = 124 := by omega
    rcases cases with direct | rfl | rfl
    · have level : inodeShape.level j = 0 := if_pos direct
      rw [level] at below
      have start : treeStart j = j := if_pos (by omega)
      obtain rfl : i = 0 := by omega
      rw [start, Nat.add_zero, position, if_pos direct]
    · have small : i < 128 := (Nat.lt_min.mp below).2
      simp only [treeStart, le_refl, if_true, position]
      rw [if_neg (by omega), if_pos (by omega), Nat.add_sub_cancel_left]
    · simp only [treeStart, position, show ¬(124 ≤ 123) by decide, if_false]
      rw [if_neg (by omega), if_neg (by omega), Nat.add_sub_cancel_left]
  rwa [blockAt, place] at present

theorem inodeMissing_mapped : inodeMissing v d n = [] := by
  rw [inodeMissing_eq, List.flatMap_eq_nil_iff]
  intro j member
  split
  · exact missing_mapped (by omega) (Nat.lt_min.mpr ⟨by omega, Nat.pow_pos (by decide)⟩)
      fun i below => tree_mapped mapped (List.mem_range.mp member) below
  · rfl

theorem inodeVisited_deallocated {z : BlockSector} (member : z ∈ inodeVisited v d n) : z ∈ deallocated v d n := by
  rw [inodeVisited, List.mem_flatMap] at member
  obtain ⟨j, inside, member⟩ := member
  have bound := List.mem_range.mp inside
  rw [deallocated, List.mem_append, List.mem_append]
  split at member
  case isFalse => cases member
  case isTrue below =>
    have walked := visited_sub_walk (by omega) (fun i small => tree_mapped mapped bound small) member
    have cases : j < 123 ∨ j = 123 ∨ j = 124 := by omega
    rcases cases with direct | rfl | rfl
    · have level : inodeShape.level j = 0 := if_pos direct
      have start : treeStart j = j := if_pos (by omega)
      rw [level, walk, List.mem_singleton, ← direct_eq_entries d direct] at walked
      refine Or.inl (Or.inl (List.mem_map.mpr ⟨j, List.mem_range.mpr ?_, walked.symm⟩))
      omega
    · have start : treeStart 123 = 123 := rfl
      refine Or.inl (Or.inr ?_)
      rw [if_pos (by omega)]
      exact walked
    · have start : treeStart 124 = 251 := rfl
      refine Or.inr ?_
      rw [if_pos (by omega)]
      exact walked

end mapped

/-- A tree that owns nothing beyond its first `n` sectors, and has grown by exactly what was missing for `m`, owns
nothing beyond its first `m`. -/
theorem exact_step {v w : Disk} {d e : InodeDisk} {n m : Nat} {new : List BlockSector}
    (nodup : (inodeNodes v d).Nodup) (exact : ∀ z ∈ inodeNodes v d, z ∈ inodeVisited v d n) (le : n ≤ m)
    (nodupNext : (inodeNodes w e).Nodup) (sub : ∀ z ∈ inodeNodes w e, z ∈ inodeNodes v d ∨ z ∈ new)
    (count : new.length = (inodeMissing v d m).length) (mapped : ∀ i, i < m → blockAt w e i ≠ 0) :
    (∀ z ∈ inodeNodes w e, z ∈ inodeVisited w e m) ∧ (inodeNodes w e).Perm (inodeNodes v d ++ new) := by
  have old : (inodeNodes v d).length ≤ (inodeVisited v d m).length :=
    (List.subperm_of_subset nodup fun z member => inodeVisited_mono le (exact z member)).length_le
  have whole := inodeMissing_visited w e m
  have before := inodeMissing_visited v d m
  rw [inodeMissing_mapped mapped, List.length_nil] at whole
  have part := inodeVisited_sublist w e m
  have fits : (inodeNodes w e).Subperm (inodeNodes v d ++ new) :=
    List.subperm_of_subset nodupNext fun z member => List.mem_append.mpr (sub z member)
  have most := fits.length_le
  rw [List.length_append] at most
  have least := part.length_le
  constructor
  · intro z member
    rw [part.eq_of_length_le (by omega)]
    exact member
  · exact fits.perm_of_length_le (by rw [List.length_append]; omega)

def Exact (s : FlatFs) (x : BlockSector) : Prop :=
  ∀ z ∈ inodeNodes s.cache (s.inodeData x),
    z ∈ inodeVisited s.cache (s.inodeData x) (bytesToSectors (s.inodeLength x))

section files

variable {s t : FlatFs} {x : BlockSector}

theorem FileAt.sectorCount (file : FileAt s x) : bytesToSectors (s.inodeLength x) = (fileLen s x + 511) / 512 := by
  have fits := file.good.fits
  simp only [MAX_LENGTH] at fits
  rw [file.length]
  exact bytesToSectors_eq (by omega)

theorem FileAt.blocks (file : FileAt s x) {i : Nat} (below : i < bytesToSectors (s.inodeLength x)) :
    blockAt s.cache (s.inodeData x) i ≠ 0 := by
  rw [file.sectorCount] at below
  exact file.good.mapped i (by omega)

theorem Exact.given (exact : Exact s x) (file : FileAt s x) {z : BlockSector} : z ∈ givenBack s x ↔ z ∈ sectorsOf s x := by
  constructor
  · exact file.givenBack_sub z
  · intro mine
    rcases List.mem_cons.mp mine with rfl | node
    · exact List.mem_cons_self
    · exact List.mem_cons_of_mem _ (inodeVisited_deallocated (fun i => file.blocks) (exact z node))

/-- Since `s`, the file at `x` alone has taken sectors, and none too many. -/
structure OnlyTook (s t : FlatFs) (x : BlockSector) : Prop where
  size : t.freeMap.bitCnt = s.freeMap.bitCnt
  used : ∀ z, Used t.freeMap z ↔ Used s.freeMap z ∨ z ∈ sectorsOf t x
  fresh : ∀ z ∈ sectorsOf t x, ¬Used s.freeMap z
  exact : Exact t x

theorem OnlyTook.step {u : FlatFs} {new : List BlockSector} (took : OnlyTook s t x) (file : FileAt t x)
    (next : FileAt u x) (le : bytesToSectors (t.inodeLength x) ≤ bytesToSectors (u.inodeLength x))
    (sub : ∀ z ∈ sectorsOf u x, z ∈ sectorsOf t x ∨ z ∈ new)
    (count : new.length = (inodeMissing t.cache (t.inodeData x) (bytesToSectors (u.inodeLength x))).length)
    (size : u.freeMap.bitCnt = t.freeMap.bitCnt) (used : ∀ z, Used u.freeMap z ↔ Used t.freeMap z ∨ z ∈ new)
    (unused : ∀ z ∈ new, ¬Used t.freeMap z) : OnlyTook s u x := by
  obtain ⟨exact, perm⟩ := exact_step file.good.nodup took.exact le next.good.nodup (fun z node => by
      rcases sub z (List.mem_cons_of_mem _ node) with old | added
      · rcases List.mem_cons.mp old with rfl | inside
        · exact absurd node next.apart
        · exact Or.inl inside
      · exact Or.inr added) count fun i => next.blocks
  refine ⟨size.trans took.size, fun z => ?_, fun z mine old => ?_, exact⟩
  · rw [used, took.used, or_assoc, sectorsOf, sectorsOf, List.mem_cons, List.mem_cons, perm.mem_iff, List.mem_append,
      or_assoc]
  · rcases sub z mine with before | added
    · exact took.fresh z before old
    · exact unused z added ((took.used z).mpr (Or.inl old))

theorem OnlyTook.rehandled {u : FlatFs} (took : OnlyTook s t x) (file : FileAt t x) (fine : FreeMapOk t)
    (same : Rehandled t u) : OnlyTook s u x := by
  obtain ⟨next, sub, -, length⟩ := same.file fine file
  have count := inodeMissing_mapped fun i => file.blocks (i := i)
  have inside : ∀ z ∈ sectorsOf u x, z ∈ sectorsOf t x ∨ z ∈ [] := fun z mine => Or.inl (sub.subset mine)
  refine took.step file next (by rw [length]) inside ?_ ?_ ?_ ?_
  · rw [length, count]
    rfl
  · rw [same.bits]
  · intro z
    rw [same.bits]
    simp
  · exact (fun z never => by cases never)

theorem OnlyTook.writes {buffer : Nat → Byte} {k o : Nat} {r : Int × FlatFs} {new : List BlockSector}
    (took : OnlyTook s t x) (file : FileAt t x) (fine : FreeMapOk t) (effect : WriteEffect t x buffer k o r new)
    (some : 0 < k) (small : o + k < 2 ^ 31) (done : r.1 = k) : OnlyTook s r.2 x := by
  have length := (effect.bytes file some done).1
  have can := effect.done.mp done
  have before := file.sectorCount
  have after := effect.file.sectorCount
  have used := used_of_free fine.small effect.took.size effect.took.free
  refine took.step file effect.file (by rw [before, after, length]; omega) effect.sectors ?_ effect.took.size used
    fun z added => effect.took.new_not_used added
  by_cases inside : o + k ≤ fileLen t x
  · have needs : writeNeeds t x (o + k) = [] := by rw [writeNeeds, if_pos (Or.inr inside)]
    have none := (effect.enough (by rw [needs]; exact Nat.zero_le _)).1
    rw [none, needs, after, length, show max (fileLen t x) (o + k) = fileLen t x by omega, ← before,
      inodeMissing_mapped fun i => file.blocks (i := i)]
  · obtain ⟨few, room⟩ := can.2.resolve_left inside
    have needs : writeNeeds t x (o + k) = inodeMissing t.cache (t.inodeData x) (bytesToSectors (o + k : Nat)) := by
      rw [writeNeeds, if_neg (not_or.mpr ⟨not_not.mpr can.1, inside⟩)]
    rw [(effect.enough room).1, needs, after, length, show max (fileLen t x) (o + k) = o + k by omega,
      (fits_of_sectors small few).2]

theorem freeSlot_inside {n : Nat} (mounted : Mounted s n) (room : freeSlot (rootSlots s) < (rootSlots s).length) :
    36 * (freeSlot (rootSlots s) + 1) + 36 ≤ fileLen s ROOT_DIR_SECTOR := by
  have := mounted.dir.length_slots
  rw [mounted.dir.length]
  omega

theorem createMissing_room {n : Nat} (mounted : Mounted s n) (room : freeSlot (rootSlots s) < (rootSlots s).length)
    (name : CString) (size : Int) : createMissing s name size = .data :: createNeeds size := by
  have inside := freeSlot_inside mounted room
  have adds : addNeeds s name = [] := by
    simp only [addNeeds, writeNeeds, if_pos (Or.inr inside), ite_self]
  rw [createMissing, adds, ite_self, List.append_nil]

theorem OnlyTook.creates {n : Nat} {name : CString} {size : Int} {r : Bool × FlatFs} {new : List BlockSector}
    (mounted : Mounted s n) (creation : Creation s name size r new) (made : r.1 = true) (proper : (0 : Byte) ∉ name)
    (room : freeSlot (rootSlots s) < (rootSlots s).length) (bound : some (name, x) ∈ rootSlots r.2) :
    OnlyTook s r.2 x := by
  have small := mounted.dir.fine.small
  obtain ⟨sizeOk, -, absent, -, enough⟩ := creation.done.mp made
  obtain ⟨y, file, root, all, free, -, fileAt, fileSub, -, length, -, slots⟩ := creation.made made
  obtain rfl : x = y := by
    rw [slots proper] at bound
    obtain ⟨k, slot⟩ := List.getElem?_of_mem bound
    exact (put_slot absent slot).2
  have needs := createMissing_room mounted room name size
  have taken := congrArg List.length creation.taken
  rw [List.length_take, Nat.min_eq_left enough, needs, all, List.length_cons, List.length_cons] at taken
  have nothing := inodeNodes_null s.cache empty_entries
  have asked : createNeeds size = inodeMissing s.cache InodeDisk.empty (bytesToSectors (r.2.inodeLength x)) := by
    rw [inodeMissing_null s.cache empty_entries, length, createNeeds, if_neg (by have := sizeOk.1; omega)]
  have start : ∀ z ∈ inodeNodes s.cache InodeDisk.empty, z ∈ inodeVisited s.cache InodeDisk.empty 0 := by
    rw [nothing]
    exact (fun z never => by cases never)
  have inside : ∀ z ∈ inodeNodes r.2.cache (r.2.inodeData x),
      z ∈ inodeNodes s.cache InodeDisk.empty ∨ z ∈ file ++ root := by
    intro z node
    rcases fileSub z (List.mem_cons_of_mem _ node) with rfl | mine
    · exact absurd node fileAt.apart
    · exact Or.inr (List.mem_append_left _ mine)
  obtain ⟨exact, perm⟩ := exact_step (by rw [nothing]; exact List.nodup_nil) start (Nat.zero_le _)
    fileAt.good.nodup inside (by rw [← asked]; omega) fun i => fileAt.blocks
  rw [nothing, List.nil_append] at perm
  have mine : ∀ z, z ∈ sectorsOf r.2 x ↔ z ∈ new := fun z => by
    rw [all, sectorsOf, List.mem_cons, List.mem_cons, perm.mem_iff]
  refine ⟨creation.change.size, fun z => ?_, fun z member used => ?_, exact⟩
  · rw [used_of_free small creation.change.size free, mine]
  · have spare : z ∈ freeSectors s.freeMap := by
      rw [free]
      exact List.mem_append_left _ ((mine z).mp member)
    exact ((used_iff_not_free small).mp used).2 spare

end files

structure WriteCall where
  buffer : Nat → Byte
  size : Nat
  offset : Nat

/-- Calls through one handle, in order, and whether each wrote all it was given. -/
def writeAll {σ : Type} [Store σ BlockSector Sector] [LawfulStore σ] (s : Fs σ) (x : BlockSector) :
    List WriteCall → Bool × Fs σ
  | [] => (true, s)
  | c :: rest =>
    let r := inodeWriteAt s x c.buffer c.size c.offset
    let later := writeAll r.2 x rest
    (decide (r.1 = c.size) && later.1, later.2)

theorem writeAll_flat {σ : Type} [Store σ BlockSector Sector] [LawfulStore σ] (s : Fs σ) (x : BlockSector)
    (calls : List WriteCall) : flatten (writeAll s x calls) = writeAll s.flat x calls := by
  induction calls generalizing s with
  | nil => rfl
  | cons c rest ih =>
    have first := inodeWriteAt_flat s x c.buffer c.size c.offset
    have later := ih (inodeWriteAt s x c.buffer c.size c.offset).2
    rw [writeAll, writeAll, ← first, flatten_fst, flatten_snd, ← later]
    rfl

section calls

variable {s t : FlatFs} {n : Nat} {x : BlockSector}

theorem OnlyTook.writeAll (took : OnlyTook s t x) (vol : Volume t n) (held : FileOp.Held t x) {calls : List WriteCall}
    (some : ∀ c ∈ calls, 0 < c.size ∧ c.size < 2 ^ 31 ∧ c.offset < 2 ^ 31) (done : (writeAll t x calls).1 = true) :
    OnlyTook s (FileSystem.writeAll t x calls).2 x ∧ Volume (FileSystem.writeAll t x calls).2 n ∧
      FileOp.Held (FileSystem.writeAll t x calls).2 x ∧ rootSlots (FileSystem.writeAll t x calls).2 = rootSlots t := by
  induction calls generalizing t with
  | nil => exact ⟨took, vol, held, rfl⟩
  | cons c rest ih =>
    obtain ⟨positive, smallK, smallO⟩ := some c List.mem_cons_self
    rw [FileSystem.writeAll, Bool.and_eq_true, decide_eq_true_eq] at done
    have file := (vol.file x held.1).1
    by_cases small : c.offset + c.size < 2 ^ 31
    · obtain ⟨new, effect⟩ := inodeWriteAt_effect vol.mounted.dir.fine file held.2
        (vol.foreign (List.mem_cons_of_mem _ held.1)) positive small c.buffer
      have next := took.writes file vol.mounted.dir.fine effect positive small done.1
      obtain ⟨volNext, slots, -⟩ := vol.writes held.1 effect
      have heldNext : FileOp.Held (inodeWriteAt t x c.buffer c.size c.offset).2 x := by
        refine ⟨by rw [rootFiles, slots]; exact held.1, ?_⟩
        rw [effect.handles.listed]
        exact held.2
      obtain ⟨last, volLast, heldLast, slotsLast⟩ :=
        ih next volNext heldNext (fun c member => some c (List.mem_cons_of_mem _ member)) done.2
      exact ⟨last, volLast, heldLast, slotsLast.trans slots⟩
    · have refused := inodeWriteAt_overflow vol.mounted.handle.nodup file smallO smallK (by omega) c.buffer
      rw [refused] at done
      have : (0 : Int) = c.size := done.1
      omega

theorem Opened.fileOpened (handle : RootHandle s) (fine : FreeMapOk s) (opened : Opened s t x)
    (away : x ≠ ROOT_DIR_SECTOR) : FileOpened s t x := by
  have cwd : t.cwd = s.cwd := (congrArg Fs.cwd opened.rest :)
  refine ⟨opened.rehandled fine, handle.congr (opened.nodup handle.nodup) (opened.others _ away.symm) cwd,
    fun z different _ => opened.others z different, fun i before => ?_, fun absent => ?_, opened.data x, fun shut => ?_,
    (congrArg Fs.fileTable opened.rest :), (congrArg Fs.usedFreed opened.rest :)⟩
  · rw [Fs.findInode, opened.kept i before]
    exact before
  · obtain ⟨i, list, sector, count, live, deny, -⟩ := opened.fresh absent
    refine ⟨i, ?_, count, live, deny⟩
    rw [Fs.findInode, list, List.find?_cons_of_pos (by rw [sector, beq_self_eq_true])]
  · exact ⟨cwd.trans shut.1, (opened.others _ away.symm).trans shut.2⟩

theorem OnlyTook.closes (took : OnlyTook s t x) (vol : Volume t n) (held : FileOp.Held t x) :
    OnlyTook s (fileClose t (fileOpen x)) x :=
  took.rehandled (vol.file x held.1).1 vol.mounted.dir.fine
    ((vol.fileClosed held).rehandled (vol.foreign (List.mem_cons_of_mem _ held.1)))

theorem OnlyTook.removes (took : OnlyTook s t x) (small : s.freeMap.bitCnt < 2 ^ 32) (vol : Volume t n)
    {path : CString} (dots : OnlyDots (splitPathFilename path).1)
    (bound : some ((splitPathFilename path).2, x) ∈ rootSlots t) :
    (filesysRemove t path).1 = true ∧ SameBits s.freeMap (filesysRemove t path).2.freeMap := by
  have listed : x ∈ rootFiles t := mem_rootFiles.mpr ⟨_, bound⟩
  obtain ⟨k, y, slot, removed, unlinked⟩ := filesysRemove_effect vol.mounted dots (mem_keys.mpr ⟨x, bound⟩)
    fun y there => by
      obtain rfl := vol.bound bound there
      exact vol.removable listed
  obtain rfl := vol.bound bound (List.mem_of_getElem? slot)
  refine ⟨removed, sameBits_of_used small (unlinked.change.size.trans took.size) fun z => ?_⟩
  rw [unlinked.used, took.used, took.exact.given (vol.file x listed).1]
  constructor
  · rintro ⟨old | mine, apart⟩
    · exact old
    · exact absurd mine apart
  · intro old
    exact ⟨Or.inl old, fun mine => took.fresh z mine old⟩

theorem removal_undoes (vol : Volume s n) {path : CString} (proper : (0 : Byte) ∉ path)
    (dots : OnlyDots (splitPathFilename path).1) (room : freeSlot (rootSlots s) < (rootSlots s).length) {size : Int}
    (made : (filesysCreate s path size false).1 = true)
    (bound : some ((splitPathFilename path).2, x) ∈ rootSlots (filesysCreate s path size false).2)
    {calls : List WriteCall} (some : ∀ c ∈ calls, 0 < c.size ∧ c.size < 2 ^ 31 ∧ c.offset < 2 ^ 31)
    (done : (writeAll (inodeOpen (filesysCreate s path size false).2 x).2 x calls).1 = true) :
    let written := (writeAll (inodeOpen (filesysCreate s path size false).2 x).2 x calls).2
    let removed := filesysRemove (fileClose written (fileOpen x)) path
    removed.1 = true ∧ SameBits s.freeMap removed.2.freeMap := by
  obtain ⟨new, creation⟩ := filesysCreate_effect vol.mounted path size
  have properName : (0 : Byte) ∉ (splitPathFilename path).2 := fun inside => proper (mem_of_fileName inside)
  have took := OnlyTook.creates vol.mounted creation made properName room bound
  obtain ⟨⟨m, volC⟩, -, -⟩ := vol.creates creation properName
  obtain ⟨y, created⟩ := creation.newFile vol.mounted made properName
  have listed := mem_rootFiles.mpr ⟨_, bound⟩
  obtain rfl : x = y := volC.bound bound (by
    rw [created.slots]
    exact List.mem_of_getElem? (put_freeSlot _ _))
  have opened := (inodeOpen_spec (filesysCreate s path size false).2 x).fileOpened volC.mounted.handle
    volC.mounted.dir.fine (volC.ne_root listed)
  obtain ⟨volO, slotsO, -⟩ := volC.opens listed opened
  have tookO := took.rehandled created.file volC.mounted.dir.fine opened.rehandled
  obtain ⟨i, found, -⟩ := opened.fresh created.unlisted
  have held : FileOp.Held (inodeOpen (filesysCreate s path size false).2 x).2 x :=
    ⟨by rw [rootFiles, slotsO]; exact listed, by rw [found]; rfl⟩
  obtain ⟨tookW, volW, heldW, slotsW⟩ := tookO.writeAll volO held some done
  obtain ⟨volL, slotsL, -⟩ := volW.closes heldW.1 (volW.fileClosed heldW)
  exact (tookW.closes volW heldW).removes vol.mounted.dir.fine.small volL dots
    (by rw [slotsL, slotsW, slotsO]; exact bound)

end calls

theorem created_writes {s : Fs BufferCache} {n : Nat} (vol : Volume s.flat n) (path : CString)
    (proper : (0 : Byte) ∉ path) (made : (filesysCreate s path 512 false).1 = true) :
    ∃ x, some ((splitPathFilename path).2, x) ∈ rootSlots (filesysCreate s path 512 false).2.flat ∧
      ∀ buffer k o, 0 < k → o + k ≤ 512 →
        (writeAll (inodeOpen (filesysCreate s path 512 false).2 x).2 x [⟨buffer, k, o⟩]).1 = true := by
  have flat := filesysCreate_flat s path 512 false
  obtain ⟨m, x, mounted, created⟩ := filesysCreate_newFile vol.mounted (by rw [← flat]; exact made) proper
  rw [← flat, flatten_snd] at mounted created
  have opened := inodeOpen_spec (filesysCreate s path 512 false).2.flat x
  refine ⟨x, by rw [created.slots]; exact List.mem_of_getElem? (put_freeSlot _ _), fun buffer k o some inside => ?_⟩
  have fine := mounted.dir.fine
  have file := ((opened.rehandled fine).file fine created.file).1
  have length : fileLen (inodeOpen (filesysCreate s path 512 false).2.flat x).2 x = 512 := by
    rw [fileLen, Fs.inodeLength, opened.data]
    exact congrArg Int.toNat created.length
  have foreign : ∀ f, (inodeOpen (filesysCreate s path 512 false).2.flat x).2.freeMapFile = Option.some f → f.inode ≠ x := by
    rw [opened.freeMapFile]
    obtain ⟨f, held, inode⟩ := mounted.map
    intro g same
    rw [held] at same
    obtain rfl := Option.some.inj same
    rw [inode]
    exact created.file.nonzero.symm
  have deny : (inodeOpen (filesysCreate s path 512 false).2.flat x).2.inodeDenyWriteCnt x = 0 := by
    rw [opened.deny, Fs.inodeDenyWriteCnt_absent created.unlisted]
  obtain ⟨new, effect⟩ := inodeWriteAt_effect ((opened.rehandled fine).ok fine).1 file opened.listed foreign some
    (show o + k < 2 ^ 31 by omega) buffer
  have done := effect.done.mpr ⟨deny, Or.inl (by rw [length]; exact inside)⟩
  have flatOpen := inodeOpen_flat (filesysCreate s path 512 false).2 x
  have write := inodeWriteAt_flat (inodeOpen (filesysCreate s path 512 false).2 x).2 x buffer k o
  rw [← flatOpen, flatten_snd, ← write, flatten_fst] at done
  simp only [writeAll, done, decide_true, Bool.and_self]

/-- In any session: once a file that has been created and written is closed and removed, every bit of the free map
is what it was. -/
theorem session_removal_undoes {cache : BufferCache} {sectors : BlockSector} (went : formats cache sectors = true)
    {s : Fs BufferCache} (run : Session cache sectors s) {path : CString} (proper : (0 : Byte) ∉ path)
    (dots : OnlyDots (splitPathFilename path).1)
    (room : freeSlot (rootSlots s.flat) < (rootSlots s.flat).length) {size : Int}
    (made : (filesysCreate s path size false).1 = true) {x : BlockSector}
    (bound : some ((splitPathFilename path).2, x) ∈ rootSlots (filesysCreate s path size false).2.flat)
    {calls : List WriteCall} (some : ∀ c ∈ calls, 0 < c.size ∧ c.size < 2 ^ 31 ∧ c.offset < 2 ^ 31)
    (done : (writeAll (inodeOpen (filesysCreate s path size false).2 x).2 x calls).1 = true) :
    let written := (writeAll (inodeOpen (filesysCreate s path size false).2 x).2 x calls).2
    let removed := filesysRemove (fileClose written (fileOpen x)) path
    removed.1 = true ∧ SameBits s.freeMap removed.2.freeMap := by
  obtain ⟨n, vol⟩ := run.volume went
  have created := filesysCreate_flat s path size false
  have opened := inodeOpen_flat (filesysCreate s path size false).2 x
  have written := writeAll_flat (inodeOpen (filesysCreate s path size false).2 x).2 x calls
  have removed := filesysRemove_flat
    (fileClose (writeAll (inodeOpen (filesysCreate s path size false).2 x).2 x calls).2 (fileOpen x)) path
  have undone := fun made bound => @removal_undoes s.flat n x vol path proper dots room size made bound calls
  simp only [← created, flatten_fst, flatten_snd, ← opened, ← written, ← fileClose_flat, ← removed] at undone
  exact undone made bound some done

theorem session_removal_undoes_formatted : ∃ x,
    let written := (writeAll (inodeOpen (filesysCreate (formatted 80) [97] 512 false).2 x).2 x [⟨fun _ => 65, 5, 0⟩]).2
    let removed := filesysRemove (fileClose written (fileOpen x)) [97]
    removed.1 = true ∧ SameBits (formatted 80).freeMap removed.2.freeMap := by
  have fits : FormatFits 80 := by decide +kernel
  have fresh := formatted_fresh fits
  have run : Session (blankDisk 80) 80 (formatted 80) := .start
  have made : (filesysCreate (formatted 80) [97] 512 false).1 = true := formatted_creates (by decide) (by decide)
  obtain ⟨n, vol⟩ := run.volume (formats_blank fits)
  obtain ⟨x, created, writes⟩ := created_writes vol [97] (by decide) made
  have done := writes (fun _ => 65) 5 0 (by decide) (by decide)
  exact ⟨x, session_removal_undoes (formats_blank fits) run (by decide) (by decide) fresh.room made created (by decide) done⟩

end ShellOs.FileSystem
