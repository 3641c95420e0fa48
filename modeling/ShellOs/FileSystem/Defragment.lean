import ShellOs.FileSystem.Rebuild
import ShellOs.FileSystem.Fragmentation
import ShellOs.FileSystem.TransparentCommands

/-! `defragment` as a whole: the files that it leaves, and where they lie. -/

namespace ShellOs.FileSystem
open Lib SlotMap GrowArray

section whole

variable {s t b : FlatFs} {n : Nat} {x : BlockSector}

/-- A disk that `defragment` can cope with: the root directory is closed, and the inodes of the files are on the disk. -/
structure Defragmentable (s : FlatFs) (n : Nat) : Prop where
  volume : Volume s n
  table : TableOk s
  shut : Shut s
  stored : ∀ y ∈ rootFiles s, Stored s y
  named : ∀ name ∈ keys (rootSlots s), FileName name

/-- The sectors of the files that are given back and those that are free already, in their order on the disk. -/
def available (s : FlatFs) : List BlockSector :=
  ((List.range s.freeMap.bitCnt).map (BitVec.ofNat 32)).filter fun z =>
    !bitmapTest s.freeMap z.toNat || (rootFiles s).any fun x => (givenBack s x).contains z

theorem map_backUps {α : Type} (f : List Byte → α) (stale : Nat → CString) (i : Nat) (A : List (CString × BlockSector)) :
    ((backUps stale s i A).map fun file => f file.data) = A.map fun c => f (contents s c.2) := by
  induction A generalizing i with
  | nil => rfl
  | cons c rest ih => rw [backUps, List.map_cons, List.map_cons, ih]

theorem backUps_append (stale : Nat → CString) (i : Nat) (A B : List (CString × BlockSector)) :
    backUps stale s i (A ++ B) = backUps stale s i A ++ backUps stale s (i + A.length) B := by
  induction A generalizing i with
  | nil => rfl
  | cons c rest ih =>
    rw [List.cons_append, backUps, backUps, ih, List.length_cons, List.cons_append, Nat.add_assoc, Nat.add_comm 1]

/-- The names are those of the files, where nothing is read behind a name. -/
theorem names_backUps {stale : Nat → CString} {i : Nat} {A : List (CString × BlockSector)}
    (named : ∀ c ∈ A, FileName c.1)
    (ends : ∀ j, i ≤ j → j < i + A.length → (∀ c ∈ A, c.1.length < NAME_MAX) ∨ stale j = []) :
    (backUps stale s i A).map FileData.name = A.map Prod.fst := by
  induction A generalizing i with
  | nil => rfl
  | cons c rest ih =>
    have own : storedName stale i c.1 = c.1 := by
      have bound := (named c List.mem_cons_self).ok.2
      have here := ends i (Nat.le_refl i) (by rw [List.length_cons]; omega)
      rw [storedName]
      split
      next => rfl
      next full =>
        rw [here.resolve_left fun short => full (short c List.mem_cons_self), List.append_nil, List.take_of_length_le bound]
    rw [backUps, List.map_cons, List.map_cons, own, ih (fun c member => named c (List.mem_cons_of_mem _ member))]
    intro j low high
    have later := ends j (by omega) (by rw [List.length_cons]; omega)
    exact later.imp_left fun short c member => short c (List.mem_cons_of_mem _ member)

theorem Reclaimed.free (reclaimed : Reclaimed s b (bindings (rootSlots s))) (small : s.freeMap.bitCnt < 2 ^ 32) :
    freeSectors b.freeMap = available s := by
  rw [freeSectors, freeBits, reclaimed.size, available, List.filter_map]
  congr 1
  apply List.filter_congr
  intro i inside
  have below := List.mem_range.mp inside
  have value : (BitVec.ofNat 32 i).toNat = i := by
    rw [BitVec.toNat_ofNat, Nat.mod_eq_of_lt (by omega)]
  have used := reclaimed.used (BitVec.ofNat 32 i)
  rw [Used, Used, value, reclaimed.size] at used
  rw [Function.comp, value, Bool.eq_iff_iff]
  simp only [Bool.not_eq_true', Bool.or_eq_true, List.any_eq_true, List.contains_iff_mem]
  constructor
  · intro free
    by_contra neither
    rw [not_or] at neither
    have still := (used.mpr ⟨⟨below, by simpa using neither.1⟩, fun c member given =>
      neither.2 ⟨c.2, List.mem_map_of_mem member, given⟩⟩).2
    rw [free] at still
    cases still
  · rintro either
    by_contra still
    obtain ⟨⟨-, before⟩, kept⟩ := used.mp ⟨below, by simpa using still⟩
    rcases either with free | ⟨y, listed, given⟩
    · rw [before] at free
      cases free
    · obtain ⟨c, member, rfl⟩ := List.mem_map.mp listed
      exact kept c member given

theorem Reclaimed.enough (reclaimed : Reclaimed s b (bindings (rootSlots s))) (vol : Volume s n) :
    ((rootFiles s).map fun x => sectorsNeeded (fileLen s x)).sum ≤ (freeSectors b.freeMap).length := by
  have small := vol.mounted.dir.fine.small
  have mine : ∀ x ∈ rootFiles s, ∀ z ∈ laidOut s x, z ∈ sectorsOf s x := fun x _ z member => mem_laidOut member
  have lengths : ((rootFiles s).map fun x => sectorsNeeded (fileLen s x)) =
      (rootFiles s).map fun x => (laidOut s x).length := by
    apply List.map_congr_left
    intro x listed
    have file := (vol.file x listed).1
    exact (length_laidOut file file.length).symm
  have nodup : ((rootFiles s).flatMap (laidOut s)).Nodup := by
    rw [List.nodup_flatMap]
    refine ⟨fun x listed => ?_, ?_⟩
    · have file := (vol.file x listed).1
      refine List.nodup_cons.mpr ⟨fun member => file.apart (mem_inodeVisited member), ?_⟩
      exact file.good.nodup.sublist (inodeVisited_sublist _ _ _)
    · apply List.Pairwise.imp_of_mem _ (List.nodup_cons.mp vol.owners).2
      intro x y listedX listedY different z inX inY
      exact vol.apart x (List.mem_cons_of_mem _ listedX) y (List.mem_cons_of_mem _ listedY) different z
        (mine x listedX z inX) (mine y listedY z inY)
  rw [lengths, ← List.length_flatMap]
  apply (List.subperm_of_subset nodup _).length_le
  intro z member
  obtain ⟨x, listed, inside⟩ := List.mem_flatMap.mp member
  have file := (vol.file x listed).1
  have before := file.own.used z (mine x listed z inside)
  have given : z ∈ givenBack s x := by
    rcases List.mem_cons.mp inside with rfl | visited
    · exact List.mem_cons_self
    · exact List.mem_cons_of_mem _ (inodeVisited_deallocated (fun i => file.blocks) visited)
  have freed : ¬Used b.freeMap z := by
    intro still
    obtain ⟨c, bound, rfl⟩ := List.mem_map.mp listed
    exact ((reclaimed.used z).mp still).2 c bound given
  by_contra outside
  exact freed ((used_iff_not_free (by rw [reclaimed.size]; exact small)).mpr ⟨by rw [reclaimed.size]; exact before.1, outside⟩)

/-- The paths under which the files have been saved lead to different new files. -/
structure Restorable (s : FlatFs) (files : List FileData) : Prop where
  made : ∀ file ∈ files, MadeAs file.name file.entry
  closed : ∀ file ∈ files, file.name ∈ keys (rootSlots s) ∨ getFileByFname s file.name = none
  nodup : (files.map FileData.entry).Nodup

theorem FileName.entry {file : FileData} (named : FileName file.name) : file.entry = file.name := by
  rw [FileData.entry, named.split]

theorem Defragmentable.restorable (can : Defragmentable s n) {files : List FileData}
    (names : files.map FileData.name = keys (rootSlots s)) :
    Restorable s files ∧ files.map FileData.entry = keys (rootSlots s) := by
  have listed : ∀ file ∈ files, file.name ∈ keys (rootSlots s) := fun file member => names ▸ List.mem_map_of_mem member
  have entry : ∀ file ∈ files, file.entry = file.name := fun file member => (can.named _ (listed file member)).entry
  have entries : files.map FileData.entry = keys (rootSlots s) := (List.map_congr_left entry).trans names
  refine ⟨⟨fun file member => ?_, fun file member => Or.inl (listed file member), ?_⟩, entries⟩
  · rw [entry file member]
    exact (can.named _ (listed file member)).madeAs
  · rw [entries]
    exact can.volume.names

/-- What `defragment` makes of a disk: every file is there in its order, with its last byte gone, and takes its sectors
from where the one before it ends. -/
structure Defragmented (s t : FlatFs) (names : List CString) : Prop where
  volume : ∃ m, Volume t m
  shut : Shut t
  names : keys (rootSlots t) = names
  bytes : ((rootFiles t).map fun x => contents t x) = (rootFiles s).map fun x => terminated (contents s x)
  placed : available s = (rootFiles t).flatMap (laidOut t) ++ freeSectors t.freeMap

/-- What the first loop leaves: nothing but room for the files that are in memory now. -/
theorem Defragmentable.rebuildable (can : Defragmentable s n) (stale : Nat → CString)
    (restorable : Restorable s (backUps stale s 0 (bindings (rootSlots s)))) :
    let o := dirOpenRoot s
    let r := whileReaddir (backUp stale o.1) (readdirCalls o.2 o.1) [] o.2 o.1
    let b := dirClose r.2.2 r.2.1
    r.1 = backUps stale s 0 (bindings (rootSlots s)) ∧ Shut b ∧ Reclaimed s b (bindings (rootSlots s)) ∧
      Rebuildable b r.1 [] ((rootSlots b).length - r.1.length) := by
  intro o r b
  have vol := can.volume
  obtain ⟨files, backed, shut, reclaims⟩ := vol.backsUp can.table can.shut can.named stale
  have reclaimed := reclaims can.stored
  have size : ∀ x, (contents s x).length = fileLen s x := length_contents s
  rw [show r.1 = _ from files]
  refine ⟨rfl, shut, reclaimed, ⟨n, backed.volume⟩, fun file member => ?_, restorable.nodup, ?_, ?_⟩
  · refine ⟨restorable.made file member, getFileByFname_none.mpr fun entry listed here => ?_, ?_, ?_⟩
    · rw [backed.fileTable] at listed
      obtain ⟨old, gone⟩ := List.mem_filter.mp listed
      rcases restorable.closed file member with known | absent
      · rw [here] at gone
        exact (of_decide_eq_true gone) known
      · exact getFileByFname_none.mp absent entry old here
    · obtain ⟨k, name, x, -, rfl⟩ := mem_backUps member
      rw [size]
    · obtain ⟨k, name, x, bound, rfl⟩ := mem_backUps member
      rw [size]
      exact (vol.file x (mem_rootFiles.mpr ⟨name, mem_bindings.mp bound⟩)).1.good.fits
  · have count := congrArg List.length (map_backUps (s := s) id stale 0 (bindings (rootSlots s)))
    rw [List.length_map, List.length_map] at count
    have few : (bindings (rootSlots s)).length ≤ (rootSlots b).length := by
      have before := vol.mounted.dir.length_slots
      have after : (rootSlots b).length + 1 = n := backed.volume.mounted.dir.length_slots
      have most : (bindings (rootSlots s)).length ≤ (rootSlots s).length := List.length_filterMap_le _ _
      omega
    rw [count, Nat.add_sub_cancel' few]
    exact compact_of_empty backed.emptied
  · have enough := reclaimed.enough vol
    rw [rootFiles, List.map_map] at enough
    rw [map_backUps fun data => sectorsNeeded data.length]
    refine le_of_eq_of_le (congrArg List.sum (List.map_congr_left fun c _ => ?_)) enough
    exact congrArg sectorsNeeded (size c.2)

/-- `defragment` never fails when the paths lead to different files: there is always room for what has been taken away. -/
theorem Defragmentable.defragment_spec (can : Defragmentable s n) (stale : Nat → CString)
    (restorable : Restorable s (backUps stale s 0 (bindings (rootSlots s)))) :
    ∃ t, defragment s stale = (0, t) ∧
      Defragmented s t ((backUps stale s 0 (bindings (rootSlots s))).map FileData.entry) := by
  have vol := can.volume
  obtain ⟨files, shut, reclaimed, next⟩ := can.rebuildable stale restorable
  rw [defragment]
  generalize dirClose (whileReaddir (backUp stale (dirOpenRoot s).1) (readdirCalls (dirOpenRoot s).2 (dirOpenRoot s).1) []
    (dirOpenRoot s).2 (dirOpenRoot s).1).2.2 (whileReaddir (backUp stale (dirOpenRoot s).1)
      (readdirCalls (dirOpenRoot s).2 (dirOpenRoot s).1) [] (dirOpenRoot s).2 (dirOpenRoot s).1).2.1 = b at *
  rw [files] at next ⊢
  obtain ⟨t, new, run, rebuilt⟩ := rebuild_spec next
  have found : bindings (rootSlots t) = new := by
    rw [rebuilt.slots, bindings_compact, List.nil_append]
  have owners : rootFiles t = new.map Prod.snd := by rw [rootFiles, found]
  refine ⟨t, run, rebuilt.volume, rebuilt.shut shut, ?_, ?_, ?_⟩
  · rw [keys, found, rebuilt.names]
  · rw [owners, List.map_map, rootFiles, List.map_map]
    exact rebuilt.bytes.trans (map_backUps terminated stale 0 _)
  · rw [← reclaimed.free vol.mounted.dir.fine.small, rebuilt.free, owners, List.flatMap_map]

/-- With names that leave room for a terminator, the files get their names again. -/
theorem Defragmentable.defragment_short (can : Defragmentable s n) (stale : Nat → CString)
    (ends : (∀ name ∈ keys (rootSlots s), name.length < NAME_MAX) ∨ ∀ j, stale j = []) :
    ∃ t, defragment s stale = (0, t) ∧ Defragmented s t (keys (rootSlots s)) := by
  have named : ∀ c ∈ bindings (rootSlots s), FileName c.1 := fun c member => can.named _ (List.mem_map_of_mem member)
  have names : (backUps stale s 0 (bindings (rootSlots s))).map FileData.name = keys (rootSlots s) :=
    names_backUps named fun j _ _ => ends.imp (fun short c member => short _ (List.mem_map_of_mem member)) fun none => none j
  obtain ⟨restorable, entries⟩ := can.restorable names
  have spec := can.defragment_spec stale restorable
  rw [entries] at spec
  exact spec

end whole

section placement

variable {s t : FlatFs} {n m i j : Nat} {x y : BlockSector} {A B C : List BlockSector}

def Consecutive (sectors : List BlockSector) : Prop :=
  ∃ first, sectors.map BitVec.toNat = List.range' first sectors.length

theorem Consecutive.part (whole : Consecutive (A ++ (B ++ C))) : Consecutive B := by
  obtain ⟨first, same⟩ := whole
  refine ⟨first + A.length, ?_⟩
  have cut := congrArg (fun l => (l.drop A.length).take B.length) same
  simp only [List.map_append, List.length_append] at cut
  rw [List.drop_left' (List.length_map _), List.take_left' (List.length_map _), List.drop_range',
    List.take_range'_of_length_ge (by omega), Nat.mul_one] at cut
  exact cut

theorem Consecutive.distance (sectors : Consecutive A) (here : A[i]? = some x) (there : A[j]? = some y) :
    y.toNat + i = x.toNat + j := by
  obtain ⟨first, same⟩ := sectors
  have value : ∀ k z, A[k]? = some z → z.toNat = first + k := by
    intro k z found
    have below := (List.getElem?_eq_some_iff.mp found).1
    have cell := congrArg (fun l => l[k]?) same
    simp only [List.getElem?_map, found, Option.map_some, List.getElem?_range' below, Nat.one_mul, Option.some.injEq] at cell
    exact cell
  rw [value i x here, value j y there]
  omega

theorem blockPlace_step (i : Nat) : blockPlace i < blockPlace (i + 1) ∧ blockPlace (i + 1) ≤ blockPlace i + 3 := by
  simp only [blockPlace]
  by_cases direct : i + 1 < 123
  · rw [if_pos (show i < 123 by omega), if_pos direct]
    omega
  · rw [if_neg direct]
    by_cases single : i + 1 < 251
    · rw [if_pos single, if_pos (show i < 251 by omega)]
      split <;> omega
    · rw [if_neg single]
      split
      · omega
      · split <;> omega

/-- The data sectors of a file go up in steps of at most 3. -/
def Ascends (s : FlatFs) (x : BlockSector) : Prop :=
  ∀ pair ∈ neighbours (dataBlocks s x), pair.1.toNat < pair.2.toNat ∧ pair.2.toNat ≤ pair.1.toNat + 3

theorem FileAt.laidOut_block (file : FileAt s x) (here : (dataBlocks s x)[i]? = some y) :
    (laidOut s x)[blockPlace i + 1]? = some y := by
  have fits := file.good.fits
  simp only [MAX_LENGTH] at fits
  have count := file.sectorCount
  have below := (List.getElem?_eq_some_iff.mp here).1
  rw [length_dataBlocks, ← count] at below
  rw [dataBlocks, List.getElem?_map, List.getElem?_range (by rw [← count]; exact below), Option.map_some] at here
  rw [laidOut, List.getElem?_cons_succ, inodeVisited_place (by simp only [MAX_SECTORS]; omega) (fun i => file.blocks) below]
  exact here

theorem FileAt.ascends (file : FileAt s x) (laid : Consecutive (laidOut s x)) : Ascends s x := by
  rintro ⟨a, b⟩ member
  obtain ⟨i, found⟩ := List.mem_iff_getElem?.mp member
  obtain ⟨first, second⟩ := List.getElem?_zip_eq_some.mp found
  rw [List.getElem?_tail] at second
  have distance := laid.distance (file.laidOut_block first) (file.laidOut_block second)
  obtain ⟨less, most⟩ := blockPlace_step i
  dsimp only at distance ⊢
  omega

theorem Ascends.keeps (ascends : Ascends s x) : ¬JumpsAhead s x := by
  rintro ⟨pair, member, far⟩
  have near := (ascends pair (neighbours_take member).1).2
  omega

theorem Defragmented.ascends {names : List CString} (done : Defragmented s t names) (gapless : Consecutive (available s)) :
    ∀ x ∈ rootFiles t, Ascends t x := by
  intro x listed
  obtain ⟨m, volume⟩ := done.volume
  obtain ⟨before, behind, split⟩ := List.append_of_mem listed
  have placed := done.placed
  rw [split, List.flatMap_append, List.flatMap_cons, List.append_assoc, List.append_assoc] at placed
  rw [placed] at gapless
  exact (volume.file x listed).1.ascends gapless.part

theorem terminated_eq_iff {data : List Byte} : terminated data = data ↔ data = [] ∨ data.getLast? = some 0 := by
  by_cases empty : data = []
  · simp [terminated, empty]
  rw [terminated, if_neg empty, or_iff_right empty]
  constructor
  · intro same
    rw [← same, List.getLast?_append]
    rfl
  · intro last
    obtain ⟨front, rfl⟩ := List.getLast?_eq_some_iff.mp last
    rw [List.dropLast_concat]

end placement

end ShellOs.FileSystem
