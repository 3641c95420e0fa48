import ShellOs.FileSystem.Files

/-! What removing a file does: `free_map_release`, `inode_deallocate`, and the closing of an inode. -/

namespace ShellOs.FileSystem
open Lib BlockTree

/-- The sectors `gone` have been given back, and nothing else but the free-map file has changed. -/
structure Released (s s' : FlatFs) (gone : List BlockSector) : Prop where
  rest : s' = { s with cache := s'.cache, freeMap := s'.freeMap }
  size : s'.freeMap.bitCnt = s.freeMap.bitCnt
  used : ∀ x, Used s'.freeMap x ↔ Used s.freeMap x ∧ x ∉ gone
  frame : ∀ x, x ∉ freeMapData s → s'.cache x = s.cache x
  nodes : freeMapNodes s' = freeMapNodes s
  data : freeMapData s' = freeMapData s
  ok : FreeMapOk s'
  synced : Synced s → Synced s'

namespace Released

variable {s t u : FlatFs} {gone goneA goneB : List BlockSector}

theorem refl (fine : FreeMapOk s) : Released s s [] :=
  ⟨rfl, rfl, fun x => by simp, fun _ _ => rfl, rfl, rfl, fine, id⟩

theorem trans (early : Released s t goneA) (late : Released t u goneB) : Released s u (goneA ++ goneB) := by
  refine ⟨?_, late.size.trans early.size, fun x => ?_, fun x apart => ?_, late.nodes.trans early.nodes,
    late.data.trans early.data, late.ok, fun synced => late.synced (early.synced synced)⟩
  · rw [late.rest, early.rest]
  · rw [late.used, early.used, List.mem_append, not_or, and_assoc]
  · rw [late.frame x (early.data ▸ apart), early.frame x apart]

theorem opened (released : Released s t gone) : t.openInodes = s.openInodes := by rw [released.rest]

theorem elsewhere (released : Released s t gone) (fine : FreeMapOk s) {x : BlockSector}
    (apart : x ∉ freeMapNodes s) : t.cache x = s.cache x :=
  released.frame x fun member => apart (freeMapData_sub fine member)

end Released

theorem freeMapRelease_spec {s : FlatFs} {x : BlockSector} (fine : FreeMapOk s) (nonzero : x ≠ 0)
    (apart : x ∉ freeMapNodes s) : Released s (freeMapRelease s x 1) [x] := by
  have test : ∀ y, Used (bitmapSet s.freeMap x.toNat false) y ↔ Used s.freeMap y ∧ y ∉ [x] := by
    intro y
    simp only [Used, bitmapTest_set, List.mem_singleton]
    by_cases same : y = x
    · subst same
      simp
    · have different : y.toNat ≠ x.toNat := fun equal => same (BitVec.eq_of_toNat_eq equal)
      simp [same, different]
  have kept : ∀ y, y = 0 ∨ y ∈ freeMapNodes s → Used (bitmapSet s.freeMap x.toNat false) y := by
    rintro y (rfl | member)
    · exact (test 0).mpr ⟨fine.first, by simpa using nonzero.symm⟩
    · refine (test y).mpr ⟨freeMapNodes_used fine member, ?_⟩
      rw [List.mem_singleton]
      rintro rfl
      exact apart member
  obtain ⟨clearedOk, clearedNodes, clearedData⟩ := fine.change (w := s.cache)
    (b := bitmapSet s.freeMap x.toNat false) (by simp) kept fun _ _ _ => rfl
  obtain closed | ⟨f, opened⟩ := s.freeMapFile.eq_none_or_eq_some
  · have run : freeMapRelease s x 1 = { s with freeMap := bitmapSet s.freeMap x.toNat false } := by
      simp only [freeMapRelease, bitmapSetMultiple_one, closed]
    rw [run]
    exact ⟨rfl, by simp, test, fun _ _ => rfl, clearedNodes, clearedData, clearedOk,
      fun _ g same => by simp [closed] at same⟩
  · obtain ⟨w, write, frame, synced⟩ := bitmapWrite_spec clearedOk opened
    rw [clearedData] at frame
    obtain ⟨writtenOk, writtenNodes, writtenData⟩ := fine.change (w := w)
      (b := bitmapSet s.freeMap x.toNat false) (by simp) kept fun y _ apart => frame y apart
    have run : freeMapRelease s x 1 = { s with cache := w, freeMap := bitmapSet s.freeMap x.toNat false } := by
      simp only [freeMapRelease, bitmapSetMultiple_one, opened]
      simp only [opened] at write
      rw [write]
    rw [run]
    exact ⟨rfl, by simp, test, frame, writtenNodes, writtenData, writtenOk, fun _ => synced⟩

def Releasable (s : FlatFs) (gone : List BlockSector) : Prop := ∀ x ∈ gone, x ≠ 0 ∧ x ∉ freeMapNodes s

theorem Released.releasable {s t : FlatFs} {gone more : List BlockSector} (released : Released s t gone)
    (may : Releasable s more) : Releasable t more := fun x member => by
  rw [released.nodes]
  exact may x member

theorem Released.table {s t : FlatFs} {gone : List BlockSector} (released : Released s t gone)
    (fine : FreeMapOk s) {x : BlockSector} (apart : x ∉ freeMapNodes s) :
    table t.cache x = table s.cache x := by
  funext j
  simp only [FileSystem.table, released.elsewhere fine apart]

theorem deallocateEntries_spec {l : Nat} (unit : Nat) {deallocate : FlatFs → BlockSector → Nat → FlatFs}
    (step : ∀ s e n, FreeMapOk s → Releasable s (walk 128 (table s.cache) l e n) →
      Released s (deallocate s e n) (walk 128 (table s.cache) l e n))
    (count i n : Nat) (blocks : Nat → BlockSector) {s : FlatFs} (fine : FreeMapOk s)
    (may : Releasable s (row (walk 128 (table s.cache) l) unit count i n blocks)) :
    Released s (deallocateEntries deallocate unit count i n blocks s)
      (row (walk 128 (table s.cache) l) unit count i n blocks) := by
  induction count generalizing i n s with
  | zero => exact Released.refl fine
  | succ count ih =>
    have first := step s (blocks i) (min n unit) fine fun x member =>
      may x (List.mem_append_left _ member)
    have same : row (walk 128 (table (deallocate s (blocks i) (min n unit)).cache) l) unit count (i + 1)
        (n - min n unit) blocks = row (walk 128 (table s.cache) l) unit count (i + 1) (n - min n unit) blocks := by
      refine row_congr fun j below => walk_congr fun x member => first.table fine ?_
      exact (may x (List.mem_append_right _ (mem_row.mpr ⟨j, below, member⟩))).2
    refine first.trans ?_
    rw [← same]
    refine ih (i + 1) (n - min n unit) first.ok (first.releasable ?_)
    rw [same]
    exact fun x member => may x (List.mem_append_right _ member)

theorem inodeDeallocateIndirect_spec {l : Nat} (shallow : l ≤ 2) (s : FlatFs) (e : BlockSector) (n : Nat)
    (fine : FreeMapOk s) (may : Releasable s (walk 128 (table s.cache) l e n)) :
    Released s (inodeDeallocateIndirect l s e n) (walk 128 (table s.cache) l e n) := by
  induction l generalizing s e n with
  | zero =>
    obtain ⟨nonzero, apart⟩ := may e (List.mem_singleton_self e)
    exact freeMapRelease_spec fine nonzero apart
  | succ l ih =>
    have unit : (if l + 1 = 1 then 1 else INDIRECT_BLOCKS_PER_SECTOR) = 128 ^ l := by
      have cases : l = 0 ∨ l = 1 := by omega
      rcases cases with rfl | rfl <;> rfl
    have below := deallocateEntries_spec (128 ^ l) (ih (by omega)) ((n + 128 ^ l - 1) / 128 ^ l) 0 n
      (table s.cache e) fine fun x member => may x (List.mem_append_left _ member)
    have last := freeMapRelease_spec (x := e) below.ok
    obtain ⟨nonzero, apart⟩ := may e (List.mem_append_right _ (List.mem_singleton_self e))
    unfold inodeDeallocateIndirect
    rw [unit]
    exact below.trans (last nonzero (below.nodes ▸ apart))

/-- The sectors that `inode_deallocate` gives back: those that hold the first `n` sectors of data. -/
def deallocated (v : Disk) (d : InodeDisk) (n : Nat) : List BlockSector :=
  (List.range (min n 123)).map d.direct ++
    (if 0 < min (n - 123) 128 then walk 128 (table v) 1 d.indirectBlock (min (n - 123) 128) else []) ++
    if 0 < min (n - 251) 16384 then walk 128 (table v) 2 d.doublyIndirectBlock (min (n - 251) 16384) else []

section deallocate

variable {s : FlatFs} {v : Disk} {b : Bitmap} {d : InodeDisk} {len : Nat}

theorem deallocateDirect_spec (fine : FreeMapOk s) (l : Nat) (may : Releasable s ((List.range l).map d.direct)) :
    Released s (deallocateDirect s d l) ((List.range l).map d.direct) := by
  induction l with
  | zero => exact Released.refl fine
  | succ l ih =>
    rw [List.range_succ, List.map_append, List.map_singleton] at may ⊢
    have early := ih fun x member => may x (List.mem_append_left _ member)
    have last : deallocateDirect s d (l + 1) = freeMapRelease (deallocateDirect s d l) (d.direct l) 1 := by
      simp [deallocateDirect, List.range_succ]
    obtain ⟨nonzero, apart⟩ := may _ (List.mem_append_right _ (List.mem_singleton_self (d.direct l)))
    rw [last]
    exact early.trans (freeMapRelease_spec early.ok nonzero (early.nodes ▸ apart))

theorem deallocateTree_spec {l n : Nat} {e : BlockSector} (shallow : l ≤ 2) (fine : FreeMapOk s)
    (may : Releasable s (if 0 < n then walk 128 (table s.cache) l e n else [])) :
    Released s (if 0 < n then inodeDeallocateIndirect l s e n else s)
      (if 0 < n then walk 128 (table s.cache) l e n else []) := by
  split
  next some =>
    rw [if_pos some] at may
    exact inodeDeallocateIndirect_spec shallow s e n fine may
  next => exact Released.refl fine

theorem Released.walk {t : FlatFs} {gone : List BlockSector} (released : Released s t gone) (fine : FreeMapOk s)
    {l n : Nat} {e : BlockSector}
    (may : Releasable s (if 0 < n then BlockTree.walk 128 (FileSystem.table s.cache) l e n else [])) :
    (if 0 < n then BlockTree.walk 128 (FileSystem.table t.cache) l e n else []) =
      if 0 < n then BlockTree.walk 128 (FileSystem.table s.cache) l e n else [] := by
  split
  next some =>
    rw [if_pos some] at may
    exact walk_congr fun x member => released.table fine (may x member).2
  next => rfl

theorem inodeDeallocate_spec (fine : FreeMapOk s) (nonneg : 0 ≤ d.length.toInt)
    (may : Releasable s (deallocated s.cache d (bytesToSectors d.length.toInt))) :
    Released s (inodeDeallocate s d) (deallocated s.cache d (bytesToSectors d.length.toInt)) := by
  unfold inodeDeallocate
  rw [if_neg (by omega)]
  simp only [DIRECT_BLOCKS_COUNT, INDIRECT_BLOCKS_PER_SECTOR, Nat.reduceMul]
  generalize bytesToSectors d.length.toInt = n at *
  have sizes : n - min n 123 = n - 123 ∧ n - 123 - min (n - 123) 128 = n - 251 := by omega
  rw [sizes.1, sizes.2]
  have mayDirect := fun x member => may x (List.mem_append_left _ (List.mem_append_left _ member))
  have maySingle := fun x member => may x (List.mem_append_left _ (List.mem_append_right _ member))
  have mayDouble := fun x member => may x (List.mem_append_right _ member)
  have first := deallocateDirect_spec fine (min n 123) mayDirect
  have single := deallocateTree_spec (l := 1) (n := min (n - 123) 128) (e := d.indirectBlock) (by decide) first.ok
  have sameSingle := first.walk fine maySingle
  rw [sameSingle] at single
  have second := first.trans (single (first.releasable maySingle))
  have double := deallocateTree_spec (l := 2) (n := min (n - 251) 16384) (e := d.doublyIndirectBlock) le_rfl second.ok
  have sameDouble := second.walk fine mayDouble
  rw [sameDouble] at double
  exact second.trans (double (second.releasable mayDouble))

theorem blockAt_single (v : Disk) (d : InodeDisk) {i : Nat} (above : 123 ≤ i) (below : i < 251) :
    blockAt v d i = leaf 128 (table v) 1 d.indirectBlock (i - 123) := by
  simp only [blockAt, position, if_neg (show ¬i < 123 by omega), if_pos below, forestLeaf]
  rfl

theorem blockAt_double (v : Disk) (d : InodeDisk) {i : Nat} (above : 251 ≤ i) :
    blockAt v d i = leaf 128 (table v) 2 d.doublyIndirectBlock (i - 251) := by
  simp only [blockAt, position, if_neg (show ¬i < 123 by omega), if_neg (show ¬i < 251 by omega), forestLeaf]
  rfl

section mapped

variable {n : Nat} (mapped : ∀ i, i < n → blockAt v d i ≠ 0)
include mapped

theorem single_mapped {i : Nat} (below : i < min (n - 123) 128) :
    leaf 128 (table v) 1 d.indirectBlock i ≠ 0 := by
  have present := mapped (i + 123) (by omega)
  rwa [blockAt_single v d (by omega) (by omega), Nat.add_sub_cancel] at present

theorem double_mapped {i : Nat} (below : i < min (n - 251) 16384) :
    leaf 128 (table v) 2 d.doublyIndirectBlock i ≠ 0 := by
  have present := mapped (i + 251) (by omega)
  rwa [blockAt_double v d (by omega), Nat.add_sub_cancel] at present

theorem deallocated_sub {x : BlockSector} (member : x ∈ deallocated v d n) : x ∈ inodeNodes v d := by
  rw [mem_forestNodes]
  rw [deallocated, List.mem_append, List.mem_append, List.mem_map] at member
  rcases member with (⟨j, below, rfl⟩ | single) | double
  · have small := List.mem_range.mp below
    have present := mapped j (by omega)
    have entry := direct_eq_entries d (show j < 123 by omega)
    rw [blockAt_direct v d (by omega), ← entry] at present
    refine ⟨j, by simp only [inodeShape]; omega, ?_⟩
    simp only [inodeShape, show j < 123 by omega, if_true, nodes, ← entry, if_neg present]
    exact List.mem_singleton_self _
  · split at single
    next some =>
      exact ⟨123, by decide, walk_sub (l := 1) (by omega) some (fun i => single_mapped mapped) single⟩
    next => cases single
  · split at double
    next some =>
      exact ⟨124, by decide, walk_sub (l := 2) (by omega) some (fun i => double_mapped mapped) double⟩
    next => cases double

end mapped

end deallocate

end ShellOs.FileSystem
