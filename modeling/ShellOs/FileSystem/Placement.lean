import ShellOs.FileSystem.Inverse
import ShellOs.Lib.BlockOrder

/-! Where a new file lies: its inode and its blocks take the first free sectors, in the order of a walk through its
block tables. -/

namespace ShellOs.FileSystem
open Lib BlockTree SlotMap

section reserve

variable {s t u : FlatFs} {newA newB touchedA touchedB : List BlockSector} {l n : Nat} {e : BlockSector}

theorem Took.tables (early : Took s t newA touchedA) (fine : FreeMapOk s) (late : Took t u newB touchedB)
    (apart : ∀ x ∈ newA, x ∉ touchedB) {x : BlockSector} (mine : x ∈ newA) : table u.cache x = table t.cache x := by
  have nonzero := early.new_ne_zero fine mine
  have foreign : x ∉ freeMapNodes t := by
    rw [early.nodes]
    exact early.new_not_freeMapNodes fine mine
  funext j
  simp only [table, late.frame_used early.ok nonzero (early.new_used mine) foreign (apart x mine)]

/-- A tree that is filled in from nothing takes the first free sectors in the order of its blocks. -/
def InOrder (l : Nat) (reserve : FlatFs → BlockSector → Nat → Outcome (BlockSector → Sector) BlockSector) : Prop :=
  ∀ s n, FreeMapOk s → 0 < n → n ≤ 128 ^ l → (reserve s 0 n).ok = true →
    Took s (reserve s 0 n).fs (visited 128 (table (reserve s 0 n).fs.cache) l (reserve s 0 n).value n) []

theorem reserveEntries_before {reserve : FlatFs → BlockSector → Nat → Outcome (BlockSector → Sector) BlockSector}
    (unit count i n : Nat) (blocks : Nat → BlockSector) (s : FlatFs) {j : Nat} (before : j < i) :
    (reserveEntries reserve unit count i n blocks s).value j = blocks j := by
  induction count generalizing i n blocks s with
  | zero => rfl
  | succ count ih =>
    have kept : ∀ v, Function.update blocks i v j = blocks j := fun v => Function.update_of_ne (by omega) _ _
    simp only [reserveEntries]
    split
    · rw [ih _ _ _ _ (by omega), kept]
    · exact kept _

theorem reserveEntries_order {reserve : FlatFs → BlockSector → Nat → Outcome (BlockSector → Sector) BlockSector}
    (order : InOrder l reserve) (count i n : Nat) (blocks : Nat → BlockSector) (s : FlatFs)
    (empty : ∀ j, i ≤ j → blocks j = 0) (shares : ∀ d, d < count → d * 128 ^ l < n) (fine : FreeMapOk s)
    (done : (reserveEntries reserve (128 ^ l) count i n blocks s).ok = true) :
    let r := reserveEntries reserve (128 ^ l) count i n blocks s
    Took s r.fs ((List.range count).flatMap fun d =>
      visited 128 (table r.fs.cache) l (r.value (i + d)) (min (n - d * 128 ^ l) (128 ^ l))) [] := by
  induction count generalizing i n blocks s with
  | zero => exact Took.refl fine
  | succ count ih =>
    have most : 0 < n := by simpa using shares 0 (by omega)
    have unit : 0 < 128 ^ l := Nat.pow_pos (by decide)
    have one : (reserve s 0 (min n (128 ^ l))).ok = true := by
      by_contra failed
      rw [reserveEntries, empty i le_rfl, if_neg failed] at done
      cases done
    have first := order s (min n (128 ^ l)) fine (by omega) (by omega) one
    simp only [reserveEntries, empty i le_rfl, one, if_true] at done ⊢
    generalize reserve s 0 (min n (128 ^ l)) = r at *
    have later := ih (i + 1) (n - min n (128 ^ l)) (Function.update blocks i r.value) r.fs
      (fun j above => by rw [Function.update_of_ne (by omega), empty j (by omega)])
      (fun d less => by
        have := shares (d + 1) (by omega)
        rw [Nat.add_mul, Nat.one_mul] at this
        omega) first.ok done
    have here := @reserveEntries_before reserve (128 ^ l) count (i + 1) (n - min n (128 ^ l))
      (Function.update blocks i r.value) r.fs i (Nat.lt_succ_self i)
    rw [Function.update_self] at here
    generalize reserveEntries reserve (128 ^ l) count (i + 1) (n - min n (128 ^ l)) (Function.update blocks i r.value)
      r.fs = q at *
    have same := visited_congr (e := r.value) (Nat.min_le_right n (128 ^ l)) fun x mine _ =>
      first.tables fine later (fun _ _ never => by cases never) mine
    have left : ∀ d, n - min n (128 ^ l) - d * 128 ^ l = n - (d + 1) * 128 ^ l := by
      intro d
      rw [Nat.add_mul, Nat.one_mul]
      omega
    have both := first.trans later (fun _ never => never) fun _ never => Or.inl never
    rw [← same] at both
    have list : (List.range (count + 1)).flatMap (fun d =>
        visited 128 (table q.fs.cache) l (q.value (i + d)) (min (n - d * 128 ^ l) (128 ^ l))) =
        visited 128 (table q.fs.cache) l r.value (min n (128 ^ l)) ++ (List.range count).flatMap fun d =>
          visited 128 (table q.fs.cache) l (q.value (i + 1 + d)) (min (n - min n (128 ^ l) - d * 128 ^ l) (128 ^ l)) := by
      rw [List.range_succ_eq_map, List.flatMap_cons, List.flatMap_map, Nat.add_zero, here, Nat.zero_mul, Nat.sub_zero]
      congr 1
      apply List.flatMap_congr
      intro d _
      rw [left, Nat.succ_eq_add_one, show i + (d + 1) = i + 1 + d by omega]
    rw [list]
    exact both

variable {allocate : FlatFs → Option BlockSector × FlatFs}

theorem reserveSector_order (allocates : Allocates allocate) : InOrder 0 (inodeReserveIndirect allocate 0) := by
  intro s n fine some bound done
  simp only [inodeReserveIndirect, reserveSector, if_true] at done ⊢
  cases free : freeSectors s.freeMap with
  | nil => simp [(allocates s fine).1 free] at done
  | cons x rest =>
    obtain ⟨s', run, took, -, -⟩ := (allocates s fine).2 x rest free
    have nonzero := took.new_ne_zero fine (List.mem_singleton_self x)
    simp only [run, visited, if_neg nonzero]
    exact took.write (Or.inr (Or.inl (List.mem_singleton_self x)))
      (took.new_not_freeMapNodes fine (List.mem_singleton_self x)) zeros

theorem reserveIndirect_order (allocates : Allocates allocate) (shallow : l ≤ 1)
    (order : InOrder l (inodeReserveIndirect allocate l)) : InOrder (l + 1) (inodeReserveIndirect allocate (l + 1)) := by
  intro s n fine some bound done
  have units := indexUnit shallow
  have most : (n + 128 ^ l - 1) / 128 ^ l ≤ 128 := entries_bound bound
  cases free : freeSectors s.freeMap with
  | nil =>
    have failed := congrArg Outcome.ok (reserve_exhausted allocates (l + 1) n s fine free some)
    rw [done] at failed
    cases failed
  | cons x rest =>
    obtain ⟨s', run, took, -, -⟩ := (allocates s fine).2 x rest free
    have mine := List.mem_singleton_self x
    have nonzero := took.new_ne_zero fine mine
    have apart := took.new_not_freeMapNodes fine mine
    have index := took.write (Or.inr (Or.inl mine)) apart zeros
    have obtained : obtainIndex allocate s 0 = (x, s'.bufferCacheWrite x zeros) := by
      simp only [obtainIndex, if_true, run, Option.getD_some]
    have blank : ∀ j, sectorWord ((s'.bufferCacheWrite x zeros).cache x) j = 0 := by
      intro j
      simp only [flat_write, Function.update_self, sectorWord_zeros]
    simp only [inodeReserveIndirect, obtained, flat_read, units, divRoundUp] at done ⊢
    generalize s'.bufferCacheWrite x zeros = s₁ at *
    have filled : (reserveEntries (inodeReserveIndirect allocate l) (128 ^ l) ((n + 128 ^ l - 1) / 128 ^ l) 0 n
        (sectorWord (s₁.cache x)) s₁).ok = true := by
      by_contra failed
      simp [failed] at done
    have entries := reserveEntries_order order _ 0 n (sectorWord (s₁.cache x)) s₁ (fun j _ => blank j)
      (fun _ => share_positive) index.ok filled
    simp only [filled, if_true]
    generalize reserveEntries (inodeReserveIndirect allocate l) (128 ^ l) ((n + 128 ^ l - 1) / 128 ^ l) 0 n
      (sectorWord (s₁.cache x)) s₁ = r at *
    have both := index.trans entries (fun _ never => never) fun _ never => Or.inl never
    have whole := both.write (x := x) (Or.inr (Or.inl List.mem_cons_self)) apart (sectorOfWords r.value)
    have row : ∀ j, j < 128 → table (r.fs.bufferCacheWrite x (sectorOfWords r.value)).cache x j = r.value j := by
      intro j small
      simp only [table, flat_write, Function.update_self]
      exact sectorWord_sectorOfWords r.value small
    have below : ∀ d, d < (n + 128 ^ l - 1) / 128 ^ l →
        visited 128 (table (r.fs.bufferCacheWrite x (sectorOfWords r.value)).cache) l (r.value d)
          (min (n - d * 128 ^ l) (128 ^ l)) =
        visited 128 (table r.fs.cache) l (r.value (0 + d)) (min (n - d * 128 ^ l) (128 ^ l)) := by
      intro d less
      rw [Nat.zero_add]
      apply visited_congr (Nat.min_le_right _ _)
      intro y inside _
      have other : y ≠ x := by
        rintro rfl
        refine (List.nodup_cons.mp both.new_nodup).1 (List.mem_flatMap.mpr ⟨d, List.mem_range.mpr less, ?_⟩)
        rw [Nat.zero_add]
        exact inside
      funext j
      simp only [table, flat_write, Function.update_of_ne other]
    have list : visited 128 (table (r.fs.bufferCacheWrite x (sectorOfWords r.value)).cache) (l + 1) x n =
        [x] ++ (List.range ((n + 128 ^ l - 1) / 128 ^ l)).flatMap fun d =>
          visited 128 (table r.fs.cache) l (r.value (0 + d)) (min (n - d * 128 ^ l) (128 ^ l)) := by
      rw [visited, if_neg nonzero]
      congr 1
      apply List.flatMap_congr
      intro d member
      have less := List.mem_range.mp member
      rw [row d (by omega), below d less]
    rw [list]
    exact whole

theorem inodeReserveIndirect_order (allocates : Allocates allocate) (shallow : l ≤ 2) :
    InOrder l (inodeReserveIndirect allocate l) := by
  induction l with
  | zero => exact reserveSector_order allocates
  | succ l ih => exact reserveIndirect_order allocates (by omega) (ih (by omega))

theorem reserveDirect_order (allocates : Allocates allocate) (count i : Nat) (d : InodeDisk) (s : FlatFs)
    (inside : i + count ≤ 123) (empty : ∀ j, i ≤ j → d.direct j = 0) (fine : FreeMapOk s)
    (done : (reserveDirect allocate count i d s).ok = true) :
    let r := reserveDirect allocate count i d s
    Took s r.fs ((List.range' i count).flatMap fun j => visited 128 (table r.fs.cache) 0 (r.value.direct j) 1) [] ∧
      (∀ j, j < i → r.value.direct j = d.direct j) ∧ r.value.indirectBlock = d.indirectBlock ∧
      r.value.doublyIndirectBlock = d.doublyIndirectBlock := by
  induction count generalizing i d s with
  | zero => exact ⟨Took.refl fine, fun _ _ => rfl, rfl, rfl⟩
  | succ count ih =>
    have one : (reserveSector allocate s 0).ok = true := by
      by_contra failed
      rw [reserveDirect, empty i le_rfl, if_neg failed] at done
      cases done
    have first := reserveSector_order allocates s 1 fine Nat.one_pos le_rfl one
    simp only [inodeReserveIndirect] at first
    simp only [reserveDirect, empty i le_rfl, one, if_true] at done ⊢
    generalize reserveSector allocate s 0 = r at *
    have kept : ∀ j, j ≠ i → (d.setDirect i r.value).direct j = d.direct j := by
      intro j other
      simp only [InodeDisk.direct, InodeDisk.setDirect, if_neg other]
    have set : (d.setDirect i r.value).direct i = r.value := by
      simp only [InodeDisk.direct, InodeDisk.setDirect, if_true]
      rw [dif_pos (by simp only [DIRECT_BLOCKS_COUNT]; omega)]
    obtain ⟨later, before, indirect, doubly⟩ := ih (i + 1) (d.setDirect i r.value) r.fs (by omega)
      (fun j above => by rw [kept j (by omega), empty j (by omega)]) first.ok done
    have here := before i (Nat.lt_succ_self i)
    rw [set] at here
    have both := first.trans later (fun _ never => never) fun _ never => Or.inl never
    refine ⟨?_, fun j below => ?_, indirect, doubly⟩
    · simp only [List.range'_succ, List.flatMap_cons, here, visited] at both ⊢
      exact both
    · rw [before j (by omega), kept j (by omega)]

theorem inodeVisited_eq (v : Disk) (d : InodeDisk) (n : Nat) : inodeVisited v d n =
    (List.range' 0 (min n 123)).flatMap (fun j => visited 128 (table v) 0 (d.direct j) 1) ++
      ((if 123 < n then visited 128 (table v) 1 d.indirectBlock (min (n - 123) 128) else []) ++
        if 251 < n then visited 128 (table v) 2 d.doublyIndirectBlock (min (n - 251) (128 * 128)) else []) := by
  have direct : ∀ j ∈ List.range' 0 (min n 123), visited 128 (table v) (inodeShape.level j) (d.entries j)
      (min (n - treeStart j) (128 ^ inodeShape.level j)) = visited 128 (table v) 0 (d.direct j) 1 := by
    intro j member
    have small := (List.mem_range'_1.mp member).2
    rw [show inodeShape.level j = 0 from if_pos (by omega), direct_eq_entries d (by omega), visited, visited]
  rw [inodeVisited, flatMap_trees, List.flatMap_congr direct]
  simp [treeStart, inodeShape, entries_indirect, entries_doublyIndirect]

theorem inodeReserve_order (allocates : Allocates allocate) {d : InodeDisk} (empty : ∀ j, d.entries j = 0)
    (fine : FreeMapOk s) {length : Int} (done : (inodeReserve allocate s d length).ok = true) :
    let r := inodeReserve allocate s d length
    Took s r.fs (inodeVisited r.fs.cache r.value (bytesToSectors length)) [] := by
  have direct : ∀ j, 0 ≤ j → d.direct j = 0 := by
    intro j _
    by_cases small : j < 123
    · rw [direct_eq_entries d small, empty]
    · exact dif_neg small
  have positive : ¬length < 0 := fun negative => by
    rw [inodeReserve, if_pos negative] at done
    cases done
  simp only [inodeReserve, if_neg positive, DIRECT_BLOCKS_COUNT, INDIRECT_BLOCKS_PER_SECTOR] at done ⊢
  generalize bytesToSectors length = n at *
  have one : (reserveDirect allocate (min n 123) 0 d s).ok = true := by
    by_contra failed
    rw [if_pos (Bool.eq_false_iff.mpr failed)] at done
    exact failed done
  obtain ⟨first, -, indirect, doubly⟩ := reserveDirect_order allocates (min n 123) 0 d s (by omega) direct fine one
  simp only [one, Bool.true_eq_false, if_false] at done ⊢
  generalize reserveDirect allocate (min n 123) 0 d s = r at *
  rw [inodeVisited_eq]
  by_cases few : n - min n 123 = 0
  · rw [if_pos few] at done ⊢
    rw [if_neg (by omega), if_neg (by omega), List.append_nil, List.append_nil]
    exact first
  rw [if_neg few] at done ⊢
  have rest : n - min n 123 = n - 123 := by omega
  rw [indirect, show d.indirectBlock = 0 from empty 123, rest] at done ⊢
  have two : (inodeReserveIndirect allocate 1 r.fs 0 (min (n - 123) 128)).ok = true := by
    by_contra failed
    rw [if_pos (Bool.eq_false_iff.mpr failed)] at done
    cases done
  have second := inodeReserveIndirect_order allocates (l := 1) (by omega) r.fs (min (n - 123) 128) first.ok (by omega)
    (by omega) two
  simp only [two, Bool.true_eq_false, if_false] at done ⊢
  generalize inodeReserveIndirect allocate 1 r.fs 0 (min (n - 123) 128) = r₁ at *
  have both := first.trans second (fun _ never => never) fun _ never => Or.inl never
  by_cases some : n - 123 - min (n - 123) 128 = 0
  · rw [if_pos some] at done ⊢
    rw [if_pos (by omega), if_neg (by omega), List.append_nil]
    simp only [visited] at both ⊢
    exact both
  rw [if_neg some] at done ⊢
  have last : n - 123 - min (n - 123) 128 = n - 251 := by omega
  rw [doubly, show d.doublyIndirectBlock = 0 from empty 124, last] at done ⊢
  have three : (inodeReserveIndirect allocate 2 r₁.fs 0 (min (n - 251) (128 * 128))).ok = true := by
    by_contra failed
    rw [if_pos (Bool.eq_false_iff.mpr failed)] at done
    cases done
  have third := inodeReserveIndirect_order allocates (l := 2) le_rfl r₁.fs (min (n - 251) (128 * 128)) second.ok (by omega)
    (by omega) three
  simp only [three, Bool.true_eq_false, if_false]
  generalize inodeReserveIndirect allocate 2 r₁.fs 0 (min (n - 251) (128 * 128)) = r₂ at *
  -- the tree of the single index block is not touched any more
  have same := visited_congr (l := 1) (e := r₁.value) (Nat.min_le_right (n - 123) 128) fun x mine _ =>
    second.tables first.ok third (fun _ _ never => by cases never) mine
  have all := both.trans third (fun _ never => never) fun _ never => Or.inl never
  rw [← same, List.append_assoc] at all
  rw [if_pos (by omega), if_pos (by omega)]
  simp only [visited] at all ⊢
  exact all

/-- How many index blocks come before block `i` of a file, beside the blocks before it. -/
def blockPlace (i : Nat) : Nat :=
  if i < 123 then i else if i < 251 then i + 1 else i + 3 + (i - 251) / 128

theorem inodeVisited_place {v : Disk} {d : InodeDisk} {n i : Nat} (few : n ≤ MAX_SECTORS)
    (mapped : ∀ i, i < n → blockAt v d i ≠ 0) (below : i < n) :
    (inodeVisited v d n)[blockPlace i]? = some (blockAt v d i) := by
  simp only [MAX_SECTORS] at few
  have direct : ∀ j ∈ List.range' 0 (min n 123), visited 128 (table v) 0 (d.direct j) 1 = [blockAt v d j] := by
    intro j member
    have small := (List.mem_range'_1.mp member).2
    have present := mapped j (by omega)
    have here : blockAt v d j = d.direct j := by
      rw [blockAt, position, if_pos (by omega), direct_eq_entries d (by omega), forestLeaf,
        show inodeShape.level j = 0 from if_pos (by omega)]
      rfl
    rw [here] at present ⊢
    rw [visited, if_neg present]
  have first : (List.range' 0 (min n 123)).flatMap (fun j => visited 128 (table v) 0 (d.direct j) 1) =
      (List.range' 0 (min n 123)).map (blockAt v d) := by
    rw [List.flatMap_congr direct, List.map_eq_flatMap]
  have single : ∀ i, i < min (n - 123) 128 → leaf 128 (table v) 1 d.indirectBlock i ≠ 0 := fun i below =>
    tree_mapped mapped (show 123 < 125 by decide) below
  have double : ∀ i, i < min (n - 251) (128 ^ 2) → leaf 128 (table v) 2 d.doublyIndirectBlock i ≠ 0 := fun i below =>
    tree_mapped mapped (show 124 < 125 by decide) below
  rw [inodeVisited_eq, first, blockPlace]
  by_cases early : i < 123
  · rw [if_pos early, List.getElem?_append_left (by simp; omega), List.getElem?_map, List.getElem?_range' (by omega)]
    simp
  have late : 123 ≤ if i < 251 then i + 1 else i + 3 + (i - 251) / 128 := by
    split <;> omega
  rw [if_neg early, List.getElem?_append_right (by simp; omega), List.length_map, List.length_range',
    show min n 123 = 123 by omega, if_pos (by omega)]
  by_cases middle : i < 251
  · have placed := visited_place (l := 1) (n := min (n - 123) 128) (i := i - 123) (by omega) single (by omega)
    have here : place 128 1 (i - 123) = i + 1 - 123 := by
      simp only [place, pow_zero, Nat.div_one, fullSize]
      omega
    rw [here] at placed
    rw [if_pos middle, List.getElem?_append_left (List.getElem?_eq_some_iff.mp placed).1, placed, blockAt, position,
      if_neg early, if_pos middle]
    rfl
  · have whole : (visited 128 (table v) 1 d.indirectBlock (128 ^ 1)).length = 129 :=
      visited_length (by decide) fun i below => single i (by omega)
    have placed := visited_place (l := 2) (n := min (n - 251) (128 ^ 2)) (i := i - 251) (by omega) double (by omega)
    have here : place 128 2 (i - 251) = i + 3 + (i - 251) / 128 - 123 - 129 := by
      simp only [place, pow_zero, pow_one, Nat.div_one, fullSize]
      omega
    rw [here] at placed
    rw [if_neg middle, show min (n - 123) 128 = 128 ^ 1 by omega, List.getElem?_append_right (by omega), whole,
      if_pos (by omega), show 128 * 128 = 128 ^ 2 by decide, placed, blockAt, position, if_neg early, if_neg middle]
    rfl

end reserve

theorem mem_inodeVisited {v : Disk} {d : InodeDisk} {n : Nat} {z : BlockSector} (member : z ∈ inodeVisited v d n) :
    z ∈ inodeNodes v d :=
  (inodeVisited_sublist v d n).subset member

theorem inodeVisited_congr {v w : Disk} {d : InodeDisk} {n : Nat}
    (same : ∀ z ∈ inodeVisited v d n, z ∈ inodeInner v d → w z = v z) : inodeVisited w d n = inodeVisited v d n := by
  rw [inodeVisited, inodeVisited]
  apply List.flatMap_congr
  intro j inside
  split
  next below =>
    apply visited_congr (Nat.min_le_right _ _)
    intro z member index
    funext k
    have mine : z ∈ inodeVisited v d n := by
      rw [inodeVisited, List.mem_flatMap]
      exact ⟨j, inside, by rw [if_pos below]; exact member⟩
    rw [table, table, same z mine (mem_forestInner.mpr ⟨j, List.mem_range.mp inside, index⟩)]
  next => rfl

/-- The sectors of a file in the order in which its creation takes them. -/
def laidOut (s : FlatFs) (x : BlockSector) : List BlockSector :=
  x :: inodeVisited s.cache (s.inodeData x) (bytesToSectors (s.inodeLength x))

section creation

variable {s : FlatFs} {n : Nat} {dir : Dir} {x : BlockSector} {size : Int}

theorem inodeCreate_order (fine : FreeMapOk s) (nonzero : x ≠ 0) (used : Used s.freeMap x) (apart : x ∉ freeMapNodes s)
    (made : (inodeCreate s x size false).1 = true) : let c := inodeCreate s x size false
      Took s c.2 (inodeVisited c.2.cache (InodeDisk.decode (c.2.cache x)) (bytesToSectors (offsetOf size))) [x] := by
  have length := diskInode_length size false
  simp only [inodeCreate, length] at made ⊢
  have done : (inodeReserve (fun s => freeMapAllocate s 1) s (diskInode size false) (offsetOf size)).ok = true := by
    by_contra failed
    rw [if_neg failed] at made
    cases made
  have order := inodeReserve_order freeMapAllocate_allocates (diskInode_entries size false) fine done
  simp only [done, if_true]
  generalize inodeReserve (fun s => freeMapAllocate s 1) s (diskInode size false) (offsetOf size) = r at *
  have disk : (r.fs.bufferCacheWrite x r.value.encode).cache x = r.value.encode := Function.update_self _ _ _
  have others : ∀ z ∈ inodeVisited r.fs.cache r.value (bytesToSectors (offsetOf size)),
      (r.fs.bufferCacheWrite x r.value.encode).cache z = r.fs.cache z := by
    intro z mine
    apply Function.update_of_ne
    rintro rfl
    exact order.new_not_used mine used
  have same := inodeVisited_congr fun z mine _ => others z mine
  rw [disk, InodeDisk.decode_encode, same]
  exact (order.touch (by simp)).write (Or.inr (Or.inr (List.mem_singleton_self x))) apart _

theorem createAt_order (ok : DirOk s n) (here : dir.inode = ROOT_DIR_SECTOR)
    (listed : (s.findInode ROOT_DIR_SECTOR).isSome)
    (foreign : ∀ f, s.freeMapFile = some f → f.inode ≠ ROOT_DIR_SECTOR) (nonzero : x ≠ 0)
    (used : Used s.freeMap x) (apart : x ∉ freeMapNodes s) (unlisted : s.findInode x = none)
    (own : x ∉ sectorsOf s ROOT_DIR_SECTOR) {name : CString} (made : (createAt s dir name x size false).1 = true) :
    let r := createAt s dir name x size false
    ∃ root, freeSectors s.freeMap = inodeVisited r.2.cache (InodeDisk.decode (r.2.cache x))
      (bytesToSectors (offsetOf size)) ++ (root ++ freeSectors r.2.freeMap) := by
  obtain ⟨new, created⟩ := inodeCreate_effect ok.fine nonzero used apart unlisted size false
  unfold createAt at made ⊢
  simp only at made ⊢
  have good : (inodeCreate s x size false).1 = true := by
    by_contra failed
    rw [if_neg failed] at made
    cases made
  have order := inodeCreate_order ok.fine nonzero used apart good
  simp only [good, if_true]
  generalize inodeCreate s x size false = c at *
  have away : ∀ z ∈ sectorsOf s ROOT_DIR_SECTOR, z ∉ [x] := fun z member same =>
    own (List.mem_singleton.mp same ▸ member)
  obtain ⟨mid, -, sectors, -, -⟩ := ok.took listed order away created.opened
  obtain ⟨root, added⟩ := dirAdd_effect mid here (by rw [Fs.findInode, created.opened]; exact listed)
    (by rw [order.freeMapFile]; exact foreign) name x
  generalize dirAdd c.2 dir name x false = r at added
  have kept : ∀ z, z ≠ 0 → Used c.2.freeMap z → z ∉ freeMapNodes s → z ∉ sectorsOf s ROOT_DIR_SECTOR →
      r.2.cache z = c.2.cache z := by
    intro z positive inUse foreign outside
    rw [← order.nodes] at foreign
    rw [← sectors] at outside
    exact added.took.frame_used order.ok positive inUse foreign outside
  have disk := kept x nonzero (order.keepsUsed x used) apart own
  have same := inodeVisited_congr fun z mine _ =>
    kept z (order.new_ne_zero ok.fine mine) (order.new_used mine) (order.new_not_freeMapNodes ok.fine mine)
      fun inRoot => order.new_not_used mine (ok.file.own.used z inRoot)
  refine ⟨root, ?_⟩
  rw [disk, same, order.free, added.took.free]

theorem createIn_order (ok : DirOk s n) (here : dir.inode = ROOT_DIR_SECTOR)
    (listed : (s.findInode ROOT_DIR_SECTOR).isSome)
    (foreign : ∀ f, s.freeMapFile = some f → f.inode ≠ ROOT_DIR_SECTOR)
    (open' : ∀ z, (s.findInode z).isSome → Used s.freeMap z) {name : CString}
    (made : (createIn s dir name size).1 = true) : let r := createIn s dir name size
      ∃ x root, freeSectors s.freeMap = x :: (inodeVisited r.2.cache (InodeDisk.decode (r.2.cache x))
        (bytesToSectors (offsetOf size)) ++ (root ++ freeSectors r.2.freeMap)) := by
  obtain ⟨exhausted, takes⟩ := freeMapAllocate_allocates s ok.fine
  unfold createIn at made ⊢
  cases free : freeSectors s.freeMap with
  | nil =>
    have run : freeMapAllocate s 1 = (none, s) := exhausted free
    rw [run] at made
    cases made
  | cons x rest =>
    obtain ⟨t, run, took, -, opened⟩ := takes x rest free
    have alone : freeMapAllocate s 1 = (some x, t) := run
    have mine := List.mem_singleton_self x
    simp only [alone, Option.isSome_some, if_true, Option.getD_some] at made ⊢
    obtain ⟨mid, -, sectors, -, -⟩ := ok.took listed took (by simp) opened
    have same : ∀ z, t.findInode z = s.findInode z := fun z => by rw [Fs.findInode, Fs.findInode, opened]
    have unlisted : t.findInode x = none := by
      rw [← Option.not_isSome_iff_eq_none, same]
      exact fun held => took.new_not_used mine (open' x held)
    have own : x ∉ sectorsOf t ROOT_DIR_SECTOR := by
      rw [sectors]
      exact fun member => took.new_not_used mine (ok.file.own.used x member)
    obtain ⟨root, split⟩ := createAt_order mid here (by rw [same]; exact listed)
      (by rw [took.freeMapFile]; exact foreign) (took.new_ne_zero ok.fine mine) (took.new_used mine)
      (by rw [took.nodes]; exact took.new_not_freeMapNodes ok.fine mine) unlisted own made
    refine ⟨x, root, ?_⟩
    have left := took.free
    rw [free] at left
    rw [if_neg (by simp [made]), ← split, (List.cons.inj left).2]
    rfl

/-- A new file takes the first free sectors: its inode, then its blocks, then what the directory may need. -/
theorem filesysCreate_order (mounted : Mounted s n) {path : CString} (made : (filesysCreate s path size false).1 = true)
    (proper : (0 : Byte) ∉ (splitPathFilename path).2) : let r := filesysCreate s path size false
      ∃ x root, NewFile s r.2 (splitPathFilename path).2 size x ∧
        freeSectors s.freeMap = laidOut r.2 x ++ (root ++ freeSectors r.2.freeMap) := by
  obtain ⟨new, creation⟩ := filesysCreate_effect mounted path size
  obtain ⟨x, created⟩ := creation.newFile mounted made proper
  obtain ⟨y, file, _, all, whole, -, -, -, -, -, -, slots⟩ := creation.made made
  obtain rfl : x = y := by
    have bound := put_freeSlot (rootSlots s) ((splitPathFilename path).2, x)
    rw [← created.slots, slots proper] at bound
    exact (put_slot created.absent bound).2
  have opened := dirOpenRoot_spec mounted.handle
  have only := opened.only mounted.dir.fine
  obtain ⟨ok, -⟩ := mounted.dir.rehandled only.rehandled
  have foreign : ∀ f, (dirOpenRoot s).2.freeMapFile = some f → f.inode ≠ ROOT_DIR_SECTOR := by
    rw [only.rehandled.freeMapFile]
    exact mounted.foreign
  have open' : ∀ z, ((dirOpenRoot s).2.findInode z).isSome → Used (dirOpenRoot s).2.freeMap z := by
    intro z held
    rw [only.rehandled.bits]
    by_cases root : z = ROOT_DIR_SECTOR
    · rw [root]
      exact mounted.dir.file.own.used _ List.mem_cons_self
    · exact mounted.listed z (only.others z root ▸ held)
  obtain ⟨more, effect⟩ := createIn_effect ok opened.dir.1 opened.dir.2.2 foreign open' (splitPathFilename path).2 size
  obtain ⟨z, root, split⟩ := createIn_order ok opened.dir.1 opened.dir.2.2 foreign open' made
  have cwd : (createIn (dirOpenRoot s).2 (dirOpenRoot s).1 (splitPathFilename path).2 size).2.cwd =
      (dirOpenRoot s).2.cwd := by
    rw [effect.rest]
  obtain ⟨closed, -, -⟩ := opened.close effect.handles cwd (by rw [effect.change.freeMapFile]; exact foreign)
  rw [only.rehandled.bits] at split
  obtain rfl : z = x := by
    rw [whole, all] at split
    exact (List.cons.inj split).1.symm
  have result : (filesysCreate s path size false).2 =
      dirClose (createIn (dirOpenRoot s).2 (dirOpenRoot s).1 (splitPathFilename path).2 size).2 (dirOpenRoot s).1 := by
    rw [filesysCreate_eq]
  rw [← closed.rehandled.cache, ← closed.rehandled.bits, ← result] at split
  refine ⟨z, root, created, ?_⟩
  rw [laidOut, created.length, Fs.inodeData, created.unlisted]
  exact split

end creation

end ShellOs.FileSystem
