import ShellOs.FileSystem.FreeMap

/-! What `inode_reserve` does: which sectors it takes, where it puts them, and what it leaves behind
when the free map runs out on the way. -/

namespace ShellOs.FileSystem
open Lib BlockTree

structure Own (s : FlatFs) (nodes : List BlockSector) : Prop where
  nodup : nodes.Nodup
  used : ∀ x ∈ nodes, Used s.freeMap x
  apart : ∀ x ∈ nodes, x ∉ freeMapNodes s

theorem Own.sub {s : FlatFs} {nodes part : List BlockSector} (own : Own s nodes)
    (nodup : part.Nodup) (sub : ∀ x ∈ part, x ∈ nodes) : Own s part :=
  ⟨nodup, fun x member => own.used x (sub x member), fun x member => own.apart x (sub x member)⟩

theorem Took.frame_used {s s' : FlatFs} {new touched : List BlockSector} (ok : FreeMapOk s)
    (took : Took s s' new touched) {x : BlockSector} (nonzero : x ≠ 0) (used : Used s.freeMap x)
    (apart : x ∉ freeMapNodes s) (other : x ∉ touched) : s'.cache x = s.cache x :=
  took.frame x nonzero (fun member => took.new_not_used member used) other
    fun member => apart (freeMapData_sub ok member)

/-- A tree or a forest has grown, from `old` to `next`, by sectors taken from the free map. `needs`
is what had to be taken, in this order; `ok` tells whether all of it could be. -/
structure Grown {ι : Type} (valid goal : ι → Prop) (s : FlatFs) (old : Snapshot BlockSector ι)
    (s' : FlatFs) (next : Snapshot BlockSector ι) (ok : Bool) (needs : List BlockKind)
    (new leaked : List BlockSector) : Prop where
  took : Took s s' new old.inner
  opened : s'.openInodes = s.openInodes
  grows : Grows valid old next new leaked
  blank : ∀ i, valid i → old.leaf i = 0 → next.leaf i ≠ 0 → s'.cache (next.leaf i) = zeros
  full : ok = true → ∀ i, goal i → next.leaf i ≠ 0
  done : needs.length ≤ (freeSectors s.freeMap).length →
    ok = true ∧ leaked = [] ∧ new.length = needs.length ∧ s'.cache 0 = s.cache 0
  short : (freeSectors s.freeMap).length < needs.length →
    ok = false ∧ freeSectors s'.freeMap = [] ∧
      s'.cache 0 = if needs[(freeSectors s.freeMap).length]? = some .index then zeros else s.cache 0

namespace Grown

variable {ι : Type} {valid goal goalA goalB : ι → Prop} {s t u : FlatFs}
  {old mid next : Snapshot BlockSector ι} {ok okA okB : Bool} {needs needsA needsB : List BlockKind}
  {new leaked newA leakedA newB leakedB : List BlockSector}

theorem refl (fine : FreeMapOk s) (mapped : ∀ i, goal i → old.leaf i ≠ 0) :
    Grown valid goal s old s old true [] [] [] :=
  ⟨(Took.refl fine).touch (by simp), rfl, Grows.refl old, fun _ _ null mapped => (mapped null).elim,
    fun _ => mapped, fun _ => ⟨rfl, rfl, rfl, rfl⟩, fun less => by simp at less⟩

theorem own (grown : Grown valid goal s old t next ok needs new leaked) (fine : FreeMapOk s)
    (before : Own s old.nodes) : Own t next.nodes := by
  have elsewhere : ∀ x ∈ new, x ∉ old.nodes := fun x member inOld =>
    grown.took.new_not_used member (before.used x inOld)
  refine ⟨grown.grows.nodup before.nodup grown.took.new_nodup elsewhere, fun x member => ?_,
    fun x member => ?_⟩
  · rcases grown.grows.mem_old_or_new member with inOld | inNew
    · exact grown.took.keepsUsed x (before.used x inOld)
    · exact grown.took.new_used inNew
  · rw [grown.took.nodes]
    rcases grown.grows.mem_old_or_new member with inOld | inNew
    · exact before.apart x inOld
    · exact grown.took.new_not_freeMapNodes fine inNew

theorem free_length (grown : Grown valid goal s old t next ok needs new leaked) :
    (freeSectors s.freeMap).length = new.length + (freeSectors t.freeMap).length := by
  rw [grown.took.free, List.length_append]

theorem enough (grown : Grown valid goal s old t next ok needs new leaked) :
    ok = true ↔ needs.length ≤ (freeSectors s.freeMap).length := by
  constructor
  · intro success
    by_contra less
    rw [(grown.short (by omega)).1] at success
    cases success
  · exact fun enough => (grown.done enough).1

theorem trans (early : Grown valid goalA s old t mid true needsA newA leakedA)
    (late : Grown valid goalB t mid u next ok needsB newB leakedB) (fine : FreeMapOk s)
    (proper : ∀ i, goalA i → valid i) (apart : ∀ i, valid i → mid.leaf i ∉ mid.inner) :
    Grown valid (fun i => goalA i ∨ goalB i) s old u next ok (needsA ++ needsB) (newA ++ newB)
      (leakedA ++ leakedB) := by
  have first := early.done (early.enough.mp rfl)
  have left := early.free_length
  have least := early.enough.mp rfl
  refine ⟨early.took.trans late.took (fun _ member => member) early.grows.inner,
    late.opened.trans early.opened, early.grows.trans late.grows, fun i ok null mapped => ?_, fun success i wanted => ?_,
    fun all => ?_, fun less => ?_⟩
  · by_cases middle : mid.leaf i = 0
    · exact late.blank i ok middle mapped
    · rw [late.grows.keep i ok middle, ← early.blank i ok null middle]
      have inNew := early.grows.fresh i ok null middle
      refine late.took.frame_used early.took.ok middle (early.took.new_used inNew) ?_ (apart i ok)
      rw [early.took.nodes]
      exact early.took.new_not_freeMapNodes fine inNew
  · rcases wanted with before | after
    · have mapped := early.full rfl i before
      rw [late.grows.keep i (proper i before) mapped]
      exact mapped
    · exact late.full success i after
  · rw [List.length_append] at all
    have second := late.done (by omega)
    refine ⟨second.1, by rw [first.2.1, second.2.1]; rfl, ?_, second.2.2.2.trans first.2.2.2⟩
    rw [List.length_append, List.length_append]
    omega
  · rw [List.length_append] at less
    have second := late.short (by omega)
    refine ⟨second.1, second.2.1, ?_⟩
    rw [second.2.2, first.2.2.2, List.getElem?_append_right (by omega)]
    rw [show (freeSectors s.freeMap).length - needsA.length = (freeSectors t.freeMap).length by omega]

theorem stop (grown : Grown valid goal s old t next false needs new leaked) (goal' : ι → Prop)
    (more : List BlockKind) : Grown valid goal' s old t next false (needs ++ more) new leaked := by
  have less : (freeSectors s.freeMap).length < needs.length := by
    by_contra enough
    have := (grown.done (by omega)).1
    cases this
  refine ⟨grown.took, grown.opened, grown.grows, grown.blank, (fun never => by cases never), fun all => ?_,
    fun _ => ?_⟩
  · rw [List.length_append] at all
    omega
  · rw [List.getElem?_append_left less]
    exact grown.short less

theorem congr {old' next' : Snapshot BlockSector ι} {goal' : ι → Prop}
    (grown : Grown valid goal s old t next ok needs new leaked)
    (sameOld : old'.nodes = old.nodes ∧ old'.inner = old.inner ∧
      ∀ i, valid i → old'.leaf i = old.leaf i)
    (sameNext : next'.nodes = next.nodes ∧ next'.inner = next.inner ∧
      ∀ i, valid i → next'.leaf i = next.leaf i)
    (goals : ∀ i, goal' i → goal i ∧ valid i) :
    Grown valid goal' s old' t next' ok needs new leaked := by
  refine ⟨sameOld.2.1 ▸ grown.took, grown.opened, grown.grows.congr sameOld sameNext, fun i valid null mapped => ?_,
    fun success i wanted => ?_, grown.done, grown.short⟩
  · rw [sameOld.2.2 i valid] at null
    rw [sameNext.2.2 i valid] at mapped ⊢
    exact grown.blank i valid null mapped
  · rw [sameNext.2.2 i (goals i wanted).2]
    exact grown.full success i (goals i wanted).1

section forests

variable {g : Shape} {row : Nat → BlockSector} {j : Nat} {e : BlockSector} {goal : Nat → Prop}

theorem others {tree : Snapshot BlockSector Nat} (bound : j < g.size) (fine : FreeMapOk s)
    (own : Own s (forestNodes 128 (table s.cache) g row))
    (grown : Grown (fun i => i < 128 ^ g.level j) goal s
      (treeAt 128 (table s.cache) (g.level j) (row j)) t tree ok needs new leaked) :
    ∀ i, i < g.size → i ≠ j →
      Agree 128 (table s.cache) (table t.cache) (inner 128 (table s.cache) (g.level i) (row i)) := by
  intro i small different x member k _
  have inNodes : x ∈ nodes 128 (table s.cache) (g.level i) (row i) := inner_sub_nodes member
  have inForest := mem_forestNodes.mpr ⟨i, small, inNodes⟩
  have nonzero : x ≠ 0 := fun zero => zero_not_mem_forest g row (zero ▸ inForest)
  have kept := grown.took.frame_used fine nonzero (own.used x inForest) (own.apart x inForest)
    fun inJ => different (forestNodes_unique own.nodup small bound inNodes (inner_sub_nodes inJ))
  simp only [table, kept]

theorem forest (bound : j < g.size) (fine : FreeMapOk s)
    (own : Own s (forestNodes 128 (table s.cache) g row))
    (grown : Grown (fun i => i < 128 ^ g.level j) goal s
      (treeAt 128 (table s.cache) (g.level j) (row j)) t
      (treeAt 128 (table t.cache) (g.level j) e) ok needs new leaked) :
    Grown (Within 128 g) (fun p => p.1 = j ∧ goal p.2) s (forestAt 128 (table s.cache) g row) t
      (forestAt 128 (table t.cache) g (Function.update row j e)) ok needs new leaked := by
  have rest := others bound fine own grown
  refine ⟨grown.took.touch fun x member => mem_forestInner.mpr ⟨j, bound, member⟩, grown.opened,
    forest_of_tree bound grown.grows rest, fun p within null mapped => ?_, fun success p wanted => ?_,
    grown.done, grown.short⟩
  · obtain ⟨i, c⟩ := p
    by_cases same : i = j
    · subst same
      simp only [forestLeaf, Function.update_self] at null mapped ⊢
      exact grown.blank c within.2 null mapped
    · simp only [forestLeaf, Function.update_of_ne same] at null mapped
      exact (mapped (((tree_congr (rest i within.1 same)).2.2 c within.2).trans null)).elim
  · obtain ⟨i, c⟩ := p
    obtain ⟨same, wanted⟩ := wanted
    simp only at same wanted
    subst same
    simp only [forestLeaf, Function.update_self]
    exact grown.full success c wanted

end forests

end Grown

def Reserves (l : Nat) (reserve : FlatFs → BlockSector → Nat → Outcome (BlockSector → Sector) BlockSector) :
    Prop :=
  ∀ s e n, FreeMapOk s → Own s (nodes 128 (table s.cache) l e) → 0 < n → n ≤ 128 ^ l →
    ∃ new leaked, Grown (fun i => i < 128 ^ l) (fun i => i < n) s (treeAt 128 (table s.cache) l e)
      (reserve s e n).fs (treeAt 128 (table (reserve s e n).fs.cache) l (reserve s e n).value)
      (reserve s e n).ok (missing 128 (table s.cache) l e n) new leaked ∧
      (e ≠ 0 → (reserve s e n).value = e)

theorem reserveEntries_spec {l : Nat}
    {reserve : FlatFs → BlockSector → Nat → Outcome (BlockSector → Sector) BlockSector}
    (reserves : Reserves l reserve) (count i n : Nat) (row : Nat → BlockSector) (s : FlatFs)
    (bound : i + count ≤ 128) (shares : ∀ d, d < count → d * 128 ^ l < n) (fine : FreeMapOk s)
    (own : Own s (forestNodes 128 (table s.cache) (below 128 l) row)) :
    ∃ new leaked, Grown (Within 128 (below 128 l))
      (fun p => ∃ d, d < count ∧ p.1 = i + d ∧ p.2 < min (n - d * 128 ^ l) (128 ^ l)) s
      (forestAt 128 (table s.cache) (below 128 l) row)
      (reserveEntries reserve (128 ^ l) count i n row s).fs
      (forestAt 128 (table (reserveEntries reserve (128 ^ l) count i n row s).fs.cache) (below 128 l)
        (reserveEntries reserve (128 ^ l) count i n row s).value)
      (reserveEntries reserve (128 ^ l) count i n row s).ok
      (missingRow 128 (table s.cache) l count i n row) new leaked ∧
      ∀ j, row j ≠ 0 → (reserveEntries reserve (128 ^ l) count i n row s).value j = row j := by
  induction count generalizing i n row s with
  | zero =>
    refine ⟨[], [], ?_, fun _ _ => rfl⟩
    refine Grown.refl fine fun p wanted => ?_
    obtain ⟨d, none, -⟩ := wanted
    omega
  | succ count ih =>
    have small : i < 128 := by omega
    have most : 0 < n := by simpa using shares 0 (by omega)
    have unit : 0 < 128 ^ l := Nat.pow_pos (by decide)
    have ownTree : Own s (nodes 128 (table s.cache) l (row i)) :=
      own.sub (forestNodes_part (g := below 128 l) own.nodup (i := i) small)
        fun x member => mem_forestNodes.mpr ⟨i, small, member⟩
    obtain ⟨newA, leakedA, tree, kept⟩ := reserves s (row i) (min n (128 ^ l)) fine ownTree
      (by omega) (by omega)
    have others := Grown.others (g := below 128 l) (j := i) small fine own tree
    have grown := Grown.forest (g := below 128 l) (j := i) small fine own tree
    simp only [reserveEntries, missingRow]
    generalize reserve s (row i) (min n (128 ^ l)) = r at *
    have keptHere : ∀ j, row j ≠ 0 → Function.update row i r.value j = row j := by
      intro j present
      by_cases same : j = i
      · subst same
        rw [Function.update_self, kept present]
      · rw [Function.update_of_ne same]
    cases success : r.ok with
    | false =>
      rw [success] at grown
      simp only [Bool.false_eq_true, if_false]
      exact ⟨newA, leakedA, grown.stop _ _, keptHere⟩
    | true =>
      rw [success] at grown
      simp only [if_true]
      have ownNext := grown.own fine own
      have left : ∀ d, n - min n (128 ^ l) - d * 128 ^ l = n - (d + 1) * 128 ^ l := by
        intro d
        rw [Nat.add_mul, Nat.one_mul]
        omega
      obtain ⟨newB, leakedB, late, keptLater⟩ := ih (i + 1) (n - min n (128 ^ l))
        (Function.update row i r.value) r.fs (by omega) (fun d less => by
          have := shares (d + 1) (by omega)
          rw [Nat.add_mul, Nat.one_mul] at this
          omega) grown.took.ok ownNext
      have needs : missingRow 128 (table r.fs.cache) l count (i + 1) (n - min n (128 ^ l))
          (Function.update row i r.value) =
          missingRow 128 (table s.cache) l count (i + 1) (n - min n (128 ^ l)) row := by
        refine missingRow_congr (fun j low _ => Function.update_of_ne (by omega) _ _)
          fun j low high => others j ?_ (by omega)
        change j < 128
        omega
      rw [needs] at late
      have both := grown.trans late fine
        (fun p wanted => ⟨by rw [wanted.1]; exact small, by have := wanted.2; simp only [below]; omega⟩)
        fun p within => forestLeaf_not_inner ownNext.nodup within
      refine ⟨newA ++ newB, leakedA ++ leakedB, both.congr ⟨rfl, rfl, fun _ _ => rfl⟩
        ⟨rfl, rfl, fun _ _ => rfl⟩ fun p wanted => ?_, fun j present => ?_⟩
      · obtain ⟨d, less, place, inside⟩ := wanted
        refine ⟨?_, ?_, ?_⟩
        · cases d with
          | zero => exact Or.inl ⟨by simpa using place, by simpa using inside⟩
          | succ d =>
            refine Or.inr ⟨d, by omega, by omega, ?_⟩
            rw [left]
            exact inside
        · change p.1 < 128
          omega
        · change p.2 < 128 ^ l
          omega
      · rw [keptLater j (by rw [keptHere j present]; exact present), keptHere j present]

/-- The forest below an index block has grown, and the index block with it: either its new entries
are in it, or the old ones still are. -/
theorem Grown.tree {l n : Nat} {x : BlockSector} {s mid t : FlatFs} {row : Nat → BlockSector}
    {ok : Bool} {needs : List BlockKind} {new leaked lost : List BlockSector}
    {goal : Nat × Nat → Prop} (present : x ≠ 0)
    (grown : Grown (Within 128 (below 128 l)) goal s
      (forestAt 128 (table s.cache) (below 128 l) (table s.cache x)) mid
      (forestAt 128 (table mid.cache) (below 128 l) row) ok needs new leaked)
    (goals : ∀ i, i < n → i < 128 ^ (l + 1) ∧ goal (i / 128 ^ l, i % 128 ^ l))
    (took : Took s t new (inner 128 (table s.cache) (l + 1) x))
    (opened : t.openInodes = mid.openInodes)
    (grows : ForestGrows 128 (below 128 l) (table s.cache) (table s.cache x) (table t.cache)
      (table t.cache x) new lost)
    (leaves : ∀ p, Within 128 (below 128 l) p →
      (forestLeaf 128 (table t.cache) (below 128 l) (table t.cache x) p = 0 ∧ ok = false) ∨
      forestLeaf 128 (table t.cache) (below 128 l) (table t.cache x) p =
        forestLeaf 128 (table mid.cache) (below 128 l) row p)
    (kept : ∀ p, Within 128 (below 128 l) p →
      forestLeaf 128 (table mid.cache) (below 128 l) row p ≠ 0 →
        t.cache (forestLeaf 128 (table mid.cache) (below 128 l) row p) =
          mid.cache (forestLeaf 128 (table mid.cache) (below 128 l) row p))
    (clean : ok = true → lost = leaked) (zero : t.cache 0 = mid.cache 0) :
    Grown (fun i => i < 128 ^ (l + 1)) (fun i => i < n) s (treeAt 128 (table s.cache) (l + 1) x) t
      (treeAt 128 (table t.cache) (l + 1) x) ok needs new lost := by
  refine ⟨took, opened.trans grown.opened, tree_of_forest present grows (fun _ _ => rfl) (fun _ _ _ _ => rfl),
    fun i bound null mapped => ?_, fun success i wanted => ?_, fun all => ?_, fun less => ?_⟩
  · have within := within_below bound
    simp only [leaf_succ 128 _ present] at null mapped ⊢
    rcases leaves _ within with none | same
    · exact (mapped none.1).elim
    · rw [same] at mapped ⊢
      rw [kept _ within mapped]
      exact grown.blank _ within null mapped
  · obtain ⟨bound, wanted⟩ := goals i wanted
    have within := within_below bound
    simp only [leaf_succ 128 _ present]
    rcases leaves _ within with none | same
    · rw [success] at none
      cases none.2
    · rw [same]
      exact grown.full success _ wanted
  · obtain ⟨success, none, count, same⟩ := grown.done all
    exact ⟨success, (clean success).trans none, count, zero.trans same⟩
  · obtain ⟨failed, none, same⟩ := grown.short less
    refine ⟨failed, ?_, zero.trans same⟩
    have total := grown.free_length
    have again : (freeSectors s.freeMap).length = new.length + (freeSectors t.freeMap).length := by
      rw [took.free, List.length_append]
    rw [none, List.length_nil] at total
    exact List.length_eq_zero_iff.mp (by omega)

theorem share_positive {l n d : Nat} (less : d < (n + 128 ^ l - 1) / 128 ^ l) : d * 128 ^ l < n := by
  have unit : 0 < 128 ^ l := Nat.pow_pos (by decide)
  have most := (Nat.le_div_iff_mul_le unit).mp (Nat.succ_le_of_lt less)
  rw [Nat.succ_mul] at most
  omega

theorem indexUnit {l : Nat} (shallow : l ≤ 1) : (if l + 1 = 1 then 1 else INDIRECT_BLOCKS_PER_SECTOR) = 128 ^ l := by
  have cases : l = 0 ∨ l = 1 := by omega
  rcases cases with rfl | rfl <;> rfl

/-- The entries of an index block that is in place are filled in, and it is written back if there
was room for all of them. -/
theorem fillIndex_spec {l n : Nat} {x : BlockSector} {s : FlatFs}
    {reserve : FlatFs → BlockSector → Nat → Outcome (BlockSector → Sector) BlockSector}
    (reserves : Reserves l reserve) (present : x ≠ 0) (fine : FreeMapOk s)
    (own : Own s (nodes 128 (table s.cache) (l + 1) x)) (bound : n ≤ 128 ^ (l + 1)) :
    let r := reserveEntries reserve (128 ^ l) ((n + 128 ^ l - 1) / 128 ^ l) 0 n (table s.cache x) s
    let t := if r.ok then r.fs.bufferCacheWrite x (sectorOfWords r.value) else r.fs
    ∃ new leaked, Grown (fun i => i < 128 ^ (l + 1)) (fun i => i < n) s
      (treeAt 128 (table s.cache) (l + 1) x) t (treeAt 128 (table t.cache) (l + 1) x) r.ok
      (missingRow 128 (table s.cache) l ((n + 128 ^ l - 1) / 128 ^ l) 0 n (table s.cache x))
      new leaked := by
  intro r t
  have unit : 0 < 128 ^ l := Nat.pow_pos (by decide)
  have most : (n + 128 ^ l - 1) / 128 ^ l ≤ 128 := by
    rw [Nat.div_le_iff_le_mul_add_pred unit]
    rw [pow_succ] at bound
    omega
  rw [nodes_succ 128 _ present] at own
  have apart := (List.nodup_cons.mp own.nodup).1
  have ownForest : Own s (forestNodes 128 (table s.cache) (below 128 l) (table s.cache x)) :=
    own.sub (List.nodup_cons.mp own.nodup).2 fun y member => List.mem_cons_of_mem x member
  obtain ⟨new, leaked, grown, keptRow⟩ := reserveEntries_spec reserves _ 0 n (table s.cache x) s
    (by omega) (fun _ => share_positive) fine ownForest
  have goals : ∀ i, i < n → i < 128 ^ (l + 1) ∧ ∃ d, d < (n + 128 ^ l - 1) / 128 ^ l ∧
      (i / 128 ^ l, i % 128 ^ l).1 = 0 + d ∧
      (i / 128 ^ l, i % 128 ^ l).2 < min (n - d * 128 ^ l) (128 ^ l) := by
    intro i wanted
    refine ⟨by omega, i / 128 ^ l, ?_, by simp, ?_⟩
    · rw [Nat.div_lt_iff_lt_mul unit]
      have := Nat.div_add_mod (n + 128 ^ l - 1) (128 ^ l)
      have := Nat.mod_lt (n + 128 ^ l - 1) unit
      rw [Nat.mul_comm]
      omega
    · have parts := Nat.div_add_mod i (128 ^ l)
      have small := Nat.mod_lt i unit
      rw [Nat.mul_comm] at parts
      simp only
      omega
  change Grown _ _ _ _ r.fs (forestAt 128 (table r.fs.cache) (below 128 l) r.value) r.ok _ new leaked
    at grown
  change ∀ j, table s.cache x j ≠ 0 → r.value j = table s.cache x j at keptRow
  have ownNext := grown.own fine ownForest
  have inTree : ∀ y ∈ forestInner 128 (table s.cache) (below 128 l) (table s.cache x),
      y ∈ inner 128 (table s.cache) (l + 1) x := by
    intro y member
    rw [inner_succ 128 _ present]
    exact List.mem_cons_of_mem x member
  have notNew : x ∉ new := fun member =>
    grown.took.new_not_used member (own.used x List.mem_cons_self)
  have notNext : x ∉ forestNodes 128 (table r.fs.cache) (below 128 l) r.value := fun member =>
    (grown.grows.mem_old_or_new member).elim apart notNew
  have same : r.fs.cache x = s.cache x :=
    grown.took.frame_used fine present (own.used x List.mem_cons_self)
      (own.apart x List.mem_cons_self) fun member => apart (forestInner_sub_nodes member)
  have took := grown.took.touch inTree
  cases success : r.ok with
  | true =>
    have written : t = r.fs.bufferCacheWrite x (sectorOfWords r.value) := if_pos success
    have elsewhere : ∀ y, y ≠ x → t.cache y = r.fs.cache y := fun y different => by
      rw [written]
      exact Function.update_of_ne different _ _
    have row : ∀ j, j < 128 → table t.cache x j = r.value j := fun j small => by
      rw [written]
      simp only [table, flat_write, Function.update_self]
      exact sectorWord_sectorOfWords r.value small
    have agree : Agree 128 (table r.fs.cache) (table t.cache)
        (forestInner 128 (table r.fs.cache) (below 128 l) r.value) := fun y member j _ => by
      simp only [table]
      rw [elsewhere y fun here => notNext (here ▸ forestInner_sub_nodes member)]
    have forest := forest_congr (g := below 128 l) (u := table t.cache x) row agree
    refine ⟨new, leaked, (success ▸ grown).tree present goals ?_ (by rw [written]; rfl) ?_ (fun p within => Or.inr ?_)
      (fun p within mapped => ?_) (fun _ => rfl) (elsewhere 0 (Ne.symm present))⟩
    · rw [written]
      refine took.write (Or.inr (Or.inr ?_)) (own.apart x List.mem_cons_self) _
      rw [inner_succ 128 _ present]
      exact List.mem_cons_self
    · exact grown.grows.congr ⟨rfl, rfl, fun _ _ => rfl⟩ forest
    · exact forest.2.2 p within
    · exact elsewhere _ fun here => notNext (here ▸ forestLeaf_mem within mapped)
  | false =>
    have left : t = r.fs := if_neg (by simp [success])
    rw [left]
    obtain ⟨lost, forgotten⟩ := forest_forget (t := table s.cache x) grown.grows
      fun j _ mapped => keptRow j mapped
    have row : table r.fs.cache x = table s.cache x := by
      funext j
      simp only [table, same]
    refine ⟨new, lost, (success ▸ grown).tree present goals took rfl (row ▸ forgotten)
      (fun p within => ?_) (fun _ _ _ => rfl) (fun never => by cases never) rfl⟩
    rw [row]
    by_cases null : table s.cache x p.1 = 0
    · refine Or.inl ⟨?_, rfl⟩
      simp only [forestLeaf, null, leaf_null]
    · refine Or.inr ?_
      simp only [forestLeaf, keptRow p.1 null]

section allocator

variable {allocate : FlatFs → Option BlockSector × FlatFs}

theorem reserveSector_spec (allocates : Allocates allocate) :
    Reserves 0 (inodeReserveIndirect allocate 0) := by
  intro s e n fine own some bound
  simp only [inodeReserveIndirect, reserveSector]
  by_cases present : e = 0
  · subst present
    simp only [if_true]
    cases free : freeSectors s.freeMap with
    | nil =>
      simp only [(allocates s fine).1 free]
      refine ⟨[], [], ⟨(Took.refl fine).touch (by simp), rfl, Grows.refl _, fun _ _ _ mapped =>
        (mapped rfl).elim, (fun never => by cases never), fun all => ?_, fun _ => ?_⟩, fun absent =>
        (absent rfl).elim⟩
      · simp [free, missing] at all
      · exact ⟨rfl, free, by simp [free, missing]⟩
    | cons x rest =>
      obtain ⟨s', run, took, same, opened⟩ := (allocates s fine).2 x rest free
      have nonzero : x ≠ 0 := took.new_ne_zero fine (List.mem_singleton_self x)
      have apart := took.new_not_freeMapNodes fine (List.mem_singleton_self x)
      simp only [run]
      refine ⟨[x], [], ⟨(took.write (Or.inr (Or.inl (List.mem_singleton_self x))) apart zeros).touch
        (by simp), opened, tree_of_fresh_data nonzero, fun i _ _ _ => ?_, fun _ i _ => nonzero, fun _ => ?_,
        fun less => ?_⟩, fun absent => (absent rfl).elim⟩
      · simp only [leaf, flat_write, Function.update_self]
      · refine ⟨rfl, rfl, by simp [missing], ?_⟩
        rw [flat_write]
        simp only [Function.update_of_ne (Ne.symm nonzero)]
        exact same
      · simp [free, missing] at less
  · simp only [present, if_false]
    have none : missing 128 (table s.cache) 0 e n = [] := if_neg present
    rw [none]
    exact ⟨[], [], Grown.refl fine fun i _ => present, fun _ => trivial⟩

/-- With no sector left, an empty entry stays empty; where it wanted an index block, sector 0
has been zeroed. -/
theorem reserve_exhausted (allocates : Allocates allocate) (l n : Nat) (s : FlatFs)
    (fine : FreeMapOk s) (full : freeSectors s.freeMap = []) (some : 0 < n) :
    inodeReserveIndirect allocate l s 0 n =
      ⟨false, 0, if l = 0 then s else s.bufferCacheWrite 0 zeros⟩ := by
  induction l generalizing s n with
  | zero => simp [inodeReserveIndirect, reserveSector, (allocates s fine).1 full]
  | succ l ih =>
    have took := (Took.refl fine).write (Or.inl rfl) (zero_not_mem_freeMapNodes s) zeros
    generalize units : (if l + 1 = 1 then 1 else INDIRECT_BLOCKS_PER_SECTOR) = unit
    have positive : 0 < unit := by
      rw [← units]
      split <;> decide
    obtain ⟨count, shares⟩ : ∃ count, divRoundUp n unit = count + 1 := by
      refine ⟨divRoundUp n unit - 1, ?_⟩
      have : 0 < divRoundUp n unit := Nat.div_pos (by omega) positive
      omega
    have below := ih (min n unit) (s.bufferCacheWrite 0 zeros) took.ok full (by omega)
    have row : sectorWord ((s.bufferCacheWrite 0 zeros).cache 0) 0 = 0 := by
      simp only [flat_write, Function.update_self, sectorWord_zeros]
    have again : (s.bufferCacheWrite 0 zeros).bufferCacheWrite 0 zeros = s.bufferCacheWrite 0 zeros := by
      simp [flat_write]
    simp only [inodeReserveIndirect, obtainIndex, if_true, (allocates s fine).1 full, Option.getD_none,
      flat_read, units, shares, reserveEntries, row, below]
    simp only [Bool.false_eq_true, if_false, again, ite_self, Nat.add_eq_zero_iff, one_ne_zero, and_false]

theorem reserves_succ (allocates : Allocates allocate) {l : Nat} (shallow : l ≤ 1)
    (reserves : Reserves l (inodeReserveIndirect allocate l)) :
    Reserves (l + 1) (inodeReserveIndirect allocate (l + 1)) := by
  intro s e n fine own some bound
  have units := indexUnit shallow
  -- what follows once the index block `x` is in place
  have result : ∀ (index : BlockSector × FlatFs), obtainIndex allocate s e = index →
      let r := reserveEntries (inodeReserveIndirect allocate l) (128 ^ l)
        ((n + 128 ^ l - 1) / 128 ^ l) 0 n (table index.2.cache index.1) index.2
      inodeReserveIndirect allocate (l + 1) s e n = ⟨r.ok, index.1,
        if r.ok then r.fs.bufferCacheWrite index.1 (sectorOfWords r.value) else r.fs⟩ := by
    intro index obtained r
    simp only [inodeReserveIndirect, obtained, flat_read, units, divRoundUp]
    change (if r.ok then _ else _) = _
    cases r.ok <;> rfl
  by_cases present : e = 0
  · subst present
    have needs : missing 128 (table s.cache) (l + 1) 0 n = [.index] ++
        missingRow 128 (table s.cache) l ((n + 128 ^ l - 1) / 128 ^ l) 0 n fun _ => 0 := by
      rw [missing_succ]
      simp
    rw [needs]
    cases free : freeSectors s.freeMap with
    | nil =>
      rw [reserve_exhausted allocates (l + 1) n s fine free some]
      have took := (Took.refl fine).write (Or.inl rfl) (zero_not_mem_freeMapNodes s) zeros
      simp only [Nat.add_eq_zero_iff, one_ne_zero, and_false, if_false]
      refine ⟨[], [], ⟨took.touch (by simp), rfl, ?_, fun _ _ _ mapped => (mapped ?_).elim,
        (fun never => by cases never), fun all => ?_, fun _ => ⟨rfl, free, ?_⟩⟩,
        fun absent => (absent rfl).elim⟩
      · refine (Grows.refl (treeAt 128 (table s.cache) (l + 1) 0)).congr ⟨rfl, rfl, fun _ _ => rfl⟩ ?_
        simp only [nodes_null, inner_null, leaf_null, implies_true, and_self]
      · simp only [leaf_null]
      · simp [free] at all
      · simp [free, flat_write]
    | cons x rest =>
      obtain ⟨s', run, took, same, opened⟩ := (allocates s fine).2 x rest free
      have nonzero : x ≠ 0 := took.new_ne_zero fine (List.mem_singleton_self x)
      have apart := took.new_not_freeMapNodes fine (List.mem_singleton_self x)
      have blank : ∀ j, table (s'.bufferCacheWrite x zeros).cache x j = 0 := by
        intro j
        simp only [table, flat_write, Function.update_self, sectorWord_zeros]
      have obtained : obtainIndex allocate s 0 = (x, s'.bufferCacheWrite x zeros) := by
        simp only [obtainIndex, if_true, run, Option.getD_some]
      have early : Grown (fun i => i < 128 ^ (l + 1)) (fun _ => False) s
          (treeAt 128 (table s.cache) (l + 1) 0) (s'.bufferCacheWrite x zeros)
          (treeAt 128 (table (s'.bufferCacheWrite x zeros).cache) (l + 1) x) true [.index] [x] [] := by
        refine ⟨(took.write (Or.inr (Or.inl (List.mem_singleton_self x))) apart zeros).touch (by simp),
          opened, tree_of_fresh_index nonzero fun j _ => blank j, fun i bound _ mapped => ?_,
          fun _ _ never => never.elim, fun _ => ⟨rfl, rfl, rfl, ?_⟩, fun less => ?_⟩
        · refine (mapped ?_).elim
          simp only [leaf_succ 128 _ nonzero, forestLeaf]
          rw [blank, leaf_null]
        · rw [flat_write]
          simp only [Function.update_of_ne (Ne.symm nonzero)]
          exact same
        · simp [free] at less
      have ownIndex := early.own fine own
      obtain ⟨new, leaked, late⟩ := fillIndex_spec reserves nonzero early.took.ok ownIndex bound
      have rows : missingRow 128 (table (s'.bufferCacheWrite x zeros).cache) l
          ((n + 128 ^ l - 1) / 128 ^ l) 0 n (table (s'.bufferCacheWrite x zeros).cache x) =
          missingRow 128 (table s.cache) l ((n + 128 ^ l - 1) / 128 ^ l) 0 n fun _ => 0 :=
        missingRow_congr (fun j _ _ => blank j) fun j _ _ y member => by
          simp only [inner_null, List.not_mem_nil] at member
      rw [rows] at late
      have both := early.trans late fine (fun _ never => never.elim)
        fun i bound => leaf_not_inner ownIndex.nodup bound
      rw [result _ obtained]
      refine ⟨_, _, both.congr ⟨rfl, rfl, fun _ _ => rfl⟩ ⟨rfl, rfl, fun _ _ => rfl⟩
        fun i wanted => ⟨Or.inr wanted, by omega⟩, fun absent => (absent rfl).elim⟩
  · have obtained : obtainIndex allocate s e = (e, s) := if_neg present
    have needs : missing 128 (table s.cache) (l + 1) e n =
        missingRow 128 (table s.cache) l ((n + 128 ^ l - 1) / 128 ^ l) 0 n (table s.cache e) := by
      rw [missing_succ, if_neg present, if_neg present]
      rfl
    rw [needs, result _ obtained]
    obtain ⟨new, leaked, grown⟩ := fillIndex_spec reserves present fine own bound
    exact ⟨new, leaked, grown, fun _ => rfl⟩

theorem inodeReserveIndirect_spec (allocates : Allocates allocate) {l : Nat} (shallow : l ≤ 2) :
    Reserves l (inodeReserveIndirect allocate l) := by
  induction l with
  | zero => exact reserveSector_spec allocates
  | succ l ih => exact reserves_succ allocates (by omega) (ih (by omega))

end allocator

/-! ### The block tables of an inode -/

abbrev inodeAt (v : Disk) (d : InodeDisk) : Snapshot BlockSector (Nat × Nat) :=
  forestAt 128 (table v) inodeShape d.entries

theorem inodeAt_leaf (v : Disk) (d : InodeDisk) (i : Nat) :
    (inodeAt v d).leaf (position i) = blockAt v d i := by
  simp only [blockAt]

theorem inodeAt_apart {s : FlatFs} {d : InodeDisk} (own : Own s (inodeNodes s.cache d)) :
    ∀ p, Within 128 inodeShape p → (inodeAt s.cache d).leaf p ∉ (inodeAt s.cache d).inner := by
  intro p within
  simp only 
  exact forestLeaf_not_inner own.nodup within

structure Extends (d d' : InodeDisk) : Prop where
  entries : ∀ j, d.entries j ≠ 0 → d'.entries j = d.entries j
  isDirWord : d'.isDirWord = d.isDirWord
  length : d'.length = d.length
  magic : d'.magic = d.magic

theorem Extends.refl (d : InodeDisk) : Extends d d := ⟨fun _ _ => rfl, rfl, rfl, rfl⟩

theorem Extends.trans {d e f : InodeDisk} (early : Extends d e) (late : Extends e f) : Extends d f where
  entries j present := by
    rw [late.entries j (by rw [early.entries j present]; exact present), early.entries j present]
  isDirWord := late.isDirWord.trans early.isDirWord
  length := late.length.trans early.length
  magic := late.magic.trans early.magic

def SameTree (v w : Disk) (d e : InodeDisk) (j : Nat) : Prop :=
  e.entries j = d.entries j ∧
    Agree 128 (table v) (table w) (inner 128 (table v) (inodeShape.level j) (d.entries j))

theorem SameTree.trans {v w u : Disk} {d e f : InodeDisk} {j : Nat} (early : SameTree v w d e j)
    (late : SameTree w u e f j) : SameTree v u d f j := by
  refine ⟨late.1.trans early.1, fun x member k small => ?_⟩
  have same := (tree_congr early.2).2.1
  rw [← early.2 x member k small]
  refine late.2 x ?_ k small
  rw [early.1, same]
  exact member

theorem direct_eq_entries (d : InodeDisk) {i : Nat} (direct : i < 123) : d.direct i = d.entries i := by
  simp only [InodeDisk.entries, direct, if_true]

theorem entries_setDirect (d : InodeDisk) {i : Nat} (direct : i < 123) (e : BlockSector) :
    (d.setDirect i e).entries = Function.update d.entries i e := by
  funext j
  by_cases same : j = i
  · subst same
    simp [InodeDisk.entries, InodeDisk.direct, InodeDisk.setDirect, direct]
  · simp [InodeDisk.entries, InodeDisk.direct, InodeDisk.setDirect, same]

theorem entries_setIndirect (d : InodeDisk) (e : BlockSector) :
    ({ d with indirectBlock := e } : InodeDisk).entries = Function.update d.entries 123 e := by
  funext j
  by_cases same : j = 123
  · subst same
    simp [InodeDisk.entries]
  · simp [InodeDisk.entries, InodeDisk.direct, same]

theorem entries_setDoublyIndirect (d : InodeDisk) (e : BlockSector) :
    ({ d with doublyIndirectBlock := e } : InodeDisk).entries = Function.update d.entries 124 e := by
  funext j
  by_cases same : j = 124
  · subst same
    simp [InodeDisk.entries]
  · simp [InodeDisk.entries, InodeDisk.direct, same]

theorem update_kept {row : Nat → BlockSector} {i : Nat} {e : BlockSector}
    (kept : row i ≠ 0 → e = row i) (j : Nat) (present : row j ≠ 0) :
    Function.update row i e j = row j := by
  by_cases same : j = i
  · subst same
    rw [Function.update_self, kept present]
  · rw [Function.update_of_ne same]

theorem Grown.inode {goal : Nat → Prop} {s t : FlatFs} {d d' : InodeDisk} {j : Nat}
    {e : BlockSector} {ok : Bool} {needs : List BlockKind} {new leaked : List BlockSector}
    (bound : j < 125) (fine : FreeMapOk s) (own : Own s (inodeNodes s.cache d))
    (set : d'.entries = Function.update d.entries j e)
    (grown : Grown (fun i => i < 128 ^ inodeShape.level j) goal s
      (treeAt 128 (table s.cache) (inodeShape.level j) (d.entries j)) t
      (treeAt 128 (table t.cache) (inodeShape.level j) e) ok needs new leaked) :
    Grown (Within 128 inodeShape) (fun p => p.1 = j ∧ goal p.2) s (inodeAt s.cache d) t
      (inodeAt t.cache d') ok needs new leaked ∧
      ∀ i, i < 125 → i ≠ j → SameTree s.cache t.cache d d' i := by
  refine ⟨?_, fun i small different => ⟨?_, ?_⟩⟩
  · unfold inodeAt
    rw [set]
    exact Grown.forest (g := inodeShape) bound fine own grown
  · rw [set, Function.update_of_ne different]
  · exact Grown.others (g := inodeShape) bound fine own grown i small different

theorem entries_indirect (d : InodeDisk) : d.entries 123 = d.indirectBlock := rfl

theorem entries_doublyIndirect (d : InodeDisk) : d.entries 124 = d.doublyIndirectBlock := rfl

def missingDirect (d : InodeDisk) : Nat → Nat → List BlockKind
  | 0, _ => []
  | count + 1, i => (if d.entries i = 0 then [.data] else []) ++ missingDirect d count (i + 1)

theorem missingDirect_congr {d e : InodeDisk} {count i : Nat}
    (same : ∀ j, i ≤ j → j < i + count → e.entries j = d.entries j) :
    missingDirect e count i = missingDirect d count i := by
  induction count generalizing i with
  | zero => rfl
  | succ count ih =>
    rw [missingDirect, missingDirect, same i le_rfl (by omega),
      ih fun j low high => same j (by omega) (by omega)]

section allocator

variable {allocate : FlatFs → Option BlockSector × FlatFs}

theorem reserveTree_spec (allocates : Allocates allocate) {s : FlatFs} {d : InodeDisk} {j l n : Nat}
    (bound : j < 125) (level : inodeShape.level j = l) (fine : FreeMapOk s)
    (own : Own s (inodeNodes s.cache d)) (some : 0 < n) (most : n ≤ 128 ^ l) {d' : InodeDisk}
    (set : d'.entries = Function.update d.entries j
      (inodeReserveIndirect allocate l s (d.entries j) n).value) :
    ∃ new leaked, Grown (Within 128 inodeShape) (fun p => p.1 = j ∧ p.2 < n) s (inodeAt s.cache d)
      (inodeReserveIndirect allocate l s (d.entries j) n).fs
      (inodeAt (inodeReserveIndirect allocate l s (d.entries j) n).fs.cache d')
      (inodeReserveIndirect allocate l s (d.entries j) n).ok
      (missing 128 (table s.cache) l (d.entries j) n) new leaked ∧
      (∀ k, d.entries k ≠ 0 → d'.entries k = d.entries k) ∧
      ∀ i, i < 125 → i ≠ j → SameTree s.cache
        (inodeReserveIndirect allocate l s (d.entries j) n).fs.cache d d' i := by
  subst level
  have shallow : inodeShape.level j ≤ 2 := by
    unfold inodeShape
    simp only
    split
    · omega
    · split <;> omega
  have ownTree : Own s (nodes 128 (table s.cache) (inodeShape.level j) (d.entries j)) :=
    own.sub (forestNodes_part (g := inodeShape) own.nodup (i := j) bound) fun x member =>
      mem_forestNodes.mpr ⟨j, bound, member⟩
  obtain ⟨new, leaked, tree, kept⟩ := inodeReserveIndirect_spec allocates shallow s (d.entries j) n
    fine ownTree some most
  obtain ⟨grown, others⟩ := Grown.inode bound fine own set tree
  exact ⟨new, leaked, grown, fun k present => by rw [set]; exact update_kept kept k present, others⟩

theorem reserveDirect_spec (allocates : Allocates allocate) (count i : Nat) (d : InodeDisk)
    (s : FlatFs) (bound : i + count ≤ 123) (fine : FreeMapOk s)
    (own : Own s (inodeNodes s.cache d)) :
    ∃ new leaked, Grown (Within 128 inodeShape) (fun p => ∃ c, c < count ∧ p = (i + c, 0)) s
      (inodeAt s.cache d) (reserveDirect allocate count i d s).fs
      (inodeAt (reserveDirect allocate count i d s).fs.cache (reserveDirect allocate count i d s).value)
      (reserveDirect allocate count i d s).ok (missingDirect d count i) new leaked ∧
      Extends d (reserveDirect allocate count i d s).value ∧
      ∀ j, j < 125 → (j < i ∨ i + count ≤ j) → SameTree s.cache
        (reserveDirect allocate count i d s).fs.cache d (reserveDirect allocate count i d s).value j := by
  induction count generalizing i d s with
  | zero =>
    refine ⟨[], [], Grown.refl fine fun p wanted => ?_, Extends.refl d, fun _ _ _ => ⟨rfl, fun _ _ _ _ => rfl⟩⟩
    obtain ⟨c, none, -⟩ := wanted
    omega
  | succ count ih =>
    have direct : i < 123 := by omega
    obtain ⟨newA, leakedA, grown, kept, others⟩ := reserveTree_spec (l := 0) (n := 1) allocates
      (show i < 125 by omega) (if_pos direct) fine own (by omega) (by simp)
      (entries_setDirect d direct _)
    simp only [reserveDirect, missingDirect, direct_eq_entries d direct]
    change Grown _ _ _ _ (reserveSector allocate s (d.entries i)).fs (inodeAt
      (reserveSector allocate s (d.entries i)).fs.cache
      (d.setDirect i (reserveSector allocate s (d.entries i)).value))
      (reserveSector allocate s (d.entries i)).ok (if d.entries i = 0 then [.data] else []) _ _ at grown
    change ∀ k, d.entries k ≠ 0 →
      (d.setDirect i (reserveSector allocate s (d.entries i)).value).entries k = d.entries k at kept
    change ∀ k, k < 125 → k ≠ i → SameTree s.cache (reserveSector allocate s (d.entries i)).fs.cache d
      (d.setDirect i (reserveSector allocate s (d.entries i)).value) k at others
    generalize reserveSector allocate s (d.entries i) = r at *
    have extended : Extends d (d.setDirect i r.value) := ⟨kept, rfl, rfl, rfl⟩
    cases success : r.ok with
    | false =>
      rw [success] at grown
      simp only [Bool.false_eq_true, if_false]
      exact ⟨newA, leakedA, grown.stop _ _, extended, fun j small out => others j small (by omega)⟩
    | true =>
      rw [success] at grown
      simp only [if_true]
      have ownNext := grown.own fine own
      obtain ⟨newB, leakedB, late, extendedLater, othersLater⟩ := ih (i + 1) (d.setDirect i r.value)
        r.fs (by omega) grown.took.ok ownNext
      have needs : missingDirect (d.setDirect i r.value) count (i + 1) = missingDirect d count (i + 1) :=
        missingDirect_congr fun j low high => (others j (by omega) (by omega)).1
      rw [needs] at late
      have proper : ∀ p : Nat × Nat, p.1 = i ∧ p.2 < 1 → Within 128 inodeShape p := by
        rintro p ⟨same, small⟩
        refine ⟨by rw [same]; exact show i < 125 by omega, ?_⟩
        rw [show p.2 = 0 by omega]
        exact Nat.pow_pos (by decide)
      have both := grown.trans late fine proper (inodeAt_apart ownNext)
      refine ⟨newA ++ newB, leakedA ++ leakedB, both.congr ⟨rfl, rfl, fun _ _ => rfl⟩
        ⟨rfl, rfl, fun _ _ => rfl⟩ fun p wanted => ?_, extended.trans extendedLater,
        fun j small out => (others j small (by omega)).trans (othersLater j small (by omega))⟩
      obtain ⟨c, less, rfl⟩ := wanted
      refine ⟨?_, show i + c < 125 by omega, Nat.pow_pos (by decide)⟩
      cases c with
      | zero => exact Or.inl ⟨rfl, by omega⟩
      | succ c => exact Or.inr ⟨c, by omega, by rw [Nat.add_assoc, Nat.add_comm 1 c]⟩

/-- The sectors that `inode_reserve` has to add for the first `n` sectors of a file, in the order in
which it comes to them. -/
def inodeMissing (v : Disk) (d : InodeDisk) (n : Nat) : List BlockKind :=
  missingDirect d (min n 123) 0 ++
    ((if 123 < n then missing 128 (table v) 1 (d.entries 123) (min (n - 123) 128) else []) ++
      if 251 < n then missing 128 (table v) 2 (d.entries 124) (min (n - 251) 16384) else [])

theorem position_cases (i : Nat) : (i < 123 ∧ position i = (i, 0)) ∨
    (123 ≤ i ∧ i < 251 ∧ position i = (123, i - 123)) ∨ (251 ≤ i ∧ position i = (124, i - 251)) := by
  unfold position
  by_cases direct : i < 123
  · exact Or.inl ⟨direct, if_pos direct⟩
  · by_cases single : i < 251
    · exact Or.inr (Or.inl ⟨by omega, single, by rw [if_neg direct, if_pos single]⟩)
    · exact Or.inr (Or.inr ⟨by omega, by rw [if_neg direct, if_neg single]⟩)

theorem missing_sameTree {v w : Disk} {d e : InodeDisk} {j l n : Nat}
    (level : inodeShape.level j = l) (bound : n ≤ 128 ^ l) (same : SameTree v w d e j) :
    missing 128 (table w) l (e.entries j) n = missing 128 (table v) l (d.entries j) n := by
  subst level
  rw [same.1]
  exact missing_congr bound same.2

/-- `inode_reserve` fills in the tables for the first `n` sectors of a file, as far as the free map
reaches. -/
theorem inodeReserve_spec (allocates : Allocates allocate) {s : FlatFs} {d : InodeDisk} {length : Int}
    (fine : FreeMapOk s) (own : Own s (inodeNodes s.cache d)) (nonneg : 0 ≤ length) :
    ∃ new leaked reached, Grown (Within 128 inodeShape)
      (fun p => ∃ i, i < bytesToSectors length ∧ i < MAX_SECTORS ∧ p = position i) s
      (inodeAt s.cache d) (inodeReserve allocate s d length).fs
      (inodeAt (inodeReserve allocate s d length).fs.cache (inodeReserve allocate s d length).value)
      reached (inodeMissing s.cache d (bytesToSectors length)) new leaked ∧
      (inodeReserve allocate s d length).ok = (reached && decide (bytesToSectors length ≤ MAX_SECTORS)) ∧
      Extends d (inodeReserve allocate s d length).value := by
  obtain ⟨newA, leakedA, first, extendedA, othersA⟩ := reserveDirect_spec allocates
    (min (bytesToSectors length) 123) 0 d s (by omega) fine own
  unfold inodeReserve
  rw [if_neg (by omega)]
  simp only [DIRECT_BLOCKS_COUNT, INDIRECT_BLOCKS_PER_SECTOR, Nat.reduceMul]
  generalize bytesToSectors length = n at *
  generalize reserveDirect allocate (min n 123) 0 d s = r at *
  have ownA := first.own fine own
  cases okA : r.ok with
  | false =>
    rw [okA] at first
    exact ⟨newA, leakedA, false, first.stop _ _, by simp [okA], extendedA⟩
  | true =>
  rw [okA] at first
  simp only [Bool.true_eq_false, if_false]
  by_cases few : n ≤ 123
  · rw [if_pos (by omega)]
    refine ⟨newA, leakedA, true, ?_, by simp only [okA, MAX_SECTORS]; simp; omega, extendedA⟩
    have needs : inodeMissing s.cache d n = missingDirect d (min n 123) 0 := by
      rw [inodeMissing, if_neg (by omega), if_neg (by omega), List.append_nil, List.append_nil]
    rw [needs]
    refine first.congr ⟨rfl, rfl, fun _ _ => rfl⟩ ⟨rfl, rfl, fun _ _ => rfl⟩ fun p wanted => ?_
    obtain ⟨i, less, small, rfl⟩ := wanted
    refine ⟨⟨i, by omega, ?_⟩, within_position small⟩
    rcases position_cases i with ⟨-, same⟩ | ⟨big, -⟩ | ⟨big, -⟩
    · rw [same, Nat.zero_add]
    · omega
    · omega
  rw [if_neg (by omega)]
  obtain ⟨newB, leakedB, second, keptB, othersB⟩ := reserveTree_spec (j := 123) (l := 1)
    (n := min (n - min n 123) 128) allocates (by omega) (by rfl) first.took.ok ownA (by omega) (by omega)
    (entries_setIndirect r.value _)
  rw [entries_indirect] at second keptB othersB
  generalize inodeReserveIndirect allocate 1 r.fs r.value.indirectBlock _ = r₁ at *
  have properA : ∀ p : Nat × Nat, (∃ c, c < min n 123 ∧ p = (0 + c, 0)) → Within 128 inodeShape p := by
    rintro p ⟨c, less, rfl⟩
    exact ⟨show 0 + c < 125 by omega, Nat.pow_pos (by decide)⟩
  have properB : ∀ p : Nat × Nat, p.1 = 123 ∧ p.2 < min (n - min n 123) 128 →
      Within 128 inodeShape p := by
    rintro ⟨j, c⟩ ⟨same, less⟩
    simp only at same less
    subst same
    exact ⟨show 123 < 125 by omega, show c < 128 ^ 1 by omega⟩
  have extendedB : Extends r.value { r.value with indirectBlock := r₁.value } := ⟨keptB, rfl, rfl, rfl⟩
  have ownB := second.own first.took.ok ownA
  have both := first.trans second fine properA (inodeAt_apart ownA)
  have needsB : missing 128 (table r.fs.cache) 1 r.value.indirectBlock (min (n - min n 123) 128) =
      missing 128 (table s.cache) 1 (d.entries 123) (min (n - 123) 128) := by
    rw [show n - min n 123 = n - 123 by omega, ← entries_indirect]
    exact missing_sameTree (by rfl) (by omega) (othersA 123 (by omega) (Or.inr (by omega)))
  rw [needsB] at both
  cases okB : r₁.ok with
  | false =>
    rw [okB] at both
    simp only [if_true]
    refine ⟨newA ++ newB, leakedA ++ leakedB, false, ?_, rfl, extendedA.trans extendedB⟩
    have needs : inodeMissing s.cache d n = missingDirect d (min n 123) 0 ++
        missing 128 (table s.cache) 1 (d.entries 123) (min (n - 123) 128) ++
          if 251 < n then missing 128 (table s.cache) 2 (d.entries 124) (min (n - 251) 16384) else [] := by
      rw [inodeMissing, if_pos (by omega), List.append_assoc]
    rw [needs]
    exact both.stop _ _
  | true =>
  rw [okB] at both second
  simp only [Bool.true_eq_false, if_false]
  by_cases some : n ≤ 251
  · rw [if_pos (by omega)]
    refine ⟨newA ++ newB, leakedA ++ leakedB, true, ?_, by simp only [MAX_SECTORS]; simp; omega,
      extendedA.trans extendedB⟩
    have needs : inodeMissing s.cache d n = missingDirect d (min n 123) 0 ++
        missing 128 (table s.cache) 1 (d.entries 123) (min (n - 123) 128) := by
      rw [inodeMissing, if_pos (by omega), if_neg (by omega), List.append_nil]
    rw [needs]
    refine both.congr ⟨rfl, rfl, fun _ _ => rfl⟩ ⟨rfl, rfl, fun _ _ => rfl⟩ fun p wanted => ?_
    obtain ⟨i, less, small, rfl⟩ := wanted
    refine ⟨?_, within_position small⟩
    rcases position_cases i with ⟨direct, same⟩ | ⟨-, -, same⟩ | ⟨big, -⟩
    · exact Or.inl ⟨i, by omega, by rw [same, Nat.zero_add]⟩
    · exact Or.inr ⟨by rw [same], by rw [same]; simp only; omega⟩
    · omega
  rw [if_neg (by omega)]
  obtain ⟨newC, leakedC, third, keptC, -⟩ := reserveTree_spec (j := 124) (l := 2)
    (n := min (n - min n 123 - min (n - min n 123) 128) 16384)
    (d := { r.value with indirectBlock := r₁.value }) allocates (by omega) (by rfl) second.took.ok ownB
    (by omega) (by omega) (entries_setDoublyIndirect { r.value with indirectBlock := r₁.value } _)
  rw [entries_doublyIndirect] at third keptC
  generalize inodeReserveIndirect allocate 2 r₁.fs r.value.doublyIndirectBlock _ = r₂ at *
  have properC : ∀ p : Nat × Nat, (∃ c, c < min n 123 ∧ p = (0 + c, 0)) ∨
      (p.1 = 123 ∧ p.2 < min (n - min n 123) 128) → Within 128 inodeShape p :=
    fun p wanted => wanted.elim (properA p) (properB p)
  have all := both.trans third fine properC (inodeAt_apart ownB)
  have needsC : missing 128 (table r₁.fs.cache) 2 r.value.doublyIndirectBlock
      (min (n - min n 123 - min (n - min n 123) 128) 16384) =
      missing 128 (table s.cache) 2 (d.entries 124) (min (n - 251) 16384) := by
    rw [show n - min n 123 - min (n - min n 123) 128 = n - 251 by omega]
    exact missing_sameTree (e := { r.value with indirectBlock := r₁.value }) (j := 124) (by rfl)
      (by omega) ((othersA 124 (by omega) (Or.inr (by omega))).trans
        (othersB 124 (by omega) (by omega)))
  rw [needsC] at all
  have extendedC : Extends { r.value with indirectBlock := r₁.value }
    { r.value with indirectBlock := r₁.value, doublyIndirectBlock := r₂.value } := ⟨keptC, rfl, rfl, rfl⟩
  have needs : inodeMissing s.cache d n = missingDirect d (min n 123) 0 ++
      missing 128 (table s.cache) 1 (d.entries 123) (min (n - 123) 128) ++
        missing 128 (table s.cache) 2 (d.entries 124) (min (n - 251) 16384) := by
    rw [inodeMissing, if_pos (by omega), if_pos (by omega), List.append_assoc]
  rw [needs]
  have end' : (if r₂.ok = false then
      (⟨false, { r.value with indirectBlock := r₁.value, doublyIndirectBlock := r₂.value }, r₂.fs⟩ :
        Outcome (BlockSector → Sector) InodeDisk)
      else ⟨n - min n 123 - min (n - min n 123) 128 -
          min (n - min n 123 - min (n - min n 123) 128) 16384 = 0,
        { r.value with indirectBlock := r₁.value, doublyIndirectBlock := r₂.value }, r₂.fs⟩) =
      ⟨r₂.ok && decide (n ≤ MAX_SECTORS),
        { r.value with indirectBlock := r₁.value, doublyIndirectBlock := r₂.value }, r₂.fs⟩ := by
    cases r₂.ok with
    | false => rfl
    | true =>
      simp only [Bool.true_eq_false, if_false, Bool.true_and, MAX_SECTORS, Outcome.mk.injEq, and_true,
        decide_eq_decide]
      omega
  rw [end']
  refine ⟨newA ++ newB ++ newC, leakedA ++ leakedB ++ leakedC, r₂.ok, ?_, rfl,
    (extendedA.trans extendedB).trans extendedC⟩
  refine all.congr ⟨rfl, rfl, fun _ _ => rfl⟩ ⟨rfl, rfl, fun _ _ => rfl⟩ fun p wanted => ?_
  obtain ⟨i, less, small, rfl⟩ := wanted
  refine ⟨?_, within_position small⟩
  simp only [MAX_SECTORS] at small
  rcases position_cases i with ⟨direct, same⟩ | ⟨low, high, same⟩ | ⟨big, same⟩
  · exact Or.inl (Or.inl ⟨i, by omega, by rw [same, Nat.zero_add]⟩)
  · exact Or.inl (Or.inr ⟨by rw [same], by rw [same]; simp only; omega⟩)
  · exact Or.inr ⟨by rw [same], by rw [same]; simp only; omega⟩

end allocator

end ShellOs.FileSystem
