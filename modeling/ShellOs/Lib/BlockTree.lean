import Mathlib.Data.List.Nodup
import Mathlib.Data.List.Perm.Basic
import Mathlib.Data.List.Flatten
import Mathlib.Algebra.Order.Ring.Nat
import Mathlib.Tactic.Ring

/-! Trees of pointers laid out in a memory: a tree of level 0 is a single block, a tree of level
`l + 1` is an index block whose `k` entries are the roots of trees of level `l`. The null pointer 0
is the empty tree. A forest is a row of such trees of given levels. -/

namespace ShellOs.Lib.BlockTree

section lists

variable {α : Type*}

theorem part_nodup {m : Nat} {part : Nat → List α} (nodup : ((List.range m).flatMap part).Nodup)
    {i : Nat} (bound : i < m) : (part i).Nodup :=
  (List.nodup_flatMap.mp nodup).1 i (List.mem_range.mpr bound)

theorem part_unique {m : Nat} {part : Nat → List α} (nodup : ((List.range m).flatMap part).Nodup)
    {i j : Nat} (boundI : i < m) (boundJ : j < m) {x : α} (inI : x ∈ part i) (inJ : x ∈ part j) :
    i = j := by
  have apart := List.pairwise_iff_getElem.mp (List.nodup_flatMap.mp nodup).2
  have ordered : ∀ a b, a < b → b < m → x ∈ part a → x ∈ part b → False := by
    intro a b less bound inA inB
    have disjoint := apart a b (by simp; omega) (by simpa using bound) less
    simp only [List.getElem_range, Function.onFun] at disjoint
    exact disjoint inA inB
  rcases Nat.lt_trichotomy i j with less | same | more
  · exact (ordered i j less boundJ inI inJ).elim
  · exact same
  · exact (ordered j i more boundI inJ inI).elim

theorem flatMap_split {m j : Nat} (bound : j < m) (part : Nat → List α) :
    ((List.range m).flatMap part).Perm (part j ++ ((List.range m).erase j).flatMap part) :=
  (List.perm_cons_erase (List.mem_range.mpr bound)).flatMap_right part

theorem flatMap_erase_congr {m j : Nat} {first second : Nat → List α}
    (same : ∀ i, i < m → i ≠ j → second i = first i) :
    ((List.range m).erase j).flatMap second = ((List.range m).erase j).flatMap first := by
  apply List.flatMap_congr
  intro i member
  have parts := (List.nodup_range.mem_erase_iff).mp member
  exact same i (List.mem_range.mp parts.2) parts.1

end lists

variable {α : Type*} [Zero α] [DecidableEq α]

section trees

variable (k : Nat) (tbl : α → Nat → α)

def leaf : Nat → α → Nat → α
  | 0, e, _ => e
  | l + 1, e, i => if e = 0 then 0 else leaf l (tbl e (i / k ^ l)) (i % k ^ l)

def nodes : Nat → α → List α
  | 0, e => if e = 0 then [] else [e]
  | l + 1, e => if e = 0 then [] else e :: (List.range k).flatMap fun j => nodes l (tbl e j)

def inner : Nat → α → List α
  | 0, _ => []
  | l + 1, e => if e = 0 then [] else e :: (List.range k).flatMap fun j => inner l (tbl e j)

structure Shape where
  size : Nat
  level : Nat → Nat

def below (l : Nat) : Shape := ⟨k, fun _ => l⟩

def forestNodes (g : Shape) (t : Nat → α) : List α :=
  (List.range g.size).flatMap fun j => nodes k tbl (g.level j) (t j)

def forestInner (g : Shape) (t : Nat → α) : List α :=
  (List.range g.size).flatMap fun j => inner k tbl (g.level j) (t j)

def forestLeaf (g : Shape) (t : Nat → α) (p : Nat × Nat) : α :=
  leaf k tbl (g.level p.1) (t p.1) p.2

def Within (g : Shape) (p : Nat × Nat) : Prop := p.1 < g.size ∧ p.2 < k ^ g.level p.1

theorem nodes_succ {l : Nat} {e : α} (present : e ≠ 0) :
    nodes k tbl (l + 1) e = e :: forestNodes k tbl (below k l) (tbl e) := by
  simp only [nodes, if_neg present]
  rfl

theorem inner_succ {l : Nat} {e : α} (present : e ≠ 0) :
    inner k tbl (l + 1) e = e :: forestInner k tbl (below k l) (tbl e) := by
  simp only [inner, if_neg present]
  rfl

theorem leaf_succ {l i : Nat} {e : α} (present : e ≠ 0) :
    leaf k tbl (l + 1) e i = forestLeaf k tbl (below k l) (tbl e) (i / k ^ l, i % k ^ l) := by
  simp only [leaf, if_neg present]
  rfl

@[simp] theorem nodes_null (l : Nat) : nodes k tbl l 0 = [] := by cases l <;> simp [nodes]

@[simp] theorem inner_null (l : Nat) : inner k tbl l 0 = [] := by cases l <;> simp [inner]

@[simp] theorem leaf_null (l i : Nat) : leaf k tbl l 0 i = 0 := by cases l <;> simp [leaf]

variable {k tbl}

theorem within_below {l i : Nat} (bound : i < k ^ (l + 1)) :
    Within k (below k l) (i / k ^ l, i % k ^ l) := by
  have positive : 0 < k ^ l := by
    rcases Nat.eq_zero_or_pos (k ^ l) with zero | positive
    · rw [pow_succ, zero, Nat.zero_mul] at bound
      omega
    · exact positive
  refine ⟨?_, Nat.mod_lt _ positive⟩
  change i / k ^ l < k
  rw [Nat.div_lt_iff_lt_mul positive, Nat.mul_comm, ← pow_succ]
  exact bound

theorem mem_forestNodes {g : Shape} {t : Nat → α} {x : α} :
    x ∈ forestNodes k tbl g t ↔ ∃ j, j < g.size ∧ x ∈ nodes k tbl (g.level j) (t j) := by
  simp [forestNodes]

theorem mem_forestInner {g : Shape} {t : Nat → α} {x : α} :
    x ∈ forestInner k tbl g t ↔ ∃ j, j < g.size ∧ x ∈ inner k tbl (g.level j) (t j) := by
  simp [forestInner]

theorem forestNodes_part {g : Shape} {t : Nat → α} (nodup : (forestNodes k tbl g t).Nodup) {i : Nat}
    (bound : i < g.size) : (nodes k tbl (g.level i) (t i)).Nodup :=
  part_nodup nodup bound

theorem forestNodes_unique {g : Shape} {t : Nat → α} (nodup : (forestNodes k tbl g t).Nodup)
    {i j : Nat} (boundI : i < g.size) (boundJ : j < g.size) {x : α}
    (inI : x ∈ nodes k tbl (g.level i) (t i)) (inJ : x ∈ nodes k tbl (g.level j) (t j)) : i = j :=
  part_unique nodup boundI boundJ inI inJ

theorem forestNodes_sublist {g : Shape} {t u : Nat → α} (part : ∀ j, u j = 0 ∨ u j = t j) :
    (forestNodes k tbl g u).Sublist (forestNodes k tbl g t) := by
  unfold forestNodes
  induction List.range g.size with
  | nil => exact List.Sublist.refl _
  | cons j rest ih =>
    rw [List.flatMap_cons, List.flatMap_cons]
    refine List.Sublist.append ?_ ih
    rcases part j with null | same
    · rw [null]
      cases g.level j <;> simp only [nodes, if_true, List.nil_sublist]
    · rw [same]

theorem zero_not_mem_nodes (l : Nat) (e : α) : (0 : α) ∉ nodes k tbl l e := by
  induction l generalizing e with
  | zero =>
    by_cases null : e = 0
    · simp [nodes, null]
    · simpa [nodes, null] using Ne.symm null
  | succ l ih =>
    by_cases null : e = 0
    · simp [nodes, null]
    · rw [nodes_succ k tbl null, List.mem_cons, mem_forestNodes]
      rintro (same | ⟨j, -, member⟩)
      · exact null same.symm
      · exact ih _ member

theorem zero_not_mem_forest (g : Shape) (t : Nat → α) : (0 : α) ∉ forestNodes k tbl g t := by
  rw [mem_forestNodes]
  rintro ⟨j, -, member⟩
  exact zero_not_mem_nodes _ _ member

theorem inner_sub_nodes {l : Nat} {e x : α} (member : x ∈ inner k tbl l e) :
    x ∈ nodes k tbl l e := by
  induction l generalizing e with
  | zero => simp [inner] at member
  | succ l ih =>
    by_cases null : e = 0
    · simp [null] at member
    · rw [inner_succ k tbl null, List.mem_cons, mem_forestInner] at member
      rw [nodes_succ k tbl null, List.mem_cons, mem_forestNodes]
      rcases member with same | ⟨j, bound, member⟩
      · exact Or.inl same
      · exact Or.inr ⟨j, bound, ih member⟩

theorem forestInner_sub_nodes {g : Shape} {t : Nat → α} {x : α}
    (member : x ∈ forestInner k tbl g t) : x ∈ forestNodes k tbl g t := by
  rw [mem_forestInner] at member
  obtain ⟨j, bound, member⟩ := member
  exact mem_forestNodes.mpr ⟨j, bound, inner_sub_nodes member⟩

theorem leaf_mem {l i : Nat} {e : α} (bound : i < k ^ l) (mapped : leaf k tbl l e i ≠ 0) :
    leaf k tbl l e i ∈ nodes k tbl l e := by
  induction l generalizing e i with
  | zero =>
    simp only [leaf] at mapped ⊢
    simp [nodes, mapped]
  | succ l ih =>
    have present : e ≠ 0 := fun null => mapped (by simp [null])
    rw [leaf_succ k tbl present] at mapped ⊢
    rw [nodes_succ k tbl present, List.mem_cons, mem_forestNodes]
    have within := within_below bound
    exact Or.inr ⟨_, within.1, ih within.2 mapped⟩

theorem forestLeaf_mem {g : Shape} {t : Nat → α} {p : Nat × Nat} (within : Within k g p)
    (mapped : forestLeaf k tbl g t p ≠ 0) : forestLeaf k tbl g t p ∈ forestNodes k tbl g t :=
  mem_forestNodes.mpr ⟨p.1, within.1, leaf_mem within.2 mapped⟩

theorem inner_or_leaf {l : Nat} {e x : α} (member : x ∈ nodes k tbl l e) :
    x ∈ inner k tbl l e ∨ ∃ i, i < k ^ l ∧ leaf k tbl l e i = x := by
  induction l generalizing e with
  | zero =>
    simp only [nodes] at member
    split at member
    · cases member
    · exact Or.inr ⟨0, Nat.one_pos, (List.mem_singleton.mp member).symm⟩
  | succ l ih =>
    by_cases null : e = 0
    · rw [null, nodes_null] at member
      cases member
    · rw [nodes_succ k tbl null, List.mem_cons] at member
      rw [inner_succ k tbl null]
      rcases member with rfl | deeper
      · exact Or.inl List.mem_cons_self
      · obtain ⟨j, bound, inside⟩ := mem_forestNodes.mp deeper
        rcases ih inside with index | ⟨i, below, here⟩
        · exact Or.inl (List.mem_cons_of_mem _ (mem_forestInner.mpr ⟨j, bound, index⟩))
        · refine Or.inr ⟨j * k ^ l + i, ?_, ?_⟩
          · have room : (j + 1) * k ^ l ≤ k * k ^ l := Nat.mul_le_mul_right _ bound
            rw [pow_succ, Nat.mul_comm (k ^ l) k]
            have : (j + 1) * k ^ l = j * k ^ l + k ^ l := by ring
            change i < k ^ l at below
            omega
          · have unit : 0 < k ^ l := Nat.lt_of_le_of_lt (Nat.zero_le i) below
            rw [leaf_succ k tbl null, forestLeaf, Nat.mul_comm, Nat.mul_add_div unit, Nat.mul_add_mod,
              Nat.div_eq_of_lt below, Nat.mod_eq_of_lt below, Nat.add_zero]
            exact here

theorem forest_inner_or_leaf {g : Shape} {t : Nat → α} {x : α} (member : x ∈ forestNodes k tbl g t) :
    x ∈ forestInner k tbl g t ∨ ∃ p, Within k g p ∧ forestLeaf k tbl g t p = x := by
  obtain ⟨j, bound, inside⟩ := mem_forestNodes.mp member
  rcases inner_or_leaf inside with index | ⟨i, below, here⟩
  · exact Or.inl (mem_forestInner.mpr ⟨j, bound, index⟩)
  · exact Or.inr ⟨(j, i), ⟨bound, below⟩, here⟩

theorem forestLeaf_not_inner_of {g : Shape} {t : Nat → α}
    (trees : ∀ j, j < g.size → ∀ i, i < k ^ g.level j → leaf k tbl (g.level j) (t j) i ∉
      inner k tbl (g.level j) (t j))
    (nodup : (forestNodes k tbl g t).Nodup) {p : Nat × Nat} (within : Within k g p) :
    forestLeaf k tbl g t p ∉ forestInner k tbl g t := by
  intro member
  have mapped : forestLeaf k tbl g t p ≠ 0 := fun null =>
    zero_not_mem_forest g t (null ▸ forestInner_sub_nodes member)
  obtain ⟨j, bound, member⟩ := mem_forestInner.mp member
  have same : p.1 = j := part_unique nodup within.1 bound
    (leaf_mem within.2 mapped) (inner_sub_nodes member)
  subst same
  exact trees p.1 within.1 p.2 within.2 member

theorem leaf_not_inner {l i : Nat} {e : α} (nodup : (nodes k tbl l e).Nodup) (bound : i < k ^ l) :
    leaf k tbl l e i ∉ inner k tbl l e := by
  induction l generalizing e i with
  | zero => simp [inner]
  | succ l ih =>
    by_cases null : e = 0
    · simp [null]
    · rw [nodes_succ k tbl null, List.nodup_cons] at nodup
      rw [leaf_succ k tbl null, inner_succ k tbl null, List.mem_cons]
      have within := within_below bound
      rintro (same | member)
      · have mapped : forestLeaf k tbl (below k l) (tbl e) (i / k ^ l, i % k ^ l) ≠ 0 := by
          rw [same]
          exact null
        have member := forestLeaf_mem within mapped
        rw [same] at member
        exact nodup.1 member
      · exact forestLeaf_not_inner_of
          (fun j bound i small => ih (part_nodup nodup.2 bound) small) nodup.2 within member

theorem forestLeaf_not_inner {g : Shape} {t : Nat → α} (nodup : (forestNodes k tbl g t).Nodup)
    {p : Nat × Nat} (within : Within k g p) : forestLeaf k tbl g t p ∉ forestInner k tbl g t :=
  forestLeaf_not_inner_of (fun _ bound _ small => leaf_not_inner (part_nodup nodup bound) small)
    nodup within

theorem forestLeaf_injective_of {g : Shape} {t : Nat → α}
    (trees : ∀ j, j < g.size → ∀ a b, a < k ^ g.level j → b < k ^ g.level j →
      leaf k tbl (g.level j) (t j) a ≠ 0 →
      leaf k tbl (g.level j) (t j) a = leaf k tbl (g.level j) (t j) b → a = b)
    (nodup : (forestNodes k tbl g t).Nodup) {p q : Nat × Nat} (withinP : Within k g p)
    (withinQ : Within k g q) (mapped : forestLeaf k tbl g t p ≠ 0)
    (same : forestLeaf k tbl g t p = forestLeaf k tbl g t q) : p = q := by
  have inP : forestLeaf k tbl g t p ∈ nodes k tbl (g.level p.1) (t p.1) :=
    leaf_mem withinP.2 mapped
  have inQ : forestLeaf k tbl g t p ∈ nodes k tbl (g.level q.1) (t q.1) := by
    rw [same] at mapped ⊢
    exact leaf_mem withinQ.2 mapped
  have tree : p.1 = q.1 := part_unique nodup withinP.1 withinQ.1 inP inQ
  obtain ⟨j, a⟩ := p
  obtain ⟨j', b⟩ := q
  simp only at tree
  subst tree
  exact congrArg (Prod.mk j) (trees j withinP.1 a b withinP.2 withinQ.2 mapped same)

theorem leaf_injective {l a b : Nat} {e : α} (nodup : (nodes k tbl l e).Nodup) (boundA : a < k ^ l)
    (boundB : b < k ^ l) (mapped : leaf k tbl l e a ≠ 0)
    (same : leaf k tbl l e a = leaf k tbl l e b) : a = b := by
  induction l generalizing e a b with
  | zero =>
    simp only [pow_zero] at boundA boundB
    omega
  | succ l ih =>
    have present : e ≠ 0 := fun null => mapped (by simp [null])
    rw [nodes_succ k tbl present, List.nodup_cons] at nodup
    rw [leaf_succ k tbl present, leaf_succ k tbl present] at same
    rw [leaf_succ k tbl present] at mapped
    have place := forestLeaf_injective_of
      (fun j bound a b smallA smallB => ih (part_nodup nodup.2 bound) smallA smallB)
      nodup.2 (within_below boundA) (within_below boundB) mapped same
    have quotient := congrArg Prod.fst place
    have remainder := congrArg Prod.snd place
    simp only at quotient remainder
    rw [← Nat.div_add_mod a (k ^ l), ← Nat.div_add_mod b (k ^ l), quotient, remainder]

theorem forestLeaf_injective {g : Shape} {t : Nat → α} (nodup : (forestNodes k tbl g t).Nodup)
    {p q : Nat × Nat} (withinP : Within k g p) (withinQ : Within k g q)
    (mapped : forestLeaf k tbl g t p ≠ 0)
    (same : forestLeaf k tbl g t p = forestLeaf k tbl g t q) : p = q :=
  forestLeaf_injective_of
    (fun _ bound _ _ smallA smallB => leaf_injective (part_nodup nodup bound) smallA smallB)
    nodup withinP withinQ mapped same

end trees

/-! ### What a tree depends on -/

section frame

variable {k : Nat}

/-- Two memories with the same index blocks of a tree have the same tree. -/
def Agree (k : Nat) (tbl tbl' : α → Nat → α) (blocks : List α) : Prop :=
  ∀ x ∈ blocks, ∀ j, j < k → tbl' x j = tbl x j

variable {tbl tbl' : α → Nat → α}

theorem tree_congr {l : Nat} {e : α} (agree : Agree k tbl tbl' (inner k tbl l e)) :
    nodes k tbl' l e = nodes k tbl l e ∧ inner k tbl' l e = inner k tbl l e ∧
      ∀ i, i < k ^ l → leaf k tbl' l e i = leaf k tbl l e i := by
  induction l generalizing e with
  | zero => exact ⟨rfl, rfl, fun _ _ => rfl⟩
  | succ l ih =>
    by_cases null : e = 0
    · subst null
      simp
    · have entries : ∀ j, j < k → tbl' e j = tbl e j := agree e (by simp [inner_succ k tbl null])
      have trees : ∀ j, j < k → Agree k tbl tbl' (inner k tbl l (tbl e j)) := by
        intro j bound x member
        refine agree x ?_
        rw [inner_succ k tbl null, List.mem_cons, mem_forestInner]
        exact Or.inr ⟨j, bound, member⟩
      refine ⟨?_, ?_, fun i bound => ?_⟩
      · simp only [nodes, if_neg null]
        rw [List.flatMap_congr fun j member => by
          have bound := List.mem_range.mp member
          rw [entries j bound, (ih (trees j bound)).1]]
      · simp only [inner, if_neg null]
        rw [List.flatMap_congr fun j member => by
          have bound := List.mem_range.mp member
          rw [entries j bound, (ih (trees j bound)).2.1]]
      · have within := within_below bound
        simp only [leaf, if_neg null]
        rw [entries _ within.1, (ih (trees _ within.1)).2.2 _ within.2]

theorem forest_congr {g : Shape} {t u : Nat → α} (same : ∀ j, j < g.size → u j = t j)
    (agree : Agree k tbl tbl' (forestInner k tbl g t)) :
    forestNodes k tbl' g u = forestNodes k tbl g t ∧
      forestInner k tbl' g u = forestInner k tbl g t ∧
      ∀ p, Within k g p → forestLeaf k tbl' g u p = forestLeaf k tbl g t p := by
  have trees : ∀ j, j < g.size → Agree k tbl tbl' (inner k tbl (g.level j) (t j)) :=
    fun j bound x member => agree x (mem_forestInner.mpr ⟨j, bound, member⟩)
  refine ⟨?_, ?_, fun p within => ?_⟩
  · apply List.flatMap_congr
    intro j member
    have bound := List.mem_range.mp member
    rw [same j bound, (tree_congr (trees j bound)).1]
  · apply List.flatMap_congr
    intro j member
    have bound := List.mem_range.mp member
    rw [same j bound, (tree_congr (trees j bound)).2.1]
  · unfold forestLeaf
    rw [same _ within.1, (tree_congr (trees _ within.1)).2.2 _ within.2]

end frame

/-! ### Growth -/

/-- What can be asked of a tree or a forest: its blocks and the data block at each index. -/
structure Snapshot (α ι : Type*) where
  nodes : List α
  inner : List α
  leaf : ι → α

abbrev treeAt (k : Nat) (tbl : α → Nat → α) (l : Nat) (e : α) : Snapshot α Nat :=
  ⟨nodes k tbl l e, inner k tbl l e, leaf k tbl l e⟩

abbrev forestAt (k : Nat) (tbl : α → Nat → α) (g : Shape) (t : Nat → α) : Snapshot α (Nat × Nat) :=
  ⟨forestNodes k tbl g t, forestInner k tbl g t, forestLeaf k tbl g t⟩

/-- `next` has grown out of `old` by the blocks `new`, except for `leaked`, which are lost:
data that was mapped stays where it was and newly mapped data is in new blocks. -/
structure Grows {ι : Type*} (valid : ι → Prop) (old next : Snapshot α ι) (new leaked : List α) :
    Prop where
  ledger : (next.nodes ++ leaked).Perm (old.nodes ++ new)
  inner : ∀ x ∈ next.inner, x ∈ old.inner ∨ x ∈ new
  keep : ∀ i, valid i → old.leaf i ≠ 0 → next.leaf i = old.leaf i
  fresh : ∀ i, valid i → old.leaf i = 0 → next.leaf i ≠ 0 → next.leaf i ∈ new

namespace Grows

variable {ι : Type*} {valid : ι → Prop}

omit [DecidableEq α] in
theorem refl (s : Snapshot α ι) : Grows valid s s [] [] :=
  ⟨List.Perm.refl _, fun _ member => Or.inl member, fun _ _ _ => rfl,
    fun _ _ null mapped => (mapped null).elim⟩

omit [DecidableEq α] in
theorem congr {old next old' next' : Snapshot α ι} {new leaked : List α}
    (grows : Grows valid old next new leaked)
    (sameOld : old'.nodes = old.nodes ∧ old'.inner = old.inner ∧
      ∀ i, valid i → old'.leaf i = old.leaf i)
    (sameNext : next'.nodes = next.nodes ∧ next'.inner = next.inner ∧
      ∀ i, valid i → next'.leaf i = next.leaf i) : Grows valid old' next' new leaked := by
  refine ⟨?_, ?_, fun i ok mapped => ?_, fun i ok null mapped => ?_⟩
  · rw [sameOld.1, sameNext.1]
    exact grows.ledger
  · rw [sameOld.2.1, sameNext.2.1]
    exact grows.inner
  · rw [sameOld.2.2 i ok] at mapped ⊢
    rw [sameNext.2.2 i ok]
    exact grows.keep i ok mapped
  · rw [sameOld.2.2 i ok] at null
    rw [sameNext.2.2 i ok] at mapped ⊢
    exact grows.fresh i ok null mapped

theorem trans {first second third : Snapshot α ι} {newA leakedA newB leakedB : List α}
    (early : Grows valid first second newA leakedA) (late : Grows valid second third newB leakedB) :
    Grows valid first third (newA ++ newB) (leakedA ++ leakedB) := by
  refine ⟨?_, fun x member => ?_, fun i ok mapped => ?_, fun i ok null mapped => ?_⟩
  · rw [List.perm_iff_count]
    intro x
    have countA := early.ledger.count_eq x
    have countB := late.ledger.count_eq x
    simp only [List.count_append] at countA countB ⊢
    omega
  · rcases late.inner x member with older | new
    · rcases early.inner x older with oldest | new
      · exact Or.inl oldest
      · exact Or.inr (List.mem_append_left _ new)
    · exact Or.inr (List.mem_append_right _ new)
  · have kept := early.keep i ok mapped
    rw [late.keep i ok (kept ▸ mapped), kept]
  · by_cases middle : second.leaf i = 0
    · exact List.mem_append_right _ (late.fresh i ok middle mapped)
    · rw [late.keep i ok middle] at mapped ⊢
      exact List.mem_append_left _ (early.fresh i ok null mapped)

omit [DecidableEq α] in
theorem mem_old_or_new {old next : Snapshot α ι} {new leaked : List α}
    (grows : Grows valid old next new leaked) {x : α} (member : x ∈ next.nodes) :
    x ∈ old.nodes ∨ x ∈ new :=
  List.mem_append.mp (grows.ledger.subset (List.mem_append_left _ member))

omit [DecidableEq α] in
theorem nodup {old next : Snapshot α ι} {new leaked : List α}
    (grows : Grows valid old next new leaked) (before : old.nodes.Nodup) (added : new.Nodup)
    (elsewhere : ∀ x ∈ new, x ∉ old.nodes) : next.nodes.Nodup := by
  have all : (old.nodes ++ new).Nodup := by
    rw [List.nodup_append]
    exact ⟨before, added, fun x inOld y inNew same => elsewhere y inNew (same ▸ inOld)⟩
  exact (grows.ledger.nodup_iff.mpr all).of_append_left

end Grows

section steps

variable {k : Nat} {tbl tbl' : α → Nat → α}

abbrev TreeGrows (k : Nat) (l : Nat) (tbl : α → Nat → α) (e : α) (tbl' : α → Nat → α) (e' : α)
    (new leaked : List α) : Prop :=
  Grows (fun i => i < k ^ l) (treeAt k tbl l e) (treeAt k tbl' l e') new leaked

abbrev ForestGrows (k : Nat) (g : Shape) (tbl : α → Nat → α) (t : Nat → α) (tbl' : α → Nat → α)
    (t' : Nat → α) (new leaked : List α) : Prop :=
  Grows (Within k g) (forestAt k tbl g t) (forestAt k tbl' g t') new leaked

theorem forest_of_tree {g : Shape} {t : Nat → α} {j : Nat} {e : α} {new leaked : List α}
    (bound : j < g.size) (grows : TreeGrows k (g.level j) tbl (t j) tbl' e new leaked)
    (others : ∀ i, i < g.size → i ≠ j → Agree k tbl tbl' (inner k tbl (g.level i) (t i))) :
    ForestGrows k g tbl t tbl' (Function.update t j e) new leaked := by
  have trees : ∀ i, i < g.size → i ≠ j →
      nodes k tbl' (g.level i) (Function.update t j e i) = nodes k tbl (g.level i) (t i) ∧
      inner k tbl' (g.level i) (Function.update t j e i) = inner k tbl (g.level i) (t i) ∧
      ∀ c, c < k ^ g.level i →
        leaf k tbl' (g.level i) (Function.update t j e i) c = leaf k tbl (g.level i) (t i) c := by
    intro i small different
    rw [Function.update_of_ne different]
    exact tree_congr (others i small different)
  refine ⟨?_, fun x member => ?_, fun p within mapped => ?_, fun p within null mapped => ?_⟩
  · have splitNext := flatMap_split bound
      (fun i => nodes k tbl' (g.level i) (Function.update t j e i))
    have splitOld := flatMap_split bound (fun i => nodes k tbl (g.level i) (t i))
    rw [flatMap_erase_congr (fun i small different => (trees i small different).1)] at splitNext
    rw [List.perm_iff_count]
    intro x
    have countNext := splitNext.count_eq x
    have countOld := splitOld.count_eq x
    have countTree := grows.ledger.count_eq x
    simp only [List.count_append, Function.update_self] at countNext countOld countTree
    simp only [List.count_append, forestNodes]
    omega
  · obtain ⟨i, small, member⟩ := mem_forestInner.mp member
    by_cases same : i = j
    · subst same
      rw [Function.update_self] at member
      rcases grows.inner x member with old | new
      · exact Or.inl (mem_forestInner.mpr ⟨i, small, old⟩)
      · exact Or.inr new
    · rw [(trees i small same).2.1] at member
      exact Or.inl (mem_forestInner.mpr ⟨i, small, member⟩)
  · obtain ⟨i, c⟩ := p
    by_cases same : i = j
    · subst same
      simp only [forestLeaf, Function.update_self]
      exact grows.keep c within.2 mapped
    · exact (trees i within.1 same).2.2 c within.2
  · obtain ⟨i, c⟩ := p
    by_cases same : i = j
    · subst same
      simp only [forestLeaf, Function.update_self] at mapped ⊢
      exact grows.fresh c within.2 null mapped
    · exact (mapped (((trees i within.1 same).2.2 c within.2).trans null)).elim

theorem tree_of_forest {l : Nat} {e : α} {t : Nat → α} {mid : α → Nat → α} {new leaked : List α}
    (present : e ≠ 0) (grows : ForestGrows k (below k l) tbl (tbl e) mid t new leaked)
    (written : ∀ j, j < k → tbl' e j = t j)
    (rest : Agree k mid tbl' (forestInner k mid (below k l) t)) :
    TreeGrows k (l + 1) tbl e tbl' e new leaked := by
  obtain ⟨sameNodes, sameInner, sameLeaf⟩ :=
    forest_congr (g := below k l) (t := t) (u := tbl' e) written rest
  refine ⟨?_, fun x member => ?_, fun i bound mapped => ?_, fun i bound null mapped => ?_⟩
  · simp only [nodes_succ k _ present, sameNodes, List.cons_append]
    exact List.Perm.cons e grows.ledger
  · simp only [inner_succ k _ present, sameInner, List.mem_cons] at member ⊢
    rcases member with same | member
    · exact Or.inl (Or.inl same)
    · rcases grows.inner x member with old | new
      · exact Or.inl (Or.inr old)
      · exact Or.inr new
  · have within := within_below bound
    simp only [leaf_succ k _ present] at mapped ⊢
    rw [sameLeaf _ within]
    exact grows.keep _ within mapped
  · have within := within_below bound
    simp only [leaf_succ k _ present] at null mapped ⊢
    rw [sameLeaf _ within] at mapped ⊢
    exact grows.fresh _ within null mapped

/-- Forgetting the entries that were set in empty places leaves the old forest, grown only
below the entries it had; what hung on the forgotten entries is lost. -/
theorem forest_forget {g : Shape} {t t' : Nat → α} {new leaked : List α}
    (grows : ForestGrows k g tbl t tbl' t' new leaked)
    (entries : ∀ j, j < g.size → t j ≠ 0 → t' j = t j) :
    ∃ lost, ForestGrows k g tbl t tbl' t new lost := by
  have choice : ∀ j, j < g.size → t j = 0 ∨ t' j = t j := fun j bound =>
    (em (t j = 0)).imp id (entries j bound)
  refine ⟨leaked ++ (List.range g.size).flatMap fun j =>
    if t j = 0 then nodes k tbl' (g.level j) (t' j) else [], ?_, fun x member => ?_,
    fun p within mapped => ?_, fun p within null mapped => ?_⟩
  · have split : (forestNodes k tbl' g t').Perm (forestNodes k tbl' g t ++
        (List.range g.size).flatMap fun j =>
          if t j = 0 then nodes k tbl' (g.level j) (t' j) else []) := by
      refine List.Perm.trans ?_ (List.flatMap_append_perm _ _ _).symm
      refine List.Perm.flatMap_left _ fun j member => ?_
      rcases choice j (List.mem_range.mp member) with null | same
      · simp [null]
      · by_cases null : t j = 0
        · simp [null]
        · simp [null, same]
    rw [List.perm_iff_count]
    intro x
    have countSplit := split.count_eq x
    have countOld := grows.ledger.count_eq x
    simp only [List.count_append] at countSplit countOld ⊢
    omega
  · obtain ⟨j, bound, member⟩ := mem_forestInner.mp member
    rcases choice j bound with null | same
    · simp [null] at member
    · exact grows.inner x (mem_forestInner.mpr ⟨j, bound, same ▸ member⟩)
  · rcases choice p.1 within.1 with null | same
    · exact (mapped (by simp [forestLeaf, null])).elim
    · have kept := grows.keep p within mapped
      simp only [forestLeaf, same] at kept ⊢
      exact kept
  · rcases choice p.1 within.1 with empty | same
    · exact (mapped (by simp [forestLeaf, empty])).elim
    · have new := grows.fresh p within null
      simp only [forestLeaf, same] at new mapped ⊢
      exact new mapped

theorem tree_of_fresh_index {l : Nat} {a : α} (present : a ≠ 0)
    (empty : ∀ j, j < k → tbl' a j = 0) : TreeGrows k (l + 1) tbl 0 tbl' a [a] [] := by
  have noNodes : forestNodes k tbl' (below k l) (tbl' a) = [] := by
    simp only [forestNodes, List.flatMap_eq_nil_iff, List.mem_range]
    intro j bound
    rw [empty j bound, nodes_null]
  have noInner : forestInner k tbl' (below k l) (tbl' a) = [] := by
    simp only [forestInner, List.flatMap_eq_nil_iff, List.mem_range]
    intro j bound
    rw [empty j bound, inner_null]
  refine ⟨?_, fun x member => ?_, fun i _ mapped => ?_, fun i bound _ mapped => ?_⟩
  · simp [nodes_succ k _ present, noNodes]
  · simp only [inner_succ k _ present, noInner] at member
    exact Or.inr member
  · exact (mapped (by simp )).elim
  · refine (mapped ?_).elim
    simp only [leaf_succ k _ present, forestLeaf]
    rw [empty _ (within_below bound).1, leaf_null]

theorem tree_of_fresh_data {a : α} (present : a ≠ 0) : TreeGrows k 0 tbl 0 tbl' a [a] [] := by
  refine ⟨by simp [nodes, present], fun x member => by simp [inner] at member,
    fun i _ mapped => (mapped rfl).elim, fun i _ _ _ => by simp [leaf]⟩

end steps

/-! ### What a reservation has to add -/

/-- A block added by a reservation is there for its data or for its entries. -/
inductive BlockKind where
  | data
  | index
  deriving DecidableEq

/-- The blocks a reservation of the first `n` indices of a tree has to add, in the order in which
a walk that goes down the entries one by one comes to them. -/
def missing (k : Nat) (tbl : α → Nat → α) : Nat → α → Nat → List BlockKind
  | 0, e, _ => if e = 0 then [.data] else []
  | l + 1, e, n =>
    (if e = 0 then [.index] else []) ++
      (List.range ((n + k ^ l - 1) / k ^ l)).flatMap fun j =>
        missing k tbl l (if e = 0 then 0 else tbl e j) (min (n - j * k ^ l) (k ^ l))

/-- The same for `count` neighbouring entries of a table, which share out `n` indices. -/
def missingRow (k : Nat) (tbl : α → Nat → α) (l : Nat) : Nat → Nat → Nat → (Nat → α) → List BlockKind
  | 0, _, _, _ => []
  | count + 1, i, n, t =>
    missing k tbl l (t i) (min n (k ^ l)) ++
      missingRow k tbl l count (i + 1) (n - min n (k ^ l)) t

theorem missingRow_eq (k : Nat) (tbl : α → Nat → α) (l count i n : Nat) (t : Nat → α) :
    missingRow k tbl l count i n t = (List.range count).flatMap fun d =>
      missing k tbl l (t (i + d)) (min (n - d * k ^ l) (k ^ l)) := by
  induction count generalizing i n with
  | zero => rfl
  | succ count ih =>
    rw [missingRow, ih, List.range_succ_eq_map, List.flatMap_cons, List.flatMap_map]
    simp only [Nat.zero_mul, Nat.sub_zero, Nat.add_zero]
    congr 1
    apply List.flatMap_congr
    intro d _
    have rest : n - min n (k ^ l) - d * k ^ l = n - (d + 1) * k ^ l := by
      rw [Nat.add_mul, Nat.one_mul]
      omega
    rw [rest, show i + 1 + d = i + (d + 1) by omega]

theorem missing_succ (k : Nat) (tbl : α → Nat → α) (l n : Nat) (e : α) :
    missing k tbl (l + 1) e n = (if e = 0 then [.index] else []) ++
      missingRow k tbl l ((n + k ^ l - 1) / k ^ l) 0 n (if e = 0 then fun _ => 0 else tbl e) := by
  rw [missing, missingRow_eq]
  by_cases null : e = 0 <;> simp [null]

theorem missing_congr {k : Nat} {tbl tbl' : α → Nat → α} {l n : Nat} {e : α}
    (bound : n ≤ k ^ l) (agree : Agree k tbl tbl' (inner k tbl l e)) :
    missing k tbl' l e n = missing k tbl l e n := by
  induction l generalizing e n with
  | zero => rfl
  | succ l ih =>
    by_cases null : e = 0
    · subst null
      simp only [missing, if_true, List.append_cancel_left_eq]
      apply List.flatMap_congr
      intro j _
      exact ih (by omega) (by simp [Agree])
    · simp only [missing, if_neg null, List.append_cancel_left_eq]
      apply List.flatMap_congr
      intro j member
      have small : j < k := by
        have inside := List.mem_range.mp member
        have positive : 0 < k ^ l := by
          rcases Nat.eq_zero_or_pos (k ^ l) with zero | positive
          · rw [zero] at inside
            simp at inside
          · exact positive
        have most : (n + k ^ l - 1) / k ^ l ≤ k := by
          rw [Nat.div_le_iff_le_mul_add_pred positive]
          rw [pow_succ] at bound
          omega
        omega
      rw [agree e (by simp [inner_succ k tbl null]) j small]
      refine ih (by omega) fun x inside => agree x ?_
      rw [inner_succ k tbl null, List.mem_cons, mem_forestInner]
      exact Or.inr ⟨j, small, inside⟩

theorem missingRow_congr {k : Nat} {tbl tbl' : α → Nat → α} {l count i n : Nat} {t t' : Nat → α}
    (same : ∀ j, i ≤ j → j < i + count → t' j = t j)
    (agree : ∀ j, i ≤ j → j < i + count → Agree k tbl tbl' (inner k tbl l (t j))) :
    missingRow k tbl' l count i n t' = missingRow k tbl l count i n t := by
  rw [missingRow_eq, missingRow_eq]
  apply List.flatMap_congr
  intro d member
  have bound := List.mem_range.mp member
  rw [same (i + d) (by omega) (by omega)]
  exact missing_congr (by omega) (agree (i + d) (by omega) (by omega))

/-! ### What a release gives back -/

/-- What `f` makes of `count` neighbouring entries of a table, which share out `n` indices. -/
def row {β : Type*} (f : α → Nat → List β) (unit : Nat) : Nat → Nat → Nat → (Nat → α) → List β
  | 0, _, _, _ => []
  | count + 1, i, n, t => f (t i) (min n unit) ++ row f unit count (i + 1) (n - min n unit) t

/-- The blocks over the first `n` indices of a tree, every index block after those below it. -/
def walk (k : Nat) (tbl : α → Nat → α) : Nat → α → Nat → List α
  | 0, e, _ => [e]
  | l + 1, e, n => row (walk k tbl l) (k ^ l) ((n + k ^ l - 1) / k ^ l) 0 n (tbl e) ++ [e]

omit [Zero α] [DecidableEq α] in
theorem mem_row {β : Type*} {f : α → Nat → List β} {unit count i n : Nat} {t : Nat → α} {x : β} :
    x ∈ row f unit count i n t ↔ ∃ j, j < count ∧ x ∈ f (t (i + j)) (min (n - j * unit) unit) := by
  induction count generalizing i n with
  | zero => simp [row]
  | succ count ih =>
    have rest : ∀ j, n - min n unit - j * unit = n - (j + 1) * unit := by
      intro j
      rw [Nat.add_mul, Nat.one_mul]
      omega
    rw [row, List.mem_append, ih]
    constructor
    · rintro (here | ⟨j, below, there⟩)
      · exact ⟨0, by omega, by simpa using here⟩
      · rw [rest, show i + 1 + j = i + (j + 1) by omega] at there
        exact ⟨j + 1, by omega, there⟩
    · rintro ⟨j, below, member⟩
      cases j with
      | zero => exact Or.inl (by simpa using member)
      | succ j =>
        refine Or.inr ⟨j, by omega, ?_⟩
        rw [rest, show i + 1 + j = i + (j + 1) by omega]
        exact member

omit [Zero α] [DecidableEq α] in
theorem row_congr {β : Type*} {f g : α → Nat → List β} {unit count i n : Nat} {t : Nat → α}
    (same : ∀ j, j < count → g (t (i + j)) (min (n - j * unit) unit) = f (t (i + j)) (min (n - j * unit) unit)) :
    row g unit count i n t = row f unit count i n t := by
  induction count generalizing i n with
  | zero => rfl
  | succ count ih =>
    have first := same 0 (by omega)
    simp only [Nat.zero_mul, Nat.sub_zero, Nat.add_zero] at first
    rw [row, row, first]
    congr 1
    refine ih fun j below => ?_
    have next := same (j + 1) (by omega)
    rw [Nat.add_mul, Nat.one_mul] at next
    rw [show n - min n unit - j * unit = n - (j * unit + unit) by omega,
      show i + 1 + j = i + (j + 1) by omega]
    exact next

omit [Zero α] [DecidableEq α] in
theorem walk_congr {k : Nat} {tbl tbl' : α → Nat → α} {l n : Nat} {e : α}
    (same : ∀ x ∈ walk k tbl l e n, tbl' x = tbl x) : walk k tbl' l e n = walk k tbl l e n := by
  induction l generalizing e n with
  | zero => rfl
  | succ l ih =>
    rw [walk, walk, same e (by simp [walk])]
    congr 1
    refine row_congr fun j below => ih fun x member => same x ?_
    rw [walk, List.mem_append, mem_row]
    exact Or.inl ⟨j, below, member⟩

section covered

variable {k : Nat} {tbl : α → Nat → α}

theorem walk_share {l n j : Nat} {e : α} (bound : n ≤ k ^ (l + 1))
    (mapped : ∀ i, i < n → leaf k tbl (l + 1) e i ≠ 0) (below : j < (n + k ^ l - 1) / k ^ l) :
    e ≠ 0 ∧ j < k ∧ 0 < min (n - j * k ^ l) (k ^ l) ∧
      ∀ i, i < min (n - j * k ^ l) (k ^ l) → leaf k tbl l (tbl e j) i = leaf k tbl (l + 1) e (j * k ^ l + i) := by
  have positive : 0 < k ^ l := by
    rcases Nat.eq_zero_or_pos (k ^ l) with zero | positive
    · rw [zero, Nat.div_zero] at below
      omega
    · exact positive
  have started : j * k ^ l < n := by
    have := (Nat.le_div_iff_mul_le positive).mp (show j + 1 ≤ _ from below)
    rw [Nat.add_mul, Nat.one_mul] at this
    omega
  have present : e ≠ 0 := by
    rintro rfl
    exact mapped 0 (by omega) (leaf_null k tbl (l + 1) 0)
  refine ⟨present, ?_, by omega, fun i small => ?_⟩
  · rw [pow_succ, Nat.mul_comm] at bound
    exact Nat.lt_of_mul_lt_mul_right (Nat.lt_of_lt_of_le started bound)
  · have inside : i < k ^ l := by omega
    simp only [leaf, if_neg present]
    rw [Nat.add_comm, Nat.add_mul_div_right _ _ positive, Nat.add_mul_mod_self_right,
      Nat.div_eq_of_lt inside, Nat.mod_eq_of_lt inside, Nat.zero_add]

theorem walk_sub {l n : Nat} {e x : α} (bound : n ≤ k ^ l) (some : 0 < n)
    (mapped : ∀ i, i < n → leaf k tbl l e i ≠ 0) (member : x ∈ walk k tbl l e n) :
    x ∈ nodes k tbl l e := by
  induction l generalizing e n with
  | zero =>
    have present : e ≠ 0 := mapped 0 some
    simpa [walk, nodes, present] using member
  | succ l ih =>
    have present : e ≠ 0 := by
      rintro rfl
      exact mapped 0 some (leaf_null k tbl (l + 1) 0)
    rw [nodes_succ k tbl present]
    rw [walk, List.mem_append, mem_row, List.mem_singleton] at member
    rcases member with ⟨j, below, member⟩ | rfl
    · rw [Nat.zero_add] at member
      obtain ⟨-, small, more, same⟩ := walk_share bound mapped below
      refine List.mem_cons_of_mem _ (mem_forestNodes.mpr ⟨j, small, ih (by omega) more ?_ member⟩)
      intro i inside
      rw [same i inside]
      exact mapped _ (by omega)
    · exact List.mem_cons_self

end covered

/-! ### Trees without a block too many -/

/-- The blocks over the first `n` indices of a tree, those that are there. -/
def visited (k : Nat) (tbl : α → Nat → α) : Nat → α → Nat → List α
  | 0, e, _ => if e = 0 then [] else [e]
  | l + 1, e, n => if e = 0 then [] else e :: (List.range ((n + k ^ l - 1) / k ^ l)).flatMap fun j =>
      visited k tbl l (tbl e j) (min (n - j * k ^ l) (k ^ l))

section exact

variable {k : Nat} {tbl : α → Nat → α}

theorem missing_visited (l : Nat) (e : α) (n : Nat) :
    (missing k tbl l e n).length + (visited k tbl l e n).length = (missing k tbl l 0 n).length := by
  induction l generalizing e n with
  | zero => by_cases null : e = 0 <;> simp [missing, visited, null]
  | succ l ih =>
    by_cases null : e = 0
    · simp [visited, null]
    · have sum : ∀ share : List Nat,
          (share.flatMap fun j => missing k tbl l (tbl e j) (min (n - j * k ^ l) (k ^ l))).length +
            (share.flatMap fun j => visited k tbl l (tbl e j) (min (n - j * k ^ l) (k ^ l))).length =
          (share.flatMap fun j => missing k tbl l 0 (min (n - j * k ^ l) (k ^ l))).length := by
        intro share
        induction share with
        | nil => rfl
        | cons j rest more =>
          have here := ih (tbl e j) (min (n - j * k ^ l) (k ^ l))
          simp only [List.flatMap_cons, List.length_append]
          omega
      have := sum (List.range ((n + k ^ l - 1) / k ^ l))
      simp only [missing, visited, if_neg null, if_true, List.nil_append, List.length_cons, List.length_append,
        List.length_nil]
      omega

theorem visited_mono {l n m : Nat} {e x : α} (le : n ≤ m) (member : x ∈ visited k tbl l e n) :
    x ∈ visited k tbl l e m := by
  induction l generalizing e n m with
  | zero => exact member
  | succ l ih =>
    by_cases null : e = 0
    · simp [visited, null] at member
    · simp only [visited, if_neg null, List.mem_cons, List.mem_flatMap, List.mem_range] at member ⊢
      rcases member with rfl | ⟨j, below, member⟩
      · exact Or.inl rfl
      · exact Or.inr ⟨j, lt_of_lt_of_le below (Nat.div_le_div_right (by omega)), ih (by omega) member⟩

theorem entries_bound {l n : Nat} (bound : n ≤ k ^ (l + 1)) : (n + k ^ l - 1) / k ^ l ≤ k := by
  rcases Nat.eq_zero_or_pos (k ^ l) with zero | positive
  · rw [zero, Nat.div_zero]
    exact Nat.zero_le k
  · rw [Nat.div_le_iff_le_mul_add_pred positive]
    rw [pow_succ] at bound
    omega

theorem visited_sublist {l n : Nat} {e : α} (bound : n ≤ k ^ l) :
    (visited k tbl l e n).Sublist (nodes k tbl l e) := by
  induction l generalizing e n with
  | zero => exact List.Sublist.refl _
  | succ l ih =>
    by_cases null : e = 0
    · simp [visited, null]
    · have parts : ∀ share : List Nat,
          (share.flatMap fun j => visited k tbl l (tbl e j) (min (n - j * k ^ l) (k ^ l))).Sublist
            (share.flatMap fun j => nodes k tbl l (tbl e j)) := by
        intro share
        induction share with
        | nil => exact List.Sublist.refl _
        | cons j rest more =>
          simp only [List.flatMap_cons]
          exact (ih (by omega)).append more
      simp only [visited, nodes, if_neg null]
      apply List.Sublist.cons_cons
      refine (parts _).trans (List.Sublist.flatMap ?_ _)
      exact List.range_sublist.mpr (entries_bound bound)

theorem missing_mapped {l n : Nat} {e : α} (bound : n ≤ k ^ l) (some : 0 < n)
    (mapped : ∀ i, i < n → leaf k tbl l e i ≠ 0) : missing k tbl l e n = [] := by
  induction l generalizing e n with
  | zero =>
    have present : e ≠ 0 := mapped 0 some
    simp [missing, present]
  | succ l ih =>
    have present : e ≠ 0 := by
      rintro rfl
      exact mapped 0 some (leaf_null k tbl (l + 1) 0)
    simp only [missing, if_neg present, List.nil_append, List.flatMap_eq_nil_iff, List.mem_range]
    intro j below
    obtain ⟨-, -, more, same⟩ := walk_share bound mapped below
    refine ih (by omega) more fun i inside => ?_
    rw [same i inside]
    exact mapped _ (by omega)

theorem visited_sub_walk {l n : Nat} {e x : α} (bound : n ≤ k ^ l)
    (mapped : ∀ i, i < n → leaf k tbl l e i ≠ 0) (member : x ∈ visited k tbl l e n) : x ∈ walk k tbl l e n := by
  induction l generalizing e n with
  | zero =>
    by_cases null : e = 0
    · simp [visited, null] at member
    · simpa [visited, walk, null] using member
  | succ l ih =>
    by_cases null : e = 0
    · simp [visited, null] at member
    · simp only [visited, if_neg null, List.mem_cons, List.mem_flatMap, List.mem_range] at member
      rw [walk, List.mem_append, mem_row, List.mem_singleton]
      rcases member with rfl | ⟨j, below, member⟩
      · exact Or.inr rfl
      · obtain ⟨-, -, -, same⟩ := walk_share bound mapped below
        refine Or.inl ⟨j, below, ?_⟩
        rw [Nat.zero_add]
        refine ih (by omega) (fun i inside => ?_) member
        rw [same i inside]
        exact mapped _ (by omega)

end exact

-- a forest is looked at through the lemmas above, never by computing its row of trees
attribute [irreducible] forestNodes forestInner

end ShellOs.Lib.BlockTree
