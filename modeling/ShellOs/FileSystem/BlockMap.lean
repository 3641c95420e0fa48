import ShellOs.Lib.BlockTree
import ShellOs.FileSystem.Transparent

/-! The block tables of an inode as a forest of pointer trees, and what the read and write loops
do to the bytes of a mapped inode. Everything here is over plain sectors. -/

namespace ShellOs.FileSystem
open Lib BlockTree

abbrev Disk := BlockSector → Sector

abbrev MAX_SECTORS : Nat := 16635

abbrev MAX_LENGTH : Nat := 8517120

abbrev table (v : Disk) (index : BlockSector) (j : Nat) : BlockSector := sectorWord (v index) j

def inodeShape : Shape := ⟨125, fun j => if j < 123 then 0 else if j = 123 then 1 else 2⟩

def position (i : Nat) : Nat × Nat :=
  if i < 123 then (i, 0) else if i < 251 then (123, i - 123) else (124, i - 251)

def blockAt (v : Disk) (d : InodeDisk) (i : Nat) : BlockSector :=
  forestLeaf 128 (table v) inodeShape d.entries (position i)

abbrev inodeNodes (v : Disk) (d : InodeDisk) : List BlockSector :=
  forestNodes 128 (table v) inodeShape d.entries

abbrev inodeInner (v : Disk) (d : InodeDisk) : List BlockSector :=
  forestInner 128 (table v) inodeShape d.entries

def Mapped (v : Disk) (d : InodeDisk) (len : Nat) : Prop :=
  ∀ i, i * 512 < len → blockAt v d i ≠ 0

def byteAt (v : Disk) (d : InodeDisk) (p : Nat) : Byte :=
  sectorByte (v (blockAt v d (p / 512))) (p % 512)

def content (v : Disk) (d : InodeDisk) (start n : Nat) : List Byte :=
  (List.range n).map fun i => byteAt v d (start + i)

theorem within_position {i : Nat} (bound : i < MAX_SECTORS) :
    Within 128 inodeShape (position i) := by
  simp only [MAX_SECTORS] at bound
  unfold position Within inodeShape
  by_cases direct : i < 123
  · simp only [direct, if_true, pow_zero]
    omega
  · by_cases single : i < 251
    · simp only [direct, single, if_true, if_false, lt_irrefl, pow_one]
      omega
    · simp only [direct, single, if_false, show ¬(124 : Nat) < 123 by omega,
        show ¬(124 : Nat) = 123 by omega]
      omega

theorem position_injective {i j : Nat} (same : position i = position j) : i = j := by
  have recover : ∀ m, m = if (position m).1 < 123 then (position m).1
      else if (position m).1 = 123 then (position m).2 + 123 else (position m).2 + 251 := by
    intro m
    unfold position
    by_cases direct : m < 123
    · simp only [direct, if_true]
    · by_cases single : m < 251
      · simp only [direct, single, if_true, if_false, lt_irrefl]
        omega
      · simp only [direct, single, if_false, show ¬(124 : Nat) < 123 by omega,
          show ¬(124 : Nat) = 123 by omega]
        omega
  rw [recover i, recover j, same]

theorem blockAt_mem {v : Disk} {d : InodeDisk} {i : Nat} (bound : i < MAX_SECTORS)
    (mapped : blockAt v d i ≠ 0) : blockAt v d i ∈ inodeNodes v d :=
  forestLeaf_mem (within_position bound) mapped

theorem blockAt_not_inner {v : Disk} {d : InodeDisk} (nodup : (inodeNodes v d).Nodup) {i : Nat}
    (bound : i < MAX_SECTORS) : blockAt v d i ∉ inodeInner v d :=
  forestLeaf_not_inner nodup (within_position bound)

theorem blockAt_injective {v : Disk} {d : InodeDisk} (nodup : (inodeNodes v d).Nodup) {i j : Nat}
    (boundI : i < MAX_SECTORS) (boundJ : j < MAX_SECTORS) (mapped : blockAt v d i ≠ 0)
    (same : blockAt v d i = blockAt v d j) : i = j :=
  position_injective (forestLeaf_injective nodup (within_position boundI) (within_position boundJ)
    mapped same)

theorem inodeInner_sub {v : Disk} {d : InodeDisk} {x : BlockSector} (member : x ∈ inodeInner v d) :
    x ∈ inodeNodes v d :=
  forestInner_sub_nodes member

theorem zero_not_mem_inodeNodes (v : Disk) (d : InodeDisk) : (0 : BlockSector) ∉ inodeNodes v d :=
  zero_not_mem_forest _ _

theorem blockAt_direct (v : Disk) (d : InodeDisk) {i : Nat} (direct : i < 123) :
    blockAt v d i = d.entries i := by
  simp only [blockAt, position, forestLeaf, inodeShape, direct, if_true, leaf]

theorem blockAt_null (v : Disk) (d : InodeDisk) (single : d.entries 123 = 0) (double : d.entries 124 = 0)
    {i : Nat} (beyond : 123 ≤ i) : blockAt v d i = 0 := by
  simp only [blockAt, position, forestLeaf, inodeShape, if_neg (show ¬i < 123 by omega)]
  split
  · simp only [single, lt_irrefl, if_false, if_true, leaf]
  · simp only [double, show ¬(124 : Nat) < 123 by omega, show ¬(124 : Nat) = 123 by omega, if_false, leaf,
      if_true]

theorem inodeNodes_direct (v : Disk) (d : InodeDisk) (single : d.entries 123 = 0)
    (double : d.entries 124 = 0) :
    inodeNodes v d = ((List.range 123).map d.entries).filter fun x => x ≠ 0 := by
  have last : List.range inodeShape.size = List.range 123 ++ [123, 124] := rfl
  have none : ∀ l, nodes 128 (table v) l 0 = [] := fun l => by cases l <;> simp only [nodes, if_true]
  rw [inodeNodes, forestNodes, last, List.flatMap_append]
  simp only [List.flatMap_cons, List.flatMap_nil, single, double, none, List.append_nil]
  rw [List.flatMap_congr (g := fun j => if d.entries j = 0 then [] else [d.entries j])]
  · induction List.range 123 with
    | nil => rfl
    | cons j rest ih =>
      rw [List.flatMap_cons, List.map_cons, List.filter_cons, ih]
      by_cases null : d.entries j = 0
      · rw [if_pos null, if_neg (by simpa using null), List.nil_append]
      · rw [if_neg null, if_pos (by simpa using null), List.singleton_append]
  · intro j member
    simp only [inodeShape, List.mem_range.mp member, if_true, nodes]

theorem inode_congr {v w : Disk} {d e : InodeDisk} (tables : ∀ j, j < 125 → e.entries j = d.entries j)
    (same : ∀ x ∈ inodeInner v d, w x = v x) :
    inodeNodes w e = inodeNodes v d ∧ inodeInner w e = inodeInner v d ∧
      ∀ i, i < MAX_SECTORS → blockAt w e i = blockAt v d i := by
  have agree : Agree 128 (table v) (table w) (forestInner 128 (table v) inodeShape d.entries) :=
    fun x member j _ => by simp only [table, same x member]
  obtain ⟨nodes, inner, leaf⟩ := forest_congr (g := inodeShape) (t := d.entries) (u := e.entries)
    tables agree
  exact ⟨nodes, inner, fun i bound => leaf _ (within_position bound)⟩

theorem indexToSector_blockAt {s : FlatFs} {d : InodeDisk} {i : Nat} (bound : i < MAX_SECTORS)
    (mapped : blockAt s.cache d i ≠ 0) : indexToSector s d i = (blockAt s.cache d i, s) := by
  unfold blockAt forestLeaf position inodeShape at mapped ⊢
  unfold indexToSector
  by_cases direct : i < 123
  · simp [direct, leaf, InodeDisk.entries]
  · simp only [direct, if_false]
    by_cases single : i < 251
    · simp only [single, if_true, show i < 123 + 128 by omega, flat_read]
      simp only [single, direct, if_true, if_false, lt_irrefl, leaf, InodeDisk.entries] at mapped ⊢
      by_cases null : d.indirectBlock = 0
      · simp [null] at mapped
      · simp only [null, if_false, pow_zero, Nat.div_one]
    · simp only [MAX_SECTORS] at bound
      simp only [single, direct, if_false, show ¬i < 123 + 128 by omega,
        show i < 123 + 128 + 128 * 128 by omega, if_true, flat_read] at mapped ⊢
      simp only [leaf, InodeDisk.entries, show ¬(124 : Nat) < 123 by omega,
        show ¬(124 : Nat) = 123 by omega, if_false, if_true, pow_one, pow_zero, Nat.div_one] at mapped ⊢
      by_cases null : d.doublyIndirectBlock = 0
      · simp [null] at mapped
      · simp only [null, if_false] at mapped ⊢
        by_cases empty : table s.cache d.doublyIndirectBlock ((i - 251) / 128) = 0
        · simp [empty] at mapped
        · simp only [empty, if_false]
          rfl

theorem byteToSector_blockAt {s : FlatFs} {inode : BlockSector} {len p : Nat}
    (length : s.inodeLength inode = len) (fits : len ≤ MAX_LENGTH)
    (mapped : Mapped s.cache (s.inodeData inode) len) (inside : p < len) :
    byteToSector s inode p = (blockAt s.cache (s.inodeData inode) (p / 512), s) := by
  simp only [MAX_LENGTH] at fits
  have index : ((p : Int) / (BLOCK_SECTOR_SIZE : Nat)).toNat = p / 512 := by
    simp only [BLOCK_SECTOR_SIZE]
    omega
  unfold byteToSector
  rw [length, if_pos (by omega), index]
  exact indexToSector_blockAt (by simp only [MAX_SECTORS]; omega) (mapped _ (by omega))

theorem byteToSector_outside {s : FlatFs} {inode : BlockSector} {p : Int}
    (outside : ¬(0 ≤ p ∧ p < s.inodeLength inode)) : byteToSector s inode p = (NO_SECTOR, s) := by
  unfold byteToSector
  rw [if_neg outside]

theorem natCast_tmod (o : Nat) : (o : Int).tmod BLOCK_SECTOR_SIZE = ((o % 512 : Nat) : Int) := by
  rw [Int.tmod_eq_emod_of_nonneg (by omega)]
  simp only [BLOCK_SECTOR_SIZE]
  omega

theorem chunkSize_eq {len o : Nat} (n : Nat) (inside : o ≤ len) :
    chunkSize len n o = (min n (min (len - o) (512 - o % 512)) : Nat) := by
  unfold chunkSize
  rw [natCast_tmod]
  simp only [BLOCK_SECTOR_SIZE]
  split <;> split <;> omega

theorem byteToSector_congr {s t : FlatFs} {inode : BlockSector} (cache : t.cache = s.cache)
    (data : t.inodeData inode = s.inodeData inode) (pos : Int) :
    (byteToSector t inode pos).1 = (byteToSector s inode pos).1 := by
  have index : ∀ d i, (indexToSector t d i).1 = (indexToSector s d i).1 := by
    intro d i
    simp only [indexToSector, apply_ite Prod.fst, flat_read, cache]
  rw [byteToSector, byteToSector, Fs.inodeLength, Fs.inodeLength, data]
  split
  · exact index _ _
  · rfl

def rawByte (s : FlatFs) (inode : BlockSector) (p : Nat) : Byte :=
  sectorByte (s.cache (byteToSector s inode p).1) (p % 512)

theorem rawByte_congr {s t : FlatFs} {inode : BlockSector} (cache : t.cache = s.cache)
    (data : t.inodeData inode = s.inodeData inode) (p : Nat) : rawByte t inode p = rawByte s inode p := by
  rw [rawByte, rawByte, byteToSector_congr cache data, cache]

theorem readChunk_eq {s : FlatFs} {x : BlockSector} {o c : Nat} (inside : c ≤ 512 - o % 512) :
    readChunk s x ((o % 512 : Nat) : Int) c =
      ((List.range c).map fun i => sectorByte (s.cache x) (o % 512 + i), s) := by
  unfold readChunk
  split
  next whole =>
    have start : o % 512 = 0 := by omega
    have size : c = 512 := by
      have := whole.2
      simp only [BLOCK_SECTOR_SIZE] at this
      omega
    subst size
    simp only [flat_read, Prod.mk.injEq, and_true]
    apply List.ext_getElem
    · simp only [List.length_ofFn, List.length_map, List.length_range]
    · intro i small _
      simp only [List.length_ofFn] at small
      simp only [List.getElem_ofFn, List.getElem_map, List.getElem_range]
      rw [start, Nat.zero_add, sectorByte_lt _ small]
  next =>
    simp only [flat_read, Prod.mk.injEq, and_true, Int.toNat_natCast]
    apply List.map_congr_left
    intro i member
    rw [bufferByte, if_pos (by omega)]
    congr 1

theorem inodeReadLoop_raw {s : FlatFs} {inode : BlockSector} {len : Nat} (length : s.inodeLength inode = len)
    (n o : Nat) (buffer : List Byte) : inodeReadLoop s inode n o buffer =
      (buffer ++ (List.range (min n (len - o))).map fun i => rawByte s inode (o + i), s) := by
  have state : ∀ pos, (byteToSector s inode pos).2 = s := flat_byteToSector s inode
  induction n using Nat.strong_induction_on generalizing o buffer with
  | _ n ih =>
    rw [inodeReadLoop]
    by_cases more : 0 < n
    · rw [if_pos (by omega), length, natCast_tmod]
      by_cases inside : o < len
      · rw [chunkSize_eq n (by omega)]
        set c := min n (min (len - o) (512 - o % 512)) with chunk
        simp only
        rw [if_neg (by omega), state, readChunk_eq (by omega)]
        simp only
        rw [show (n : Int) - (c : Nat) = ((n - c : Nat) : Int) by omega,
          show (o : Int) + (c : Nat) = ((o + c : Nat) : Int) by omega, ih (n - c) (by omega), List.append_assoc]
        have front : (List.range c).map (fun i => sectorByte (s.cache (byteToSector s inode o).1) (o % 512 + i)) =
            (List.range c).map fun i => rawByte s inode (o + i) := by
          apply List.map_congr_left
          intro i member
          have small := List.mem_range.mp member
          have same : byteToSector s inode (o + i : Nat) = byteToSector s inode o := by
            rw [byteToSector, byteToSector, length, if_pos (by omega), if_pos (by omega)]
            simp only [BLOCK_SECTOR_SIZE]
            rw [show (((o + i : Nat) : Int) / (512 : Nat)).toNat = ((o : Int) / (512 : Nat)).toNat by omega]
          rw [rawByte, same, show (o + i) % 512 = o % 512 + i by omega]
        rw [front, show min (n - c) (len - (o + c)) = min n (len - o) - c by omega]
        conv_rhs => rw [show min n (len - o) = c + (min n (len - o) - c) by omega, List.range_add, List.map_append,
          List.map_map]
        simp only [Function.comp_def, Nat.add_assoc]
      · have stop : chunkSize len n o ≤ 0 := by
          unfold chunkSize
          rw [natCast_tmod]
          simp only [BLOCK_SECTOR_SIZE]
          split <;> split <;> omega
        simp only [if_pos stop, state]
        rw [show min n (len - o) = 0 by omega, List.range_zero, List.map_nil, List.append_nil]
    · rw [if_neg (by omega), show min n (len - o) = 0 by omega, List.range_zero, List.map_nil, List.append_nil]

theorem inodeReadAt_raw {s : FlatFs} {inode : BlockSector} {len : Nat} (length : s.inodeLength inode = len)
    (n o : Nat) : inodeReadAt s inode n o =
      ((List.range (min n (len - o))).map fun i => rawByte s inode (o + i), s) := by
  unfold inodeReadAt
  rw [inodeReadLoop_raw length, List.nil_append]

theorem inodeReadAt_spec {s : FlatFs} {inode : BlockSector} {len : Nat}
    (length : s.inodeLength inode = len) (fits : len ≤ MAX_LENGTH)
    (mapped : Mapped s.cache (s.inodeData inode) len) (n o : Nat) :
    inodeReadAt s inode n o = (content s.cache (s.inodeData inode) o (min n (len - o)), s) := by
  rw [inodeReadAt_raw length]
  refine Prod.ext (List.map_congr_left fun i member => ?_) rfl
  have inside := List.mem_range.mp member
  rw [rawByte, byteToSector_blockAt length fits mapped (by omega)]
  rfl

def patchSector (b : Sector) (start c : Nat) (bytes : Nat → Byte) : Sector :=
  fun i => if start ≤ i.val ∧ i.val < start + c then bytes (i.val - start) else b i

theorem writeChunk_eq {s : FlatFs} {x : BlockSector} {o c : Nat} (inside : c ≤ 512 - o % 512)
    (buffer : Nat → Byte) (bytesWritten : Nat) :
    writeChunk s x ((o % 512 : Nat) : Int) c buffer bytesWritten =
      s.bufferCacheWrite x (patchSector (s.cache x) (o % 512) c fun j => buffer (bytesWritten + j)) := by
  unfold writeChunk
  split
  next whole =>
    have size : c = 512 := by
      have := whole.2
      simp only [BLOCK_SECTOR_SIZE] at this
      omega
    congr 1
    funext i
    have bound : i.val < 512 := i.isLt
    rw [patchSector, if_pos (by omega), Int.toNat_natCast, show o % 512 = 0 by omega, Nat.sub_zero]
  next part =>
    have bounce : (if (0 : Int) < (o % 512 : Nat) ∨ (c : Int) < BLOCK_SECTOR_SIZE - (o % 512 : Nat) then
        s.bufferCacheRead x else (zeros, s)) = (s.cache x, s) := by
      rw [if_pos]
      · rfl
      · simp only [BLOCK_SECTOR_SIZE] at part ⊢
        omega
    simp only [bounce]
    congr 1
    funext i
    unfold patchSector
    by_cases inRange : o % 512 ≤ i.val ∧ i.val < o % 512 + c
    · rw [if_pos (by omega), if_pos inRange]
      congr 1
      omega
    · rw [if_neg (by omega), if_neg inRange]

/-- `w` is `v` with `n` bytes of a file replaced from offset `o` on. -/
structure Wrote (v w : Disk) (d : InodeDisk) (len o n : Nat) (bytes : Nat → Byte) : Prop where
  frame : ∀ x, (∀ i, o / 512 ≤ i → i * 512 < o + n → x ≠ blockAt v d i) → w x = v x
  blocks : ∀ i, i < MAX_SECTORS → blockAt w d i = blockAt v d i
  bytes : ∀ p, p / 512 * 512 < len →
    byteAt w d p = if o ≤ p ∧ p < o + n then bytes (p - o) else byteAt v d p

theorem Wrote.refl (v : Disk) (d : InodeDisk) (len o : Nat) (bytes : Nat → Byte) :
    Wrote v v d len o 0 bytes :=
  ⟨fun _ _ => rfl, fun _ _ => rfl, fun p _ => by rw [if_neg (by omega)]⟩

theorem Wrote.trans {v w u : Disk} {d : InodeDisk} {len o c n : Nat} {bytes : Nat → Byte}
    (fits : len ≤ MAX_LENGTH) (bound : o + n ≤ len) (part : c ≤ n)
    (early : Wrote v w d len o c bytes)
    (late : Wrote w u d len (o + c) (n - c) fun j => bytes (c + j)) : Wrote v u d len o n bytes := by
  simp only [MAX_LENGTH] at fits
  refine ⟨fun x apart => ?_, fun i small => (late.blocks i small).trans (early.blocks i small),
    fun p inside => ?_⟩
  · rw [late.frame x, early.frame x]
    · intro i low high
      exact apart i low (by omega)
    · intro i low high
      rw [early.blocks i (by simp only [MAX_SECTORS]; omega)]
      exact apart i (by omega) (by omega)
  · rw [late.bytes p inside, early.bytes p inside]
    by_cases first : o ≤ p ∧ p < o + c
    · rw [if_neg (by omega), if_pos first, if_pos (by omega)]
    · by_cases second : o + c ≤ p ∧ p < o + c + (n - c)
      · rw [if_pos second, if_pos (by omega), show c + (p - (o + c)) = p - o by omega]
      · rw [if_neg second, if_neg first, if_neg (by omega)]

theorem Wrote.nodes {v w : Disk} {d : InodeDisk} {len o n : Nat} {bytes : Nat → Byte}
    (wrote : Wrote v w d len o n bytes) (nodup : (inodeNodes v d).Nodup) (fits : len ≤ MAX_LENGTH)
    (bound : o + n ≤ len) :
    inodeNodes w d = inodeNodes v d ∧ inodeInner w d = inodeInner v d := by
  simp only [MAX_LENGTH] at fits
  have tables : ∀ x ∈ inodeInner v d, w x = v x := fun x member =>
    wrote.frame x fun i low high same =>
      blockAt_not_inner nodup (by simp only [MAX_SECTORS]; omega) (same ▸ member)
  obtain ⟨nodes, inner, -⟩ := inode_congr (d := d) (e := d) (fun _ _ => rfl) tables
  exact ⟨nodes, inner⟩

theorem Wrote.mapped {v w : Disk} {d : InodeDisk} {len o n : Nat} {bytes : Nat → Byte}
    (wrote : Wrote v w d len o n bytes) (fits : len ≤ MAX_LENGTH) (mapped : Mapped v d len) :
    Mapped w d len := by
  simp only [MAX_LENGTH] at fits
  intro i below
  rw [wrote.blocks i (by simp only [MAX_SECTORS]; omega)]
  exact mapped i below

theorem Wrote.chunk {v : Disk} {d : InodeDisk} {len o c : Nat} (bytes : Nat → Byte)
    (nodup : (inodeNodes v d).Nodup) (fits : len ≤ MAX_LENGTH) (mapped : Mapped v d len)
    (inside : c ≤ 512 - o % 512) (bound : o + c ≤ len) (some : 0 < c) :
    Wrote v (Function.update v (blockAt v d (o / 512))
      (patchSector (v (blockAt v d (o / 512))) (o % 512) c bytes)) d len o c bytes := by
  simp only [MAX_LENGTH] at fits
  have small : o / 512 < MAX_SECTORS := by simp only [MAX_SECTORS]; omega
  have index := fun x member =>
    Function.update_of_ne (f := v) (v := patchSector (v (blockAt v d (o / 512))) (o % 512) c bytes)
      (fun same : x = blockAt v d (o / 512) => blockAt_not_inner nodup small (same ▸ member))
  obtain ⟨-, -, blocks⟩ := inode_congr (d := d) (e := d) (fun _ _ => rfl) index
  refine ⟨fun x apart => ?_, blocks, fun p below => ?_⟩
  · exact Function.update_of_ne (apart (o / 512) le_rfl (by omega)) _ _
  · have smallP : p / 512 < MAX_SECTORS := by simp only [MAX_SECTORS]; omega
    unfold byteAt
    rw [blocks _ smallP]
    by_cases same : p / 512 = o / 512
    · have slot : p % 512 < BLOCK_SECTOR_SIZE := Nat.mod_lt _ (by decide)
      rw [same, Function.update_self, sectorByte_lt _ slot, sectorByte_lt _ slot]
      unfold patchSector
      by_cases inRange : o ≤ p ∧ p < o + c
      · rw [if_pos (by simp only; omega), if_pos inRange]
        congr 1
        simp only
        omega
      · rw [if_neg (by simp only; omega), if_neg inRange]
    · have different : blockAt v d (p / 512) ≠ blockAt v d (o / 512) := fun equal =>
        same (blockAt_injective nodup smallP small (mapped _ below) equal)
      rw [Function.update_of_ne different, if_neg (by omega)]

/-- Writing the data of an inode does not write the inode: it is in memory, or elsewhere on the disk. -/
def Settled (s : FlatFs) (inode : BlockSector) : Prop :=
  (s.findInode inode).isSome ∨ inode ∉ inodeNodes s.cache (s.inodeData inode)

theorem Settled.data {s : FlatFs} {inode : BlockSector} {w : Disk} {len o n : Nat} {bytes : Nat → Byte}
    (settled : Settled s inode) (fits : len ≤ MAX_LENGTH) (mapped : Mapped s.cache (s.inodeData inode) len)
    (wrote : Wrote s.cache w (s.inodeData inode) len o n bytes) (bound : o + n ≤ len) :
    ({ s with cache := w } : FlatFs).inodeData inode = s.inodeData inode := by
  rcases settled with listed | apart
  · exact Fs.inodeData_of_listed listed rfl
  · have same : w inode = s.cache inode := wrote.frame inode fun i _ below equal => by
      simp only [MAX_LENGTH] at fits
      apply apart
      have member := blockAt_mem (v := s.cache) (d := s.inodeData inode) (i := i)
        (by simp only [MAX_SECTORS]; omega) (mapped i (by omega))
      rwa [← equal] at member
    have sector : ({ s with cache := w } : FlatFs).findInode inode = s.findInode inode := rfl
    unfold Fs.inodeData
    rw [sector]
    cases s.findInode inode with
    | none => exact congrArg InodeDisk.decode same
    | some i => rfl

theorem inodeWriteLoop_spec {s : FlatFs} {inode : BlockSector} {len : Nat}
    (settled : Settled s inode) (length : s.inodeLength inode = len)
    (fits : len ≤ MAX_LENGTH) (mapped : Mapped s.cache (s.inodeData inode) len)
    (nodup : (inodeNodes s.cache (s.inodeData inode)).Nodup) (buffer : Nat → Byte)
    (n o bytesWritten : Nat) (bound : o + n ≤ len) :
    ∃ w, inodeWriteLoop s inode buffer n o bytesWritten =
        (((bytesWritten + n : Nat) : Int), { s with cache := w }) ∧
      Wrote s.cache w (s.inodeData inode) len o n fun j => buffer (bytesWritten + j) := by
  induction n using Nat.strong_induction_on generalizing s o bytesWritten with
  | _ n ih =>
    rw [inodeWriteLoop]
    by_cases more : 0 < n
    · rw [if_pos (by omega), length, natCast_tmod, chunkSize_eq n (by omega),
        byteToSector_blockAt length fits mapped (by omega)]
      set c := min n (min (len - o) (512 - o % 512)) with chunk
      simp only
      rw [if_neg (by omega), writeChunk_eq (by omega), flat_write]
      have step := Wrote.chunk (fun j => buffer (bytesWritten + j)) nodup fits mapped
        (show c ≤ 512 - o % 512 by omega) (by omega) (by omega)
      generalize Function.update s.cache (blockAt s.cache (s.inodeData inode) (o / 512)) _ = v at *
      have data := settled.data fits mapped step (by omega)
      have nodes := (step.nodes nodup fits (by omega)).1
      have settledNext : Settled { s with cache := v } inode := settled.imp id fun apart => by
        rw [data, nodes]
        exact apart
      obtain ⟨w, run, rest⟩ := ih (n - c) (by omega) (s := { s with cache := v }) settledNext
        (by rw [← length, Fs.inodeLength, data]; rfl) (by rw [data]; exact step.mapped fits mapped)
        (by rw [data, nodes]; exact nodup) (o + c) (bytesWritten + c) (by omega)
      rw [data] at rest
      have shift : (fun j => buffer (bytesWritten + c + j)) = fun j => buffer (bytesWritten + (c + j)) :=
        funext fun j => by rw [Nat.add_assoc]
      rw [shift] at rest
      refine ⟨w, ?_, Wrote.trans fits bound (by omega) step rest⟩
      rw [show (n : Int) - (c : Nat) = ((n - c : Nat) : Int) by omega,
        show (o : Int) + (c : Nat) = ((o + c : Nat) : Int) by omega,
        show (bytesWritten : Int) + (c : Nat) = ((bytesWritten + c : Nat) : Int) by omega, run,
        show bytesWritten + c + (n - c) = bytesWritten + n by omega]
    · have none : n = 0 := by omega
      subst none
      exact ⟨s.cache, by simp, Wrote.refl _ _ _ _ _⟩

end ShellOs.FileSystem
