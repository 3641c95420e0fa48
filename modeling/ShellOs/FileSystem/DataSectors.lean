import ShellOs.FileSystem.TransparentCommands
import ShellOs.FileSystem.Content
import ShellOs.Lib.Buffer

/-! The two readers of the block map: `get_inode_data_sectors` lists what `index_to_sector` finds. -/

namespace ShellOs.FileSystem
open Lib

/-- `sectors[cur_i] = blocks[i]` for `l` entries of a table of `entries`; `none` once an index is outside. -/
def copyBlocks (blocks : Nat → BlockSector) (entries : Nat) :
    Nat → Nat → List BlockSector × Nat → Option (List BlockSector × Nat)
  | 0, _, filled => some filled
  | l + 1, i, (sectors, curI) =>
    if i < entries then
      (Buffer.store sectors curI (blocks i)).bind fun sectors => copyBlocks blocks entries l (i + 1) (sectors, curI + 1)
    else none

section arrays

variable {σ : Type} [Store σ BlockSector Sector]

/-- The loop behind the doubly indirect block, with the array it fills. -/
def doublyInto : Nat → Nat → Nat → (Nat → BlockSector) → List BlockSector × Nat → Fs σ →
    Option ((List BlockSector × Nat) × Fs σ)
  | 0, _, _, _, filled, s => some (filled, s)
  | count + 1, i, numSectors, blocks, filled, s =>
    if i < INDIRECT_BLOCKS_PER_SECTOR then
      let subsize := min numSectors INDIRECT_BLOCKS_PER_SECTOR
      let block := s.bufferCacheRead (blocks i)
      (copyBlocks (sectorWord block.1) INDIRECT_BLOCKS_PER_SECTOR subsize 0 filled).bind fun filled =>
        doublyInto count (i + 1) (numSectors - subsize) blocks filled block.2
    else none

/-- `get_inode_data_sectors` with the array that `malloc` gave it and every index checked. -/
def getInodeDataSectorsInto (memory : Nat → BlockSector) (s : Fs σ) (inode : BlockSector) :
    Option (List BlockSector × Fs σ) :=
  let d := s.inodeData inode
  if d.length.toInt < 0 then some ([], s)
  else
    let numSectors := bytesToSectors d.length.toInt
    let sectors := (List.range numSectors).map memory
    let l := min numSectors DIRECT_BLOCKS_COUNT
    (copyBlocks d.direct DIRECT_BLOCKS_COUNT l 0 (sectors, 0)).bind fun filled =>
    let numSectors := numSectors - l
    let l := min numSectors INDIRECT_BLOCKS_PER_SECTOR
    let block := readIndex s l d.indirectBlock
    (copyBlocks (sectorWord block.1) INDIRECT_BLOCKS_PER_SECTOR l 0 filled).bind fun filled =>
    let numSectors := numSectors - l
    let l := min numSectors (INDIRECT_BLOCKS_PER_SECTOR * INDIRECT_BLOCKS_PER_SECTOR)
    let index := readIndex block.2 l d.doublyIndirectBlock
    (doublyInto (divRoundUp l INDIRECT_BLOCKS_PER_SECTOR) 0 l (sectorWord index.1) filled index.2).map
      fun r => (r.1.1, r.2)

theorem copyBlocks_overlay (blocks : Nat → BlockSector) {entries l i curI : Nat} {sectors : List BlockSector}
    (inside : i + l ≤ entries) (room : curI + l ≤ sectors.length) : copyBlocks blocks entries l i (sectors, curI) =
      some (Buffer.overlay sectors curI ((List.range l).map fun k => blocks (i + k)), curI + l) := by
  induction l generalizing i curI sectors with
  | zero => rw [copyBlocks, List.range_zero, List.map_nil, Buffer.overlay_nil, Nat.add_zero]
  | succ l ih =>
    have one : (Buffer.overlay sectors curI [blocks i]).length = sectors.length :=
      Buffer.overlay_length (by rw [List.length_singleton]; omega)
    have both := Buffer.overlay_append sectors curI [blocks i]
      ((List.range l).map fun k => blocks (i + 1 + k)) (by simp; omega)
    have values : (List.range (l + 1)).map (fun k => blocks (i + k)) =
        [blocks i] ++ (List.range l).map fun k => blocks (i + 1 + k) := by
      rw [List.range_succ_eq_map, List.map_cons, List.map_map, Nat.add_zero, List.singleton_append]
      congr 1
      apply List.map_congr_left
      intro k _
      rw [Function.comp, Nat.succ_eq_add_one, Nat.add_assoc, Nat.add_comm 1 k]
    rw [copyBlocks, if_pos (by omega), Buffer.store_overlay _ (by omega), Option.bind_some, ih (by omega) (by omega),
      values, ← both, List.length_singleton, Nat.add_assoc, Nat.add_comm 1 l]

theorem doublyDataSectors_length (count i numSectors : Nat) (blocks : Nat → BlockSector) (s : Fs σ)
    (enough : numSectors ≤ 128 * count) : (doublyDataSectors count i numSectors blocks s).1.length = numSectors := by
  induction count generalizing i numSectors s with
  | zero =>
    obtain rfl : numSectors = 0 := by omega
    rfl
  | succ count ih =>
    simp only [doublyDataSectors, INDIRECT_BLOCKS_PER_SECTOR, List.length_append, List.length_map, List.length_range]
    rw [ih (i + 1) _ _ (by omega)]
    omega

theorem doublyInto_overlay (blocks : Nat → BlockSector) {count i numSectors curI : Nat} {sectors : List BlockSector}
    (s : Fs σ) (inside : i + count ≤ 128) (enough : numSectors ≤ 128 * count)
    (room : curI + numSectors ≤ sectors.length) : doublyInto count i numSectors blocks (sectors, curI) s =
      let listed := doublyDataSectors count i numSectors blocks s
      some ((Buffer.overlay sectors curI listed.1, curI + numSectors), listed.2) := by
  induction count generalizing i numSectors curI sectors s with
  | zero =>
    obtain rfl : numSectors = 0 := by omega
    simp only [doublyInto, doublyDataSectors, Buffer.overlay_nil, Nat.add_zero]
  | succ count ih =>
    have rest := doublyDataSectors_length count (i + 1) (numSectors - min numSectors 128) blocks
      (s.bufferCacheRead (blocks i)).2 (by omega)
    simp only [doublyInto, doublyDataSectors, INDIRECT_BLOCKS_PER_SECTOR]
    rw [if_pos (by omega), copyBlocks_overlay _ (by omega) (by omega), Option.bind_some,
      ih _ (by omega) (by omega) (by rw [Buffer.overlay_length (by simp; omega)]; omega)]
    have both := Buffer.overlay_append sectors curI
      ((List.range (min numSectors 128)).map (sectorWord (s.bufferCacheRead (blocks i)).1))
      (doublyDataSectors count (i + 1) (numSectors - min numSectors 128) blocks (s.bufferCacheRead (blocks i)).2).1
      (by rw [List.length_append, rest, List.length_map, List.length_range]; omega)
    rw [List.length_map, List.length_range] at both
    simp only [Nat.zero_add, ← both]
    rw [show curI + min numSectors 128 + (numSectors - min numSectors 128) = curI + numSectors by omega]

theorem getInodeDataSectorsInto_eq (memory : Nat → BlockSector) (s : Fs σ) (inode : BlockSector)
    (few : bytesToSectors (s.inodeLength inode) ≤ 16635) :
    getInodeDataSectorsInto memory s inode = some (getInodeDataSectors s inode) := by
  by_cases sign : (s.inodeData inode).length.toInt < 0
  · simp only [getInodeDataSectorsInto, getInodeDataSectors, if_pos sign]
  · have bound : bytesToSectors (s.inodeData inode).length.toInt ≤ 16635 := few
    simp only [getInodeDataSectorsInto, getInodeDataSectors, if_neg sign, DIRECT_BLOCKS_COUNT,
      INDIRECT_BLOCKS_PER_SECTOR, divRoundUp]
    generalize bytesToSectors (s.inodeData inode).length.toInt = n at bound ⊢
    generalize readIndex s (min (n - min n 123) 128) (s.inodeData inode).indirectBlock = block
    generalize readIndex block.2 _ (s.inodeData inode).doublyIndirectBlock = index
    set sectors := (List.range n).map memory with sectorsEq
    have long : sectors.length = n := by rw [sectorsEq, List.length_map, List.length_range]
    rw [copyBlocks_overlay _ (by omega) (by omega), Option.bind_some]
    simp only [Nat.zero_add]
    set direct := (List.range (min n 123)).map (s.inodeData inode).direct with directEq
    have longDirect : direct.length = min n 123 := by rw [directEq, List.length_map, List.length_range]
    have sameDirect : (Buffer.overlay sectors 0 direct).length = sectors.length := Buffer.overlay_length (by omega)
    rw [copyBlocks_overlay _ (by omega) (by omega), Option.bind_some]
    simp only [Nat.zero_add]
    set single := (List.range (min (n - min n 123) 128)).map (sectorWord block.1) with singleEq
    have longSingle : single.length = min (n - min n 123) 128 := by rw [singleEq, List.length_map, List.length_range]
    have second := Buffer.overlay_append sectors 0 direct single
      (by rw [List.length_append]; omega)
    rw [Nat.zero_add, longDirect] at second
    rw [second, doublyInto_overlay _ _ (by omega) (by omega)
      (by rw [Buffer.overlay_length (by rw [List.length_append]; omega)]; omega), Option.map_some]
    set more := min (n - min n 123 - min (n - min n 123) 128) (128 * 128) with moreEq
    have longDoubly := doublyDataSectors_length ((more + 128 - 1) / 128) 0 more (sectorWord index.1)
      index.2 (by omega)
    generalize doublyDataSectors ((more + 128 - 1) / 128) 0 more (sectorWord index.1) index.2 = doubly at longDoubly ⊢
    have third := Buffer.overlay_append sectors 0 (direct ++ single) doubly.1
      (by simp only [List.length_append]; omega)
    rw [Nat.zero_add, List.length_append, longDirect, longSingle] at third
    simp only [third]
    rw [Buffer.overlay_whole _ _ (by simp only [List.length_append]; omega)]

end arrays

section flat

variable (s : FlatFs)

theorem doublyDataSectors_eq (count i numSectors : Nat) (blocks : Nat → BlockSector) (enough : numSectors ≤ 128 * count) :
    doublyDataSectors count i numSectors blocks s = ((List.range numSectors).map fun k =>
      sectorWord (s.cache (blocks (i + k / 128))) (k % 128), s) := by
  induction count generalizing i numSectors with
  | zero =>
    obtain rfl : numSectors = 0 := by omega
    rfl
  | succ count ih =>
    have rest := ih (i + 1) (numSectors - min numSectors 128) (by omega)
    have split : List.range numSectors = List.range (min numSectors 128) ++
        (List.range (numSectors - min numSectors 128)).map (min numSectors 128 + ·) := by
      rw [← List.range_add]
      congr 1
      omega
    simp only [doublyDataSectors, INDIRECT_BLOCKS_PER_SECTOR, flat_read, rest]
    rw [split, List.map_append, List.map_map]
    refine Prod.ext (congrArg₂ _ (List.map_congr_left fun k inside => ?_) (List.map_congr_left fun k inside => ?_)) rfl
    · have below := List.mem_range.mp inside
      rw [Nat.div_eq_of_lt (by omega), Nat.mod_eq_of_lt (by omega), Nat.add_zero]
    · have more := List.mem_range.mp inside
      simp only [Function.comp]
      have full : min numSectors 128 = 128 := by omega
      rw [full, Nat.add_div_left _ (by decide), Nat.add_mod_left, Nat.add_right_comm, Nat.add_assoc]

theorem readIndex_flat_eq (wanted : Nat) (sector : BlockSector) :
    readIndex s wanted sector = (if 0 < wanted then s.cache sector else zeros, s) := by
  unfold readIndex
  split <;> rfl

theorem getInodeDataSectors_eq (inode : BlockSector) {n : Nat} (length : bytesToSectors (s.inodeLength inode) = n)
    (some : 0 ≤ s.inodeLength inode) (few : n ≤ 16635) : getInodeDataSectors s inode =
      ((List.range n).map fun i => (indexToSector s (s.inodeData inode) i).1, s) := by
  have sign : ¬(s.inodeData inode).length.toInt < 0 := not_lt.mpr some
  have count : bytesToSectors (s.inodeData inode).length.toInt = n := length
  have direct : ∀ i < min n 123, (s.inodeData inode).direct i = (indexToSector s (s.inodeData inode) i).1 := by
    intro i below
    rw [indexToSector, if_pos (by simp only [DIRECT_BLOCKS_COUNT]; omega)]
  have single : ∀ i < min (n - min n 123) 128, sectorWord (s.cache (s.inodeData inode).indirectBlock) i =
      (indexToSector s (s.inodeData inode) (min n 123 + i)).1 := by
    intro i below
    rw [indexToSector, if_neg (by simp only [DIRECT_BLOCKS_COUNT]; omega),
      if_pos (by simp only [DIRECT_BLOCKS_COUNT, INDIRECT_BLOCKS_PER_SECTOR]; omega)]
    simp only [flat_read, DIRECT_BLOCKS_COUNT]
    rw [show min n 123 + i - 123 = i by omega]
  have double : ∀ i < n - min n 123 - min (n - min n 123) 128,
      sectorWord (s.cache (sectorWord (s.cache (s.inodeData inode).doublyIndirectBlock) (0 + i / 128))) (i % 128) =
        (indexToSector s (s.inodeData inode) (min n 123 + min (n - min n 123) 128 + i)).1 := by
    intro i below
    rw [indexToSector, if_neg (by simp only [DIRECT_BLOCKS_COUNT]; omega),
      if_neg (by simp only [DIRECT_BLOCKS_COUNT, INDIRECT_BLOCKS_PER_SECTOR]; omega),
      if_pos (by simp only [DIRECT_BLOCKS_COUNT, INDIRECT_BLOCKS_PER_SECTOR]; omega)]
    simp only [flat_read, DIRECT_BLOCKS_COUNT, INDIRECT_BLOCKS_PER_SECTOR]
    rw [show min n 123 + min (n - min n 123) 128 + i - (123 + 128) = i by omega, Nat.zero_add]
  have parts : List.range n = (List.range (min n 123) ++
      (List.range (min (n - min n 123) 128)).map (min n 123 + ·)) ++
      (List.range (n - min n 123 - min (n - min n 123) 128)).map (min n 123 + min (n - min n 123) 128 + ·) := by
    rw [← List.range_add, ← List.range_add]
    congr 1
    omega
  simp only [getInodeDataSectors, if_neg sign, count, DIRECT_BLOCKS_COUNT, INDIRECT_BLOCKS_PER_SECTOR,
    readIndex_flat_eq, divRoundUp]
  rw [doublyDataSectors_eq _ _ _ _ _ (by omega), parts, List.map_append, List.map_append, List.map_map, List.map_map]
  refine Prod.ext (congrArg₂ _ (congrArg₂ _ (List.map_congr_left fun i inside => ?_)
    (List.map_congr_left fun i inside => ?_)) ?_) rfl
  · exact direct i (List.mem_range.mp inside)
  · have below := List.mem_range.mp inside
    rw [if_pos (by omega)]
    exact single i below
  · rw [show min (n - min n 123 - min (n - min n 123) 128) (128 * 128) = n - min n 123 - min (n - min n 123) 128 by omega]
    apply List.map_congr_left
    intro i inside
    have below := List.mem_range.mp inside
    rw [if_pos (by omega)]
    exact double i below

end flat

/-- `get_inode_data_sectors` has one entry for each sector of the file, the one that `index_to_sector` gives, and it
stays inside the array that it allocates for them. -/
theorem getInodeDataSectors_indexToSector {σ : Type} [Store σ BlockSector Sector] [LawfulStore σ] (s : Fs σ)
    (inode : BlockSector) (some : 0 ≤ s.inodeLength inode) (fits : s.inodeLength inode ≤ 16635 * 512) :
    (∀ memory, getInodeDataSectorsInto memory s inode = Option.some (getInodeDataSectors s inode)) ∧
      (getInodeDataSectors s inode).1.length = ((s.inodeLength inode).toNat + 511) / 512 ∧
      ∀ i, i < ((s.inodeLength inode).toNat + 511) / 512 →
        (getInodeDataSectors s inode).1[i]? = Option.some (indexToSector s (s.inodeData inode) i).1 := by
  have count : bytesToSectors (s.flat.inodeLength inode) = ((s.inodeLength inode).toNat + 511) / 512 := by
    have whole : ((s.inodeLength inode).toNat : Int) = s.flat.inodeLength inode := Int.toNat_of_nonneg some
    rw [← whole]
    exact bytesToSectors_eq (by omega)
  have listed : (getInodeDataSectors s inode).1 = (List.range (((s.inodeLength inode).toNat + 511) / 512)).map
      fun i => (indexToSector s (s.inodeData inode) i).1 := by
    have flat := congrArg Prod.fst (getInodeDataSectors_eq s.flat inode count some (by omega))
    rw [← getInodeDataSectors_flat, flatten_fst] at flat
    rw [flat]
    apply List.map_congr_left
    intro i _
    rw [Fs.inodeData_flat, ← indexToSector_flat, flatten_fst]
  have few : bytesToSectors (s.inodeLength inode) ≤ 16635 := by
    rw [Fs.inodeLength_flat] at count
    omega
  refine ⟨fun memory => getInodeDataSectorsInto_eq memory s inode few, ?_⟩
  rw [listed]
  refine ⟨by rw [List.length_map, List.length_range], fun i below => ?_⟩
  rw [List.getElem?_map, List.getElem?_range below, Option.map_some]

def thousandBytes : FlatFs := filesysStart (Function.update (fun _ => zeros) 5 (diskInode 1000 false).encode) 80

theorem getInodeDataSectors_thousand : (getInodeDataSectors thousandBytes 5).1.length = 2 := by
  have length : thousandBytes.inodeLength 5 = 1000 := by
    have block : thousandBytes.cache 5 = (diskInode 1000 false).encode := by
      simp [thousandBytes, filesysStart]
    have data : thousandBytes.inodeData 5 = diskInode 1000 false := by
      rw [← InodeDisk.decode_encode (diskInode 1000 false), ← block]
      rfl
    rw [Fs.inodeLength, data]
    decide
  have read := (getInodeDataSectors_indexToSector thousandBytes 5 (by rw [length]; decide) (by rw [length]; decide)).2.1
  rw [length] at read
  exact read

end ShellOs.FileSystem
