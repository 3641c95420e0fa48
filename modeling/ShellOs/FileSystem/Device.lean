import ShellOs.FileSystem.Block
import ShellOs.Lib.Buffer

/-! Below the array of sectors: the host file, the driver that seeks in it, and partitions (ide.c, partition.c, block.c). -/

namespace ShellOs.FileSystem.Device
open Lib

abbrev HostDisk := List Byte

/-- `lseek`, then `read`. What lies past the end of the file stays as it was in the buffer. -/
def hostRead (host : HostDisk) (offset : Nat) (buffer : Sector) : Sector := fun i => host.getD (offset + i) (buffer i)

/-- `lseek`, then `write`. A gap behind the old end of the file is filled with zeros. -/
def hostWrite (host : HostDisk) (offset : Nat) (buffer : Sector) : HostDisk :=
  Buffer.overlay (host ++ List.replicate (offset + BLOCK_SECTOR_SIZE - host.length) 0) offset (List.ofFn buffer)

/-- `sec_no * BLOCK_SECTOR_SIZE`, a product of unsigned 32-bit numbers. -/
def seekOffset (secNo : BlockSector) : Nat := (secNo * BitVec.ofNat 32 BLOCK_SECTOR_SIZE).toNat

def ideRead (host : HostDisk) (secNo : BlockSector) (buffer : Sector) : Sector := hostRead host (seekOffset secNo) buffer

def ideWrite (host : HostDisk) (secNo : BlockSector) (buffer : Sector) : HostDisk :=
  hostWrite host (seekOffset secNo) buffer

/-- `struct block`: the disk itself, or a partition of another block device. -/
inductive Block
  | ata (size : BlockSector)
  | partition (block : Block) (start size : BlockSector)

namespace Block

def size : Block → BlockSector
  | .ata size => size
  | .partition _ _ size => size

def offset : Block → BlockSector → Nat
  | .ata _, sector => seekOffset sector
  | .partition block start _, sector => block.offset (start + sector + 1)

def extent (host : HostDisk) : Block → Nat × Nat
  | .ata _ => (0, host.length)
  | .partition _ start size => (start.toNat * BLOCK_SECTOR_SIZE, (start.toNat + size.toNat) * BLOCK_SECTOR_SIZE)

end Block

def identifyAtaDevice (host : HostDisk) : Block := .ata (BitVec.ofNat 32 (host.length / BLOCK_SECTOR_SIZE))

def foundPartition (block : Block) (start size : BlockSector) : Option Block :=
  if block.size ≤ start then none
  else if start + size < start ∨ block.size < start + size then none
  else some (.partition block start size)

def blockRead : Block → HostDisk → BlockSector → Sector → Sector
  | .ata _, host, sector, buffer => ideRead host sector buffer
  | .partition block start _, host, sector, buffer => blockRead block host (start + sector + 1) buffer

def blockWrite : Block → HostDisk → BlockSector → Sector → HostDisk
  | .ata _, host, sector, buffer => ideWrite host sector buffer
  | .partition block start _, host, sector, buffer => blockWrite block host (start + sector + 1) buffer

/-- `fs_device` after `ide_init`: the disk, or a partition that was found on it. -/
def FsDevice (host : HostDisk) (block : Block) : Prop :=
  block = identifyAtaDevice host ∨ ∃ start size, foundPartition (identifyAtaDevice host) start size = some block

def InFreeMap (block : Block) (sector : BlockSector) : Prop := sector < block.size - 1

/-- Sectors that the free map can hand out are at disjoint places inside the host file and the block device. -/
structure Injective (host : HostDisk) (block : Block) : Prop where
  apart : ∀ i j, InFreeMap block i → InFreeMap block j → i ≠ j →
    block.offset i + BLOCK_SECTOR_SIZE ≤ block.offset j ∨ block.offset j + BLOCK_SECTOR_SIZE ≤ block.offset i
  inFile : ∀ i, InFreeMap block i → block.offset i + BLOCK_SECTOR_SIZE ≤ host.length
  inBlock : ∀ i, InFreeMap block i → (block.extent host).1 ≤ block.offset i ∧
    block.offset i + BLOCK_SECTOR_SIZE ≤ (block.extent host).2

/-- No product of the driver gets to 2^32, except for the last sector of a partition that starts the disk. -/
def Addressable : Block → Prop
  | .ata size => 1 ≤ size.toNat ∧ size.toNat ≤ 2 ^ 23 + 1
  | .partition _ start size => 1 ≤ size.toNat ∧ (size.toNat = 1 ∨ start.toNat + size.toNat ≤ 2 ^ 23 ∨
      start = 0 ∧ size.toNat ≤ 2 ^ 23 + 1)

theorem seekOffset_eq (secNo : BlockSector) : seekOffset secNo = secNo.toNat * 512 % 2 ^ 32 := by
  simp only [seekOffset, BLOCK_SECTOR_SIZE, BitVec.toNat_mul, BitVec.toNat_ofNat]

theorem blockRead_offset (block : Block) (host : HostDisk) (sector : BlockSector) (buffer : Sector) :
    blockRead block host sector buffer = hostRead host (block.offset sector) buffer := by
  induction block generalizing sector with
  | ata size => rfl
  | partition block start size ih => rw [blockRead, ih, Block.offset]

theorem blockWrite_offset (block : Block) (host : HostDisk) (sector : BlockSector) (buffer : Sector) :
    blockWrite block host sector buffer = hostWrite host (block.offset sector) buffer := by
  induction block generalizing sector with
  | ata size => rfl
  | partition block start size ih => rw [blockWrite, ih, Block.offset]

theorem inFreeMap_iff {block : Block} (sector : BlockSector) (some : 1 ≤ block.size.toNat) :
    InFreeMap block sector ↔ sector.toNat + 1 < block.size.toNat := by
  have bound := block.size.isLt
  have one : (1 : BlockSector).toNat = 1 := rfl
  rw [InFreeMap, BitVec.lt_def, BitVec.toNat_sub, one]
  omega

theorem inFreeMap_empty {block : Block} (empty : block.size.toNat = 0) : InFreeMap block 0 := by
  rw [InFreeMap, BitVec.lt_def, BitVec.toNat_sub, empty]
  decide

theorem foundPartition_some {block found : Block} {start size : BlockSector}
    (accepted : foundPartition block start size = some found) : found = .partition block start size ∧
      start.toNat < block.size.toNat ∧ start.toNat + size.toNat ≤ block.size.toNat := by
  have startBound := start.isLt
  have sizeBound := size.isLt
  unfold foundPartition at accepted
  split at accepted
  · cases accepted
  · rename_i begins
    split at accepted
    · cases accepted
    · rename_i ends
      rw [BitVec.le_def, Nat.not_le] at begins
      rw [not_or, BitVec.lt_def, BitVec.lt_def, BitVec.toNat_add, Nat.not_lt, Nat.not_lt] at ends
      refine ⟨(Option.some.inj accepted).symm, begins, ?_⟩
      omega

theorem identifyAtaDevice_size {host : HostDisk} (small : host.length / 512 < 2 ^ 32) :
    (identifyAtaDevice host).size.toNat = host.length / 512 := by
  rw [identifyAtaDevice, Block.size, BitVec.toNat_ofNat]
  exact Nat.mod_eq_of_lt small

theorem injective_disk {host : HostDisk} (small : host.length / 512 < 2 ^ 32) :
    Injective host (identifyAtaDevice host) ↔ Addressable (identifyAtaDevice host) := by
  have size := identifyAtaDevice_size small
  have place : ∀ i : BlockSector, (identifyAtaDevice host).offset i = i.toNat * 512 % 2 ^ 32 := seekOffset_eq
  have condition : Addressable (identifyAtaDevice host) ↔ 1 ≤ host.length / 512 ∧ host.length / 512 ≤ 2 ^ 23 + 1 := by
    rw [← size]
    rfl
  rw [condition]
  constructor
  · intro injective
    have some : 1 ≤ host.length / 512 := by
      by_contra none
      have inside := injective.inFile 0 (inFreeMap_empty (by omega))
      simp only [BLOCK_SECTOR_SIZE] at inside
      omega
    refine ⟨some, ?_⟩
    by_contra large
    -- Sector 2^23 is read where sector 0 is.
    have first : InFreeMap (identifyAtaDevice host) 0 := (inFreeMap_iff 0 (by omega)).mpr (by rw [size]; simp; omega)
    have second : InFreeMap (identifyAtaDevice host) 8388608 :=
      (inFreeMap_iff _ (by omega)).mpr (by rw [size]; simp; omega)
    have apart := injective.apart 0 8388608 first second (by decide)
    rw [place, place] at apart
    revert apart
    decide
  · rintro ⟨some, few⟩
    have inside : ∀ i, InFreeMap (identifyAtaDevice host) i → i.toNat + 1 < host.length / 512 := by
      intro i free
      rw [← size]
      exact (inFreeMap_iff i (by omega)).mp free
    refine ⟨fun i j free other distinct => ?_, fun i free => ?_, fun i free => ⟨Nat.zero_le _, ?_⟩⟩
    · have below := inside i free
      have belowOther := inside j other
      have differ : i.toNat ≠ j.toNat := fun same => distinct (BitVec.eq_of_toNat_eq same)
      simp only [place, BLOCK_SECTOR_SIZE]
      omega
    · have below := inside i free
      simp only [place, BLOCK_SECTOR_SIZE]
      omega
    · have below := inside i free
      show (identifyAtaDevice host).offset i + 512 ≤ host.length
      rw [place]
      omega

theorem injective_partition {host : HostDisk} (small : host.length / 512 < 2 ^ 32) {start size : BlockSector}
    (begins : start.toNat < host.length / 512) (ends : start.toNat + size.toNat ≤ host.length / 512) :
    Injective host (.partition (identifyAtaDevice host) start size) ↔
      Addressable (.partition (identifyAtaDevice host) start size) := by
  set block := Block.partition (identifyAtaDevice host) start size with blockEq
  have long : block.size.toNat = size.toNat := rfl
  have place : ∀ i : BlockSector, start.toNat + i.toNat + 1 < 2 ^ 32 →
      block.offset i = (start.toNat + i.toNat + 1) * 512 % 2 ^ 32 := by
    intro i fits
    have one : (1 : BlockSector).toNat = 1 := rfl
    have sector : (start + i + 1).toNat = start.toNat + i.toNat + 1 := by
      rw [BitVec.toNat_add, BitVec.toNat_add, one, Nat.mod_add_mod, Nat.mod_eq_of_lt fits]
    rw [← sector]
    exact seekOffset_eq _
  have extent : block.extent host = (start.toNat * 512, (start.toNat + size.toNat) * 512) := rfl
  have zero : start = 0 ↔ start.toNat = 0 := BitVec.toNat_eq (x := start) (y := 0)
  have condition : Addressable block ↔ 1 ≤ size.toNat ∧ (size.toNat = 1 ∨ start.toNat + size.toNat ≤ 2 ^ 23 ∨
      start.toNat = 0 ∧ size.toNat ≤ 2 ^ 23 + 1) := by
    rw [← zero]
    rfl
  rw [condition]
  constructor
  · intro injective
    have some : 1 ≤ size.toNat := by
      by_contra none
      have inside := injective.inBlock 0 (inFreeMap_empty (by omega))
      simp only [extent, BLOCK_SECTOR_SIZE] at inside
      omega
    refine ⟨some, ?_⟩
    by_contra large
    have free : ∀ i, i + 1 < size.toNat → InFreeMap block (BitVec.ofNat 32 i) ∧ (BitVec.ofNat 32 i).toNat = i := by
      intro i below
      have value : (BitVec.ofNat 32 i).toNat = i := by
        rw [BitVec.toNat_ofNat]
        exact Nat.mod_eq_of_lt (by omega)
      refine ⟨(inFreeMap_iff _ (by omega)).mpr ?_, value⟩
      rw [value, long]
      exact below
    by_cases front : start.toNat = 0
    · -- Sectors 0 and 2^23 of the partition are both read at byte 512.
      obtain ⟨first, firstValue⟩ := free 0 (by omega)
      obtain ⟨second, secondValue⟩ := free (2 ^ 23) (by omega)
      have apart := injective.apart _ _ first second (by decide)
      rw [place _ (by omega), place _ (by omega), firstValue, secondValue, front] at apart
      revert apart
      decide
    · -- The first sector whose product wraps is read in front of the partition.
      obtain ⟨last, value⟩ := free (max (2 ^ 23) (start.toNat + 1) - start.toNat - 1) (by omega)
      have inside := (injective.inBlock _ last).1
      rw [extent, place _ (by omega), value] at inside
      simp only at inside
      omega
  · rintro ⟨some, few⟩
    have inside : ∀ i, InFreeMap block i → i.toNat + 1 < size.toNat := by
      intro i free
      exact (inFreeMap_iff i (by omega)).mp free
    refine ⟨fun i j free other distinct => ?_, fun i free => ?_, fun i free => ?_⟩
    · have below := inside i free
      have belowOther := inside j other
      have differ : i.toNat ≠ j.toNat := fun same => distinct (BitVec.eq_of_toNat_eq same)
      rw [place i (by omega), place j (by omega)]
      simp only [BLOCK_SECTOR_SIZE]
      omega
    · have below := inside i free
      rw [place i (by omega)]
      simp only [BLOCK_SECTOR_SIZE]
      omega
    · have below := inside i free
      rw [place i (by omega), extent]
      simp only [BLOCK_SECTOR_SIZE]
      omega

/-- Different sectors of the free map have disjoint places on the disk exactly if the driver's products do not wrap. -/
theorem injective_iff_addressable (host : HostDisk) (block : Block) (small : host.length / 512 < 2 ^ 32)
    (device : FsDevice host block) : Injective host block ↔ Addressable block := by
  rcases device with rfl | ⟨start, size, accepted⟩
  · exact injective_disk small
  · obtain ⟨rfl, begins, ends⟩ := foundPartition_some accepted
    rw [identifyAtaDevice_size small] at begins ends
    exact injective_partition small begins ends

theorem injective_iff_addressable_floppy : Injective (List.replicate 1474560 0)
    (identifyAtaDevice (List.replicate 1474560 0)) := by
  have length : (List.replicate 1474560 (0 : Byte)).length / 512 = 2880 := by
    rw [List.length_replicate]
  have size := @identifyAtaDevice_size (List.replicate 1474560 0) (by rw [length]; decide)
  rw [length] at size
  have addressable : Addressable (identifyAtaDevice (List.replicate 1474560 0)) :=
    ⟨size.symm ▸ (by decide), size.symm ▸ (by decide)⟩
  exact (injective_iff_addressable _ _ (by rw [length]; decide) (Or.inl rfl)).mpr addressable

/-- A disk of 2^23 + 2 sectors, 4 GiB and 1 KiB, is too large already: sector 2^23 lies where sector 0 does. -/
theorem not_injective_large : (List.replicate (512 * (2 ^ 23 + 2)) (0 : Byte)).length / 512 < 2 ^ 32 ∧
    ¬Injective (List.replicate (512 * (2 ^ 23 + 2)) 0) (identifyAtaDevice (List.replicate (512 * (2 ^ 23 + 2)) 0)) := by
  have length : (List.replicate (512 * (2 ^ 23 + 2)) (0 : Byte)).length / 512 = 2 ^ 23 + 2 := by
    rw [List.length_replicate, Nat.mul_div_cancel_left _ (by decide)]
  have small : (List.replicate (512 * (2 ^ 23 + 2)) (0 : Byte)).length / 512 < 2 ^ 32 := by
    rw [length]
    decide
  refine ⟨small, fun injective => ?_⟩
  have size := identifyAtaDevice_size small
  rw [length] at size
  have bound : (identifyAtaDevice (List.replicate (512 * (2 ^ 23 + 2)) 0)).size.toNat ≤ 2 ^ 23 + 1 :=
    ((injective_disk small).mp injective).2
  rw [size] at bound
  exact absurd bound (by decide)

theorem hostWrite_eq {host : HostDisk} {offset : Nat} (inside : offset + 512 ≤ host.length) (buffer : Sector) :
    hostWrite host offset buffer = Buffer.overlay host offset (List.ofFn buffer) := by
  rw [hostWrite, Nat.sub_eq_zero_of_le inside, List.replicate_zero, List.append_nil]

theorem hostWrite_getD {host : HostDisk} {offset : Nat} (inside : offset + 512 ≤ host.length) (buffer : Sector)
    (k : Nat) (other : Byte) : (hostWrite host offset buffer).getD k other =
      if within : offset ≤ k ∧ k < offset + 512 then buffer ⟨k - offset, by simp only [BLOCK_SECTOR_SIZE]; omega⟩
      else host.getD k other := by
  have long : (List.ofFn buffer).length = 512 := List.length_ofFn
  rw [hostWrite_eq inside, List.getD_eq_getElem?_getD, List.getD_eq_getElem?_getD,
    Buffer.overlay_getElem? (by rw [long]; exact inside), long]
  by_cases within : offset ≤ k ∧ k < offset + 512
  · rw [if_pos within, dif_pos within, List.getElem?_ofFn, dif_pos (by simp only [BLOCK_SECTOR_SIZE]; omega),
      Option.getD_some]
  · rw [if_neg within, dif_neg within]

/-- The block device as the array of sectors that the buffer cache works on. -/
def sectorArray (host : HostDisk) (block : Block) : BlockDevice where
  size := block.size
  sectors sector := blockRead block host sector zeros

/-- Where addressing is injective, a write through the driver is a write to one sector of the array. -/
theorem blockWrite_sectorArray {host : HostDisk} {block : Block} (injective : Injective host block)
    {i j : BlockSector} (free : InFreeMap block i) (other : InFreeMap block j) (buffer : Sector) :
    (sectorArray (blockWrite block host i buffer) block).sectors j =
      (FileSystem.blockWrite (sectorArray host block) i buffer).sectors j := by
  have inside := injective.inFile i free
  simp only [sectorArray, FileSystem.blockWrite, blockRead_offset, blockWrite_offset]
  by_cases same : j = i
  · rw [same, Function.update_self]
    funext k
    have below := k.isLt
    rw [hostRead, hostWrite_getD inside, dif_pos (by simp only [BLOCK_SECTOR_SIZE] at below; omega)]
    congr 1
    exact Fin.ext (Nat.add_sub_cancel_left _ _)
  · rw [Function.update_of_ne same]
    funext k
    have below := k.isLt
    have apart := injective.apart i j free other (Ne.symm same)
    simp only [BLOCK_SECTOR_SIZE] at below apart
    rw [hostRead, hostWrite_getD inside, dif_neg (by omega), hostRead]

end ShellOs.FileSystem.Device
