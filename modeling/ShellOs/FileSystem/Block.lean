import ShellOs.Lib.LittleEndian
import Mathlib.Logic.Function.Basic
import Mathlib.Data.BitVec

/-! Sectors and the block device (block.h, block.c, off_t.h, round.h). -/

namespace ShellOs.FileSystem
open Lib

abbrev BLOCK_SECTOR_SIZE : Nat := 512

abbrev Byte := BitVec 8

abbrev BlockSector := BitVec 32

abbrev Sector := Fin BLOCK_SECTOR_SIZE → Byte

def zeros : Sector := fun _ => 0

def divRoundUp (x step : Nat) : Nat := (x + step - 1) / step

/-- `offset_t` is a 32-bit signed integer: what a sum becomes when it is stored in one. -/
def offsetOf (x : Int) : Int := x.bmod (2 ^ 32)

theorem offsetOf_eq {x : Int} (low : -2 ^ 31 ≤ x) (high : x < 2 ^ 31) : offsetOf x = x := by
  unfold offsetOf
  apply Int.bmod_eq_of_le <;> omega

theorem offsetOf_wraps {x : Int} (low : 2 ^ 31 ≤ x) (high : x < 2 ^ 32) : offsetOf x = x - 2 ^ 32 := by
  unfold offsetOf
  rw [← Int.sub_bmod_right]
  apply Int.bmod_eq_of_le <;> omega

/-- The host disk as an array of sectors. `check_sector` reports a sector past `size` and lets
the access go on (`PANIC` only prints), so the array has no upper end here. -/
structure BlockDevice where
  size : BlockSector
  sectors : BlockSector → Sector

def blockRead (block : BlockDevice) (sector : BlockSector) : Sector := block.sectors sector

def blockWrite (block : BlockDevice) (sector : BlockSector) (buffer : Sector) : BlockDevice :=
  { block with sectors := Function.update block.sectors sector buffer }

def blockSize (block : BlockDevice) : BlockSector := block.size

/-- The bytes of a sector by offset; past the end there are none. -/
def sectorByte (b : Sector) (i : Nat) : Byte :=
  if inside : i < BLOCK_SECTOR_SIZE then b ⟨i, inside⟩ else 0

def sectorWord (b : Sector) (i : Nat) : BitVec 32 := LittleEndian.wordAt 4 (sectorByte b) i

def sectorOfWords (words : Nat → BitVec 32) : Sector :=
  fun i => LittleEndian.layout (w := 4) words i.val

theorem sectorByte_lt (b : Sector) {i : Nat} (inside : i < BLOCK_SECTOR_SIZE) :
    sectorByte b i = b ⟨i, inside⟩ := by
  simp only [sectorByte, dif_pos inside]

theorem sectorWord_sectorOfWords (words : Nat → BitVec 32) {i : Nat} (inside : i < 128) :
    sectorWord (sectorOfWords words) i = words i := by
  unfold sectorWord
  rw [← LittleEndian.wordAt_layout (w := 4) words i]
  apply LittleEndian.wordAt_congr
  intro j small
  rw [sectorByte_lt _ (show 4 * i + j < BLOCK_SECTOR_SIZE by simp only [BLOCK_SECTOR_SIZE]; omega)]
  rfl

theorem sectorOfWords_sectorWord (b : Sector) : sectorOfWords (sectorWord b) = b := by
  funext i
  have round := LittleEndian.layout_wordAt (w := 4) (by decide) (sectorByte b) i.val
  rw [sectorByte_lt b i.isLt] at round
  exact round

theorem sectorOfWords_congr {first second : Nat → BitVec 32}
    (same : ∀ i, i < 128 → first i = second i) : sectorOfWords first = sectorOfWords second := by
  funext i
  have place : i.val / 4 < 128 := by have := i.isLt; simp only [BLOCK_SECTOR_SIZE] at this; omega
  simp only [sectorOfWords, LittleEndian.layout, same _ place]

@[simp] theorem sectorWord_zeros (i : Nat) : sectorWord zeros i = 0 := by
  apply BitVec.eq_of_getLsbD_eq
  intro j _
  have empty : ∀ k, sectorByte zeros k = 0 := by
    intro k
    unfold sectorByte zeros
    split <;> rfl
  simp only [sectorWord, LittleEndian.wordAt]
  rw [LittleEndian.getLsbD_ofBytes, empty]
  simp

end ShellOs.FileSystem
