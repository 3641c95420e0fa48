import Mathlib.Tactic.Common

/-! Little-endian words: a word of `w` bytes, and an array of such words laid out as bytes. -/

namespace ShellOs.Lib.LittleEndian

def byteOf {w : Nat} (x : BitVec (8 * w)) (j : Nat) : BitVec 8 := x.extractLsb' (8 * j) 8

def ofBytes (w : Nat) (bytes : Nat → BitVec 8) : BitVec (8 * w) :=
  (BitVec.iunfoldr (fun i (_ : Unit) => ((), (bytes (i.val / 8)).getLsbD (i.val % 8))) ()).2

theorem getLsbD_ofBytes (w : Nat) (bytes : Nat → BitVec 8) (i : Nat) :
    (ofBytes w bytes).getLsbD i = (decide (i < 8 * w) && (bytes (i / 8)).getLsbD (i % 8)) := by
  by_cases bound : i < 8 * w
  · have bit := BitVec.iunfoldr_getLsbD (w := 8 * w)
      (f := fun i (_ : Unit) => ((), (bytes (i.val / 8)).getLsbD (i.val % 8)))
      (fun _ => ()) ⟨i, bound⟩ (fun _ => rfl)
    simpa [ofBytes, bound] using bit
  · rw [BitVec.getLsbD_of_ge _ _ (by omega)]
    simp [bound]

theorem byteOf_ofBytes {w j : Nat} (bytes : Nat → BitVec 8) (bound : j < w) :
    byteOf (ofBytes w bytes) j = bytes j := by
  apply BitVec.eq_of_getLsbD_eq
  intro i small
  have place : (8 * j + i) / 8 = j := by omega
  have offset : (8 * j + i) % 8 = i := by omega
  have inside : 8 * j + i < 8 * w := by omega
  rw [byteOf, BitVec.getLsbD_extractLsb', getLsbD_ofBytes, place, offset]
  simp [small, inside]

theorem ofBytes_byteOf {w : Nat} (x : BitVec (8 * w)) : ofBytes w (byteOf x) = x := by
  apply BitVec.eq_of_getLsbD_eq
  intro i bound
  have small : i % 8 < 8 := Nat.mod_lt _ (by decide)
  have place : 8 * (i / 8) + i % 8 = i := by omega
  rw [getLsbD_ofBytes, byteOf, BitVec.getLsbD_extractLsb', place]
  simp [bound, small]

theorem ofBytes_congr {w : Nat} {first second : Nat → BitVec 8}
    (same : ∀ j, j < w → first j = second j) : ofBytes w first = ofBytes w second := by
  apply BitVec.eq_of_getLsbD_eq
  intro i bound
  rw [getLsbD_ofBytes, getLsbD_ofBytes, same (i / 8) (by omega)]

def wordAt (w : Nat) (bytes : Nat → BitVec 8) (i : Nat) : BitVec (8 * w) :=
  ofBytes w fun j => bytes (w * i + j)

def layout {w : Nat} (words : Nat → BitVec (8 * w)) (k : Nat) : BitVec 8 :=
  byteOf (words (k / w)) (k % w)

theorem wordAt_layout {w : Nat} (words : Nat → BitVec (8 * w)) (i : Nat) :
    wordAt w (layout words) i = words i := by
  have same : ∀ j, j < w → layout words (w * i + j) = byteOf (words i) j := by
    intro j bound
    have place : (w * i + j) / w = i := by
      rw [Nat.mul_add_div (by omega), Nat.div_eq_of_lt bound, Nat.add_zero]
    rw [layout, place, Nat.mul_add_mod, Nat.mod_eq_of_lt bound]
  unfold wordAt
  rw [ofBytes_congr same, ofBytes_byteOf]

theorem layout_wordAt {w : Nat} (positive : 0 < w) (bytes : Nat → BitVec 8) (k : Nat) :
    layout (wordAt w bytes) k = bytes k := by
  unfold layout wordAt
  rw [byteOf_ofBytes _ (Nat.mod_lt k positive), Nat.div_add_mod]

theorem wordAt_congr {w i : Nat} {first second : Nat → BitVec 8}
    (same : ∀ j, j < w → first (w * i + j) = second (w * i + j)) :
    wordAt w first i = wordAt w second i :=
  ofBytes_congr same

end ShellOs.Lib.LittleEndian
