import ShellOs.FileSystem.Block
import Mathlib.Data.List.Basic

/-! Bitmaps stored in 64-bit words (bitmap.c). -/

namespace ShellOs.FileSystem
open Lib

abbrev ELEM_BITS : Nat := 64

abbrev BITMAP_ERROR : Nat := 2 ^ 32 - 1

/-- `bits` is the memory at the element array; only the first `elemCnt bitCnt` words are in it. -/
structure Bitmap where
  bitCnt : Nat
  bits : Nat → BitVec 64

def elemIdx (bitIdx : Nat) : Nat := bitIdx / ELEM_BITS

def bitMask (bitIdx : Nat) : BitVec 64 := 1#64 <<< (bitIdx % ELEM_BITS)

def elemCnt (bitCnt : Nat) : Nat := divRoundUp bitCnt ELEM_BITS

def byteCnt (bitCnt : Nat) : Nat := 8 * elemCnt bitCnt

def lastMask (b : Bitmap) : BitVec 64 :=
  if b.bitCnt % ELEM_BITS ≠ 0 then (1#64 <<< (b.bitCnt % ELEM_BITS)) - 1 else BitVec.allOnes 64

def bitmapMark (b : Bitmap) (bitIdx : Nat) : Bitmap :=
  { b with bits := Function.update b.bits (elemIdx bitIdx) (b.bits (elemIdx bitIdx) ||| bitMask bitIdx) }

def bitmapReset (b : Bitmap) (bitIdx : Nat) : Bitmap :=
  { b with bits := Function.update b.bits (elemIdx bitIdx) (b.bits (elemIdx bitIdx) &&& ~~~bitMask bitIdx) }

def bitmapSet (b : Bitmap) (idx : Nat) (value : Bool) : Bitmap :=
  if value then bitmapMark b idx else bitmapReset b idx

def bitmapTest (b : Bitmap) (idx : Nat) : Bool :=
  b.bits (elemIdx idx) &&& bitMask idx != 0

def bitmapSetMultiple (b : Bitmap) (start cnt : Nat) (value : Bool) : Bitmap :=
  (List.range cnt).foldl (fun b i => bitmapSet b (start + i) value) b

def bitmapSetAll (b : Bitmap) (value : Bool) : Bitmap := bitmapSetMultiple b 0 b.bitCnt value

def bitmapCreate (bitCnt : Nat) : Bitmap := bitmapSetAll ⟨bitCnt, fun _ => 0⟩ false

def bitmapSize (b : Bitmap) : Nat := b.bitCnt

def bitmapCount (b : Bitmap) (start cnt : Nat) (value : Bool) : Nat :=
  (List.range cnt).countP fun i => bitmapTest b (start + i) == value

def bitmapContains (b : Bitmap) (start cnt : Nat) (value : Bool) : Bool :=
  (List.range cnt).any fun i => bitmapTest b (start + i) == value

def bitmapScan (b : Bitmap) (start cnt : Nat) (value : Bool) : Nat :=
  if cnt ≤ b.bitCnt then
    let last := b.bitCnt - cnt
    ((List.range' start (last + 1 - start)).find? fun i => !bitmapContains b i cnt (!value)).getD
      BITMAP_ERROR
  else BITMAP_ERROR

def bitmapScanAndFlip (b : Bitmap) (start cnt : Nat) (value : Bool) : Nat × Bitmap :=
  let idx := bitmapScan b start cnt value
  if idx ≠ BITMAP_ERROR then (idx, bitmapSetMultiple b idx cnt (!value)) else (idx, b)

def bitmapFileSize (b : Bitmap) : Nat := byteCnt b.bitCnt

/-- The element array as the bytes that `bitmap_write` hands to the file. -/
def bitmapBytes (b : Bitmap) (k : Nat) : Byte := LittleEndian.layout (w := 8) b.bits k

theorem getLsbD_bitMask (i k : Nat) :
    (bitMask i).getLsbD k = decide (k = i % 64) := by
  have small : i % 64 < 64 := Nat.mod_lt _ (by decide)
  simp only [bitMask, ELEM_BITS, BitVec.getLsbD_shiftLeft, BitVec.getLsbD_one]
  by_cases same : k = i % 64
  · subst same
    simp [small]
  · by_cases below : k < i % 64
    · simp [below, same]
    · have apart : k - i % 64 ≠ 0 := by omega
      simp [apart, same]

theorem bitmapTest_eq (b : Bitmap) (i : Nat) :
    bitmapTest b i = (b.bits (i / 64)).getLsbD (i % 64) := by
  have bit : (bitMask i).getLsbD (i % 64) = true := by rw [getLsbD_bitMask]; simp
  have masked : b.bits (i / 64) &&& bitMask i =
      if (b.bits (i / 64)).getLsbD (i % 64) then bitMask i else 0#64 := by
    apply BitVec.eq_of_getLsbD_eq
    intro k _
    rw [BitVec.getLsbD_and, getLsbD_bitMask]
    by_cases same : k = i % 64
    · subst same
      cases (b.bits (i / 64)).getLsbD (i % 64) <;> simp [bit]
    · cases (b.bits (i / 64)).getLsbD (i % 64) <;> simp [same, getLsbD_bitMask]
  have nonzero : bitMask i ≠ 0#64 := by
    intro zero
    rw [zero] at bit
    simp at bit
  unfold bitmapTest elemIdx
  rw [masked]
  cases (b.bits (i / 64)).getLsbD (i % 64)
  · rfl
  · simpa using nonzero

theorem getLsbD_bitmapBytes (b : Bitmap) (i : Nat) :
    (bitmapBytes b (i / 8)).getLsbD (i % 8) = bitmapTest b i := by
  have small : i % 8 < 8 := Nat.mod_lt _ (by decide)
  rw [bitmapTest_eq, bitmapBytes, LittleEndian.layout, LittleEndian.byteOf,
    BitVec.getLsbD_extractLsb', show i / 8 / 8 = i / 64 by omega,
    show 8 * (i / 8 % 8) + i % 8 = i % 64 by omega]
  simp [small]

@[simp] theorem bitmapSet_bitCnt (b : Bitmap) (i : Nat) (value : Bool) :
    (bitmapSet b i value).bitCnt = b.bitCnt := by
  cases value <;> rfl

theorem bitmapTest_set (b : Bitmap) (i j : Nat) (value : Bool) :
    bitmapTest (bitmapSet b i value) j = if j = i then value else bitmapTest b j := by
  have smallJ : j % 64 < 64 := Nat.mod_lt _ (by decide)
  rw [bitmapTest_eq, bitmapTest_eq]
  by_cases word : j / 64 = i / 64
  · have bits : j % 64 = i % 64 ↔ j = i := by omega
    cases value <;>
      simp only [bitmapSet, bitmapMark, bitmapReset, elemIdx, word, Function.update_self, if_true,
        Bool.false_eq_true, if_false, BitVec.getLsbD_or, BitVec.getLsbD_and, BitVec.getLsbD_not,
        getLsbD_bitMask, bits, smallJ, decide_true, Bool.true_and] <;>
      by_cases same : j = i <;> simp [same]
  · have different : j ≠ i := fun same => word (by rw [same])
    cases value <;>
      simp [bitmapSet, bitmapMark, bitmapReset, elemIdx, Function.update_of_ne word, different]

theorem bitmapSetMultiple_spec (b : Bitmap) (start cnt : Nat) (value : Bool) :
    (bitmapSetMultiple b start cnt value).bitCnt = b.bitCnt ∧
      ∀ j, bitmapTest (bitmapSetMultiple b start cnt value) j =
        if start ≤ j ∧ j < start + cnt then value else bitmapTest b j := by
  induction cnt with
  | zero =>
    refine ⟨rfl, fun j => ?_⟩
    rw [if_neg (by omega)]
    rfl
  | succ cnt ih =>
    have last : bitmapSetMultiple b start (cnt + 1) value =
        bitmapSet (bitmapSetMultiple b start cnt value) (start + cnt) value := by
      simp [bitmapSetMultiple, List.range_succ]
    rw [last]
    refine ⟨by rw [bitmapSet_bitCnt, ih.1], fun j => ?_⟩
    rw [bitmapTest_set, ih.2 j]
    by_cases same : j = start + cnt
    · rw [if_pos same, if_pos (by omega)]
    · rw [if_neg same]
      by_cases inside : start ≤ j ∧ j < start + cnt
      · rw [if_pos inside, if_pos (by omega)]
      · rw [if_neg inside, if_neg (by omega)]

theorem bitmapSetMultiple_one (b : Bitmap) (i : Nat) (value : Bool) :
    bitmapSetMultiple b i 1 value = bitmapSet b i value := by
  simp [bitmapSetMultiple]

theorem bitmapCreate_spec (bitCnt : Nat) :
    (bitmapCreate bitCnt).bitCnt = bitCnt ∧ ∀ j, bitmapTest (bitmapCreate bitCnt) j = false := by
  obtain ⟨size, bits⟩ := bitmapSetMultiple_spec ⟨bitCnt, fun _ => 0⟩ 0 bitCnt false
  refine ⟨size, fun j => ?_⟩
  unfold bitmapCreate bitmapSetAll
  rw [bits j, bitmapTest_eq]
  split <;> simp

def freeBits (b : Bitmap) : List Nat := (List.range b.bitCnt).filter fun i => !bitmapTest b i

theorem mem_freeBits {b : Bitmap} {i : Nat} :
    i ∈ freeBits b ↔ i < b.bitCnt ∧ bitmapTest b i = false := by
  simp [freeBits]

theorem freeBits_nodup (b : Bitmap) : (freeBits b).Nodup :=
  List.nodup_range.filter _

theorem bitmapContains_one (b : Bitmap) (i : Nat) (value : Bool) :
    bitmapContains b i 1 value = (bitmapTest b i == value) := by
  simp [bitmapContains]

theorem bitmapScan_one (b : Bitmap) :
    bitmapScan b 0 1 false = (freeBits b).head?.getD BITMAP_ERROR := by
  have tests : (fun i => !bitmapContains b i 1 (!false)) = fun i => !bitmapTest b i := by
    funext i
    rw [bitmapContains_one]
    cases bitmapTest b i <;> rfl
  unfold bitmapScan freeBits
  split
  next some =>
    rw [tests, List.head?_filter]
    have span : b.bitCnt - 1 + 1 - 0 = b.bitCnt := by omega
    simp only [span, List.range_eq_range']
  next none =>
    have empty : b.bitCnt = 0 := by omega
    simp [empty]

theorem freeBits_set_head {b : Bitmap} {a : Nat} {rest : List Nat} (free : freeBits b = a :: rest) :
    freeBits (bitmapSet b a true) = rest := by
  have taken : freeBits (bitmapSet b a true) = (freeBits b).filter fun i => i ≠ a := by
    unfold freeBits
    rw [List.filter_filter, bitmapSet_bitCnt]
    apply List.filter_congr
    intro i _
    rw [bitmapTest_set]
    by_cases same : i = a <;> simp [same]
  have fresh : a ∉ rest := by
    have nodup := freeBits_nodup b
    rw [free] at nodup
    exact (List.nodup_cons.mp nodup).1
  rw [taken, free, List.filter_cons_of_neg (by simp), List.filter_eq_self]
  intro i member
  simpa using fun same : i = a => fresh (same ▸ member)

end ShellOs.FileSystem
