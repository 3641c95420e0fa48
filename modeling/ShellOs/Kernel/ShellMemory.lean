import Mathlib.Logic.Function.Basic
import Mathlib.Data.List.Basic

/-! The shell's memory (shellmemory.c of the last assignment): one array for the frames of the processes and, behind
them, the variables. A slot is free if its name is "none". -/

namespace ShellOs.Kernel

abbrev Text := List Char

def noneText : Text := "none".toList

structure MemoryStruct where
  var : Text
  value : Text
  deriving DecidableEq

/-- `FRAME_STORE_SIZE` and `VAR_STORE_SIZE`, which the Makefile sets. -/
structure StoreSizes where
  frameStoreSize : Nat
  varStoreSize : Nat

def makefileSizes : StoreSizes := ⟨30, 90⟩

/-- `shellmemory`, and what lies behind it: nothing keeps an index inside the array. -/
abbrev ShellMemory := Nat → MemoryStruct

def memInit (sizes : StoreSizes) (m : ShellMemory) : ShellMemory := fun i =>
  if i < sizes.frameStoreSize + sizes.varStoreSize then ⟨noneText, noneText⟩ else m i

def memFreeAt (m : ShellMemory) (pos : Nat) : ShellMemory := Function.update m pos ⟨noneText, noneText⟩

def slotOf (m : ShellMemory) (name : Text) : Nat → Nat → Option Nat
  | _, 0 => none
  | i, count + 1 => if (m i).var = name then some i else slotOf m name (i + 1) count

def varSlot (sizes : StoreSizes) (m : ShellMemory) (name : Text) : Option Nat :=
  slotOf m name sizes.frameStoreSize sizes.varStoreSize

def memSetValue (sizes : StoreSizes) (m : ShellMemory) (varIn valueIn : Text) : ShellMemory :=
  match varSlot sizes m varIn with
  | some i => Function.update m i { m i with value := valueIn }
  | none =>
    -- The variable is new, so it takes a free slot.
    match varSlot sizes m noneText with
    | some i => Function.update m i ⟨varIn, valueIn⟩
    | none => m

def notFound (caller : Char) : Text := if caller = 'p' then "Variable does not exist".toList else []

def memGetValue (sizes : StoreSizes) (m : ShellMemory) (varIn : Text) (caller : Char) : Text :=
  match varSlot sizes m varIn with
  | some i => (m i).value
  | none => notFound caller

def resetVarZone (sizes : StoreSizes) (m : ShellMemory) : ShellMemory :=
  (List.range' sizes.frameStoreSize sizes.varStoreSize).foldl memFreeAt m

/-- It clears three slots from the given one on. -/
def clearFrame (m : ShellMemory) (startPos : Nat) : ShellMemory := (List.range' startPos 3).foldl memFreeAt m

section slots

variable {m : ShellMemory} {name : Text} {i j count : Nat}

theorem slotOf_none : slotOf m name i count = none ↔ ∀ j, i ≤ j → j < i + count → (m j).var ≠ name := by
  induction count generalizing i with
  | zero =>
    refine iff_of_true rfl fun j low high => ?_
    omega
  | succ count ih =>
    rw [slotOf]
    by_cases here : (m i).var = name
    · rw [if_pos here]
      refine iff_of_false (by simp) fun all => ?_
      exact all i (Nat.le_refl i) (by omega) here
    · rw [if_neg here, ih]
      constructor
      · intro all j low high
        rcases Nat.eq_or_lt_of_le low with rfl | later
        · exact here
        · exact all j later (by omega)
      · intro all j low high
        exact all j (by omega) (by omega)

theorem slotOf_some : slotOf m name i count = some j ↔
    (i ≤ j ∧ j < i + count) ∧ (m j).var = name ∧ ∀ k, i ≤ k → k < j → (m k).var ≠ name := by
  induction count generalizing i with
  | zero =>
    refine iff_of_false (by simp [slotOf]) ?_
    rintro ⟨⟨low, high⟩, -⟩
    omega
  | succ count ih =>
    rw [slotOf]
    by_cases here : (m i).var = name
    · rw [if_pos here, Option.some_inj]
      constructor
      · rintro rfl
        exact ⟨⟨Nat.le_refl i, by omega⟩, here, fun k low high => by omega⟩
      · rintro ⟨⟨low, -⟩, -, first⟩
        by_contra other
        exact first i (Nat.le_refl i) (by omega) here
    · rw [if_neg here, ih]
      constructor
      · rintro ⟨⟨low, high⟩, found, first⟩
        refine ⟨⟨by omega, by omega⟩, found, fun k behind before => ?_⟩
        rcases Nat.eq_or_lt_of_le behind with rfl | later
        · exact here
        · exact first k later before
      · rintro ⟨⟨low, high⟩, found, first⟩
        have away : i ≠ j := fun same => here (same ▸ found)
        exact ⟨⟨by omega, by omega⟩, found, fun k behind before => first k (by omega) before⟩

theorem foldl_memFreeAt (positions : List Nat) (m : ShellMemory) (i : Nat) :
    positions.foldl memFreeAt m i = if i ∈ positions then ⟨noneText, noneText⟩ else m i := by
  induction positions generalizing m with
  | nil => rfl
  | cons pos rest ih =>
    rw [List.foldl_cons, ih]
    by_cases later : i ∈ rest
    · rw [if_pos later, if_pos (List.mem_cons_of_mem pos later)]
    · rw [if_neg later, memFreeAt]
      by_cases here : i = pos
      · rw [here, Function.update_self, if_pos List.mem_cons_self]
      · rw [Function.update_of_ne here, if_neg fun member => (List.mem_cons.mp member).elim here later]

theorem resetVarZone_at (sizes : StoreSizes) (m : ShellMemory) (i : Nat) : resetVarZone sizes m i =
    if sizes.frameStoreSize ≤ i ∧ i < sizes.frameStoreSize + sizes.varStoreSize then ⟨noneText, noneText⟩ else m i := by
  rw [resetVarZone, foldl_memFreeAt]
  simp only [List.mem_range'_1]

end slots

end ShellOs.Kernel
