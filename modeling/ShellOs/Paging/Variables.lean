import Mathlib.Tactic.Common
import ShellOs.Kernel.ShellMemory

/-! The variables of the shell with demand paging (shellmemory.c): a slot is free if its name is a null pointer, and a
reset writes "none" over the names and values. -/

namespace ShellOs.Paging
open Kernel (Text noneText)

structure Variable where
  var : Option Text
  value : Option Text

/-- `shellvars`, of which `VARMEMSIZE` are in use. -/
abbrev ShellVars := Nat → Variable

section calls

variable (varMemSize : Nat) (vars : ShellVars)

def varsInit : ShellVars := fun i => if i < varMemSize then ⟨none, none⟩ else vars i

def memSetValue (varIn valueIn : Text) : ShellVars :=
  match (List.range varMemSize).find? fun i => decide ((vars i).var = some varIn) with
  | some i => Function.update vars i { vars i with value := some valueIn }
  | none =>
    -- The name is new and needs a free slot.
    match (List.range varMemSize).find? fun i => (vars i).var.isNone with
    | some i => Function.update vars i ⟨some varIn, some valueIn⟩
    | none => vars

/-- The loop of `mem_get_value`; `none` if `strcmp` or `strdup` is given a null pointer. -/
def getFrom (varIn : Text) : List Nat → Option (Option Text)
  | [] => some none
  | i :: rest =>
    match (vars i).var with
    | none => none
    | some var => if var = varIn then (vars i).value.map some else getFrom varIn rest

def memGetValue (varIn : Text) : Option (Option Text) := getFrom vars varIn (List.range varMemSize)

def resetmem : ShellVars := fun i =>
  if i < varMemSize then ⟨(vars i).var.map fun _ => noneText, (vars i).value.map fun _ => noneText⟩ else vars i

end calls

/-- The entry of this name gets the value, or a new entry is put at the end. -/
def putEntry (v x : Text) : List (Text × Text) → List (Text × Text)
  | [] => [(v, x)]
  | e :: rest => if e.1 = v then (v, x) :: rest else e :: putEntry v x rest

def findEntry (v : Text) (entries : List (Text × Text)) : Option Text := (entries.find? fun e => e.1 = v).map Prod.snd

structure Row (varMemSize : Nat) (vars : ShellVars) (entries : List (Text × Text)) : Prop where
  size : entries.length ≤ varMemSize
  slots : ∀ i < varMemSize, vars i = ⟨entries[i]?.map Prod.fst, entries[i]?.map Prod.snd⟩

section entries

variable {varMemSize i : Nat} {vars : ShellVars} {entries : List (Text × Text)} {v w x y : Text}

theorem findEntry_put (v w x : Text) (entries : List (Text × Text)) :
    findEntry w (putEntry v x entries) = if w = v then some x else findEntry w entries := by
  induction entries with
  | nil =>
    by_cases same : w = v
    · simp [putEntry, findEntry, same]
    · simp [putEntry, findEntry, same, Ne.symm same]
  | cons e rest ih =>
    rw [putEntry]
    by_cases here : e.1 = v
    · rw [if_pos here]
      by_cases same : w = v
      · simp [findEntry, same]
      · simp [findEntry, same, Ne.symm same, here]
    · rw [if_neg here]
      by_cases there : e.1 = w
      · have other : w ≠ v := there ▸ here
        simp [findEntry, there, other]
      · have skip : ∀ l, findEntry w (e :: l) = findEntry w l := fun l => by simp [findEntry, there]
        rw [skip, skip, ih]

theorem findEntry_none : findEntry v entries = none ↔ ∀ e ∈ entries, e.1 ≠ v := by
  rw [findEntry, Option.map_eq_none_iff, List.find?_eq_none]
  simp

theorem putEntry_set (here : entries[i]? = some (v, y)) (first : ∀ j < i, ∀ e, entries[j]? = some e → e.1 ≠ v) :
    putEntry v x entries = entries.set i (v, x) := by
  induction entries generalizing i with
  | nil => cases here
  | cons e rest ih =>
    cases i with
    | zero =>
      obtain rfl := Option.some_inj.mp here
      rw [putEntry, if_pos rfl]
      rfl
    | succ i =>
      rw [putEntry, if_neg (first 0 (Nat.zero_lt_succ i) e rfl)]
      rw [ih here fun j before d there => first (j + 1) (by omega) d there]
      rfl

theorem putEntry_append (absent : ∀ e ∈ entries, e.1 ≠ v) : putEntry v x entries = entries ++ [(v, x)] := by
  induction entries with
  | nil => rfl
  | cons e rest ih =>
    rw [putEntry, if_neg (absent e List.mem_cons_self), ih fun d member => absent d (List.mem_cons_of_mem e member)]
    rfl

theorem Row.entry (row : Row varMemSize vars entries) (inside : i < entries.length) :
    vars i = ⟨some entries[i].1, some entries[i].2⟩ := by
  have size := row.size
  rw [row.slots i (by omega), List.getElem?_eq_getElem inside]
  rfl

theorem Row.free (row : Row varMemSize vars entries) (behind : entries.length ≤ i) (inside : i < varMemSize) :
    vars i = ⟨none, none⟩ := by
  rw [row.slots i inside, List.getElem?_eq_none behind]
  rfl

theorem varsInit_row (varMemSize : Nat) (vars : ShellVars) : Row varMemSize (varsInit varMemSize vars) [] where
  size := Nat.zero_le _
  slots i inside := by
    rw [varsInit, if_pos inside]
    rfl

theorem getFrom_row (row : Row varMemSize vars entries) (count : Nat) (low : i ≤ entries.length)
    (rest : i + count = varMemSize) : getFrom vars v (List.range' i count) =
      match findEntry v (entries.drop i) with
      | some x => some (some x)
      | none => if entries.length < varMemSize then none else some none := by
  induction count generalizing i with
  | zero =>
    have size := row.size
    rw [List.drop_of_length_le (by omega), if_neg (by omega)]
    rfl
  | succ count ih =>
    rw [List.range'_succ, getFrom]
    rcases Nat.eq_or_lt_of_le low with atEnd | inside
    · rw [row.free (Nat.le_of_eq atEnd.symm) (by omega), List.drop_of_length_le (by omega), if_pos (by omega)]
      rfl
    · rw [row.entry inside, List.drop_eq_getElem_cons inside]
      by_cases here : entries[i].1 = v
      · have found : findEntry v (entries[i] :: entries.drop (i + 1)) = some entries[i].2 := by
          rw [findEntry, List.find?_cons_of_pos (by simpa using here)]
          rfl
        simp only [if_pos here, found]
        rfl
      · have skip : findEntry v (entries[i] :: entries.drop (i + 1)) = findEntry v (entries.drop (i + 1)) := by
          rw [findEntry, List.find?_cons_of_neg (by simpa using here), findEntry]
        simp only [if_neg here, skip]
        exact ih inside (by omega)

theorem Row.get (row : Row varMemSize vars entries) (v : Text) : memGetValue varMemSize vars v =
    match findEntry v entries with
    | some x => some (some x)
    | none => if entries.length < varMemSize then none else some none := by
  rw [memGetValue, List.range_eq_range']
  exact getFrom_row row varMemSize (Nat.zero_le _) (Nat.zero_add _)

theorem Row.find_none (row : Row varMemSize vars entries) (absent : ∀ e ∈ entries, e.1 ≠ v) :
    (List.range varMemSize).find? (fun i => decide ((vars i).var = some v)) = none := by
  rw [List.find?_eq_none]
  intro i member found
  have inside := List.mem_range.mp member
  rw [decide_eq_true_eq, row.slots i inside] at found
  obtain ⟨e, there, same⟩ := Option.map_eq_some_iff.mp found
  exact absent e (List.mem_of_getElem? there) same

theorem Row.set (row : Row varMemSize vars entries) (room : (∃ e ∈ entries, e.1 = v) ∨ entries.length < varMemSize)
    (x : Text) : Row varMemSize (memSetValue varMemSize vars v x) (putEntry v x entries) := by
  rw [memSetValue]
  cases found : (List.range varMemSize).find? fun i => decide ((vars i).var = some v) with
  | some i =>
    obtain ⟨named, within, first⟩ := List.find?_range_eq_some.mp found
    have inside : i < entries.length := by
      by_contra behind
      rw [row.free (Nat.le_of_not_lt behind) (List.mem_range.mp within)] at named
      cases named
    have name : entries[i].1 = v := by
      rw [row.entry inside] at named
      simpa using named
    have replaced : putEntry v x entries = entries.set i (v, x) := by
      refine putEntry_set (y := entries[i].2) (by rw [List.getElem?_eq_getElem inside, ← name]) fun j before e there same => ?_
      have other := first j before
      rw [row.slots j (by have := row.size; omega), there] at other
      simp [same] at other
    rw [replaced]
    simp only
    refine ⟨by rw [List.length_set]; exact row.size, fun j within => ?_⟩
    by_cases here : j = i
    · rw [here, Function.update_self, List.getElem?_set_self inside, row.entry inside, name]
      rfl
    · rw [Function.update_of_ne here, List.getElem?_set_ne (Ne.symm here), row.slots j within]
  | none =>
    have absent : ∀ e ∈ entries, e.1 ≠ v := by
      intro e member same
      obtain ⟨i, inside, there⟩ := List.mem_iff_getElem.mp member
      have passed := List.find?_eq_none.mp found i (List.mem_range.mpr (by have := row.size; omega))
      rw [row.entry inside, there, same] at passed
      exact passed (by simp)
    have free : entries.length < varMemSize := room.resolve_left fun ⟨e, member, same⟩ => absent e member same
    have slot : (List.range varMemSize).find? (fun i => (vars i).var.isNone) = some entries.length := by
      refine List.find?_range_eq_some.mpr ⟨?_, List.mem_range.mpr free, fun j before => ?_⟩
      · rw [row.free (Nat.le_refl _) free]
        rfl
      · rw [row.entry before]
        rfl
    simp only [slot]
    rw [putEntry_append absent]
    refine ⟨by rw [List.length_append]; exact free, fun j within => ?_⟩
    by_cases here : j = entries.length
    · rw [here, Function.update_self, List.getElem?_concat_length]
      rfl
    · have same : (entries ++ [(v, x)])[j]? = entries[j]? := by
        rcases Nat.lt_or_gt_of_ne here with before | behind
        · exact List.getElem?_append_left before
        · rw [List.getElem?_eq_none (by rw [List.length_append, List.length_singleton]; omega),
            List.getElem?_eq_none (by omega)]
      rw [Function.update_of_ne here, row.slots j within, same]

theorem Row.set_full (row : Row varMemSize vars entries) (absent : ∀ e ∈ entries, e.1 ≠ v)
    (full : entries.length = varMemSize) (x : Text) : memSetValue varMemSize vars v x = vars := by
  have taken : (List.range varMemSize).find? (fun i => (vars i).var.isNone) = none := by
    rw [List.find?_eq_none]
    intro i member
    rw [row.entry (by have := List.mem_range.mp member; omega)]
    exact Bool.false_ne_true
  rw [memSetValue, row.find_none absent]
  simp only [taken]

theorem Row.reset (row : Row varMemSize vars entries) :
    Row varMemSize (resetmem varMemSize vars) (entries.map fun _ => (noneText, noneText)) where
  size := by
    rw [List.length_map]
    exact row.size
  slots i inside := by
    rw [resetmem, if_pos inside, row.slots i inside, List.getElem?_map]
    cases entries[i]? with
    | none => rfl
    | some e => rfl

end entries

end ShellOs.Paging
