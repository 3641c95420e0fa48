import Mathlib.Data.List.Nodup
import Mathlib.Data.List.Perm.Subperm
import ShellOs.Paging.Variables

/-! What the variables are after a run of sets and resets, seen as a map. -/

namespace ShellOs.Paging
open Kernel (Text noneText)

def HasPlace (varMemSize : Nat) (vars : ShellVars) (v : Text) : Prop :=
  (∃ i < varMemSize, (vars i).var = some v) ∨ ∃ i < varMemSize, (vars i).var = none

/-- A run from `mem_init` on in which each set has a place: the variables, and the map of the latest values since the
last reset. Look-ups change nothing. -/
inductive VarRun (varMemSize : Nat) (start : ShellVars) : ShellVars → (Text → Option Text) → Prop
  | start : VarRun varMemSize start (varsInit varMemSize start) fun _ => none
  | set {vars : ShellVars} {latest : Text → Option Text} {v : Text} (x : Text)
      (before : VarRun varMemSize start vars latest) (named : v ≠ noneText) (place : HasPlace varMemSize vars v) :
      VarRun varMemSize start (memSetValue varMemSize vars v x) (Function.update latest v (some x))
  | reset {vars : ShellVars} {latest : Text → Option Text} (before : VarRun varMemSize start vars latest) :
      VarRun varMemSize start (resetmem varMemSize vars) fun _ => none

def setAll (varMemSize : Nat) (vars : ShellVars) (bindings : List (Text × Text)) : ShellVars :=
  bindings.foldl (fun vars b => memSetValue varMemSize vars b.1 b.2) vars

def TakesAll (varMemSize : Nat) (vars : ShellVars) : Prop :=
  ∀ bindings : List (Text × Text), (bindings.map Prod.fst).Nodup → noneText ∉ bindings.map Prod.fst →
    bindings.length ≤ varMemSize → ∀ b ∈ bindings, memGetValue varMemSize (setAll varMemSize vars bindings) b.1 = some (some b.2)

section run

variable {varMemSize : Nat} {start vars : ShellVars} {entries : List (Text × Text)} {latest : Text → Option Text} {v x : Text}

theorem Row.hasPlace (row : Row varMemSize vars entries) :
    HasPlace varMemSize vars v ↔ (∃ e ∈ entries, e.1 = v) ∨ entries.length < varMemSize := by
  have size := row.size
  constructor
  · rintro (⟨i, within, named⟩ | ⟨i, within, free⟩)
    · rw [row.slots i within] at named
      obtain ⟨e, there, same⟩ := Option.map_eq_some_iff.mp named
      exact .inl ⟨e, List.mem_of_getElem? there, same⟩
    · by_contra none'
      rw [row.entry (by omega)] at free
      cases free
  · rintro (⟨e, member, same⟩ | room)
    · obtain ⟨i, inside, there⟩ := List.mem_iff_getElem.mp member
      exact .inl ⟨i, by omega, by rw [row.entry inside, there, same]⟩
    · exact .inr ⟨entries.length, room, by rw [row.free (Nat.le_refl _) room]⟩

theorem Row.full_iff (row : Row varMemSize vars entries) :
    (∀ i < varMemSize, (vars i).var ≠ none) ↔ entries.length = varMemSize := by
  have size := row.size
  constructor
  · intro full
    by_contra room
    exact full entries.length (by omega) (by rw [row.free (Nat.le_refl _) (by omega)])
  · intro full i within
    rw [row.entry (by omega)]
    exact Option.some_ne_none _

theorem Row.empty_iff (row : Row varMemSize vars entries) : (∀ i < varMemSize, (vars i).var = none) ↔ entries = [] := by
  have size := row.size
  constructor
  · intro free
    by_contra filled
    have first := List.length_pos_iff.mpr filled
    have named := free 0 (by omega)
    rw [row.entry first] at named
    cases named
  · rintro rfl i within
    rw [row.free (Nat.zero_le i) within]

theorem VarRun.row (run : VarRun varMemSize start vars latest) :
    ∃ entries, Row varMemSize vars entries ∧ ∀ v, v ≠ noneText → findEntry v entries = latest v := by
  induction run with
  | start => exact ⟨[], varsInit_row varMemSize start, fun _ _ => rfl⟩
  | @set vars latest v x before named place ih =>
    obtain ⟨entries, row, holds⟩ := ih
    refine ⟨putEntry v x entries, row.set (row.hasPlace.mp place) x, fun w other => ?_⟩
    rw [findEntry_put, Function.update_apply, holds w other]
  | reset before ih =>
    obtain ⟨entries, row, -⟩ := ih
    refine ⟨_, row.reset, fun v named => findEntry_none.mpr fun e member same => ?_⟩
    obtain ⟨d, -, rfl⟩ := List.mem_map.mp member
    exact named same.symm

theorem putEntry_length (v x : Text) (entries : List (Text × Text)) :
    (putEntry v x entries).length ≤ entries.length + 1 := by
  induction entries with
  | nil => exact Nat.le_refl _
  | cons e rest ih =>
    rw [putEntry]
    split
    · exact Nat.le_succ _
    · rw [List.length_cons, List.length_cons]
      omega

theorem putEntry_keys (v x : Text) {w : Text} (member : w ∈ entries.map Prod.fst) :
    w ∈ (putEntry v x entries).map Prod.fst := by
  induction entries with
  | nil => cases member
  | cons e rest ih =>
    rw [putEntry]
    split
    next here =>
      rw [List.map_cons, here] at member
      exact member
    next =>
      rw [List.map_cons, List.mem_cons] at member ⊢
      exact member.imp id ih

theorem Row.setAll (row : Row varMemSize vars entries) (bindings : List (Text × Text))
    (room : entries.length + bindings.length ≤ varMemSize) :
    Row varMemSize (setAll varMemSize vars bindings) (bindings.foldl (fun l b => putEntry b.1 b.2 l) entries) := by
  induction bindings generalizing vars entries with
  | nil => exact row
  | cons b rest ih =>
    rw [List.length_cons] at room
    have longer := putEntry_length b.1 b.2 entries
    exact ih (row.set (.inr (by omega)) b.2) (Nat.le_trans (Nat.add_le_add_right longer _) (by omega))

theorem findEntry_foldl (entries bindings : List (Text × Text)) (distinct : (bindings.map Prod.fst).Nodup) :
    (∀ b ∈ bindings, findEntry b.1 (bindings.foldl (fun l b => putEntry b.1 b.2 l) entries) = some b.2) ∧
      ∀ v, v ∉ bindings.map Prod.fst →
        findEntry v (bindings.foldl (fun l b => putEntry b.1 b.2 l) entries) = findEntry v entries := by
  induction bindings generalizing entries with
  | nil => exact ⟨fun b member => absurd member List.not_mem_nil, fun v _ => rfl⟩
  | cons b rest ih =>
    rw [List.map_cons, List.nodup_cons] at distinct
    obtain ⟨found, kept⟩ := ih (putEntry b.1 b.2 entries) distinct.2
    constructor
    · intro d member
      rcases List.mem_cons.mp member with rfl | later
      · exact (kept d.1 distinct.1).trans (by rw [findEntry_put, if_pos rfl])
      · exact found d later
    · intro v outside
      rw [List.map_cons, List.mem_cons, not_or] at outside
      exact (kept v outside.2).trans (by rw [findEntry_put, if_neg outside.1])

theorem Row.setAll_keeps (row : Row varMemSize vars entries) (bindings : List (Text × Text))
    (marked : v ∈ entries.map Prod.fst) :
    ∃ entries, Row varMemSize (Paging.setAll varMemSize vars bindings) entries ∧ v ∈ entries.map Prod.fst := by
  induction bindings generalizing vars entries with
  | nil => exact ⟨entries, row, marked⟩
  | cons b rest ih =>
    have size := row.size
    by_cases place : (∃ e ∈ entries, e.1 = b.1) ∨ entries.length < varMemSize
    · exact ih (row.set place b.2) (putEntry_keys b.1 b.2 marked)
    · rw [not_or] at place
      have same : memSetValue varMemSize vars b.1 b.2 = vars :=
        row.set_full (fun e member named => place.1 ⟨e, member, named⟩) (by omega) b.2
      rw [Paging.setAll, List.foldl_cons, same]
      exact ih row marked

theorem Row.takesAll_iff (row : Row varMemSize vars entries) (marks : ∀ e ∈ entries, e.1 = noneText) :
    TakesAll varMemSize vars ↔ entries = [] := by
  constructor
  · intro takes
    by_contra filled
    obtain ⟨e, member⟩ := List.exists_mem_of_ne_nil entries filled
    have marked : noneText ∈ entries.map Prod.fst := marks e member ▸ List.mem_map_of_mem member
    let bindings : List (Text × Text) := (List.range varMemSize).map fun i => (List.replicate (i + 1) 'x', [])
    have names : bindings.map Prod.fst = (List.range varMemSize).map fun i => List.replicate (i + 1) 'x' := List.map_map ..
    have distinct : (bindings.map Prod.fst).Nodup := by
      rw [names]
      refine List.Nodup.map (fun i j same => ?_) List.nodup_range
      have sizes := congrArg List.length same
      simpa using sizes
    have unmarked : noneText ∉ bindings.map Prod.fst := by
      rw [names]
      intro member
      obtain ⟨i, -, same⟩ := List.mem_map.mp member
      have first : 'n' = 'x' := List.eq_of_mem_replicate (n := i + 1) (same ▸ List.mem_cons_self)
      cases first
    have count : bindings.length = varMemSize := by rw [List.length_map, List.length_range]
    obtain ⟨after, rowAfter, kept⟩ := row.setAll_keeps bindings marked
    have all : noneText :: bindings.map Prod.fst ⊆ after.map Prod.fst := by
      intro name member
      rcases List.mem_cons.mp member with rfl | new
      · exact kept
      · obtain ⟨b, inside, rfl⟩ := List.mem_map.mp new
        have found := takes bindings distinct unmarked (Nat.le_of_eq count) b inside
        by_contra absent
        have nowhere : ∀ e ∈ after, e.1 ≠ b.1 := fun e within same => absent (List.mem_map.mpr ⟨e, within, same⟩)
        rw [rowAfter.get, findEntry_none.mpr nowhere] at found
        simp only at found
        split at found
        · cases found
        · cases found
    have fits := (List.subperm_of_subset (List.nodup_cons.mpr ⟨unmarked, distinct⟩) all).length_le
    have size := rowAfter.size
    simp only [List.length_cons, List.length_map, List.length_range, bindings] at fits
    omega
  · rintro rfl bindings distinct unmarked few b member
    have after := row.setAll bindings (by simpa using few)
    rw [after.get, (findEntry_foldl [] bindings distinct).1 b member]

/-- After every run in which each set had a place: a look-up answers with the latest value, and with NULL for a name
without one, if and only if there is a value or no slot is free (a null name is given to `strcmp` otherwise); a set keeps
its value and those of the other names if and only if the name is there or a slot is free; and a reset leaves room for as
many new names as a fresh store has if and only if no slot is in use. -/
theorem variables_iff (run : VarRun varMemSize start vars latest) :
    (∀ v, v ≠ noneText → (memGetValue varMemSize vars v = some (latest v) ↔
      latest v ≠ none ∨ ∀ i < varMemSize, (vars i).var ≠ none)) ∧
    (∀ v x, v ≠ noneText → ((∀ w, w ≠ noneText → ∀ y, Function.update latest v (some x) w = some y →
      memGetValue varMemSize (memSetValue varMemSize vars v x) w = some (some y)) ↔ HasPlace varMemSize vars v)) ∧
    (TakesAll varMemSize (resetmem varMemSize vars) ↔ ∀ i < varMemSize, (vars i).var = none) := by
  obtain ⟨entries, row, holds⟩ := run.row
  refine ⟨fun v named => ?_, fun v x named => ?_, ?_⟩
  · rw [row.get, holds v named, row.full_iff]
    have size := row.size
    cases latest v with
    | some x => simp
    | none =>
      simp only [ne_eq, not_true_eq_false, false_or]
      split
      next room => exact iff_of_false (fun same => by cases same) (by omega)
      next full => exact iff_of_true rfl (by omega)
  · rw [row.hasPlace]
    constructor
    · intro kept
      by_contra none'
      rw [not_or] at none'
      have size := row.size
      have absent : ∀ e ∈ entries, e.1 ≠ v := fun e member same => none'.1 ⟨e, member, same⟩
      have found := kept v named x (Function.update_self ..)
      rw [row.set_full absent (by omega), row.get, findEntry_none.mpr absent] at found
      simp only at found
      split at found
      · cases found
      · cases found
    · intro place w other y latestHere
      rw [(row.set place x).get, findEntry_put, holds w other, ← Function.update_apply, latestHere]
  · rw [row.reset.takesAll_iff, row.empty_iff, List.map_eq_nil_iff]
    intro e member
    obtain ⟨d, -, rfl⟩ := List.mem_map.mp member
    rfl

end run

def unsetVars : ShellVars := fun _ => ⟨none, none⟩

theorem variables_iff_set : ∃ vars latest, VarRun 2 unsetVars vars latest ∧ latest "x".toList = some "1".toList ∧
    (memGetValue 2 vars "x".toList = some (latest "x".toList) ↔
      latest "x".toList ≠ none ∨ ∀ i < 2, (vars i).var ≠ none) := by
  have run : VarRun 2 unsetVars _ _ := .set (v := "x".toList) "1".toList .start (by decide) (.inr ⟨0, by decide, rfl⟩)
  exact ⟨_, _, run, rfl, (variables_iff run).1 _ (by decide)⟩

/-- A name that was never set is compared with a null pointer, and a slot that was in use before a reset is lost. -/
theorem variables_lose_slot : memGetValue 1 (varsInit 1 unsetVars) "x".toList = none ∧
    memGetValue 1 (memSetValue 1 (resetmem 1 (memSetValue 1 (varsInit 1 unsetVars) "x".toList "1".toList))
      "y".toList "2".toList) "y".toList = some none :=
  ⟨rfl, rfl⟩

end ShellOs.Paging
