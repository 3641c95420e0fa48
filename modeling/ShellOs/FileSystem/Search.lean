import ShellOs.FileSystem.Positions

/-! `find_file` searches what a string function sees of each file: the bytes before the first NUL. -/

namespace ShellOs.FileSystem
open Lib SlotMap

/-- These are the names of the files that hold the pattern, each once. -/
def Holders (s : FlatFs) (pattern : CString) (names : List CString) : Prop :=
  names.Nodup ∧ ∀ name, name ∈ names ↔ ∃ x, some (name, x) ∈ rootSlots s ∧ pattern <:+: contents s x

section search

variable {s : FlatFs} {n k : Nat} {pattern : CString}

theorem printed_eq (pattern : CString) (s : FlatFs) (files : List (CString × BlockSector)) (names : List CString) :
    printed pattern s files names =
      names ++ (files.filter fun b => pattern <:+: untilNul (contents s b.2)).map Prod.fst := by
  induction files generalizing names with
  | nil => exact (List.append_nil names).symm
  | cons b rest ih =>
    have turn := ih (matching pattern b.1 (contents s b.2) names)
    rw [printed, List.foldl_cons, ← printed, turn, matching]
    by_cases seen : pattern <:+: untilNul (contents s b.2)
    · rw [if_pos seen, List.filter_cons_of_pos (by simpa using seen), List.map_cons, List.append_assoc]
      rfl
    · rw [if_neg seen, List.filter_cons_of_neg (by simpa using seen)]

theorem mem_printed {files : List (CString × BlockSector)} {name : CString} :
    name ∈ printed pattern s files [] ↔ ∃ x, (name, x) ∈ files ∧ pattern <:+: untilNul (contents s x) := by
  simp [printed_eq]

theorem printed_nodup {files : List (CString × BlockSector)} (nodup : (files.map Prod.fst).Nodup) :
    (printed pattern s files []).Nodup := by
  rw [printed_eq, List.nil_append]
  exact nodup.sublist (List.filter_sublist.map Prod.fst)

theorem holds_of_untilNul {bytes : List Byte} (seen : pattern <:+: untilNul bytes) : pattern <:+: bytes :=
  seen.trans (List.takeWhile_prefix _).isInfix

/-- The scan prints the right names exactly if every holder lies ahead of it and shows the pattern before a NUL. -/
theorem Volume.printed_holders (vol : Volume s n) :
    Holders s pattern (printed pattern s (bindings ((rootSlots s).drop k)) []) ↔
      ∀ i name x, (rootSlots s)[i]? = some (some (name, x)) → pattern <:+: contents s x →
        k ≤ i ∧ pattern <:+: untilNul (contents s x) := by
  have ahead : ∀ {name x}, (name, x) ∈ bindings ((rootSlots s).drop k) ↔
      ∃ i, k ≤ i ∧ (rootSlots s)[i]? = some (some (name, x)) := by
    intro name x
    rw [mem_bindings, List.mem_iff_getElem?]
    constructor
    · rintro ⟨i, slot⟩
      rw [List.getElem?_drop] at slot
      exact ⟨k + i, Nat.le_add_right k i, slot⟩
    · rintro ⟨i, later, slot⟩
      exact ⟨i - k, by rw [List.getElem?_drop, Nat.add_sub_cancel' later]; exact slot⟩
  constructor
  · rintro ⟨-, exact⟩ i name x slot holds
    obtain ⟨y, member, seen⟩ := mem_printed.mp ((exact name).mpr ⟨x, List.mem_of_getElem? slot, holds⟩)
    obtain ⟨j, later, same⟩ := ahead.mp member
    obtain rfl := vol.bound (List.mem_of_getElem? slot) (List.mem_of_getElem? same)
    rw [slot_unique vol.names slot same]
    exact ⟨later, seen⟩
  · intro shows
    have nodup : ((bindings ((rootSlots s).drop k)).map Prod.fst).Nodup :=
      vol.names.sublist (((List.drop_sublist k _).filterMap id).map Prod.fst)
    refine ⟨printed_nodup nodup, fun name => mem_printed.trans ?_⟩
    constructor
    · rintro ⟨x, member, seen⟩
      exact ⟨x, List.mem_of_mem_drop (mem_bindings.mp member), holds_of_untilNul seen⟩
    · rintro ⟨x, member, holds⟩
      obtain ⟨i, slot⟩ := List.mem_iff_getElem?.mp member
      obtain ⟨later, seen⟩ := shows i name x slot holds
      exact ⟨x, ahead.mpr ⟨i, later, slot⟩, seen⟩

end search

/-- A search is exact exactly if every file that holds the pattern holds it before its first NUL byte, and lies where
the scan still comes to. -/
theorem findFile_exact_iff (s : Fs BufferCache) {n k : Nat} (vol : Volume s.flat n) (ok : TableOk s.flat)
    (named : ∀ name ∈ keys (rootSlots s.flat), FileName name)
    (start : Before (dirOpenRoot s.flat).2 (dirOpenRoot s.flat).1 k) (inside : k ≤ (rootSlots s.flat).length)
    (pattern : CString) : (∃ names, (findFile s pattern).1 = some names ∧ Holders s.flat pattern names) ↔
      ∀ i name x, (rootSlots s.flat)[i]? = some (some (name, x)) → pattern <:+: contents s.flat x →
        k ≤ i ∧ pattern <:+: untilNul (contents s.flat x) := by
  obtain ⟨prints, -, -⟩ := findFile_visited vol ok named start inside pattern
  rw [← findFile_flat, flatten_fst] at prints
  rw [prints, ← vol.printed_holders]
  simp

theorem findFile_exact_formatted :
    ∃ names, (findFile (formatted 80) [65]).1 = some names ∧ Holders (formatted 80).flat [65] names := by
  have general : ∀ s : Fs BufferCache, Fresh 80 s.flat →
      ∃ names, (findFile s [65]).1 = some names ∧ Holders s.flat [65] names := by
    intro s fresh
    have positioned := fresh.positioned
    have exact := findFile_exact_iff s fresh.volume positioned.ok.table positioned.ok.named fresh.shut.before
      (Nat.zero_le _) [65]
    apply exact.mpr
    intro i name x slot
    exact absurd (mem_keys.mpr ⟨x, List.mem_of_getElem? slot⟩) (fresh.absent name)
  exact general _ (formatted_fresh (by decide +kernel))

/-- The bytes 0 and "A" are imported, and a search for "A" does not find them. -/
theorem findFile_misses :
    let t := (copyIn (formatted 80) [97] (some [0, 65])).2
    ¬∃ names, (findFile t [65]).1 = some names ∧ Holders t.flat [65] names := by
  have general : ∀ s : Fs BufferCache, Fresh 80 s.flat → numFreeSectors s = 5 →
      let t := (copyIn s [97] (some [0, 65])).2
      ¬∃ names, (findFile t [65]).1 = some names ∧ Holders t.flat [65] names := by
    rintro s fresh free t ⟨names, prints, holders⟩
    have few : numFreeSectors s.flat = 5 := free
    have needs : (createNeeds (([0, 65] : List Byte).length + 1)).length = 1 := by decide +kernel
    obtain ⟨u, x, run, imported⟩ := @Fresh.imports _ _ [0, 65] 80 fresh 5 (by rw [← numFreeSectors_eq]; exact few) (by decide)
      fileName_a (by decide) (by decide) (by rw [needs]; decide)
    have nonempty : some ([0, 65] : List Byte) = some [] → ¬CreateFits s.flat [97] 1 := fun same => by cases same
    have positioned := fresh.positioned.copyIn fileName_a.toFlat (by omega) nonempty
    rw [← copyIn_flat] at run
    obtain ⟨-, rfl⟩ := Prod.mk.inj run
    rw [← copyIn_flat, flatten_snd] at positioned
    obtain ⟨n, vol⟩ := positioned.ok.volume
    obtain ⟨printed, -, -⟩ := findFile_visited vol positioned.ok.table positioned.ok.named positioned.ok.shut.before
      (Nat.zero_le _) [65]
    rw [← findFile_flat, flatten_fst, prints] at printed
    rw [Option.some.inj printed] at holders
    obtain ⟨i, slot⟩ := List.mem_iff_getElem?.mp imported.bound
    have shown := (vol.printed_holders.mp holders i _ x slot (by rw [imported.contents]; decide)).2
    rw [imported.contents] at shown
    exact absurd shown (by decide)
  exact general _ (formatted_fresh (by decide +kernel)) formatted_free

end ShellOs.FileSystem
