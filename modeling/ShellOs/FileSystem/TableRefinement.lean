import ShellOs.FileSystem.FreeTable
import ShellOs.FileSystem.TableFrame

/-! The calls on `file_table` in memory do what the file system does with its list of open files. -/

namespace ShellOs.FileSystem
open Lib DoublyLinked

namespace TableMemory

def fileEntry (m : TableMemory) (entry : TableEntry) : Option FileTableEntry :=
  (entry.f.bind m.files).map fun file => ⟨entry.fname, file⟩

def Lists (m : TableMemory) (table : List (Nat × TableEntry)) (entries : List FileTableEntry) : Prop :=
  List.Forall₂ (fun r entry => m.fileEntry r.2 = some entry) table entries

structure Represents {σ : Type} (m : TableMemory) (s : Fs σ) : Prop where
  distinct : m.Distinct
  lists : ∃ table, Holds m table ∧ m.Lists table s.fileTable

section lists

variable {m t : TableMemory} {table front back : List (Nat × TableEntry)} {entries : List FileTableEntry} {a : Nat}
  {entry : TableEntry} {fname : CString}

theorem fileEntry_some {e : FileTableEntry} (here : m.fileEntry entry = some e) :
    entry.fname = e.fname ∧ entry.f.bind m.files = some e.f := by
  obtain ⟨file, found, rfl⟩ := Option.map_eq_some_iff.mp here
  exact ⟨rfl, found⟩

theorem Lists.find (lists : m.Lists table entries) :
    ((table.find? fun r => r.2.fname = fname).bind fun r => m.fileEntry r.2) =
      entries.find? fun entry => entry.fname == fname := by
  induction lists with
  | nil => rfl
  | @cons r e table entries here rest ih =>
    obtain ⟨name, -⟩ := fileEntry_some here
    by_cases same : e.fname = fname
    · rw [List.find?_cons_of_pos (by simpa [name] using same), List.find?_cons_of_pos (by simpa using same)]
      exact here
    · rw [List.find?_cons_of_neg (by simpa [name] using same), List.find?_cons_of_neg (by simpa using same), ih]

theorem Lists.file (lists : m.Lists table entries) :
    ((table.find? fun r => r.2.fname = fname).bind fun r => r.2.f).bind m.files =
      (entries.find? fun entry => entry.fname == fname).map FileTableEntry.f := by
  rw [← lists.find]
  cases table.find? fun r => r.2.fname = fname with
  | none => rfl
  | some r =>
    simp only [Option.bind_some, fileEntry, Option.map_map]
    exact Option.map_id'.symm

theorem Lists.congr (lists : m.Lists table entries) (same : ∀ r ∈ table, t.fileEntry r.2 = m.fileEntry r.2) :
    t.Lists table entries := by
  induction lists with
  | nil => exact List.Forall₂.nil
  | @cons r e table entries here rest ih =>
    refine List.Forall₂.cons ((same r List.mem_cons_self).trans here) (ih fun r member => ?_)
    exact same r (List.mem_cons_of_mem _ member)

theorem Lists.files (lists : m.Lists table entries) :
    (table.filterMap fun r => r.2.f).map m.files = entries.map fun entry => some entry.f := by
  induction lists with
  | nil => rfl
  | @cons r e table entries here rest ih =>
    obtain ⟨pointer, held, opened⟩ := Option.bind_eq_some_iff.mp (fileEntry_some here).2
    rw [List.filterMap_cons_some (f := fun r : Nat × TableEntry => r.2.f) held, List.map_cons, List.map_cons, opened, ih]

theorem Lists.erase (lists : m.Lists (front ++ (a, entry) :: back) entries) (named : entry.fname = fname)
    (others : ∀ r ∈ front, r.2.fname ≠ fname) (same : ∀ r ∈ front ++ back, t.fileEntry r.2 = m.fileEntry r.2) :
    t.Lists (front ++ back) (entries.eraseP fun entry => entry.fname == fname) := by
  induction front generalizing entries with
  | nil =>
    obtain ⟨e, rest, here, behind, rfl⟩ := List.forall₂_cons_left_iff.mp lists
    have first : e.fname = fname := (fileEntry_some here).1 ▸ named
    rw [List.eraseP_cons_of_pos (by simpa using first)]
    exact Lists.congr behind same
  | cons r front ih =>
    obtain ⟨e, rest, here, behind, rfl⟩ := List.forall₂_cons_left_iff.mp lists
    have other : e.fname ≠ fname := (fileEntry_some here).1 ▸ others r List.mem_cons_self
    rw [List.eraseP_cons_of_neg (by simpa using other)]
    refine List.Forall₂.cons ((same r List.mem_cons_self).trans here) (ih behind ?_ ?_)
    · exact fun r member => others r (List.mem_cons_of_mem _ member)
    · exact fun r member => same r (List.mem_cons_of_mem _ member)

end lists

section calls

variable {σ : Type} {m t : TableMemory} {s : Fs σ} {fuel : Nat} {fname : CString}

theorem getFileByFname_represents (represents : Represents m s) {pointer : Option Nat}
    (run : m.getFileByFname fuel fname = some pointer) :
    pointer.bind m.files = FileSystem.getFileByFname s fname := by
  obtain ⟨table, holds, lists⟩ := represents.lists
  rw [getFileByFname_spec holds run]
  exact lists.file

theorem addToFileTable_represents (represents : Represents m s) {address pointer : Nat} {links : Cell ListElem}
    {file : File} (malloc : m.entries address = none) (opened : m.files pointer = some file)
    (run : m.addToFileTable fuel address links (some pointer) fname = some t) (distinct : t.Distinct) :
    Represents t (FileSystem.addToFileTable s file fname) := by
  obtain ⟨table, holds, lists⟩ := represents.lists
  have known : _ = FileSystem.getFileByFname s fname := lists.file
  rw [FileSystem.addToFileTable, ← known]
  rcases addToFileTable_spec holds malloc run with ⟨some', rfl⟩ | ⟨none', longer, files, -⟩
  · cases search : table.find? fun r => r.2.fname = fname with
    | none =>
      rw [search] at some'
      cases some'
    | some r =>
      have held := (holds.entries r.1 r.2).mpr (List.mem_of_find?_eq_some search)
      obtain ⟨first, info, pointer, opened⟩ := represents.distinct.file held
      rw [Option.bind_some, pointer, Option.bind_some, opened]
      exact represents
  · rw [none', Option.bind_none, if_neg (by simp)]
    refine ⟨distinct, _, longer, List.rel_append (lists.congr fun r _ => ?_) (List.Forall₂.cons ?_ List.Forall₂.nil)⟩
    · rw [fileEntry, fileEntry, files]
    · simp only [fileEntry, files, Option.bind_some, opened, Option.map_some]

variable [Store σ BlockSector Sector] [LawfulStore σ]

theorem removeFromFileTable_represents (represents : Represents m s) {found : Bool}
    (run : m.removeFromFileTable fuel fname = some (found, t)) :
    found = (FileSystem.removeFromFileTable s fname).1 ∧ Represents t (FileSystem.removeFromFileTable s fname).2 := by
  obtain ⟨table, holds, lists⟩ := represents.lists
  have known : _ = FileSystem.getFileByFname s fname := lists.file
  rw [FileSystem.removeFromFileTable, ← known]
  rcases removeFromFileTable_spec holds represents.distinct run with ⟨none', rfl, rfl⟩ | removal
  · rw [none']
    exact ⟨rfl, represents⟩
  · obtain ⟨front, a, entry, pointer, back, g, search, rfl, others, held, rfl, rfl, linked⟩ := removal
    have present := (holds.entries a entry).mpr (by simp)
    have named : entry.fname = fname := by simpa using List.find?_some search
    obtain ⟨pointer', file, same, opened⟩ := represents.distinct.file present
    obtain rfl := Option.some_inj.mp (same.symm.trans held)
    rw [search, Option.bind_some, held, Option.bind_some, opened]
    obtain ⟨rest, distinct⟩ := holds.released represents.distinct held linked
    refine ⟨rfl, distinct, front ++ back, rest, ?_⟩
    simp only [fileClose_fileTable]
    refine lists.erase named others fun r member => ?_
    obtain ⟨different, before⟩ := released_entries ((rest.entries r.1 r.2).mpr member)
    rw [fileEntry, released_file represents.distinct present held different before, fileEntry]

omit [LawfulStore σ] in
theorem freeFileTable_represents (represents : Represents m s) : ∃ fuel t closed, m.freeFileTable fuel = some t ∧
    Represents t (FileSystem.freeFileTable s) ∧ t.closed = m.closed ++ closed ∧
      closed.map m.files = s.fileTable.map fun entry => some entry.f := by
  obtain ⟨table, holds, lists⟩ := represents.lists
  obtain ⟨t, run, closed, empty⟩ := freeFileTable_spec holds represents.distinct (Nat.lt_succ_self table.length)
  refine ⟨table.length + 1, t, _, run, ⟨fun a entry held => ?_, [], empty, List.Forall₂.nil⟩, closed, lists.files⟩
  cases (empty.entries a entry).mp held

end calls

end TableMemory

end ShellOs.FileSystem
