import ShellOs.FileSystem.LinkedList
import ShellOs.FileSystem.FileTable

/-! The table of open files as it lies in memory (file.c): a list of entries that are allocated and freed one by one. -/

namespace ShellOs.FileSystem
open Lib DoublyLinked

/-- The addresses of list elements: the two headers of `file_table`, and `elem` in each entry. -/
inductive ListElem where
  | head
  | tail
  | elem (entry : Nat)
  deriving DecidableEq

/-- `struct file_table_entry` without its `elem`; `f` is the pointer to the open file. -/
structure TableEntry where
  fname : CString
  f : Option Nat

/-- The allocated entries and files by address, and the files that `file_close` has closed so far. -/
structure TableMemory where
  heap : Heap ListElem
  entries : Nat → Option TableEntry
  files : Nat → Option File
  closed : List Nat

def fileTable : LinkedList ListElem := ⟨.head, .tail⟩

namespace TableMemory

def start (files : Nat → Option File) : TableMemory where
  heap
    | .elem _ => none
    | _ => some ⟨none, none⟩
  entries _ := none
  files := files
  closed := []

def initFileTable (m : TableMemory) : Option TableMemory :=
  (llistInit m.heap fileTable).map fun heap => { m with heap := heap }

/-- `file_close`, which does nothing for a null pointer; a file that is no longer allocated can not be closed. -/
def fileClose (m : TableMemory) : Option Nat → Option TableMemory
  | none => some m
  | some file =>
    (m.files file).map fun _ => { m with files := Function.update m.files file none, closed := m.closed ++ [file] }

/-- The loop that looks for a name from `e` on: the entry and its address, and `none` inside if it comes to the end. -/
def findEntry (m : TableMemory) (fname : CString) : Nat → ListElem → Option (Option (Nat × TableEntry))
  | 0, _ => none
  | fuel + 1, e =>
    if e = listEnd fileTable then some none
    else match e with
      | .elem a => do
        let entry ← m.entries a
        if entry.fname = fname then some (some (a, entry)) else m.findEntry fname fuel (← listNext m.heap e)
      | _ => none

/-- The result is null as well if the entry has no file. -/
def getFileByFname (m : TableMemory) (fuel : Nat) (fname : CString) : Option (Option Nat) := do
  let found ← m.findEntry fname fuel (← listBegin m.heap fileTable)
  some (found.bind fun r => r.2.f)

/-- `add_to_file_table`, where `malloc` returns `address` and the links there are arbitrary. -/
def addToFileTable (m : TableMemory) (fuel address : Nat) (links : Cell ListElem) (file : Option Nat) (fname : CString) :
    Option TableMemory := do
  if (← m.getFileByFname fuel fname).isSome then some m
  else
    let heap ← listPushBack (Function.update m.heap (.elem address) (some links)) fileTable (.elem address)
    some { m with heap := heap, entries := Function.update m.entries address (some ⟨fname, file⟩) }

def freeEntry (m : TableMemory) (a : Nat) : TableMemory :=
  { m with heap := Function.update m.heap (.elem a) none, entries := Function.update m.entries a none }

def removeFromFileTable (m : TableMemory) (fuel : Nat) (fname : CString) : Option (Bool × TableMemory) := do
  match ← m.findEntry fname fuel (← listBegin m.heap fileTable) with
  | none => some (false, m)
  | some (a, entry) => do
    let closed ← m.fileClose entry.f
    let r ← listRemove closed.heap (.elem a)
    some (true, { closed with heap := r.2 }.freeEntry a)

def freeFileTable : Nat → TableMemory → Option TableMemory
  | 0, _ => none
  | fuel + 1, m => do
    if ← listEmpty m.heap fileTable then some m
    else
      let r ← listPopFront m.heap fileTable
      match r.1 with
      | .elem a => do
        let entry ← m.entries a
        let closed ← { m with heap := r.2 }.fileClose entry.f
        let again ← listRemove closed.heap (.elem a)
        freeFileTable fuel ({ closed with heap := again.2 }.freeEntry a)
      | _ => none

def inode (m : TableMemory) (entry : TableEntry) : Option BlockSector := (entry.f.bind m.files).map File.inode

/-- Each entry has an open file, and no two have one of the same inode. -/
def Distinct (m : TableMemory) : Prop :=
  ∀ a entry, m.entries a = some entry → (m.inode entry).isSome ∧
    ∀ b other, m.entries b = some other → m.inode other = m.inode entry → b = a

def elems (table : List (Nat × TableEntry)) : List ListElem := table.map fun r => .elem r.1

/-- The memory holds the table with these entries, in this order. -/
structure Holds (m : TableMemory) (table : List (Nat × TableEntry)) : Prop where
  linked : Linked m.heap fileTable (elems table)
  entries : ∀ a entry, m.entries a = some entry ↔ (a, entry) ∈ table

section spec

variable {m t : TableMemory} {table front back : List (Nat × TableEntry)} {a fuel : Nat} {entry : TableEntry}
  {fname : CString}

theorem Holds.next (holds : Holds m (front ++ (a, entry) :: back)) :
    listNext m.heap (.elem a) = (elems back ++ [ListElem.tail]).head? := by
  have linked := holds.linked
  rw [elems, List.map_append, List.map_cons] at linked
  exact listNext_spec linked

theorem findEntry_spec (front : List (Nat × TableEntry)) (holds : Holds m (front ++ back)) {e : ListElem}
    (here : (elems back ++ [ListElem.tail]).head? = some e) :
    (∀ found, m.findEntry fname fuel e = some found → found = back.find? fun r => r.2.fname = fname) ∧
      (back.length < fuel → m.findEntry fname fuel e = some (back.find? fun r => r.2.fname = fname)) := by
  induction back generalizing front fuel e with
  | nil =>
    obtain rfl := Option.some_inj.mp here
    cases fuel with
    | zero => exact ⟨fun _ ends => (nomatch ends), fun enough => absurd enough (Nat.not_lt_zero _)⟩
    | succ fuel => exact ⟨fun _ ends => (Option.some_inj.mp ends).symm, fun _ => rfl⟩
  | cons r rest ih =>
    obtain ⟨a, entry⟩ := r
    obtain rfl := Option.some_inj.mp here
    cases fuel with
    | zero => exact ⟨fun _ ends => (nomatch ends), fun enough => absurd enough (Nat.not_lt_zero _)⟩
    | succ fuel =>
      have held := (holds.entries a entry).mpr (by simp)
      have next := holds.next
      obtain ⟨e, first⟩ : ∃ e, (elems rest ++ [ListElem.tail]).head? = some e :=
        Option.isSome_iff_exists.mp (by simp)
      have step : m.findEntry fname (fuel + 1) (.elem a) =
          if entry.fname = fname then some (some (a, entry)) else m.findEntry fname fuel e := by
        simp only [findEntry, listEnd, fileTable, reduceCtorEq, if_false, held, next, first, Option.bind_eq_bind,
          Option.bind_some]
      rw [step]
      by_cases same : entry.fname = fname
      · rw [if_pos same, List.find?_cons_of_pos (by simpa using same)]
        exact ⟨fun _ ends => (Option.some_inj.mp ends).symm, fun _ => rfl⟩
      · rw [if_neg same, List.find?_cons_of_neg (by simpa using same)]
        obtain ⟨stops, ends⟩ := ih (front ++ [(a, entry)]) (by rwa [List.append_assoc]) first
        exact ⟨stops, fun enough => ends (Nat.lt_of_succ_lt_succ enough)⟩

theorem Distinct.file (distinct : m.Distinct) (held : m.entries a = some entry) :
    ∃ file info, entry.f = some file ∧ m.files file = some info := by
  have opened := (distinct a entry held).1
  rw [inode, Option.isSome_map] at opened
  obtain ⟨info, bound⟩ := Option.isSome_iff_exists.mp opened
  obtain ⟨file, pointer, found⟩ := Option.bind_eq_some_iff.mp bound
  exact ⟨file, info, pointer, found⟩

/-- What is left of the memory when an entry is gone and its file is closed. -/
def released (m : TableMemory) (g : Heap ListElem) (a file : Nat) : TableMemory :=
  freeEntry { m with heap := g, files := Function.update m.files file none, closed := m.closed ++ [file] } a

theorem Holds.outside (holds : Holds m (front ++ (a, entry) :: back)) :
    ListElem.elem a ∉ ListElem.head :: (elems (front ++ back) ++ [ListElem.tail]) := by
  have nodup := (List.nodup_cons.mp holds.linked.nodup).2
  rw [elems, List.map_append, List.map_cons, List.append_assoc, List.cons_append] at nodup
  have apart := (List.nodup_cons.mp (List.nodup_middle.mp nodup)).1
  rw [elems, List.map_append, List.append_assoc, List.mem_cons, not_or]
  exact ⟨nofun, apart⟩

theorem released_entries {g : Heap ListElem} {file b : Nat} {other : TableEntry}
    (found : (m.released g a file).entries b = some other) : b ≠ a ∧ m.entries b = some other := by
  change Function.update m.entries a none b = some other at found
  have different : b ≠ a := by
    rintro rfl
    rw [Function.update_self] at found
    cases found
  rw [Function.update_of_ne different] at found
  exact ⟨different, found⟩

theorem released_file {g : Heap ListElem} {file b : Nat} {other : TableEntry} (distinct : m.Distinct)
    (held : m.entries a = some entry) (pointer : entry.f = some file) (different : b ≠ a)
    (found : m.entries b = some other) : other.f.bind (m.released g a file).files = other.f.bind m.files := by
  obtain ⟨pointer', info, same, opened⟩ := distinct.file found
  have apart : pointer' ≠ file := by
    rintro rfl
    exact different ((distinct a entry held).2 b other found (by rw [inode, inode, same, pointer]))
  rw [same]
  exact Function.update_of_ne apart ..

theorem Holds.released {g : Heap ListElem} {file : Nat} (holds : Holds m (front ++ (a, entry) :: back))
    (distinct : m.Distinct) (pointer : entry.f = some file) (linked : Linked g fileTable (elems (front ++ back))) :
    Holds (m.released g a file) (front ++ back) ∧ (m.released g a file).Distinct := by
  have outside := holds.outside
  have held := (holds.entries a entry).mpr (by simp)
  have inodes : ∀ b other, b ≠ a → m.entries b = some other → (m.released g a file).inode other = m.inode other :=
    fun b other different found => congrArg (Option.map File.inode) (released_file distinct held pointer different found)
  refine ⟨⟨⟨?_, linked.nodup⟩, fun b other => ?_⟩, fun b other found => ?_⟩
  · exact (row_update outside none).mpr linked.row
  · constructor
    · intro found
      obtain ⟨different, before⟩ := released_entries found
      have member := (holds.entries b other).mp before
      simpa [different] using member
    · intro member
      have different : b ≠ a := by
        rintro rfl
        have inside : ListElem.elem b ∈ elems (front ++ back) := List.mem_map.mpr ⟨(b, other), member, rfl⟩
        exact outside (List.mem_cons_of_mem _ (List.mem_append_left _ inside))
      refine Eq.trans (Function.update_of_ne different ..) ((holds.entries b other).mpr ?_)
      rcases List.mem_append.mp member with before | behind
      · exact List.mem_append_left _ before
      · exact List.mem_append_right _ (List.mem_cons_of_mem _ behind)
  · obtain ⟨different, before⟩ := released_entries found
    rw [inodes b other different before]
    refine ⟨(distinct b other before).1, fun c another found' same => ?_⟩
    obtain ⟨different', before'⟩ := released_entries found'
    rw [inodes c another different' before'] at same
    exact (distinct b other before).2 c another before' same

theorem Holds.begin (holds : Holds m table) : ∃ e, listBegin m.heap fileTable = some e ∧
    (elems table ++ [ListElem.tail]).head? = some e := by
  obtain ⟨e, first⟩ : ∃ e, (elems table ++ [ListElem.tail]).head? = some e := Option.isSome_iff_exists.mp (by simp)
  exact ⟨e, (listBegin_spec holds.linked).trans first, first⟩

theorem Holds.unlink (holds : Holds m (front ++ (a, entry) :: back)) : ∃ next g,
    listRemove m.heap (.elem a) = some (next, g) ∧ Linked g fileTable (elems (front ++ back)) ∧
      listRemove g (.elem a) = some (next, g) := by
  have linked := holds.linked
  rw [elems, List.map_append, List.map_cons] at linked
  obtain ⟨next, g, removed, rest, again⟩ := listRemove_spec linked
  rw [← List.map_append] at rest
  exact ⟨next, g, removed, rest, again⟩

theorem removeFromFileTable_spec (holds : Holds m table) (distinct : m.Distinct) {found : Bool}
    (run : m.removeFromFileTable fuel fname = some (found, t)) :
    (table.find? fun r => r.2.fname = fname) = none ∧ found = false ∧ t = m ∨
      ∃ front a entry file back g, (table.find? fun r => r.2.fname = fname) = some (a, entry) ∧
        table = front ++ (a, entry) :: back ∧ (∀ r ∈ front, r.2.fname ≠ fname) ∧ entry.f = some file ∧
        found = true ∧ t = m.released g a file ∧ Linked g fileTable (elems (front ++ back)) := by
  obtain ⟨e, begins, first⟩ := holds.begin
  obtain ⟨e', begins', run⟩ := Option.bind_eq_some_iff.mp run
  obtain rfl := Option.some_inj.mp (begins.symm.trans begins')
  obtain ⟨r, loop, run⟩ := Option.bind_eq_some_iff.mp run
  obtain rfl := (findEntry_spec [] holds first).1 r loop
  cases search : table.find? fun r => r.2.fname = fname with
  | none =>
    rw [search] at run
    obtain ⟨rfl, rfl⟩ := Prod.mk.inj (Option.some_inj.mp run)
    exact Or.inl ⟨rfl, rfl, rfl⟩
  | some r =>
    obtain ⟨a, entry⟩ := r
    rw [search] at run
    obtain ⟨-, front, back, whole, others⟩ := List.find?_eq_some_iff_append.mp search
    rw [whole] at holds
    obtain ⟨file, info, pointer, opened⟩ := distinct.file ((holds.entries a entry).mpr (by simp))
    obtain ⟨next, g, removed, linked, -⟩ := holds.unlink
    simp only [pointer, fileClose, opened, Option.map_some, Option.bind_eq_bind, Option.bind_some, removed] at run
    obtain ⟨rfl, rfl⟩ := Prod.mk.inj (Option.some_inj.mp run)
    refine Or.inr ⟨front, a, entry, file, back, g, rfl, whole, ?_, pointer, rfl, rfl, linked⟩
    intro r member
    simpa using others r member

theorem getFileByFname_spec (holds : Holds m table) {file : Option Nat} (run : m.getFileByFname fuel fname = some file) :
    file = (table.find? fun r => r.2.fname = fname).bind fun r => r.2.f := by
  obtain ⟨e, begins, first⟩ := holds.begin
  obtain ⟨e', begins', run⟩ := Option.bind_eq_some_iff.mp run
  obtain rfl := Option.some_inj.mp (begins.symm.trans begins')
  obtain ⟨r, loop, run⟩ := Option.bind_eq_some_iff.mp run
  rw [← (findEntry_spec [] holds first).1 r loop]
  exact (Option.some_inj.mp run).symm

theorem Holds.push (holds : Holds m table) {address : Nat} (malloc : m.entries address = none) (links : Cell ListElem)
    (new : TableEntry) : (∀ entry, (address, entry) ∉ table) ∧ ∃ g,
      listPushBack (Function.update m.heap (.elem address) (some links)) fileTable (.elem address) = some g ∧
        Linked g fileTable (elems (table ++ [(address, new)])) := by
  have absent : ∀ entry, (address, entry) ∉ table := fun entry member => by
    rw [(holds.entries address entry).mpr member] at malloc
    cases malloc
  have outside : ListElem.elem address ∉ ListElem.head :: (elems table ++ [ListElem.tail]) := by
    simpa [elems] using absent
  have linked : Linked (Function.update m.heap (.elem address) (some links)) fileTable (elems table) :=
    ⟨(row_update outside _).mpr holds.linked.row, holds.linked.nodup⟩
  obtain ⟨g, push, longer⟩ := listPushBack_spec linked (Function.update_self ..) outside
  exact ⟨absent, g, push, by rwa [elems, List.map_append]⟩

theorem addToFileTable_spec (holds : Holds m table) {address : Nat} {links : Cell ListElem} {file : Option Nat}
    (malloc : m.entries address = none) (run : m.addToFileTable fuel address links file fname = some t) :
    ((table.find? fun r => r.2.fname = fname).bind fun r => r.2.f).isSome = true ∧ t = m ∨
      ((table.find? fun r => r.2.fname = fname).bind fun r => r.2.f) = none ∧
        Holds t (table ++ [(address, ⟨fname, file⟩)]) ∧ t.files = m.files ∧ t.closed = m.closed := by
  obtain ⟨known, search, run⟩ := Option.bind_eq_some_iff.mp run
  rw [← getFileByFname_spec holds search]
  split at run
  next some' => exact Or.inl ⟨some', (Option.some_inj.mp run).symm⟩
  next none' =>
    obtain ⟨heap, push, run⟩ := Option.bind_eq_some_iff.mp run
    obtain rfl := Option.some_inj.mp run
    obtain ⟨absent, g, push', longer⟩ := holds.push malloc links ⟨fname, file⟩
    obtain rfl := Option.some_inj.mp (push'.symm.trans push)
    refine Or.inr ⟨Option.not_isSome_iff_eq_none.mp none', ⟨longer, fun a entry => ?_⟩, rfl, rfl⟩
    by_cases here : a = address
    · subst here
      simp [absent, eq_comm]
    · simp [holds.entries, here]

theorem calls_end (holds : Holds m table) (distinct : m.Distinct) (enough : table.length < fuel) (fname : CString) :
    (∀ address links file, m.entries address = none → ∃ t, m.addToFileTable fuel address links file fname = some t) ∧
      ∃ r, m.removeFromFileTable fuel fname = some r := by
  obtain ⟨e, begins, first⟩ := holds.begin
  have loop : m.findEntry fname fuel e = some (table.find? fun r => r.2.fname = fname) :=
    (findEntry_spec [] holds first).2 enough
  constructor
  · intro address links file malloc
    obtain ⟨-, g, push, -⟩ := holds.push malloc links ⟨fname, file⟩
    simp only [addToFileTable, getFileByFname, begins, loop, Option.bind_eq_bind, Option.bind_some, push]
    split <;> exact ⟨_, rfl⟩
  · simp only [removeFromFileTable, begins, loop, Option.bind_eq_bind, Option.bind_some]
    cases search : table.find? fun r => r.2.fname = fname with
    | none => exact ⟨_, rfl⟩
    | some r =>
      obtain ⟨a, entry⟩ := r
      obtain ⟨-, front, back, rfl, -⟩ := List.find?_eq_some_iff_append.mp search
      obtain ⟨file, info, pointer, opened⟩ := distinct.file ((holds.entries a entry).mpr (by simp))
      obtain ⟨next, g, removed, -⟩ := holds.unlink
      simp only [pointer, fileClose, opened, Option.map_some, Option.bind_some, removed]
      exact ⟨_, rfl⟩

theorem initFileTable_spec {files : Nat → Option File} (run : (start files).initFileTable = some t) :
    Holds t [] ∧ t.entries = fun _ => none := by
  obtain ⟨heap, ready, rfl⟩ := Option.map_eq_some_iff.mp run
  obtain ⟨g, ready', linked⟩ := llistInit_spec (start files).heap fileTable rfl rfl nofun
  obtain rfl := Option.some_inj.mp (ready'.symm.trans ready)
  exact ⟨⟨linked, fun a entry => ⟨nofun, nofun⟩⟩, rfl⟩

theorem freeFileTable_spec (holds : Holds m table) (distinct : m.Distinct) (enough : table.length < fuel) :
    ∃ t, m.freeFileTable fuel = some t ∧ t.closed = m.closed ++ table.filterMap (fun r => r.2.f) ∧ Holds t [] := by
  induction table generalizing m fuel with
  | nil =>
    cases fuel with
    | zero => exact absurd enough (Nat.not_lt_zero _)
    | succ fuel =>
      refine ⟨m, ?_, (List.append_nil _).symm, holds⟩
      simp only [freeFileTable, listEmpty_spec holds.linked, Option.bind_eq_bind, Option.bind_some]
      rfl
  | cons r rest ih =>
    obtain ⟨a, entry⟩ := r
    cases fuel with
    | zero => exact absurd enough (Nat.not_lt_zero _)
    | succ fuel =>
      have whole : Holds m ([] ++ (a, entry) :: rest) := holds
      have held := (holds.entries a entry).mpr List.mem_cons_self
      obtain ⟨file, info, pointer, opened⟩ := distinct.file held
      obtain ⟨next, g, popped, linked, again⟩ := listPopFront_spec holds.linked
      obtain ⟨holds', distinct'⟩ := whole.released distinct pointer linked
      obtain ⟨t, run, closed, empty⟩ := ih holds' distinct' (Nat.lt_of_succ_lt_succ enough)
      refine ⟨t, ?_, ?_, empty⟩
      · -- the second `list_remove` finds the neighbours linked with each other
        simp only [freeFileTable, listEmpty_spec holds.linked, elems, List.map_cons, List.isEmpty_cons, popped, held,
          Option.bind_eq_bind, Option.bind_some, Bool.false_eq_true, if_false, fileClose, pointer, opened,
          Option.map_some, again]
        exact run
      · rw [closed, List.filterMap_cons_some (by exact pointer), List.append_cons]
        rfl

end spec

end TableMemory

end ShellOs.FileSystem
