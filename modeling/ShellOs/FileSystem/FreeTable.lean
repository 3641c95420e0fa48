import ShellOs.FileSystem.TableMemory

/-! What `free_file_table` (file.c) does with any table that the other calls have built. -/

namespace ShellOs.FileSystem
open Lib DoublyLinked

namespace TableMemory

/-- The tables that these calls build, as long as the entries have distinct inodes. What else happens to the files leaves
those in the table open. -/
inductive Built : TableMemory → Prop
  | init {files : Nat → Option File} {t : TableMemory} (run : (start files).initFileTable = some t) : Built t
  | add {m t : TableMemory} {fuel address : Nat} {links : Cell ListElem} {file : Option Nat} {fname : CString}
      (before : Built m) (malloc : m.entries address = none)
      (run : m.addToFileTable fuel address links file fname = some t) (distinct : t.Distinct) : Built t
  | remove {m t : TableMemory} {fuel : Nat} {fname : CString} {found : Bool} (before : Built m)
      (run : m.removeFromFileTable fuel fname = some (found, t)) : Built t
  | others {m : TableMemory} (files : Nat → Option File) (before : Built m)
      (open' : ∀ a entry, m.entries a = some entry → { m with files := files }.inode entry = m.inode entry) :
      Built { m with files := files }

theorem Built.holds {m : TableMemory} (built : Built m) : ∃ table, Holds m table ∧ m.Distinct := by
  induction built with
  | init run =>
    obtain ⟨holds, empty⟩ := initFileTable_spec run
    refine ⟨[], holds, fun a entry held => ?_⟩
    rw [empty] at held
    cases held
  | add before malloc run distinct ih =>
    obtain ⟨table, holds, -⟩ := ih
    rcases addToFileTable_spec holds malloc run with ⟨-, rfl⟩ | ⟨-, longer, -⟩
    · exact ⟨table, holds, distinct⟩
    · exact ⟨_, longer, distinct⟩
  | remove before run ih =>
    obtain ⟨table, holds, distinct⟩ := ih
    rcases removeFromFileTable_spec holds distinct run with ⟨-, -, rfl⟩ | ⟨front, a, entry, file, back, g, removal⟩
    · exact ⟨table, holds, distinct⟩
    · obtain ⟨-, rfl, -, pointer, -, rfl, linked⟩ := removal
      exact ⟨front ++ back, holds.released distinct pointer linked⟩
  | others files before kept ih =>
    obtain ⟨table, holds, distinct⟩ := ih
    refine ⟨table, ⟨holds.linked, holds.entries⟩, fun a entry held => ?_⟩
    rw [kept a entry held]
    refine ⟨(distinct a entry held).1, fun b other held' same => ?_⟩
    rw [kept b other held'] at same
    exact (distinct a entry held).2 b other held' same

theorem Holds.files_nodup {m : TableMemory} {table : List (Nat × TableEntry)} (holds : Holds m table)
    (distinct : m.Distinct) : (table.filterMap fun r => r.2.f).Nodup := by
  have rows : table.Nodup := by
    have nodup := (List.nodup_append.mp (List.nodup_cons.mp holds.linked.nodup).2).1
    exact List.Nodup.of_map _ nodup
  refine List.pairwise_filterMap.mpr (rows.pairwise_of_forall_ne ?_)
  rintro ⟨a, entry⟩ member ⟨b, other⟩ member' different file pointer file' pointer' rfl
  have held := (holds.entries a entry).mpr member
  have held' := (holds.entries b other).mpr member'
  obtain rfl : b = a := (distinct a entry held).2 b other held' (by
    rw [inode, inode, show other.f = some file from pointer', show entry.f = some file from pointer])
  exact different (by rw [Option.some_inj.mp (held.symm.trans held')])

/-- From every table that is built, `free_file_table` comes to an end. It has then closed each file of the table once, and
leaves the table empty and well linked. -/
theorem freeFileTable_closes {m : TableMemory} (built : Built m) :
    ∃ fuel t closed, m.freeFileTable fuel = some t ∧ t.closed = m.closed ++ closed ∧ closed.Nodup ∧
      (∀ file, file ∈ closed ↔ ∃ a entry, m.entries a = some entry ∧ entry.f = some file) ∧
      Linked t.heap fileTable [] ∧ ∀ a, t.entries a = none := by
  obtain ⟨table, holds, distinct⟩ := built.holds
  obtain ⟨t, run, closed, empty⟩ := freeFileTable_spec holds distinct (Nat.lt_succ_self table.length)
  refine ⟨table.length + 1, t, _, run, closed, holds.files_nodup distinct, fun file => ?_, empty.linked, fun a => ?_⟩
  · rw [List.mem_filterMap]
    constructor
    · rintro ⟨⟨a, entry⟩, member, pointer⟩
      exact ⟨a, entry, (holds.entries a entry).mpr member, pointer⟩
    · rintro ⟨a, entry, held, pointer⟩
      exact ⟨(a, entry), (holds.entries a entry).mp held, pointer⟩
  · cases held : t.entries a with
    | none => rfl
    | some entry => cases (empty.entries a entry).mp held

theorem Distinct.insert {m t : TableMemory} {address : Nat} {new : TableEntry} (distinct : m.Distinct)
    (entries : t.entries = Function.update m.entries address (some new)) (files : t.files = m.files)
    (opened : (m.inode new).isSome) (other : ∀ a entry, m.entries a = some entry → m.inode entry ≠ m.inode new) :
    t.Distinct := by
  have inodes : ∀ entry, t.inode entry = m.inode entry := fun entry => by rw [inode, inode, files]
  have cases' : ∀ a entry, t.entries a = some entry → a = address ∧ entry = new ∨ a ≠ address ∧ m.entries a = some entry := by
    intro a entry held
    rw [entries] at held
    by_cases here : a = address
    · rw [here, Function.update_self] at held
      exact Or.inl ⟨here, (Option.some_inj.mp held).symm⟩
    · rw [Function.update_of_ne here] at held
      exact Or.inr ⟨here, held⟩
  intro a entry held
  rw [inodes]
  rcases cases' a entry held with ⟨rfl, rfl⟩ | ⟨-, before⟩
  · refine ⟨opened, fun b entry' held' same => ?_⟩
    rcases cases' b entry' held' with ⟨rfl, -⟩ | ⟨-, before'⟩
    · rfl
    · exact absurd ((inodes entry').symm.trans same) (other b entry' before')
  · refine ⟨(distinct a entry before).1, fun b entry' held' same => ?_⟩
    rw [inodes] at same
    rcases cases' b entry' held' with ⟨-, rfl⟩ | ⟨-, before'⟩
    · exact absurd same.symm (other a entry before)
    · exact (distinct a entry before).2 b entry' before' same

def openTwo : Option TableMemory := do
  let files : Nat → Option File := fun file => if file < 2 then some ⟨BitVec.ofNat 32 file, 0, false⟩ else none
  let m ← (start files).initFileTable
  let m ← m.addToFileTable 1 5 ⟨none, none⟩ (some 0) [97]
  m.addToFileTable 2 9 ⟨none, none⟩ (some 1) [98]

theorem freeFileTable_closes_two : ∃ m, openTwo = some m ∧ Built m ∧
    m.entries 5 = some ⟨[97], some 0⟩ ∧ m.entries 9 = some ⟨[98], some 1⟩ ∧
    ∃ fuel t closed, m.freeFileTable fuel = some t ∧ t.closed = m.closed ++ closed ∧ closed.Nodup ∧
      (∀ file, file ∈ closed ↔ ∃ a entry, m.entries a = some entry ∧ entry.f = some file) ∧
      Linked t.heap fileTable [] ∧ ∀ a, t.entries a = none := by
  have first : ∃ m, (start fun file => if file < 2 then some ⟨BitVec.ofNat 32 file, 0, false⟩ else none).initFileTable =
      some m := ⟨_, rfl⟩
  obtain ⟨m, init⟩ := first
  have second : ∃ t, m.addToFileTable 1 5 ⟨none, none⟩ (some 0) [97] = some t := by
    obtain rfl := Option.some_inj.mp init
    exact ⟨_, rfl⟩
  obtain ⟨t, add⟩ := second
  have third : ∃ u, t.addToFileTable 2 9 ⟨none, none⟩ (some 1) [98] = some u := by
    obtain rfl := Option.some_inj.mp init
    obtain rfl := Option.some_inj.mp add
    exact ⟨_, rfl⟩
  obtain ⟨u, add'⟩ := third
  have empty : m.entries = fun _ => none := (initFileTable_spec init).2
  have built : Built m := .init init
  have distinct : m.Distinct := fun a entry held => by
    rw [empty] at held
    cases held
  have entries : t.entries = Function.update m.entries 5 (some ⟨[97], some 0⟩) ∧ t.files = m.files := by
    obtain rfl := Option.some_inj.mp init
    obtain rfl := Option.some_inj.mp add
    exact ⟨rfl, rfl⟩
  have entries' : u.entries = Function.update t.entries 9 (some ⟨[98], some 1⟩) ∧ u.files = t.files := by
    obtain rfl := Option.some_inj.mp init
    obtain rfl := Option.some_inj.mp add
    obtain rfl := Option.some_inj.mp add'
    exact ⟨rfl, rfl⟩
  have files : ∀ file < 2, m.files file = some ⟨BitVec.ofNat 32 file, 0, false⟩ := by
    obtain rfl := Option.some_inj.mp init
    intro file small
    exact if_pos small
  have distinct' : t.Distinct := distinct.insert entries.1 entries.2 (by simp [inode, files 0]) fun a entry held => by
    rw [empty] at held
    cases held
  have fresh : t.entries 9 = none := by
    rw [entries.1, Function.update_of_ne (by decide), empty]
  have distinct'' : u.Distinct := by
    refine distinct'.insert entries'.1 entries'.2 (by simp [inode, entries.2, files 1]) fun a entry held => ?_
    rw [entries.1, empty] at held
    by_cases here : a = 5
    · rw [here, Function.update_self] at held
      obtain rfl := Option.some_inj.mp held
      simp [inode, entries.2, files 0, files 1]
    · rw [Function.update_of_ne here] at held
      cases held
  have built'' : Built u := .add (.add built (by rw [empty]) add distinct') fresh add' distinct''
  refine ⟨u, ?_, built'', ?_, ?_, freeFileTable_closes built''⟩
  · simp only [openTwo, init, Option.bind_eq_bind, Option.bind_some, add, add']
  · rw [entries'.1, Function.update_of_ne (by decide), entries.1, Function.update_self]
  · rw [entries'.1, Function.update_self]

end TableMemory

end ShellOs.FileSystem
