import ShellOs.FileSystem.Desk
import ShellOs.FileSystem.Commands

/-! What of the file system is seen from the shell. -/

namespace ShellOs.FileSystem
open Lib SlotMap GrowArray

section replies

variable {σ : Type} [Store σ BlockSector Sector] [LawfulStore σ]

def ShellOp.reply (s : Fs σ) : ShellOp → Reply
  | ls => .names (some (fsutilLs s).1)
  | cat name => .dump (fsutilCat s name).1
  | rm name => .done (fsutilRm s name).1
  | create name bytes => .done (fsutilCreate s name bytes).1
  | write name words => .status ((writeCommand s (ascii "write" :: name :: words)).elim 0 Prod.fst)
  | findFile pattern => .names (FileSystem.findFile s pattern).1
  | read name bytes => .bytes (fsutilRead s name bytes).1
  | copyIn name host => .status (FileSystem.copyIn s name host).1
  | copyOut name creates => .copied (FileSystem.copyOut s name creates).1 (FileSystem.copyOut s name creates).2.1
  | size name => .status (fsutilSize s name).1
  | seek name offset => .status (fsutilSeek s name offset).1
  | freespace => .status (fsutilFreespace s)
  | fragmentationDegree fileName =>
    .counts (FileSystem.fragmentationDegree s fileName).1.1 (FileSystem.fragmentationDegree s fileName).1.2
  | defragment stale => .status (FileSystem.defragment s stale).1
  | recover flag => .recovered (FileSystem.recover s flag).1

theorem ShellOp.reply_flat (s : Fs σ) (op : ShellOp) : reply s.flat op = reply s op := by
  cases op with
  | ls => rw [reply, reply, ← fsutilLs_flat, flatten_fst]
  | cat name => rw [reply, reply, ← fsutilCat_flat, flatten_fst]
  | rm name => rw [reply, reply, ← fsutilRm_flat, flatten_fst]
  | create name size => rw [reply, reply, ← fsutilCreate_flat, flatten_fst]
  | write name words =>
    rw [reply, reply, ← writeCommand_flat]
    cases writeCommand s (ascii "write" :: name :: words) <;> rfl
  | findFile pattern => rw [reply, reply, ← findFile_flat, flatten_fst]
  | read name size => rw [reply, reply, ← fsutilRead_flat, flatten_fst]
  | copyIn name host => rw [reply, reply, ← copyIn_flat, flatten_fst]
  | copyOut name creates => rw [reply, reply, copyOut_flat]
  | size name => rw [reply, reply, ← fsutilSize_flat, flatten_fst]
  | seek name offset => rw [reply, reply, ← fsutilSeek_flat, flatten_fst]
  | freespace => rfl
  | fragmentationDegree fileName => rw [reply, reply, ← fragmentationDegree_flat, flatten_fst]
  | defragment stale => rw [reply, reply, ← defragment_flat, flatten_fst]
  | recover flag => rw [reply, reply, ← recover_flat, flatten_fst]

/-- A command as its user meets it: it answers, and leaves another file system. -/
def ShellOp.run (s : Fs σ) (op : ShellOp) : Reply × Fs σ := (reply s op, step s op)

end replies

/-- The files that the root directory lists, and where those in the table of open files stand. -/
def desk (s : FlatFs) : Desk := fun name =>
  (find (rootSlots s) name).map fun x => ⟨contents s x, (getFileByFname s name).map File.pos⟩

namespace Desk

variable {d : Desk} {name : CString} {f : Document} {command : Document → Document}

theorem work_absent (absent : d name = none) : d.work name command = d := by
  rw [work, absent, Option.map_none, ← absent, Function.update_eq_self]

theorem work_here (here : d name = some f) : d.work name command = Function.update d name (some (command f)) := by
  rw [work, here, Option.map_some]

theorem work_congr (command other : Document → Document) (here : d name = some f) (same : command f = other f) :
    d.work name command = d.work name other := by
  rw [work_here here, work_here here, same]

theorem work_same (same : ∀ f, d name = some f → command f = f) : d.work name command = d := by
  cases here : d name with
  | none => exact work_absent here
  | some f => rw [work_here here, same f here, ← here, Function.update_eq_self]

end Desk

section view

variable {s t u : FlatFs} {n : Nat} {name other : CString} {x : BlockSector} {f : File}

theorem desk_eq_none : desk s name = none ↔ name ∉ keys (rootSlots s) := by
  rw [desk, Option.map_eq_none_iff, find_eq_none]

theorem desk_isSome : (desk s name).isSome ↔ name ∈ keys (rootSlots s) := by
  rw [Option.isSome_iff_ne_none, ne_eq, desk_eq_none, not_not]

theorem desk_bound (vol : Volume s n) (bound : some (name, x) ∈ rootSlots s) :
    desk s name = some ⟨contents s x, (getFileByFname s name).map File.pos⟩ := by
  rw [desk, (find_eq_some vol.names).mpr (mem_bindings.mpr bound), Option.map_some]

theorem desk_place {d : Document} (here : desk s name = some d) : d.place = (getFileByFname s name).map File.pos := by
  obtain ⟨x, -, rfl⟩ := Option.map_eq_some_iff.mp here
  rfl

theorem desk_same (slot : find (rootSlots t) name = find (rootSlots s) name)
    (bytes : ∀ x, some (name, x) ∈ rootSlots s → contents t x = contents s x)
    (entry : (getFileByFname t name).map File.pos = (getFileByFname s name).map File.pos) :
    desk t name = desk s name := by
  rw [desk, desk, slot, entry]
  apply Option.map_congr
  intro x found
  rw [bytes x (mem_bindings.mp (find_mem found))]

theorem desk_congr (slots : rootSlots t = rootSlots s) (bytes : ∀ x ∈ rootFiles s, contents t x = contents s x)
    (table : t.fileTable = s.fileTable) : desk t = desk s := by
  funext name
  apply desk_same
  · rw [slots]
  · exact fun x bound => bytes x (mem_rootFiles.mpr ⟨name, bound⟩)
  · rw [getFileByFname, getFileByFname, table]

theorem RootClosed.desk (vol : Volume s n) (only : RootClosed s t) : desk t = desk s := by
  obtain ⟨-, slots, others⟩ := vol.only only
  exact desk_congr slots (fun x listed => (others x listed).2.1) only.fileTable

structure OnlyAt (s t : FlatFs) (name : CString) : Prop where
  slots : rootSlots t = rootSlots s
  bytes : ∀ other x, other ≠ name → some (other, x) ∈ rootSlots s → contents t x = contents s x
  table : ∀ other, other ≠ name → getFileByFname t other = getFileByFname s other

namespace OnlyAt

theorem refl (s : FlatFs) (name : CString) : OnlyAt s s name :=
  ⟨rfl, fun _ _ _ _ => rfl, fun _ _ => rfl⟩

theorem trans (early : OnlyAt s t name) (late : OnlyAt t u name) : OnlyAt s u name where
  slots := late.slots.trans early.slots
  bytes other x away bound :=
    (late.bytes other x away (by rw [early.slots]; exact bound)).trans (early.bytes other x away bound)
  table other away := (late.table other away).trans (early.table other away)

theorem of_files (slots : rootSlots t = rootSlots s) (bytes : ∀ y ∈ rootFiles s, contents t y = contents s y)
    (table : ∀ other, other ≠ name → getFileByFname t other = getFileByFname s other) : OnlyAt s t name :=
  ⟨slots, fun other y _ bound => bytes y (mem_rootFiles.mpr ⟨other, bound⟩), table⟩

theorem desk_other (only : OnlyAt s t name) (away : other ≠ name) : desk t other = desk s other := by
  apply desk_same
  · rw [only.slots]
  · exact fun x => only.bytes other x away
  · rw [only.table other away]

theorem desk_update (only : OnlyAt s t name) : desk t = Function.update (desk s) name (desk t name) := by
  funext other
  by_cases here : other = name
  · rw [here, Function.update_self]
  · rw [Function.update_of_ne here, only.desk_other here]

theorem desk_eq (only : OnlyAt s t name) (same : desk t name = desk s name) : desk t = desk s := by
  rw [only.desk_update, same, Function.update_eq_self]

end OnlyAt

theorem getFileByFname_other (away : other ≠ name) : getFileByFname (setFile s name f) other = getFileByFname s other := by
  have keys : ((fun e : FileTableEntry => e.fname == other) ∘ fun e => if e.fname = name then { e with f := f } else e) =
      fun e => e.fname == other := by
    funext e
    rw [Function.comp]
    split <;> rfl
  rw [getFileByFname, getFileByFname, setFile, List.find?_map, keys, Option.map_map]
  apply Option.map_congr
  intro e found
  have named : e.fname = other := by simpa using List.find?_some found
  rw [Function.comp, if_neg (by rw [named]; exact away)]

theorem OnlyAt.setFile (vol : Volume s n) (name : CString) (f : File) : OnlyAt s (setFile s name f) name := by
  obtain ⟨-, slots, others⟩ := vol.tabled (FileSystem.setFile s name f).fileTable
  exact .of_files slots (fun y listed => (others y listed).2.1) fun other => getFileByFname_other

theorem OnlyAt.write (vol : Volume s n) (bound : some (name, x) ∈ rootSlots s) {buffer : Nat → Byte} {k o : Nat}
    {r : Int × FlatFs} {new : List BlockSector} (effect : WriteEffect s x buffer k o r new) : OnlyAt s r.2 name := by
  obtain ⟨-, slots, others⟩ := vol.writes (mem_rootFiles.mpr ⟨_, bound⟩) effect
  have table : r.2.fileTable = s.fileTable := (congrArg Fs.fileTable effect.took.rest :)
  refine ⟨slots, fun other y away theirs => (others y (mem_rootFiles.mpr ⟨_, theirs⟩) ?_).2.1, fun other _ => ?_⟩
  · rintro rfl
    exact away (vol.nameOf bound theirs)
  · rw [getFileByFname, getFileByFname, table]

theorem ReadOut.onlyAt {c : FlatFs} (out : ReadOut s c n name x) : OnlyAt s c name ∧ getFileByFname c name = none := by
  have table : ∀ other, getFileByFname c other = if other ∈ [name] then none else getFileByFname s other := by
    intro other
    rw [getFileByFname, out.fileTable, getFileByFname_without]
  constructor
  · apply OnlyAt.of_files out.slots (fun y listed => (out.others y listed).2.1)
    intro other away
    rw [table, if_neg (by simpa using away)]
  · rw [table, if_pos (by simp)]

end view

end ShellOs.FileSystem
