import ShellOs.FileSystem.FindFile
import ShellOs.FileSystem.CopyIn

/-! The file commands of the shell keep the volume and the table of open files well formed. -/

namespace ShellOs.FileSystem
open Lib SlotMap

/-- A file name as the commands are meant to take it: in the root directory, and not that directory itself. -/
structure Flat (name : CString) : Prop where
  nonempty : name ≠ []
  flat : slash ∉ name
  proper : (0 : Byte) ∉ name
  single : name ≠ dot
  double : name ≠ dotDot

theorem FileName.toFlat {name : CString} (named : FileName name) : Flat name where
  nonempty := List.ne_nil_of_length_pos named.ok.1
  flat := named.flat
  proper := named.proper
  single := named.single
  double := named.double

theorem Flat.split {name : CString} (flat : Flat name) : splitPathFilename name = ([], name) :=
  splitPathFilename_name flat.nonempty flat.flat

theorem Flat.plain {name : CString} (flat : Flat name) : Plain (splitPathFilename name).2 := by
  rw [flat.split]
  exact ⟨flat.nonempty, flat.single, flat.double⟩

section table

variable {s : FlatFs} {name : CString} {f : File}

theorem mem_setFile {entry : FileTableEntry} (member : entry ∈ (setFile s name f).fileTable) :
    entry ∈ s.fileTable ∨ entry = ⟨name, f⟩ := by
  obtain ⟨old, before, rfl⟩ := List.mem_map.mp member
  split
  next here => exact Or.inr (by rw [here])
  next => exact Or.inl before

theorem setFile_names (s : FlatFs) (name : CString) (f : File) :
    (setFile s name f).fileTable.map FileTableEntry.fname = s.fileTable.map FileTableEntry.fname := by
  rw [setFile, List.map_map]
  apply List.map_congr_left
  intro entry _
  rw [Function.comp]
  split <;> rfl

end table

structure ShellOk (s : FlatFs) : Prop where
  volume : ∃ n, Volume s n
  shut : Shut s
  named : ∀ name ∈ keys (rootSlots s), FileName name
  table : TableOk s
  listed : ∀ entry ∈ s.fileTable, entry.fname ∈ keys (rootSlots s)

namespace ShellOk

variable {s t : FlatFs} {name : CString} {f : File} {x : BlockSector}

theorem entry (ok : ShellOk s) {entry : FileTableEntry} (member : entry ∈ s.fileTable) :
    some (entry.fname, entry.f.inode) ∈ rootSlots s ∧ entry.f.denyWrite = false ∧
      (s.findInode entry.f.inode).isSome := by
  obtain ⟨x, bound⟩ := mem_keys.mp (ok.listed _ member)
  obtain ⟨here, writable, held⟩ := ok.table.held _ member x bound
  rw [here]
  exact ⟨bound, writable, held⟩

theorem of_files {n : Nat} (vol : Volume s n) (shut : Shut s) (named : ∀ name ∈ keys (rootSlots s), FileName name)
    (names : (s.fileTable.map FileTableEntry.fname).Nodup)
    (files : ∀ entry ∈ s.fileTable, some (entry.fname, entry.f.inode) ∈ rootSlots s ∧ entry.f.denyWrite = false ∧
      (s.findInode entry.f.inode).isSome) : ShellOk s := by
  refine ⟨⟨n, vol⟩, shut, named, ⟨names, fun entry member x bound => ?_⟩, fun entry member => ?_⟩
  · obtain ⟨here, writable, held⟩ := files entry member
    have same := vol.bound here bound
    exact ⟨same, writable, same ▸ held⟩
  · exact mem_keys.mpr ⟨_, (files entry member).1⟩

theorem retabled (ok : ShellOk s) {entries : List FileTableEntry} (names : (entries.map FileTableEntry.fname).Nodup)
    (files : ∀ entry ∈ entries, some (entry.fname, entry.f.inode) ∈ rootSlots s ∧ entry.f.denyWrite = false ∧
      (s.findInode entry.f.inode).isSome) : ShellOk { s with fileTable := entries } := by
  obtain ⟨n, vol⟩ := ok.volume
  obtain ⟨volume, slots, -⟩ := vol.tabled entries
  exact of_files volume ok.shut (by rw [slots]; exact ok.named) names (by rw [slots]; exact files)

theorem file (ok : ShellOk s) (found : getFileByFname s name = some f) :
    some (name, f.inode) ∈ rootSlots s ∧ f.denyWrite = false ∧ (s.findInode f.inode).isSome :=
  ok.entry (getFileByFname_mem found)

theorem setFile (ok : ShellOk s) (found : getFileByFname s name = some f) (pos : Int) :
    ShellOk (setFile s name (fileSeek f pos)) := by
  have here := ok.file found
  have names : ((FileSystem.setFile s name (fileSeek f pos)).fileTable.map FileTableEntry.fname).Nodup := by
    rw [setFile_names]
    exact ok.table.names
  apply ok.retabled names
  intro entry member
  rcases mem_setFile member with before | rfl
  · exact ok.entry before
  · exact here

theorem inode (ok : ShellOk s) (found : getFileByFname s name = some f) :
    OpenInode s f.inode ∧ s.inodeDenyWriteCnt f.inode = 0 ∧ f.inode ∈ rootFiles s := by
  obtain ⟨bound, -, held⟩ := ok.file found
  obtain ⟨n, vol⟩ := ok.volume
  have listed := mem_rootFiles.mpr ⟨_, bound⟩
  exact ⟨⟨vol.mounted.dir.fine, (vol.file _ listed).1, held, vol.foreign (List.mem_cons_of_mem _ listed),
    vol.mounted.handle.nodup⟩, vol.writable listed held, listed⟩

theorem use (ok : ShellOk s) (found : getFileByFname s name = some f) : s.use f.inode = s :=
  Fs.use_open (ok.inode found).1.listed

theorem wrote (ok : ShellOk s) (listed : x ∈ rootFiles s) {buffer : Nat → Byte} {k o : Nat} {r : Int × FlatFs}
    {new : List BlockSector} (effect : WriteEffect s x buffer k o r new) : ShellOk r.2 := by
  obtain ⟨n, vol⟩ := ok.volume
  obtain ⟨volume, slots, -⟩ := vol.writes listed effect
  have table : r.2.fileTable = s.fileTable := (congrArg Fs.fileTable effect.took.rest :)
  have cwd : r.2.cwd = s.cwd := (congrArg Fs.cwd effect.took.rest :)
  have root := effect.handles.others _ (vol.ne_root listed).symm
  apply of_files volume ⟨cwd.trans ok.shut.1, root.trans ok.shut.2⟩
  · rw [slots]
    exact ok.named
  · rw [table]
    exact ok.table.names
  · intro entry member
    rw [slots, effect.handles.listed]
    exact ok.entry (by rw [← table]; exact member)

theorem opened (ok : ShellOk s) (listed : x ∈ rootFiles s) (opened : FileOpened s t x) : ShellOk t := by
  obtain ⟨n, vol⟩ := ok.volume
  obtain ⟨volume, slots, -⟩ := vol.opens listed opened
  exact ⟨⟨n, volume⟩, opened.shut ok.shut, by rw [slots]; exact ok.named, ok.table.opened vol opened slots,
    by rw [slots, opened.fileTable]; exact ok.listed⟩

theorem added (ok : ShellOk s) (absent : getFileByFname s name = none) (bound : some (name, x) ∈ rootSlots s)
    (held : (s.findInode x).isSome) : ShellOk (addToFileTable s (fileOpen x) name) := by
  have run : addToFileTable s (fileOpen x) name = { s with fileTable := s.fileTable ++ [⟨name, fileOpen x⟩] } := by
    rw [addToFileTable, absent, Option.isSome_none, if_neg Bool.false_ne_true]
  rw [run]
  apply ok.retabled
  · rw [List.map_append, List.map_singleton, List.nodup_append_comm]
    refine List.nodup_cons.mpr ⟨fun member => ?_, ok.table.names⟩
    obtain ⟨entry, held, here⟩ := List.mem_map.mp member
    exact getFileByFname_none.mp absent entry held here
  · intro entry member
    rcases List.mem_append.mp member with before | new
    · exact ok.entry before
    · rw [List.mem_singleton] at new
      rw [new]
      exact ⟨bound, rfl, held⟩

theorem created (ok : ShellOk s) {path : CString} (proper : (0 : Byte) ∉ path)
    (single : (splitPathFilename path).2 ≠ dot) (double : (splitPathFilename path).2 ≠ dotDot) (size : Int) :
    ShellOk (filesysCreate s path size false).2 ∧ (filesysCreate s path size false).2.fileTable = s.fileTable := by
  obtain ⟨n, vol⟩ := ok.volume
  obtain ⟨new, creation⟩ := filesysCreate_effect vol.mounted path size
  have properName : (0 : Byte) ∉ (splitPathFilename path).2 := fun inside => proper (mem_of_fileName inside)
  obtain ⟨⟨m, volume⟩, -, newFile, same⟩ := vol.creates creation properName
  have nameOk : (filesysCreate s path size false).1 = true → NameOk (splitPathFilename path).2 :=
    fun made => (creation.done.mp made).2.1
  have table := creation.fileTable
  have shut := creation.shut ok.shut
  have others := creation.others
  generalize filesysCreate s path size false = r at *
  have slots : ∃ new, (r.1 = false → new = []) ∧ (∀ b ∈ new, b.1 = (splitPathFilename path).2) ∧
      (bindings (rootSlots r.2)).Perm (new ++ bindings (rootSlots s)) := by
    cases made : r.1 with
    | false => exact ⟨[], fun _ => rfl, by simp, by rw [same made]; exact .refl _⟩
    | true =>
      obtain ⟨x, file⟩ := newFile made
      refine ⟨[((splitPathFilename path).2, x)], by simp, by simp, ?_⟩
      rw [file.slots]
      exact put_perm _ _
  obtain ⟨more, none, mine, perm⟩ := slots
  refine ⟨of_files volume shut (fun key present => ?_) (by rw [table]; exact ok.table.names) fun entry member => ?_, table⟩
  · obtain ⟨y, bound⟩ := mem_keys.mp present
    rcases List.mem_append.mp (perm.subset (mem_bindings.mpr bound)) with fresh | old
    · have made : r.1 = true := by
        by_contra failed
        rw [none (by simpa using failed)] at fresh
        cases fresh
      obtain rfl : key = (splitPathFilename path).2 := mine _ fresh
      exact ⟨nameOk made, slash_notMem_filename path, properName, single, double⟩
    · exact ok.named key (mem_keys.mpr ⟨y, mem_bindings.mp old⟩)
  · rw [table] at member
    obtain ⟨bound, writable, held⟩ := ok.entry member
    refine ⟨mem_bindings.mp (perm.symm.subset (List.mem_append_right _ (mem_bindings.mpr bound))), writable, ?_⟩
    rw [others _ (vol.ne_root (mem_rootFiles.mpr ⟨_, bound⟩))]
    exact held

end ShellOk

/-- The file that a command works on: the open one, or else the listed one, from its start. -/
def target (s : FlatFs) (name : CString) : Option File :=
  match getFileByFname s name with
  | some f => some f
  | none => (find (rootSlots s) name).map fileOpen

theorem FileOpened.canWrite {s t : FlatFs} {x : BlockSector} (opened : FileOpened s t x)
    (writable : t.inodeDenyWriteCnt x = 0) {fin : Nat} (can : CanWrite s x fin) : CanWrite t x fin := by
  obtain ⟨deny, room⟩ := can
  have needs := writeNeeds_congr (writable.trans deny.symm) opened.data
    (fun z _ => by rw [opened.rehandled.cache]) fin
  have length : fileLen t x = fileLen s x := by rw [fileLen, fileLen, Fs.inodeLength, Fs.inodeLength, opened.data]
  refine ⟨writable, ?_⟩
  rw [needs, length, opened.rehandled.bits]
  exact room

structure Reached (s t : FlatFs) (name : CString) : Prop where
  ok : ShellOk t
  found : ∀ f, target s name = some f → getFileByFname t name = some f
  can : ∀ f fin, target s name = some f → CanWrite s f.inode fin → CanWrite t f.inode fin
  entries : ∀ entry ∈ t.fileTable, entry ∈ s.fileTable ∨ entry.f.pos = 0

namespace ShellOk

variable {s t : FlatFs} {name : CString} {f : File} {x : BlockSector}

theorem looked (ok : ShellOk s) (only : RootClosed s t) (shut : Shut t) : ShellOk t := by
  obtain ⟨n, vol⟩ := ok.volume
  obtain ⟨volume, slots, -⟩ := vol.only only
  apply of_files volume shut
  · rw [slots]
    exact ok.named
  · rw [only.fileTable]
    exact ok.table.names
  · intro entry member
    rw [only.fileTable] at member
    obtain ⟨bound, writable, held⟩ := ok.entry member
    rw [slots, only.others _ (vol.ne_root (mem_rootFiles.mpr ⟨_, bound⟩))]
    exact ⟨bound, writable, held⟩

theorem openNamed_target (ok : ShellOk s) (flat : Flat name) :
    ∃ t, openNamed s name = (target s name, t) ∧ Reached s t name := by
  obtain ⟨n, vol⟩ := ok.volume
  cases found : getFileByFname s name with
  | some f =>
    have here : target s name = some f := by rw [target, found]
    refine ⟨s, by rw [openNamed_held found, here], ok, fun g same => ?_, fun g fin _ can => can, fun entry => Or.inl⟩
    rw [← same, here, found]
  | none =>
    have here : target s name = (find (rootSlots s) name).map fileOpen := by rw [target, found]
    cases bound : find (rootSlots s) name with
    | none =>
      rw [bound, Option.map_none] at here
      have absent : (splitPathFilename name).2 ∉ keys (rootSlots s) := by
        rw [flat.split]
        exact find_eq_none.mp bound
      have run := filesysOpen_nothing vol.mounted flat.plain absent
      have only := (filesysOpen_absent vol.mounted flat.plain absent).2
      rw [run] at only
      refine ⟨_, by rw [openNamed, found]; simp only [run, here], ok.looked only (dirClose_opened_shut vol.mounted ok.shut),
        by rw [here]; simp, by rw [here]; simp, fun entry member => Or.inl ?_⟩
      rw [← only.fileTable]
      exact member
    | some x =>
      rw [bound, Option.map_some] at here
      have slot := mem_bindings.mp (find_mem bound)
      have listed := mem_rootFiles.mpr ⟨_, slot⟩
      obtain ⟨u, opened, run⟩ := vol.openNamed_opens found flat.plain (by rw [flat.split]; exact slot)
      obtain ⟨volume, slots, -⟩ := vol.opens listed opened
      have absent : getFileByFname u name = none := by
        rw [getFileByFname, opened.fileTable]
        exact found
      have okU := (ok.opened listed opened).added absent (by rw [slots]; exact slot) opened.held
      have writable := volume.writable (x := x) (by rw [rootFiles, slots]; exact listed) opened.held
      have added : addToFileTable u (fileOpen x) name = { u with fileTable := u.fileTable ++ [⟨name, fileOpen x⟩] } := by
        rw [addToFileTable, absent, Option.isSome_none, if_neg Bool.false_ne_true]
      refine ⟨_, by rw [run, here], okU, fun f same => ?_, fun f fin same can => ?_, fun entry member => ?_⟩
      · rw [here] at same
        rw [← Option.some.inj same]
        exact getFileByFname_added absent
      · rw [here] at same
        obtain rfl := Option.some.inj same
        rw [added]
        exact opened.canWrite writable can
      · rw [added] at member
        rcases List.mem_append.mp member with before | new
        · exact Or.inl (by rw [← opened.fileTable]; exact before)
        · rw [List.mem_singleton] at new
          exact Or.inr (by rw [new]; rfl)

end ShellOk

end ShellOs.FileSystem
