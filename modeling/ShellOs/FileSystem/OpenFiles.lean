import ShellOs.FileSystem.TransparentCommands
import ShellOs.FileSystem.Session
import ShellOs.FileSystem.SplitPath

/-! The table of open files over a well-formed volume: what a command finds under a name. -/

namespace ShellOs.FileSystem
open Lib SlotMap

structure FileName (name : CString) : Prop where
  ok : NameOk name
  flat : slash ∉ name
  proper : (0 : Byte) ∉ name
  single : name ≠ dot
  double : name ≠ dotDot

theorem FileName.nonempty {name : CString} (named : FileName name) : name ≠ [] := by
  intro empty
  have := named.ok.1
  rw [empty] at this
  exact absurd this (lt_irrefl 0)

theorem FileName.split {name : CString} (named : FileName name) : splitPathFilename name = ([], name) :=
  splitPathFilename_name named.nonempty named.flat

theorem FileName.plain {name : CString} (named : FileName name) : Plain (splitPathFilename name).2 := by
  rw [named.split]
  exact ⟨named.nonempty, named.single, named.double⟩

section table

variable {s : FlatFs} {name other : CString} {file : File}

theorem getFileByFname_added (absent : getFileByFname s name = none) :
    getFileByFname (addToFileTable s file name) name = some file := by
  have missing : s.fileTable.find? (fun entry => entry.fname == name) = none := by
    rwa [getFileByFname, Option.map_eq_none_iff] at absent
  rw [addToFileTable, absent, Option.isSome_none, if_neg Bool.false_ne_true, getFileByFname, List.find?_append, missing]
  simp

theorem getFileByFname_setFile (present : (getFileByFname s name).isSome) :
    getFileByFname (setFile s name file) name = some file := by
  obtain ⟨old, found⟩ := Option.isSome_iff_exists.mp present
  obtain ⟨entry, held, -⟩ := Option.map_eq_some_iff.mp found
  have named : entry.fname = name := by simpa using List.find?_some held
  have keys : ((fun e : FileTableEntry => e.fname == name) ∘ fun e => if e.fname = name then { e with f := file } else e) =
      fun e => e.fname == name := by
    funext e
    simp only [Function.comp]
    split <;> rfl
  rw [getFileByFname, setFile, List.find?_map, keys, held, Option.map_some, Option.map_some, if_pos named]

theorem getFileByFname_mem (found : getFileByFname s name = some file) : ⟨name, file⟩ ∈ s.fileTable := by
  obtain ⟨entry, held, rfl⟩ := Option.map_eq_some_iff.mp found
  have named : entry.fname = name := by simpa using List.find?_some held
  rw [← named]
  exact List.mem_of_find?_eq_some held

theorem openNamed_held (found : getFileByFname s name = some file) : openNamed s name = (some file, s) := by
  rw [openNamed, found]

end table

namespace Volume

variable {s t : FlatFs} {n : Nat} {x : BlockSector} {name : CString}

theorem tabled (vol : Volume s n) (entries : List FileTableEntry) : Volume { s with fileTable := entries } n ∧
    rootSlots { s with fileTable := entries } = rootSlots s ∧
    ∀ y ∈ rootFiles s, Untouched s { s with fileTable := entries } y := by
  have same : Rehandled s { s with fileTable := entries } :=
    ⟨rfl, fun _ => Or.inl rfl, fun _ => Or.inl rfl, fun _ _ => rfl⟩
  have mounted := vol.mounted.rehandled same (vol.mounted.handle.congr vol.mounted.handle.nodup rfl rfl)
    fun z _ held => vol.mounted.listed z held
  exact vol.rehandled same mounted vol.single

theorem writable (vol : Volume s n) (listed : x ∈ rootFiles s) (held : (s.findInode x).isSome) :
    s.inodeDenyWriteCnt x = 0 := by
  obtain ⟨i, found⟩ := Option.isSome_iff_exists.mp held
  obtain ⟨-, -, -, deny⟩ := vol.single x i found (vol.file x listed).1.nonzero (vol.ne_root listed)
  rw [Fs.inodeDenyWriteCnt, found]
  exact deny

theorem openable (vol : Volume s n) (bound : some (name, x) ∈ rootSlots s) :
    x ≠ ROOT_DIR_SECTOR ∧ ∀ i, s.findInode x = some i → i.removed = false := by
  have listed := mem_rootFiles.mpr ⟨_, bound⟩
  refine ⟨vol.ne_root listed, fun i held => ?_⟩
  exact (vol.single x i held (vol.file x listed).1.nonzero (vol.ne_root listed)).2.2.1

theorem openNamed_opens (vol : Volume s n) (absent : getFileByFname s name = none)
    (plain : Plain (splitPathFilename name).2) (bound : some ((splitPathFilename name).2, x) ∈ rootSlots s) :
    ∃ u, FileOpened s u x ∧ openNamed s name = (some (fileOpen x), addToFileTable u (fileOpen x) name) := by
  obtain ⟨k, y, slot, value, opened⟩ := filesysOpen_effect vol.mounted plain (mem_keys.mpr ⟨x, bound⟩) fun y =>
    vol.openable
  obtain rfl := vol.bound bound (List.mem_of_getElem? slot)
  refine ⟨_, opened, ?_⟩
  rw [openNamed, absent]
  simp only [value]

/-- A file that has been opened by name: in the table, at its start, and otherwise as it was. -/
structure OpenedNamed (s t : FlatFs) (n : Nat) (name : CString) (x : BlockSector) : Prop where
  run : openNamed s name = (some (fileOpen x), t)
  volume : Volume t n
  rehandled : Rehandled s t
  slots : rootSlots t = rootSlots s
  others : ∀ y ∈ rootFiles s, Untouched s t y
  listed : x ∈ rootFiles t
  held : (t.findInode x).isSome
  table : getFileByFname t name = some (fileOpen x)
  entries : t.fileTable = s.fileTable ++ [⟨name, fileOpen x⟩]
  freed : t.usedFreed = s.usedFreed

theorem opensNamed (vol : Volume s n) (absent : getFileByFname s name = none)
    (plain : Plain (splitPathFilename name).2) (bound : some ((splitPathFilename name).2, x) ∈ rootSlots s) :
    ∃ t, OpenedNamed s t n name x := by
  obtain ⟨u, opened, run⟩ := vol.openNamed_opens absent plain bound
  have listed := mem_rootFiles.mpr ⟨_, bound⟩
  obtain ⟨volU, slotsU, othersU⟩ := vol.opens listed opened
  have absentU : getFileByFname u name = none := by rw [getFileByFname, opened.fileTable]; exact absent
  have entries : addToFileTable u (fileOpen x) name = { u with fileTable := s.fileTable ++ [⟨name, fileOpen x⟩] } := by
    rw [addToFileTable, absentU, Option.isSome_none, if_neg Bool.false_ne_true, opened.fileTable]
  have table : getFileByFname (addToFileTable u (fileOpen x) name) name = some (fileOpen x) :=
    getFileByFname_added absentU
  obtain ⟨volT, slotsT, othersT⟩ := volU.tabled (s.fileTable ++ [⟨name, fileOpen x⟩])
  have tabled : Rehandled u { u with fileTable := s.fileTable ++ [⟨name, fileOpen x⟩] } :=
    ⟨rfl, fun _ => Or.inl rfl, fun _ => Or.inl rfl, fun _ _ => rfl⟩
  rw [entries] at run table
  have held : (u.findInode x).isSome := by
    cases before : s.findInode x with
    | none =>
      obtain ⟨i, found, -⟩ := opened.fresh before
      rw [found]
      rfl
    | some i =>
      rw [opened.kept i before]
      rfl
  refine ⟨_, run, volT, opened.rehandled.trans tabled, slotsT.trans slotsU, fun y mine => ?_, ?_, held, table, rfl,
    opened.freed⟩
  · exact (othersU y mine).trans (othersT y (othersU y mine).1)
  · rw [rootFiles, slotsT, slotsU]
    exact listed

theorem fsutilWrite_opens (vol : Volume s n) (absent : getFileByFname s name = none)
    (plain : Plain (splitPathFilename name).2) (bound : some ((splitPathFilename name).2, x) ∈ rootSlots s) {k : Nat}
    (some : 0 < k) (small : k < 2 ^ 31) (buffer : Nat → Byte) : ∃ (t : FlatFs) (r : Int × FlatFs) (new : List BlockSector),
      OpenedNamed s t n name x ∧ WriteEffect t x (Function.update buffer (k - 1) 0) k 0 r new ∧
      fsutilWrite s name buffer k = (r.1, setFile r.2 name ⟨x, r.1 - 2, false⟩) := by
  obtain ⟨t, opened⟩ := vol.opensNamed absent plain bound
  have size : offsetOf (k : Int) = k := offsetOf_eq (by omega) (by omega)
  have file := (opened.volume.file x opened.listed).1
  obtain ⟨new, effect⟩ := inodeWriteAt_effect (o := 0) opened.volume.mounted.dir.fine file opened.held
    (opened.volume.foreign (List.mem_cons_of_mem _ opened.listed)) some (by omega) (Function.update buffer (k - 1) 0)
  refine ⟨t, _, new, opened, effect, ?_⟩
  have last : ((k : Int) - 1).toNat = k - 1 := by omega
  have ready : t.use x = t := Fs.use_open opened.held
  simp only [fsutilWrite, opened.run, fileWrite, fileOpen, ready, size, last, Int.zero_add, Nat.cast_zero]

end Volume

end ShellOs.FileSystem
