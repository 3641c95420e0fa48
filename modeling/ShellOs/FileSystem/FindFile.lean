import ShellOs.FileSystem.Scan
import ShellOs.FileSystem.FailedWrite

/-! `find_file` over a well-formed volume: every file that the scan reaches is closed behind it. -/

namespace ShellOs.FileSystem
open Lib SlotMap

/-- An open file of a listed name is the file of that name, once. -/
structure TableOk (s : FlatFs) : Prop where
  names : (s.fileTable.map FileTableEntry.fname).Nodup
  held : ∀ entry ∈ s.fileTable, ∀ x, some (entry.fname, x) ∈ rootSlots s →
    entry.f.inode = x ∧ entry.f.denyWrite = false ∧ (s.findInode x).isSome

section table

variable {s : FlatFs} {name : CString} {f : File}

theorem getFileByFname_none : getFileByFname s name = none ↔ ∀ entry ∈ s.fileTable, entry.fname ≠ name := by
  rw [getFileByFname, Option.map_eq_none_iff, List.find?_eq_none]
  simp

theorem setFile_same (names : (s.fileTable.map FileTableEntry.fname).Nodup) (found : getFileByFname s name = some f) :
    setFile s name f = s := by
  have held := getFileByFname_mem found
  have same : s.fileTable.map (fun entry => if entry.fname = name then { entry with f := f } else entry) =
      s.fileTable.map id := by
    apply List.map_congr_left
    intro entry member
    split
    next here =>
      have equal : entry = ⟨name, f⟩ := List.inj_on_of_nodup_map names member held here
      rw [equal]
      rfl
    next => rfl
  rw [setFile, same, List.map_id]

def without (s : FlatFs) (names : List CString) : List FileTableEntry :=
  s.fileTable.filter fun entry => entry.fname ∉ names

theorem eraseP_name {entries : List FileTableEntry} (names : (entries.map FileTableEntry.fname).Nodup) :
    entries.eraseP (fun entry => entry.fname == name) = entries.filter fun entry => entry.fname ∉ [name] := by
  induction entries with
  | nil => rfl
  | cons entry rest ih =>
    rw [List.map_cons, List.nodup_cons] at names
    by_cases here : entry.fname = name
    · rw [List.eraseP_cons_of_pos (by simpa using here), List.filter_cons_of_neg (by simpa using here)]
      symm
      apply List.filter_eq_self.mpr
      intro other member
      have : other.fname ≠ name := fun same => names.1 (by rw [here, ← same]; exact List.mem_map_of_mem member)
      simpa using this
    · rw [List.eraseP_cons_of_neg (by simpa using here), List.filter_cons_of_pos (by simpa using here), ih names.2]

end table

section cwd

variable {s t u : FlatFs} {dir : Dir}

theorem RootOpened.restores (opened : RootOpened s t dir) (handle : RootHandle u) (cwd : u.cwd = some dir) :
    (dirClose u dir).cwd = s.cwd := by
  rw [dirClose_root handle cwd, opened.before]
  split <;> rfl

theorem RootOpened.restoresQuiet (opened : RootOpened s t dir) (handle : RootHandle u) (cwd : u.cwd = some dir)
    (this : u.findInode ROOT_DIR_SECTOR = t.findInode ROOT_DIR_SECTOR) (quiet : Quiet s) : Quiet (dirClose u dir) := by
  have root : ∀ i, u.findInode ROOT_DIR_SECTOR = some i → i.openCnt = 1 := by
    rw [this]
    exact opened.root quiet
  constructor
  · rw [opened.restores handle cwd]
    exact quiet.1
  · rw [dirClose_root handle cwd]
    split
    next =>
      intro i found
      have gone := inodeClose_once handle.nodup fun i here => ⟨root i here, handle.kept i here⟩
      exact absurd (gone.symm.trans found) (by simp)
    next => exact root

theorem Volume.opensPath {n : Nat} {path : CString} {x : BlockSector} (vol : Volume s n)
    (plain : Plain (splitPathFilename path).2) (bound : some ((splitPathFilename path).2, x) ∈ rootSlots s) :
    (filesysOpen s path).1 = some (fileOpen x) ∧ FileOpened s (filesysOpen s path).2 x ∧
      (filesysOpen s path).2.cwd = s.cwd ∧ (Quiet s → Quiet (filesysOpen s path).2) := by
  have opened := dirOpenRoot_spec vol.mounted.handle
  obtain ⟨k, y, slot, away, run⟩ := filesysOpen_run vol.mounted plain (mem_keys.mpr ⟨x, bound⟩) fun y => vol.openable
  obtain rfl := vol.bound bound (List.mem_of_getElem? slot)
  have inner := inodeOpen_spec (dirOpenRoot s).2 x
  have handle := opened.handle.congr (inner.nodup opened.handle.nodup) (inner.others ROOT_DIR_SECTOR away.symm)
    (congrArg Fs.cwd inner.rest :)
  have cwd : (inodeOpen (dirOpenRoot s).2 x).2.cwd = some (dirOpenRoot s).1 := by
    rw [← opened.cwd]
    exact (congrArg Fs.cwd inner.rest :)
  rw [run]
  exact ⟨rfl, opened.openFile vol.mounted.dir.fine away vol.mounted.foreign, opened.restores handle cwd,
    opened.restoresQuiet handle cwd (inner.others _ away.symm)⟩

theorem FileName.listed {name : CString} {x : BlockSector} (named : FileName name) (bound : some (name, x) ∈ rootSlots s) :
    some ((splitPathFilename name).2, x) ∈ rootSlots s := by
  rw [named.split]
  exact bound

theorem Volume.opensListed {n : Nat} {name : CString} {x : BlockSector} (vol : Volume s n) (named : FileName name)
    (bound : some (name, x) ∈ rootSlots s) : (filesysOpen s name).1 = some (fileOpen x) ∧
      FileOpened s (filesysOpen s name).2 x ∧ (filesysOpen s name).2.cwd = s.cwd ∧
      (Quiet s → Quiet (filesysOpen s name).2) :=
  vol.opensPath named.plain (named.listed bound)

end cwd

section step

variable {s t u : FlatFs} {n : Nat} {name : CString} {x : BlockSector} {g : File}

/-- A file is in the table under its name, and the rest of the table is as it was. -/
structure Registered (s t : FlatFs) (name : CString) (x : BlockSector) (g : File) : Prop where
  rest : t = { s with fileTable := t.fileTable }
  table : getFileByFname t name = some g
  inode : g.inode = x
  writable : g.denyWrite = false
  names : (t.fileTable.map FileTableEntry.fname).Nodup
  others : without t [name] = without s [name]

theorem addToFileTable_registered (ok : TableOk s) (bound : some (name, x) ∈ rootSlots s) :
    ∃ g, Registered s (addToFileTable s (fileOpen x) name) name x g := by
  cases found : getFileByFname s name with
  | some g =>
    have same : addToFileTable s (fileOpen x) name = s := by
      rw [addToFileTable, found, Option.isSome_some, if_pos rfl]
    obtain ⟨inode, writable, -⟩ := ok.held _ (getFileByFname_mem found) x bound
    rw [same]
    exact ⟨g, rfl, found, inode, writable, ok.names, rfl⟩
  | none =>
    have added : addToFileTable s (fileOpen x) name = { s with fileTable := s.fileTable ++ [⟨name, fileOpen x⟩] } := by
      rw [addToFileTable, found, Option.isSome_none, if_neg Bool.false_ne_true]
    have table := @getFileByFname_added s name (fileOpen x) found
    rw [added] at table ⊢
    refine ⟨fileOpen x, rfl, table, rfl, rfl, ?_, ?_⟩
    · have fresh : name ∉ s.fileTable.map FileTableEntry.fname := by
        rintro member
        obtain ⟨entry, held, here⟩ := List.mem_map.mp member
        exact getFileByFname_none.mp found entry held here
      rw [List.map_append, List.map_singleton, List.nodup_append_comm]
      exact List.nodup_cons.mpr ⟨fresh, ok.names⟩
    · simp [without]

structure Visited (s t : FlatFs) (n : Nat) (names : List CString) : Prop where
  volume : Volume t n
  slots : rootSlots t = rootSlots s
  others : ∀ y ∈ rootFiles s, Volume.Untouched s t y
  fileTable : t.fileTable = without s names
  ok : TableOk t
  freed : t.usedFreed = s.usedFreed

theorem Volume.nameOf {other : CString} (vol : Volume s n) (bound : some (name, x) ∈ rootSlots s)
    (again : some (other, x) ∈ rootSlots s) : other = name := by
  have nodup : ((bindings (rootSlots s)).map Prod.snd).Nodup := (List.nodup_cons.mp vol.owners).2
  have same := List.inj_on_of_nodup_map nodup (mem_bindings.mpr again) (mem_bindings.mpr bound) rfl
  exact congrArg Prod.fst same

theorem FileOpened.held (opened : FileOpened s t x) : (t.findInode x).isSome := by
  cases before : s.findInode x with
  | none =>
    obtain ⟨i, found, -⟩ := opened.fresh before
    rw [found]
    rfl
  | some i =>
    rw [opened.kept i before]
    rfl

theorem TableOk.opened (ok : TableOk s) (vol : Volume s n) (opened : FileOpened s t x)
    (slots : rootSlots t = rootSlots s) : TableOk t := by
  refine ⟨by rw [opened.fileTable]; exact ok.names, fun entry member y bound => ?_⟩
  rw [slots] at bound
  rw [opened.fileTable] at member
  obtain ⟨inode, writable, held⟩ := ok.held entry member y bound
  refine ⟨inode, writable, ?_⟩
  by_cases same : y = x
  · rw [same]
    exact opened.held
  · rw [opened.others y same (vol.ne_root (mem_rootFiles.mpr ⟨_, bound⟩))]
    exact held

def matching (pattern : CString) (name : CString) (bytes : List Byte) (names : List CString) : List CString :=
  if pattern <:+: untilNul bytes then names ++ [name] else names

/-- What `find_file` prints of these files, after what it has printed. -/
def printed (pattern : CString) (s : FlatFs) (files : List (CString × BlockSector)) (names : List CString) :
    List CString :=
  files.foldl (fun names b => matching pattern b.1 (contents s b.2) names) names

theorem printed_congr {pattern : CString} {files : List (CString × BlockSector)} {names : List CString}
    (same : ∀ b ∈ files, contents t b.2 = contents s b.2) : printed pattern t files names = printed pattern s files names := by
  apply List.foldl_ext
  intro names b member
  rw [same b member]

theorem findFileStep_registered {o r : FlatFs} (opened : filesysOpen s name = (some (fileOpen x), o))
    (added : addToFileTable o (fileOpen x) name = r) (registered : Registered o r name x g)
    (held : (r.findInode x).isSome) (pattern : CString)
    (names : List CString) : findFileStep pattern (some names) s name =
      (some (matching pattern name (inodeReadAt r x (r.inodeLength x) 0).1 names), { fileClose r (fileOpen x) with
        fileTable := (fileClose r (fileOpen x)).fileTable.eraseP fun entry => entry.fname == name }) := by
  have back : setFile r name (fileSeek g g.pos) = r := setFile_same registered.names registered.table
  have read : ∀ size pos, (inodeReadAt r x size pos).2 = r := inodeReadAt_snd r x
  have close : fileClose r g = fileClose r (fileOpen x) := by
    rw [fileClose, fileClose, registered.writable, registered.inode]
    rfl
  have ready : r.use x = r := Fs.use_open held
  have size : fsutilSize r name = (r.inodeLength x, r) := by
    simp only [fsutilSize, openNamed_held registered.table, registered.inode, ready, back, fileLength]
  have removed : removeFromFileTable r name = (true, { fileClose r (fileOpen x) with
      fileTable := (fileClose r (fileOpen x)).fileTable.eraseP fun entry => entry.fname == name }) := by
    simp only [removeFromFileTable, registered.table, close]
  have scanned : fileRead r (fileSeek (fileOpen x) 0) (r.inodeLength x) =
      ((inodeReadAt r x (r.inodeLength x) 0).1, ⟨x, (inodeReadAt r x (r.inodeLength x) 0).1.length, false⟩, r) := by
    simp only [fileRead, fileSeek, fileOpen, ready, read, Int.zero_add]
  simp only [findFileStep, opened, added, size, scanned, removed]
  rfl

theorem findFileStep_visited (vol : Volume s n) (ok : TableOk s) (named : FileName name)
    (bound : some (name, x) ∈ rootSlots s) (pattern : CString) (names : List CString) : ∃ u,
      findFileStep pattern (some names) s name = (some (matching pattern name (contents s x) names), u) ∧
        Visited s u n [name] ∧ u.cwd = s.cwd ∧ (Quiet s → Quiet u) := by
  obtain ⟨value, opened, cwd, quiet⟩ := vol.opensListed named bound
  obtain ⟨o, run⟩ : ∃ o, filesysOpen s name = (some (fileOpen x), o) := ⟨_, Prod.ext value rfl⟩
  rw [run] at opened cwd quiet
  have listed := mem_rootFiles.mpr ⟨_, bound⟩
  obtain ⟨volO, slotsO, othersO⟩ := vol.opens listed opened
  have okO := ok.opened vol opened slotsO
  -- With the file in the table.
  obtain ⟨g, registered⟩ := addToFileTable_registered okO (by rw [slotsO]; exact bound)
  obtain ⟨volR, slotsR, othersR⟩ := volO.tabled (addToFileTable o (fileOpen x) name).fileTable
  rw [← registered.rest] at volR slotsR othersR
  obtain ⟨r, added⟩ : ∃ r, addToFileTable o (fileOpen x) name = r := ⟨_, rfl⟩
  rw [added] at registered volR slotsR othersR
  have listedR : x ∈ rootFiles r := by
    rw [rootFiles, slotsR, slotsO]
    exact listed
  have heldR : (r.findInode x).isSome := by
    rw [registered.rest]
    exact opened.held
  have closed := volR.fileClosed ⟨listedR, heldR⟩
  obtain ⟨volC, slotsC, othersC⟩ := volR.closes listedR closed
  have step := findFileStep_registered run added registered heldR pattern names
  have bytes : (inodeReadAt r x (r.inodeLength x) 0).1 = contents s x := by
    have kept := (othersO x listed).trans (othersR x (othersO x listed).1)
    have length : r.inodeLength x = fileLen r x := (volR.file x listedR).1.length
    rw [length, (volR.file x listedR).1.reads_all length, kept.2.1]
  rw [bytes] at step
  -- With its entry gone.
  have tableC : (fileClose r (fileOpen x)).fileTable = r.fileTable := (congrArg Fs.fileTable closed.rest :)
  have erased : ((fileClose r (fileOpen x)).fileTable.eraseP fun entry => entry.fname == name) = without s [name] := by
    rw [tableC, eraseP_name registered.names]
    exact registered.others.trans (by rw [without, without, opened.fileTable])
  rw [erased] at step
  obtain ⟨volU, slotsU, othersU⟩ := volC.tabled (without s [name])
  have slots := slotsU.trans (slotsC.trans (slotsR.trans slotsO))
  have cwdC : (fileClose r (fileOpen x)).cwd = o.cwd :=
    (congrArg Fs.cwd closed.rest :).trans (congrArg Fs.cwd registered.rest :)
  have rootC : (fileClose r (fileOpen x)).findInode ROOT_DIR_SECTOR = o.findInode ROOT_DIR_SECTOR := by
    rw [closed.others _ (vol.ne_root listed).symm, registered.rest]
    rfl
  have freed : (fileClose r (fileOpen x)).usedFreed = s.usedFreed :=
    (congrArg Fs.usedFreed closed.rest :).trans ((congrArg Fs.usedFreed registered.rest :).trans opened.freed)
  refine ⟨_, step, ⟨volU, slots, fun y mine => ?_, rfl, ?_, freed⟩, cwdC.trans cwd,
    fun before => (quiet before).congr rootC cwdC⟩
  · have early := (othersO y mine).trans (othersR y (othersO y mine).1)
    have late := (othersC y early.1).trans (othersU y (othersC y early.1).1)
    exact early.trans late
  · refine ⟨ok.names.sublist (List.filter_sublist.map _), fun entry member y here => ?_⟩
    rw [slots] at here
    obtain ⟨member, other⟩ := List.mem_filter.mp member
    obtain ⟨inode, writable, held⟩ := ok.held entry member y here
    have different : y ≠ x := by
      rintro rfl
      exact absurd (vol.nameOf bound here) (by simpa using other)
    have kept : (fileClose r (fileOpen x)).findInode y = o.findInode y := by
      rw [closed.others y different, registered.rest]
      rfl
    refine ⟨inode, writable, ?_⟩
    rw [← opened.others y different (vol.ne_root (mem_rootFiles.mpr ⟨_, here⟩)), ← kept] at held
    exact held

end step

section scan

variable {s t u : FlatFs} {n k : Nat} {dir : Dir} {A B : List CString}

theorem Visited.trans (early : Visited s t n A) (late : Visited t u n B) : Visited s u n (A ++ B) where
  volume := late.volume
  slots := late.slots.trans early.slots
  others y mine := (early.others y mine).trans (late.others y (early.others y mine).1)
  fileTable := by
    rw [late.fileTable, without, early.fileTable, without, without, List.filter_filter]
    apply List.filter_congr
    intro entry _
    rw [← Bool.decide_and, decide_eq_decide, List.mem_append, not_or, and_comm]
  ok := late.ok
  freed := late.freed.trans early.freed

theorem RootClosed.tableOk (vol : Volume s n) (ok : TableOk s) (only : RootClosed s t) : TableOk t := by
  refine ⟨by rw [only.fileTable]; exact ok.names, fun entry member y bound => ?_⟩
  rw [(vol.only only).2.1] at bound
  rw [only.fileTable] at member
  obtain ⟨inode, writable, held⟩ := ok.held entry member y bound
  rw [only.others y (vol.ne_root (mem_rootFiles.mpr ⟨_, bound⟩))]
  exact ⟨inode, writable, held⟩

theorem RootClosed.visited (vol : Volume s n) (ok : TableOk s) (only : RootClosed s t)
    (freed : t.usedFreed = s.usedFreed) : Visited s t n [] := by
  obtain ⟨volume, slots, others⟩ := vol.only only
  refine ⟨volume, slots, others, ?_, only.tableOk vol ok, freed⟩
  rw [only.fileTable, without]
  simp

theorem whileReaddir_visited (vol : Volume s n) (ok : TableOk s) (named : ∀ name ∈ keys (rootSlots s), FileName name)
    (current : s.cwd.isSome) (before : Before s dir k) (inside : k ≤ (rootSlots s).length) {calls : Nat}
    (enough : (bindings ((rootSlots s).drop k)).length < calls) (pattern : CString) (names : List CString) :
    let r := whileReaddir (findFileStep pattern) calls (some names) s dir
    r.1 = some (printed pattern s (bindings ((rootSlots s).drop k)) names) ∧ r.2.1.inode = ROOT_DIR_SECTOR ∧
      Visited s r.2.2 n (keys ((rootSlots s).drop k)) ∧ r.2.2.cwd.isSome ∧
      (Quiet s → dir.openCnt = 1 → Quiet r.2.2 ∧ r.2.1.openCnt = 1) := by
  induction calls generalizing s dir k names with
  | zero => exact absurd enough (Nat.not_lt_zero _)
  | succ calls ih =>
    have ready := Fs.use_open (vol.mounted.handle.listed current)
    have moves := setDir_current s dir
    rcases dirReaddir_spec vol.mounted.dir ready before inside with
      ⟨empty, run, -⟩ | ⟨j, name, x, -, slot, rest, run, next⟩
    · have only := setDir_moved vol.mounted.handle dir (36 * n : Nat)
      obtain ⟨freed, still⟩ := moves (36 * n : Nat)
      simp only [whileReaddir, run]
      rw [keys, empty]
      exact ⟨rfl, before.1, only.visited vol ok freed, still.trans current, fun quiet once => quiet.moved once _⟩
    · have only := setDir_moved vol.mounted.handle dir (36 * (j + 2) : Nat)
      obtain ⟨freed, still⟩ := moves (36 * (j + 2) : Nat)
      have first := only.visited vol ok freed
      have bound := List.mem_of_getElem? slot
      have fileName := named name (mem_keys.mpr ⟨x, bound⟩)
      rw [← first.slots] at bound
      obtain ⟨v, turn, second, cwd, quietV⟩ := findFileStep_visited first.volume first.ok fileName bound pattern names
      have both := first.trans second
      have small : j + 1 ≤ (rootSlots s).length := (List.getElem?_eq_some_iff.mp slot).1
      have beforeV : Before v (moved s dir (36 * (j + 2) : Nat)) (j + 1) := by
        rw [Before, dirAt, cwd]
        exact next
      rw [rest, List.length_cons] at enough
      have later := ih both.volume both.ok (by rw [both.slots]; exact named) (by rw [cwd]; exact still.trans current)
        beforeV (by rw [both.slots]; exact small) (by rw [both.slots]; omega) (matching pattern name (contents s x) names)
      simp only [whileReaddir, run, turn]
      obtain ⟨went, here, third, stays, quietL⟩ := later
      rw [both.slots] at went third
      have all := both.trans third
      have kept : ∀ b ∈ bindings ((rootSlots s).drop (j + 1)), contents v b.2 = contents s b.2 := fun b member =>
        (both.others b.2 (mem_rootFiles.mpr ⟨b.1, List.mem_of_mem_drop (mem_bindings.mp member)⟩)).2.1
      rw [printed_congr kept] at went
      have same : contents (setDir s (moved s dir (36 * (j + 2) : Nat))) x = contents s x :=
        (first.others x (mem_rootFiles.mpr ⟨name, List.mem_of_getElem? slot⟩)).2.1
      rw [keys, rest, List.map_cons, same]
      refine ⟨went, here, all, stays, fun quiet once => ?_⟩
      obtain ⟨quiet, once⟩ := quiet.moved once (36 * (j + 2) : Nat)
      exact quietL (quietV quiet) once

end scan

/-- Whoever has files open finds them open where they were, and every file holds what it held. -/
def ReadOnly (s t : Fs BufferCache) : Prop :=
  (∀ name, (getFileByFname t name).map File.pos = (getFileByFname s name).map File.pos) ∧
    ∀ x ∈ rootFiles s.flat, contents t.flat x = contents s.flat x

section findFile

variable {s : FlatFs} {n k : Nat}

theorem DirOk.readdirCalls {dir : Dir} (ok : DirOk s n) (here : dir.inode = ROOT_DIR_SECTOR) (k : Nat) :
    (bindings ((rootSlots s).drop k)).length < FileSystem.readdirCalls s dir := by
  have few := List.length_filterMap_le id ((rootSlots s).drop k)
  have length := ok.length_slots
  have calls : FileSystem.readdirCalls s dir = n + 1 := by
    rw [FileSystem.readdirCalls, here, ok.inodeLength, Int.toNat_natCast, ENTRY_SIZE, Nat.mul_div_cancel_left n (by decide)]
  rw [List.length_drop] at few
  rw [calls, bindings]
  omega

theorem findFile_visited (vol : Volume s n) (ok : TableOk s) (named : ∀ name ∈ keys (rootSlots s), FileName name)
    (start : Before (dirOpenRoot s).2 (dirOpenRoot s).1 k) (inside : k ≤ (rootSlots s).length) (pattern : CString) :
    (findFile s pattern).1 = some (printed pattern s (bindings ((rootSlots s).drop k)) []) ∧
      Visited s (findFile s pattern).2 n (keys ((rootSlots s).drop k)) ∧
      (Shut s → Shut (findFile s pattern).2) := by
  have opened := dirOpenRoot_spec vol.mounted.handle
  have first := (opened.only vol.mounted.dir.fine).visited vol ok (congrArg Fs.usedFreed opened.rest :)
  have enough := first.volume.mounted.dir.readdirCalls opened.dir.1 k
  obtain ⟨went, here, scan, current, quiet⟩ := whileReaddir_visited first.volume first.ok
    (by rw [first.slots]; exact named) (by rw [opened.cwd]; rfl) start (by rw [first.slots]; exact inside) enough pattern []
  have both := first.trans scan
  have handle := both.volume.mounted.handle
  have only := dirClose_spec handle here both.volume.mounted.foreign
  have all := both.trans (only.visited both.volume both.ok (dirClose_freed handle here (handle.listed current)))
  rw [first.slots, List.append_nil, List.nil_append] at all
  have kept : ∀ b ∈ bindings ((rootSlots s).drop k), contents (dirOpenRoot s).2 b.2 = contents s b.2 := fun b member =>
    (first.others b.2 (mem_rootFiles.mpr ⟨b.1, List.mem_of_mem_drop (mem_bindings.mp member)⟩)).2.1
  rw [first.slots, printed_congr kept] at went
  refine ⟨went, all, fun shut => ?_⟩
  obtain ⟨before, once⟩ := opened.quiet shut.1 shut.quiet
  obtain ⟨after, once⟩ := quiet before once
  exact after.dirClose both.volume.mounted.handle here once

end findFile

theorem getFileByFname_without (s : FlatFs) (names : List CString) (name : CString) :
    ((without s names).find? fun entry => entry.fname == name).map FileTableEntry.f =
      if name ∈ names then none else getFileByFname s name := by
  rw [without, List.find?_filter]
  split
  next inside =>
    rw [Option.map_eq_none_iff, List.find?_eq_none]
    intro entry _ both
    obtain ⟨outside, here⟩ := of_decide_eq_true both
    rw [beq_iff_eq.mp here] at outside
    exact of_decide_eq_true outside inside
  next outside =>
    rw [getFileByFname]
    congr 2
    funext entry
    by_cases here : entry.fname = name
    · rw [here]
      simp [outside]
    · simp [here]

theorem Visited.lookup {s t : FlatFs} {n : Nat} {names : List CString} (visited : Visited s t n names) (name : CString) :
    getFileByFname t name = if name ∈ names then none else getFileByFname s name := by
  rw [getFileByFname, visited.fileTable, getFileByFname_without]

/-- `find_file` is for reading only exactly if none of the files that its scan reaches is open. -/
theorem findFile_readOnly_iff (s : Fs BufferCache) {n k : Nat} (vol : Volume s.flat n) (ok : TableOk s.flat)
    (named : ∀ name ∈ keys (rootSlots s.flat), FileName name)
    (start : Before (dirOpenRoot s.flat).2 (dirOpenRoot s.flat).1 k) (inside : k ≤ (rootSlots s.flat).length)
    (pattern : CString) : ReadOnly s (findFile s pattern).2 ↔
      ∀ name ∈ keys ((rootSlots s.flat).drop k), getFileByFname s name = none := by
  obtain ⟨-, visited, -⟩ := findFile_visited vol ok named start inside pattern
  rw [← findFile_flat, flatten_snd] at visited
  have table : ∀ name, getFileByFname (findFile s pattern).2 name =
      if name ∈ keys ((rootSlots s.flat).drop k) then none else getFileByFname s name := visited.lookup
  constructor
  · rintro ⟨same, -⟩ name reached
    have gone := same name
    rw [table, if_pos reached] at gone
    exact Option.map_eq_none_iff.mp gone.symm
  · intro closed
    refine ⟨fun name => ?_, fun x listed => (visited.others x listed).2.1⟩
    rw [table]
    split
    next reached => rw [closed name reached]
    next => rfl

theorem Shut.before {s : FlatFs} (shut : Shut s) : Before (dirOpenRoot s).2 (dirOpenRoot s).1 0 := by
  simp [Before, dirOpenRoot, shut.1, dirAt, dirOpen]

theorem findFile_readOnly_formatted : ReadOnly (formatted 80) (findFile (formatted 80) [65]).2 := by
  have general : ∀ s : Fs BufferCache, Fresh 80 s.flat → ReadOnly s (findFile s [65]).2 := by
    intro s fresh
    have empty : keys (rootSlots s.flat) = [] := List.eq_nil_iff_forall_not_mem.mpr fresh.absent
    have ok : TableOk s.flat := ⟨by rw [fresh.fileTable]; exact List.nodup_nil, by rw [fresh.fileTable]; simp⟩
    refine (findFile_readOnly_iff s fresh.volume ok (by rw [empty]; simp) fresh.shut.before (Nat.zero_le _) [65]).mpr ?_
    rw [List.drop_zero, empty]
    simp
  exact general _ (formatted_fresh (by decide +kernel))

theorem fileName_a : FileName [97] := ⟨by decide, by decide, by decide, by decide, by decide⟩

theorem formatted_makesA {size : Int} (sized : SizeOk size) (room : (createNeeds size).length < 5) :
    (filesysCreate (formatted 80) [97] size false).1 = true := by
  have fresh := formatted_fresh (show FormatFits 80 by decide +kernel)
  have free : (freeSectors (formatted 80).flat.freeMap).length = 5 := fresh.free_length.trans (by decide +kernel)
  exact (filesysCreate_done fresh.mounted [97] size).mpr (fresh.fits free fileName_a.ok sized room)

/-- A new file system in which the file "a" has been made. -/
structure JustA (s : FlatFs) (size : Int) (n : Nat) (x : BlockSector) : Prop where
  volume : Volume s n
  shut : Shut s
  slots : bindings (rootSlots s) = [([97], x)]
  fileTable : s.fileTable = []
  length : s.inodeLength x = offsetOf size
  blank : contents s x = List.replicate (offsetOf size).toNat 0
  unlisted : s.findInode x = none

theorem JustA.bound {s : FlatFs} {size : Int} {n : Nat} {x : BlockSector} (just : JustA s size n x) :
    some ([97], x) ∈ rootSlots s := by
  apply mem_bindings.mp
  rw [just.slots]
  exact List.mem_singleton.mpr rfl

theorem JustA.named {s : FlatFs} {size : Int} {n : Nat} {x : BlockSector} (just : JustA s size n x) :
    ∀ name ∈ keys (rootSlots s), FileName name := by
  rw [keys, just.slots]
  simpa using fileName_a

theorem Fresh.createsA {s : FlatFs} (fresh : Fresh 80 s) {size : Int}
    (made : (filesysCreate s [97] size false).1 = true) :
    ∃ n x, JustA (filesysCreate s [97] size false).2 size n x := by
  obtain ⟨new, creation⟩ := filesysCreate_effect fresh.mounted [97] size
  rw [show (splitPathFilename [97]).2 = [97] by decide] at creation
  obtain ⟨⟨n, volume⟩, -, newFile, -⟩ := fresh.volume.creates creation (by decide)
  obtain ⟨x, created⟩ := newFile made
  have none : bindings (rootSlots s) = [] := by
    rw [fresh.slots, bindings, List.filterMap_eq_nil_iff]
    exact fun slot member => List.eq_of_mem_replicate member
  have perm := put_perm (rootSlots s) ([97], x)
  rw [none, ← created.slots, List.perm_singleton] at perm
  exact ⟨n, x, volume, creation.shut fresh.shut, perm, creation.fileTable.trans fresh.fileTable, created.length,
    created.blank, created.unlisted⟩

theorem Fresh.opensA {s : FlatFs} (fresh : Fresh 80 s) (made : (filesysCreate s [97] 512 false).1 = true) : ∃ n x,
    let t := (fsutilSize (filesysCreate s [97] 512 false).2 [97]).2
    Volume t n ∧ TableOk t ∧ Shut t ∧ keys (rootSlots t) = [[97]] ∧ t.fileTable = [⟨[97], fileOpen x⟩] := by
  obtain ⟨n, x, just⟩ := fresh.createsA made
  have volume := just.volume
  have table := just.fileTable
  have shut := just.shut
  have one : keys (rootSlots (filesysCreate s [97] 512 false).2) = [[97]] := by
    rw [keys, just.slots]
    rfl
  have bound : some ((splitPathFilename [97]).2, x) ∈ rootSlots (filesysCreate s [97] 512 false).2 := just.bound
  generalize (filesysCreate s [97] 512 false).2 = c at *
  have absent : getFileByFname c [97] = none := by
    rw [getFileByFname, table]
    rfl
  obtain ⟨t, opened⟩ := volume.opensNamed absent (by decide) bound
  obtain ⟨u, file, run⟩ := volume.openNamed_opens absent (by decide) bound
  have entries : t.fileTable = [⟨[97], fileOpen x⟩] := by
    rw [opened.entries, table]
    rfl
  have later := file.shut shut
  have size : (fsutilSize c [97]).2 = t := by
    have ready : t.use (fileOpen x).inode = t := Fs.use_open opened.held
    simp only [fsutilSize, opened.run, ready]
    exact setFile_same (by rw [entries]; exact List.nodup_singleton _) opened.table
  refine ⟨n, x, ?_⟩
  rw [opened.run] at run
  rw [size]
  refine ⟨opened.volume, ⟨by rw [entries]; exact List.nodup_singleton _, fun entry member y here => ?_⟩, ?_,
    by rw [opened.slots]; exact one, entries⟩
  · rw [entries, List.mem_singleton] at member
    rw [member] at here ⊢
    rw [opened.slots] at here
    obtain rfl := volume.bound bound here
    exact ⟨rfl, rfl, opened.held⟩
  · have same := congrArg Prod.snd run
    simp only at same
    rw [same, addToFileTable]
    split
    · exact later
    · exact later

/-- The file "a" is open, and a search closes it. -/
theorem findFile_closes :
    let t := (fsutilSize (filesysCreate (formatted 80) [97] 512 false).2 [97]).2
    ¬ReadOnly t (findFile t [65]).2 := by
  have general : ∀ s : Fs BufferCache, Fresh 80 s.flat → (filesysCreate s [97] 512 false).1 = true →
      let t := (fsutilSize (filesysCreate s [97] 512 false).2 [97]).2
      ¬ReadOnly t (findFile t [65]).2 := by
    intro s fresh made t reads
    obtain ⟨n, x, volume, ok, shut, listed, entries⟩ := fresh.opensA (by rw [← filesysCreate_flat]; exact made)
    rw [← filesysCreate_flat, flatten_snd, ← fsutilSize_flat, flatten_snd] at volume ok shut listed entries
    obtain ⟨-, visited, -⟩ :=
      findFile_visited volume ok (by rw [listed]; simpa using fileName_a) shut.before (Nat.zero_le _) [65]
    rw [← findFile_flat, flatten_snd, List.drop_zero, listed] at visited
    have before : getFileByFname t [97] = some (fileOpen x) := by
      rw [← getFileByFname_flat, getFileByFname, entries]
      rfl
    have after : getFileByFname (findFile t [65]).2 [97] = none :=
      (visited.lookup [97]).trans (if_pos (List.mem_singleton.mpr rfl))
    have same := reads.1 [97]
    rw [before, after] at same
    cases same
  exact general _ (formatted_fresh (by decide +kernel)) (formatted_creates (by decide) (by decide))

end ShellOs.FileSystem
