import ShellOs.FileSystem.FindFile

/-! Scans of the root directory that leave the disk and the table of open files as they were. -/

namespace ShellOs.FileSystem
open Lib SlotMap

section peek

variable {s t u : FlatFs} {n k : Nat} {dir : Dir} {name : CString} {x : BlockSector} {A B : List BlockSector}

/-- Nothing has changed, but that some of the files may have been closed. -/
structure Peeked (s t : FlatFs) (n : Nat) (closed : List BlockSector) : Prop where
  volume : Volume t n
  rehandled : Rehandled s t
  slots : rootSlots t = rootSlots s
  fewer : ∀ z, z ≠ ROOT_DIR_SECTOR → t.findInode z = s.findInode z ∨ t.findInode z = none
  others : ∀ z, z ≠ ROOT_DIR_SECTOR → z ∉ closed → t.findInode z = s.findInode z
  fileTable : t.fileTable = s.fileTable
  freed : t.usedFreed = s.usedFreed

theorem Peeked.trans (early : Peeked s t n A) (late : Peeked t u n B) : Peeked s u n (A ++ B) where
  volume := late.volume
  rehandled := early.rehandled.trans late.rehandled
  slots := late.slots.trans early.slots
  fewer z away := by
    rcases late.fewer z away with same | gone
    · rw [same]
      exact early.fewer z away
    · exact Or.inr gone
  others z away outside := by
    obtain ⟨first, second⟩ := not_or.mp (mt List.mem_append.mpr outside)
    rw [late.others z away second, early.others z away first]
  fileTable := late.fileTable.trans early.fileTable
  freed := late.freed.trans early.freed

theorem RootClosed.peeked (vol : Volume s n) (only : RootClosed s t) (freed : t.usedFreed = s.usedFreed) :
    Peeked s t n [] := by
  obtain ⟨volume, slots, -⟩ := vol.only only
  exact ⟨volume, only.rehandled, slots, fun z away => Or.inl (only.others z away), fun z away _ => only.others z away,
    only.fileTable, freed⟩

theorem Peeked.rootClosed (peeked : Peeked s t n A) (none : ∀ z ∈ A, s.findInode z = none) : RootClosed s t := by
  refine ⟨peeked.rehandled, fun z away => ?_, peeked.volume.mounted.handle, peeked.fileTable⟩
  by_cases inside : z ∈ A
  · rcases peeked.fewer z away with same | gone
    · exact same
    · rw [gone, none z inside]
  · exact peeked.others z away inside

def closedBy (closing : Bool) (files : List BlockSector) : List BlockSector := if closing then files else []

/-- What a scan asks of a turn: it looks at its file, and adds what it has seen. -/
def Peeks {β : Type} (s : FlatFs) (n : Nat) (body : β → FlatFs → CString → β × FlatFs)
    (value : β → CString × BlockSector → β) (closing : Bool) : Prop :=
  ∀ u acc name x seen, Peeked s u n seen → some (name, x) ∈ rootSlots s → x ∉ seen →
    ∃ v, body acc u name = (value acc (name, x), v) ∧ Peeked u v n (closedBy closing [x]) ∧ v.cwd = u.cwd ∧
      (Quiet u → Quiet v)

variable {β : Type} {body : β → FlatFs → CString → β × FlatFs} {value : β → CString × BlockSector → β}
  {closing : Bool}

/-- The run lemma: the scan looks at the files from its slot on, each once, in the order of their slots. -/
theorem whileReaddir_peeked (turn : Peeks s n body value closing) {seen : List BlockSector}
    (peeked : Peeked s t n seen) (unseen : (seen ++ (bindings ((rootSlots s).drop k)).map Prod.snd).Nodup)
    (current : t.cwd.isSome) (before : Before t dir k) (inside : k ≤ (rootSlots s).length) {calls : Nat}
    (enough : (bindings ((rootSlots s).drop k)).length < calls) (acc : β) :
    let r := whileReaddir body calls acc t dir
    r.1 = (bindings ((rootSlots s).drop k)).foldl value acc ∧ r.2.1.inode = ROOT_DIR_SECTOR ∧
      Peeked s r.2.2 n (seen ++ closedBy closing ((bindings ((rootSlots s).drop k)).map Prod.snd)) ∧
      r.2.2.cwd.isSome ∧ (Quiet t → dir.openCnt = 1 → Quiet r.2.2 ∧ r.2.1.openCnt = 1) := by
  induction calls generalizing t dir k seen acc with
  | zero => exact absurd enough (Nat.not_lt_zero _)
  | succ calls ih =>
    have slotsT := peeked.slots
    rw [← slotsT] at inside enough
    have ready := Fs.use_open (peeked.volume.mounted.handle.listed current)
    have moves := setDir_current t dir
    rcases dirReaddir_spec peeked.volume.mounted.dir ready before inside with
      ⟨empty, run, -⟩ | ⟨j, name, x, -, slot, rest, run, next⟩
    · obtain ⟨freed, still⟩ := moves (36 * n : Nat)
      have only := (setDir_moved peeked.volume.mounted.handle dir (36 * n : Nat)).peeked peeked.volume freed
      rw [slotsT] at empty
      simp only [whileReaddir, run]
      have none : closedBy closing [] = [] := by cases closing <;> rfl
      rw [empty, List.map_nil, none]
      exact ⟨rfl, before.1, peeked.trans only, still.trans current, fun quiet once => quiet.moved once _⟩
    · obtain ⟨freed, still⟩ := moves (36 * (j + 2) : Nat)
      have only := (setDir_moved peeked.volume.mounted.handle dir (36 * (j + 2) : Nat)).peeked peeked.volume freed
      have small : j + 1 ≤ (rootSlots s).length := by
        rw [← slotsT]
        exact (List.getElem?_eq_some_iff.mp slot).1
      rw [slotsT] at slot rest enough
      rw [rest, List.map_cons] at unseen
      have apart := List.nodup_append.mp unseen
      have fresh : x ∉ seen := fun again => apart.2.2 x again x List.mem_cons_self rfl
      have first := peeked.trans only
      rw [List.append_nil] at first
      obtain ⟨v, step, second, cwd, quietV⟩ := turn _ acc name x seen first (List.mem_of_getElem? slot) fresh
      have both := first.trans second
      have beforeV : Before v (moved t dir (36 * (j + 2) : Nat)) (j + 1) := by
        rw [Before, dirAt, cwd]
        exact next
      rw [rest, List.length_cons] at enough
      have left : ((seen ++ closedBy closing [x]) ++ (bindings ((rootSlots s).drop (j + 1))).map Prod.snd).Nodup := by
        rw [List.append_assoc]
        cases closing with
        | false => exact unseen.sublist (List.Sublist.append_left (List.sublist_cons_self _ _) seen)
        | true => exact unseen
      obtain ⟨went, here, last, held, quiet⟩ := ih both left (by rw [cwd]; exact still.trans current) beforeV small
        (by omega) (value acc (name, x))
      simp only [whileReaddir, run, step]
      rw [rest, List.foldl_cons, List.map_cons]
      refine ⟨went, here, ?_, held, fun before once => ?_⟩
      · rw [List.append_assoc] at last
        cases closing with
        | false => exact last
        | true => exact last
      · obtain ⟨before, once⟩ := before.moved once (36 * (j + 2) : Nat)
        exact quiet (quietV before) once

theorem forRootNames_peeked (vol : Volume s n) (turn : Peeks s n body value closing)
    (start : Before (dirOpenRoot s).2 (dirOpenRoot s).1 k) (inside : k ≤ (rootSlots s).length) (acc : β) :
    (forRootNames body acc s).1 = (bindings ((rootSlots s).drop k)).foldl value acc ∧
      Peeked s (forRootNames body acc s).2 n (closedBy closing ((bindings ((rootSlots s).drop k)).map Prod.snd)) ∧
      (Shut s → Shut (forRootNames body acc s).2) := by
  have opened := dirOpenRoot_spec vol.mounted.handle
  have first := (opened.only vol.mounted.dir.fine).peeked vol (congrArg Fs.usedFreed opened.rest :)
  have enough := first.volume.mounted.dir.readdirCalls opened.dir.1 k
  rw [first.slots] at enough
  have files : ((bindings (rootSlots s)).map Prod.snd).Nodup := (List.nodup_cons.mp vol.owners).2
  have unseen : (([] : List BlockSector) ++ (bindings ((rootSlots s).drop k)).map Prod.snd).Nodup := by
    rw [List.nil_append]
    exact files.sublist (((List.drop_sublist k _).filterMap id).map Prod.snd)
  obtain ⟨went, here, scan, current, quiet⟩ :=
    whileReaddir_peeked turn first unseen (by rw [opened.cwd]; rfl) start inside enough acc
  have handle := scan.volume.mounted.handle
  have only := (dirClose_spec handle here scan.volume.mounted.foreign).peeked scan.volume
    (dirClose_freed handle here (handle.listed current))
  have all := scan.trans only
  rw [List.nil_append, List.append_nil] at all
  refine ⟨went, all, fun shut => ?_⟩
  obtain ⟨before, once⟩ := opened.quiet shut.1 shut.quiet
  obtain ⟨after, once⟩ := quiet before once
  exact after.dirClose scan.volume.mounted.handle here once

structure OpenedShortly (s o : FlatFs) (n : Nat) (name : CString) (x : BlockSector) : Prop where
  run : filesysOpen s name = (some (fileOpen x), o)
  opened : FileOpened s o x
  volume : Volume o n
  kept : Volume.Untouched s o x
  peeked : Peeked s (fileClose o (fileOpen x)) n [x]
  cwd : (fileClose o (fileOpen x)).cwd = s.cwd
  quiet : Quiet s → Quiet (fileClose o (fileOpen x))

theorem Volume.opensShortly (vol : Volume s n) (plain : Plain (splitPathFilename name).2)
    (bound : some ((splitPathFilename name).2, x) ∈ rootSlots s) : ∃ o, OpenedShortly s o n name x := by
  obtain ⟨value, opened, cwd, quiet⟩ := vol.opensPath plain bound
  obtain ⟨o, run⟩ : ∃ o, filesysOpen s name = (some (fileOpen x), o) := ⟨_, Prod.ext value rfl⟩
  rw [run] at opened cwd quiet
  have listed := mem_rootFiles.mpr ⟨_, bound⟩
  have away := vol.ne_root listed
  obtain ⟨volO, slotsO, others⟩ := vol.opens listed opened
  have listedO : x ∈ rootFiles o := (others x listed).1
  have closed := volO.fileClosed ⟨listedO, opened.held⟩
  obtain ⟨volC, slotsC, -⟩ := volO.closes listedO closed
  have cwdC : (fileClose o (fileOpen x)).cwd = o.cwd := (congrArg Fs.cwd closed.rest :)
  refine ⟨o, run, opened, volO, others x listed, ⟨volC, ?_, slotsC.trans slotsO, fun z inner => ?_, fun z inner outside => ?_,
    (congrArg Fs.fileTable closed.rest :).trans opened.fileTable,
    (congrArg Fs.usedFreed closed.rest :).trans opened.freed⟩, cwdC.trans cwd, fun before => ?_⟩
  · exact opened.rehandled.trans (closed.rehandled (volO.foreign (List.mem_cons_of_mem _ listedO)))
  · by_cases same : z = x
    · rw [same]
      exact Or.inr closed.gone
    · rw [closed.others z same, opened.others z same inner]
      exact Or.inl rfl
  · have different : z ≠ x := fun same => outside (List.mem_singleton.mpr same)
    rw [closed.others z different, opened.others z different inner]
  · exact (quiet before).congr (closed.others _ away.symm) cwdC

end peek

end ShellOs.FileSystem
