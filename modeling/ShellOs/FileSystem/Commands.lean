import ShellOs.FileSystem.Positions
import ShellOs.FileSystem.Peek

/-! The other commands on files: they list, dump, remove and examine. -/

namespace ShellOs.FileSystem
open Lib SlotMap GrowArray

section drop

variable {s t c : FlatFs} {n : Nat} {name : CString} {f : File} {x : BlockSector}

theorem mem_without {names : List CString} {entry : FileTableEntry} :
    entry ∈ without s names ↔ entry ∈ s.fileTable ∧ entry.fname ∉ names := by
  rw [without, List.mem_filter, decide_eq_true_iff]

theorem ShellOk.readOut (ok : ShellOk s) (vol : Volume s n) (found : getFileByFname s name = some f) :
    ReadOut s (removeFromFileTable s name).2 n name f.inode := by
  obtain ⟨bound, writable, held⟩ := ok.file found
  have listed := mem_rootFiles.mpr ⟨_, bound⟩
  have close : fileClose s f = fileClose s (fileOpen f.inode) := by
    rw [fileClose, fileClose, writable]
    rfl
  have closed := vol.fileClosed ⟨listed, held⟩
  obtain ⟨volC, slotsC, othersC⟩ := vol.closes listed closed
  have table : (fileClose s (fileOpen f.inode)).fileTable = s.fileTable := (congrArg Fs.fileTable closed.rest :)
  obtain ⟨volT, slotsT, othersT⟩ := volC.tabled (without s [name])
  have run : (removeFromFileTable s name).2 = { fileClose s (fileOpen f.inode) with fileTable := without s [name] } := by
    simp only [removeFromFileTable, found, close, table, eraseP_name ok.table.names, without]
  rw [run]
  refine ⟨volT, ?_, slotsT.trans slotsC, fun y mine => (othersC y mine).trans (othersT y (othersC y mine).1),
    fun z away => closed.others z away, (congrArg Fs.cwd closed.rest :), rfl⟩
  have tabled : Rehandled (fileClose s (fileOpen f.inode))
      { fileClose s (fileOpen f.inode) with fileTable := without s [name] } :=
    ⟨rfl, fun _ => Or.inl rfl, fun _ => Or.inl rfl, fun _ _ => rfl⟩
  exact (closed.rehandled (vol.foreign (List.mem_cons_of_mem _ listed))).trans tabled

theorem ShellOk.removeFromFileTable_freed (ok : ShellOk s) (name : CString) :
    (removeFromFileTable s name).2.usedFreed = s.usedFreed := by
  cases found : getFileByFname s name with
  | none => simp only [removeFromFileTable, found]
  | some f =>
    obtain ⟨n, vol⟩ := ok.volume
    obtain ⟨bound, writable, held⟩ := ok.file found
    have closed := vol.fileClosed ⟨mem_rootFiles.mpr ⟨_, bound⟩, held⟩
    have close : fileClose s f = fileClose s (fileOpen f.inode) := by
      rw [fileClose, fileClose, writable]
      rfl
    simp only [removeFromFileTable, found, close]
    exact (congrArg Fs.usedFreed closed.rest :)

theorem ReadOut.ok (out : ReadOut s c n name x) (ok : ShellOk s) (bound : some (name, x) ∈ rootSlots s) : ShellOk c := by
  obtain ⟨m, vol⟩ := ok.volume
  have root := out.handles _ (vol.ne_root (mem_rootFiles.mpr ⟨_, bound⟩)).symm
  apply ShellOk.of_files out.volume ⟨out.cwd.trans ok.shut.1, root.trans ok.shut.2⟩
  · rw [out.slots]
    exact ok.named
  · rw [out.fileTable]
    exact ok.table.names.sublist (List.filter_sublist.map _)
  · intro entry member
    rw [out.fileTable, mem_without] at member
    obtain ⟨here, writable, held⟩ := ok.entry member.1
    have different : entry.f.inode ≠ x := by
      intro same
      rw [same] at here
      exact member.2 (List.mem_singleton.mpr (vol.nameOf bound here))
    rw [out.slots, out.handles _ different]
    exact ⟨here, writable, held⟩

theorem filesysRemove_nothing (vol : Volume s n) (quiet : Quiet s) (flat : Flat name)
    (absent : name ∉ keys (rootSlots s)) : RootClosed s (filesysRemove s name).2 ∧ Shut (filesysRemove s name).2 ∧
      (filesysRemove s name).2.usedFreed = s.usedFreed := by
  obtain ⟨d, a, run, here, once, only, quietA, listed, freed⟩ := dirOpenPath_quiet vol.mounted quiet
  obtain ⟨ok, slots⟩ := vol.mounted.dir.rehandled only.rehandled
  rw [← slots] at absent
  have result : filesysRemove s name = (false, dirClose a d) := by
    rw [filesysRemove, flat.split, run]
    simp only [dirRemove_absent ok here absent, Fs.use_open listed]
  rw [result]
  refine ⟨only.trans (dirClose_spec only.handle here ?_), quietA.dirClose only.handle here once,
    (dirClose_freed only.handle here listed).trans freed⟩
  rw [only.rehandled.freeMapFile]
  exact vol.mounted.foreign

end drop

namespace Positioned

variable {s t : FlatFs} {name : CString}

theorem fileSeek_congr {f g : File} (inode : g.inode = f.inode) (deny : g.denyWrite = f.denyWrite) (pos : Int) :
    fileSeek g pos = fileSeek f pos := by
  rw [fileSeek, fileSeek, inode, deny]

theorem catLoop_spec (s : FlatFs) (file : File) (ready : s.use file.inode = s) (size : Int)
    (dumped : List (Int × List Byte)) :
    (catLoop s file size dumped).2.2 = s ∧ (catLoop s file size dumped).2.1.inode = file.inode ∧
      (catLoop s file size dumped).2.1.denyWrite = file.denyWrite := by
  have read : ∀ (s : FlatFs) (file : File), s.use file.inode = s → (fileRead s file size).2.2 = s := by
    intro s file ready
    rw [fileRead, ready]
    exact inodeReadAt_snd s file.inode size file.pos
  fun_induction catLoop s file size dumped with
  | case1 s file dumped r done => exact ⟨read s file ready, rfl, rfl⟩
  | case2 s file dumped r more ih =>
    have here : r.2.2 = s := read s file ready
    obtain ⟨same, inode, deny⟩ := ih (by rw [here]; exact ready)
    exact ⟨same.trans here, inode, deny⟩

end Positioned

end ShellOs.FileSystem
