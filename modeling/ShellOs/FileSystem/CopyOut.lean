import ShellOs.FileSystem.CopyIn
import ShellOs.Lib.Scan

/-! `copy_out` after `copy_in`: the text comes out as it went in. -/

namespace ShellOs.FileSystem
open Lib GrowArray SlotMap

/-- The commands that move in a file and leave it as it is. -/
inductive LookOp
  | read (size : Int)
  | seek (offset : Nat)

def LookOp.step {σ : Type} [Store σ BlockSector Sector] [LawfulStore σ] (fname : CString) (s : Fs σ) : LookOp → Fs σ
  | read size => (fsutilRead s fname size).2
  | seek offset => (fsutilSeek s fname offset).2

theorem LookOp.step_flat {σ : Type} [Store σ BlockSector Sector] [LawfulStore σ] (fname : CString) (s : Fs σ)
    (op : LookOp) : (LookOp.step fname s op).flat = LookOp.step fname s.flat op := by
  cases op with
  | read size => rw [step, step, ← fsutilRead_flat, flatten_snd]
  | seek offset => rw [step, step, ← fsutilSeek_flat, flatten_snd]

/-- A file in the table, with what it holds and where it is. Its inode is open, or a freed one has been used before. -/
structure OpenFile (s : FlatFs) (name : CString) (f : File) (bytes : List Byte) : Prop where
  fine : FreeMapOk s
  file : FileAt s f.inode
  ready : s.use f.inode = s
  table : getFileByFname s name = some f
  contents : contents s f.inode = bytes

namespace OpenFile

variable {s : FlatFs} {name : CString} {f : File} {bytes : List Byte}

theorem setFile (opened : OpenFile s name f bytes) (pos : Int) :
    OpenFile (setFile s name (fileSeek f pos)) name (fileSeek f pos) bytes := by
  have tabled : Rehandled s (FileSystem.setFile s name (fileSeek f pos)) :=
    ⟨rfl, fun _ => Or.inl rfl, fun _ => Or.inl rfl, fun _ _ => rfl⟩
  obtain ⟨file, -, same, -⟩ := tabled.file opened.fine opened.file
  exact ⟨(tabled.ok opened.fine).1, file, Fs.use_congr opened.ready rfl rfl,
    getFileByFname_setFile (by rw [opened.table]; rfl), same.trans opened.contents⟩

theorem length (opened : OpenFile s name f bytes) : s.inodeLength f.inode = bytes.length := by
  rw [opened.file.length, ← length_contents, opened.contents]

theorem read (opened : OpenFile s name f bytes) (size : Int) :
    fsutilRead s name size = (some (inodeReadAt s f.inode (offsetOf size) f.pos).1,
      FileSystem.setFile s name (fileSeek f (f.pos + (inodeReadAt s f.inode (offsetOf size) f.pos).1.length))) := by
  have same : (inodeReadAt s f.inode (offsetOf size) f.pos).2 = s := inodeReadAt_snd s f.inode (offsetOf size) f.pos
  simp only [fsutilRead, openNamed_held opened.table, fileRead, opened.ready, same, fileSeek]

theorem look (opened : OpenFile s name f bytes) (op : LookOp) :
    (∃ pos, OpenFile (LookOp.step name s op) name (fileSeek f pos) bytes) ∧
      (LookOp.step name s op).usedFreed = s.usedFreed := by
  cases op with
  | read size =>
    rw [LookOp.step, opened.read]
    exact ⟨⟨_, opened.setFile _⟩, rfl⟩
  | seek offset =>
    simp only [LookOp.step, fsutilSeek, openNamed_held opened.table]
    exact ⟨⟨_, opened.setFile _⟩, rfl⟩

theorem readAll (opened : OpenFile s name f bytes) (start : f.pos = 0) :
    (inodeReadAt s f.inode (offsetOf bytes.length) f.pos).1 = bytes := by
  have fits := opened.file.good.fits
  rw [← length_contents, opened.contents] at fits
  simp only [MAX_LENGTH] at fits
  rw [offsetOf_eq (by omega) (by omega), start]
  have reads := opened.file.reads bytes.length 0
  rw [opened.contents, slice, List.drop_zero, List.take_length] at reads
  exact reads

theorem copyOut (opened : OpenFile s name f bytes) : ∃ v,
    copyOut s name true = (0, some (untilNul bytes), v) ∧ getFileByFname v name = some f ∧
      v.usedFreed = s.usedFreed := by
  have size : fsutilSize s name = ((bytes.length : Int), FileSystem.setFile s name f) := by
    simp only [fsutilSize, openNamed_held opened.table, opened.ready, fileLength, opened.length, fileSeek]
  have first : OpenFile (FileSystem.setFile s name f) name f bytes := opened.setFile f.pos
  have restart := first.setFile 0
  have run := restart.read bytes.length
  rw [restart.readAll rfl] at run
  have whole : FileSystem.copyOut s name true = (0, some (untilNul bytes), FileSystem.setFile
      (fsutilRead (FileSystem.setFile (FileSystem.setFile s name f) name (fileSeek f 0)) name bytes.length).2 name f) := by
    simp only [FileSystem.copyOut, size, openNamed_held first.table, run, if_true, Option.getD_some]
  refine ⟨_, whole, getFileByFname_setFile ?_, ?_⟩
  · rw [run, (restart.setFile _).table]
    rfl
  · rw [run]
    rfl

end OpenFile

theorem untilNul_text {bytes : List Byte} (noNul : (0 : Byte) ∉ bytes) : untilNul (bytes ++ [0]) = bytes := by
  rw [untilNul]
  exact takeWhile_ne noNul []

theorem Imported.openFile {t : FlatFs} {name : CString} {x : BlockSector} {bytes : List Byte}
    (imported : Imported t name x bytes) : OpenFile t name ⟨x, (bytes.length : Int) - 1, false⟩ (bytes ++ [0]) :=
  ⟨imported.inode.fine, imported.inode.file, Fs.use_open imported.inode.listed, imported.table, imported.contents⟩

theorem OpenFile.run {s t : Fs BufferCache} {name : CString} {f : File} {bytes : List Byte}
    (opened : OpenFile s.flat name f bytes) (run : Run (fun _ _ => True) (LookOp.step name) s t) :
    (∃ g, OpenFile t.flat name g bytes) ∧ t.flat.usedFreed = s.flat.usedFreed := by
  apply Run.invariant (fun t => (∃ g, OpenFile t.flat name g bytes) ∧ t.flat.usedFreed = s.flat.usedFreed) run
    ⟨⟨f, opened⟩, rfl⟩
  rintro u op ⟨⟨g, held⟩, kept⟩ -
  rw [LookOp.step_flat]
  obtain ⟨⟨pos, next⟩, same⟩ := held.look op
  exact ⟨⟨_, next⟩, same.trans kept⟩

end ShellOs.FileSystem
