import ShellOs.FileSystem.OpenFiles
import ShellOs.FileSystem.FailedWrite
import ShellOs.Lib.Buffer

/-! The command `write` of the interpreter: its words are joined in a buffer, and one command after the other
continues the text in the file. -/

namespace ShellOs.FileSystem
open Lib GrowArray

abbrev blank : Byte := 32

abbrev TOO_FEW_TOKENS : Int := 5

abbrev FILE_WRITE_ERROR : Int := 11

def strcpy (buf : List Byte) (i : Nat) (word : CString) : Option (List Byte) := Buffer.storeAll buf i (word ++ [0])

def fillWords : List CString → List Byte → Nat → Option (List Byte × Nat)
  | [], buf, currentInd => some (buf, currentInd)
  | word :: rest, buf, currentInd =>
    (strcpy buf currentInd word).bind fun buf =>
    (strcpy buf (currentInd + word.length) [blank]).bind fun buf =>
    fillWords rest buf (currentInd + word.length + 1)

/-- The buffer of the command, `none` if it is indexed outside of what `malloc` was asked for. -/
def writeBuffer (words : List CString) : Option (List Byte) :=
  let argsSize := words.length + 2
  let size := (words.map List.length).sum + (argsSize - 1)
  (fillWords words (List.replicate size 0) 0).bind fun r => Buffer.store r.1 (r.2 - 1) 0

section calls

variable {σ : Type} [Store σ BlockSector Sector] [LawfulStore σ]

def writeCommand (s : Fs σ) : List CString → Option (Int × Fs σ)
  | _ :: fname :: word :: rest => (writeBuffer (word :: rest)).map fun buf =>
    let bytesWritten := fsutilWrite s fname (fun i => buf.getD i 0) buf.length
    (if bytesWritten.1 = -1 then FILE_WRITE_ERROR else 0, bytesWritten.2)
  | _ => some (TOO_FEW_TOKENS, s)

/-- Commands on one file, one after the other; each has a word at least. -/
def writeCommands (s : Fs σ) (fname : CString) : List (List CString) → Option (Fs σ)
  | [] => some s
  | words :: rest => (writeCommand s (ascii "write" :: fname :: words)).bind fun r => writeCommands r.2 fname rest

end calls

section buffer

def joined (words : List CString) : List Byte := List.intercalate [blank] words

theorem flatMap_blank {words : List CString} (some : words ≠ []) :
    words.flatMap (fun word => word ++ [blank]) = joined words ++ [blank] := by
  induction words with
  | nil => exact absurd rfl some
  | cons word rest ih =>
    cases rest with
    | nil => simp [joined, List.intercalate]
    | cons next more =>
      have later := ih (by simp)
      rw [List.flatMap_cons, later]
      simp [joined, List.intercalate]

theorem length_flatMap_blank (words : List CString) :
    (words.flatMap fun word => word ++ [blank]).length = (words.map List.length).sum + words.length := by
  induction words with
  | nil => rfl
  | cons word rest ih =>
    rw [List.flatMap_cons, List.length_append, ih, List.length_append, List.length_singleton, List.map_cons,
      List.sum_cons, List.length_cons]
    omega

theorem strcpy_append (cells : List Byte) (done : List Byte) (word : CString)
    (room : done.length + word.length + 1 ≤ cells.length) :
    strcpy (Buffer.overlay cells 0 (done ++ [0])) done.length word =
      some (Buffer.overlay cells 0 (done ++ word ++ [0])) := by
  have long : (Buffer.overlay cells 0 (done ++ [0])).length = cells.length :=
    Buffer.overlay_length (by rw [List.length_append, List.length_singleton]; omega)
  have laid := Buffer.overlay_overlap cells done [0] (word ++ [0]) 0 (by simp)
    (by simp only [List.length_append, List.length_singleton]; omega)
  rw [Nat.zero_add] at laid
  rw [strcpy, Buffer.storeAll_overlay _ (by rw [long, List.length_append, List.length_singleton]; omega), laid,
    List.append_assoc]

theorem fillWords_append (words : List CString) (cells done : List Byte)
    (room : (done ++ words.flatMap fun word => word ++ [blank]).length + 1 ≤ cells.length) :
    fillWords words (Buffer.overlay cells 0 (done ++ [0])) done.length =
      some (Buffer.overlay cells 0 (done ++ (words.flatMap fun word => word ++ [blank]) ++ [0]),
        (done ++ words.flatMap fun word => word ++ [blank]).length) := by
  induction words generalizing done with
  | nil => rw [fillWords, List.flatMap_nil, List.append_nil]
  | cons word rest ih =>
    simp only [List.flatMap_cons, List.length_append, List.length_singleton] at room
    have first := strcpy_append cells done word (by omega)
    have second := strcpy_append cells (done ++ word) [blank]
      (by simp only [List.length_append, List.length_singleton]; omega)
    have later := ih (done ++ word ++ [blank]) (by simp only [List.length_append, List.length_singleton]; omega)
    rw [List.length_append] at second
    rw [List.length_append, List.length_append, List.length_singleton] at later
    rw [fillWords, first, Option.bind_some, second, Option.bind_some, later]
    simp only [List.flatMap_cons, List.append_assoc]

theorem writeBuffer_joined {words : List CString} (some : words ≠ []) :
    writeBuffer words = Option.some (joined words ++ [0, 0]) := by
  have size : (words.map List.length).sum + (words.length + 2 - 1) =
      (words.flatMap fun word => word ++ [blank]).length + 1 := by
    rw [length_flatMap_blank]
    omega
  have start : List.replicate ((words.flatMap fun word => word ++ [blank]).length + 1) (0 : Byte) =
      Buffer.overlay (List.replicate ((words.flatMap fun word => word ++ [blank]).length + 1) 0) 0 ([] ++ [0]) := by
    simp [Buffer.overlay, List.replicate_succ]
  have filled := fillWords_append words (List.replicate ((words.flatMap fun word => word ++ [blank]).length + 1) 0) []
    (by rw [List.nil_append, List.length_replicate])
  rw [← start, List.nil_append, Buffer.overlay_whole _ _ (by simp), List.length_nil] at filled
  simp only [writeBuffer]
  rw [size, filled, Option.bind_some, flatMap_blank some]
  have last : (joined words ++ [blank]).length - 1 = (joined words).length := by simp
  rw [last, Buffer.store, if_pos (by simp)]
  simp

end buffer

section written

variable {s : FlatFs} {x : BlockSector}

theorem bufferBytes_last (buffer : Nat → Byte) (m : Nat) :
    bufferBytes (Function.update buffer m 0) (m + 1) = bufferBytes buffer m ++ [0] := by
  rw [bufferBytes, List.range_succ, List.map_append, List.map_singleton, Function.update_self]
  congr 1
  apply List.map_congr_left
  intro i member
  exact Function.update_of_ne (Nat.ne_of_lt (List.mem_range.mp member)) _ _

theorem bufferBytes_take (data : List Byte) {m : Nat} (inside : m ≤ data.length) :
    bufferBytes (fun i => data.getD i 0) m = data.take m := by
  apply List.ext_getElem?
  intro i
  rw [bufferBytes, List.getElem?_map, List.getElem?_take]
  by_cases small : i < m
  · rw [List.getElem?_range small, Option.map_some, if_pos small, List.getD_eq_getElem?_getD,
      List.getElem?_eq_getElem (by omega), Option.getD_some]
  · rw [if_neg small, List.getElem?_eq_none (by rw [List.length_range]; omega), Option.map_none]

theorem OpenInode.written {buffer : Nat → Byte} {k o : Nat} {r : Int × FlatFs} {new : List BlockSector}
    (inode : OpenInode s x) (effect : WriteEffect s x buffer k o r new) : OpenInode r.2 x where
  fine := effect.took.ok
  file := effect.file
  listed := by rw [effect.handles.listed]; exact inode.listed
  foreign := by rw [effect.took.freeMapFile]; exact inode.foreign
  nodup := by rw [HandlesNodup, effect.handles.sectors]; exact inode.nodup

theorem OpenInode.tabled (inode : OpenInode s x) (entries : List FileTableEntry) :
    OpenInode { s with fileTable := entries } x ∧ contents { s with fileTable := entries } x = contents s x := by
  have rehandled : Rehandled s { s with fileTable := entries } :=
    ⟨rfl, fun _ => Or.inl rfl, fun _ => Or.inl rfl, fun _ _ => rfl⟩
  obtain ⟨file, -, same, -⟩ := rehandled.file inode.fine inode.file
  exact ⟨⟨(rehandled.ok inode.fine).1, file, inode.listed, inode.foreign, inode.nodup⟩, same⟩

theorem OpenInode.setFile (inode : OpenInode s x) (name : CString) (file : File) :
    OpenInode (FileSystem.setFile s name file) x ∧ contents (FileSystem.setFile s name file) x = contents s x :=
  inode.tabled _

theorem OpenInode.fsutilWrite (inode : OpenInode s x) {name : CString} {p : Nat} {deny : Bool}
    (found : getFileByFname s name = some ⟨x, p, deny⟩) {text : List Byte} (fits : p + text.length + 2 ≤ MAX_LENGTH)
    (can : CanWrite s x (p + (text.length + 2))) : ∃ u,
      FileSystem.fsutilWrite s name (fun i => (text ++ [0, 0]).getD i 0) (text ++ [0, 0]).length =
        (((text ++ [0, 0]).length : Int), u) ∧
      OpenInode u x ∧ getFileByFname u name = some ⟨x, (p + text.length : Nat), deny⟩ ∧
      contents u x = overwrite 0 (contents s x) p (text ++ [0, 0]) := by
  simp only [MAX_LENGTH] at fits
  have long : (text ++ [0, 0]).length = text.length + 2 := by simp
  rw [long]
  have size : offsetOf ((text.length + 2 : Nat) : Int) = ((text.length + 2 : Nat) : Int) :=
    offsetOf_eq (by omega) (by omega)
  have last : (((text.length + 2 : Nat) : Int) - 1).toNat = text.length + 1 := by omega
  have buffer : bufferBytes (Function.update (fun i => (text ++ [0, 0]).getD i 0) (text.length + 1) 0)
      (text.length + 2) = text ++ [0, 0] := by
    rw [bufferBytes_last, bufferBytes_take _ (by rw [long]; omega), List.take_append]
    simp
  obtain ⟨new, effect⟩ := inodeWriteAt_effect (o := p) inode.fine inode.file inode.listed inode.foreign
    (show 0 < text.length + 2 by omega) (by omega)
    (Function.update (fun i => (text ++ [0, 0]).getD i 0) (text.length + 1) 0)
  have done := effect.done.mpr can
  have contentsNext : contents (inodeWriteAt s x (Function.update (fun i => (text ++ [0, 0]).getD i 0) (text.length + 1) 0)
      (text.length + 2 : Nat) p).2 x = overwrite 0 (contents s x) p (text ++ [0, 0]) := by
    rcases effect.result with ⟨-, -, written⟩ | ⟨nothing, -⟩
    · rw [written, buffer]
    · omega
  have run : FileSystem.fsutilWrite s name (fun i => (text ++ [0, 0]).getD i 0) (text.length + 2 : Nat) =
      let r := inodeWriteAt s x (Function.update (fun i => (text ++ [0, 0]).getD i 0) (text.length + 1) 0)
        (text.length + 2 : Nat) p
      (r.1, FileSystem.setFile r.2 name ⟨x, p + (r.1 - 2), deny⟩) := by
    simp only [FileSystem.fsutilWrite, openNamed_held found, fileWrite, Fs.use_open inode.listed, size, last]
  rw [run]
  generalize inodeWriteAt s x (Function.update (fun i => (text ++ [0, 0]).getD i 0) (text.length + 1) 0)
    (text.length + 2 : Nat) p = r at *
  obtain ⟨next, same⟩ := (inode.written effect).setFile name ⟨x, p + (r.1 - 2), deny⟩
  have table : r.2.fileTable = s.fileTable := (congrArg Fs.fileTable effect.took.rest :)
  have present : getFileByFname r.2 name = some ⟨x, p, deny⟩ := by
    rw [getFileByFname, table]
    exact found
  refine ⟨FileSystem.setFile r.2 name ⟨x, p + (r.1 - 2), deny⟩, Prod.ext done rfl, next, ?_, same.trans contentsNext⟩
  have moved : (p : Int) + (((text.length + 2 : Nat) : Int) - 2) = ((p + text.length : Nat) : Int) := by omega
  rw [getFileByFname_setFile (by rw [present]; rfl), done, moved]

end written

section run

variable {σ : Type} [Store σ BlockSector Sector] [LawfulStore σ]

/-- The disk has enough space at each of the commands, the first of which writes at `p`. -/
def SpaceFor (x : BlockSector) (fname : CString) : Fs σ → Nat → List (List CString) → Prop
  | _, _, [] => True
  | s, p, words :: rest => p + (joined words).length + 2 ≤ MAX_LENGTH ∧
    CanWrite s.flat x (p + ((joined words).length + 2)) ∧
    ∀ r, writeCommand s (ascii "write" :: fname :: words) = some r →
      SpaceFor x fname r.2 (p + (joined words).length) rest

theorem writeCommand_flat (s : Fs σ) (args : List CString) :
    (writeCommand s args).map flatten = writeCommand s.flat args := by
  unfold writeCommand
  split
  · rw [Option.map_map]
    refine congrArg (fun f => Option.map f _) (funext fun buf => ?_)
    simp only [Function.comp, ← fsutilWrite_flat, flatten_fst, flatten_snd, flatten_mk]
  · rfl

theorem writeCommands_flat (s : Fs σ) (fname : CString) (texts : List (List CString)) :
    (writeCommands s fname texts).map Fs.flat = writeCommands s.flat fname texts := by
  induction texts generalizing s with
  | nil => rfl
  | cons words rest ih =>
    rw [writeCommands, writeCommands, ← writeCommand_flat]
    cases writeCommand s (ascii "write" :: fname :: words) with
    | none => rfl
    | some r => exact ih r.2

theorem SpaceFor.flat {x : BlockSector} {fname : CString} {s : Fs σ} {p : Nat} {texts : List (List CString)}
    (space : SpaceFor x fname s p texts) : SpaceFor x fname s.flat p texts := by
  induction texts generalizing s p with
  | nil => trivial
  | cons words rest ih =>
    obtain ⟨fits, can, next⟩ := space
    refine ⟨fits, can, fun r ran => ?_⟩
    rw [← writeCommand_flat, Option.map_eq_some_iff] at ran
    obtain ⟨q, done, rfl⟩ := ran
    exact ih (next q done)

end run

section concatenate

variable {s : FlatFs} {x : BlockSector} {name : CString} {deny : Bool}

theorem OpenInode.writeCommand (inode : OpenInode s x) {p : Nat} (found : getFileByFname s name = some ⟨x, p, deny⟩)
    {words : List CString} (some : words ≠ []) (fits : p + (joined words).length + 2 ≤ MAX_LENGTH)
    (can : CanWrite s x (p + ((joined words).length + 2))) : ∃ u,
      FileSystem.writeCommand s (ascii "write" :: name :: words) = Option.some (0, u) ∧ OpenInode u x ∧
      getFileByFname u name = Option.some ⟨x, (p + (joined words).length : Nat), deny⟩ ∧
      contents u x = overwrite 0 (contents s x) p (joined words ++ [0, 0]) := by
  obtain ⟨word, rest, rfl⟩ := List.exists_cons_of_ne_nil some
  obtain ⟨u, run, next, moved, written⟩ := inode.fsutilWrite found fits can
  refine ⟨u, ?_, next, moved, written⟩
  rw [FileSystem.writeCommand, writeBuffer_joined some, Option.map_some, run]
  simp only
  rw [if_neg (by omega)]

theorem writeCommands_overwrite (inode : OpenInode s x) {p : Nat}
    (found : getFileByFname s name = some ⟨x, p, deny⟩) {texts : List (List CString)} (some : texts ≠ [])
    (words : ∀ w ∈ texts, w ≠ []) (space : SpaceFor x name s p texts) : ∃ u,
      writeCommands s name texts = Option.some u ∧
      getFileByFname u name = Option.some ⟨x, (p + (texts.flatMap joined).length : Nat), deny⟩ ∧
      contents u x = overwrite 0 (contents s x) p (texts.flatMap joined ++ [0, 0]) := by
  induction texts generalizing s p with
  | nil => exact absurd rfl some
  | cons first rest ih =>
    obtain ⟨fits, can, later⟩ := space
    obtain ⟨t, run, next, moved, written⟩ := inode.writeCommand found (words first List.mem_cons_self) fits can
    rw [writeCommands, run, Option.bind_some, List.flatMap_cons, List.length_append]
    by_cases last : rest = []
    · subst last
      exact ⟨t, rfl, by simpa using moved, by simpa using written⟩
    · obtain ⟨u, ran, position, bytes⟩ := ih next moved last (fun w member => words w (List.mem_cons_of_mem _ member))
        (later _ run)
      refine ⟨u, ran, ?_, ?_⟩
      · rw [position, Nat.add_assoc]
      · rw [bytes, written, overwrite_overwrite _ _ _ _ _ _ (by simp), List.append_assoc]

theorem writeCommands_opened {t : FlatFs} {file : File} (opened : openNamed s name = (some file, t))
    (found : getFileByFname t name = some file) {texts : List (List CString)} (some : texts ≠ [])
    (words : ∀ w ∈ texts, w ≠ []) : writeCommands s name texts = writeCommands t name texts := by
  obtain ⟨first, rest, rfl⟩ := List.exists_cons_of_ne_nil some
  obtain ⟨word, more, rfl⟩ := List.exists_cons_of_ne_nil (words first List.mem_cons_self)
  simp only [writeCommands, FileSystem.writeCommand, FileSystem.fsutilWrite, opened, openNamed_held found]

end concatenate

/-- Texts that are written one after the other stand one behind the other in the file, and two NULs behind them; the
buffers are indexed only where they have room. -/
theorem writeCommands_concatenate (s : Fs BufferCache) {t : Fs BufferCache} {name : CString} {x : BlockSector} {p : Nat}
    {deny : Bool} (opened : openNamed s name = (some ⟨x, p, deny⟩, t))
    (found : getFileByFname t name = some ⟨x, p, deny⟩) (inode : OpenInode t.flat x) {texts : List (List CString)}
    (some : texts ≠ []) (words : ∀ w ∈ texts, w ≠ []) (space : SpaceFor x name t p texts) : ∃ u,
      writeCommands s name texts = Option.some u ∧
      getFileByFname u name = Option.some ⟨x, (p + (texts.flatMap joined).length : Nat), deny⟩ ∧
      slice (contents u.flat x) p ((texts.flatMap joined).length + 2) = texts.flatMap joined ++ [0, 0] ∧
      (∀ q < p, (contents u.flat x)[q]? = Option.some ((contents t.flat x).getD q 0)) ∧
      (contents u.flat x).drop (p + ((texts.flatMap joined).length + 2)) =
        (contents t.flat x).drop (p + ((texts.flatMap joined).length + 2)) := by
  obtain ⟨v, run, position, bytes⟩ := writeCommands_overwrite inode found some words space.flat
  have openedFlat : openNamed s.flat name = (Option.some ⟨x, p, deny⟩, t.flat) := by
    rw [← openNamed_flat, opened, flatten_mk]
  rw [← writeCommands_opened openedFlat found some words, ← writeCommands_flat, Option.map_eq_some_iff] at run
  obtain ⟨u, ran, rfl⟩ := run
  have long : (texts.flatMap joined ++ [0, 0]).length = (texts.flatMap joined).length + 2 := by simp
  refine ⟨u, ran, position, ?_, fun q before => ?_, ?_⟩
  · rw [bytes, ← long]
    exact slice_overwrite _ _ _ _
  · rw [bytes]
    exact overwrite_before _ _ _ before
  · rw [bytes, ← long]
    exact drop_overwrite _ _ _ _

theorem Volume.OpenedNamed.inode {s t : FlatFs} {n : Nat} {name : CString} {x : BlockSector}
    (opened : Volume.OpenedNamed s t n name x) : OpenInode t x where
  fine := opened.volume.mounted.dir.fine
  file := (opened.volume.file x opened.listed).1
  listed := opened.held
  foreign := opened.volume.foreign (List.mem_cons_of_mem _ opened.listed)
  nodup := opened.volume.mounted.handle.nodup

theorem writeCommands_concatenate_formatted : ∃ x u,
    writeCommands (filesysCreate (formatted 80) [97] 0 false).2 [97] [[[104], [105]]] = some u ∧
      getFileByFname u [97] = some ⟨x, 3, false⟩ ∧ slice (contents u.flat x) 0 5 = [104, 32, 105, 0, 0] := by
  have general : ∀ (before : FlatFs) (s : Fs BufferCache) (m : Nat) (x : BlockSector),
      CreatedEmpty before s.flat m [97] x → (freeSectors s.flat.freeMap).length = 4 → before.fileTable = [] →
      ∃ u, writeCommands s [97] [[[104], [105]]] = some u ∧ getFileByFname u [97] = some ⟨x, 3, false⟩ ∧
        slice (contents u.flat x) 0 5 = [104, 32, 105, 0, 0] := by
    intro before s m x created free table
    have absent : getFileByFname s.flat [97] = none := by
      rw [getFileByFname, created.fileTable, table]
      rfl
    obtain ⟨v, opened⟩ := created.volume.opensNamed absent (by decide) created.bound
    have run := opened.run
    rw [← openNamed_flat] at run
    obtain ⟨first, rfl⟩ := Prod.mk.inj run
    have empty := created.empty.rehandled created.volume.mounted.dir.fine
      (created.volume.file x (mem_rootFiles.mpr ⟨_, created.bound⟩)).1 opened.rehandled
    have deny := opened.volume.writable opened.listed opened.held
    have needs := empty.writeNeeds deny (k := 5) (by decide) (by decide)
    have one : (5 + 511) / 512 + indexSectors ((5 + 511) / 512) = 1 := by decide
    rw [one] at needs
    rw [← opened.rehandled.bits] at free
    have can : CanWrite (openNamed s [97]).2.flat x (0 + 5) := ⟨deny, Or.inr ⟨by decide, by omega⟩⟩
    have space : SpaceFor x [97] (openNamed s [97]).2 0 [[[104], [105]]] := ⟨by decide, can, fun _ _ => trivial⟩
    obtain ⟨u, ran, position, bytes, -⟩ := writeCommands_concatenate s (p := 0) (Prod.ext first rfl) opened.table
      opened.inode (List.cons_ne_nil _ _) (by decide) space
    exact ⟨u, ran, position, bytes⟩
  obtain ⟨m, x, created, free, table⟩ := formatted_createsEmpty
  obtain ⟨u, done⟩ := general _ _ m x created free table
  exact ⟨x, u, done⟩

end ShellOs.FileSystem
