import ShellOs.FileSystem.TableFrame
import ShellOs.FileSystem.ShellRun
import ShellOs.FileSystem.Positions

/-! The positions of the open files over runs of the shell's commands, whatever the disk holds. A write takes two off
the position, also if it has written nothing. -/

namespace ShellOs.FileSystem
open Lib

def InRange (pos : Int) : Prop := 0 ≤ pos ∧ pos < 2 ^ 31

def CursorsOk {σ : Type} (s : Fs σ) : Prop := ∀ entry ∈ s.fileTable, InRange entry.f.pos

section table

variable {σ : Type} {s t : Fs σ} {name : CString} {f : File}

theorem inRange_zero : InRange 0 := ⟨Int.le_refl 0, by decide⟩

theorem CursorsOk.congr (ok : CursorsOk s) (same : t.fileTable = s.fileTable) : CursorsOk t := by
  rw [CursorsOk, same]
  exact ok

theorem CursorsOk.found (ok : CursorsOk s) (found : getFileByFname s name = some f) : InRange f.pos := by
  rw [getFileByFname, Option.map_eq_some_iff] at found
  obtain ⟨entry, member, rfl⟩ := found
  exact ok entry (List.mem_of_find?_eq_some member)

theorem CursorsOk.added (ok : CursorsOk s) (range : InRange f.pos) (name : CString) : CursorsOk (addToFileTable s f name) := by
  unfold addToFileTable
  split
  · exact ok
  · intro entry member
    rcases List.mem_append.mp member with old | new
    · exact ok entry old
    · rw [List.mem_singleton.mp new]
      exact range

theorem CursorsOk.set (ok : CursorsOk s) (range : InRange f.pos) (name : CString) : CursorsOk (setFile s name f) := by
  intro entry member
  obtain ⟨old, inTable, rfl⟩ := List.mem_map.mp member
  split
  · exact range
  · exact ok old inTable

variable [Store σ BlockSector Sector] [LawfulStore σ]

theorem CursorsOk.removed (ok : CursorsOk s) (name : CString) : CursorsOk (removeFromFileTable s name).2 := by
  unfold removeFromFileTable
  split
  · exact ok
  next file _ =>
    have closed : CursorsOk (fileClose s file) := ok.congr (fileClose_fileTable s file)
    exact fun entry member => closed entry (List.mem_of_mem_eraseP member)

omit [LawfulStore σ] [Store σ BlockSector Sector] in
theorem openFound_start {r : Option BlockSector × Fs σ} (found : (openFound r).1 = some f) : f.pos = 0 := by
  unfold openFound at found
  split at found
  · cases found
  · simp only at found
    split at found
    · cases found
    · cases found
      rfl

theorem filesysOpen_start (found : (filesysOpen s name).1 = some f) : f.pos = 0 := by
  unfold filesysOpen at found
  split at found
  · cases found
  · simp only at found
    split at found <;> exact openFound_start found

theorem CursorsOk.opens (ok : CursorsOk s) (name : CString) :
    CursorsOk (openNamed s name).2 ∧ ∀ f, (openNamed s name).1 = some f → InRange f.pos := by
  have opened : CursorsOk (filesysOpen s name).2 := ok.congr (filesysOpen_fileTable s name)
  unfold openNamed
  split
  next file found =>
    refine ⟨ok, ?_⟩
    rintro f ⟨⟩
    exact ok.found found
  next =>
    simp only
    split
    next => exact ⟨opened, fun f none => by cases none⟩
    next file found =>
      have zero : InRange file.pos := by
        rw [filesysOpen_start found]
        exact inRange_zero
      refine ⟨opened.added zero name, ?_⟩
      rintro f ⟨⟩
      exact zero

end table

section transfer

variable {σ : Type} [Store σ BlockSector Sector] [LawfulStore σ]

omit [LawfulStore σ] in
theorem inodeLength_lt (s : Fs σ) (inode : BlockSector) : s.inodeLength inode < 2 ^ 31 := BitVec.toInt_lt

theorem fileRead_range (s : Fs σ) {file : File} (range : InRange file.pos) (size : Int) :
    InRange (fileRead s file size).2.1.pos := by
  obtain ⟨low, high⟩ := range
  have most := inodeReadAt_length (s.use file.inode) file.inode size file.pos
  have length := inodeLength_lt (s.use file.inode) file.inode
  simp only [fileRead, InRange]
  omega

omit [LawfulStore σ] in
theorem inodeWriteLoop_range (s : Fs σ) (inode : BlockSector) (buffer : Nat → Byte) (size offset bytesWritten : Int) :
    bytesWritten ≤ (inodeWriteLoop s inode buffer size offset bytesWritten).1 ∧
      (bytesWritten < (inodeWriteLoop s inode buffer size offset bytesWritten).1 →
        offset + ((inodeWriteLoop s inode buffer size offset bytesWritten).1 - bytesWritten) < 2 ^ 31) := by
  fun_induction inodeWriteLoop s inode buffer size offset bytesWritten with
  | case1 s size offset bytesWritten more sectorIdx chunk stop => exact ⟨Int.le_refl _, fun less => by omega⟩
  | case2 s size offset bytesWritten more sectorIdx sectorOfs chunk go ih =>
    have length := inodeLength_lt s inode
    have inside : chunk ≤ s.inodeLength inode - offset := by
      simp only [chunk, chunkSize]
      split <;> split <;> omega
    omega
  | case3 s size offset bytesWritten none => exact ⟨Int.le_refl _, fun less => by omega⟩

omit [LawfulStore σ] in
theorem inodeWriteDepth_range (depth : Nat) (s : Fs σ) (inode : BlockSector) (buffer : Nat → Byte) (size offset : Int) :
    0 ≤ (inodeWriteDepth depth s inode buffer size offset).1 ∧
      (0 < (inodeWriteDepth depth s inode buffer size offset).1 →
        offset + (inodeWriteDepth depth s inode buffer size offset).1 < 2 ^ 31) := by
  have loop : ∀ t : Fs σ, 0 ≤ (inodeWriteLoop t inode buffer size offset 0).1 ∧
      (0 < (inodeWriteLoop t inode buffer size offset 0).1 →
        offset + (inodeWriteLoop t inode buffer size offset 0).1 < 2 ^ 31) := by
    intro t
    have range := inodeWriteLoop_range t inode buffer size offset 0
    simp only [sub_zero] at range
    exact range
  cases depth with
  | zero => exact ⟨Int.le_refl 0, fun less => absurd less (Int.lt_irrefl 0)⟩
  | succ depth =>
    simp only [inodeWriteDepth, inodeWriteWith]
    split
    · exact ⟨Int.le_refl 0, fun less => absurd less (Int.lt_irrefl 0)⟩
    · split
      · split
        · exact ⟨Int.le_refl 0, fun less => absurd less (Int.lt_irrefl 0)⟩
        · exact loop _
      · exact loop _

omit [LawfulStore σ] in
theorem fileWrite_nonneg (s : Fs σ) (file : File) (buffer : Nat → Byte) (size : Int) :
    0 ≤ (fileWrite s file buffer size).1 :=
  (inodeWriteDepth_range ((s.use file.inode).freeMap.bitCnt + 2) (s.use file.inode) file.inode
    (Function.update buffer (size - 1).toNat 0) size file.pos).1

omit [LawfulStore σ] in
theorem fileWrite_range (s : Fs σ) {file : File} (range : InRange file.pos) (buffer : Nat → Byte) (size : Int)
    (lands : 2 ≤ file.pos + (fileWrite s file buffer size).1) : InRange (fileWrite s file buffer size).2.1.pos := by
  obtain ⟨low, high⟩ := range
  have some := fileWrite_nonneg s file buffer size
  obtain ⟨-, inside⟩ := inodeWriteDepth_range ((s.use file.inode).freeMap.bitCnt + 2) (s.use file.inode) file.inode
    (Function.update buffer (size - 1).toNat 0) size file.pos
  change 0 < (fileWrite s file buffer size).1 → _ + (fileWrite s file buffer size).1 < _ at inside
  have moved : (fileWrite s file buffer size).2.1.pos = file.pos + ((fileWrite s file buffer size).1 - 2) := rfl
  rw [InRange, moved]
  omega

end transfer

section commands

variable {σ : Type} [Store σ BlockSector Sector] [LawfulStore σ] {s : Fs σ} {name : CString}

/-- A write of so many bytes to the file under a name ends two bytes into it or further: the file stands there already,
or the bytes take it there and there is room for them. -/
def Lands (s : Fs σ) (name : CString) (size : Int) : Prop := ∀ f, (openNamed s name).1 = some f → f.pos < 2 →
  2 ≤ f.pos + size ∧ f.pos + size < 2 ^ 31 ∧ OpenInode (openNamed s name).2.flat f.inode ∧
    CanWrite (openNamed s name).2.flat f.inode (f.pos + size).toNat

theorem fileWrite_all {t : Fs σ} {f : File} (low : 0 ≤ f.pos) {size : Int} (some : 0 < size)
    (small : f.pos + size < 2 ^ 31) (inode : OpenInode t.flat f.inode)
    (can : CanWrite t.flat f.inode (f.pos + size).toNat) (buffer : Nat → Byte) :
    (fileWrite t f buffer size).1 = size := by
  obtain ⟨o, pos⟩ := Int.eq_ofNat_of_zero_le low
  obtain ⟨n, count⟩ := Int.eq_ofNat_of_zero_le some.le
  have flat : (fileWrite t f buffer size).1 = (fileWrite t.flat f buffer size).1 :=
    (congrArg Prod.fst (fileWrite_flat t f buffer size)).symm
  rw [flat]
  simp only [fileWrite, Fs.use_open inode.listed]
  rw [pos, count] at small can ⊢
  rw [count] at some
  obtain ⟨new, effect⟩ := inodeWriteAt_effect inode.fine inode.file inode.listed inode.foreign (n := n) (o := o)
    (by omega) (by omega) (Function.update buffer ((n : Int) - 1).toNat 0)
  exact effect.done.mpr can

theorem fileWrite_range_iff {t : Fs σ} {f : File} (range : InRange f.pos) {size : Int} (some : 0 < size)
    (few : size < 2 ^ 31) (inode : OpenInode t.flat f.inode) (buffer : Nat → Byte) :
    InRange (fileWrite t f buffer size).2.1.pos ↔ 2 ≤ f.pos ∨
      2 ≤ f.pos + size ∧ f.pos + size < 2 ^ 31 ∧ CanWrite t.flat f.inode (f.pos + size).toNat := by
  obtain ⟨o, pos⟩ := Int.eq_ofNat_of_zero_le range.1
  obtain ⟨n, count⟩ := Int.eq_ofNat_of_zero_le some.le
  have moved : (fileWrite t f buffer size).2.1.pos = f.pos + ((fileWrite t f buffer size).1 - 2) := rfl
  have flat : (fileWrite t f buffer size).1 = (fileWrite t.flat f buffer size).1 :=
    (congrArg Prod.fst (fileWrite_flat t f buffer size)).symm
  constructor
  · intro kept
    by_contra short
    obtain ⟨near, stops⟩ := not_or.mp short
    have none : (fileWrite t f buffer size).1 = 0 ∨ (fileWrite t f buffer size).1 = size ∧ f.pos + size < 2 := by
      rw [flat]
      simp only [fileWrite, Fs.use_open inode.listed]
      rw [pos] at near
      rw [count] at few some
      rw [pos, count] at stops ⊢
      by_cases small : (o : Int) + n < 2 ^ 31
      · obtain ⟨new, effect⟩ := inodeWriteAt_effect inode.fine inode.file inode.listed inode.foreign (n := n) (o := o)
          (by omega) (by omega) (Function.update buffer ((n : Int) - 1).toNat 0)
        rcases effect.result with ⟨all, -⟩ | ⟨none, -⟩
        · by_cases long : 2 ≤ (o : Int) + n
          · exact absurd ⟨long, small, effect.done.mp all⟩ stops
          · exact Or.inr ⟨all, Int.not_le.mp long⟩
        · exact Or.inl none
      · left
        rw [inodeWriteAt_overflow inode.nodup inode.file (by omega) (by omega) (by omega)]
    rw [moved] at kept
    obtain ⟨low, -⟩ := kept
    omega
  · intro lands
    apply fileWrite_range _ range
    rcases lands with far | ⟨long, small, can⟩
    · exact Int.le_trans far (Int.le_add_of_nonneg_right (fileWrite_nonneg t f buffer size))
    · rw [fileWrite_all range.1 some small inode can]
      exact long

theorem CursorsOk.writes (ok : CursorsOk s) (buffer : Nat → Byte) {size : Int} (lands : Lands s name (offsetOf size)) :
    CursorsOk (fsutilWrite s name buffer size).2 := by
  obtain ⟨opened, range⟩ := ok.opens name
  unfold fsutilWrite
  simp only
  split
  · exact opened
  next f found =>
    have wrote : CursorsOk (fileWrite (openNamed s name).2 f buffer (offsetOf size)).2.2 :=
      opened.congr (fileWrite_fileTable _ f buffer _)
    apply wrote.set
    apply fileWrite_range _ (range f found)
    have low := (range f found).1
    by_cases far : 2 ≤ f.pos
    · exact Int.le_trans far (Int.le_add_of_nonneg_right (fileWrite_nonneg _ f buffer _))
    · obtain ⟨long, small, inode, can⟩ := lands f found (Int.not_le.mp far)
      rw [fileWrite_all low (by omega) small inode can]
      exact long

theorem CursorsOk.reads (ok : CursorsOk s) (name : CString) (size : Int) :
    CursorsOk (fsutilRead s name size).2 := by
  obtain ⟨opened, range⟩ := ok.opens name
  unfold fsutilRead
  simp only
  split
  · exact opened
  next f found =>
    have read : CursorsOk (fileRead (openNamed s name).2 f (offsetOf size)).2.2 :=
      opened.congr (fileRead_fileTable _ f _)
    exact read.set (fileRead_range _ (range f found) _) name

theorem CursorsOk.sizes (ok : CursorsOk s) (name : CString) : CursorsOk (fsutilSize s name).2 := by
  obtain ⟨opened, range⟩ := ok.opens name
  unfold fsutilSize
  simp only
  split
  · exact opened
  next f found => exact (opened.congr (Fs.use_fileTable _ f.inode)).set (range f found) name

theorem CursorsOk.seeks (ok : CursorsOk s) (name : CString) {offset : Int} (range : InRange offset) :
    CursorsOk (fsutilSeek s name offset).2 := by
  obtain ⟨opened, -⟩ := ok.opens name
  unfold fsutilSeek
  simp only
  split
  · exact opened
  · exact opened.set range name

theorem CursorsOk.creates (ok : CursorsOk s) (name : CString) (size : Int) :
    CursorsOk (fsutilCreate s name size).2 := by
  unfold fsutilCreate
  split
  · exact ok
  · exact ok.congr (filesysCreate_fileTable s name _)

theorem CursorsOk.removes (ok : CursorsOk s) (name : CString) : CursorsOk (fsutilRm s name).2 :=
  (ok.removed name).congr (filesysRemove_fileTable _ name)

theorem CursorsOk.dumps {f : File} (ok : CursorsOk s) (size : Int) (dumped : List (Int × List Byte)) :
    CursorsOk (catLoop s f size dumped).2.2 := by
  fun_induction catLoop s f size dumped with
  | case1 s file dumped r done => exact ok.congr (fileRead_fileTable s file size)
  | case2 s file dumped r more ih => exact ih (ok.congr (fileRead_fileTable s file size))

theorem CursorsOk.cats (ok : CursorsOk s) (name : CString) : CursorsOk (fsutilCat s name).2 := by
  obtain ⟨opened, range⟩ := ok.opens name
  unfold fsutilCat
  simp only
  split
  · exact opened
  next f found =>
    have read := opened.dumps (f := fileSeek f 0) (fileLength (openNamed s name).2 f) []
    have done := fun file => read.set (f := fileSeek file f.pos) (range f found) name
    split
    · exact (done _).removed name
    · exact done _

theorem CursorsOk.copiesOut (ok : CursorsOk s) (name : CString) (creates : Bool) :
    CursorsOk (copyOut s name creates).2.2 := by
  obtain ⟨opened, range⟩ := (ok.sizes name).opens name
  unfold copyOut
  simp only
  split
  · exact opened
  next f found =>
    have read := ((opened.set (f := fileSeek f 0) inRange_zero name).reads name
      (fsutilSize s name).1).set (range f found) name
    split <;> exact read

theorem fsutilWrite_cursor {t : Fs σ} {f : File} (run : openNamed s name = (some f, t))
    (found : getFileByFname t name = some f) (buffer : Nat → Byte) (size : Int) :
    ∃ entry ∈ (fsutilWrite s name buffer size).2.fileTable,
      entry.f.pos = f.pos + ((fileWrite t f buffer (offsetOf size)).1 - 2) := by
  rw [getFileByFname, Option.map_eq_some_iff] at found
  obtain ⟨entry, first, -⟩ := found
  have named : entry.fname = name := by simpa using List.find?_some first
  have table : (fileWrite t f buffer (offsetOf size)).2.2.fileTable = t.fileTable :=
    fileWrite_fileTable t f buffer _
  simp only [fsutilWrite, run, setFile, table]
  refine ⟨_, List.mem_map_of_mem (List.mem_of_find?_eq_some first), ?_⟩
  rw [if_pos named]
  rfl

def CopyLands (s : Fs σ) (name : CString) (bytes : List Byte) : Prop :=
  let created := fsutilCreate s name (importSize s bytes)
  created.1 = true → Lands created.2 name (offsetOf (bytes.length + 1))

theorem CursorsOk.copiesIn (ok : CursorsOk s) {host : Option (List Byte)}
    (lands : ∀ bytes, host = some bytes → CopyLands s name bytes) : CursorsOk (copyIn s name host).2 := by
  cases host with
  | none => exact ok
  | some bytes =>
    have created := ok.creates name (importSize s bytes)
    rw [copyIn_some]
    simp only
    split
    · exact created
    next made => exact created.writes _ (lands bytes rfl (Bool.eq_true_of_not_eq_false made))

end commands

section loops

variable {σ : Type} [Store σ BlockSector Sector] [LawfulStore σ] {s : Fs σ} {β : Type}
  {body : β → Fs σ → CString → β × Fs σ}

theorem CursorsOk.scans (keeps : ∀ acc (t : Fs σ) name, CursorsOk t → CursorsOk (body acc t name).2) (calls : Nat)
    (acc : β) (dir : Dir) (ok : CursorsOk s) : CursorsOk (whileReaddir body calls acc s dir).2.2 := by
  induction calls generalizing acc s dir with
  | zero => exact ok
  | succ calls ih =>
    have read : CursorsOk (dirReaddir s dir).2.2 := ok.congr (dirReaddir_fileTable s dir)
    unfold whileReaddir
    simp only
    split
    · exact read
    · exact ih _ _ (keeps _ _ _ read)

omit [LawfulStore σ] in
theorem CursorsOk.root (ok : CursorsOk s) : CursorsOk (dirOpenRoot s).2 := ok.congr (dirOpenRoot_fileTable s)

theorem CursorsOk.closes {t : Fs σ} (ok : CursorsOk t) (dir : Dir) : CursorsOk (dirClose t dir) :=
  ok.congr (dirClose_fileTable t dir)

theorem CursorsOk.loops (keeps : ∀ acc (t : Fs σ) name, CursorsOk t → CursorsOk (body acc t name).2) (acc : β)
    (ok : CursorsOk s) : CursorsOk (forRootNames body acc s).2 :=
  (CursorsOk.scans keeps _ acc _ ok.root).closes _

theorem CursorsOk.findsIn (pattern : CString) (found : Option (List CString)) (t : Fs σ) (name : CString)
    (ok : CursorsOk t) : CursorsOk (findFileStep pattern found t name).2 := by
  have opened : CursorsOk (filesysOpen t name).2 := ok.congr (filesysOpen_fileTable t name)
  unfold findFileStep
  cases found with
  | none => exact ok
  | some names =>
    simp only
    split
    · exact opened
    next file this =>
      have range : InRange file.pos := by
        rw [filesysOpen_start this]
        exact inRange_zero
      have sized := (opened.added range name).sizes name
      apply CursorsOk.removed
      exact sized.congr (fileRead_fileTable _ _ _)

theorem CursorsOk.measures (counts : Nat × Nat) (t : Fs σ) (name : CString) (ok : CursorsOk t) :
    CursorsOk (fragmentationStep counts t name).2 := by
  have opened : CursorsOk (filesysOpen t name).2 := ok.congr (filesysOpen_fileTable t name)
  unfold fragmentationStep
  simp only
  split
  · exact opened
  · split
    · apply CursorsOk.congr _ (fileClose_fileTable _ _)
      exact opened.congr (blind_fileTable.getInodeDataSectors _ _)
    · exact opened.congr (fileClose_fileTable _ _)

theorem CursorsOk.recoversHidden (files : List HostFile) (t : Fs σ) (name : CString) (ok : CursorsOk t) :
    CursorsOk (recoverHidden files t name).2 := by
  have opened : CursorsOk (filesysOpen t name).2 := ok.congr (filesysOpen_fileTable t name)
  unfold recoverHidden
  simp only
  split
  · exact opened
  · simp only [recoverPastEnd]
    apply CursorsOk.congr _ (fileClose_fileTable _ _)
    apply CursorsOk.congr _ (blind_fileTable.pastEndLoop _ _ _ _ _ _ _)
    exact opened.congr (blind_fileTable.getInodeDataSectors _ _)

theorem recoverInode_fileTable (dir : Dir) (s : Fs σ) (i : Nat) : (recoverInode dir s i).fileTable = s.fileTable := by
  have added := fun name sector => blind_fileTable.dirAdd Fs.use_fileTable (s.bufferCacheRead (BitVec.ofNat 32 i)).2 dir name sector
  unfold recoverInode
  split
  · rfl
  · simp only
    split
    · split <;> exact added _ _
    · rfl

theorem CursorsOk.recoversInodes (ok : CursorsOk s) : CursorsOk (recoverInodes s) := by
  have loop : ∀ (dir : Dir) (sectors : List Nat) (t : Fs σ),
      (sectors.foldl (recoverInode dir) t).fileTable = t.fileTable := by
    intro dir sectors
    induction sectors with
    | nil => exact fun _ => rfl
    | cons i rest ih => exact fun t => (ih _).trans (recoverInode_fileTable dir t i)
  apply CursorsOk.closes
  exact ok.root.congr (loop _ _ _)

theorem CursorsOk.backsUp (stale : Nat → CString) (dir : Dir) (files : List FileData) (t : Fs σ) (name : CString)
    (ok : CursorsOk t) : CursorsOk (backUp stale dir files t name).2 := by
  have looked : CursorsOk (dirLookup t dir name).2 := ok.congr (dirLookup_fileTable t dir name)
  unfold backUp
  simp only
  split
  · exact looked
  · split
    · exact looked.congr (inodeClose_fileTable _ _)
    · apply CursorsOk.removes
      apply CursorsOk.congr _ (inodeClose_fileTable _ _)
      exact looked.congr (blind_fileTable.inodeReadAt _ _ _ _)

def RebuildLands : List FileData → Fs σ → Prop
  | [], _ => True
  | file :: rest, s =>
    let created := fsutilCreate s file.name file.size
    let written := fsutilWrite created.2 file.name (fun i => file.data.getD i 0) file.size
    created.1 = true → Lands created.2 file.name (offsetOf file.size) ∧ RebuildLands rest written.2

theorem CursorsOk.rebuilds (files : List FileData) (ok : CursorsOk s) (lands : RebuildLands files s) :
    CursorsOk (rebuild files s).2 := by
  induction files generalizing s with
  | nil => exact ok
  | cons file rest ih =>
    have created := ok.creates file.name file.size
    unfold rebuild
    simp only
    split
    next made =>
      obtain ⟨first, later⟩ := lands made
      have written := created.writes (fun i => file.data.getD i 0) first
      split
      · exact written
      · exact ih written later
    next => exact created

end loops

section runs

variable {σ : Type} [Store σ BlockSector Sector] [LawfulStore σ]

def WritesLand (s : Fs σ) : ShellOp → Prop
  | .write name words => ∀ buf, writeBuffer words = some buf → Lands s name (offsetOf buf.length)
  | .seek _ offset => InRange offset
  | .copyIn name host => ∀ bytes, host = some bytes → CopyLands s name bytes
  | .defragment stale =>
    let dir := dirOpenRoot s
    let r := whileReaddir (backUp stale dir.1) (readdirCalls dir.2 dir.1) [] dir.2 dir.1
    RebuildLands r.1 (dirClose r.2.2 r.2.1)
  | _ => True

theorem CursorsOk.step {s : Fs σ} (ok : CursorsOk s) {op : ShellOp} (land : WritesLand s op) :
    CursorsOk (op.step s) := by
  cases op with
  | ls => exact CursorsOk.loops (fun _ _ _ ok => ok) [] ok
  | cat name => exact ok.cats name
  | rm name => exact ok.removes name
  | create name bytes => exact ok.creates name bytes
  | write name words =>
    simp only [ShellOp.step]
    cases words with
    | nil => exact ok
    | cons word rest =>
      simp only [writeCommand]
      cases buffer : writeBuffer (word :: rest) with
      | none => exact ok
      | some buf => exact ok.writes _ (land buf buffer)
  | findFile pattern => exact CursorsOk.loops (CursorsOk.findsIn pattern) (some []) ok
  | read name bytes => exact ok.reads name bytes
  | copyIn name host => exact ok.copiesIn land
  | copyOut name creates => exact ok.copiesOut name creates
  | size name => exact ok.sizes name
  | seek name offset => exact ok.seeks name land
  | freespace => exact ok
  | fragmentationDegree fileName =>
    apply CursorsOk.closes
    exact CursorsOk.scans CursorsOk.measures _ _ _ (CursorsOk.measures (0, 0) _ fileName ok.root)
  | defragment stale =>
    exact CursorsOk.rebuilds _ ((CursorsOk.scans (CursorsOk.backsUp stale _) _ _ _ ok.root).closes _) land
  | recover flag =>
    simp only [ShellOp.step, FileSystem.recover]
    split
    · exact ok.recoversInodes
    · split
      · exact ok.congr (blind_fileTable.recoverBlocks s)
      · split
        · exact CursorsOk.loops CursorsOk.recoversHidden [] ok
        · exact ok

end runs

/-- In a run in which no write stops short at the very start of a file, no open file ever has a negative position. -/
theorem positions_valid (cache : BufferCache) (size : BlockSector) (format : Bool) {s : Fs BufferCache}
    (run : Run WritesLand ShellOp.step (filesysInit cache size format) s) : ∀ entry ∈ s.fileTable, 0 ≤ entry.f.pos := by
  have start : CursorsOk (filesysInit cache size format) := by
    intro entry member
    rw [filesysInit_fileTable] at member
    cases member
  have ok := run.invariant CursorsOk start fun _ _ ok land => ok.step land
  exact fun entry member => (ok entry member).1

theorem ShellOk.opensCreated {s : FlatFs} {name : CString} (ok : ShellOk s) (flat : Flat name) {size : Nat}
    (small : size < 2 ^ 31) (made : (filesysCreate s name size false).1 = true) : ∃ x t,
    openNamed (filesysCreate s name size false).2 name = (some (fileOpen x), t) ∧ OpenInode t x ∧ CanWrite t x size ∧
      getFileByFname t name = some (fileOpen x) := by
  obtain ⟨created, -⟩ := ok.created flat.proper flat.plain.2.1 flat.plain.2.2 size
  obtain ⟨x, here, can⟩ := Positioned.target_created ok flat small made
  obtain ⟨t, run, reached⟩ := created.openNamed_target flat
  have found := reached.found _ here
  rw [here] at run
  exact ⟨x, t, run, (reached.ok.inode found).1, reached.can _ _ here can, found⟩

theorem positions_valid_filled :
    let s := ShellOp.step (ShellOp.step (formatted 80) (ShellOp.create [97] 512))
      (ShellOp.write [97] [List.replicate 510 66])
    ∀ entry ∈ s.fileTable, 0 ≤ entry.f.pos := by
  have lands : ∀ t : Fs BufferCache, Fresh 80 t.flat → (filesysCreate t [97] (512 : Nat) false).1 = true →
      WritesLand (ShellOp.step t (ShellOp.create [97] 512)) (ShellOp.write [97] [List.replicate 510 66]) := by
    intro t fresh made buf buffer f here low
    have one : ∀ word : CString, joined [word] = word := by simp [joined]
    have size : buf.length = 512 := by
      rw [writeBuffer_joined (List.cons_ne_nil _ _), Option.some.injEq, one] at buffer
      rw [← buffer, List.length_append, List.length_replicate]
      rfl
    have created : (ShellOp.step t (ShellOp.create [97] 512)).flat =
        (filesysCreate t.flat [97] (512 : Nat) false).2 := by
      rw [ShellOp.step_flat, ShellOp.step, fsutilCreate, show offsetOf 512 = (512 : Nat) by decide]
      rfl
    have made : (filesysCreate t.flat [97] (512 : Nat) false).1 = true := by
      rw [← filesysCreate_flat]
      exact made
    obtain ⟨x, u, run, inode, can, found⟩ := fresh.positioned.ok.opensCreated fileName_a.toFlat (by decide) made
    have same := openNamed_flat (ShellOp.step t (ShellOp.create [97] 512)) [97]
    rw [created, run] at same
    have file : f = fileOpen x := Option.some.inj (here.symm.trans (congrArg Prod.fst same))
    have state : (openNamed (ShellOp.step t (ShellOp.create [97] 512)) [97]).2.flat = u := congrArg Prod.snd same
    rw [file, state, size, show offsetOf ((512 : Nat) : Int) = 512 by decide]
    have start : (fileOpen x).pos = 0 := rfl
    exact ⟨by rw [start]; decide, by rw [start]; decide, inode, can⟩
  have made := formatted_makesA (show SizeOk (512 : Nat) by decide) (by decide)
  have run : Run WritesLand ShellOp.step (formatted 80) (ShellOp.step (ShellOp.step (formatted 80)
      (ShellOp.create [97] 512)) (ShellOp.write [97] [List.replicate 510 66])) :=
    (Run.start.next (ShellOp.create [97] 512) trivial).next (ShellOp.write [97] [List.replicate 510 66])
      (lands _ (formatted_fresh (by decide +kernel)) made)
  rw [formatted] at run ⊢
  exact positions_valid (blankDisk 80) 80 true run

/-- An empty host file is copied in: its file stands at -1. -/
theorem positions_negative_empty :
    let s := ShellOp.step (formatted 80) (ShellOp.copyIn [97] (some []))
    ∃ entry ∈ s.fileTable, entry.f.pos = -1 := by
  have general : ∀ t : Fs BufferCache, Fresh 80 t.flat → numFreeSectors t = 5 →
      (filesysCreate t [97] (1 : Nat) false).1 = true →
        ∃ entry ∈ (ShellOp.step t (ShellOp.copyIn [97] (some []))).fileTable, entry.f.pos = -1 := by
    intro t fresh free made
    have table : (ShellOp.step t (ShellOp.copyIn [97] (some []))).fileTable =
        (copyIn t.flat [97] (some [])).2.fileTable := by
      rw [← copyIn_flat]
      rfl
    have made : (filesysCreate t.flat [97] (1 : Nat) false).1 = true := by
      rw [← filesysCreate_flat]
      exact made
    have free : numFreeSectors t.flat = 5 := free
    have size : importSize t.flat [] = (1 : Nat) := by
      rw [importSize_eq fresh.mounted (by rw [free]; decide), free]
      rfl
    have create : fsutilCreate t.flat [97] (1 : Nat) = filesysCreate t.flat [97] (1 : Nat) false := by
      rw [fsutilCreate, if_neg (by decide), show offsetOf ((1 : Nat) : Int) = (1 : Nat) by decide]
    obtain ⟨x, u, run, inode, can, found⟩ := fresh.positioned.ok.opensCreated fileName_a.toFlat (by decide) made
    have small : (fileOpen x).pos + 1 < 2 ^ 31 := show (0 : Int) + 1 < 2 ^ 31 by decide
    have all := @fileWrite_all _ _ _ u (fileOpen x) (Int.le_refl 0) 1 (by decide) small inode can
      fun i => ([] : List Byte).getD i 0
    obtain ⟨entry, member, pos⟩ := fsutilWrite_cursor run found (fun i => ([] : List Byte).getD i 0) 1
    refine ⟨entry, ?_, ?_⟩
    · rw [table, copyIn_some, size, create]
      simp only [made, Bool.true_eq_false, if_false]
      exact member
    · rw [pos, show offsetOf 1 = 1 by decide, all]
      rfl
  have made := formatted_makesA (show SizeOk (1 : Nat) by decide) (by decide)
  exact general _ (formatted_fresh (by decide +kernel)) formatted_free made

end ShellOs.FileSystem
