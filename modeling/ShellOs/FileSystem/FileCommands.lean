import ShellOs.FileSystem.DeskView
import ShellOs.FileSystem.CopyOut
import ShellOs.FileSystem.Steady

/-! The commands on one file do on the disk what they do on a desk. -/

namespace ShellOs.FileSystem
open Lib SlotMap GrowArray

/-- What the commands find and leave: a place fits an `int`. It may lie before the start of the file. -/
structure Ready (s : FlatFs) : Prop where
  ok : ShellOk s
  places : ∀ entry ∈ s.fileTable, entry.f.pos < 2 ^ 31

theorem Fresh.ready {s : FlatFs} {size : BlockSector} (fresh : Fresh size s) : Ready s ∧ desk s = fun _ => none := by
  have positioned := fresh.positioned
  refine ⟨⟨positioned.ok, fun entry member => (positioned.positions entry member).2⟩, ?_⟩
  funext name
  exact desk_eq_none.mpr (fresh.absent name)

namespace Ready

variable {s t : FlatFs} {name : CString} {f : File}

theorem file (ready : Ready s) (found : getFileByFname s name = some f) : f.pos < 2 ^ 31 :=
  ready.places _ (getFileByFname_mem found)

theorem looked (ready : Ready s) (only : RootClosed s t) (shut : Shut t) : Ready t ∧ desk t = desk s := by
  obtain ⟨n, vol⟩ := ready.ok.volume
  refine ⟨⟨ready.ok.looked only shut, ?_⟩, only.desk vol⟩
  rw [only.fileTable]
  exact ready.places

theorem replaced (ready : Ready s) (found : getFileByFname s name = some f) {pos : Int} (high : pos < 2 ^ 31) :
    Ready (setFile s name (fileSeek f pos)) := by
  refine ⟨ready.ok.setFile found pos, fun entry member => ?_⟩
  rcases mem_setFile member with before | rfl
  · exact ready.places entry before
  · exact high

end Ready

/-- A command has its file open: it is one of the desk's, and the table has it where the desk says. -/
structure Found (s t : FlatFs) (name : CString) (f : File) (d : Document) : Prop where
  here : desk s name = some d
  start : d.start = f.pos
  ready : Ready t
  only : OnlyAt s t name
  table : getFileByFname t name = some f
  bytes : contents t f.inode = d.bytes
  aim : target s name = some f
  steady : Steady s t
  spares : ∀ fin, Spares s (writeNeeds s f.inode fin) → Spares t (writeNeeds t f.inode fin)
  freed : t.usedFreed = s.usedFreed

namespace Found

variable {s t u : FlatFs} {name : CString} {f : File} {d : Document}

theorem settles (found : Found s t name f d) (only : OnlyAt t u name) (ready : Ready u)
    (table : getFileByFname u name = some f) {pos : Int} (high : pos < 2 ^ 31) :
    Ready (setFile u name (fileSeek f pos)) ∧
      desk (setFile u name (fileSeek f pos)) =
        (desk s).work name fun _ => ⟨contents u f.inode, some pos⟩ := by
  have next := ready.replaced table high
  refine ⟨next, ?_⟩
  obtain ⟨n, vol⟩ := ready.ok.volume
  obtain ⟨m, volN⟩ := next.ok.volume
  have last := OnlyAt.setFile vol name (fileSeek f pos)
  have whole := (found.only.trans only).trans last
  have held : getFileByFname (setFile u name (fileSeek f pos)) name = some (fileSeek f pos) :=
    getFileByFname_setFile (by rw [table]; rfl)
  obtain ⟨-, -, others⟩ := vol.tabled (setFile u name (fileSeek f pos)).fileTable
  have bound := (ready.ok.file table).1
  have bytes : contents (setFile u name (fileSeek f pos)) f.inode = contents u f.inode :=
    (others f.inode (mem_rootFiles.mpr ⟨_, bound⟩)).2.1
  rw [whole.desk_update, Desk.work_here found.here, desk_bound volN (next.ok.file held).1, held]
  exact congrArg (fun b => Function.update (desk s) name (some ⟨b, some pos⟩)) bytes

theorem moves (found : Found s t name f d) {pos : Int} (high : pos < 2 ^ 31) :
    Ready (setFile t name (fileSeek f pos)) ∧
      desk (setFile t name (fileSeek f pos)) = (desk s).work name fun d => d.moved pos := by
  obtain ⟨ready, view⟩ := found.settles (.refl t name) found.ready found.table high
  refine ⟨ready, view.trans ?_⟩
  rw [Desk.work_here found.here, Desk.work_here found.here, found.bytes]
  rfl

theorem use (found : Found s t name f d) : t.use f.inode = t := found.ready.ok.use found.table

theorem length (found : Found s t name f d) : t.inodeLength f.inode = d.bytes.length := by
  obtain ⟨inode, -, -⟩ := found.ready.ok.inode found.table
  rw [inode.file.length, ← length_contents, found.bytes]

end Found

section opening

variable {s : FlatFs} {name : CString}

/-- How every command on a file starts: there is no file of that name, or the command has it open. -/
theorem Ready.opens (ready : Ready s) (flat : Flat name) :
    (∃ t, openNamed s name = (none, t) ∧ desk s name = none ∧ Ready t ∧ desk t = desk s ∧ Steady s t ∧
        t.usedFreed = s.usedFreed) ∨
      ∃ t f d, openNamed s name = (some f, t) ∧ Found s t name f d := by
  obtain ⟨n, vol⟩ := ready.ok.volume
  cases found : getFileByFname s name with
  | some f =>
    right
    have here := desk_bound vol (ready.ok.file found).1
    rw [found] at here
    exact ⟨s, f, _, openNamed_held found, here, rfl, ready, .refl s name, found, rfl, by rw [target, found], .refl s,
      fun _ spares => spares, rfl⟩
  | none =>
    cases bound : find (rootSlots s) name with
    | none =>
      left
      have absent : (splitPathFilename name).2 ∉ keys (rootSlots s) := by
        rw [flat.split]
        exact find_eq_none.mp bound
      have run := filesysOpen_nothing vol.mounted flat.plain absent
      have only := (filesysOpen_absent vol.mounted flat.plain absent).2
      rw [run] at only
      have result : openNamed s name = (none, dirClose (dirOpenRoot s).2 (dirOpenRoot s).1) := by
        rw [openNamed, found]
        simp only [run]
      refine ⟨_, result, desk_eq_none.mpr (find_eq_none.mp bound), ?_⟩
      obtain ⟨next, same⟩ := ready.looked only (dirClose_opened_shut vol.mounted ready.ok.shut)
      exact ⟨next, same, only.rehandled.steady vol, dirClose_opened_freed vol.mounted⟩
    | some x =>
      right
      have slot := mem_bindings.mp (find_mem bound)
      have here := desk_bound vol slot
      rw [found] at here
      obtain ⟨t, opened⟩ := vol.opensNamed found flat.plain (by rw [flat.split]; exact slot)
      obtain ⟨u, run, reached⟩ := ready.ok.openNamed_target flat
      rw [opened.run] at run
      obtain ⟨aim, rfl⟩ := Prod.mk.inj run
      obtain ⟨u, run, -, -, -, spares, -⟩ := vol.openNamed_steady found flat.plain (by rw [flat.split]; exact slot)
      rw [opened.run] at run
      obtain ⟨-, rfl⟩ := Prod.mk.inj run
      refine ⟨t, fileOpen x, _, opened.run, here, rfl, ⟨reached.ok, fun entry member => ?_⟩, ?_, opened.table, ?_, aim.symm,
        opened.rehandled.steady vol, spares, opened.freed⟩
      · rcases reached.entries entry member with before | start
        · exact ready.places entry before
        · rw [start]
          decide
      · apply OnlyAt.of_files opened.slots (fun y listed => (opened.others y listed).2.1)
        intro other away
        rw [getFileByFname, getFileByFname, opened.entries, List.find?_append, List.find?_cons_of_neg, List.find?_nil,
          Option.or_none]
        simpa using away.symm
      · exact (opened.others x (mem_rootFiles.mpr ⟨_, slot⟩)).2.1

end opening

/-- Neither the new file nor what is written to it needs an index block that the free map does not have. -/
structure SparesImport (s : FlatFs) (name : CString) (bytes : List Byte) : Prop where
  create : Spares s (createMissing s name (offsetOf (importSize s bytes)))
  write : ∀ f, target (fsutilCreate s name (importSize s bytes)).2 name = some f →
    Spares (fsutilCreate s name (importSize s bytes)).2
      (writeNeeds (fsutilCreate s name (importSize s bytes)).2 f.inode (bytes.length + 1))

/-- No index block that the command needs is the first sector that the free map does not have. -/
def ShellOp.Spares (s : FlatFs) : ShellOp → Prop
  | create name bytes => FileSystem.Spares s (createMissing s name (offsetOf bytes))
  | write name words => ∀ f, target s name = some f →
    FileSystem.Spares s (writeNeeds s f.inode (f.pos.toNat + ((joined words).length + 2)))
  | copyIn name host => ∀ bytes, host = some bytes → SparesImport s name bytes
  | _ => True

/-- A command that answers and changes the files as it may, uses no inode that has been freed, and leaves the free map's
inode to the next process. -/
structure Refines (s : FlatFs) (op : ShellOp) : Prop where
  step : Desk.Step (desk s) op (op.reply s) (desk (op.step s))
  ready : Ready (op.step s)
  freed : (op.step s).usedFreed = s.usedFreed
  steady : op.Spares s → Steady s (op.step s)

theorem Refines.of_run {s t : FlatFs} {op : ShellOp} {answer : Reply} {d : Desk} (run : op.run s = (answer, t))
    (view : desk t = d) (step : Desk.Step (desk s) op answer d) (ready : Ready t) (freed : t.usedFreed = s.usedFreed)
    (steady : op.Spares s → Steady s t) : Refines s op := by
  obtain ⟨replied, stepped⟩ := Prod.mk.inj run
  constructor
  · rw [replied, stepped, view]
    exact step
  · rw [stepped]
    exact ready
  · rw [stepped]
    exact freed
  · rw [stepped]
    exact steady

section commands

variable {s : FlatFs} {name : CString}

theorem Ready.size (ready : Ready s) (flat : Flat name) : Refines s (.size name) := by
  have step := @Desk.Step.size (desk s) name
  rcases ready.opens flat with ⟨t, run, absent, next, same, steady, freed⟩ | ⟨t, f, d, run, found⟩
  · have result : fsutilSize s name = (-1, t) := by simp only [fsutilSize, run]
    rw [absent, Desk.work_absent absent] at step
    exact .of_run (congrArg (fun r => (Reply.status r.1, r.2)) result) same step next freed fun _ => steady
  · have result : fsutilSize s name = ((d.bytes.length : Int), setFile t name (fileSeek f f.pos)) := by
      simp only [fsutilSize, run, found.use, fileLength, found.length]
    obtain ⟨next, view⟩ := found.moves (found.ready.file found.table)
    rw [found.here, Desk.work_congr _ (fun d => d.moved f.pos) found.here (by rw [found.start])] at step
    exact .of_run (congrArg (fun r => (Reply.status r.1, r.2)) result) view step next found.freed fun _ => found.steady.trans (.tabled _ _)

theorem Ready.seek (ready : Ready s) (flat : Flat name) {offset : Int} (high : offset < 2 ^ 31) :
    Refines s (.seek name offset) := by
  have step := @Desk.Step.seek (desk s) name offset
  rcases ready.opens flat with ⟨t, run, absent, next, same, steady, freed⟩ | ⟨t, f, d, run, found⟩
  · have result : fsutilSeek s name offset = (-1, t) := by simp only [fsutilSeek, run]
    rw [absent, Desk.work_absent absent] at step
    exact .of_run (congrArg (fun r => (Reply.status r.1, r.2)) result) same step next freed fun _ => steady
  · have result : fsutilSeek s name offset = (0, setFile t name (fileSeek f offset)) := by
      simp only [fsutilSeek, run]
    obtain ⟨next, view⟩ := found.moves high
    rw [found.here] at step
    exact .of_run (congrArg (fun r => (Reply.status r.1, r.2)) result) view step next found.freed fun _ => found.steady.trans (.tabled _ _)

theorem inodeReadAt_nothing {x : BlockSector} {size : Int} (none : size ≤ 0) (o : Int) :
    (inodeReadAt s x size o).1 = [] := by
  rw [inodeReadAt, inodeReadLoop, if_neg (by omega)]

theorem Found.reads {t : FlatFs} {f : File} {d : Document} (found : Found s t name f d) (inside : 0 ≤ d.start)
    (size : Int) : (inodeReadAt t f.inode (offsetOf size) f.pos).1 = d.read size := by
  obtain ⟨inode, -, -⟩ := found.ready.ok.inode found.table
  rw [found.start] at inside
  rw [Document.read, found.start, ← found.bytes]
  obtain ⟨p, place⟩ := Int.eq_ofNat_of_zero_le inside
  rw [place, Int.toNat_natCast]
  by_cases some : 0 ≤ offsetOf size
  · obtain ⟨k, count⟩ := Int.eq_ofNat_of_zero_le some
    rw [count, Int.toNat_natCast]
    exact inode.file.reads k p
  · rw [inodeReadAt_nothing (by omega), Int.toNat_of_nonpos (by omega), slice, List.take_zero]

theorem Ready.read (ready : Ready s) (flat : Flat name) (inside : ∀ f, desk s name = some f → 0 ≤ f.start) (size : Int) :
    Refines s (.read name size) := by
  have step := @Desk.Step.read (desk s) name size inside
  rcases ready.opens flat with ⟨t, run, absent, next, same, steady, freed⟩ | ⟨t, f, d, run, found⟩
  · have result : fsutilRead s name size = (none, t) := by simp only [fsutilRead, run]
    rw [absent, Desk.work_absent absent] at step
    exact .of_run (congrArg (fun r => (Reply.bytes r.1, r.2)) result) same step next freed fun _ => steady
  · have text := found.reads (inside d found.here) size
    have unread : (inodeReadAt t f.inode (offsetOf size) f.pos).2 = t := inodeReadAt_snd t f.inode _ _
    have count := inodeReadAt_length t f.inode (offsetOf size) f.pos
    have length : t.inodeLength f.inode < 2 ^ 31 := BitVec.toInt_lt (x := (t.inodeData f.inode).length)
    have high := found.ready.file found.table
    rw [text] at count
    have result : fsutilRead s name size =
        (some (d.read size), setFile t name (fileSeek f (f.pos + (d.read size).length))) := by
      simp only [fsutilRead, run, fileRead, found.use, text, unread, fileSeek]
    obtain ⟨next, view⟩ := @Found.moves _ _ _ _ _ found (f.pos + (d.read size).length) (by omega)
    rw [found.here, Desk.work_congr _ (fun d' => d'.moved (f.pos + (d.read size).length)) found.here
      (by rw [found.start])] at step
    exact .of_run (congrArg (fun r => (Reply.bytes r.1, r.2)) result) view step next found.freed fun _ => found.steady.trans (.tabled _ _)

/-- All is written, or there is no space for what goes past the end. -/
structure Writes (s : FlatFs) (name : CString) (f : File) (d : Document) (data : List Byte) (r : Int × FlatFs) : Prop where
  ready : Ready r.2
  result : r.1 = data.length ∧ desk r.2 = (desk s).work name (fun d =>
      ⟨overwrite 0 d.bytes d.start.toNat data, some (d.start + (data.length - 2))⟩) ∨
    r.1 = 0 ∧ d.bytes.length < d.start + data.length ∧ desk r.2 = (desk s).work name fun d => d.moved (d.start - 2)
  steady : Spares s (writeNeeds s f.inode (f.pos.toNat + data.length)) → Steady s r.2
  freed : r.2.usedFreed = s.usedFreed

theorem Found.unwritten {t u : FlatFs} {f : File} {d : Document} (found : Found s t name f d) (only : OnlyAt t u name)
    (ready : Ready u) (table : getFileByFname u name = some f) (bytes : contents u f.inode = contents t f.inode) :
    Ready (setFile u name (fileSeek f (f.pos + (0 - 2)))) ∧
      desk (setFile u name (fileSeek f (f.pos + (0 - 2)))) = (desk s).work name fun d => d.moved (d.start - 2) := by
  have high := found.ready.file found.table
  obtain ⟨next, view⟩ := @Found.settles _ _ u _ _ _ found only ready table (f.pos + (0 - 2)) (by omega)
  refine ⟨next, view.trans (Desk.work_congr _ _ found.here ?_)⟩
  rw [bytes, found.bytes, found.start]
  rfl

theorem Found.writes {t : FlatFs} {f : File} {d : Document} (found : Found s t name f d) (inside : 0 ≤ d.start) {k : Nat}
    (some : 0 < k) (small : k < 2 ^ 31) (buffer : Nat → Byte) :
    let w := fileWrite t f buffer k
    Writes s name f d (bufferBytes (Function.update buffer (k - 1) 0) k) (w.1, setFile w.2.2 name w.2.1) := by
  obtain ⟨inode, writable, listed⟩ := found.ready.ok.inode found.table
  have high := found.ready.file found.table
  have start := found.start
  rw [start] at inside
  obtain ⟨p, place⟩ := Int.eq_ofNat_of_zero_le inside
  have length : fileLen t f.inode = d.bytes.length := by rw [← found.bytes, length_contents]
  have fits := inode.file.good.fits
  simp only [MAX_LENGTH] at fits
  have last : ((k : Int) - 1).toNat = k - 1 := by omega
  have count : (bufferBytes (Function.update buffer (k - 1) 0) k).length = k := by
    rw [bufferBytes, List.length_map, List.length_range]
  obtain ⟨n, vol⟩ := found.ready.ok.volume
  have still : ∀ g, Spares s (writeNeeds s f.inode (f.pos.toNat + (bufferBytes (Function.update buffer (k - 1) 0) k).length)) →
      Steady s (setFile (fileWrite t f buffer k).2.2 name g) := by
    intro g spares
    rw [count] at spares
    exact found.steady.trans ((fileWrite_steady vol ⟨listed, inode.listed⟩ inside high some small buffer
      (found.spares _ spares)).trans (.tabled _ _))
  rw [place] at high start
  simp only [fileWrite, found.use, place, last] at still ⊢
  by_cases inRange : p + k < 2 ^ 31
  · obtain ⟨new, effect⟩ := inodeWriteAt_effect inode.fine inode.file inode.listed inode.foreign some inRange
      (Function.update buffer (k - 1) 0)
    generalize inodeWriteAt t f.inode (Function.update buffer (k - 1) 0) k p = r at effect still ⊢
    have bound := (found.ready.ok.file found.table).1
    have entries : r.2.fileTable = t.fileTable := (congrArg Fs.fileTable effect.took.rest :)
    have table : getFileByFname r.2 name = Option.some f := by
      rw [getFileByFname, entries]
      exact found.table
    have ready : Ready r.2 := by
      refine ⟨found.ready.ok.wrote listed effect, ?_⟩
      rw [entries]
      exact found.ready.places
    obtain ⟨n, vol⟩ := found.ready.ok.volume
    have only := OnlyAt.write vol bound effect
    have freed : r.2.usedFreed = s.usedFreed := (congrArg Fs.usedFreed effect.took.rest :).trans found.freed
    rcases effect.result with ⟨all, -, bytes⟩ | ⟨none, -, bytes⟩
    · obtain ⟨next, view⟩ := @Found.settles _ _ r.2 _ _ _ found only ready table (p + (r.1 - 2)) (by omega)
      refine ⟨next, Or.inl ⟨by rw [count]; exact all, view.trans (Desk.work_congr _ _ found.here ?_)⟩, by rw [place]; exact still _, freed⟩
      rw [bytes, found.bytes, start, Int.toNat_natCast, count, all]
    · obtain ⟨next, view⟩ := found.unwritten only ready table bytes
      rw [place] at next view
      simp only [none]
      refine ⟨next, Or.inr ⟨rfl, ?_, view⟩, by rw [place]; exact still _, freed⟩
      by_contra fitting
      have done := effect.done.mpr ⟨writable, Or.inl (by omega)⟩
      omega
  · rw [inodeWriteAt_overflow inode.nodup inode.file (by omega) small (by omega)] at still ⊢
    obtain ⟨next, view⟩ := found.unwritten (.refl t name) found.ready found.table rfl
    rw [place] at next view
    exact ⟨next, Or.inr ⟨rfl, by omega, view⟩, by rw [place]; exact still _, found.freed⟩

theorem bufferBytes_text (text : List Byte) :
    bufferBytes (Function.update (fun i => (text ++ [0, 0]).getD i 0) (text.length + 2 - 1) 0) (text.length + 2) =
      text ++ [0, 0] := by
  have whole := terminated_bytes (show text ++ [0, 0] ≠ [] by simp)
  rw [List.length_append] at whole
  refine whole.trans ?_
  rw [terminated, if_neg (by simp), List.dropLast_append_of_ne_nil (by simp), List.append_assoc]
  rfl

theorem Ready.write (ready : Ready s) (flat : Flat name) {words : List CString}
    (inside : ∀ f, desk s name = some f → 0 ≤ f.start) (small : (joined words).length + 2 < 2 ^ 31) :
    Refines s (.write name words) := by
  by_cases given : words = []
  · subst given
    exact .of_run rfl rfl .writeNothing ready rfl fun _ => .refl s
  obtain ⟨word, rest, rfl⟩ := List.exists_cons_of_ne_nil given
  generalize whole : joined (word :: rest) = text at *
  have count : (text ++ [0, 0]).length = text.length + 2 := by simp
  have command : writeCommand s (ascii "write" :: name :: word :: rest) = some
      (if (fsutilWrite s name (fun i => (text ++ [0, 0]).getD i 0) (text.length + 2 : Nat)).1 = -1
        then FILE_WRITE_ERROR else 0,
        (fsutilWrite s name (fun i => (text ++ [0, 0]).getD i 0) (text.length + 2 : Nat)).2) := by
    simp only [writeCommand, writeBuffer_joined given, whole, Option.map_some, count]
  have run : ∀ {r : Int × FlatFs},
      fsutilWrite s name (fun i => (text ++ [0, 0]).getD i 0) (text.length + 2 : Nat) = r →
      ShellOp.run s (.write name (word :: rest)) = (.status (if r.1 = -1 then FILE_WRITE_ERROR else 0), r.2) := by
    rintro r rfl
    rw [ShellOp.run, ShellOp.reply, ShellOp.step, command]
    rfl
  have went : ∀ {r : Int × FlatFs},
      fsutilWrite s name (fun i => (text ++ [0, 0]).getD i 0) (text.length + 2 : Nat) = r → r.1 ≠ -1 →
      ShellOp.run s (.write name (word :: rest)) = (.status 0, r.2) := by
    intro r result well
    rw [run result, if_neg well]
  rcases ready.opens flat with ⟨t, opened, absent, next, same, steady, freed⟩ | ⟨t, f, d, opened, found⟩
  · have result : fsutilWrite s name (fun i => (text ++ [0, 0]).getD i 0) (text.length + 2 : Nat) = (-1, t) := by
      simp only [fsutilWrite, opened]
    exact .of_run (run result) same (.writeNowhere given absent) next freed fun _ => steady
  · have writes := @Found.writes _ _ _ _ _ found (inside d found.here) (text.length + 2) (by omega) small
      fun i => (text ++ [0, 0]).getD i 0
    have size : offsetOf ((text.length + 2 : Nat) : Int) = ((text.length + 2 : Nat) : Int) :=
      offsetOf_eq (by omega) (by omega)
    have result : fsutilWrite s name (fun i => (text ++ [0, 0]).getD i 0) (text.length + 2 : Nat) =
        let w := fileWrite t f (fun i => (text ++ [0, 0]).getD i 0) (text.length + 2 : Nat)
        (w.1, setFile w.2.2 name w.2.1) := by
      simp only [fsutilWrite, opened, size]
    simp only [bufferBytes_text] at writes
    obtain ⟨next, outcome, still, freed⟩ := writes
    rw [count] at outcome
    have steady : ShellOp.Spares s (.write name (word :: rest)) → Steady s _ := fun spares => by
      have own := spares f found.aim
      rw [whole, ← count] at own
      exact still own
    rcases outcome with ⟨all, view⟩ | ⟨none, beyond, view⟩
    · refine .of_run (went result (ne_of_eq_of_ne all (by omega))) view ?_ next freed steady
      have step := Desk.Step.written given found.here (inside d found.here)
      rw [whole] at step
      rw [Desk.work_congr _ (fun d => d.written text) found.here]
      · exact step
      · have place : d.start + (((text.length + 2 : Nat) : Int) - 2) = d.start + text.length := by omega
        rw [place]
        rfl
    · refine .of_run (went result (ne_of_eq_of_ne none (by decide))) view ?_ next freed steady
      apply Desk.Step.notWritten given found.here
      rw [whole]
      omega

theorem setFile_setFile (t : FlatFs) (f g : File) : setFile (setFile t name f) name g = setFile t name g := by
  have twice : ∀ e : FileTableEntry, (if (if e.fname = name then { e with f := f } else e).fname = name
      then { (if e.fname = name then { e with f := f } else e) with f := g }
      else if e.fname = name then { e with f := f } else e) = if e.fname = name then { e with f := g } else e := by
    intro e
    by_cases here : e.fname = name
    · simp only [here, if_true]
    · simp only [here, if_false]
  simp only [setFile, List.map_map, Function.comp_def, twice]

theorem Found.view {t : FlatFs} {f : File} {d : Document} (found : Found s t name f d) :
    desk t = (desk s).work name fun d => d.moved d.start := by
  obtain ⟨-, view⟩ := found.moves (found.ready.file found.table)
  have same : setFile t name (fileSeek f f.pos) = t := setFile_same found.ready.ok.table.names found.table
  rw [← same, view]
  exact Desk.work_congr _ _ found.here (by rw [found.start])

theorem catLoop_dump {t : FlatFs} {f : File} (inode : OpenInode t f.inode) :
    (catLoop t (fileSeek f 0) (fileLength t f) []).1 =
      if contents t f.inode = [] then [] else [(0, contents t f.inode)] := by
  have length : fileLength t f = ((contents t f.inode).length : Nat) := by
    rw [fileLength, inode.file.length, length_contents]
  have reads := inode.file.reads (contents t f.inode).length
  have unread : ∀ o : Int, (inodeReadAt t f.inode ((contents t f.inode).length : Nat) o).2 = t :=
    inodeReadAt_snd t f.inode _
  have ready : t.use f.inode = t := Fs.use_open inode.listed
  have all := reads 0
  rw [slice, List.drop_zero, List.take_length, Nat.cast_zero] at all
  have none := reads (contents t f.inode).length
  rw [slice, List.drop_length, List.take_nil] at none
  rw [length, catLoop]
  simp only [fileRead, fileSeek, ready, unread, all, List.length_eq_zero_iff, List.nil_append, Int.zero_add]
  split
  next => rfl
  next =>
    rw [catLoop]
    simp only [fileRead, ready, none, List.length_nil, dite_true]

theorem Ready.cat (ready : Ready s) (flat : Flat name) : Refines s (.cat name) := by
  have step := @Desk.Step.cat (desk s) name
  rcases ready.opens flat with ⟨t, run, absent, next, same, steady, freed⟩ | ⟨t, f, d, run, found⟩
  · have result : fsutilCat s name = (none, t) := by simp only [fsutilCat, run]
    rw [absent] at step
    exact .of_run (congrArg (fun r => (Reply.dump r.1, r.2)) result) same step next freed fun _ => steady
  · obtain ⟨same, inode, deny⟩ := Positioned.catLoop_spec t (fileSeek f 0) found.use (fileLength t f) []
    have dump := catLoop_dump (found.ready.ok.inode found.table).1
    have back : fileSeek (catLoop t (fileSeek f 0) (fileLength t f) []).2.1 f.pos = f :=
      Positioned.fileSeek_congr inode deny f.pos
    have put : setFile t name f = t := setFile_same found.ready.ok.table.names found.table
    rw [found.bytes] at dump
    rw [found.here] at step
    have place := desk_place found.here
    cases opened : getFileByFname s name with
    | some g =>
      have result : fsutilCat s name = (some d.dump, t) := by
        simp only [fsutilCat, run, same, back, put, dump, opened, reduceCtorEq, if_false, Document.dump]
      refine .of_run (congrArg (fun r => (Reply.dump r.1, r.2)) result) ?_ step found.ready found.freed
        fun _ => found.steady
      rw [found.view, Desk.work_congr _ id found.here]
      · exact Desk.work_same fun _ _ => rfl
      · have held : d.place = some g.pos := by rw [place, opened, Option.map_some]
        rw [Document.moved, Document.start, held, Option.getD_some, ← held]
        rfl
    | none =>
      have result : fsutilCat s name = (some d.dump, (removeFromFileTable t name).2) := by
        simp only [fsutilCat, run, same, back, put, dump, opened, if_true, Document.dump]
      obtain ⟨n, vol⟩ := found.ready.ok.volume
      have out := found.ready.ok.readOut vol found.table
      have bound := (found.ready.ok.file found.table).1
      obtain ⟨only, gone⟩ := out.onlyAt
      have bytes : contents (removeFromFileTable t name).2 f.inode = d.bytes :=
        (out.others f.inode (mem_rootFiles.mpr ⟨_, bound⟩)).2.1.trans found.bytes
      refine .of_run (congrArg (fun r => (Reply.dump r.1, r.2)) result) ?_ step
        ⟨out.ok found.ready.ok bound, fun entry member => ?_⟩
        ((found.ready.ok.removeFromFileTable_freed name).trans found.freed)
        fun _ => found.steady.trans (out.rehandled.steady vol)
      · apply (found.only.trans only).desk_eq
        have shut : d.place = none := by rw [place, opened, Option.map_none]
        rw [desk_bound out.volume (by rw [out.slots]; exact bound), gone, bytes, found.here, Option.map_none, ← shut]
      · rw [out.fileTable, mem_without] at member
        exact found.ready.places entry member.1

theorem Ready.copyOut (ready : Ready s) (flat : Flat name) (creates : Bool) : Refines s (.copyOut name creates) := by
  have step := @Desk.Step.copyOut (desk s) name creates
  rcases ready.opens flat with ⟨t, run, absent, next, same, steady, freed⟩ | ⟨t, f, d, run, found⟩
  · have sized : fsutilSize s name = (-1, t) := by simp only [fsutilSize, run]
    rcases next.opens flat with ⟨u, again, -, nextU, sameU, steadyU, freedU⟩ | ⟨u, f, d, again, found⟩
    · have result : FileSystem.copyOut s name creates = (-1, none, u) := by simp only [FileSystem.copyOut, sized, again]
      rw [absent, Desk.work_absent absent] at step
      exact .of_run (congrArg (fun r => (Reply.copied r.1 r.2.1, r.2.2)) result) (sameU.trans same) step nextU
        (freedU.trans freed) fun _ => steady.trans steadyU
    · have here := found.here
      rw [same, absent] at here
      cases here
  · have put : setFile t name f = t := setFile_same found.ready.ok.table.names found.table
    have sized : fsutilSize s name = ((d.bytes.length : Int), t) := by
      simp only [fsutilSize, run, found.use, fileLength, found.length, fileSeek, put]
    obtain ⟨inode, -, -⟩ := found.ready.ok.inode found.table
    have opened : OpenFile t name f d.bytes := ⟨inode.fine, inode.file, found.use, found.table, found.bytes⟩
    have restart := opened.setFile 0
    have read := restart.read d.bytes.length
    rw [restart.readAll rfl] at read
    have result : FileSystem.copyOut s name creates =
        (if creates then (0, some (untilNul d.bytes), t) else (11, none, t)) := by
      simp only [FileSystem.copyOut, sized, openNamed_held found.table, read, setFile_setFile, put, Option.getD_some]
    rw [found.here] at step
    have still : ∀ op, ShellOp.Spares s op → Steady s t := fun _ _ => found.steady
    cases creates with
    | true =>
      exact .of_run (congrArg (fun r => (Reply.copied r.1 r.2.1, r.2.2)) result) found.view step found.ready found.freed
        (still _)
    | false =>
      exact .of_run (congrArg (fun r => (Reply.copied r.1 r.2.1, r.2.2)) result) found.view step found.ready found.freed
        (still _)

end commands

end ShellOs.FileSystem
