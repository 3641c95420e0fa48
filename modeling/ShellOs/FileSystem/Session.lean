import ShellOs.FileSystem.Volume

/-! Sessions: files are created, opened, read, written, closed and removed in any order, and no sector
ever gets a second owner. -/

namespace ShellOs.FileSystem
open Lib SlotMap

/-- An operation on regular files. A handle is named by the sector of its inode. -/
inductive FileOp
  | create (path : CString) (size : Int)
  | openFile (path : CString)
  | read (inode : BlockSector) (size offset : Int)
  | write (inode : BlockSector) (buffer : Nat → Byte) (size offset : Nat)
  | close (inode : BlockSector)
  | remove (path : CString)

namespace FileOp

section run

variable {σ : Type} [Store σ BlockSector Sector] [LawfulStore σ]

def step (s : Fs σ) : FileOp → Fs σ
  | create path size => (filesysCreate s path size false).2
  | openFile path => (filesysOpen s path).2
  | read inode size offset => (inodeReadAt s inode size offset).2
  | write inode buffer size offset => (inodeWriteAt s inode buffer size offset).2
  | close inode => fileClose s (fileOpen inode)
  | remove path => (filesysRemove s path).2

theorem step_flat (s : Fs σ) (op : FileOp) : (step s op).flat = step s.flat op := by
  cases op with
  | create path size => exact congrArg Prod.snd (filesysCreate_flat s path size false)
  | openFile path => exact congrArg Prod.snd (filesysOpen_flat s path)
  | read inode size offset => exact congrArg Prod.snd (inodeReadAt_flat s inode size offset)
  | write inode buffer size offset => exact congrArg Prod.snd (inodeWriteAt_flat s inode buffer size offset)
  | close inode => exact fileClose_flat s (fileOpen inode)
  | remove path => exact congrArg Prod.snd (filesysRemove_flat s path)

end run

/-- The handle is one on a file that the root directory lists. -/
def Held (s : FlatFs) (x : BlockSector) : Prop := x ∈ rootFiles s ∧ (s.findInode x).isSome

def Free (s : FlatFs) (name : CString) : Prop := ∀ x, some (name, x) ∈ rootSlots s → s.findInode x = none

/-- Each file has at most one handle, and is removed only while it has none. -/
def May (s : FlatFs) : FileOp → Prop
  | create path _ => 0 ∉ path
  | openFile path => Plain (splitPathFilename path).2 ∧ Free s (splitPathFilename path).2
  | read inode _ _ => Held s inode
  | write inode _ size offset => Held s inode ∧ 0 < size ∧ size < 2 ^ 31 ∧ offset < 2 ^ 31
  | close inode => Held s inode
  | remove path => OnlyDots (splitPathFilename path).1 ∧ Free s (splitPathFilename path).2

def Concerns (s : FlatFs) (op : FileOp) (x : BlockSector) : Prop :=
  match op with
  | write inode _ _ _ => x = inode
  | remove path => some ((splitPathFilename path).2, x) ∈ rootSlots s
  | _ => False

end FileOp

namespace Volume

variable {s t : FlatFs} {n : Nat} {x : BlockSector}

theorem only (vol : Volume s n) (only : RootClosed s t) :
    Volume t n ∧ rootSlots t = rootSlots s ∧ ∀ y ∈ rootFiles s, Untouched s t y := by
  have mounted := vol.mounted.rehandled only.rehandled only.handle fun z away held =>
    vol.mounted.listed z (only.others z away ▸ held)
  apply vol.rehandled only.rehandled mounted
  intro z i held notMap notRoot
  rw [only.others z notRoot] at held
  exact vol.single z i held notMap notRoot

theorem bound (vol : Volume s n) {name : CString} {y : BlockSector} (here : some (name, x) ∈ rootSlots s)
    (there : some (name, y) ∈ rootSlots s) : x = y := by
  have hereB := mem_bindings.mpr here
  have thereB := mem_bindings.mpr there
  exact congrArg Prod.snd (List.inj_on_of_nodup_map vol.names hereB thereB rfl)

end Volume

inductive OpEffect (s : FlatFs) (n : Nat) : FileOp → FlatFs → Prop
  | created {path : CString} {size : Int} {r : Bool × FlatFs} {new : List BlockSector}
      (proper : (0 : Byte) ∉ (splitPathFilename path).2) (creation : Creation s (splitPathFilename path).2 size r new) :
      OpEffect s n (.create path size) r.2
  | opened {path : CString} {t : FlatFs} {x : BlockSector} (listed : x ∈ rootFiles s) (opened : FileOpened s t x) :
      OpEffect s n (.openFile path) t
  /-- Nothing but a look at the root directory, if that. -/
  | looked {op : FileOp} {t : FlatFs} (only : RootClosed s t) : OpEffect s n op t
  | wrote {x : BlockSector} {buffer : Nat → Byte} {k o : Nat} {r : Int × FlatFs} {new : List BlockSector}
      (listed : x ∈ rootFiles s) (some : 0 < k) (small : o + k < 2 ^ 31) (effect : WriteEffect s x buffer k o r new) :
      OpEffect s n (.write x buffer k o) r.2
  | closed {x : BlockSector} {t : FlatFs} (listed : x ∈ rootFiles s) (closed : FileClosed s t x) :
      OpEffect s n (.close x) t
  | removed {path : CString} {t : FlatFs} {x : BlockSector} {k : Nat}
      (slot : (rootSlots s)[k]? = some (some ((splitPathFilename path).2, x))) (unlinked : Unlinked s t x n k) :
      OpEffect s n (.remove path) t

namespace Volume

variable {s t : FlatFs} {n : Nat} {x : BlockSector}

theorem fileClosed (vol : Volume s n) (held : FileOp.Held s x) : FileClosed s (fileClose s (fileOpen x)) x := by
  obtain ⟨i, found⟩ := Option.isSome_iff_exists.mp held.2
  obtain ⟨-, last, live, -⟩ := vol.single x i found (vol.file x held.1).1.nonzero (vol.ne_root held.1)
  exact fileClose_last vol.mounted.handle.nodup found last live

theorem effect (vol : Volume s n) {op : FileOp} (may : op.May s) : OpEffect s n op (FileOp.step s op) := by
  cases op with
  | create path size =>
    obtain ⟨new, creation⟩ := filesysCreate_effect vol.mounted path size
    exact .created (fun inside => may (mem_of_fileName inside)) creation
  | openFile path =>
    obtain ⟨plain, free⟩ := may
    by_cases present : (splitPathFilename path).2 ∈ keys (rootSlots s)
    · obtain ⟨k, x, slot, -, opened⟩ := filesysOpen_effect vol.mounted plain present fun x member => by
        refine ⟨vol.ne_root (mem_rootFiles.mpr ⟨_, member⟩), ?_⟩
        rw [free x member]
        exact (fun i never => by cases never)
      exact .opened (mem_rootFiles.mpr ⟨_, List.mem_of_getElem? slot⟩) opened
    · exact .looked (filesysOpen_absent vol.mounted plain present).2
  | read inode size offset =>
    have same : FileOp.step s (.read inode size offset) = s := inodeReadAt_snd s inode size offset
    rw [same]
    exact .looked (RootClosed.refl vol.mounted.handle)
  | write inode buffer size offset =>
    obtain ⟨⟨listed, held⟩, some, smallK, smallO⟩ := may
    have file := (vol.file inode listed).1
    by_cases small : offset + size < 2 ^ 31
    · obtain ⟨new, effect⟩ := inodeWriteAt_effect vol.mounted.dir.fine file held
        (vol.foreign (List.mem_cons_of_mem _ listed)) some small buffer
      exact .wrote listed some small effect
    · have refused : FileOp.step s (.write inode buffer size offset) = s := congrArg Prod.snd
        (inodeWriteAt_overflow vol.mounted.handle.nodup file smallO smallK (by omega) buffer)
      rw [refused]
      exact .looked (RootClosed.refl vol.mounted.handle)
  | close inode => exact .closed may.1 (vol.fileClosed may)
  | remove path =>
    obtain ⟨dots, free⟩ := may
    by_cases present : (splitPathFilename path).2 ∈ keys (rootSlots s)
    · obtain ⟨k, x, slot, -, unlinked⟩ := filesysRemove_effect vol.mounted dots present fun x member =>
        vol.removable (mem_rootFiles.mpr ⟨_, member⟩)
      exact .removed slot unlinked
    · exact .looked (filesysRemove_absent vol.mounted dots present).2

/-- What an operation leaves behind: the files it does not concern are as they were. -/
structure Kept (s t : FlatFs) (op : FileOp) : Prop where
  volume : ∃ m, Volume t m
  others : ∀ y ∈ rootFiles s, ¬op.Concerns s y → Untouched s t y

theorem kept (vol : Volume s n) {op : FileOp} (effect : OpEffect s n op t) : Kept s t op := by
  cases effect with
  | created proper creation =>
    obtain ⟨next, others, -⟩ := vol.creates creation proper
    exact ⟨next, fun y listed _ => others y listed⟩
  | opened listed opened =>
    obtain ⟨next, -, others⟩ := vol.opens listed opened
    exact ⟨⟨n, next⟩, fun y listed _ => others y listed⟩
  | looked only =>
    obtain ⟨next, -, others⟩ := vol.only only
    exact ⟨⟨n, next⟩, fun y listed _ => others y listed⟩
  | wrote listed _ _ effect =>
    obtain ⟨next, -, others⟩ := vol.writes listed effect
    exact ⟨⟨n, next⟩, others⟩
  | closed listed closed =>
    obtain ⟨next, -, others⟩ := vol.closes listed closed
    exact ⟨⟨n, next⟩, fun y listed _ => others y listed⟩
  | removed slot unlinked =>
    obtain ⟨next, -, others⟩ := vol.removes slot unlinked
    refine ⟨⟨n, next⟩, fun y listed other => others y listed fun same => other ?_⟩
    rw [same]
    exact List.mem_of_getElem? slot

end Volume

/-- The sectors that the free-map inode, the root inode and the inodes of the files refer to, and their own. -/
def referenced (s : FlatFs) : List BlockSector :=
  (FREE_MAP_SECTOR :: freeMapNodes s) ++ (owners s).flatMap (sectorsOf s)

/-- Every sector that something refers to is marked used, and no other thing refers to it. -/
structure SectorsOwned (s : FlatFs) : Prop where
  used : ∀ z ∈ referenced s, Used s.freeMap z
  once : (referenced s).Nodup

theorem Volume.sectorsOwned {s : FlatFs} {n : Nat} (vol : Volume s n) : SectorsOwned s := by
  have fine := vol.mounted.dir.fine
  have nodes : (freeMapNodes s).Nodup := by
    obtain ⟨f, held, -⟩ := vol.mounted.map
    rw [freeMapNodes_open held]
    exact (fine.file f held).layout.nodup
  have mine : ∀ z ∈ (FileSystem.owners s).flatMap (sectorsOf s), ∃ x ∈ FileSystem.owners s, z ∈ sectorsOf s x := fun z member =>
    List.mem_flatMap.mp member
  have disjoint : (FileSystem.owners s).Pairwise (Function.onFun List.Disjoint (sectorsOf s)) := by
    apply vol.owners.imp_of_mem
    intro x y mineX mineY different z inX inY
    exact vol.apart x mineX y mineY different z inX inY
  constructor
  · intro z member
    rcases List.mem_append.mp member with map | owned
    · rcases List.mem_cons.mp map with rfl | inside
      · exact fine.first
      · exact freeMapNodes_used fine inside
    · obtain ⟨x, owner, inside⟩ := mine z owned
      exact (vol.owner owner).own.used z inside
  · apply List.nodup_append.mpr
    refine ⟨List.nodup_cons.mpr ⟨zero_not_mem_freeMapNodes s, nodes⟩, ?_, fun z map y owned same => ?_⟩
    · exact List.nodup_flatMap.mpr ⟨fun x owner => (vol.owner owner).own.nodup, disjoint⟩
    · subst same
      obtain ⟨x, owner, inside⟩ := mine z owned
      rcases List.mem_cons.mp map with rfl | node
      · exact (vol.owner owner).own_ne_zero inside rfl
      · exact (vol.owner owner).own.apart z inside node

theorem Fresh.volume {size : BlockSector} {s : FlatFs} (fresh : Fresh size s) : Volume s MAX_FILES_IN_DIRECTORY := by
  have empty : bindings (rootSlots s) = [] := by
    rw [fresh.slots, List.eq_nil_iff_forall_not_mem]
    rintro ⟨name, x⟩ member
    cases List.eq_of_mem_replicate (mem_bindings.mp member)
  have files : rootFiles s = [] := by rw [rootFiles, empty, List.map_nil]
  refine ⟨fresh.mounted, ?_, ?_, ?_, ?_, fun z i held notMap _ => ?_⟩
  · rw [keys, empty]
    exact List.nodup_nil
  · rw [owners, files]
    exact List.nodup_singleton _
  · rw [files]
    exact (fun x never => by cases never)
  · rw [owners, files]
    intro x mineX y mineY different
    exact absurd ((List.mem_singleton.mp mineX).trans (List.mem_singleton.mp mineY).symm) different
  · obtain ⟨a, inodes⟩ := fresh.inodes
    rw [Fs.findInode, inodes, List.find?_singleton] at held
    split at held
    · rename_i same
      exact absurd (beq_iff_eq.mp same).symm notMap
    · cases held

section reads

variable {s t : FlatFs} {x y : BlockSector}

theorem FileAt.reads (file : FileAt s x) (n o : Nat) : (inodeReadAt s x n o).1 = GrowArray.slice (contents s x) o n := by
  rw [inodeReadAt_spec file.length file.good.fits file.good.mapped, file.contents_content, slice_content]

theorem length_contents (s : FlatFs) (x : BlockSector) : (contents s x).length = fileLen s x := by
  rw [contents, content, List.length_map, List.length_range, fileLen]

theorem FileAt.reads_all (file : FileAt s x) {size : Nat} (length : s.inodeLength x = size) :
    (inodeReadAt s x size 0).1 = contents s x := by
  have all := file.reads size 0
  have whole : (contents s x).length = size := by
    rw [length_contents, fileLen, length, Int.toNat_natCast]
  rw [GrowArray.slice, List.drop_zero, ← whole, List.take_length] at all
  rw [← whole]
  exact all

/-- A file is still listed, as long as it was and with the same bytes to read. -/
structure SameFile {σ : Type} [Store σ BlockSector Sector] (s t : Fs σ) (x : BlockSector) : Prop where
  listed : x ∈ rootFiles t.flat
  length : t.inodeLength x = s.inodeLength x
  reads : ∀ n o : Nat, (inodeReadAt t x n o).1 = (inodeReadAt s x n o).1

theorem Volume.sameFile {n : Nat} (vol : Volume t n) (file : FileAt s y) (kept : Volume.Untouched s t y) :
    SameFile s t y := by
  obtain ⟨listed, bytes, length⟩ := kept
  refine ⟨listed, length, fun n o => ?_⟩
  rw [(vol.file y listed).1.reads, file.reads, bytes]

theorem inodeReadAt_fst {σ : Type} [Store σ BlockSector Sector] [LawfulStore σ] (s : Fs σ) (x : BlockSector)
    (n o : Int) : (inodeReadAt s x n o).1 = (inodeReadAt s.flat x n o).1 :=
  congrArg Prod.fst (inodeReadAt_flat s x n o)

end reads

/-- The states that a session on a freshly formatted file system reaches. -/
def Session (cache : BufferCache) (size : BlockSector) (s : Fs BufferCache) : Prop :=
  Run (fun s op => FileOp.May s.flat op) FileOp.step (filesysInit cache size true) s

theorem Session.volume {cache : BufferCache} {size : BlockSector} {s : Fs BufferCache} (run : Session cache size s)
    (went : formats cache size = true) : ∃ n, Volume s.flat n := by
  refine Run.invariant (fun u => ∃ n, Volume u.flat n) run ?_ fun u op vol may => ?_
  · rw [filesysInit_flat]
    exact ⟨_, (filesysInit_fresh (by rw [formats_flat]; exact went)).volume⟩
  · obtain ⟨n, vol⟩ := vol
    rw [FileOp.step_flat]
    exact (vol.kept (vol.effect may)).volume

/-- In every session no sector is referenced twice, and an operation changes no other file than the one it is
made to; a new file is all zeros. -/
theorem session_isolated {cache : BufferCache} {size : BlockSector} (went : formats cache size = true)
    {s : Fs BufferCache} (run : Session cache size s) : SectorsOwned s.flat ∧
      (∀ op, FileOp.May s.flat op → ∀ x ∈ rootFiles s.flat, ¬op.Concerns s.flat x → SameFile s (FileOp.step s op) x) ∧
      ∀ path bytes, (0 : Byte) ∉ path → (filesysCreate s path bytes false).1 = true →
        ∃ x ∈ rootFiles (filesysCreate s path bytes false).2.flat, x ∉ rootFiles s.flat ∧
          (filesysCreate s path bytes false).2.inodeLength x = offsetOf bytes ∧
          ∀ n o : Nat, (inodeReadAt (filesysCreate s path bytes false).2 x n o).1 =
            List.replicate (min n ((offsetOf bytes).toNat - o)) 0 := by
  obtain ⟨n, vol⟩ := run.volume went
  refine ⟨vol.sectorsOwned, fun op may x listed other => ?_, fun path bytes proper made => ?_⟩
  · have kept := vol.kept (vol.effect may)
    obtain ⟨m, next⟩ := kept.volume
    have same := next.sameFile (vol.file x listed).1 (kept.others x listed other)
    rw [← FileOp.step_flat] at same
    refine ⟨same.listed, same.length, fun k o => ?_⟩
    rw [inodeReadAt_fst, inodeReadAt_fst s]
    exact same.reads k o
  · have flat := filesysCreate_flat s path bytes false
    obtain ⟨m, x, -, created⟩ := filesysCreate_newFile vol.mounted (by rw [← flat]; exact made) proper
    rw [← flat, flatten_snd] at created
    have stranger : x ∉ rootFiles s.flat := fun listed =>
      created.fresh ((vol.file x listed).1.own.used x List.mem_cons_self)
    refine ⟨x, ?_, stranger, created.length, fun k o => ?_⟩
    · rw [mem_rootFiles, created.slots]
      exact ⟨_, List.mem_of_getElem? (put_freeSlot _ _)⟩
    · rw [inodeReadAt_fst, created.file.reads, created.blank, GrowArray.slice, List.drop_replicate,
        List.take_replicate]

theorem session_isolated_create : SectorsOwned (FileOp.step (formatted 80) (.create [97] 512)).flat := by
  have went := formats_blank (show FormatFits 80 by decide +kernel)
  have proper : (0 : Byte) ∉ [97] := by decide
  have run : Session (blankDisk 80) 80 (FileOp.step (formatted 80) (.create [97] 512)) := .next _ .start proper
  exact (session_isolated went run).1

end ShellOs.FileSystem
