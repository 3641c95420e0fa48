import ShellOs.FileSystem.GrowableFile

/-! Files that own their sectors: what keeps them as they are, and what writing one of them does. -/

namespace ShellOs.FileSystem
open Lib BlockTree GrowArray

theorem Extends.blockAt_same {d e : InodeDisk} (extended : Extends d e) (v : Disk) {i : Nat}
    (present : d.entries (position i).1 ≠ 0) : blockAt v d i = blockAt v e i := by
  simp only [blockAt, forestLeaf, extended.entries _ present]

theorem blockAt_entry {v : Disk} {d : InodeDisk} {i : Nat} (mapped : blockAt v d i ≠ 0) :
    d.entries (position i).1 ≠ 0 := by
  intro null
  apply mapped
  simp only [blockAt, forestLeaf, null]
  cases inodeShape.level (position i).1 <;> simp only [leaf, if_true]

theorem Extends.nodes {d e : InodeDisk} (extended : Extends d e) (v : Disk) :
    (inodeNodes v d).Sublist (inodeNodes v e) := by
  refine forestNodes_sublist fun j => ?_
  by_cases null : d.entries j = 0
  · exact Or.inl null
  · exact Or.inr (extended.entries j null).symm

theorem Extends.inodeOk {v : Disk} {b : Bitmap} {d e : InodeDisk} {len : Nat} (extended : Extends d e)
    (good : InodeOk v b e len) (mapped : Mapped v d len) : InodeOk v b d len := by
  have sub := extended.nodes v
  refine ⟨⟨?_, good.fits, mapped, good.nodup.sublist sub, fun x member => good.used x (sub.subset member)⟩,
    fun i bound beyond present => ?_, fun p beyond below => ?_⟩
  · rw [← extended.length]
    exact good.length
  · have same := extended.blockAt_same v (blockAt_entry present)
    rw [same] at present ⊢
    exact good.blank i bound beyond present
  · have same := extended.blockAt_same v (blockAt_entry (mapped _ below))
    rw [byteAt, same]
    exact good.tail p beyond below

theorem Extends.mapped {v w : Disk} {d e e' : InodeDisk} {len : Nat} (extended : Extends d e)
    (later : Extends e e') (mapped : Mapped v d len)
    (kept : ∀ i, i * 512 < len → blockAt w e' i = blockAt v e i) : Mapped w d len := by
  intro i below
  have present := blockAt_entry (mapped i below)
  rw [(extended.trans later).blockAt_same w present, kept i below, ← extended.blockAt_same v present]
  exact mapped i below

/-- All the sectors of a file, that of its inode first. -/
def sectorsOf (s : FlatFs) (x : BlockSector) : List BlockSector := x :: inodeNodes s.cache (s.inodeData x)

def fileLen (s : FlatFs) (x : BlockSector) : Nat := (s.inodeLength x).toNat

/-- A file that is well formed, in memory and on the disk, and has its sectors to itself. -/
structure FileAt (s : FlatFs) (x : BlockSector) : Prop where
  nonzero : x ≠ 0
  good : InodeOk s.cache s.freeMap (s.inodeData x) (fileLen s x)
  own : Own s (sectorsOf s x)
  extended : Extends (InodeDisk.decode (s.cache x)) (s.inodeData x)
  mapped : Mapped s.cache (InodeDisk.decode (s.cache x)) (fileLen s x)

namespace FileAt

variable {s t : FlatFs} {x y : BlockSector}

theorem length (file : FileAt s x) : s.inodeLength x = fileLen s x := file.good.length

theorem apart (file : FileAt s x) : x ∉ inodeNodes s.cache (s.inodeData x) :=
  (List.nodup_cons.mp file.own.nodup).1

theorem contents_content (file : FileAt s x) :
    contents s x = content s.cache (s.inodeData x) 0 (fileLen s x) :=
  contents_eq rfl file.good.length

theorem frame (file : FileAt s x) (same : ∀ z ∈ sectorsOf s x, t.cache z = s.cache z)
    (used : ∀ z ∈ sectorsOf s x, Used t.freeMap z) (nodes : freeMapNodes t = freeMapNodes s)
    (data : t.inodeData x = s.inodeData x) :
    FileAt t x ∧ sectorsOf t x = sectorsOf s x ∧ contents t x = contents s x ∧
      t.inodeLength x = s.inodeLength x := by
  have inNodes : ∀ z ∈ inodeNodes s.cache (s.inodeData x), t.cache z = s.cache z := fun z member =>
    same z (List.mem_cons_of_mem _ member)
  obtain ⟨good, bytes⟩ := file.good.congr (w := t.cache) inNodes fun z member =>
    used z (List.mem_cons_of_mem _ member)
  have length : t.inodeLength x = s.inodeLength x := by rw [Fs.inodeLength, data]; rfl
  have len : fileLen t x = fileLen s x := by rw [fileLen, length]; rfl
  obtain ⟨allNodes, -, blocks⟩ := inode_congr (d := s.inodeData x) (e := s.inodeData x) (fun _ _ => rfl)
    fun z member => inNodes z (inodeInner_sub member)
  have sectors : sectorsOf t x = sectorsOf s x := by rw [sectorsOf, data, allNodes]; rfl
  have disk : t.cache x = s.cache x := same x List.mem_cons_self
  refine ⟨⟨file.nonzero, by rw [data, len]; exact good, ?_, by rw [data, disk]; exact file.extended, ?_⟩,
    sectors, ?_, length⟩
  · rw [sectors]
    exact ⟨file.own.nodup, used, fun z member => nodes ▸ file.own.apart z member⟩
  · rw [disk, len]
    exact file.extended.mapped (Extends.refl _) file.mapped fun i below => blocks i (file.good.small below)
  · rw [file.contents_content, contents_eq data good.length]
    refine List.map_congr_left fun p member => ?_
    have := List.mem_range.mp member
    exact bytes _ (by omega)

theorem kept (file : FileAt s y) (fine : FreeMapOk s) {new touched : List BlockSector}
    (took : Took s t new touched) (disjoint : ∀ z ∈ sectorsOf s y, z ∉ touched)
    (data : t.inodeData y = s.inodeData y) :
    FileAt t y ∧ sectorsOf t y = sectorsOf s y ∧ contents t y = contents s y ∧
      t.inodeLength y = s.inodeLength y := by
  refine file.frame (fun z member => ?_) (fun z member => took.keepsUsed z (file.own.used z member))
    took.nodes data
  have nonzero : z ≠ 0 := by
    rcases List.mem_cons.mp member with rfl | inNodes
    · exact file.nonzero
    · rintro rfl
      exact zero_not_mem_inodeNodes _ _ inNodes
  exact took.frame_used fine nonzero (file.own.used z member) (file.own.apart z member) (disjoint z member)

end FileAt

/-- The open inodes are the same, but for the data of one. -/
structure SameHandles (s t : FlatFs) (x : BlockSector) : Prop where
  others : ∀ z, z ≠ x → t.findInode z = s.findInode z
  this : ∃ d, t.findInode x = (s.findInode x).map fun i => { i with data := d }
  sectors : t.openInodes.map Inode.sector = s.openInodes.map Inode.sector

theorem SameHandles.refl {s t : FlatFs} (x : BlockSector) (same : t.openInodes = s.openInodes) :
    SameHandles s t x := by
  have find : ∀ z, t.findInode z = s.findInode z := fun z => by unfold Fs.findInode; rw [same]
  refine ⟨fun z _ => find z, ?_, by rw [same]⟩
  rw [find]
  cases s.findInode x with
  | none => exact ⟨InodeDisk.empty, rfl⟩
  | some i => exact ⟨i.data, rfl⟩

theorem SameHandles.set {s t : FlatFs} {x : BlockSector} {d : InodeDisk}
    (same : t.openInodes = (s.setInodeData x d).openInodes) : SameHandles s t x := by
  have find : ∀ z, t.findInode z = (s.setInodeData x d).findInode z := fun z => by
    unfold Fs.findInode
    rw [same]
  refine ⟨fun z different => (find z).trans (Fs.findInode_setInodeData_ne s different d), ⟨d, ?_⟩, ?_⟩
  · rw [find, Fs.findInode_setInodeData]
    cases found : s.findInode x with
    | none => rfl
    | some i => simp only [Option.map_some, if_pos (Fs.findInode_sector found)]
  · rw [same]
    simp only [Fs.setInodeData, List.map_map]
    apply List.map_congr_left
    intro i _
    simp only [Function.comp]
    split <;> rfl

theorem SameHandles.listed {s t : FlatFs} {x : BlockSector} (same : SameHandles s t x) (z : BlockSector) :
    (t.findInode z).isSome = (s.findInode z).isSome := by
  by_cases this : z = x
  · subst this
    obtain ⟨d, found⟩ := same.this
    rw [found, Option.isSome_map]
  · rw [same.others z this]

def writeNeeds (s : FlatFs) (x : BlockSector) (fin : Nat) : List BlockKind :=
  if s.inodeDenyWriteCnt x ≠ 0 ∨ fin ≤ fileLen s x then []
  else inodeMissing s.cache (s.inodeData x) (bytesToSectors fin)

def CanWrite (s : FlatFs) (x : BlockSector) (fin : Nat) : Prop :=
  s.inodeDenyWriteCnt x = 0 ∧ (fin ≤ fileLen s x ∨
    bytesToSectors fin ≤ MAX_SECTORS ∧ (writeNeeds s x fin).length ≤ (freeSectors s.freeMap).length)

structure WriteEffect (s : FlatFs) (x : BlockSector) (buffer : Nat → Byte) (n o : Nat) (r : Int × FlatFs)
    (new : List BlockSector) : Prop where
  took : Took s r.2 new (sectorsOf s x)
  handles : SameHandles s r.2 x
  isDirWord : (r.2.inodeData x).isDirWord = (s.inodeData x).isDirWord
  file : FileAt r.2 x
  sectors : ∀ z ∈ sectorsOf r.2 x, z ∈ sectorsOf s x ∨ z ∈ new
  result : WritesAllOrNothing s x buffer n o r
  done : r.1 = n ↔ CanWrite s x (o + n)
  enough : (writeNeeds s x (o + n)).length ≤ (freeSectors s.freeMap).length →
    new.length = (writeNeeds s x (o + n)).length ∧ r.2.cache 0 = s.cache 0
  short : (freeSectors s.freeMap).length < (writeNeeds s x (o + n)).length →
    freeSectors r.2.freeMap = [] ∧ r.2.cache 0 =
      if (writeNeeds s x (o + n))[(freeSectors s.freeMap).length]? = some .index then zeros else s.cache 0

theorem Wrote.elsewhere {v w : Disk} {b : Bitmap} {d : InodeDisk} {len o n : Nat} {bytes : Nat → Byte}
    (wrote : Wrote v w d len o n bytes) (layout : Layout v b d len) (bound : o + n ≤ len)
    {y : BlockSector} (apart : y ∉ inodeNodes v d) : w y = v y := by
  refine wrote.frame y fun i _ below same => apart ?_
  rw [same]
  exact blockAt_mem (layout.small (by omega)) (layout.mapped i (by omega))

section write

variable {s : FlatFs} {x : BlockSector} {n o : Nat}

theorem writeEffect_inside (fine : FreeMapOk s) (file : FileAt s x) (writable : s.inodeDenyWriteCnt x = 0)
    (some : 0 < n) (bound : o + n ≤ fileLen s x) (buffer : Nat → Byte) :
    WriteEffect s x buffer n o (inodeWriteAt s x buffer n o) [] := by
  have result := inodeWriteAt_inside fine.small (Or.inr file.apart) writable file.good.toLayout some bound buffer
  obtain ⟨w, run, wrote⟩ := inodeWriteWith_inside
    (freeMapAllocateWith (inodeWriteDepth (s.freeMap.bitCnt + 1)) 1) fine.small (Or.inr file.apart) writable
    file.good.toLayout some bound buffer
  have same : inodeWriteAt s x buffer n o = ((n : Int), { s with cache := w }) := run
  have settled : Settled s x := Or.inr file.apart
  have data := settled.data file.good.fits file.good.mapped wrote bound
  have outside := fun {y} => wrote.elsewhere (y := y) file.good.toLayout bound
  have none : writeNeeds s x (o + n) = [] := if_pos (Or.inr bound)
  have disk : w x = s.cache x := outside file.apart
  obtain ⟨nodes, -⟩ := wrote.nodes file.good.nodup file.good.fits bound
  have sectors : sectorsOf { s with cache := w } x = sectorsOf s x := by
    rw [sectorsOf, data]
    exact congrArg (x :: ·) nodes
  have took : Took s { s with cache := w } [] (sectorsOf s x) := by
    refine ((Took.refl fine).touch (by simp)).overwrite (fun y _ _ mine => ?_) fun y member => ?_
    · exact outside fun inNodes => mine (List.mem_cons_of_mem _ inNodes)
    · exact outside fun inNodes => file.own.apart y (List.mem_cons_of_mem _ inNodes) member
  have len : fileLen { s with cache := w } x = fileLen s x := by
    simp only [fileLen, Fs.inodeLength, data]
  rw [same] at result ⊢
  refine ⟨took, SameHandles.refl x rfl, by rw [data], ⟨file.nonzero, ?_, ?_, ?_, ?_⟩, ?_, result, ?_, ?_, ?_⟩
  · rw [data, len]
    exact file.good.wrote wrote bound
  · rw [sectors]
    exact ⟨file.own.nodup, file.own.used, fun z member => by rw [took.nodes]; exact file.own.apart z member⟩
  · rw [data]
    simp only [disk]
    exact file.extended
  · simp only [disk, len]
    exact file.extended.mapped (Extends.refl _) file.mapped fun i below => wrote.blocks i (file.good.small below)
  · rw [sectors]
    exact fun z member => Or.inl member
  · exact ⟨fun _ => ⟨writable, Or.inl bound⟩, fun _ => rfl⟩
  · rw [none]
    exact fun _ => ⟨rfl, outside (zero_not_mem_inodeNodes _ _)⟩
  · rw [none]
    exact fun less => by simp at less

theorem inodeWriteAt_overwrites (fine : FreeMapOk s) (file : FileAt s x) (writable : s.inodeDenyWriteCnt x = 0)
    (some : 0 < n) (bound : o + n ≤ fileLen s x) (buffer : Nat → Byte) :
    ∃ w, inodeWriteAt s x buffer n o = ((n : Int), { s with cache := w }) ∧
      sectorsOf { s with cache := w } x = sectorsOf s x := by
  obtain ⟨w, run, wrote⟩ := inodeWriteWith_inside
    (freeMapAllocateWith (inodeWriteDepth (s.freeMap.bitCnt + 1)) 1) fine.small (Or.inr file.apart) writable
    file.good.toLayout some bound buffer
  have settled : Settled s x := Or.inr file.apart
  obtain ⟨nodes, -⟩ := wrote.nodes file.good.nodup file.good.fits bound
  refine ⟨w, run, ?_⟩
  rw [sectorsOf, settled.data file.good.fits file.good.mapped wrote bound]
  exact congrArg (x :: ·) nodes

section extending

variable {d' : InodeDisk} {t : FlatFs} {goal : Nat × Nat → Prop} {ok : Bool} {needs : List BlockKind}
  {new leaked : List BlockSector}

theorem FileAt.ownNodes (file : FileAt s x) : Own s (inodeNodes s.cache (s.inodeData x)) :=
  file.own.sub (List.nodup_cons.mp file.own.nodup).2 fun _ member => List.mem_cons_of_mem _ member

theorem FileAt.grown_own (fine : FreeMapOk s) (file : FileAt s x)
    (grown : Grown (Within 128 inodeShape) goal s (inodeAt s.cache (s.inodeData x)) t
      (inodeAt t.cache d') ok needs new leaked) : Own t (x :: inodeNodes t.cache d') ∧
      (∀ z ∈ inodeNodes t.cache d', z ∈ sectorsOf s x ∨ z ∈ new) ∧ t.cache x = s.cache x := by
  have usedX := file.own.used x List.mem_cons_self
  have apartX := file.own.apart x List.mem_cons_self
  have owned := grown.own fine file.ownNodes
  have fresh : x ∉ inodeNodes t.cache d' := by
    intro member
    rcases grown.grows.mem_old_or_new member with inOld | inNew
    · exact file.apart inOld
    · exact grown.took.new_not_used inNew usedX
  refine ⟨⟨List.nodup_cons.mpr ⟨fresh, owned.nodup⟩, fun z member => ?_, fun z member => ?_⟩,
    fun z member => (grown.grows.mem_old_or_new member).imp_left (List.mem_cons_of_mem _), ?_⟩
  · rcases List.mem_cons.mp member with rfl | inNodes
    · exact grown.took.keepsUsed _ usedX
    · exact owned.used z inNodes
  · rcases List.mem_cons.mp member with rfl | inNodes
    · rw [grown.took.nodes]
      exact apartX
    · exact owned.apart z inNodes
  · exact grown.took.frame_used fine file.nonzero usedX apartX fun member =>
      file.apart (inodeInner_sub member)

theorem setInodeData_findInode (same : t.openInodes = s.openInodes) (d : InodeDisk) :
    (t.setInodeData x d).openInodes = (s.setInodeData x d).openInodes := by
  simp only [Fs.setInodeData, same]

/-- A write that could not get its sectors: they are the file's in memory, and in use, but the inode
on the disk does not know of them. -/
theorem FileAt.reserved (fine : FreeMapOk s) (file : FileAt s x) (listed : (s.findInode x).isSome)
    (foreign : ∀ f, s.freeMapFile = some f → f.inode ≠ x)
    (grown : Grown (Within 128 inodeShape) goal s (inodeAt s.cache (s.inodeData x)) t
      (inodeAt t.cache d') ok needs new leaked) (extended : Extends (s.inodeData x) d') :
    Took s (t.setInodeData x d') new (sectorsOf s x) ∧ (t.setInodeData x d').inodeData x = d' ∧
      FileAt (t.setInodeData x d') x ∧
      ∀ z ∈ sectorsOf (t.setInodeData x d') x, z ∈ sectorsOf s x ∨ z ∈ new := by
  have listedNext : (t.findInode x).isSome := by
    unfold Fs.findInode
    rw [grown.opened]
    exact listed
  have data := Fs.inodeData_setInodeData listedNext d'
  obtain ⟨good, -⟩ := grown.content fine file.ownNodes file.good extended.length
  obtain ⟨own, sub, disk⟩ := file.grown_own fine grown
  have length : fileLen (t.setInodeData x d') x = fileLen s x := by
    simp only [fileLen, Fs.inodeLength, data, extended.length]
  have took : Took s (t.setInodeData x d') new (sectorsOf s x) :=
    (grown.took.touch fun z member => List.mem_cons_of_mem _ (inodeInner_sub member)).setInodeData foreign d'
  have sectors : sectorsOf (t.setInodeData x d') x = x :: inodeNodes t.cache d' := by
    rw [sectorsOf, data]
    rfl
  refine ⟨took, data, ⟨file.nonzero, ?_, ?_, ?_, ?_⟩, fun z member => ?_⟩
  · rw [data, length]
    exact good
  · rw [sectors]
    exact ⟨own.nodup, own.used, fun z member => by
      rw [took.nodes, ← grown.took.nodes]
      exact own.apart z member⟩
  · rw [data]
    change Extends (InodeDisk.decode (t.cache x)) d'
    rw [disk]
    exact file.extended.trans extended
  · rw [length]
    change Mapped t.cache (InodeDisk.decode (t.cache x)) _
    rw [disk]
    exact file.extended.mapped extended file.mapped fun i below =>
      (grown.kept fine file.ownNodes (file.good.small below) (file.good.mapped i below)).1
  · rw [sectors] at member
    rcases List.mem_cons.mp member with rfl | inNodes
    · exact Or.inl List.mem_cons_self
    · exact sub z inNodes

/-- A write that got its sectors: the inode goes to the disk with its new length, the bytes into the
sectors. -/
theorem FileAt.lengthened (fine : FreeMapOk s) (file : FileAt s x)
    (foreign : ∀ f, s.freeMapFile = some f → f.inode ≠ x)
    (grown : Grown (Within 128 inodeShape) goal s (inodeAt s.cache (s.inodeData x)) t
      (inodeAt t.cache d') ok needs new leaked) (extended : Extends (s.inodeData x) d') {fin : Nat}
    {w : Disk} {buffer : Nat → Byte} {e : InodeDisk} (raised : e = { d' with length := e.length })
    (good : InodeOk (Function.update t.cache x e.encode) t.freeMap e fin) (bound : o + n ≤ fin)
    (wrote : Wrote (Function.update t.cache x e.encode) w e fin o n buffer)
    (data : ({ t.setInodeData x e with cache := w } : FlatFs).inodeData x = e) :
    let u : FlatFs := { t.setInodeData x e with cache := w }
    Took s u new (sectorsOf s x) ∧ FileAt u x ∧
      (∀ z ∈ sectorsOf u x, z ∈ sectorsOf s x ∨ z ∈ new) ∧ u.cache 0 = t.cache 0 := by
  intro u
  have data : u.inodeData x = e := data
  obtain ⟨own, sub, disk⟩ := file.grown_own fine grown
  have same : inodeNodes t.cache e = inodeNodes t.cache d' := by rw [raised]; rfl
  rw [← same] at own sub
  have apart : x ∉ inodeNodes t.cache e := (List.nodup_cons.mp own.nodup).1
  have elsewhere : ∀ z ∈ inodeInner t.cache e, Function.update t.cache x e.encode z = t.cache z :=
    fun z member => Function.update_of_ne (fun equal : z = x => apart (equal ▸ inodeInner_sub member)) _ _
  obtain ⟨nodes, -, -⟩ := inode_congr (d := e) (e := e) (fun _ _ => rfl) elsewhere
  have outside := fun {z} => wrote.elsewhere (y := z) good.toLayout bound
  rw [nodes] at outside
  obtain ⟨written, -⟩ := wrote.nodes good.nodup good.fits bound
  have onDisk : w x = e.encode := (outside apart).trans (Function.update_self _ _ _)
  have sectors : sectorsOf u x = x :: inodeNodes t.cache e := by
    rw [sectorsOf, data]
    exact congrArg (x :: ·) (written.trans nodes)
  have len : fileLen u x = fin := by
    rw [fileLen, Fs.inodeLength, data, good.length, Int.toNat_natCast]
  have apartX : x ∉ freeMapNodes s := file.own.apart x List.mem_cons_self
  have took : Took s u new (sectorsOf s x) := by
    have first : Took s (t.setInodeData x e) new (sectorsOf s x) := (grown.took.touch fun z member =>
      List.mem_cons_of_mem _ (inodeInner_sub member)).setInodeData foreign e
    refine (first.write (Or.inr (Or.inr List.mem_cons_self)) apartX e.encode).overwrite
      (fun z _ fresh mine => ?_) fun z member => ?_
    · refine outside fun inNodes => ?_
      rcases sub z inNodes with inOld | inNew
      · exact mine inOld
      · exact fresh inNew
    · refine outside fun inNodes => ?_
      rw [← grown.took.nodes] at member
      exact own.apart z (List.mem_cons_of_mem _ inNodes) member
  refine ⟨took, ⟨file.nonzero, ?_, ?_, ?_, ?_⟩, fun z member => ?_, ?_⟩
  · rw [data, len]
    exact good.wrote wrote bound
  · rw [sectors]
    exact ⟨own.nodup, own.used, fun z member => by
      rw [took.nodes, ← grown.took.nodes]
      exact own.apart z member⟩
  · rw [data]
    simp only [u, onDisk, InodeDisk.decode_encode]
    exact Extends.refl e
  · simp only [len]
    simp only [u, onDisk, InodeDisk.decode_encode]
    exact wrote.mapped good.fits good.mapped
  · rw [sectors] at member
    rcases List.mem_cons.mp member with rfl | inNodes
    · exact Or.inl List.mem_cons_self
    · exact sub z inNodes
  · exact (outside (zero_not_mem_inodeNodes _ _)).trans (Function.update_of_ne (Ne.symm file.nonzero) _ _)

end extending

theorem writeEffect_extending (fine : FreeMapOk s) (file : FileAt s x)
    (writable : s.inodeDenyWriteCnt x = 0) (foreign : ∀ f, s.freeMapFile = some f → f.inode ≠ x)
    (beyond : fileLen s x < o + n) (some : 0 < n) (small : o + n < 2 ^ 31) (buffer : Nat → Byte)
    (keeps : (s.findInode x).isSome ∨ (inodeWriteAt s x buffer n o).1 ≠ 0) : ∃ new, WriteEffect s x buffer n o (inodeWriteAt s x buffer n o) new := by
  have start : Extending s x (s.inodeData x) (fileLen s x) :=
    ⟨fine, rfl, writable, file.good, file.own, foreign⟩
  have result := inodeWriteAt_extending start beyond small buffer keeps
  obtain ⟨d', t, new, leaked, reached, grown, extended, fails, succeeds⟩ := inodeWriteWith_extending
    (allocates_of_depth s.freeMap.bitCnt) start beyond small buffer
  have needs : writeNeeds s x (o + n) =
      inodeMissing s.cache (s.inodeData x) (bytesToSectors (o + n : Nat)) :=
    if_neg (by rw [not_or]; exact ⟨by simp [writable], by omega⟩)
  have can : CanWrite s x (o + n) ↔
      (reached && decide (bytesToSectors (o + n : Nat) ≤ MAX_SECTORS)) = true := by
    rw [Bool.and_eq_true, decide_eq_true_eq, grown.enough, CanWrite, needs]
    constructor
    · rintro ⟨-, inside | ⟨few, enough⟩⟩
      · omega
      · exact ⟨enough, few⟩
    · exact fun both => ⟨writable, Or.inr ⟨both.2, both.1⟩⟩
  refine ⟨new, ?_⟩
  cases done : reached && decide (bytesToSectors (o + n : Nat) ≤ MAX_SECTORS) with
  | false =>
    have same : inodeWriteAt s x buffer n o = (0, t.setInodeData x d') := fails done
    have listed := keeps.resolve_right fun wrote => wrote (congrArg Prod.fst same)
    obtain ⟨took, data, reserved, sub⟩ := file.reserved fine listed foreign grown extended
    rw [same] at result ⊢
    refine ⟨took, SameHandles.set (setInodeData_findInode grown.opened d'), by rw [data, extended.isDirWord],
      reserved, sub, result, ?_, ?_, ?_⟩
    · rw [can, done]
      constructor
      · intro equal
        simp only at equal
        omega
      · exact fun never => by cases never
    · rw [needs]
      exact fun enough => ⟨(grown.done enough).2.2.1, (grown.done enough).2.2.2⟩
    · rw [needs]
      exact fun less => (grown.short less).2
  | true =>
    obtain ⟨good, -, -, w, run, wrote, data⟩ := succeeds done
    have same : inodeWriteAt s x buffer n o = _ := run
    obtain ⟨took, lengthened, sub, zero⟩ := file.lengthened fine foreign grown extended rfl good le_rfl wrote data
    rw [same] at result ⊢
    refine ⟨took, SameHandles.set (setInodeData_findInode grown.opened _), by rw [data]; exact extended.isDirWord,
      lengthened, sub, result, ?_, ?_, ?_⟩
    · rw [can, done]
      exact ⟨fun _ => rfl, fun _ => rfl⟩
    · rw [needs]
      exact fun enough => ⟨(grown.done enough).2.2.1, zero.trans (grown.done enough).2.2.2⟩
    · rw [needs]
      intro less
      obtain ⟨-, full, zeroed⟩ := grown.short less
      exact ⟨full, zero.trans zeroed⟩

theorem writeEffect_denied (fine : FreeMapOk s) (file : FileAt s x)
    (denied : s.inodeDenyWriteCnt x ≠ 0) (some : 0 < n) (buffer : Nat → Byte) :
    WriteEffect s x buffer n o (inodeWriteAt s x buffer n o) [] := by
  have same : inodeWriteAt s x buffer n o = (0, s) := if_pos denied
  have none : writeNeeds s x (o + n) = [] := if_pos (Or.inl denied)
  rw [same]
  refine ⟨(Took.refl fine).touch (by simp), SameHandles.refl x rfl, rfl, file, fun z member => Or.inl member,
    Or.inr ⟨rfl, rfl, rfl⟩, ?_, fun _ => ⟨by simp [none], rfl⟩, fun less => by simp [none] at less⟩
  constructor
  · intro equal
    simp only at equal
    omega
  · exact fun can => absurd can.1 denied

theorem setInodeData_same (nodup : (s.openInodes.map Inode.sector).Nodup) : s.setInodeData x (s.inodeData x) = s := by
  have kept : ∀ i ∈ s.openInodes, (if i.sector = x then { i with data := s.inodeData x } else i) = i := by
    intro i member
    split
    next here =>
      have found : s.findInode x = some i := by
        cases held : s.findInode x with
        | none =>
          rw [Fs.findInode, List.find?_eq_none] at held
          exact absurd (held i member) (by simp [here])
        | some j =>
          have sector := Fs.findInode_sector held
          exact congrArg some (List.inj_on_of_nodup_map nodup (List.mem_of_find?_eq_some held) member
            (sector.trans here.symm))
      rw [Fs.inodeData_found found rfl]
    next => rfl
  rw [Fs.setInodeData, List.map_congr_left kept, List.map_id']

theorem inodeWriteAt_overflow (nodup : (s.openInodes.map Inode.sector).Nodup) (file : FileAt s x)
    (smallO : o < 2 ^ 31) (smallN : n < 2 ^ 31) (past : 2 ^ 31 ≤ o + n) (buffer : Nat → Byte) :
    inodeWriteAt s x buffer n o = (0, s) := by
  have length := file.length
  have fits := file.good.fits
  simp only [MAX_LENGTH] at fits
  have fin : offsetOf ((o : Int) + n) < 0 := by
    rw [offsetOf_wraps (by omega) (by omega)]
    omega
  have last : byteToSector s x (offsetOf ((o : Int) + n - 1)) = (NO_SECTOR, s) := by
    refine byteToSector_outside fun inside => ?_
    by_cases edge : o + n = 2 ^ 31
    · rw [offsetOf_eq (by omega) (by omega)] at inside
      omega
    · rw [offsetOf_wraps (by omega) (by omega)] at inside
      omega
  have run : inodeWriteAt s x buffer n o = inodeWriteWith
      (freeMapAllocateWith (inodeWriteDepth (s.freeMap.bitCnt + 1)) 1) s x buffer n o := rfl
  have refused : inodeReserve (freeMapAllocateWith (inodeWriteDepth (s.freeMap.bitCnt + 1)) 1) s (s.inodeData x)
      (offsetOf ((o : Int) + n)) = ⟨false, s.inodeData x, s⟩ := if_pos fin
  rw [run, inodeWriteWith, last, if_pos rfl]
  split
  next => rfl
  next =>
    simp only
    rw [refused, if_pos rfl, setInodeData_same nodup]

/-- A write through a handle. That of a freed inode has to go well: otherwise what it has reserved is lost. -/
theorem inodeWriteAt_settles (fine : FreeMapOk s) (file : FileAt s x)
    (foreign : ∀ f, s.freeMapFile = some f → f.inode ≠ x) (some : 0 < n) (small : o + n < 2 ^ 31)
    (buffer : Nat → Byte) (keeps : (s.findInode x).isSome ∨ (inodeWriteAt s x buffer n o).1 ≠ 0) :
    ∃ new, WriteEffect s x buffer n o (inodeWriteAt s x buffer n o) new := by
  by_cases writable : s.inodeDenyWriteCnt x = 0
  · by_cases bound : o + n ≤ fileLen s x
    · exact ⟨[], writeEffect_inside fine file writable some bound buffer⟩
    · exact writeEffect_extending fine file writable foreign (by omega) some small buffer keeps
  · exact ⟨[], writeEffect_denied fine file writable some buffer⟩

theorem inodeWriteAt_effect (fine : FreeMapOk s) (file : FileAt s x) (listed : (s.findInode x).isSome)
    (foreign : ∀ f, s.freeMapFile = some f → f.inode ≠ x) (some : 0 < n) (small : o + n < 2 ^ 31)
    (buffer : Nat → Byte) : ∃ new, WriteEffect s x buffer n o (inodeWriteAt s x buffer n o) new :=
  inodeWriteAt_settles fine file foreign some small buffer (Or.inl listed)

end write

section create

theorem inodeNodes_null (v : Disk) {d : InodeDisk} (null : ∀ j, d.entries j = 0) : inodeNodes v d = [] := by
  rw [inodeNodes_direct v d (null 123) (null 124), List.filter_eq_nil_iff]
  intro x member
  obtain ⟨j, -, rfl⟩ := List.mem_map.mp member
  simp only [null, ne_eq, not_true, decide_false, Bool.false_eq_true, not_false_eq_true]

theorem blockAt_empty (v : Disk) {d : InodeDisk} (null : ∀ j, d.entries j = 0) (i : Nat) :
    blockAt v d i = 0 := by
  by_contra mapped
  exact blockAt_entry mapped (null _)

theorem missing_null (v w : Disk) (l n : Nat) (bound : n ≤ 128 ^ l) :
    missing 128 (table v) l 0 n = missing 128 (table w) l 0 n := by
  refine missing_congr bound fun x member => ?_
  cases l <;> simp [BlockTree.inner] at member

/-- The sectors that a new file of `size` bytes needs besides that of its inode. -/
def createNeeds (size : Int) : List BlockKind :=
  if offsetOf size < 0 then []
  else inodeMissing (fun _ => zeros) InodeDisk.empty (bytesToSectors (offsetOf size))

theorem empty_entries (j : Nat) : InodeDisk.empty.entries j = 0 := by
  simp [InodeDisk.entries, InodeDisk.direct, InodeDisk.empty]

theorem inodeMissing_null (v : Disk) {d : InodeDisk} (null : ∀ j, d.entries j = 0) (n : Nat) :
    inodeMissing v d n = inodeMissing (fun _ => zeros) InodeDisk.empty n := by
  unfold inodeMissing
  rw [missingDirect_congr (d := InodeDisk.empty) (e := d) fun j _ _ => by rw [null, empty_entries]]
  simp only [null, empty_entries]
  rw [missing_null v (fun _ => zeros) 1 _ (by omega), missing_null v (fun _ => zeros) 2 _ (by omega)]

def CanCreate (s : FlatFs) (size : Int) : Prop :=
  0 ≤ offsetOf size ∧ bytesToSectors (offsetOf size) ≤ MAX_SECTORS ∧
    (createNeeds size).length ≤ (freeSectors s.freeMap).length

structure CreateEffect (s : FlatFs) (sector : BlockSector) (size : Int) (isDir : Bool) (r : Bool × FlatFs)
    (new : List BlockSector) : Prop where
  took : Took s r.2 new [sector]
  opened : r.2.openInodes = s.openInodes
  file : r.1 = true → FileAt r.2 sector ∧ (∀ z ∈ sectorsOf r.2 sector, z = sector ∨ z ∈ new) ∧
    (r.2.inodeData sector).isDirWord = (if isDir then 1 else 0) ∧
    r.2.inodeLength sector = offsetOf size ∧
    contents r.2 sector = List.replicate (offsetOf size).toNat 0
  done : r.1 = true ↔ CanCreate s size
  enough : (createNeeds size).length ≤ (freeSectors s.freeMap).length →
    new.length = (createNeeds size).length ∧ r.2.cache 0 = s.cache 0
  short : (freeSectors s.freeMap).length < (createNeeds size).length →
    freeSectors r.2.freeMap = [] ∧ r.2.cache 0 =
      if (createNeeds size)[(freeSectors s.freeMap).length]? = some .index then zeros else s.cache 0

theorem diskInode_length (size : Int) (isDir : Bool) :
    (diskInode size isDir).length.toInt = offsetOf size := by
  simp only [diskInode, BitVec.toInt_ofInt]
  rfl

section reserved

variable {s t : FlatFs} {sector : BlockSector} {d d' : InodeDisk} {n : Nat} {needs : List BlockKind}
  {new leaked : List BlockSector}

theorem createdInode (null : ∀ j, d.entries j = 0) {len : Nat} (length : d.length.toInt = len)
    (few : bytesToSectors len ≤ MAX_SECTORS) (extended : Extends d d') (fine : FreeMapOk s)
    (grown : Grown (Within 128 inodeShape)
      (fun p => ∃ i, i < bytesToSectors len ∧ i < MAX_SECTORS ∧ p = position i) s (inodeAt s.cache d) t
      (inodeAt t.cache d') true needs new leaked) : InodeOk t.cache t.freeMap d' len ∧
      (∀ p, p / 512 * 512 < len → byteAt t.cache d' p = 0) ∧ Own t (inodeNodes t.cache d') ∧
      ∀ z ∈ inodeNodes t.cache d', z ∈ new := by
  have small : len < 2 ^ 31 := by
    have := BitVec.toInt_lt (x := d.length)
    omega
  obtain ⟨fits, count⟩ := fits_of_sectors small few
  have none : inodeNodes s.cache d = [] := inodeNodes_null s.cache null
  have before : Own s (inodeNodes s.cache d) :=
    ⟨by rw [none]; exact List.nodup_nil, by simp [none], by simp [none]⟩
  have own : Own t (inodeNodes t.cache d') := grown.own fine before
  have blank : ∀ i, i < MAX_SECTORS → blockAt t.cache d' i ≠ 0 → t.cache (blockAt t.cache d' i) = zeros := by
    intro i bound present
    have fresh := grown.blank (position i) (within_position bound)
    rw [inodeAt_leaf, inodeAt_leaf] at fresh
    exact fresh (blockAt_empty s.cache null i) present
  have mapped : Mapped t.cache d' len := by
    intro i below
    have reached := grown.full rfl (position i)
    rw [inodeAt_leaf] at reached
    simp only [MAX_LENGTH] at fits
    exact reached ⟨i, by omega, by simp only [MAX_SECTORS]; omega, rfl⟩
  have zero : ∀ p, p / 512 * 512 < len → byteAt t.cache d' p = 0 := by
    intro p below
    simp only [MAX_LENGTH] at fits
    rw [byteAt, blank _ (by simp only [MAX_SECTORS]; omega) (mapped _ below), sectorByte_zeros]
  refine ⟨⟨⟨?_, fits, mapped, own.nodup, own.used⟩, fun i bound _ present => blank i bound present,
    fun p _ below => zero p below⟩, zero, own, fun z member => ?_⟩
  · rw [extended.length]
    exact length
  · rcases grown.grows.mem_old_or_new member with inOld | inNew
    · change z ∈ inodeNodes s.cache d at inOld
      simp only [none, List.not_mem_nil] at inOld
    · exact inNew

end reserved

theorem FileAt.created {s t : FlatFs} {sector : BlockSector} {d : InodeDisk} {len : Nat} {new touched : List BlockSector}
    (took : Took s t new touched) (nonzero : sector ≠ 0) (used : Used s.freeMap sector)
    (apart : sector ∉ freeMapNodes s) (unlisted : t.findInode sector = none)
    (good : InodeOk t.cache t.freeMap d len) (own : Own t (inodeNodes t.cache d))
    (sub : ∀ z ∈ inodeNodes t.cache d, z ∈ new) (zero : ∀ p, p / 512 * 512 < len → byteAt t.cache d p = 0) :
    let u := t.bufferCacheWrite sector d.encode
    FileAt u sector ∧ (∀ z ∈ sectorsOf u sector, z = sector ∨ z ∈ new) ∧ u.inodeData sector = d ∧
      contents u sector = List.replicate len 0 := by
  intro u
  have fresh : sector ∉ inodeNodes t.cache d := fun member => took.new_not_used (sub _ member) used
  have elsewhere : ∀ z ∈ inodeNodes t.cache d, u.cache z = t.cache z := fun z member =>
    Function.update_of_ne (fun same : z = sector => fresh (same ▸ member)) _ _
  have disk : u.cache sector = d.encode := Function.update_self _ _ _
  have unlistedNext : u.findInode sector = none := unlisted
  have data : u.inodeData sector = d := by
    unfold Fs.inodeData
    rw [unlistedNext]
    exact (congrArg InodeDisk.decode disk).trans (InodeDisk.decode_encode d)
  obtain ⟨goodNext, bytes⟩ := good.congr elsewhere good.used
  obtain ⟨nodes, -, -⟩ := inode_congr (d := d) (e := d) (fun _ _ => rfl) fun z member =>
    elsewhere z (inodeInner_sub member)
  have sectors : sectorsOf u sector = sector :: inodeNodes t.cache d := by rw [sectorsOf, data, nodes]
  have length : fileLen u sector = len := by
    rw [fileLen, Fs.inodeLength, data, good.length, Int.toNat_natCast]
  have wider : Took s t new (sector :: touched) := took.touch fun z => List.mem_cons_of_mem _
  have tookNext : Took s u new (sector :: touched) :=
    wider.write (Or.inr (Or.inr List.mem_cons_self)) apart d.encode
  have file : FileAt u sector := by
    refine ⟨nonzero, by rw [data, length]; exact goodNext, ?_, ?_, ?_⟩
    · rw [sectors]
      refine ⟨List.nodup_cons.mpr ⟨fresh, own.nodup⟩, fun z member => ?_, fun z member => ?_⟩
      · rcases List.mem_cons.mp member with rfl | inNodes
        · exact tookNext.keepsUsed _ used
        · exact own.used z inNodes
      · rw [tookNext.nodes]
        rcases List.mem_cons.mp member with rfl | inNodes
        · exact apart
        · rw [← took.nodes]
          exact own.apart z inNodes
    · rw [data, disk, InodeDisk.decode_encode]
      exact Extends.refl d
    · rw [disk, InodeDisk.decode_encode, length]
      exact goodNext.mapped
  refine ⟨file, fun z member => ?_, data, ?_⟩
  · rw [sectors] at member
    exact (List.mem_cons.mp member).imp_right (sub z)
  · rw [file.contents_content, data, length]
    refine List.eq_replicate_iff.mpr ⟨by simp [content], fun b member => ?_⟩
    obtain ⟨p, inside, rfl⟩ := List.mem_map.mp member
    have below := List.mem_range.mp inside
    exact (bytes _ (by omega)).trans (zero _ (by omega))

theorem inodeCreate_effect {s : FlatFs} {sector : BlockSector} (fine : FreeMapOk s) (nonzero : sector ≠ 0)
    (used : Used s.freeMap sector) (apart : sector ∉ freeMapNodes s)
    (unlisted : s.findInode sector = none) (size : Int) (isDir : Bool) :
    ∃ new, CreateEffect s sector size isDir (inodeCreate s sector size isDir) new := by
  have length := diskInode_length size isDir
  have null := diskInode_entries size isDir
  have none := inodeNodes_null s.cache null
  have run : inodeCreate s sector size isDir =
      let r := inodeReserve (fun s => freeMapAllocate s 1) s (diskInode size isDir) (offsetOf size)
      if r.ok then (true, r.fs.bufferCacheWrite sector r.value.encode) else (false, r.fs) := by
    unfold inodeCreate
    simp only [length]
  rw [run]
  by_cases negative : offsetOf size < 0
  · have nothing : inodeReserve (fun s => freeMapAllocate s 1) s (diskInode size isDir) (offsetOf size) =
        ⟨false, diskInode size isDir, s⟩ := if_pos negative
    have needs : createNeeds size = [] := if_pos negative
    rw [nothing]
    refine ⟨[], (Took.refl fine).touch (by simp), rfl, (fun never => by cases never), ?_,
      fun _ => ⟨by simp [needs], rfl⟩, fun less => by simp [needs] at less⟩
    exact ⟨(fun never => by cases never), fun can => absurd can.1 (by omega)⟩
  · have needs : createNeeds size =
        inodeMissing s.cache (diskInode size isDir) (bytesToSectors (offsetOf size)) := by
      rw [createNeeds, if_neg negative, inodeMissing_null s.cache null]
    obtain ⟨new, leaked, reached, grown, done, extended⟩ := inodeReserve_spec freeMapAllocate_allocates fine
      (d := diskInode size isDir) ⟨by rw [none]; exact List.nodup_nil, by simp [none], by simp [none]⟩
      (show (0 : Int) ≤ offsetOf size by omega)
    simp only
    generalize inodeReserve (fun s => freeMapAllocate s 1) s (diskInode size isDir) (offsetOf size) = r at *
    have took : Took s r.fs new [] := grown.took.touch fun z member => by
      have inNodes : z ∈ inodeNodes s.cache (diskInode size isDir) := inodeInner_sub member
      rw [none] at inNodes
      cases inNodes
    have can : CanCreate s size ↔ r.ok = true := by
      rw [done, Bool.and_eq_true, decide_eq_true_eq, grown.enough, ← needs]
      exact ⟨fun can => ⟨can.2.2, can.2.1⟩, fun both => ⟨by omega, both.2, both.1⟩⟩
    refine ⟨new, ?_⟩
    cases ok : r.ok with
    | false =>
      rw [ok] at can
      simp only [Bool.false_eq_true, if_false]
      refine ⟨took.touch (by simp), grown.opened, (fun never => by cases never), can.symm, ?_, ?_⟩
      · rw [needs]
        exact fun enough => ⟨(grown.done enough).2.2.1, (grown.done enough).2.2.2⟩
      · rw [needs]
        exact fun less => (grown.short less).2
    | true =>
      rw [ok] at can
      simp only [if_true]
      obtain ⟨hit, few⟩ : reached = true ∧ bytesToSectors (offsetOf size) ≤ MAX_SECTORS := by
        rw [ok, Eq.comm, Bool.and_eq_true, decide_eq_true_eq] at done
        exact done
      obtain ⟨len, nat⟩ := Int.eq_ofNat_of_zero_le (show (0 : Int) ≤ offsetOf size by omega)
      rw [hit, nat] at grown
      rw [nat] at length few
      obtain ⟨good, zero, own, sub⟩ := createdInode null length few extended fine grown
      have unlistedNext : r.fs.findInode sector = Option.none := by
        unfold Fs.findInode
        rw [grown.opened]
        exact unlisted
      obtain ⟨file, sectors, data, blank⟩ :=
        FileAt.created took nonzero used apart unlistedNext good own sub zero
      refine ⟨(took.touch (by simp)).write (Or.inr (Or.inr List.mem_cons_self)) apart _, grown.opened,
        fun _ => ⟨file, sectors, ?_, ?_, ?_⟩, can.symm, ?_, ?_⟩
      · rw [data, extended.isDirWord]
        rfl
      · rw [Fs.inodeLength, data, good.length, nat]
      · rw [blank, nat, Int.toNat_natCast]
      · rw [needs, nat]
        refine fun enough => ⟨(grown.done enough).2.2.1, ?_⟩
        exact (Function.update_of_ne (Ne.symm nonzero) _ _).trans (grown.done enough).2.2.2
      · rw [needs, nat]
        refine fun less => ⟨(grown.short less).2.1, ?_⟩
        exact (Function.update_of_ne (Ne.symm nonzero) _ _).trans (grown.short less).2.2

end create

end ShellOs.FileSystem
