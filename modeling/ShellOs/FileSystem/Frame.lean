import ShellOs.FileSystem.TransparentCommands

/-! What the calls below the directories leave alone: they change the sectors, the free map and the data of the inodes,
and nothing else. -/

namespace ShellOs.FileSystem
open Lib

/-- A view of the state that sees neither the sectors nor the free map nor the data of the inodes. -/
structure Blind {σ β : Type} (view : Fs σ → β) : Prop where
  cache : ∀ s c, view { s with cache := c } = view s
  freeMap : ∀ s b, view { s with freeMap := b } = view s
  data : ∀ s x d, view (s.setInodeData x d) = view s

namespace Blind

variable {σ β : Type} [Store σ BlockSector Sector] {view : Fs σ → β} (blind : Blind view)

include blind

theorem flat {s t : Fs σ} (same : t.flat = s.flat) : view t = view s := by
  have rest : t = { s with cache := t.cache } := by
    obtain ⟨cache, freeMap, freeMapFile, openInodes, nextAddr, cwd, fileTable⟩ := t
    simp only [Fs.flat, Fs.mk.injEq] at same ⊢
    exact ⟨trivial, same.2⟩
  rw [rest]
  exact blind.cache s t.cache

theorem writeChunk (s : Fs σ) (sectorIdx : BlockSector) (sectorOfs chunk : Int) (buffer : Nat → Byte)
    (bytesWritten : Int) : view (writeChunk s sectorIdx sectorOfs chunk buffer bytesWritten) = view s := by
  unfold FileSystem.writeChunk
  split
  · exact blind.cache s _
  · simp only
    split
    · exact (blind.cache _ _).trans (blind.cache s _)
    · exact blind.cache s _

section reserve

variable {allocate : Fs σ → Option BlockSector × Fs σ} (keeps : ∀ s, view (allocate s).2 = view s)

include keeps

theorem reserveSector (s : Fs σ) (entry : BlockSector) : view (reserveSector allocate s entry).fs = view s := by
  unfold FileSystem.reserveSector
  split
  · have kept := keeps s
    simp only
    split
    · exact kept
    · exact (blind.cache _ _).trans kept
  · rfl

theorem obtainIndex (s : Fs σ) (entry : BlockSector) : view (obtainIndex allocate s entry).2 = view s := by
  unfold FileSystem.obtainIndex
  split
  · exact (blind.cache _ _).trans (keeps s)
  · rfl

omit keeps blind [Store σ BlockSector Sector] in
theorem reserveEntries {reserve : Fs σ → BlockSector → Nat → Outcome σ BlockSector}
    (keeps : ∀ s entry n, view (reserve s entry n).fs = view s) (unit count i numSectors : Nat)
    (blocks : Nat → BlockSector) (s : Fs σ) :
    view (reserveEntries reserve unit count i numSectors blocks s).fs = view s := by
  induction count generalizing i numSectors blocks s with
  | zero => rfl
  | succ count ih =>
    simp only [FileSystem.reserveEntries]
    split
    · rw [ih, keeps]
    · exact keeps s (blocks i) _

theorem inodeReserveIndirect (level : Nat) (s : Fs σ) (entry : BlockSector) (numSectors : Nat) :
    view (inodeReserveIndirect allocate level s entry numSectors).fs = view s := by
  induction level generalizing s entry numSectors with
  | zero => exact blind.reserveSector keeps s entry
  | succ level ih =>
    have index := blind.obtainIndex keeps s entry
    have entries := fun unit count blocks => (reserveEntries ih unit count 0 numSectors blocks
      ((FileSystem.obtainIndex allocate s entry).2.bufferCacheRead
        (FileSystem.obtainIndex allocate s entry).1).2).trans (blind.cache _ _)
    simp only [FileSystem.inodeReserveIndirect]
    generalize (if level + 1 = 1 then 1 else INDIRECT_BLOCKS_PER_SECTOR) = unit
    split
    · exact (blind.cache _ _).trans ((entries _ _ _).trans index)
    · exact (entries _ _ _).trans index

theorem reserveDirect (count i : Nat) (d : InodeDisk) (s : Fs σ) :
    view (reserveDirect allocate count i d s).fs = view s := by
  induction count generalizing i d s with
  | zero => rfl
  | succ count ih =>
    simp only [FileSystem.reserveDirect]
    split
    · rw [ih, blind.reserveSector keeps]
    · exact blind.reserveSector keeps s _

theorem inodeReserve (s : Fs σ) (d : InodeDisk) (length : Int) :
    view (inodeReserve allocate s d length).fs = view s := by
  have direct := fun count => blind.reserveDirect keeps count 0 d s
  have single := fun t entry l => blind.inodeReserveIndirect keeps 1 t entry l
  have double := fun t entry l => blind.inodeReserveIndirect keeps 2 t entry l
  unfold FileSystem.inodeReserve
  split
  · rfl
  simp only
  split
  · exact direct _
  split
  · exact direct _
  split
  · exact (single _ _ _).trans (direct _)
  split
  · exact (single _ _ _).trans (direct _)
  split
  · exact (double _ _ _).trans ((single _ _ _).trans (direct _))
  · exact (double _ _ _).trans ((single _ _ _).trans (direct _))

end reserve

omit blind [Store σ BlockSector Sector] in
theorem deallocateEntries {deallocate : Fs σ → BlockSector → Nat → Fs σ}
    (keeps : ∀ s entry n, view (deallocate s entry n) = view s) (unit count i numSectors : Nat)
    (blocks : Nat → BlockSector) (s : Fs σ) :
    view (deallocateEntries deallocate unit count i numSectors blocks s) = view s := by
  induction count generalizing i numSectors s with
  | zero => rfl
  | succ count ih => rw [FileSystem.deallocateEntries, ih, keeps]

theorem readIndex (s : Fs σ) (wanted : Nat) (sector : BlockSector) : view (readIndex s wanted sector).2 = view s := by
  unfold FileSystem.readIndex
  split
  · exact blind.cache s _
  · rfl

theorem doublyDataSectors (count i numSectors : Nat) (blocks : Nat → BlockSector) (s : Fs σ) :
    view (doublyDataSectors count i numSectors blocks s).2 = view s := by
  induction count generalizing i numSectors s with
  | zero => rfl
  | succ count ih => exact (ih _ _ _).trans (blind.cache s _)

theorem getInodeDataSectors (s : Fs σ) (inode : BlockSector) : view (getInodeDataSectors s inode).2 = view s := by
  unfold FileSystem.getInodeDataSectors
  simp only
  split
  · rfl
  · simp only
    rw [blind.doublyDataSectors, blind.readIndex, blind.readIndex]

theorem pastEndLoop (filename : CString) (fileSize : Int) (blockCount : Nat) (sectors : List BlockSector) (x : Nat)
    (files : List HostFile) (s : Fs σ) :
    view (pastEndLoop filename fileSize blockCount sectors x files s).2 = view s := by
  induction sectors generalizing x files s with
  | nil => rfl
  | cons sector rest ih =>
    rw [FileSystem.pastEndLoop, ih]
    exact blind.cache s _

theorem recoverBlocks (s : Fs σ) : view (recoverBlocks s).2 = view s := by
  have turn : ∀ (r : List HostFile × Fs σ) x, view (recoverBlock r x).2 = view r.2 := fun r _ => blind.cache r.2 _
  have loop : ∀ (blocks : List Nat) (r : List HostFile × Fs σ), view (blocks.foldl recoverBlock r).2 = view r.2 := by
    intro blocks
    induction blocks with
    | nil => exact fun _ => rfl
    | cons x rest ih =>
      intro r
      rw [List.foldl_cons, ih, turn]
  exact loop _ ([], s)

variable [LawfulStore σ]

theorem byteToSector (s : Fs σ) (inode : BlockSector) (pos : Int) : view (byteToSector s inode pos).2 = view s :=
  blind.flat (byteToSector_snd s inode pos)

theorem inodeReadAt (s : Fs σ) (inode : BlockSector) (size offset : Int) :
    view (inodeReadAt s inode size offset).2 = view s :=
  blind.flat (inodeReadAt_snd s inode size offset)

theorem inodeWriteLoop (s : Fs σ) (inode : BlockSector) (buffer : Nat → Byte) (size offset bytesWritten : Int) :
    view (inodeWriteLoop s inode buffer size offset bytesWritten).2 = view s := by
  fun_induction FileSystem.inodeWriteLoop s inode buffer size offset bytesWritten with
  | case1 s size offset bytesWritten more sectorIdx chunk stop => exact blind.byteToSector s inode offset
  | case2 s size offset bytesWritten more sectorIdx sectorOfs chunk go ih =>
    rw [ih, blind.writeChunk]
    exact blind.byteToSector s inode offset
  | case3 s size offset bytesWritten none => rfl

theorem inodeWriteWith {allocate : Fs σ → Option BlockSector × Fs σ} (keeps : ∀ s, view (allocate s).2 = view s)
    (s : Fs σ) (inode : BlockSector) (buffer : Nat → Byte) (size offset : Int) :
    view (inodeWriteWith allocate s inode buffer size offset).2 = view s := by
  have looked := blind.byteToSector s inode (offsetOf (offset + size - 1))
  have reserved := fun d length =>
    blind.inodeReserve keeps (FileSystem.byteToSector s inode (offsetOf (offset + size - 1))).2 d length
  unfold FileSystem.inodeWriteWith
  split
  · rfl
  · simp only
    split
    · split
      · rw [blind.data]
        exact (reserved _ _).trans looked
      · rw [blind.inodeWriteLoop, Fs.bufferCacheWrite, blind.cache, blind.data]
        exact (reserved _ _).trans looked
    · exact (blind.inodeWriteLoop _ _ _ _ _ _).trans looked

theorem inodeWriteDepth (depth : Nat) (s : Fs σ) (inode : BlockSector) (buffer : Nat → Byte) (size offset : Int) :
    view (inodeWriteDepth depth s inode buffer size offset).2 = view s := by
  induction depth generalizing s inode buffer size offset with
  | zero => rfl
  | succ depth ih =>
    apply blind.inodeWriteWith
    intro t
    have flipped := blind.freeMap t (bitmapScanAndFlip t.freeMap 0 1 false).2
    simp only [freeMapAllocateWith]
    split
    · exact flipped
    · split
      · exact flipped
      · split
        · exact (ih _ _ _ _ _).trans flipped
        · exact (blind.freeMap _ _).trans ((ih _ _ _ _ _).trans flipped)

theorem inodeWriteAt (s : Fs σ) (inode : BlockSector) (buffer : Nat → Byte) (size offset : Int) :
    view (inodeWriteAt s inode buffer size offset).2 = view s :=
  blind.inodeWriteDepth _ s inode buffer size offset

theorem bitmapWrite (s : Fs σ) (file : File) : view (bitmapWrite s file).2 = view s :=
  blind.inodeWriteAt s file.inode _ _ _

theorem freeMapAllocate (s : Fs σ) (cnt : Nat) : view (freeMapAllocate s cnt).2 = view s := by
  have flipped := blind.freeMap s (bitmapScanAndFlip s.freeMap 0 cnt false).2
  simp only [FileSystem.freeMapAllocate, freeMapAllocateWith]
  split
  · exact flipped
  · split
    · exact flipped
    · split
      · exact (blind.inodeWriteAt _ _ _ _ _).trans flipped
      · exact (blind.freeMap _ _).trans ((blind.inodeWriteAt _ _ _ _ _).trans flipped)

theorem freeMapRelease (s : Fs σ) (sector : BlockSector) (cnt : Nat) : view (freeMapRelease s sector cnt) = view s := by
  have cleared := blind.freeMap s (bitmapSetMultiple s.freeMap sector.toNat cnt false)
  unfold FileSystem.freeMapRelease
  split
  · exact cleared
  · exact (blind.bitmapWrite _ _).trans cleared

theorem inodeCreate (s : Fs σ) (sector : BlockSector) (length : Int) (isDir : Bool) :
    view (inodeCreate s sector length isDir).2 = view s := by
  have reserved := fun d length => blind.inodeReserve (fun t => blind.freeMapAllocate t 1) s d length
  unfold FileSystem.inodeCreate
  simp only
  split
  · exact (blind.cache _ _).trans (reserved _ _)
  · exact reserved _ _

theorem inodeDeallocateIndirect (level : Nat) (s : Fs σ) (entry : BlockSector) (numSectors : Nat) :
    view (inodeDeallocateIndirect level s entry numSectors) = view s := by
  induction level generalizing s entry numSectors with
  | zero => exact blind.freeMapRelease s entry 1
  | succ level ih =>
    simp only [FileSystem.inodeDeallocateIndirect]
    rw [blind.freeMapRelease, deallocateEntries ih]
    exact blind.cache s _

theorem deallocateDirect (s : Fs σ) (d : InodeDisk) (l : Nat) : view (deallocateDirect s d l) = view s := by
  unfold FileSystem.deallocateDirect
  induction l with
  | zero => rfl
  | succ l ih => rw [List.range_succ, List.foldl_append, List.foldl_cons, List.foldl_nil, blind.freeMapRelease, ih]

theorem inodeDeallocate (s : Fs σ) (d : InodeDisk) : view (inodeDeallocate s d) = view s := by
  unfold FileSystem.inodeDeallocate
  split
  · rfl
  · simp only [apply_ite view, blind.inodeDeallocateIndirect, blind.deallocateDirect, ite_self]

theorem bitmapRead (s : Fs σ) (file : File) : view (bitmapRead s file) = view s := by
  have loaded : ∀ r : List Byte × Fs σ, view { r.2 with freeMap := loadBitmap s.freeMap r.1 } = view r.2 :=
    fun r => blind.freeMap r.2 _
  unfold FileSystem.bitmapRead
  split
  · exact (loaded _).trans (blind.inodeReadAt s file.inode _ _)
  · rfl

theorem scanEntries (s : Fs σ) (inode : BlockSector) (stop : DirEntry → Bool) (ofs : Int) :
    view (scanEntries s inode stop ofs).2.2 = view s := by
  fun_induction FileSystem.scanEntries s inode stop ofs with
  | case1 s ofs r whole found => exact blind.inodeReadAt s inode _ ofs
  | case2 s ofs r whole other ih => exact ih.trans (blind.inodeReadAt s inode _ ofs)
  | case3 s ofs r short => exact blind.inodeReadAt s inode _ ofs

theorem lookup (s : Fs σ) (inode : BlockSector) (name : CString) : view (lookup s inode name).2 = view s :=
  blind.scanEntries s inode _ _

section uses

variable (uses : ∀ (s : Fs σ) x, view (s.use x) = view s)

include uses

theorem dirAdd (s : Fs σ) (dir : Dir) (name : CString) (inodeSector : BlockSector) :
    view (dirAdd s dir name inodeSector false).2 = view s := by
  have looked := (blind.lookup (s.use dir.inode) dir.inode name).trans (uses s dir.inode)
  unfold FileSystem.dirAdd
  split
  · rfl
  · simp only
    split
    · exact looked
    · simp only [Bool.false_eq_true, if_false, Bool.true_eq_false]
      rw [blind.inodeWriteAt, blind.scanEntries]
      exact looked

theorem createAt (s : Fs σ) (dir : Dir) (fileName : CString) (inodeSector : BlockSector) (initialSize : Int) :
    view (createAt s dir fileName inodeSector initialSize false).2 = view s := by
  unfold FileSystem.createAt
  simp only
  split
  · exact (blind.dirAdd uses _ _ _ _).trans (blind.inodeCreate _ _ _ _)
  · exact blind.inodeCreate s inodeSector initialSize false

end uses

end Blind

end ShellOs.FileSystem
