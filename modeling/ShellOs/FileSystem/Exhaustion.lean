import ShellOs.FileSystem.Format
import ShellOs.FileSystem.TransparentCalls

/-! What is left behind when the free map runs out: the sectors of a file that could not be created, and
sector 0, which stands for "no sector" in the block tables and holds the free map's inode. -/

namespace ShellOs.FileSystem
open Lib BlockTree SlotMap

def blankDisk (size : BlockSector) : BufferCache :=
  BufferCache.init ⟨fun _ => ⟨false, 0, zeros, false, false⟩, 0, ⟨size, fun _ => zeros⟩⟩

def formatted (size : BlockSector) : Fs BufferCache := filesysInit (blankDisk size) size true

theorem formatted_fresh {size : BlockSector} (fits : FormatFits size) : Fresh size (formatted size).flat := by
  rw [formatted, filesysInit_flat]
  exact (formats_of_fits fits).2

theorem formats_blank {size : BlockSector} (fits : FormatFits size) : formats (blankDisk size) size = true := by
  rw [← formats_flat]
  exact (formats_of_fits fits).1

theorem sameBits_of_used {b b' : Bitmap} (small : b.bitCnt < 2 ^ 32) (size : b'.bitCnt = b.bitCnt)
    (used : ∀ z, Used b' z ↔ Used b z) : SameBits b b' := by
  refine ⟨size, fun i inside => ?_⟩
  have here := used (BitVec.ofNat 32 i)
  simp only [Used, BitVec.toNat_ofNat, Nat.mod_eq_of_lt (show i < 2 ^ 32 by omega), size, inside, true_and] at here
  rw [Bool.eq_iff_iff]
  exact here

/-- The free map has the same bits, and the root directory lists the same entries. -/
def SameTables (s t : FlatFs) : Prop := SameBits s.freeMap t.freeMap ∧ rootSlots t = rootSlots s

theorem Creation.atomic_iff {s : FlatFs} {n : Nat} {name : CString} {size : Int} {r : Bool × FlatFs}
    {new : List BlockSector} (mounted : Mounted s n) (creation : Creation s name size r new) :
    (r.1 = false → SameTables s r.2) ↔ CreateFits s name size ∨ (createMissing s name size).length ≤ 1 ∨
      (freeSectors s.freeMap).length ≤ 1 := by
  have small := mounted.dir.fine.small
  cases good : r.1 with
  | true => exact ⟨fun _ => Or.inl (creation.done.mp good), (fun _ never => by cases never)⟩
  | false =>
    obtain ⟨slots, used, -⟩ := creation.failed good
    have cannot : ¬CreateFits s name size := fun fits => by
      rw [creation.done.mpr fits] at good
      cases good
    have length : new.length = min (createMissing s name size).length (freeSectors s.freeMap).length := by
      rw [creation.taken, List.length_take]
    have nothing : new.tail = [] ↔
        (createMissing s name size).length ≤ 1 ∨ (freeSectors s.freeMap).length ≤ 1 := by
      rw [← List.length_eq_zero_iff, List.length_tail, length]
      omega
    constructor
    · intro atomic
      obtain ⟨bits, -⟩ := atomic rfl
      refine Or.inr (nothing.mp (List.eq_nil_iff_forall_not_mem.mpr fun z member => ?_))
      have before := (bits.used z).mp ((used z).mpr (Or.inr member))
      have spare : z ∈ freeSectors s.freeMap := by
        have inNew := List.mem_of_mem_tail member
        rw [creation.taken] at inNew
        exact List.mem_of_mem_take inNew
      exact ((used_iff_not_free small).mp before).2 spare
    · rintro (fits | few) -
      · exact absurd fits cannot
      · refine ⟨sameBits_of_used small creation.change.size fun z => ?_, slots⟩
        rw [used, nothing.mpr few]
        simp

theorem filesysCreate_creation {s : Fs BufferCache} {n : Nat} (mounted : Mounted s.flat n) (path : CString)
    (size : Int) : ∃ new, Creation s.flat (splitPathFilename path).2 size
      ((filesysCreate s path size false).1, (filesysCreate s path size false).2.flat) new := by
  obtain ⟨new, creation⟩ := filesysCreate_effect mounted path size
  rw [← filesysCreate_flat] at creation
  exact ⟨new, creation⟩

theorem filesysCreate_done {s : Fs BufferCache} {n : Nat} (mounted : Mounted s.flat n) (path : CString) (size : Int) :
    (filesysCreate s path size false).1 = true ↔ CreateFits s.flat (splitPathFilename path).2 size := by
  obtain ⟨new, creation⟩ := filesysCreate_creation mounted path size
  exact creation.done

/-- When `filesys_create` fails, the free map and the root directory are as they were exactly if no more
than the inode has been asked for, or no more than one sector was left. -/
theorem filesysCreate_atomic_iff (s : Fs BufferCache) {n : Nat} (mounted : Mounted s.flat n) (path : CString)
    (size : Int) : ((filesysCreate s path size false).1 = false →
      SameTables s.flat (filesysCreate s path size false).2.flat) ↔
    CreateFits s.flat (splitPathFilename path).2 size ∨
      (createMissing s.flat (splitPathFilename path).2 size).length ≤ 1 ∨
      (freeSectors s.flat.freeMap).length ≤ 1 := by
  obtain ⟨new, creation⟩ := filesysCreate_creation mounted path size
  exact creation.atomic_iff mounted

theorem Fresh.createMissing {size : BlockSector} {s : FlatFs} (fresh : Fresh size s) (name : CString) (bytes : Int) :
    createMissing s name bytes = .data :: createNeeds bytes := by
  have free : freeSlot (rootSlots s) = 0 := by
    rw [fresh.slots]
    rfl
  have none : addNeeds s name = [] := by
    unfold addNeeds
    split
    next =>
      refine if_pos (Or.inr ?_)
      rw [free, fresh.mounted.dir.length]
      decide
    next => rfl
  rw [FileSystem.createMissing, none]
  split <;> simp

theorem Fresh.free_length {size : BlockSector} {s : FlatFs} (fresh : Fresh size s) :
    (freeSectors s.freeMap).length = (freeSectors (freeMapInit size)).length -
      ((createNeeds (bitmapFileSize (freeMapInit size) : Nat)).length + (createNeeds 36000).length) := by
  rw [fresh.free, List.length_drop]

theorem Fresh.absent {size : BlockSector} {s : FlatFs} (fresh : Fresh size s) (name : CString) :
    name ∉ keys (rootSlots s) := by
  rw [fresh.slots, mem_keys]
  rintro ⟨v, member⟩
  cases List.eq_of_mem_replicate member

theorem Fresh.room {size : BlockSector} {s : FlatFs} (fresh : Fresh size s) :
    freeSlot (rootSlots s) < (rootSlots s).length := by
  rw [fresh.slots, List.length_replicate, List.replicate_succ, freeSlot, List.findIdx_cons]
  exact Nat.zero_lt_succ 998

theorem Fresh.fits {size : BlockSector} {s : FlatFs} {left : Nat} {name : CString} {bytes : Int} (fresh : Fresh size s)
    (free : (freeSectors s.freeMap).length = left) (named : NameOk name) (sizeOk : SizeOk bytes)
    (room : (createNeeds bytes).length < left) : CreateFits s name bytes := by
  refine ⟨sizeOk, named, fresh.absent name, ?_, ?_⟩
  · refine Or.inl ?_
    rw [fresh.slots, fresh.mounted.dir.length]
    decide
  · rw [fresh.createMissing, List.length_cons, free]
    exact room

theorem filesysCreate_atomic_formatted :
    SameTables (formatted 80).flat (filesysCreate (formatted 80) [] 0 false).2.flat := by
  have fresh := formatted_fresh (show FormatFits 80 by decide +kernel)
  have needs : (createMissing (formatted 80).flat (splitPathFilename []).2 0).length = 1 :=
    (congrArg List.length (fresh.createMissing _ _)).trans (by decide)
  have refused : (filesysCreate (formatted 80) [] 0 false).1 = false :=
    Bool.eq_false_iff.mpr fun good => absurd ((filesysCreate_done fresh.mounted [] 0).mp good).2.1 (by decide)
  exact (filesysCreate_atomic_iff _ fresh.mounted [] 0).mpr (Or.inr (Or.inl needs.le)) refused

theorem filesysCreate_leaks (s : Fs BufferCache) {n left missing : Nat} (mounted : Mounted s.flat n) (path : CString)
    (size : Int) (free : (freeSectors s.flat.freeMap).length = left)
    (needs : (createMissing s.flat (splitPathFilename path).2 size).length = missing)
    (two : 2 ≤ left) (more : left < missing) :
    (filesysCreate s path size false).1 = false ∧
      ¬SameTables s.flat (filesysCreate s path size false).2.flat := by
  obtain ⟨new, creation⟩ := filesysCreate_creation mounted path size
  have cannot : ¬CreateFits s.flat (splitPathFilename path).2 size := fun fits => by
    have most := fits.2.2.2.2
    omega
  refine ⟨Bool.eq_false_iff.mpr fun good => cannot (creation.done.mp good), fun same => ?_⟩
  rcases (creation.atomic_iff mounted).mp fun _ => same with fits | few | few
  · exact cannot fits
  · omega
  · omega

/-- Ten sectors do not fit on five: the four that could be had are lost. -/
theorem filesysCreate_not_atomic : ∃ n, Mounted (formatted 80).flat n ∧
    (filesysCreate (formatted 80) [97] 5120 false).1 = false ∧
    ¬SameTables (formatted 80).flat (filesysCreate (formatted 80) [97] 5120 false).2.flat := by
  have fresh := formatted_fresh (show FormatFits 80 by decide +kernel)
  have free : (freeSectors (formatted 80).flat.freeMap).length = 5 :=
    fresh.free_length.trans (by decide +kernel)
  have needs : (createMissing (formatted 80).flat (splitPathFilename [97]).2 5120).length = 11 :=
    (congrArg List.length (fresh.createMissing _ _)).trans (by decide +kernel)
  exact ⟨_, fresh.mounted, filesysCreate_leaks _ fresh.mounted [97] 5120 free needs (by decide) (by decide)⟩

section sectorZero

def SectorZero (s : FlatFs) : Prop := InodeDisk.decode (s.cache 0) = s.inodeData FREE_MAP_SECTOR

theorem SectorZero.ne_zeros {s : FlatFs} {n : Nat} (mounted : Mounted s n) (holds : SectorZero s) :
    s.cache 0 ≠ zeros := by
  intro blank
  obtain ⟨f, opened, inode⟩ := mounted.map
  have length := (mounted.dir.fine.file f opened).layout.length
  rw [inode, ← holds, blank, InodeDisk.decode_zeros] at length
  have some := byteCnt_pos (b := s.freeMap) (Nat.zero_lt_of_lt mounted.dir.fine.first.1)
  have zero : InodeDisk.empty.length.toInt = 0 := by decide
  omega

theorem kept_iff {b c : Sector} {p : Prop} [Decidable p] (nonzero : b ≠ zeros)
    (result : c = if p then zeros else b) : c = b ↔ ¬p := by
  rw [result]
  split
  next holds => simp [holds, Ne.symm nonzero]
  next fails => simp [fails]

variable {s : FlatFs} {x : BlockSector}

theorem inodeWriteLoop_nothing (s : FlatFs) (x : BlockSector) (buffer : Nat → Byte) (o : Nat) :
    inodeWriteLoop s x buffer (0 : Nat) o 0 = (0, s) := by
  rw [inodeWriteLoop, if_neg (by omega)]

/-- Writing nothing behind a byte of the file does nothing. -/
theorem inodeWriteAt_skips (fine : FreeMapOk s) (file : FileAt s x) {o : Nat} (front : 0 < o) (behind : o ≤ fileLen s x)
    (buffer : Nat → Byte) : inodeWriteAt s x buffer (0 : Nat) o = (0, s) := by
  have fits := file.good.fits
  simp only [MAX_LENGTH] at fits
  have run : inodeWriteAt s x buffer (0 : Nat) o = inodeWriteWith
      (freeMapAllocateWith (inodeWriteDepth (s.freeMap.bitCnt + 1)) 1) s x buffer (0 : Nat) o := rfl
  have last : offsetOf (((o : Nat) : Int) + (0 : Nat) - 1) = ((o - 1 : Nat) : Int) := by
    rw [offsetOf_eq (by omega) (by omega)]
    omega
  have place := byteToSector_blockAt file.length file.good.fits file.good.mapped (p := o - 1) (by omega)
  rw [run, inodeWriteWith, last, place, if_neg (used_ne_noSector fine.small (file.good.block_used (by omega))),
    inodeWriteLoop_nothing, ite_self]

theorem inodeWriteAt_nothing (fine : FreeMapOk s) (file : FileAt s x) {o : Nat} (small : o < 2 ^ 31)
    (buffer : Nat → Byte) : (inodeWriteAt s x buffer (0 : Nat) o).2.cache 0 =
      if (writeNeeds s x o)[(freeSectors s.freeMap).length]? = some .index then zeros else s.cache 0 := by
  by_cases inside : 0 < o ∧ o ≤ fileLen s x
  · have none : writeNeeds s x o = [] := if_pos (Or.inr inside.2)
    rw [inodeWriteAt_skips fine file inside.1 inside.2, none, List.getElem?_nil, if_neg (by simp)]
  have run : inodeWriteAt s x buffer (0 : Nat) o = inodeWriteWith
      (freeMapAllocateWith (inodeWriteDepth (s.freeMap.bitCnt + 1)) 1) s x buffer (0 : Nat) o := rfl
  rw [run, inodeWriteWith]
  by_cases writable : s.inodeDenyWriteCnt x = 0
  · rw [if_neg (by simp [writable])]
    have last : offsetOf (((o : Nat) : Int) + (0 : Nat) - 1) = (o : Int) - 1 := by
      rw [offsetOf_eq (by omega) (by omega)]
      omega
    have fin : offsetOf (((o : Nat) : Int) + (0 : Nat)) = (o : Nat) := by
      rw [offsetOf_eq (by omega) (by omega)]
      omega
    rw [last, fin]
    have needs : writeNeeds s x o = inodeMissing s.cache (s.inodeData x) (bytesToSectors o) := by
      by_cases zero : o = 0
      · subst zero
        rw [writeNeeds, if_pos (Or.inr (Nat.zero_le _))]
        rfl
      · exact if_neg (by simp only [writable, ne_eq, not_true, false_or]; omega)
    have length := file.length
    rw [byteToSector_outside (by omega), if_pos rfl]
    obtain ⟨new, leaked, reached, grown, -, -⟩ := inodeReserve_spec (allocates_of_depth (s.freeMap.bitCnt)) fine
      file.ownNodes (show (0 : Int) ≤ (o : Nat) by omega)
    rw [← needs] at grown
    simp only
    generalize inodeReserve (freeMapAllocateWith (inodeWriteDepth (s.freeMap.bitCnt + 1)) 1) s (s.inodeData x)
      (o : Nat) = r at *
    have sector0 : r.fs.cache 0 = if (writeNeeds s x o)[(freeSectors s.freeMap).length]? = some .index then zeros
        else s.cache 0 := by
      by_cases enough : (writeNeeds s x o).length ≤ (freeSectors s.freeMap).length
      · rw [List.getElem?_eq_none enough, if_neg (by simp)]
        exact (grown.done enough).2.2.2
      · exact (grown.short (by omega)).2.2
    split
    next => exact sector0
    next =>
      rw [inodeWriteLoop_nothing]
      exact (Function.update_of_ne (Ne.symm file.nonzero) _ _).trans sector0
  · rw [if_pos writable]
    have none : writeNeeds s x o = [] := if_pos (Or.inl writable)
    rw [none, List.getElem?_nil, if_neg (by simp)]

theorem inodeWriteAt_sectorZero (fine : FreeMapOk s) (file : FileAt s x) (listed : (s.findInode x).isSome)
    (foreign : ∀ f, s.freeMapFile = some f → f.inode ≠ x) {n o : Nat} (small : o + n < 2 ^ 31)
    (buffer : Nat → Byte) : (inodeWriteAt s x buffer n o).2.cache 0 =
      if (writeNeeds s x (o + n))[(freeSectors s.freeMap).length]? = some .index then zeros else s.cache 0 := by
  cases n with
  | zero => exact inodeWriteAt_nothing fine file small buffer
  | succ n =>
    obtain ⟨new, effect⟩ := inodeWriteAt_effect (n := n + 1) fine file listed foreign n.succ_pos small buffer
    by_cases enough : (writeNeeds s x (o + (n + 1))).length ≤ (freeSectors s.freeMap).length
    · rw [List.getElem?_eq_none enough, if_neg (by simp)]
      exact (effect.enough enough).2
    · exact (effect.short (by omega)).2

end sectorZero

theorem filesysCreate_clobbers (s : Fs BufferCache) {n left : Nat} (mounted : Mounted s.flat n)
    (holds : SectorZero s.flat) (path : CString) (size : Int) (free : (freeSectors s.flat.freeMap).length = left)
    (next : (createMissing s.flat (splitPathFilename path).2 size)[left]? = some .index) :
    (filesysCreate s path size false).2.flat.cache 0 ≠ s.flat.cache 0 := by
  obtain ⟨new, creation⟩ := filesysCreate_creation mounted path size
  rw [creation.zero, free, if_pos next]
  exact Ne.symm (holds.ne_zeros mounted)

/-- Creating a file, or writing one, leaves the free map's inode on the disk alone exactly if it is not an
index block for which the free map runs out. -/
theorem sectorZero_kept_iff (s : Fs BufferCache) {n : Nat} (mounted : Mounted s.flat n) (holds : SectorZero s.flat) :
    (∀ path size, (filesysCreate s path size false).2.flat.cache 0 = s.flat.cache 0 ↔
      (createMissing s.flat (splitPathFilename path).2 size)[(freeSectors s.flat.freeMap).length]? ≠ some .index) ∧
    ∀ x buffer (n o : Nat), FileAt s.flat x → (s.findInode x).isSome → o + n < 2 ^ 31 →
      ((inodeWriteAt s x buffer n o).2.flat.cache 0 = s.flat.cache 0 ↔
        (writeNeeds s.flat x (o + n))[(freeSectors s.flat.freeMap).length]? ≠ some .index) := by
  have nonzero := holds.ne_zeros mounted
  refine ⟨fun path size => ?_, fun x buffer n o file listed small => ?_⟩
  · obtain ⟨new, creation⟩ := filesysCreate_creation mounted path size
    exact kept_iff nonzero creation.zero
  · have foreign : ∀ f, s.flat.freeMapFile = some f → f.inode ≠ x := by
      obtain ⟨f, opened, inode⟩ := mounted.map
      intro g same
      rw [opened] at same
      obtain rfl := Option.some.inj same
      rw [inode]
      exact Ne.symm file.nonzero
    have effect := inodeWriteAt_sectorZero mounted.dir.fine file listed foreign small buffer
    rw [← inodeWriteAt_flat] at effect
    exact kept_iff nonzero effect

theorem Fresh.sectorZero {size : BlockSector} {s : FlatFs} (fresh : Fresh size s) : SectorZero s := by
  obtain ⟨a, opened⟩ := fresh.inodes
  have found : s.findInode FREE_MAP_SECTOR = some ⟨a, 0, 1, false, 0, InodeDisk.decode (s.cache 0)⟩ := by
    rw [Fs.findInode, opened]
    rfl
  exact (Fs.inodeData_found found rfl).symm

theorem sectorZero_kept_formatted :
    (filesysCreate (formatted 199) [97] 512 false).2.flat.cache 0 = (formatted 199).flat.cache 0 := by
  have fresh := formatted_fresh (show FormatFits 199 by decide +kernel)
  have free : (freeSectors (formatted 199).flat.freeMap).length = 124 :=
    fresh.free_length.trans (by decide +kernel)
  have next : (createMissing (formatted 199).flat (splitPathFilename [97]).2 512)[124]? = none :=
    (congrArg (·[124]?) (fresh.createMissing _ _)).trans (by decide +kernel)
  have last := (congrArg (fun i => (createMissing (formatted 199).flat (splitPathFilename [97]).2 512)[i]?)
    free).trans next
  exact ((sectorZero_kept_iff _ fresh.mounted fresh.sectorZero).1 [97] 512).mpr
    (ne_of_eq_of_ne last (fun never => by cases never))

/-- The index block of the 124th data sector is the one that is missing. -/
theorem filesysCreate_clobbers_sectorZero : ∃ n, Mounted (formatted 199).flat n ∧
    SectorZero (formatted 199).flat ∧
    (filesysCreate (formatted 199) [97] 63488 false).2.flat.cache 0 ≠ (formatted 199).flat.cache 0 := by
  have fresh := formatted_fresh (show FormatFits 199 by decide +kernel)
  have free : (freeSectors (formatted 199).flat.freeMap).length = 124 :=
    fresh.free_length.trans (by decide +kernel)
  have next : (createMissing (formatted 199).flat (splitPathFilename [97]).2 63488)[124]? = some .index :=
    (congrArg (·[124]?) (fresh.createMissing _ _)).trans (by decide +kernel)
  exact ⟨_, fresh.mounted, fresh.sectorZero,
    filesysCreate_clobbers _ fresh.mounted fresh.sectorZero [97] 63488 free next⟩

end ShellOs.FileSystem
