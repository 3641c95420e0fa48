import ShellOs.FileSystem.Idle
import ShellOs.FileSystem.Room

/-! What a write that could not extend its file leaves behind. -/

namespace ShellOs.FileSystem
open Lib BlockTree SlotMap

/-- An open file or directory whose index table and free map are in order. -/
structure OpenInode (s : FlatFs) (x : BlockSector) : Prop where
  fine : FreeMapOk s
  file : FileAt s x
  listed : (s.findInode x).isSome
  foreign : ∀ f, s.freeMapFile = some f → f.inode ≠ x
  nodup : HandlesNodup s

/-- The free map, the inode and the contents of all sectors are the same. -/
structure Unchanged (s t : FlatFs) (x : BlockSector) : Prop where
  bits : SameBits s.freeMap t.freeMap
  data : t.inodeData x = s.inodeData x
  cached : ∀ z, t.cache z = s.cache z

/-- There is nothing to take, and the block that is missing first is not an index block, for which sector 0 would be
zeroed. -/
def FailsClean (s : FlatFs) (x : BlockSector) (fin : Nat) : Prop :=
  Idle s (writeNeeds s x fin) ∧ ((writeNeeds s x fin).head? = some .index → s.cache 0 = zeros)

theorem Unchanged.refl (s : FlatFs) (x : BlockSector) : Unchanged s s x := ⟨⟨rfl, fun _ _ => rfl⟩, rfl, fun _ => rfl⟩

section write

variable {s : FlatFs} {x : BlockSector} {o n : Nat}

theorem inodeWriteAt_idle (inode : OpenInode s x) (some : 0 < n) (small : o + n < 2 ^ 31)
    (refused : ¬CanWrite s x (o + n)) (idle : Idle s (writeNeeds s x (o + n))) (buffer : Nat → Byte) :
    inodeWriteAt s x buffer n o = (0, stalled s (writeNeeds s x (o + n))) := by
  have run : inodeWriteAt s x buffer n o = inodeWriteWith
      (freeMapAllocateWith (inodeWriteDepth (s.freeMap.bitCnt + 1)) 1) s x buffer n o := rfl
  rw [run, inodeWriteWith]
  by_cases writable : s.inodeDenyWriteCnt x = 0
  · have beyond : fileLen s x < o + n := by
      by_contra inside
      exact refused ⟨writable, Or.inl (by omega)⟩
    have needs : writeNeeds s x (o + n) = inodeMissing s.cache (s.inodeData x) (bytesToSectors ((o + n : Nat) : Int)) :=
      if_neg (by simp only [not_or]; exact ⟨not_not.mpr writable, by omega⟩)
    have length := inode.file.length
    have last : byteToSector s x (offsetOf ((o : Int) + n - 1)) = (NO_SECTOR, s) := by
      refine byteToSector_outside fun inside => ?_
      rw [offsetOf_eq (by omega) (by omega)] at inside
      omega
    have fin : offsetOf ((o : Int) + n) = ((o + n : Nat) : Int) := by
      rw [offsetOf_eq (by omega) (by omega)]
      omega
    have failed : ((inodeMissing s.cache (s.inodeData x) (bytesToSectors ((o + n : Nat) : Int))).isEmpty &&
        decide (bytesToSectors ((o + n : Nat) : Int) ≤ MAX_SECTORS)) = false := by
      rw [← Bool.not_eq_true, Bool.and_eq_true, List.isEmpty_iff, decide_eq_true_eq, ← needs]
      rintro ⟨none, few⟩
      exact refused ⟨writable, Or.inr ⟨few, by rw [none]; exact Nat.zero_le _⟩⟩
    rw [if_neg (not_not.mpr writable), last, if_pos rfl, fin]
    simp only
    rw [needs] at idle ⊢
    rw [inodeReserve_idle (allocates_of_depth _) inode.fine (s.inodeData x) (by omega) idle, if_pos failed]
    refine congrArg (Prod.mk 0) ?_
    unfold stalled
    split
    · have data : (s.bufferCacheWrite 0 zeros).inodeData x = s.inodeData x := Fs.inodeData_of_listed inode.listed rfl
      have same := setInodeData_same (s := s.bufferCacheWrite 0 zeros) (x := x) inode.nodup
      rw [data] at same
      exact same
    · exact setInodeData_same inode.nodup
  · have none : writeNeeds s x (o + n) = [] := if_pos (Or.inl writable)
    rw [if_pos writable, none, stalled_nil]

theorem inodeWriteAt_atomic (inode : OpenInode s x) (some : 0 < n) (smallN : n < 2 ^ 31) (smallO : o < 2 ^ 31)
    (buffer : Nat → Byte) :
    ((inodeWriteAt s x buffer n o).1 = 0 → Unchanged s (inodeWriteAt s x buffer n o).2 x) ↔
      2 ^ 31 ≤ o + n ∨ CanWrite s x (o + n) ∨ FailsClean s x (o + n) := by
  by_cases small : o + n < 2 ^ 31
  · obtain ⟨new, effect⟩ := inodeWriteAt_effect inode.fine inode.file inode.listed inode.foreign some small buffer
    by_cases can : CanWrite s x (o + n)
    · refine ⟨fun _ => Or.inr (Or.inl can), fun _ failed => ?_⟩
      have done : (inodeWriteAt s x buffer n o).1 = n := effect.done.mpr can
      omega
    · have failed : (inodeWriteAt s x buffer n o).1 = 0 := by
        rcases effect.result with ⟨all, -⟩ | ⟨nothing, -⟩
        · exact absurd (effect.done.mp all) can
        · exact nothing
      constructor
      · intro atomic
        have same := atomic failed
        have free : freeSectors (inodeWriteAt s x buffer n o).2.freeMap = freeSectors s.freeMap := same.bits.free
        have taken := congrArg List.length effect.took.free
        rw [List.length_append, free] at taken
        have idle : Idle s (writeNeeds s x (o + n)) := by
          by_cases enough : (writeNeeds s x (o + n)).length ≤ (freeSectors s.freeMap).length
          · have count := (effect.enough enough).1
            exact Or.inr (List.eq_nil_of_length_eq_zero (by omega))
          · exact Or.inl (free.symm.trans (effect.short (by omega)).1)
        refine Or.inr (Or.inr ⟨idle, fun first => ?_⟩)
        have full : freeSectors s.freeMap = [] := idle.resolve_right (by
          intro none
          rw [none] at first
          cases first)
        have needed : 0 < (writeNeeds s x (o + n)).length := List.length_pos_of_mem (List.mem_of_head? first)
        have zero := (effect.short (by rw [full]; exact needed)).2
        rw [full, List.length_nil, ← List.head?_eq_getElem?, if_pos first] at zero
        rw [← same.cached 0, zero]
      · rintro (past | possible | ⟨idle, clean⟩) -
        · omega
        · exact absurd possible can
        · rw [inodeWriteAt_idle inode some small can idle buffer]
          unfold stalled
          split
          · rename_i first
            refine ⟨⟨rfl, fun _ _ => rfl⟩, Fs.inodeData_of_listed inode.listed rfl, fun z => ?_⟩
            rw [flat_write]
            by_cases zero : z = 0
            · rw [zero]
              exact (Function.update_self 0 zeros s.cache).trans (clean first).symm
            · exact Function.update_of_ne zero _ _
          · exact Unchanged.refl s x
  · rw [inodeWriteAt_overflow inode.nodup inode.file smallO smallN (by omega) buffer]
    exact ⟨fun _ => Or.inl (by omega), fun _ _ => Unchanged.refl s x⟩

end write

/-- A write that cannot extend its file leaves no trace exactly if there was nothing to take for it, and no index block
came first. -/
theorem inodeWriteAt_atomic_iff (s : Fs BufferCache) {x : BlockSector} (inode : OpenInode s.flat x) {n o : Nat}
    (some : 0 < n) (smallN : n < 2 ^ 31) (smallO : o < 2 ^ 31) (buffer : Nat → Byte) :
    ((inodeWriteAt s x buffer n o).1 = 0 → Unchanged s.flat (inodeWriteAt s x buffer n o).2.flat x) ↔
      2 ^ 31 ≤ o + n ∨ CanWrite s.flat x (o + n) ∨ FailsClean s.flat x (o + n) := by
  have atomic := inodeWriteAt_atomic inode some smallN smallO buffer
  rw [← inodeWriteAt_flat, flatten_fst, flatten_snd] at atomic
  exact atomic

section created

theorem Volume.inodeOpened {s : FlatFs} {n : Nat} {x : BlockSector} (vol : Volume s n) (listed : x ∈ rootFiles s) :
    OpenInode (inodeOpen s x).2 x ∧ Rehandled s (inodeOpen s x).2 ∧ (inodeOpen s x).2.inodeDenyWriteCnt x = 0 := by
  have spec := inodeOpen_spec s x
  have opened := spec.fileOpened vol.mounted.handle vol.mounted.dir.fine (vol.ne_root listed)
  obtain ⟨next, slots, -⟩ := vol.opens listed opened
  have still : x ∈ rootFiles (inodeOpen s x).2 := by
    rw [rootFiles, slots]
    exact listed
  exact ⟨⟨next.mounted.dir.fine, (next.file x still).1, spec.listed, next.foreign (List.mem_cons_of_mem _ still),
    next.mounted.handle.nodup⟩, opened.rehandled, next.writable still spec.listed⟩

/-- A file without bytes and without sectors but that of its inode. -/
structure EmptyFile (s : FlatFs) (x : BlockSector) : Prop where
  length : fileLen s x = 0
  bare : inodeNodes s.cache (s.inodeData x) = []

theorem EmptyFile.rehandled {s t : FlatFs} {x : BlockSector} (empty : EmptyFile s x) (fine : FreeMapOk s)
    (file : FileAt s x) (same : Rehandled s t) : EmptyFile t x := by
  obtain ⟨-, sub, -, length⟩ := same.file fine file
  rw [sectorsOf, sectorsOf, empty.bare, List.cons_sublist_cons, List.sublist_nil] at sub
  exact ⟨by rw [fileLen, length]; exact empty.length, sub⟩

theorem EmptyFile.writeNeeds {s : FlatFs} {x : BlockSector} (empty : EmptyFile s x)
    (writable : s.inodeDenyWriteCnt x = 0) {k : Nat} (some : 0 < k) (fits : (k + 511) / 512 ≤ MAX_SECTORS) :
    (FileSystem.writeNeeds s x (0 + k)).length = (k + 511) / 512 + indexSectors ((k + 511) / 512) := by
  have small : k + 511 < 2 ^ 31 := by
    simp only [MAX_SECTORS] at fits
    omega
  have visited : inodeVisited s.cache (s.inodeData x) ((k + 511) / 512) = [] :=
    List.sublist_nil.mp (empty.bare ▸ inodeVisited_sublist s.cache (s.inodeData x) _)
  have missing := inodeMissing_visited s.cache (s.inodeData x) ((k + 511) / 512)
  rw [visited, List.length_nil, inodeMissing_empty fits] at missing
  rw [Nat.zero_add, FileSystem.writeNeeds, if_neg (by rw [empty.length, writable]; omega), bytesToSectors_eq small]
  exact missing

structure CreatedEmpty (s t : FlatFs) (n : Nat) (name : CString) (x : BlockSector) : Prop where
  volume : Volume t n
  bound : some (name, x) ∈ rootSlots t
  empty : EmptyFile t x
  unlisted : t.findInode x = none
  free : (freeSectors t.freeMap).length + 1 = (freeSectors s.freeMap).length
  fileTable : t.fileTable = s.fileTable

theorem Volume.createsEmpty {s : FlatFs} {n : Nat} (vol : Volume s n) {path : CString} (proper : (0 : Byte) ∉ path)
    (room : freeSlot (rootSlots s) < (rootSlots s).length) (made : (filesysCreate s path 0 false).1 = true) :
    ∃ m x, CreatedEmpty s (filesysCreate s path 0 false).2 m (splitPathFilename path).2 x := by
  obtain ⟨new, creation⟩ := filesysCreate_effect vol.mounted path 0
  have properName : (0 : Byte) ∉ (splitPathFilename path).2 := fun inside => proper (mem_of_fileName inside)
  obtain ⟨⟨m, volC⟩, -, -⟩ := vol.creates creation properName
  obtain ⟨y, created⟩ := creation.newFile vol.mounted made properName
  obtain ⟨x, file, root, all, free, -, fileAt, sub, -, length, -, slots⟩ := creation.made made
  obtain ⟨-, -, absent, -, enough⟩ := creation.done.mp made
  have bound : some ((splitPathFilename path).2, x) ∈ rootSlots (filesysCreate s path 0 false).2 := by
    rw [slots properName]
    exact List.mem_of_getElem? (put_freeSlot _ _)
  obtain rfl : x = y := volC.bound bound (by
    rw [created.slots]
    exact List.mem_of_getElem? (put_freeSlot _ _))
  have needs : createMissing s (splitPathFilename path).2 0 = [.data] := by
    rw [createMissing_room vol.mounted room]
    rfl
  rw [needs] at enough
  have taken := congrArg List.length creation.taken
  rw [needs, List.length_take, all, List.length_cons, Nat.min_eq_left enough, List.length_singleton] at taken
  have none : file = [] := List.eq_nil_of_length_eq_zero (by rw [List.length_append] at taken; omega)
  have split := congrArg List.length free
  rw [List.length_append, all, List.length_cons] at split
  refine ⟨m, x, volC, bound, ⟨?_, ?_⟩, created.unlisted, by omega, creation.fileTable⟩
  · rw [fileLen]
    exact congrArg Int.toNat (length.trans (show offsetOf 0 = 0 by decide))
  · rw [List.eq_nil_iff_forall_not_mem]
    intro z node
    rcases sub z (List.mem_cons_of_mem _ node) with rfl | mine
    · exact fileAt.apart node
    · rw [none] at mine
      cases mine

theorem formatted_createsEmpty : ∃ m x,
    CreatedEmpty (formatted 80).flat (filesysCreate (formatted 80) [97] 0 false).2.flat m [97] x ∧
      (freeSectors (filesysCreate (formatted 80) [97] 0 false).2.flat.freeMap).length = 4 ∧
      (formatted 80).flat.fileTable = [] := by
  have fresh := formatted_fresh (show FormatFits 80 by decide +kernel)
  have free : (freeSectors (formatted 80).flat.freeMap).length = 5 := fresh.free_length.trans (by decide +kernel)
  have made : (filesysCreate (formatted 80) [97] 0 false).1 = true :=
    (filesysCreate_done fresh.mounted [97] 0).mpr (fresh.fits free (by decide) (by decide) (by decide))
  have general : ∀ s : Fs BufferCache, Fresh 80 s.flat → (filesysCreate s [97] 0 false).1 = true → ∃ m x,
      CreatedEmpty s.flat (filesysCreate s [97] 0 false).2.flat m [97] x := by
    intro s fresh made
    have flat := filesysCreate_flat s [97] 0 false
    obtain ⟨m, x, created⟩ := @Volume.createsEmpty _ _ fresh.volume [97] (by decide) fresh.room (by rw [← flat]; exact made)
    rw [← flat, flatten_snd] at created
    exact ⟨m, x, created⟩
  obtain ⟨m, x, created⟩ := general _ fresh made
  exact ⟨m, x, created, by have := created.free; omega, fresh.fileTable⟩

theorem emptyFile_formatted : ∃ x, let t := (inodeOpen (filesysCreate (formatted 80) [97] 0 false).2 x).2
    OpenInode t.flat x ∧ EmptyFile t.flat x ∧ t.flat.inodeDenyWriteCnt x = 0 ∧
      (freeSectors t.flat.freeMap).length = 4 := by
  obtain ⟨m, x, created, free, -⟩ := formatted_createsEmpty
  generalize (filesysCreate (formatted 80) [97] 0 false).2 = s at *
  have listed := mem_rootFiles.mpr ⟨_, created.bound⟩
  obtain ⟨inode, rehandled, deny⟩ := created.volume.inodeOpened listed
  have empty := created.empty.rehandled created.volume.mounted.dir.fine (created.volume.file x listed).1 rehandled
  rw [← rehandled.bits] at free
  have flat := congrArg Prod.snd (inodeOpen_flat s x)
  rw [flatten_snd] at flat
  rw [← flat] at inode empty deny free
  exact ⟨x, inode, empty, deny, free⟩

theorem inodeWriteAt_atomic_formatted : ∃ x, let t := (inodeOpen (filesysCreate (formatted 80) [97] 0 false).2 x).2
    (inodeWriteAt t x (fun _ => 65) (1024 : Nat) (0 : Nat)).1 = 0 →
      Unchanged t.flat (inodeWriteAt t x (fun _ => 65) (1024 : Nat) (0 : Nat)).2.flat x := by
  obtain ⟨x, inode, empty, deny, free⟩ := emptyFile_formatted
  have needs := empty.writeNeeds deny (k := 1024) (by decide) (by decide)
  refine ⟨x, ?_⟩
  generalize (inodeOpen (filesysCreate (formatted 80) [97] 0 false).2 x).2 = t at *
  have two : (1024 + 511) / 512 + indexSectors ((1024 + 511) / 512) = 2 := by decide
  rw [two] at needs
  have can : CanWrite t.flat x (0 + 1024) := ⟨deny, Or.inr ⟨by decide, by omega⟩⟩
  exact (inodeWriteAt_atomic_iff t inode (by decide) (by decide) (by decide) _).mpr (Or.inr (Or.inl can))

/-- A write of 5120 bytes takes the 4 sectors that are left, fails, and keeps them. -/
theorem inodeWriteAt_not_atomic : ∃ x, let t := (inodeOpen (filesysCreate (formatted 80) [97] 0 false).2 x).2
    OpenInode t.flat x ∧ (inodeWriteAt t x (fun _ => 65) (5120 : Nat) (0 : Nat)).1 = 0 ∧
      ¬Unchanged t.flat (inodeWriteAt t x (fun _ => 65) (5120 : Nat) (0 : Nat)).2.flat x := by
  obtain ⟨x, inode, empty, deny, free⟩ := emptyFile_formatted
  refine ⟨x, inode, ?_⟩
  have needs := empty.writeNeeds deny (k := 5120) (by decide) (by decide)
  generalize (inodeOpen (filesysCreate (formatted 80) [97] 0 false).2 x).2 = t at *
  have ten : (5120 + 511) / 512 + indexSectors ((5120 + 511) / 512) = 10 := by decide
  rw [ten] at needs
  have refused : ¬(2 ^ 31 ≤ 0 + 5120 ∨ CanWrite t.flat x (0 + 5120) ∨ FailsClean t.flat x (0 + 5120)) := by
    rintro (past | ⟨-, inside | ⟨-, enough⟩⟩ | ⟨full | none, -⟩)
    · exact absurd past (by decide)
    · have := empty.length
      omega
    · omega
    · rw [full] at free
      cases free
    · rw [none] at needs
      cases needs
  have result := mt (inodeWriteAt_atomic inode (by decide) (by decide) (by decide) fun _ => 65).mp refused
  rw [← inodeWriteAt_flat, flatten_fst, flatten_snd] at result
  exact Classical.not_imp.mp result

end created

end ShellOs.FileSystem
