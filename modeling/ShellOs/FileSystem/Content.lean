import ShellOs.FileSystem.Reserve

/-! The bytes of a file: what `inode_write_at` makes of them, when it extends the file and when it
cannot, and what `inode_read_at` returns. -/

namespace ShellOs.FileSystem
open Lib BlockTree

/-- A well-formed inode of `len` bytes: its sectors are in place, what is allocated beyond its length
is zero. -/
structure InodeOk (v : Disk) (b : Bitmap) (d : InodeDisk) (len : Nat) : Prop extends Layout v b d len where
  blank : ∀ i, i < MAX_SECTORS → len ≤ i * 512 → blockAt v d i ≠ 0 → v (blockAt v d i) = zeros
  tail : ∀ p, len ≤ p → p / 512 * 512 < len → byteAt v d p = 0

@[simp] theorem sectorByte_zeros (i : Nat) : sectorByte zeros i = 0 := by
  unfold sectorByte zeros
  split <;> rfl

theorem InodeOk.past {v : Disk} {b : Bitmap} {d : InodeDisk} {len p : Nat} (ok : InodeOk v b d len)
    (bound : p / 512 < MAX_SECTORS) (beyond : len ≤ p) (mapped : blockAt v d (p / 512) ≠ 0) :
    byteAt v d p = 0 := by
  by_cases last : p / 512 * 512 < len
  · exact ok.tail p beyond last
  · rw [byteAt, ok.blank _ bound (by omega) mapped, sectorByte_zeros]

theorem ofInt_toInt {len : Nat} (small : len < 2 ^ 31) :
    (BitVec.ofInt 32 (len : Int)).toInt = len := by
  rw [BitVec.toInt_ofInt]
  apply Int.bmod_eq_of_le <;> omega

theorem InodeOk.lengthen {v : Disk} {b : Bitmap} {d : InodeDisk} {len more : Nat}
    (ok : InodeOk v b d len) (longer : len ≤ more) (fits : more ≤ MAX_LENGTH)
    (mapped : Mapped v d more) :
    InodeOk v b { d with length := BitVec.ofInt 32 (more : Int) } more := by
  simp only [MAX_LENGTH] at fits
  refine ⟨⟨ofInt_toInt (by omega), fits, mapped, ok.nodup, ok.used⟩, fun i bound beyond present => ?_,
    fun p beyond below => ?_⟩
  · exact ok.blank i bound (by omega) present
  · exact ok.past (by simp only [MAX_SECTORS]; omega) (by omega) (mapped _ below)

theorem InodeOk.wrote {v w : Disk} {b : Bitmap} {d : InodeDisk} {len o n : Nat} {bytes : Nat → Byte}
    (ok : InodeOk v b d len) (wrote : Wrote v w d len o n bytes) (bound : o + n ≤ len) :
    InodeOk w b d len := by
  have fits := ok.fits
  simp only [MAX_LENGTH] at fits
  obtain ⟨nodes, -⟩ := wrote.nodes ok.nodup ok.fits bound
  refine ⟨⟨ok.length, ok.fits, wrote.mapped ok.fits ok.mapped, by rw [nodes]; exact ok.nodup,
    by rw [nodes]; exact ok.used⟩, fun i small beyond present => ?_, fun p beyond below => ?_⟩
  · rw [wrote.blocks i small] at present ⊢
    rw [wrote.frame _ fun j _ below same => ?_]
    · exact ok.blank i small beyond present
    · have := blockAt_injective ok.nodup small (by simp only [MAX_SECTORS]; omega) present same
      omega
  · rw [wrote.bytes p below, if_neg (by omega)]
    exact ok.tail p beyond below

theorem InodeOk.congr {v w : Disk} {b b' : Bitmap} {d : InodeDisk} {len : Nat}
    (ok : InodeOk v b d len) (same : ∀ x ∈ inodeNodes v d, w x = v x)
    (used : ∀ x ∈ inodeNodes v d, Used b' x) : InodeOk w b' d len ∧ ∀ p, p / 512 * 512 < len → byteAt w d p = byteAt v d p := by
  have tables : ∀ x ∈ inodeInner v d, w x = v x := fun x member => same x (inodeInner_sub member)
  obtain ⟨-, -, blocks⟩ := inode_congr (d := d) (e := d) (fun _ _ => rfl) tables
  have bytes : ∀ p, p / 512 * 512 < len → byteAt w d p = byteAt v d p := by
    intro p below
    have small := ok.small below
    simp only [byteAt, blocks _ small, same _ (blockAt_mem small (ok.mapped _ below))]
  refine ⟨⟨ok.toLayout.congr tables used, fun i bound beyond present => ?_, fun p beyond below => ?_⟩, bytes⟩
  · rw [blocks i bound] at present ⊢
    rw [same _ (blockAt_mem bound present)]
    exact ok.blank i bound beyond present
  · rw [bytes p below]
    exact ok.tail p beyond below

section growth

variable {s t : FlatFs} {d d' : InodeDisk} {goal : Nat × Nat → Prop} {ok : Bool}
  {needs : List BlockKind} {new leaked : List BlockSector}

theorem Grown.kept (grown : Grown (Within 128 inodeShape) goal s (inodeAt s.cache d) t
      (inodeAt t.cache d') ok needs new leaked) (fine : FreeMapOk s)
    (own : Own s (inodeNodes s.cache d)) {i : Nat} (bound : i < MAX_SECTORS)
    (mapped : blockAt s.cache d i ≠ 0) :
    blockAt t.cache d' i = blockAt s.cache d i ∧
      t.cache (blockAt s.cache d i) = s.cache (blockAt s.cache d i) := by
  have member := blockAt_mem bound mapped
  have keep := grown.grows.keep (position i) (within_position bound)
  have apart := blockAt_not_inner own.nodup bound
  exact ⟨keep mapped, grown.took.frame_used fine mapped (own.used _ member) (own.apart _ member) apart⟩

theorem Grown.content (grown : Grown (Within 128 inodeShape) goal s (inodeAt s.cache d) t
      (inodeAt t.cache d') ok needs new leaked) (fine : FreeMapOk s)
    (own : Own s (inodeNodes s.cache d)) {len : Nat} (good : InodeOk s.cache s.freeMap d len)
    (same : d'.length = d.length) :
    InodeOk t.cache t.freeMap d' len ∧
      ∀ p, p / 512 * 512 < len → byteAt t.cache d' p = byteAt s.cache d p := by
  have ownNext := grown.own fine own
  have bytes : ∀ p, p / 512 * 512 < len → byteAt t.cache d' p = byteAt s.cache d p := by
    intro p below
    obtain ⟨place, bytes⟩ := grown.kept fine own (good.small below) (good.mapped _ below)
    simp only [byteAt, place, bytes]
  refine ⟨⟨⟨?_, good.fits, fun i below => ?_, ownNext.nodup, ownNext.used⟩, fun i bound beyond mapped => ?_,
    fun p beyond below => ?_⟩, bytes⟩
  · rw [same]
    exact good.length
  · rw [(grown.kept fine own (good.small below) (good.mapped i below)).1]
    exact good.mapped i below
  · by_cases before : blockAt s.cache d i = 0
    · have blank := grown.blank (position i) (within_position bound)
      rw [inodeAt_leaf, inodeAt_leaf] at blank
      exact blank before mapped
    · obtain ⟨place, bytes⟩ := grown.kept fine own bound before
      rw [place, bytes]
      exact good.blank i bound beyond before
  · rw [bytes p below]
    exact good.tail p beyond below

end growth

theorem bytesToSectors_eq {x : Nat} (small : x + 511 < 2 ^ 31) : bytesToSectors x = (x + 511) / 512 := by
  have sum : offsetOf ((x : Int) + BLOCK_SECTOR_SIZE - 1) = ((x + 511 : Nat) : Int) := by
    simp only [BLOCK_SECTOR_SIZE]
    rw [offsetOf_eq (by omega) (by omega)]
    omega
  rw [bytesToSectors, sum, Int.tdiv_eq_ediv_of_nonneg (by omega)]
  simp only [BLOCK_SECTOR_SIZE]
  omega

theorem bytesToSectors_wraps {x : Nat} (small : x < 2 ^ 31) (large : 2 ^ 31 ≤ x + 511) :
    MAX_SECTORS < bytesToSectors x := by
  have sum : offsetOf ((x : Int) + BLOCK_SECTOR_SIZE - 1) = -((2 ^ 32 - (x + 511) : Nat) : Int) := by
    simp only [BLOCK_SECTOR_SIZE]
    unfold offsetOf
    rw [Int.bmod_def]
    omega
  rw [bytesToSectors, sum, Int.neg_tdiv, Int.tdiv_eq_ediv_of_nonneg (by omega)]
  simp only [BLOCK_SECTOR_SIZE, MAX_SECTORS]
  omega

theorem fits_of_sectors {x : Nat} (small : x < 2 ^ 31) (few : bytesToSectors x ≤ MAX_SECTORS) :
    x ≤ MAX_LENGTH ∧ bytesToSectors x = (x + 511) / 512 := by
  by_cases large : 2 ^ 31 ≤ x + 511
  · have := bytesToSectors_wraps small large
    omega
  · have count := bytesToSectors_eq (show x + 511 < 2 ^ 31 by omega)
    rw [count] at few
    simp only [MAX_SECTORS] at few
    simp only [MAX_LENGTH]
    omega

theorem Took.setInodeData {s s' : FlatFs} {new touched : List BlockSector}
    (took : Took s s' new touched) {inode : BlockSector}
    (foreign : ∀ f, s.freeMapFile = some f → f.inode ≠ inode) (d : InodeDisk) :
    Took s (s'.setInodeData inode d) new touched :=
  took.reopen fun f opened =>
    Fs.findInode_setInodeData_ne s' (foreign f (took.freeMapFile ▸ opened)) d

/-- The state a write past the end of a file starts from. -/
structure Extending (s : FlatFs) (inode : BlockSector) (d : InodeDisk) (len : Nat) : Prop where
  fine : FreeMapOk s
  data : s.inodeData inode = d
  writable : s.inodeDenyWriteCnt inode = 0
  good : InodeOk s.cache s.freeMap d len
  own : Own s (inode :: inodeNodes s.cache d)
  foreign : ∀ f, s.freeMapFile = some f → f.inode ≠ inode

theorem Extending.ownNodes {s : FlatFs} {inode : BlockSector} {d : InodeDisk} {len : Nat}
    (start : Extending s inode d len) : Own s (inodeNodes s.cache d) :=
  start.own.sub (List.nodup_cons.mp start.own.nodup).2 fun _ member => List.mem_cons_of_mem _ member

/-- The inode is in memory, or else it is read from where it has just been written. -/
theorem inodeData_written (t : FlatFs) (inode : BlockSector) (e : InodeDisk) :
    ((t.setInodeData inode e).bufferCacheWrite inode e.encode).inodeData inode = e := by
  by_cases listed : (t.findInode inode).isSome
  · have memory : ((t.setInodeData inode e).bufferCacheWrite inode e.encode).inodeData inode =
        (t.setInodeData inode e).inodeData inode :=
      Fs.inodeData_of_listed (by rw [Fs.listed_setInodeData]; exact listed) rfl
    exact memory.trans (Fs.inodeData_setInodeData listed e)
  · have closed : ((t.setInodeData inode e).bufferCacheWrite inode e.encode).findInode inode = none := by
      have same := Fs.listed_setInodeData t inode inode e
      rw [Bool.not_eq_true] at listed
      rw [listed] at same
      exact Option.isNone_iff_eq_none.mp (Option.isSome_eq_false_iff.mp same)
    rw [Fs.inodeData, closed]
    change InodeDisk.decode (Function.update t.cache inode e.encode inode) = e
    rw [Function.update_self, InodeDisk.decode_encode]

theorem inodeWriteLoop_extended {s t : FlatFs} {inode : BlockSector} {d d' : InodeDisk}
    {len o n m : Nat} {needs : List BlockKind} {new leaked : List BlockSector}
    (start : Extending s inode d len) (beyond : len < o + n) (fits : o + n ≤ MAX_LENGTH)
    (count : m = (o + n + 511) / 512)
    (grown : Grown (Within 128 inodeShape) (fun p => ∃ i, i < m ∧ i < MAX_SECTORS ∧ p = position i) s
      (inodeAt s.cache d) t (inodeAt t.cache d') true needs new leaked)
    (extended : Extends d d') (buffer : Nat → Byte) :
    let e := { d' with length := BitVec.ofInt 32 ((o + n : Nat) : Int) }
    InodeOk (Function.update t.cache inode e.encode) t.freeMap e (o + n) ∧
      (∀ p, p / 512 * 512 < len → byteAt (Function.update t.cache inode e.encode) e p =
        byteAt s.cache d p) ∧
      (∀ p, len ≤ p → p < o + n → byteAt (Function.update t.cache inode e.encode) e p = 0) ∧
      ∃ w, inodeWriteLoop ((t.setInodeData inode e).bufferCacheWrite inode e.encode) inode buffer n o 0 =
          ((n : Int), { t.setInodeData inode e with cache := w }) ∧
        Wrote (Function.update t.cache inode e.encode) w e (o + n) o n buffer ∧
        ({ t.setInodeData inode e with cache := w } : FlatFs).inodeData inode = e := by
  intro e
  obtain ⟨good, bytes⟩ := grown.content start.fine start.ownNodes start.good extended.length
  have owned := grown.own start.fine start.ownNodes
  have mapped : Mapped t.cache d' (o + n) := by
    intro i below
    have reached := grown.full rfl (position i)
    rw [inodeAt_leaf] at reached
    simp only [MAX_LENGTH] at fits
    exact reached ⟨i, by omega, by simp only [MAX_SECTORS]; omega, rfl⟩
  have longer : InodeOk t.cache t.freeMap e (o + n) := good.lengthen (by omega) fits mapped
  have apart : inode ∉ inodeNodes t.cache e := by
    intro member
    rcases grown.grows.mem_old_or_new member with inOld | inNew
    · exact (List.nodup_cons.mp start.own.nodup).1 inOld
    · exact grown.took.new_not_used inNew (start.own.used _ List.mem_cons_self)
  have elsewhere : ∀ x ∈ inodeNodes t.cache e, Function.update t.cache inode e.encode x = t.cache x :=
    fun x member => Function.update_of_ne (fun same : x = inode => apart (same ▸ member)) _ _
  obtain ⟨written, sameBytes⟩ := longer.congr elsewhere longer.used
  set u := (t.setInodeData inode e).bufferCacheWrite inode e.encode with next
  have data : u.inodeData inode = e := inodeData_written t inode e
  have disk : u.cache = Function.update t.cache inode e.encode := rfl
  have settled : Settled u inode := by
    obtain ⟨nodes, -, -⟩ := inode_congr (v := t.cache) (w := u.cache) (d := e) (e := e) (fun _ _ => rfl) fun x member =>
      elsewhere x (inodeInner_sub member)
    refine Or.inr ?_
    rw [data, nodes]
    exact apart
  obtain ⟨w, run, wrote⟩ := inodeWriteLoop_spec settled (by rw [Fs.inodeLength, data]; exact written.length)
    fits (by rw [data, disk]; exact written.mapped) (by rw [data, disk]; exact written.nodup) buffer n o 0
    le_rfl
  have still := settled.data fits (by rw [data, disk]; exact written.mapped) wrote le_rfl
  rw [data, disk] at wrote
  simp only [Nat.zero_add, Nat.cast_zero] at run wrote
  simp only [MAX_LENGTH] at fits
  refine ⟨written, fun p below => ?_, fun p past below => ?_, w, run, wrote, still.trans data⟩
  · rw [sameBytes p (by omega)]
    exact bytes p below
  · rw [sameBytes p (by omega)]
    exact good.past (by simp only [MAX_SECTORS]; omega) past (mapped _ (by omega))

/-- A write past the end of a file reserves sectors first. If it gets them all, the inode is
written out with its new length and the bytes follow; if not, it returns 0, but what was reserved
stays reserved. -/
theorem inodeWriteWith_extending {allocate : FlatFs → Option BlockSector × FlatFs}
    (allocates : Allocates allocate) {s : FlatFs} {inode : BlockSector} {d : InodeDisk} {len o n : Nat}
    (start : Extending s inode d len) (beyond : len < o + n) (small : o + n < 2 ^ 31)
    (buffer : Nat → Byte) :
    ∃ d' t new leaked reached, Grown (Within 128 inodeShape)
      (fun p => ∃ i, i < bytesToSectors (o + n : Nat) ∧ i < MAX_SECTORS ∧ p = position i) s
      (inodeAt s.cache d) t (inodeAt t.cache d') reached
      (inodeMissing s.cache d (bytesToSectors (o + n : Nat))) new leaked ∧ Extends d d' ∧
      ((reached && decide (bytesToSectors (o + n : Nat) ≤ MAX_SECTORS)) = false →
        inodeWriteWith allocate s inode buffer n o = (0, t.setInodeData inode d')) ∧
      ((reached && decide (bytesToSectors (o + n : Nat) ≤ MAX_SECTORS)) = true →
        let e := { d' with length := BitVec.ofInt 32 ((o + n : Nat) : Int) }
        InodeOk (Function.update t.cache inode e.encode) t.freeMap e (o + n) ∧
        (∀ p, p / 512 * 512 < len → byteAt (Function.update t.cache inode e.encode) e p =
          byteAt s.cache d p) ∧
        (∀ p, len ≤ p → p < o + n → byteAt (Function.update t.cache inode e.encode) e p = 0) ∧
        ∃ w, inodeWriteWith allocate s inode buffer n o =
            ((n : Int), { t.setInodeData inode e with cache := w }) ∧
          Wrote (Function.update t.cache inode e.encode) w e (o + n) o n buffer ∧
          ({ t.setInodeData inode e with cache := w } : FlatFs).inodeData inode = e) := by
  have sum : offsetOf ((o : Int) + n) = ((o + n : Nat) : Int) := by
    rw [offsetOf_eq (by omega) (by omega)]
    omega
  have last : offsetOf ((o : Int) + n - 1) = ((o + n : Nat) : Int) - 1 := by
    rw [offsetOf_eq (by omega) (by omega)]
    omega
  have length : s.inodeLength inode = len := by
    rw [Fs.inodeLength, start.data]
    exact start.good.length
  have run : inodeWriteWith allocate s inode buffer n o =
      let r := inodeReserve allocate s d ((o + n : Nat) : Int)
      if r.ok = false then (0, r.fs.setInodeData inode r.value)
      else
        let e := { r.value with length := BitVec.ofInt 32 ((o + n : Nat) : Int) }
        inodeWriteLoop ((r.fs.setInodeData inode e).bufferCacheWrite inode e.encode) inode buffer n o 0 := by
    unfold inodeWriteWith
    rw [if_neg (by simp [start.writable]), last, byteToSector_outside (by rw [length]; omega), sum]
    simp only [if_true, start.data]
  obtain ⟨new, leaked, reached, grown, done, extended⟩ := inodeReserve_spec (d := d) allocates start.fine
    start.ownNodes (show (0 : Int) ≤ ((o + n : Nat) : Int) by omega)
  rw [run]
  simp only
  generalize inodeReserve allocate s d ((o + n : Nat) : Int) = r at *
  refine ⟨r.value, r.fs, new, leaked, reached, grown, extended, fun fails => ?_, fun succeeds => ?_⟩
  · rw [if_pos (done.trans fails)]
  · rw [if_neg (by rw [done, succeeds]; decide)]
    rw [Bool.and_eq_true, decide_eq_true_eq] at succeeds
    have fits := fits_of_sectors small succeeds.2
    rw [succeeds.1] at grown
    exact inodeWriteLoop_extended start beyond fits.1 fits.2 grown extended buffer

end ShellOs.FileSystem
