import ShellOs.Lib.GrowArray
import ShellOs.FileSystem.Content
import ShellOs.FileSystem.Cache

/-! A file is a growable array of bytes. -/

namespace ShellOs.FileSystem
open Lib BlockTree GrowArray

/-- The bytes of a file up to its length. -/
def contents {σ : Type} [Store σ BlockSector Sector] (s : Fs σ) (inode : BlockSector) : List Byte :=
  content (Store.view s.cache) (s.inodeData inode) 0 (s.inodeLength inode).toNat

theorem contents_flat {σ : Type} [Store σ BlockSector Sector] (s : Fs σ) (inode : BlockSector) :
    contents s.flat inode = contents s inode := rfl

def bufferBytes (buffer : Nat → Byte) (n : Nat) : List Byte := (List.range n).map buffer

theorem getElem?_content (v : Disk) (d : InodeDisk) (start n p : Nat) :
    (content v d start n)[p]? = if p < n then some (byteAt v d (start + p)) else none := by
  unfold content
  rw [List.getElem?_map]
  by_cases small : p < n
  · rw [if_pos small, List.getElem?_range small, Option.map_some]
  · rw [if_neg small, List.getElem?_eq_none (by simpa using small), Option.map_none]

theorem contents_eq {s : FlatFs} {inode : BlockSector} {d : InodeDisk} {len : Nat}
    (data : s.inodeData inode = d) (length : d.length.toInt = len) :
    contents s inode = content s.cache d 0 len := by
  unfold contents Fs.inodeLength
  rw [data, length, Int.toNat_natCast]
  rfl

theorem slice_content (v : Disk) (d : InodeDisk) (len o n : Nat) :
    slice (content v d 0 len) o n = content v d o (min n (len - o)) := by
  apply List.ext_getElem?
  intro p
  rw [getElem?_content, slice, List.getElem?_take]
  by_cases small : p < n
  · rw [if_pos small, List.getElem?_drop, getElem?_content]
    by_cases inside : o + p < len
    · rw [if_pos inside, if_pos (by omega), Nat.zero_add]
    · rw [if_neg inside, if_neg (by omega)]
  · rw [if_neg small, if_neg (by omega)]

theorem content_overwrite {v w u : Disk} {d e : InodeDisk} {len more o n : Nat} {buffer : Nat → Byte}
    (size : more = max len (o + n)) (wrote : Wrote u w e more o n buffer)
    (kept : ∀ p, p < len → byteAt u e p = byteAt v d p)
    (hole : ∀ p, len ≤ p → p < more → byteAt u e p = 0) :
    content w e 0 more = overwrite 0 (content v d 0 len) o (bufferBytes buffer n) := by
  have counts : (content v d 0 len).length = len ∧ (bufferBytes buffer n).length = n := by
    simp [content, bufferBytes]
  apply eq_overwrite
  · rw [counts.1, counts.2, ← size]
    simp [content]
  · intro p small
    rw [counts.2] at small
    rw [getElem?_content, if_pos (by omega), Nat.zero_add, wrote.bytes _ (by omega), if_pos (by omega),
      bufferBytes, List.getElem?_map, List.getElem?_range small, Option.map_some,
      show o + p - o = p by omega]
  · intro p small outside
    rw [counts.1] at small
    rw [counts.2] at outside
    rw [getElem?_content, getElem?_content, if_pos (by omega), if_pos small, Nat.zero_add,
      wrote.bytes _ (by omega), if_neg outside, kept p small]
  · intro p old before
    rw [counts.1] at old
    rw [getElem?_content, if_pos (by omega), Nat.zero_add, wrote.bytes _ (by omega), if_neg (by omega),
      hole p old (by omega)]

/-- A write has put all of its bytes into the array, or it has left the array alone. -/
def WritesAllOrNothing {σ : Type} [Store σ BlockSector Sector] (s : Fs σ) (inode : BlockSector)
    (buffer : Nat → Byte) (n o : Nat) (r : Int × Fs σ) : Prop :=
  (r.1 = n ∧ r.2.inodeLength inode = max (s.inodeLength inode) (o + n : Nat) ∧
    contents r.2 inode = overwrite 0 (contents s inode) o (bufferBytes buffer n)) ∨
  (r.1 = 0 ∧ r.2.inodeLength inode = s.inodeLength inode ∧ contents r.2 inode = contents s inode)

theorem inodeWriteAt_inside {s : FlatFs} {inode : BlockSector} {len o n : Nat}
    (few : s.freeMap.bitCnt < 2 ^ 32) (settled : Settled s inode)
    (writable : s.inodeDenyWriteCnt inode = 0)
    (layout : Layout s.cache s.freeMap (s.inodeData inode) len) (some : 0 < n) (bound : o + n ≤ len)
    (buffer : Nat → Byte) :
    WritesAllOrNothing s inode buffer n o (inodeWriteAt s inode buffer n o) := by
  obtain ⟨w, run, wrote⟩ := inodeWriteWith_inside
    (freeMapAllocateWith (inodeWriteDepth (s.freeMap.bitCnt + 1)) 1) few settled writable layout some
    bound buffer
  have result : inodeWriteAt s inode buffer n o = ((n : Int), { s with cache := w }) := run
  have data := settled.data layout.fits layout.mapped wrote bound
  rw [result]
  refine Or.inl ⟨rfl, ?_, ?_⟩
  · simp only [Fs.inodeLength, data, layout.length]
    omega
  · rw [contents_eq data layout.length, contents_eq rfl layout.length]
    exact content_overwrite (by omega) wrote (fun _ _ => rfl) fun p _ _ => by omega

theorem inodeWriteAt_extending {s : FlatFs} {inode : BlockSector} {d : InodeDisk} {len o n : Nat}
    (start : Extending s inode d len) (beyond : len < o + n) (small : o + n < 2 ^ 31) (buffer : Nat → Byte)
    (keeps : (s.findInode inode).isSome ∨ (inodeWriteAt s inode buffer n o).1 ≠ 0) :
    WritesAllOrNothing s inode buffer n o (inodeWriteAt s inode buffer n o) := by
  obtain ⟨d', t, new, leaked, reached, grown, extended, fails, succeeds⟩ := inodeWriteWith_extending
    (allocates_of_depth s.freeMap.bitCnt) start beyond small buffer
  obtain ⟨good, bytes⟩ := grown.content start.fine start.ownNodes start.good extended.length
  have before := contents_eq start.data start.good.length
  have length : s.inodeLength inode = len := by
    rw [Fs.inodeLength, start.data]
    exact start.good.length
  cases done : reached && decide (bytesToSectors (o + n : Nat) ≤ MAX_SECTORS) with
  | false =>
    have result : inodeWriteAt s inode buffer n o = (0, t.setInodeData inode d') := fails done
    have listed : (t.findInode inode).isSome := by
      unfold Fs.findInode
      rw [grown.opened]
      exact keeps.resolve_right fun wrote => wrote (congrArg Prod.fst result)
    have data := Fs.inodeData_setInodeData listed d'
    rw [result]
    refine Or.inr ⟨rfl, ?_, ?_⟩
    · rw [length, Fs.inodeLength, data]
      exact good.length
    · rw [contents_eq data good.length, before]
      apply List.map_congr_left
      intro p member
      have inside := List.mem_range.mp member
      rw [Nat.zero_add]
      exact bytes p (by omega)
  | true =>
    obtain ⟨written, kept, hole, w, run, wrote, data⟩ := succeeds done
    have result : inodeWriteAt s inode buffer n o = _ := run
    rw [result]
    refine Or.inl ⟨rfl, ?_, ?_⟩
    · simp only [Fs.inodeLength, data]
      rw [written.length, start.data, start.good.length]
      omega
    · rw [contents_eq data written.length, before]
      exact content_overwrite (by omega) wrote (fun p inside => kept p (by omega)) hole

theorem inodeWriteAt_denied {s : FlatFs} {inode : BlockSector} (denied : s.inodeDenyWriteCnt inode ≠ 0)
    (buffer : Nat → Byte) (n o : Nat) :
    WritesAllOrNothing s inode buffer n o (inodeWriteAt s inode buffer n o) := by
  have result : inodeWriteAt s inode buffer n o = (0, s) := if_pos denied
  rw [result]
  exact Or.inr ⟨rfl, rfl, rfl⟩

section growable

variable {σ : Type} [Store σ BlockSector Sector]

/-- An open file of `len` bytes that is well formed, as is the free map. -/
structure FileOk (s : Fs σ) (inode : BlockSector) (len : Nat) : Prop where
  fine : FreeMapOk s.flat
  root : Used s.freeMap ROOT_DIR_SECTOR
  listed : (s.findInode inode).isSome
  good : InodeOk s.flat.cache s.freeMap (s.inodeData inode) len

/-- The inode is in a sector of its own, and it is not the free map's. -/
structure Regular (s : Fs σ) (inode : BlockSector) : Prop where
  own : Own s.flat (inode :: inodeNodes s.flat.cache (s.inodeData inode))
  foreign : ∀ f, s.freeMapFile = some f → f.inode ≠ inode

end growable

/-- An inode behaves as a growable array of bytes, unless it is the free map's own and grows. -/
theorem inode_growable (s : Fs BufferCache) (inode : BlockSector) (len : Nat)
    (file : FileOk s inode len) :
    (∀ n o : Nat, (inodeReadAt s inode n o).1 = slice (contents s inode) o n) ∧
      ∀ buffer n o, 0 < n → o + n < 2 ^ 31 → o + n ≤ len ∨ Regular s inode →
        WritesAllOrNothing s inode buffer n o (inodeWriteAt s inode buffer n o) := by
  have length : s.flat.inodeLength inode = len := file.good.length
  refine ⟨fun n o => ?_, fun buffer n o some small place => ?_⟩
  · have read := congrArg Prod.fst (inodeReadAt_flat s inode n o)
    rw [flatten_fst, inodeReadAt_spec length file.good.fits file.good.mapped] at read
    rw [read, ← contents_flat, contents_eq rfl file.good.length, slice_content]
  · have write := inodeWriteAt_flat s inode buffer n o
    suffices flat : WritesAllOrNothing s.flat inode buffer n o (inodeWriteAt s.flat inode buffer n o) by
      rw [← write] at flat
      exact flat
    by_cases writable : s.flat.inodeDenyWriteCnt inode = 0
    · by_cases inside : o + n ≤ len
      · exact inodeWriteAt_inside file.fine.small (Or.inl file.listed) writable file.good.toLayout some inside buffer
      · have regular := place.resolve_left inside
        exact inodeWriteAt_extending ⟨file.fine, rfl, writable, file.good, regular.own, regular.foreign⟩ (by omega) small
          buffer (Or.inl file.listed)
    · exact inodeWriteAt_denied writable buffer n o

def coldFs (sectors : Disk) (freeMap : Bitmap) (freeMapFile : Option File) (openInodes : List Inode) :
    Fs BufferCache where
  cache := BufferCache.init ⟨fun _ => ⟨false, 0, zeros, false, false⟩, 0, ⟨BitVec.ofNat 32 freeMap.bitCnt, sectors⟩⟩
  freeMap := freeMap
  freeMapFile := freeMapFile
  openInodes := openInodes
  nextAddr := openInodes.length
  cwd := none
  fileTable := []
  usedFreed := false

theorem coldFs_flat (sectors : Disk) (freeMap : Bitmap) (freeMapFile : Option File)
    (openInodes : List Inode) : (coldFs sectors freeMap freeMapFile openInodes).flat =
      ⟨sectors, freeMap, freeMapFile, openInodes, openInodes.length, none, [], false⟩ := by
  simp only [coldFs, Fs.flat, BufferCache.view_init]

theorem inodeOk_empty (v : Disk) (b : Bitmap) {d : InodeDisk} (null : ∀ j, d.entries j = 0)
    (length : d.length = 0) : InodeOk v b d 0 := by
  have none : inodeNodes v d = [] := by
    rw [inodeNodes_direct v d (null 123) (null 124), List.filter_eq_nil_iff]
    intro x member
    obtain ⟨j, -, rfl⟩ := List.mem_map.mp member
    simp only [null, ne_eq, not_true, decide_false, Bool.false_eq_true, not_false_eq_true]
  have block : ∀ i, blockAt v d i = 0 := by
    intro i
    by_cases direct : i < 123
    · rw [blockAt_direct v d direct, null]
    · exact blockAt_null v d (null 123) (null 124) (by omega)
  refine ⟨⟨by rw [length]; rfl, by simp, fun i below => by omega, by rw [none]; exact List.nodup_nil,
    fun x member => ?_⟩, fun i _ _ present => (present (block i)).elim, fun p _ below => by omega⟩
  rw [none] at member
  cases member

theorem diskInode_entries (length : Int) (isDir : Bool) (j : Nat) : (diskInode length isDir).entries j = 0 := by
  simp [InodeDisk.entries, InodeDisk.direct, diskInode, InodeDisk.empty]

theorem inode_growable_one : WritesAllOrNothing
    (coldFs (fun _ => zeros) ⟨8, fun _ => 7⟩ none [⟨0, 2, 1, false, 0, diskInode 0 false⟩]) 2
    (fun _ => 1) 1 600
    (inodeWriteAt (coldFs (fun _ => zeros) ⟨8, fun _ => 7⟩ none [⟨0, 2, 1, false, 0, diskInode 0 false⟩])
      2 (fun _ => 1) 1 600) := by
  have good := inodeOk_empty (fun _ => zeros) ⟨8, fun _ => 7⟩ (diskInode_entries 0 false) rfl
  have none : inodeNodes (fun _ => zeros) (diskInode 0 false) = [] := by
    rw [inodeNodes_direct _ _ (diskInode_entries 0 false _) (diskInode_entries 0 false _)]
    decide
  refine (inode_growable _ 2 0 ⟨?_, by unfold Used; decide, rfl, ?_⟩).2 (fun _ => 1) 1 600 (by decide) (by decide)
    (Or.inr ⟨?_, fun f opened => by cases opened⟩)
  · rw [coldFs_flat]
    exact ⟨by decide, by unfold Used; decide, fun f opened => by cases opened⟩
  · rw [coldFs_flat]
    exact good
  · rw [coldFs_flat]
    change Own _ (2 :: inodeNodes (fun _ => zeros) (diskInode 0 false))
    rw [none]
    exact ⟨by decide, fun x member => by rw [List.mem_singleton.mp member]; unfold Used; decide,
      fun x _ => by rw [freeMapNodes_closed rfl]; simp⟩

/-- The free map's inode on a disk of four sectors: eight bytes in sector 2. -/
def fourSectorInode : InodeDisk :=
  { diskInode 8 false with directBlocks := fun i => if i.val = 0 then 2 else 0 }

def fourSectorDisk (x : BlockSector) : Sector :=
  if x = 0 then fourSectorInode.encode else if x = 2 then fun i => if i.val = 0 then 7 else 0 else zeros

def fourSectorFs : Fs BufferCache :=
  coldFs fourSectorDisk ⟨4, fun _ => 7⟩ (some ⟨0, 0, false⟩) [⟨0, 0, 1, false, 0, fourSectorInode⟩]

theorem fourSectorInode_entries (j : Nat) : fourSectorInode.entries j = if j = 0 then 2 else 0 := by
  unfold InodeDisk.entries InodeDisk.direct fourSectorInode
  by_cases direct : j < 123
  · simp [direct]
  · simp [direct, diskInode, InodeDisk.empty, show j ≠ 0 by omega]

theorem fourSectorInode_blockAt (v : Disk) {i : Nat} (present : blockAt v fourSectorInode i ≠ 0) :
    i = 0 ∧ blockAt v fourSectorInode i = 2 := by
  by_cases direct : i < 123
  · rw [blockAt_direct v _ direct, fourSectorInode_entries] at present ⊢
    by_cases first : i = 0
    · exact ⟨first, if_pos first⟩
    · exact absurd (if_neg first) present
  · exact absurd (blockAt_null v _ (by rw [fourSectorInode_entries]; rfl)
      (by rw [fourSectorInode_entries]; rfl) (by omega)) present

theorem fourSectorInode_nodes (v : Disk) : inodeNodes v fourSectorInode = [2] := by
  rw [inodeNodes_direct v _ (by rw [fourSectorInode_entries]; rfl) (by rw [fourSectorInode_entries]; rfl)]
  decide +kernel

theorem fourSectorFs_ok : FileOk fourSectorFs 0 8 := by
  have good : InodeOk fourSectorDisk ⟨4, fun _ => 7⟩ fourSectorInode 8 := by
    refine ⟨⟨rfl, by decide, fun i below => ?_, ?_, fun x member => ?_⟩, fun i _ beyond present => ?_,
      fun p beyond below => ?_⟩
    · rw [show i = 0 by omega, blockAt_direct _ _ (by decide), fourSectorInode_entries]
      decide
    · rw [fourSectorInode_nodes]
      decide
    · rw [fourSectorInode_nodes] at member
      rw [List.mem_singleton.mp member]
      unfold Used
      decide
    · have := (fourSectorInode_blockAt _ present).1
      omega
    · rw [byteAt, show p / 512 = 0 by omega, blockAt_direct _ _ (by decide), fourSectorInode_entries,
        if_pos rfl, sectorByte_lt _ (Nat.mod_lt _ (by decide))]
      exact if_neg (show p % 512 ≠ 0 by omega)
  refine ⟨?_, by unfold Used; decide, rfl, ?_⟩
  · rw [fourSectorFs, coldFs_flat]
    refine ⟨by simp, by unfold Used; decide, fun f opened => ?_⟩
    obtain rfl := Option.some.inj opened
    exact ⟨rfl, rfl, good.toLayout⟩
  · rw [fourSectorFs, coldFs_flat]
    exact good

def fiveHundredInode : InodeDisk :=
  { diskInode 513 false with
    directBlocks := fun i => if i.val = 0 then 2 else if i.val = 1 then 3 else 0 }

theorem fiveHundredInode_layout (v : Disk) :
    Mapped v fiveHundredInode 513 ∧ (inodeNodes v fiveHundredInode).Nodup ∧ blockAt v fiveHundredInode 0 = 2 := by
  refine ⟨fun i below => ?_, ?_, by rw [blockAt_direct v _ (by decide)]; rfl⟩
  · rw [blockAt_direct v _ (by omega)]
    have few : i = 0 ∨ i = 1 := by omega
    rcases few with rfl | rfl <;> decide
  · rw [inodeNodes_direct v _ rfl rfl]
    decide +kernel

theorem fourSectorFs_synced : Synced fourSectorFs.flat := by
  intro f opened k inside
  obtain rfl := Option.some.inj opened
  rw [fourSectorFs, coldFs_flat] at inside ⊢
  have small : k < 4 := inside
  change (byteAt fourSectorDisk fourSectorInode (k / 8)).getLsbD (k % 8) = bitmapTest ⟨4, fun _ => 7⟩ k
  rw [byteAt, show k / 8 = 0 by omega, blockAt_direct _ _ (by decide), fourSectorInode_entries, if_pos rfl]
  have bits : ∀ k < 4, (sectorByte (fourSectorDisk 2) 0).getLsbD (k % 8) = bitmapTest ⟨4, fun _ => 7⟩ k := by
    decide
  exact bits k small

theorem fourSector_reserve {allocate : FlatFs → Option BlockSector × FlatFs} {s t : FlatFs}
    (run : allocate s = (some 3, t)) :
    inodeReserve allocate s fourSectorInode 513 =
      ⟨true, { fiveHundredInode with length := 8 }, t.bufferCacheWrite 3 zeros⟩ := by
  have first : reserveSector allocate s (fourSectorInode.direct 0) = ⟨true, 2, s⟩ := if_neg (by decide)
  have second : reserveSector allocate s ((fourSectorInode.setDirect 0 2).direct 1) =
      ⟨true, 3, t.bufferCacheWrite 3 zeros⟩ := by
    rw [show (fourSectorInode.setDirect 0 2).direct 1 = 0 from rfl, reserveSector, if_pos rfl, run]
  have value : (fourSectorInode.setDirect 0 2).setDirect 1 3 = { fiveHundredInode with length := 8 } := by
    apply InodeDisk.ext
    · funext i
      change (if i.val = 1 then 3 else if i.val = 0 then 2 else if i.val = 0 then 2 else 0) =
        if i.val = 0 then 2 else if i.val = 1 then 3 else 0
      split <;> split <;> first | rfl | omega
    all_goals rfl
  have size : bytesToSectors 513 = 2 := by decide
  unfold inodeReserve
  rw [if_neg (by decide), size]
  simp only [show min 2 123 = 1 + 1 from rfl, reserveDirect, first, second, if_true, value]
  rfl

/-- Growing the free-map file writes the new free map into it on the way. -/
theorem freeMap_file_not_growable : FileOk fourSectorFs 0 8 ∧
    ¬WritesAllOrNothing fourSectorFs 0 (fun _ => 1) 1 512
      (inodeWriteAt fourSectorFs 0 (fun _ => 1) 1 512) := by
  refine ⟨fourSectorFs_ok, fun growable => ?_⟩
  have fine := fourSectorFs_ok.fine
  have free : freeSectors fourSectorFs.flat.freeMap = [3] := by decide +kernel
  obtain ⟨t, run, took, -, opened⟩ := (allocates_of_depth 4 _ fine).2 3 [] free
  have listed : (t.findInode 0).isSome := by
    unfold Fs.findInode
    rw [opened]
    rfl
  have data : t.inodeData 0 = fourSectorInode := Fs.inodeData_of_listed (s := fourSectorFs.flat) rfl opened
  set u := ((t.bufferCacheWrite 3 zeros).setInodeData 0 fiveHundredInode).bufferCacheWrite 0
    fiveHundredInode.encode with next
  have memory : u.inodeData 0 = fiveHundredInode := by
    refine Eq.trans ?_ (Fs.inodeData_setInodeData (s := t.bufferCacheWrite 3 zeros) listed fiveHundredInode)
    exact Fs.inodeData_of_listed ((Fs.listed_setInodeData t 0 0 _).trans listed) rfl
  obtain ⟨mapped, nodup, zeroth⟩ := fiveHundredInode_layout u.cache
  obtain ⟨w, loop, wrote⟩ := inodeWriteLoop_spec
    (show Settled u 0 from Or.inl ((Fs.listed_setInodeData t 0 0 _).trans listed)) (show u.inodeLength 0 = (513 : Nat) by rw [Fs.inodeLength, memory]; rfl)
    (by decide) (by rw [memory]; exact mapped) (by rw [memory]; exact nodup) (fun _ => 1) 1 512 0 (by decide)
  have result : inodeWriteAt fourSectorFs.flat 0 (fun _ => 1) 1 512 = (1, { u with cache := w }) := by
    refine Eq.trans ?_ loop
    change inodeWriteWith (freeMapAllocateWith (inodeWriteDepth (4 + 1)) 1) fourSectorFs.flat 0
      (fun _ => 1) (1 : Nat) (512 : Nat) = _
    unfold inodeWriteWith
    rw [if_neg (by decide), byteToSector_outside (by decide)]
    have start : fourSectorFs.flat.inodeData 0 = fourSectorInode := rfl
    have size : offsetOf ((512 : Nat) + (1 : Nat)) = 513 := by decide
    simp only [if_true, start, size, fourSector_reserve run]
    rfl
  have flat : WritesAllOrNothing fourSectorFs.flat 0 (fun _ => 1) 1 512
      (inodeWriteAt fourSectorFs.flat 0 (fun _ => 1) 1 512) := by
    have write := inodeWriteAt_flat fourSectorFs 0 (fun _ => 1) 1 512
    rw [← write]
    exact growable
  rw [result] at flat
  obtain ⟨-, -, bytes⟩ | ⟨fails, -⟩ := flat
  · have synced := took.synced fourSectorFs_synced ⟨0, 0, false⟩ took.freeMapFile 3
      (by rw [took.size]; decide)
    rw [data, byteAt, blockAt_direct _ _ (by decide), fourSectorInode_entries] at synced
    have old : contents fourSectorFs.flat 0 = content fourSectorFs.flat.cache fourSectorInode 0 8 :=
      contents_eq rfl rfl
    have before : (contents fourSectorFs.flat 0)[0]? = some 7 := by
      rw [old, getElem?_content, if_pos (by decide)]
      rw [byteAt, blockAt_direct _ _ (by decide), fourSectorInode_entries]
      rfl
    have after : (contents ({ u with cache := w } : FlatFs) 0)[0]? = some (sectorByte (t.cache 2) 0) := by
      have still : ({ u with cache := w } : FlatFs).inodeData 0 = fiveHundredInode :=
        Eq.trans (Fs.inodeData_of_listed (s := u) ((Fs.listed_setInodeData t 0 0 _).trans listed) rfl) memory
      have next : contents ({ u with cache := w } : FlatFs) 0 = content w fiveHundredInode 0 513 :=
        contents_eq still rfl
      rw [next, getElem?_content, if_pos (by decide), Nat.zero_add]
      rw [memory] at wrote
      rw [wrote.bytes 0 (by decide), if_neg (by decide), byteAt, zeroth]
      rfl
    have length : (contents fourSectorFs.flat 0).length = 8 := by
      rw [old]
      simp [content]
    rw [bytes, getElem?_overwrite, if_neg (by omega), if_pos (by omega), before] at after
    have taken : bitmapTest t.freeMap 3 = true := (took.new_used (List.mem_singleton_self 3)).2
    change (sectorByte (t.cache 2) 0).getLsbD 3 = _ at synced
    rw [← Option.some.inj after, taken] at synced
    simp at synced
  · cases fails

end ShellOs.FileSystem
