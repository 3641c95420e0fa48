import ShellOs.FileSystem.Accounting
import ShellOs.FileSystem.SameFiles

/-! Where `defragment` puts the files of a disk from which no sector has been lost, and what it leaves where one has. -/

namespace ShellOs.FileSystem
open Lib BlockTree SlotMap

section scan

variable {s t v : FlatFs} {n : Nat} {x : BlockSector}

theorem Rehandled.dataBlocks (again : Rehandled s t) (file : FileAt s x) :
    FileSystem.dataBlocks t x = FileSystem.dataBlocks s x := by
  rcases again.data x with same | disk
  · exact dataBlocks_congr again.cache same
  · have length : fileLen t x = fileLen s x := by
      rw [fileLen, fileLen, Fs.inodeLength, Fs.inodeLength, disk, ← file.extended.length]
    rw [FileSystem.dataBlocks, FileSystem.dataBlocks, length, again.cache, disk]
    apply List.map_congr_left
    intro i below
    have inside := List.mem_range.mp below
    exact file.extended.blockAt_same _ (blockAt_entry (file.mapped i (by omega)))

theorem Ascends.rehandled (ascends : Ascends s x) (again : Rehandled s t) (file : FileAt s x) : Ascends t x := by
  rw [Ascends, again.dataBlocks file]
  exact ascends

/-- In a root directory whose files all ascend, a scan counts none of them as fragmented. -/
theorem fragmentationScan_ascends (vol : Volume v n) (named : ∀ name ∈ keys (rootSlots v), FileName name)
    (ascends : ∀ y ∈ rootFiles v, Ascends v y) {dir : Dir} (current : v.cwd.isSome) (start : Before v dir 0)
    {calls : Nat} (enough : (bindings (rootSlots v)).length < calls) (counts : Nat × Nat) :
    (whileReaddir fragmentationStep calls counts v dir).1.2 = counts.2 := by
  have unseen : (([] : List BlockSector) ++ (bindings ((rootSlots v).drop 0)).map Prod.snd).Nodup :=
    (List.nodup_cons.mp vol.owners).2
  have itself : Peeked v v n [] := (RootClosed.refl vol.mounted.handle).peeked vol rfl
  have scanned := (whileReaddir_peeked (fragmentationStep_peeks vol named) itself unseen current start (Nat.zero_le _)
    enough counts).1
  have none : (bindings (rootSlots v)).countP (fun b => TalliedFragmented v b.2) = 0 := by
    rw [List.countP_eq_zero]
    intro b member
    have listed := List.mem_map_of_mem (f := Prod.snd) member
    rw [decide_eq_true_eq, vol.talliedFragmented_iff listed]
    exact (ascends b.2 listed).keeps
  rw [scanned, List.drop_zero, tally_foldl, none, Nat.add_zero]

/-- What lies in the buffer is opened first, so it may be the path of a file; "." and ".." would be the directory. -/
theorem fragmentationDegree_ascends (vol : Volume s n) (named : ∀ name ∈ keys (rootSlots s), FileName name)
    (ascends : ∀ y ∈ rootFiles s, Ascends s y) (shut : Shut s) {fileName : CString}
    (buffer : fileName = [] ∨ Plain (splitPathFilename fileName).2) : (fragmentationDegree s fileName).1.2 = 0 := by
  have opened := dirOpenRoot_spec vol.mounted.handle
  have first := (opened.only vol.mounted.dir.fine).peeked vol (congrArg Fs.usedFreed opened.rest :)
  have started := shut.before
  have counted : ∀ counts v A, fragmentationStep (0, 0) (dirOpenRoot s).2 fileName = (counts, v) →
      Peeked (dirOpenRoot s).2 v n A → v.cwd = (dirOpenRoot s).2.cwd → (fragmentationDegree s fileName).1.2 = counts.2 := by
    intro counts v A step peeked cwd
    have both := first.trans peeked
    have files : rootFiles v = rootFiles s := by rw [rootFiles, both.slots, rootFiles]
    have start : Before v (dirOpenRoot s).1 0 := by
      rw [Before, dirAt, cwd]
      exact started
    have enough := both.volume.mounted.dir.readdirCalls opened.dir.1 0
    rw [List.drop_zero] at enough
    have current : v.cwd.isSome := by
      rw [cwd, opened.cwd]
      rfl
    simp only [fragmentationDegree, step]
    refine fragmentationScan_ascends both.volume (by rw [both.slots]; exact named) (fun y listed => ?_) current start
      enough counts
    rw [files] at listed
    exact (ascends y listed).rehandled both.rehandled (vol.file y listed).1
  by_cases present : (splitPathFilename fileName).2 ∈ keys (rootSlots s)
  · obtain ⟨x, bound⟩ := mem_keys.mp present
    have listed : x ∈ rootFiles s := mem_rootFiles.mpr ⟨_, bound⟩
    have plain := (named _ present).plain
    rw [(named _ present).split] at plain
    obtain ⟨o, shortly⟩ := first.volume.opensShortly plain (by rw [first.slots]; exact bound)
    obtain ⟨cache, data⟩ := shortly.data first (vol.ne_root listed) List.not_mem_nil
    have step := fragmentationStep_opened (0, 0) shortly cache data shortly.kept.1
    have none : ¬TalliedFragmented s x := by
      rw [vol.talliedFragmented_iff listed]
      exact (ascends x listed).keeps
    rw [counted _ _ _ step shortly.peeked shortly.cwd]
    simp only [tally, if_neg none]
  · have unnamed : Unnamed (dirOpenRoot s).2 fileName := by
      rw [Unnamed, first.slots]
      exact buffer.imp_right fun plain => ⟨plain, present⟩
    obtain ⟨v, run, only, freed, cwd, -⟩ := filesysOpen_unnamed first.volume unnamed
    have step : fragmentationStep (0, 0) (dirOpenRoot s).2 fileName = ((0, 0), v) := by
      simp only [fragmentationStep, run]
    exact counted _ v _ step (only.peeked first.volume freed) cwd

end scan

section session

variable {cache : BufferCache} {size : BlockSector} {s : Fs BufferCache}

/-- The sectors that `get_inode_data_sectors` gives for a file go up in steps of at most 3. -/
def SectorsAscend (s : Fs BufferCache) (x : BlockSector) : Prop :=
  ∀ pair ∈ neighbours (getInodeDataSectors s x).1, pair.1.toNat < pair.2.toNat ∧ pair.2.toNat ≤ pair.1.toNat + 3

theorem sectorsAscend_iff (s : Fs BufferCache) {x : BlockSector} (file : FileAt s.flat x) :
    SectorsAscend s x ↔ Ascends s.flat x := by
  have sectors := congrArg Prod.fst (getInodeDataSectors_flat s x)
  rw [flatten_fst, file.dataSectors] at sectors
  rw [SectorsAscend, sectors, Ascends]

/-- After a session that loses no sector, `defragment` puts the blocks of every file one after another with at most two
index blocks between them. -/
theorem session_defragments (went : formats cache size = true) (run : CleanSession cache size s)
    (short : ∀ name ∈ keys (rootSlots s.flat), name.length < NAME_MAX ∧ name ≠ dot ∧ name ≠ dotDot)
    (stale : Nat → CString) : let t := (defragment s stale).2
      (defragment s stale).1 = 0 → (∀ x ∈ rootFiles t.flat, SectorsAscend t x) ∧
        ∀ fileName, fileName = [] ∨ Plain (splitPathFilename fileName).2 → (fragmentationDegree t fileName).1.2 = 0 := by
  have fresh : Fresh size (filesysInit cache size true).flat := by
    rw [filesysInit_flat]
    exact filesysInit_fresh (by rw [formats_flat]; exact went)
  have all := run.accounted went
  obtain ⟨n, vol⟩ := all.volume
  have can := all.defragmentable vol fun name present => (short name present).2
  obtain ⟨u, run, made⟩ := can.defragment_short stale (Or.inl fun name present => (short name present).1)
  have flat := defragment_flat s stale
  rw [run] at flat
  have state : (defragment s stale).2.flat = u := congrArg Prod.snd flat
  rw [← state] at made
  intro t _
  have gapless : Consecutive (available s.flat) := by
    rw [all.available]
    exact fresh.consecutive
  have ascends := made.ascends gapless
  obtain ⟨m, volume⟩ := made.volume
  refine ⟨fun x listed => (sectorsAscend_iff t (volume.file x listed).1).mpr (ascends x listed), fun fileName buffer => ?_⟩
  have counts := congrArg Prod.fst (fragmentationDegree_flat t fileName)
  rw [flatten_fst] at counts
  rw [counts]
  refine fragmentationDegree_ascends volume (fun name present => ?_) ascends made.shut buffer
  rw [made.names] at present
  exact can.named name present

theorem session_defragments_create : let s := FileOp.step (formatted 80) (.create [97] 1024)
    (defragment s fun _ => []).1 = 0 ∧ ∀ x ∈ rootFiles (defragment s fun _ => []).2.flat,
      SectorsAscend (defragment s fun _ => []).2 x := by
  have general : ∀ s : Fs BufferCache, Fresh 80 s.flat → (filesysCreate s [97] 1024 false).1 = true →
      let t := FileOp.step s (.create [97] 1024)
      (defragment t fun _ => []).1 = 0 ∧ keys (rootSlots t.flat) = [[97]] := by
    intro s fresh made
    obtain ⟨n, x, just⟩ := @Fresh.createsA _ fresh 1024 (by rw [← filesysCreate_flat]; exact made)
    rw [← filesysCreate_flat, flatten_snd] at just
    obtain ⟨u, run, -⟩ := just.atRest.defragmentable.defragment_short (fun _ => []) (Or.inr fun _ => rfl)
    have same := congrArg Prod.fst (defragment_flat (FileOp.step s (.create [97] 1024)) fun _ => [])
    refine ⟨same.trans (congrArg Prod.fst run), ?_⟩
    rw [keys, show rootSlots (FileOp.step s (.create [97] 1024)).flat = _ from rfl, FileOp.step, just.slots]
    rfl
  obtain ⟨done, names⟩ := general _ (formatted_fresh (by decide +kernel)) (formatted_makesA (by decide) (by decide))
  refine ⟨done, (session_defragments (formats_blank (show FormatFits 80 by decide +kernel))
    (formatted_createsA (by decide) (by decide)) (fun name present => ?_) (fun _ => []) done).1⟩
  rw [names, List.mem_singleton] at present
  rw [present]
  decide

end session

section truncation

variable {s : FlatFs} {x : BlockSector}

theorem FileAt.blank_blocks (file : FileAt s x) (blank : contents s x = List.replicate (fileLen s x) 0) {i : Nat}
    (bound : i < MAX_SECTORS) (present : blockAt s.cache (s.inodeData x) i ≠ 0) :
    s.cache (blockAt s.cache (s.inodeData x) i) = zeros := by
  by_cases inside : fileLen s x ≤ i * 512
  · exact file.good.blank i bound inside present
  · have byte : ∀ p, p / 512 = i → byteAt s.cache (s.inodeData x) p = 0 := by
      intro p place
      by_cases below : p < fileLen s x
      · rw [file.contents_content] at blank
        have cell := congrArg (fun bytes => bytes[p]?) blank
        simp only [getElem?_content, if_pos below, List.getElem?_replicate, Nat.zero_add, Option.some.injEq] at cell
        exact cell
      · exact file.good.tail p (by omega) (by omega)
    funext j
    have here := byte (i * 512 + j) (by have := j.isLt; simp only [BLOCK_SECTOR_SIZE] at this; omega)
    have offset : (i * 512 + j) % 512 = j := by
      have := j.isLt
      simp only [BLOCK_SECTOR_SIZE] at this
      omega
    have block : (i * 512 + j) / 512 = i := by
      have := j.isLt
      simp only [BLOCK_SECTOR_SIZE] at this
      omega
    rw [byteAt, offset, block, sectorByte, dif_pos j.isLt] at here
    exact here

/-- A write of nothing at the start of a file: no byte lies in front of it, so that the file is given the length 0. Its
sectors stay in the inode. -/
theorem inodeWriteAt_truncates (writable : s.inodeDenyWriteCnt x = 0)
    (buffer : Nat → Byte) : let e := { s.inodeData x with length := 0 }
      inodeWriteAt s x buffer (0 : Nat) (0 : Nat) = (0, (s.setInodeData x e).bufferCacheWrite x e.encode) := by
  intro e
  have run : inodeWriteAt s x buffer (0 : Nat) (0 : Nat) = inodeWriteWith
      (freeMapAllocateWith (inodeWriteDepth (s.freeMap.bitCnt + 1)) 1) s x buffer (0 : Nat) (0 : Nat) := rfl
  have last : byteToSector s x (offsetOf (((0 : Nat) : Int) + (0 : Nat) - 1)) = (NO_SECTOR, s) :=
    byteToSector_outside fun inside => absurd inside.1 (by decide)
  have reserved : inodeReserve (freeMapAllocateWith (inodeWriteDepth (s.freeMap.bitCnt + 1)) 1) s (s.inodeData x)
      (offsetOf (((0 : Nat) : Int) + (0 : Nat))) = ⟨true, s.inodeData x, s⟩ := rfl
  rw [run, inodeWriteWith, if_neg (not_not.mpr writable), last, if_pos rfl]
  simp only
  rw [reserved, if_neg (by simp), inodeWriteLoop_nothing]
  rfl

theorem FileAt.truncated (fine : FreeMapOk s) (file : FileAt s x)
    (foreign : ∀ f, s.freeMapFile = some f → f.inode ≠ x) (blank : contents s x = List.replicate (fileLen s x) 0) :
    let e := { s.inodeData x with length := 0 }
    let t := (s.setInodeData x e).bufferCacheWrite x e.encode
    Volume.Alters s t x [] ∧ fileLen t x = 0 ∧ sectorsOf t x = sectorsOf s x ∧ t.freeMap = s.freeMap := by
  intro e t
  have grown : Grown (Within 128 inodeShape) (fun _ => False) s (inodeAt s.cache (s.inodeData x)) s
      (inodeAt s.cache (s.inodeData x)) true [] [] [] := Grown.refl fine fun _ never => never.elim
  have disk : ∀ z ∈ inodeNodes s.cache (s.inodeData x), Function.update s.cache x e.encode z = s.cache z :=
    fun z node => Function.update_of_ne (fun same : z = x => file.apart (same ▸ node)) _ _
  obtain ⟨nodes, -, blocks⟩ := inode_congr (d := s.inodeData x) (e := e) (fun _ _ => rfl) fun z index =>
    disk z (inodeInner_sub index)
  have good : InodeOk (Function.update s.cache x e.encode) s.freeMap e 0 := by
    refine ⟨⟨rfl, Nat.zero_le _, fun i below => absurd below (Nat.not_lt_zero _), ?_, ?_⟩, fun i bound _ present => ?_,
      fun p _ below => absurd below (Nat.not_lt_zero _)⟩
    · rw [nodes]
      exact file.good.nodup
    · rw [nodes]
      exact file.good.used
    · rw [blocks i bound] at present ⊢
      rw [disk _ (blockAt_mem bound present)]
      exact file.blank_blocks blank bound present
  have data : t.inodeData x = e := inodeData_written s x e
  obtain ⟨took, next, sectors, -⟩ := file.lengthened (o := 0) (n := 0) fine foreign grown (Extends.refl _) (e := e) rfl
    good (Nat.le_refl 0) (Wrote.refl _ _ _ _ fun _ => 0) data
  refine ⟨⟨took, SameHandles.set rfl, by rw [data], next, sectors⟩, ?_, ?_, rfl⟩
  · rw [fileLen, Fs.inodeLength, data]
    rfl
  · rw [sectorsOf, data, sectorsOf]
    exact congrArg (x :: ·) nodes

end truncation

namespace FileOp

/-- Calls in a row that are all made on regular files and do not fail. -/
def AllSucceed {σ : Type} [Store σ BlockSector Sector] [LawfulStore σ] (s : Fs σ) : List FileOp → Prop
  | [] => True
  | op :: rest => (op.Regular ∧ op.Succeeds s) ∧ AllSucceed (op.step s) rest

variable {σ : Type} [Store σ BlockSector Sector] [LawfulStore σ]

theorem allSucceed_flat (s : Fs σ) (ops : List FileOp) : AllSucceed s.flat ops ↔ AllSucceed s ops := by
  induction ops generalizing s with
  | nil => exact Iff.rfl
  | cons op rest ih => rw [AllSucceed, AllSucceed, succeeds_flat, ← step_flat, ih]

theorem foldl_flat (s : Fs σ) (ops : List FileOp) : (ops.foldl step s).flat = ops.foldl step s.flat := by
  induction ops generalizing s with
  | nil => rfl
  | cons op rest ih => rw [List.foldl_cons, ih, step_flat, List.foldl_cons]

theorem AllSucceed.run {s t : Fs σ} {ops : List FileOp} (all : AllSucceed t ops)
    (before : Run (fun s op => op.Regular ∧ op.Succeeds s) step s t) :
    Run (fun s op => op.Regular ∧ op.Succeeds s) step s (ops.foldl step t) := by
  induction ops generalizing t with
  | nil => exact before
  | cons op rest ih => exact ih all.2 (before.next op all.1)

end FileOp

section track

variable {s t : FlatFs} {n k : Nat} {x y : BlockSector} {name : CString} {files : List (CString × BlockSector)}
  {free front rest : List Nat}

theorem freeSectors_toNat {b : Bitmap} (small : b.bitCnt < 2 ^ 32) : (freeSectors b).map BitVec.toNat = freeBits b := by
  rw [freeSectors, List.map_map]
  refine (List.map_congr_left fun i member => ?_).trans (List.map_id _)
  have below := (mem_freeBits.mp member).1
  rw [Function.comp, BitVec.toNat_ofNat, Nat.mod_eq_of_lt (by omega)]
  rfl

/-- A closed root directory with these files, and the numbers of the free sectors. -/
structure Holding (s : FlatFs) (files : List (CString × BlockSector)) (free : List Nat) : Prop where
  volume : ∃ n, Volume s n
  shut : Shut s
  fileTable : s.fileTable = []
  slots : (rootSlots s).length = 999
  files : (bindings (rootSlots s)).Perm files
  bits : s.freeMap.bitCnt = 99
  free : freeBits s.freeMap = free

theorem Holding.swap {b c : CString × BlockSector} (holding : Holding s (b :: c :: files) free) :
    Holding s (c :: b :: files) free :=
  { holding with files := holding.files.trans (List.Perm.swap c b files) }

theorem Holding.listed (holding : Holding s files free) : x ∈ rootFiles s ↔ x ∈ files.map Prod.snd := by
  rw [rootFiles, (holding.files.map Prod.snd).mem_iff]

theorem Holding.room (holding : Holding s files free) (few : files.length < 999) :
    freeSlot (rootSlots s) < (rootSlots s).length := by
  by_contra full
  have count := holding.files.length_eq
  have all : (bindings (rootSlots s)).length = (rootSlots s).length := by
    rw [bindings, List.length_filterMap_eq_countP, List.countP_eq_length]
    intro slot member
    obtain ⟨i, here⟩ := List.mem_iff_getElem?.mp member
    have inside := (List.getElem?_eq_some_iff.mp here).1
    obtain ⟨e, found⟩ := before_freeSlot (show i < freeSlot (rootSlots s) by omega)
    rw [here, Option.some.injEq] at found
    rw [found]
    rfl
  rw [count, holding.slots] at all
  omega

theorem Holding.creates (holding : Holding s files (front ++ rest)) {size : Int} (nat : size = k) (named : FileName name)
    (absent : name ∉ files.map Prod.fst) (few : files.length < 999) (fits : k ≤ MAX_LENGTH)
    (count : sectorsNeeded k = front.length) : let op := FileOp.create name size
      op.Succeeds s ∧ ∃ x, Holding (op.step s) ((name, x) :: files) rest ∧
        (laidOut (op.step s) x).map BitVec.toNat = front ∧ NewFile s (op.step s) name size x ∧
        ∀ y ∈ rootFiles s, Volume.Untouched s (op.step s) y := by
  subst nat
  obtain ⟨n, vol⟩ := holding.volume
  have room := holding.room few
  have missing : name ∉ keys (rootSlots s) := by
    rw [keys, (holding.files.map Prod.fst).mem_iff]
    exact absent
  have small := vol.mounted.dir.fine.small
  have numbers := freeSectors_toNat small
  rw [holding.free] at numbers
  have length : (List.replicate k (0 : Byte)).length = k := List.length_replicate
  have fitting : offsetOf (k : Int) = k := by
    simp only [MAX_LENGTH] at fits
    exact offsetOf_eq (by omega) (by omega)
  have enough : sectorsNeeded k ≤ (freeSectors s.freeMap).length := by
    have := congrArg List.length numbers
    rw [List.length_map, List.length_append] at this
    omega
  obtain ⟨t, x, run, volume, file, split, shut, table, others⟩ := vol.creates_order named.madeAs missing room
    (show (List.replicate k (0 : Byte)).length ≤ MAX_LENGTH by rw [length]; exact fits) (by rw [length]; exact enough)
  rw [length] at run file
  have create : fsutilCreate s name k = filesysCreate s name k false := by
    obtain ⟨-, -, nonempty, short⟩ := named.madeAs
    rw [fsutilCreate, if_neg (by omega), fitting]
  rw [create] at run
  have state : FileOp.step s (.create name k) = t := congrArg Prod.snd run
  obtain ⟨new, creation⟩ := filesysCreate_effect vol.mounted name k
  have bits := creation.change.size
  rw [run] at bits
  have cut := congrArg (List.map BitVec.toNat) split
  have laid := length_laidOut file.file (file.length.trans fitting)
  rw [numbers, List.map_append, freeSectors_toNat (by rw [bits]; exact small)] at cut
  obtain ⟨first, later⟩ := List.append_inj cut (by rw [List.length_map, laid, count])
  intro op
  rw [show op.step s = t from state]
  have perm := put_perm (rootSlots s) (name, x)
  rw [← file.slots] at perm
  have slots : (rootSlots t).length = 999 := by
    rw [file.slots, put, if_pos room, List.length_set, holding.slots]
  exact ⟨⟨congrArg Prod.fst run, room⟩, x, ⟨volume, shut holding.shut, table.trans holding.fileTable, slots,
    perm.trans (holding.files.cons _), bits.trans holding.bits, later.symm⟩, first.symm, file, fun y mine => (others y mine).1⟩

/-- An empty file gives back the sector of its inode. -/
theorem Holding.removes (holding : Holding s ((name, x) :: files) rest) (named : FileName name) (empty : fileLen s x = 0)
    (free : List Nat) (order : free = (List.range 99).filter fun i => decide (i ∈ free))
    (more : ∀ i, i ∈ free ↔ i = x.toNat ∨ i ∈ rest) :
    let t := FileOp.step s (.remove name)
    FileOp.Succeeds s (.remove name) ∧ Holding t files free ∧ ∀ y ∈ rootFiles s, y ≠ x → Volume.Untouched s t y := by
  obtain ⟨n, vol⟩ := holding.volume
  have small := vol.mounted.dir.fine.small
  have member : (name, x) ∈ bindings (rootSlots s) := holding.files.symm.subset List.mem_cons_self
  have bound := mem_bindings.mp member
  have listed : x ∈ rootFiles s := mem_rootFiles.mpr ⟨name, bound⟩
  have file := (vol.file x listed).1
  have dots : OnlyDots (splitPathFilename name).1 := by
    rw [named.split]
    exact (fun token inside => by cases inside)
  obtain ⟨j, y, slot, removed, unlinked⟩ := filesysRemove_effect vol.mounted dots
    (mem_keys.mpr ⟨x, named.listed bound⟩) fun y here => vol.removable (mem_rootFiles.mpr ⟨_, here⟩)
  obtain rfl := vol.bound (named.listed bound) (List.mem_of_getElem? slot)
  obtain ⟨volume, perm, others⟩ := vol.removes slot unlinked
  have shut := filesysRemove_dots_shut vol holding.shut dots (named.listed bound)
  have bits := unlinked.change.size
  have given : givenBack s x = [x] := by
    rw [givenBack, file.length, empty]
    rfl
  have used := unlinked.used
  rw [given] at used
  have name' : (splitPathFilename name).2 = name := by rw [named.split]
  rw [name'] at perm
  refine ⟨removed, ⟨⟨n, volume⟩, shut, unlinked.fileTable.trans holding.fileTable, ?_, ?_, bits.trans holding.bits, ?_⟩,
    others⟩
  · rw [FileOp.step, unlinked.slots, List.length_set, holding.slots]
  · exact (List.perm_cons _).mp (perm.symm.trans holding.files)
  · change freeBits (filesysRemove s name).2.freeMap = free
    rw [freeBits, bits, holding.bits, order]
    apply List.filter_congr
    intro i inside
    have below := List.mem_range.mp inside
    have value : (BitVec.ofNat 32 i).toNat = i := by
      rw [BitVec.toNat_ofNat, Nat.mod_eq_of_lt (by omega)]
    have here : BitVec.ofNat 32 i = x ↔ i = x.toNat := by
      rw [← BitVec.toNat_inj, value]
    have before : i ∈ rest ↔ bitmapTest s.freeMap i = false := by
      rw [← holding.free, mem_freeBits, holding.bits, and_iff_right below]
    have after := used (BitVec.ofNat 32 i)
    rw [Used, Used, value, bits, holding.bits, and_iff_right below, and_iff_right below, List.mem_singleton, here] at after
    rw [Bool.eq_iff_iff, decide_eq_true_eq, more, before, Bool.not_eq_true', ← Bool.not_eq_true, ← Bool.not_eq_true]
    rw [after]
    tauto


theorem Holding.kept (holding : Holding s files free) (volume : Volume t n) (slots : rootSlots t = rootSlots s) (shut : Shut t)
    (table : t.fileTable = s.fileTable) (bits : t.freeMap = s.freeMap) : Holding t files free :=
  ⟨⟨n, volume⟩, shut, table.trans holding.fileTable, by rw [slots, holding.slots], by rw [slots]; exact holding.files,
    by rw [bits, holding.bits], by rw [bits, holding.free]⟩

theorem Holding.opens (holding : Holding s files free) (named : FileName name) (bound : (name, x) ∈ files) :
    let t := FileOp.step s (.openFile name)
    FileOp.Succeeds s (.openFile name) ∧ Holding t files free ∧ (t.findInode x).isSome ∧ Volume.Untouched s t x := by
  obtain ⟨n, vol⟩ := holding.volume
  have here := mem_bindings.mp (holding.files.symm.subset bound)
  obtain ⟨value, opened, -, -⟩ := vol.opensPath named.plain (named.listed here)
  have listed := mem_rootFiles.mpr ⟨_, here⟩
  obtain ⟨volume, slots, others⟩ := vol.opens listed opened
  exact ⟨by rw [FileOp.Succeeds, value]; rfl, holding.kept volume slots (opened.shut holding.shut) opened.fileTable
    opened.rehandled.bits, opened.held, others x listed⟩

theorem Holding.truncates (holding : Holding s files free) (listed : x ∈ rootFiles s) (held : (s.findInode x).isSome)
    (blank : contents s x = List.replicate (fileLen s x) 0) : let op := FileOp.write x (fun _ => 0) 0 0
      op.Succeeds s ∧ Holding (op.step s) files free ∧ ((op.step s).findInode x).isSome ∧ fileLen (op.step s) x = 0 := by
  obtain ⟨n, vol⟩ := holding.volume
  have file := (vol.file x listed).1
  have foreign := vol.foreign (List.mem_cons_of_mem _ listed)
  obtain ⟨i, found⟩ := Option.isSome_iff_exists.mp held
  have writable : s.inodeDenyWriteCnt x = 0 := by
    rw [Fs.inodeDenyWriteCnt, found]
    exact (vol.single x i found file.nonzero (vol.ne_root listed)).2.2.2
  obtain ⟨altered, length, -, bits⟩ := file.truncated vol.mounted.dir.fine foreign blank
  have run := inodeWriteAt_truncates writable fun _ => 0
  have state : FileOp.step s (.write x (fun _ => 0) 0 0) = _ := congrArg Prod.snd run
  intro op
  rw [show op.step s = _ from state]
  obtain ⟨volume, slots, -⟩ := vol.alters listed altered
  refine ⟨congrArg Prod.fst run, holding.kept volume slots ⟨?_, ?_⟩ (congrArg Fs.fileTable altered.took.rest :) bits, ?_, length⟩
  · exact (congrArg Fs.cwd altered.took.rest :).trans holding.shut.1
  · exact (altered.handles.others _ (vol.ne_root listed).symm).trans holding.shut.2
  · exact (altered.handles.listed x).trans held

theorem Holding.closes (holding : Holding s files free) (listed : x ∈ rootFiles s) (held : (s.findInode x).isSome) :
    Holding (FileOp.step s (.close x)) files free ∧ Volume.Untouched s (FileOp.step s (.close x)) x := by
  obtain ⟨n, vol⟩ := holding.volume
  have closed := vol.fileClosed ⟨listed, held⟩
  obtain ⟨volume, slots, others⟩ := vol.closes listed closed
  have rest := closed.rest
  refine ⟨holding.kept volume slots ⟨?_, ?_⟩ (congrArg Fs.fileTable rest :) (congrArg Fs.freeMap rest :), others x listed⟩
  · exact (congrArg Fs.cwd rest :).trans holding.shut.1
  · exact (closed.others _ (vol.ne_root listed).symm).trans holding.shut.2

/-- On a disk without files where the free sectors are not all one after another, a file can be placed so that
`defragment`, which puts it back where it was, leaves the jump. -/
theorem Holding.gap (holding : Holding s [] (front ++ rest)) (named : FileName name) (short : name.length < NAME_MAX)
    (count : sectorsNeeded 1024 = front.length) {i j : Nat} (first : front[1]? = some i) (second : front[2]? = some j)
    (far : i + 3 < j) : let op := FileOp.create name 1024
      op.Succeeds s ∧ keys (rootSlots (op.step s)) = [name] ∧
        (∀ x ∈ rootFiles (op.step s), (op.step s).findInode x = none ∧ fileLen (op.step s) x = 1024) ∧
        ∀ stale, ∃ u, defragment (op.step s) stale = (0, u) ∧ ∃ x ∈ rootFiles u, FileAt u x ∧ ¬Ascends u x := by
  obtain ⟨n, vol⟩ := holding.volume
  have none : rootFiles s = [] := by rw [rootFiles, holding.files.eq_nil, List.map_nil]
  have all := vol.accounted holding.shut holding.fileTable none
  obtain ⟨went, x, next, -, file, -⟩ := holding.creates
    (show (1024 : Int) = (1024 : Nat) from rfl) named List.not_mem_nil (Nat.zero_lt_succ _) (by decide) count
  intro op
  have later := all.step (show op.Regular from named.proper) went trivial
  change Holding (op.step s) _ _ at next
  change NewFile s (op.step s) _ _ _ at file
  generalize op.step s = t at *
  have entries : bindings (rootSlots t) = [(name, x)] := List.perm_singleton.mp next.files
  have names : keys (rootSlots t) = [name] := by
    rw [keys, entries]
    rfl
  have files : rootFiles t = [x] := by
    rw [rootFiles, entries]
    rfl
  have length : t.inodeLength x = (1024 : Nat) := file.length
  have size : fileLen t x = 1024 := by
    rw [fileLen, length]
    rfl
  refine ⟨went, names, fun y listed => ?_, fun stale => ?_⟩
  · rw [files, List.mem_singleton] at listed
    rw [listed]
    exact ⟨file.unlisted, size⟩
  · obtain ⟨m, volT⟩ := later.volume
    have alone : ∀ key ∈ keys (rootSlots t), key = name := by
      rw [names]
      exact fun key member => List.mem_singleton.mp member
    have can := later.defragmentable volT fun key present => by
      rw [alone key present]
      exact ⟨named.single, named.double⟩
    obtain ⟨u, run, made⟩ := can.defragment_short stale (Or.inl fun key present => by rw [alone key present]; exact short)
    obtain ⟨l, volU⟩ := made.volume
    have keysU := made.names
    rw [names, keys] at keysU
    obtain ⟨b, one, -⟩ := List.map_eq_singleton_iff.mp keysU
    have filesU : rootFiles u = [b.2] := by
      rw [rootFiles, one]
      rfl
    have listedU : b.2 ∈ rootFiles u := by
      rw [filesU]
      exact List.mem_singleton_self _
    have fileU := (volU.file b.2 listedU).1
    have bytes := made.bytes
    rw [filesU, files, List.map_singleton, List.map_singleton, List.singleton_inj] at bytes
    have sizeU : fileLen u b.2 = 1024 := by
      rw [← length_contents, bytes, length_terminated, length_contents, size]
    have placed := congrArg (List.map BitVec.toNat) made.placed
    rw [later.available, filesU, List.flatMap_singleton, List.map_append,
      freeSectors_toNat vol.mounted.dir.fine.small, holding.free] at placed
    have laid : front = (laidOut u b.2).map BitVec.toNat := by
      refine (List.append_inj placed ?_).1
      rw [List.length_map, length_laidOut fileU (k := 1024) (by rw [fileU.length, sizeU]), count]
    refine ⟨u, run, b.2, listedU, fileU, fun ascends => ?_⟩
    have two : (dataBlocks u b.2).length = 2 := by rw [length_dataBlocks, sizeU]
    obtain ⟨y, z, pair⟩ := List.length_eq_two.mp two
    have near := (ascends (y, z) (by rw [pair]; exact List.mem_singleton_self _)).2
    have atY := congrArg (Option.map BitVec.toNat) (fileU.laidOut_block (i := 0) (by rw [pair]; rfl))
    have atZ := congrArg (Option.map BitVec.toNat) (fileU.laidOut_block (i := 1) (by rw [pair]; rfl))
    rw [← List.getElem?_map, ← laid] at atY atZ
    have sameY := first.symm.trans atY
    have sameZ := second.symm.trans atZ
    rw [Option.map_some, Option.some.injEq] at sameY sameZ
    dsimp only at near
    omega

end track

section leak

variable {s : FlatFs}

theorem Fresh.holding (fresh : Fresh 100 s) : Holding s [] ([74] ++ ([75, 76, 77, 78, 79] ++ List.range' 80 19)) := by
  have bits : s.freeMap.bitCnt = 99 := fresh.bitCnt
  have free := congrArg (List.map BitVec.toNat) fresh.free
  rw [freeSectors_toNat (by omega)] at free
  refine ⟨⟨_, fresh.volume⟩, fresh.shut, fresh.fileTable, by rw [fresh.slots, List.length_replicate], ?_, bits, ?_⟩
  · rw [fresh.slots, List.perm_nil, bindings, List.filterMap_eq_nil_iff]
    exact fun slot member => List.eq_of_mem_replicate member
  · rw [free]
    decide +kernel

/-- A file is made behind an empty one, its length is set to 0, and it is removed: its blocks are lost. The last file is
made of the two inodes in front of them and the sector behind. -/
def leakRun : List FileOp :=
  [.create [98] 0, .create [97] 2048, .remove [98], .openFile [97], .write 75 (fun _ => 0) 0 0, .close 75, .remove [97],
    .create [99] 1024]

theorem fileName_letter {c : Byte} (letter : c = 97 ∨ c = 98 ∨ c = 99) : FileName [c] := by
  rcases letter with rfl | rfl | rfl <;> exact ⟨by decide, by decide, by decide, by decide, by decide⟩

theorem Fresh.leaks (fresh : Fresh 100 s) : let t := leakRun.foldl FileOp.step s
    FileOp.AllSucceed s leakRun ∧ keys (rootSlots t) = [[99]] ∧
      (∀ x ∈ rootFiles t, t.findInode x = none ∧ fileLen t x = 1024) ∧
      ∀ stale, ∃ u, defragment t stale = (0, u) ∧ ∃ x ∈ rootFiles u, FileAt u x ∧ ¬Ascends u x := by
  have a := fileName_letter (Or.inl (Eq.refl 97))
  have b := fileName_letter (Or.inr (Or.inl (Eq.refl 98)))
  have c := fileName_letter (Or.inr (Or.inr (Eq.refl 99)))
  obtain ⟨madeB, y, holdsB, laidB, fileB, -⟩ := fresh.holding.creates
    (show (0 : Int) = (0 : Nat) from rfl) b List.not_mem_nil (by decide) (by decide) (by decide +kernel)
  have placeB : y.toNat = 74 := (List.cons.inj laidB).1
  obtain ⟨s₁, step₁⟩ : ∃ t, FileOp.step s (.create [98] 0) = t := ⟨_, rfl⟩
  rw [step₁] at holdsB fileB
  obtain ⟨madeA, x, holdsA, laidA, fileA, othersA⟩ := holdsB.creates
    (show (2048 : Int) = (2048 : Nat) from rfl) a
    (fun same => absurd (List.mem_singleton.mp same) (show ¬([97] : CString) = [98] by decide)) (show 1 < 999 by decide)
    (by decide) (by decide +kernel)
  have placeA : x.toNat = 75 := (List.cons.inj laidA).1
  obtain rfl : x = 75 := BitVec.toNat_inj.mp placeA
  obtain ⟨s₂, step₂⟩ : ∃ t, FileOp.step s₁ (.create [97] 2048) = t := ⟨_, rfl⟩
  rw [step₂] at holdsA fileA othersA
  have emptyB : fileLen s₂ y = 0 := by
    rw [fileLen, (othersA y (holdsB.listed.mpr List.mem_cons_self)).2.2, fileB.length]
    rfl
  have apart : (75 : BlockSector) ≠ y := by
    rintro rfl
    cases placeB
  obtain ⟨goneB, holds₃, others₃⟩ := (holdsA.swap).removes b emptyB (74 :: List.range' 80 19) (by decide +kernel)
    fun i => by rw [List.mem_cons, placeB]
  obtain ⟨s₃, step₃⟩ : ∃ t, FileOp.step s₂ (.remove [98]) = t := ⟨_, rfl⟩
  rw [step₃] at holds₃ others₃
  obtain ⟨-, bytes₃, length₃⟩ := others₃ 75 (holdsA.listed.mpr List.mem_cons_self) apart
  obtain ⟨opened, holds₄, held₄, listed₄, bytes₄, length₄⟩ := holds₃.opens a List.mem_cons_self
  obtain ⟨s₄, step₄⟩ : ∃ t, FileOp.step s₃ (.openFile [97]) = t := ⟨_, rfl⟩
  rw [step₄] at holds₄ held₄ listed₄ bytes₄ length₄
  have blank : contents s₄ 75 = List.replicate (fileLen s₄ 75) 0 := by
    rw [fileLen, length₄, length₃, fileA.length, bytes₄, bytes₃, fileA.blank]
  obtain ⟨wrote, holds₅, held₅, empty₅⟩ := holds₄.truncates listed₄ held₄ blank
  obtain ⟨s₅, step₅⟩ : ∃ t, FileOp.step s₄ (.write 75 (fun _ => 0) 0 0) = t := ⟨_, rfl⟩
  rw [step₅] at holds₅ held₅ empty₅
  obtain ⟨holds₆, -, -, length₆⟩ := holds₅.closes (holds₅.listed.mpr List.mem_cons_self) held₅
  obtain ⟨s₆, step₆⟩ : ∃ t, FileOp.step s₅ (.close 75) = t := ⟨_, rfl⟩
  rw [step₆] at holds₆ length₆
  obtain ⟨goneA, holds₇, -⟩ := holds₆.removes a (by rw [fileLen, length₆]; exact empty₅)
    ([74, 75, 80] ++ List.range' 81 18) (by decide +kernel) fun i => by simp; omega
  obtain ⟨s₇, step₇⟩ : ∃ t, FileOp.step s₆ (.remove [97]) = t := ⟨_, rfl⟩
  rw [step₇] at holds₇
  obtain ⟨madeC, rest⟩ := holds₇.gap c (show 1 < NAME_MAX by decide) (by decide +kernel) rfl rfl (by decide)
  have last : leakRun.foldl FileOp.step s = FileOp.step s₇ (.create [99] 1024) := by
    simp only [leakRun, List.foldl_cons, List.foldl_nil, step₁, step₂, step₃, step₄, step₅, step₆, step₇]
  intro t
  rw [show t = FileOp.step s₇ (.create [99] 1024) from last]
  refine ⟨?_, rest⟩
  have regular : (75 : BlockSector) ≠ FREE_MAP_SECTOR ∧ (75 : BlockSector) ≠ ROOT_DIR_SECTOR := by decide
  simp only [leakRun, FileOp.AllSucceed, step₁, step₂, step₃, step₄, step₅, step₆, step₇]
  exact ⟨⟨b.proper, madeB⟩, ⟨a.proper, madeA⟩, ⟨b.proper, goneB⟩, ⟨a.plain, opened⟩, ⟨⟨regular, by decide⟩, wrote⟩,
    ⟨regular, trivial⟩, ⟨a.proper, goneA⟩, ⟨c.proper, madeC⟩, trivial⟩

/-- Nothing fails in the run, and the only file is closed; `defragment` returns 0, and the two blocks of the file are still
apart. -/
theorem defragment_leaves_gap : let s := leakRun.foldl FileOp.step (formatted 100)
    Run (fun s op => FileOp.Regular op ∧ op.Succeeds s) FileOp.step (formatted 100) s ∧
      keys (rootSlots s.flat) = [[99]] ∧ (∀ x ∈ rootFiles s.flat, s.findInode x = none ∧ fileLen s.flat x = 1024) ∧
      ∀ stale, (defragment s stale).1 = 0 ∧
        ∃ x ∈ rootFiles (defragment s stale).2.flat, ¬SectorsAscend (defragment s stale).2 x := by
  have general : ∀ s : Fs BufferCache, Fresh 100 s.flat → let t := leakRun.foldl FileOp.step s
      Run (fun s op => FileOp.Regular op ∧ op.Succeeds s) FileOp.step s t ∧
        keys (rootSlots t.flat) = [[99]] ∧ (∀ x ∈ rootFiles t.flat, t.findInode x = none ∧ fileLen t.flat x = 1024) ∧
        ∀ stale, (defragment t stale).1 = 0 ∧
          ∃ x ∈ rootFiles (defragment t stale).2.flat, ¬SectorsAscend (defragment t stale).2 x := by
    intro s fresh
    obtain ⟨all, names, closed, leaves⟩ := fresh.leaks
    rw [← FileOp.foldl_flat] at names closed leaves
    have run := ((FileOp.allSucceed_flat s leakRun).mp all).run .start
    generalize leakRun.foldl FileOp.step s = t at *
    refine ⟨run, names, closed, fun stale => ?_⟩
    obtain ⟨u, run, x, listed, file, jumps⟩ := leaves stale
    have same := defragment_flat t stale
    rw [run] at same
    have after : (defragment t stale).2.flat = u := congrArg Prod.snd same
    rw [← after] at listed file jumps
    exact ⟨congrArg Prod.fst same, x, listed, fun ascends => jumps ((sectorsAscend_iff _ file).mp ascends)⟩
  exact general _ (formatted_fresh (by decide +kernel))

end leak

end ShellOs.FileSystem
