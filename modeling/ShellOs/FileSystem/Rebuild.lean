import ShellOs.FileSystem.BackUp
import ShellOs.FileSystem.Placement
import ShellOs.FileSystem.Shell

/-! The second loop of `defragment`: every file that was backed up is made again and filled. -/

namespace ShellOs.FileSystem
open Lib BlockTree SlotMap GrowArray

/-- What is left of some data that goes through `file_write`: a NUL is put over the last byte. -/
def terminated (data : List Byte) : List Byte := if data = [] then [] else data.dropLast ++ [0]

section laid

variable {s t : FlatFs} {n k o : Nat} {x y : BlockSector}

theorem mem_laidOut {z : BlockSector} (member : z ∈ laidOut s x) : z ∈ sectorsOf s x := by
  rcases List.mem_cons.mp member with rfl | inside
  · exact List.mem_cons_self
  · exact List.mem_cons_of_mem _ (mem_inodeVisited inside)

theorem laidOut_congr (data : t.inodeData x = s.inodeData x)
    (same : ∀ z ∈ inodeInner s.cache (s.inodeData x), t.cache z = s.cache z) : laidOut t x = laidOut s x := by
  rw [laidOut, laidOut, Fs.inodeLength, Fs.inodeLength, data, inodeVisited_congr fun z _ index => same z index]

theorem laidOut_bystander {touched : List BlockSector} (file : FileAt s y) (change : Change s t touched)
    (away : ∀ z ∈ sectorsOf s y, z ∉ touched) (same : t.findInode y = s.findInode y) : laidOut t y = laidOut s y := by
  obtain ⟨-, -, -, -, data⟩ := Volume.bystander file change away same
  apply laidOut_congr data
  intro z index
  have mine : z ∈ sectorsOf s y := List.mem_cons_of_mem _ (inodeInner_sub index)
  exact change.frame z (file.own_ne_zero mine) (file.own.used z mine) (away z mine) (file.own.apart z mine)

theorem inodeWriteAt_laidOut (fine : FreeMapOk s) (file : FileAt s x) (writable : s.inodeDenyWriteCnt x = 0)
    (some : 0 < k) (bound : o + k ≤ fileLen s x) (buffer : Nat → Byte) :
    ∃ w, inodeWriteAt s x buffer k o = ((k : Int), { s with cache := w }) ∧
      laidOut { s with cache := w } x = laidOut s x := by
  obtain ⟨w, run, wrote⟩ := inodeWriteWith_inside
    (freeMapAllocateWith (inodeWriteDepth (s.freeMap.bitCnt + 1)) 1) fine.small (Or.inr file.apart) writable
    file.good.toLayout some bound buffer
  have settled : Settled s x := Or.inr file.apart
  refine ⟨w, run, laidOut_congr (settled.data file.good.fits file.good.mapped wrote bound) fun z index => ?_⟩
  apply wrote.frame
  rintro i - below rfl
  exact blockAt_not_inner file.good.nodup (file.good.small (by omega)) index

theorem inodeWriteAt_empty (listed : (s.findInode x).isSome) (nodup : HandlesNodup s)
    (stored : Stored s x) (writable : s.inodeDenyWriteCnt x = 0)
    (empty : s.inodeLength x = 0) (buffer : Nat → Byte) : inodeWriteAt s x buffer 0 0 = (0, s) := by
  have run : inodeWriteAt s x buffer 0 0 = inodeWriteWith
      (freeMapAllocateWith (inodeWriteDepth (s.freeMap.bitCnt + 1)) 1) s x buffer 0 0 := rfl
  have before : byteToSector s x (offsetOf (0 + 0 - 1)) = (NO_SECTOR, s) := by
    rw [byteToSector, if_neg (by rw [empty]; decide)]
  have nothing : ∀ allocate, inodeReserve allocate s (s.inodeData x) (offsetOf (0 + 0)) = ⟨true, s.inodeData x, s⟩ := by
    intro allocate
    rfl
  have zero : BitVec.ofInt 32 (offsetOf (0 + 0)) = (s.inodeData x).length := by
    apply BitVec.eq_of_toInt_eq
    exact empty.symm
  have same : s.setInodeData x (s.inodeData x) = s := by
    obtain ⟨j, found⟩ := Option.isSome_iff_exists.mp listed
    have kept : s.openInodes.map (fun i => if i.sector = x then { i with data := s.inodeData x } else i) =
        s.openInodes := by
      refine (List.map_congr_left fun i member => ?_).trans (List.map_id _)
      split
      next here =>
        have alone : i = j := List.inj_on_of_nodup_map nodup member (List.mem_of_find?_eq_some found)
          (here.trans (Fs.findInode_sector found).symm)
        rw [Fs.inodeData_found found rfl, alone]
        rfl
      next => rfl
    rw [Fs.setInodeData, kept]
  have written : s.bufferCacheWrite x (s.inodeData x).encode = s := by
    rw [flat_write, stored, InodeDisk.encode_decode, Function.update_eq_self]
  have loop : inodeWriteLoop s x buffer 0 0 0 = (0, s) := by
    rw [inodeWriteLoop, if_neg (by decide)]
  rw [run, inodeWriteWith, if_neg (by simp [writable]), before]
  simp only [if_true, nothing, Bool.true_eq_false, if_false, zero, same, written, loop]

end laid

section turn

variable {s t u : FlatFs} {m n : Nat} {path name : CString} {x y : BlockSector} {data : List Byte}

/-- A path that `fsutil_create` takes, for a file in the root directory of that name: the directory part is not looked at. -/
structure MadeAs (path name : CString) : Prop where
  last : (splitPathFilename path).2 = name
  named : FileName name
  nonempty : 0 < path.length
  short : path.length < 255

theorem FileName.madeAs (named : FileName name) : MadeAs name name := by
  have bound := named.ok.2
  simp only [NAME_MAX] at bound
  exact ⟨by rw [named.split], named, named.ok.1, by omega⟩

/-- A file has been written from its start to its end, and everything lies where it did. -/
structure Filled (s t : FlatFs) (n : Nat) (x : BlockSector) (data : List Byte) : Prop where
  volume : Volume t n
  slots : rootSlots t = rootSlots s
  bits : t.freeMap = s.freeMap
  bytes : contents t x = terminated data
  length : t.inodeLength x = s.inodeLength x
  others : ∀ y ∈ rootFiles s, y ≠ x → Volume.Untouched s t y
  laid : ∀ y ∈ rootFiles s, laidOut t y = laidOut s y

/-- An entry of the table: a file that has been written from its start. -/
def filledEntry (name : CString) (x : BlockSector) (length : Nat) : FileTableEntry :=
  ⟨name, ⟨x, (length : Int) - 2, false⟩⟩

theorem setFile_last {entries : List FileTableEntry} {f g : File} (table : s.fileTable = entries ++ [⟨path, f⟩])
    (absent : ∀ entry ∈ entries, entry.fname ≠ path) : (setFile s path g).fileTable = entries ++ [⟨path, g⟩] := by
  have kept : entries.map (fun entry => if entry.fname = path then { entry with f := g } else entry) = entries := by
    refine (List.map_congr_left fun entry member => ?_).trans (List.map_id _)
    exact if_neg (absent entry member)
  rw [setFile, table, List.map_append, kept, List.map_singleton, if_pos rfl]

theorem terminated_bytes (nonempty : data ≠ []) :
    bufferBytes (Function.update (fun i => data.getD i 0) (data.length - 1) 0) data.length = terminated data := by
  have long := List.length_pos_of_ne_nil nonempty
  have all := bufferBytes_last (fun i => data.getD i 0) (data.length - 1)
  rw [Nat.sub_add_cancel long, bufferBytes_take data (Nat.sub_le _ _), ← List.dropLast_eq_take] at all
  rw [all, terminated, if_neg nonempty]

theorem length_terminated (data : List Byte) : (terminated data).length = data.length := by
  unfold terminated
  split
  next empty => rw [empty]
  next nonempty =>
    have long := List.length_pos_of_ne_nil nonempty
    rw [List.length_append, List.length_dropLast, List.length_singleton]
    omega

theorem Volume.fills (vol : Volume s n) (held : FileOp.Held s x) (stored : Stored s x)
    (length : s.inodeLength x = data.length) :
    ∃ w, inodeWriteAt s x (Function.update (fun i => data.getD i 0) (data.length - 1) 0) data.length 0 =
      ((data.length : Int), { s with cache := w }) ∧ Filled s { s with cache := w } n x data := by
  obtain ⟨listed, isOpen⟩ := held
  have writable := vol.writable listed isOpen
  have file := (vol.file x listed).1
  have size : fileLen s x = data.length := by rw [fileLen, length, Int.toNat_natCast]
  by_cases nonempty : data = []
  · subst nonempty
    refine ⟨s.cache, inodeWriteAt_empty isOpen vol.mounted.handle.nodup stored writable length _, vol, rfl, rfl, ?_, rfl,
      fun y mine _ => ⟨mine, rfl, rfl⟩, fun _ _ => rfl⟩
    rw [terminated, if_pos rfl, ← List.length_eq_zero_iff, length_contents]
    exact size
  · have some := List.length_pos_of_ne_nil nonempty
    have inside : 0 + data.length ≤ fileLen s x := by omega
    have fine := vol.mounted.dir.fine
    have effect := writeEffect_inside fine file writable some inside
      (Function.update (fun i => data.getD i 0) (data.length - 1) 0)
    obtain ⟨w, run, laid⟩ := inodeWriteAt_laidOut fine file writable some inside
      (Function.update (fun i => data.getD i 0) (data.length - 1) 0)
    rw [Nat.cast_zero] at effect run
    rw [run] at effect
    obtain ⟨volume, slots, others⟩ := vol.writes listed effect
    obtain ⟨-, same, bytes⟩ := effect.result.resolve_right fun failed => by
      have : ((data.length : Nat) : Int) = 0 := failed.1
      omega
    refine ⟨w, run, volume, slots, rfl, ?_, ?_, others, fun y mine => ?_⟩
    · have whole := length_contents s x
      have count := length_terminated data
      rw [bytes, terminated_bytes nonempty, overwrite_tail _ (Nat.zero_le _) (by omega), List.take_zero, List.nil_append]
    · rw [same, length]
      omega
    · by_cases same : y = x
      · rw [same]
        exact laid
      · apply laidOut_bystander (vol.file y mine).1 (effect.took.change fine)
        · intro z member
          exact vol.apart y (List.mem_cons_of_mem _ mine) x (List.mem_cons_of_mem _ listed) same z member
        · rfl

theorem Volume.refills (vol : Volume s n) (absent : getFileByFname s path = none)
    (plain : Plain (splitPathFilename path).2) (bound : some ((splitPathFilename path).2, x) ∈ rootSlots s)
    (closed : s.findInode x = none) (length : s.inodeLength x = data.length) :
    ∃ t, fsutilWrite s path (fun i => data.getD i 0) data.length = ((data.length : Int), t) ∧ Filled s t n x data ∧
      (Shut s → Shut t) ∧ t.fileTable = s.fileTable ++ [filledEntry path x data.length] ∧ (t.findInode x).isSome ∧
      ∀ z, z ≠ x → z ≠ ROOT_DIR_SECTOR → t.findInode z = s.findInode z := by
  have listed := mem_rootFiles.mpr ⟨_, bound⟩
  obtain ⟨u, opened, run⟩ := vol.openNamed_opens absent plain bound
  obtain ⟨volU, slotsU, othersU⟩ := vol.opens listed opened
  have entries : addToFileTable u (fileOpen x) path = { u with fileTable := s.fileTable ++ [⟨path, fileOpen x⟩] } := by
    have absentU : getFileByFname u path = none := by
      rw [getFileByFname, opened.fileTable]
      exact absent
    rw [addToFileTable, absentU, Option.isSome_none, if_neg Bool.false_ne_true, opened.fileTable]
  rw [entries] at run
  obtain ⟨volV, slotsV, othersV⟩ := volU.tabled (s.fileTable ++ [⟨path, fileOpen x⟩])
  obtain ⟨i, found, -⟩ := opened.fresh closed
  have stored : Stored s x := by
    rw [Stored, Fs.inodeData, closed]
    rfl
  have laidU : ∀ y ∈ rootFiles s, laidOut u y = laidOut s y := by
    intro y mine
    have same : u.inodeData y = s.inodeData y := by
      by_cases here : y = x
      · rw [here, opened.data]
      · exact inodeData_of_find (opened.others y here (vol.ne_root mine)) (by rw [opened.rehandled.cache])
    exact laidOut_congr same fun z _ => by rw [opened.rehandled.cache]
  have lengthU : u.inodeLength x = data.length := (othersU x listed).2.2.trans length
  have heldV : FileOp.Held { u with fileTable := s.fileTable ++ [⟨path, fileOpen x⟩] } x := by
    refine ⟨?_, ?_⟩
    · rw [rootFiles, slotsV, slotsU]
      exact listed
    · change (u.findInode x).isSome
      rw [found]
      rfl
  obtain ⟨w, wrote, filled⟩ := volV.fills heldV (opened.rehandled.kept stored).2 lengthU
  have fits := (vol.file x listed).1.good.fits
  have size : offsetOf (data.length : Int) = data.length := by
    rw [fileLen, length, Int.toNat_natCast] at fits
    simp only [MAX_LENGTH] at fits
    exact offsetOf_eq (by omega) (by omega)
  have last : ((data.length : Int) - 1).toNat = data.length - 1 := by omega
  -- the table gets the new position: nothing else of the state does
  obtain ⟨volT, slotsT, othersT⟩ := filled.volume.tabled (setFile { u with
    cache := w, fileTable := s.fileTable ++ [⟨path, fileOpen x⟩] } path ⟨x, 0 + ((data.length : Int) - 2), false⟩).fileTable
  refine ⟨setFile { u with cache := w, fileTable := s.fileTable ++ [⟨path, fileOpen x⟩] } path
    ⟨x, 0 + ((data.length : Int) - 2), false⟩, ?_, ⟨volT, ?_, opened.rehandled.bits, filled.bytes, ?_, fun y mine away => ?_,
    fun y mine => ?_⟩, fun shut => opened.shut shut, ?_, heldV.2, opened.others⟩
  · simp only [fsutilWrite, run, fileWrite, size, last, show (fileOpen x).inode = x from rfl, Fs.use_open heldV.2,
      show (fileOpen x).pos = 0 from rfl, show (fileOpen x).denyWrite = false from rfl, wrote]
  · exact slotsT.trans (filled.slots.trans (slotsV.trans slotsU))
  · exact filled.length.trans (othersU x listed).2.2
  · have early := (othersU y mine).trans (othersV y (othersU y mine).1)
    have middle := early.trans (filled.others y early.1 away)
    exact middle.trans (othersT y middle.1)
  · have early := (othersU y mine).trans (othersV y (othersU y mine).1)
    exact (filled.laid y early.1).trans (laidU y mine)
  · rw [filledEntry, Int.zero_add]
    exact setFile_last rfl (getFileByFname_none.mp absent)

/-- A file has been made again: it takes the first free sectors, and the other files are left alone. -/
structure Remade (s t : FlatFs) (path name : CString) (data : List Byte) (x : BlockSector) : Prop where
  volume : ∃ n, Volume t n
  shut : Shut s → Shut t
  slots : rootSlots t = put (rootSlots s) (name, x)
  bytes : contents t x = terminated data
  length : t.inodeLength x = data.length
  free : freeSectors s.freeMap = laidOut t x ++ freeSectors t.freeMap
  others : ∀ y ∈ rootFiles s, Volume.Untouched s t y ∧ laidOut t y = laidOut s y ∧ t.findInode y = s.findInode y
  table : t.fileTable = s.fileTable ++ [filledEntry path x data.length]

/-- How many sectors a file takes: its inode, its blocks and their index blocks. -/
def sectorsNeeded (length : Nat) : Nat :=
  1 + (inodeMissing (fun _ => zeros) InodeDisk.empty (bytesToSectors length)).length

theorem length_laidOut (file : FileAt s x) {k : Nat} (length : s.inodeLength x = k) :
    (laidOut s x).length = sectorsNeeded k := by
  have whole := inodeMissing_visited s.cache (s.inodeData x) (bytesToSectors (s.inodeLength x))
  rw [inodeMissing_mapped fun i => file.blocks (i := i), List.length_nil] at whole
  rw [laidOut, List.length_cons, sectorsNeeded, ← length]
  omega

theorem Volume.creates_order (vol : Volume s n) (as : MadeAs path name) (absent : name ∉ keys (rootSlots s))
    (room : freeSlot (rootSlots s) < (rootSlots s).length) (fits : data.length ≤ MAX_LENGTH)
    (enough : sectorsNeeded data.length ≤ (freeSectors s.freeMap).length) :
    ∃ t x, fsutilCreate s path data.length = (true, t) ∧ (∃ m, Volume t m) ∧ NewFile s t name data.length x ∧
      freeSectors s.freeMap = laidOut t x ++ freeSectors t.freeMap ∧ (Shut s → Shut t) ∧ t.fileTable = s.fileTable ∧
      (∀ y ∈ rootFiles s, Volume.Untouched s t y ∧ laidOut t y = laidOut s y ∧ t.findInode y = s.findInode y) := by
  obtain ⟨last, named, some, short⟩ := as
  obtain ⟨new, creation⟩ := filesysCreate_effect vol.mounted path data.length
  rw [last] at creation
  obtain ⟨vols, untouched, -, -⟩ := vol.creates creation named.proper
  simp only [MAX_LENGTH] at fits
  have size : offsetOf (data.length : Int) = data.length := offsetOf_eq (by omega) (by omega)
  have needs := createMissing_room vol.mounted room name data.length
  have count : (createNeeds data.length).length + 1 = sectorsNeeded data.length := by
    rw [sectorsNeeded, createNeeds, size, if_neg (by omega)]
    omega
  have sectors := bytesToSectors_eq (show data.length + 511 < 2 ^ 31 by omega)
  have made : (filesysCreate s path data.length false).1 = true := by
    rw [creation.done, CreateFits]
    refine ⟨⟨by rw [size]; omega, ?_⟩, named.ok, absent, Or.inl (freeSlot_inside vol.mounted room), ?_⟩
    · rw [size, sectors]
      simp only [MAX_SECTORS]
      omega
    · rw [needs, List.length_cons, count]
      exact enough
  obtain ⟨x, root, file, split⟩ := filesysCreate_order vol.mounted made (by rw [last]; exact named.proper)
  rw [last] at file
  have create : fsutilCreate s path data.length = filesysCreate s path data.length false := by
    rw [fsutilCreate, if_neg (by omega), size]
  have length := file.length.trans size
  -- the sectors of the file are all that is taken: the directory does not grow
  obtain ⟨-, -, -, -, all, -⟩ := creation.made made
  have taken := congrArg List.length creation.taken
  rw [List.length_take, needs, List.length_cons, count, Nat.min_eq_left enough] at taken
  have before := congrArg List.length all
  have after := congrArg List.length split
  rw [List.length_append] at before
  rw [List.length_append, List.length_append, length_laidOut file.file length] at after
  obtain rfl : root = [] := List.eq_nil_of_length_eq_zero (by omega)
  rw [List.nil_append] at split
  refine ⟨_, x, create.trans (Prod.ext made rfl), vols, file, split, creation.shut, creation.fileTable, fun y mine => ?_⟩
  have handle := creation.others y (vol.ne_root mine)
  refine ⟨untouched y mine, ?_, handle⟩
  exact laidOut_bystander (vol.file y mine).1 creation.change
    (fun z inside => vol.apart y (List.mem_cons_of_mem _ mine) _ List.mem_cons_self (vol.ne_root mine) z inside) handle

theorem Volume.remakes (vol : Volume s n) (as : MadeAs path name) (absent : name ∉ keys (rootSlots s))
    (closed : getFileByFname s path = none) (room : freeSlot (rootSlots s) < (rootSlots s).length)
    (fits : data.length ≤ MAX_LENGTH) (enough : sectorsNeeded data.length ≤ (freeSectors s.freeMap).length) :
    ∃ c t x, fsutilCreate s path data.length = (true, c) ∧
      fsutilWrite c path (fun i => data.getD i 0) data.length = ((data.length : Int), t) ∧ Remade s t path name data x := by
  obtain ⟨c, x, create, ⟨m, volume⟩, file, free, shut, table, others⟩ := vol.creates_order as absent room fits enough
  simp only [MAX_LENGTH] at fits
  have size : offsetOf (data.length : Int) = data.length := offsetOf_eq (by omega) (by omega)
  obtain ⟨last, named, -, -⟩ := as
  have bound : some (name, x) ∈ rootSlots c := by
    rw [file.slots]
    exact List.mem_of_getElem? (put_freeSlot _ _)
  have listed := mem_rootFiles.mpr ⟨_, bound⟩
  obtain ⟨t, write, filled, shutT, entries, -, handles⟩ := @Volume.refills _ m path x data volume
    (by rw [getFileByFname, table]; exact closed)
    (by rw [last]; exact ⟨named.nonempty, named.single, named.double⟩) (by rw [last]; exact bound) file.unlisted (file.length.trans size)
  have apart : ∀ y ∈ rootFiles s, y ≠ x := by
    rintro y mine rfl
    have used := (vol.file y mine).1.own.used y List.mem_cons_self
    exact file.unused y List.mem_cons_self used
  refine ⟨c, t, x, create, write, ⟨m, filled.volume⟩, fun closed => shutT (shut closed), ?_, filled.bytes, ?_, ?_,
    fun y mine => ?_, ?_⟩
  · rw [filled.slots, file.slots]
  · rw [filled.length, file.length, size]
  · rw [free, filled.bits, filled.laid x listed]
  · obtain ⟨early, laid, handle⟩ := others y mine
    exact ⟨early.trans (filled.others y early.1 (apart y mine)), (filled.laid y early.1).trans laid,
      (handles y (apart y mine) (vol.ne_root mine)).trans handle⟩
  · rw [entries, table]

end turn

section loop

variable {s t : FlatFs} {n : Nat} {old new : List (CString × BlockSector)} {spare : Nat} {files : List FileData}

/-- The name under which the root directory gets the file when it is made again. -/
def FileData.entry (file : FileData) : CString := (splitPathFilename file.name).2

/-- What a run of the second loop has made: the files stand behind the old ones in the root directory, and lie one
behind the other in the sectors that were free. -/
structure Rebuilt (s t : FlatFs) (files : List FileData) (old new : List (CString × BlockSector)) (spare : Nat) :
    Prop where
  volume : ∃ n, Volume t n
  shut : Shut s → Shut t
  slots : rootSlots t = compact (old ++ new) spare
  names : new.map Prod.fst = files.map FileData.entry
  bytes : (new.map fun b => contents t b.2) = files.map fun file => terminated file.data
  free : freeSectors s.freeMap = (new.flatMap fun b => laidOut t b.2) ++ freeSectors t.freeMap
  others : ∀ y ∈ rootFiles s, Volume.Untouched s t y ∧ laidOut t y = laidOut s y ∧ t.findInode y = s.findInode y

structure Saved (s : FlatFs) (file : FileData) : Prop where
  named : MadeAs file.name file.entry
  closed : getFileByFname s file.name = none
  size : file.size = file.data.length
  fits : file.data.length ≤ MAX_LENGTH

theorem Saved.next {file : FileData} {path : CString} {x : BlockSector} {length : Nat} (saved : Saved s file)
    (table : t.fileTable = s.fileTable ++ [filledEntry path x length]) (other : file.name ≠ path) : Saved t file := by
  refine ⟨saved.named, getFileByFname_none.mpr fun entry member here => ?_, saved.size, saved.fits⟩
  rw [table, List.mem_append, List.mem_singleton] at member
  rcases member with before | rfl
  · exact getFileByFname_none.mp saved.closed entry before here
  · exact other here.symm

/-- There are slots and sectors for all of some files, behind those that are made already. -/
structure Rebuildable (s : FlatFs) (files : List FileData) (old : List (CString × BlockSector)) (spare : Nat) : Prop where
  volume : ∃ n, Volume s n
  saved : ∀ file ∈ files, Saved s file
  nodup : (old.map Prod.fst ++ files.map FileData.entry).Nodup
  slots : rootSlots s = compact old (files.length + spare)
  enough : (files.map fun file => sectorsNeeded file.data.length).sum ≤ (freeSectors s.freeMap).length

namespace Rebuildable

variable {file : FileData} {rest : List FileData}

theorem room (can : Rebuildable s (file :: rest) old spare) : file.entry ∉ keys (rootSlots s) ∧
    freeSlot (rootSlots s) < (rootSlots s).length ∧ sectorsNeeded file.data.length ≤ (freeSectors s.freeMap).length := by
  obtain ⟨-, -, nodup, slots, enough⟩ := can
  rw [List.map_cons] at nodup
  rw [List.map_cons, List.sum_cons] at enough
  refine ⟨?_, ?_, by omega⟩
  · rw [slots, keys, bindings_compact]
    exact fun member => (List.nodup_append.mp nodup).2.2 _ member _ List.mem_cons_self rfl
  · rw [slots, freeSlot_compact, length_compact, List.length_cons]
    omega

theorem turn (can : Rebuildable s (file :: rest) old spare) : ∃ c t x,
    fsutilCreate s file.name file.data.length = (true, c) ∧
    fsutilWrite c file.name (fun i => file.data.getD i 0) file.data.length = ((file.data.length : Int), t) ∧
    Remade s t file.name file.entry file.data x ∧ x ∈ rootFiles t ∧
    Rebuildable t rest (old ++ [(file.entry, x)]) spare := by
  obtain ⟨named, closed, -, fits⟩ := can.saved file List.mem_cons_self
  obtain ⟨absent, room, few⟩ := can.room
  obtain ⟨n, vol⟩ := can.volume
  obtain ⟨c, t, x, create, write, made⟩ := vol.remakes named absent closed room fits few
  have slots : rootSlots t = compact (old ++ [(file.entry, x)]) (rest.length + spare) := by
    rw [made.slots, can.slots, List.length_cons, show rest.length + 1 + spare = rest.length + spare + 1 by omega, put_compact]
  obtain ⟨m, volume⟩ := made.volume
  have listed : x ∈ rootFiles t := by
    rw [rootFiles, slots, bindings_compact]
    simp
  have nodup := can.nodup
  rw [List.map_cons] at nodup
  have others : ∀ f ∈ rest, f.name ≠ file.name := by
    intro f member same
    have once := (List.nodup_append.mp nodup).2.1
    have entry : f.entry = file.entry := congrArg (fun path => (splitPathFilename path).2) same
    exact (List.nodup_cons.mp once).1 (entry ▸ List.mem_map_of_mem member)
  refine ⟨c, t, x, create, write, made, listed, ⟨⟨m, volume⟩, fun f member => ?_, ?_, slots, ?_⟩⟩
  · exact (can.saved f (List.mem_cons_of_mem _ member)).next made.table (others f member)
  · rw [List.map_append, List.append_assoc]
    exact nodup
  · have count := congrArg List.length made.free
    have enough := can.enough
    rw [List.length_append, length_laidOut (volume.file x listed).1 made.length] at count
    rw [List.map_cons, List.sum_cons] at enough
    omega

end Rebuildable

theorem rebuild_spec (can : Rebuildable s files old spare) :
    ∃ t new, rebuild files s = (0, t) ∧ Rebuilt s t files old new spare := by
  induction files generalizing s old with
  | nil =>
    refine ⟨s, [], rfl, can.volume, id, ?_, rfl, rfl, rfl, fun y mine => ⟨⟨mine, rfl, rfl⟩, rfl, rfl⟩⟩
    rw [can.slots, List.append_nil, List.length_nil, Nat.zero_add]
  | cons file rest ih =>
    have size := (can.saved file List.mem_cons_self).size
    obtain ⟨c, u, x, create, write, made, listed, next⟩ := can.turn
    obtain ⟨t, new, run, rebuilt⟩ := ih next
    obtain ⟨same, laid, -⟩ := rebuilt.others x listed
    refine ⟨t, (file.entry, x) :: new, ?_, rebuilt.volume, fun shut => rebuilt.shut (made.shut shut), ?_, ?_, ?_, ?_,
      fun y mine => ?_⟩
    · simp only [rebuild, size, create, if_true, write, run]
      rw [if_neg (by omega)]
    · rw [rebuilt.slots, List.append_assoc]
      rfl
    · rw [List.map_cons, List.map_cons, rebuilt.names]
    · rw [List.map_cons, List.map_cons, rebuilt.bytes, same.2.1, made.bytes]
    · rw [made.free, rebuilt.free, List.flatMap_cons, laid, List.append_assoc]
    · obtain ⟨early, before, first⟩ := made.others y mine
      obtain ⟨late, after, second⟩ := rebuilt.others y early.1
      exact ⟨early.trans late, after.trans before, second.trans first⟩

end loop

end ShellOs.FileSystem
