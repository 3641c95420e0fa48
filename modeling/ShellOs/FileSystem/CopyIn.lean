import ShellOs.FileSystem.WriteCommand

/-! `copy_in`: what is in a file after an import, and what becomes of it when it is written next. -/

namespace ShellOs.FileSystem
open Lib GrowArray SlotMap

section growth

variable {s : FlatFs} {x : BlockSector}

/-- What a file lacks for a length is no more than what a new file of that length needs beyond one of its own. -/
theorem FileAt.growth (file : FileAt s x) {m : Nat} (le : bytesToSectors (s.inodeLength x) ≤ m) :
    (inodeMissing s.cache (s.inodeData x) m).length +
      (inodeMissing (fun _ => zeros) InodeDisk.empty (bytesToSectors (s.inodeLength x))).length ≤
      (inodeMissing (fun _ => zeros) InodeDisk.empty m).length := by
  have now := inodeMissing_visited s.cache (s.inodeData x) (bytesToSectors (s.inodeLength x))
  have later := inodeMissing_visited s.cache (s.inodeData x) m
  have mapped : inodeMissing s.cache (s.inodeData x) (bytesToSectors (s.inodeLength x)) = [] :=
    inodeMissing_mapped fun i below => file.blocks below
  rw [mapped, List.length_nil] at now
  have nodup : (inodeVisited s.cache (s.inodeData x) (bytesToSectors (s.inodeLength x))).Nodup :=
    file.ownNodes.nodup.sublist (inodeVisited_sublist _ _ _)
  have fewer := (nodup.subperm fun z member => inodeVisited_mono le member).length_le
  omega

theorem createNeeds_eq {size : Int} (low : 0 ≤ size) (high : size < 2 ^ 31) :
    createNeeds size = inodeMissing (fun _ => zeros) InodeDisk.empty (bytesToSectors size) := by
  rw [createNeeds, offsetOf_eq (by omega) high, if_neg (by omega)]

end growth

theorem offsetOf_range (x : Int) : -2 ^ 31 ≤ offsetOf x ∧ offsetOf x < 2 ^ 31 := by
  unfold offsetOf
  have low := Int.le_bmod (x := x) (m := 2 ^ 32) (by decide)
  have high := Int.bmod_lt (x := x) (m := 2 ^ 32) (by decide)
  omega

/-- An imported file: the bytes of the host, a terminator, and the position on the last byte. -/
structure Imported (t : FlatFs) (name : CString) (x : BlockSector) (bytes : List Byte) : Prop where
  volume : ∃ n, Volume t n
  bound : some ((splitPathFilename name).2, x) ∈ rootSlots t
  inode : OpenInode t x
  deny : t.inodeDenyWriteCnt x = 0
  table : getFileByFname t name = some ⟨x, (bytes.length : Int) - 1, false⟩
  contents : contents t x = bytes ++ [0]

section size

variable {σ : Type}

def importSize (s : Fs σ) (bytes : List Byte) : Int :=
  if offsetOf (fsutilFreespace s * BLOCK_SECTOR_SIZE) < bytes.length + 1
  then offsetOf (fsutilFreespace s * BLOCK_SECTOR_SIZE) else bytes.length + 1

theorem importSize_le (s : Fs σ) (bytes : List Byte) : importSize s bytes ≤ bytes.length + 1 := by
  unfold importSize
  split <;> omega

theorem importSize_offset (s : Fs σ) {bytes : List Byte} (small : bytes.length + 1 < 2 ^ 31) :
    offsetOf (importSize s bytes) = importSize s bytes := by
  have range := offsetOf_range (fsutilFreespace s * BLOCK_SECTOR_SIZE)
  unfold importSize
  split
  · exact offsetOf_eq range.1 range.2
  · exact offsetOf_eq (by omega) (by omega)

variable [Store σ BlockSector Sector] [LawfulStore σ]

theorem copyIn_some (s : Fs σ) (fname : CString) (bytes : List Byte) : copyIn s fname (some bytes) =
    let created := fsutilCreate s fname (importSize s bytes)
    if created.1 = false then (9, created.2)
    else
      let written := fsutilWrite created.2 fname (fun i => bytes.getD i 0) (bytes.length + 1)
      (if written.1 = -1 then 11 else 0, written.2) := rfl

theorem fsutilCreate_made {s : Fs σ} {fname : CString} {size : Int} (made : (fsutilCreate s fname size).1 = true) :
    fsutilCreate s fname size = filesysCreate s fname (offsetOf size) false := by
  unfold fsutilCreate at made ⊢
  split at made
  · cases made
  · rename_i fits
    rw [if_neg fits]

end size

namespace Volume

variable {s t : FlatFs} {n : Nat} {name : CString} {bytes : List Byte}

/-- What an import consists of: a new file, opened, and a write to it. -/
structure Importing (s t : FlatFs) (name : CString) (bytes : List Byte) (x : BlockSector) (u : FlatFs)
    (r : Int × FlatFs) : Prop where
  made : (filesysCreate s name (importSize s bytes) false).1 = true
  volume : ∃ m, Volume (filesysCreate s name (importSize s bytes) false).2 m
  file : NewFile s (filesysCreate s name (importSize s bytes) false).2 (splitPathFilename name).2 (importSize s bytes) x
  opened : ∃ m, OpenedNamed (filesysCreate s name (importSize s bytes) false).2 u m name x
  write : ∃ new, WriteEffect u x (Function.update (fun i => bytes.getD i 0) bytes.length 0) (bytes.length + 1) 0 r new
  result : t = setFile r.2 name ⟨x, r.1 - 2, false⟩

theorem imports (vol : Volume s n) (absent : getFileByFname s name = none) (proper : (0 : Byte) ∉ name)
    (single : (splitPathFilename name).2 ≠ dot) (double : (splitPathFilename name).2 ≠ dotDot)
    (small : bytes.length + 1 < 2 ^ 31) (made : (fsutilCreate s name (importSize s bytes)).1 = true) :
    ∃ t x u r, copyIn s name (some bytes) = (0, t) ∧ Importing s t name bytes x u r := by
  have same := fsutilCreate_made made
  rw [importSize_offset s small] at same
  rw [same] at made
  rw [copyIn_some, same, if_neg (by rw [made]; decide)]
  obtain ⟨new, creation⟩ := filesysCreate_effect vol.mounted name (importSize s bytes)
  obtain ⟨⟨m, volume⟩, -, newFile, -⟩ := vol.creates creation fun inside => proper (mem_of_fileName inside)
  obtain ⟨x, file⟩ := newFile made
  have bound : some ((splitPathFilename name).2, x) ∈ rootSlots (filesysCreate s name (importSize s bytes) false).2 := by
    rw [file.slots]
    exact List.mem_of_getElem? (put_freeSlot _ _)
  have absentNext : getFileByFname (filesysCreate s name (importSize s bytes) false).2 name = none := by
    rw [getFileByFname, creation.fileTable]
    exact absent
  obtain ⟨u, r, taken, opened, effect, run⟩ := volume.fsutilWrite_opens absentNext
    ⟨fileName_nonempty vol.mounted made, single, double⟩ bound (Nat.succ_pos bytes.length) small
    (fun i => bytes.getD i 0)
  rw [Nat.succ_eq_add_one, Nat.cast_add, Nat.cast_one] at run
  have went : r.1 ≠ -1 := by
    rcases effect.result with ⟨all, -⟩ | ⟨nothing, -⟩ <;> omega
  refine ⟨_, x, u, r, ?_, made, ⟨m, volume⟩, file, ⟨m, opened⟩, ⟨taken, effect⟩, rfl⟩
  simp only [run, if_neg went]

theorem copyIn_importing (vol : Volume s n) (absent : getFileByFname s name = none) (proper : (0 : Byte) ∉ name)
    (single : (splitPathFilename name).2 ≠ dot) (double : (splitPathFilename name).2 ≠ dotDot)
    (small : bytes.length + 1 < 2 ^ 31) (done : copyIn s name (some bytes) = (0, t)) :
    ∃ x u r, Importing s t name bytes x u r := by
  have made : (fsutilCreate s name (importSize s bytes)).1 = true := by
    by_contra failed
    rw [copyIn_some, if_pos (by simpa using failed)] at done
    cases done
  obtain ⟨v, x, u, r, run, importing⟩ := vol.imports absent proper single double small made
  rw [done] at run
  obtain rfl := congrArg Prod.snd run
  exact ⟨x, u, r, importing⟩

namespace Importing

variable {x : BlockSector} {u : FlatFs} {r : Int × FlatFs}

theorem inode (importing : Importing s t name bytes x u r) : OpenInode u x ∧ u.inodeDenyWriteCnt x = 0 := by
  obtain ⟨m, opened⟩ := importing.opened
  exact ⟨opened.inode, opened.volume.writable opened.listed opened.held⟩

theorem blank (importing : Importing s t name bytes x u r) (small : bytes.length + 1 < 2 ^ 31) :
    u.inodeLength x = importSize s bytes ∧ contents u x = List.replicate (importSize s bytes).toNat 0 := by
  obtain ⟨m, opened⟩ := importing.opened
  obtain ⟨k, volume⟩ := importing.volume
  obtain ⟨-, -, same, length⟩ := opened.rehandled.file volume.mounted.dir.fine importing.file.file
  have size := importSize_offset s small
  refine ⟨?_, ?_⟩
  · rw [length, importing.file.length, size]
  · rw [same, importing.file.blank, size]

theorem listed (importing : Importing s t name bytes x u r) :
    (∃ m, Volume t m) ∧ some ((splitPathFilename name).2, x) ∈ rootSlots t := by
  obtain ⟨new, effect⟩ := importing.write
  obtain ⟨m, opened⟩ := importing.opened
  obtain ⟨volume, slots, -⟩ := opened.volume.writes opened.listed effect
  obtain ⟨volumeT, slotsT, -⟩ := volume.tabled t.fileTable
  have tabled : t = { r.2 with fileTable := t.fileTable } := by
    rw [importing.result]
    rfl
  rw [← tabled] at volumeT slotsT
  rw [slotsT, slots, opened.slots, importing.file.slots]
  exact ⟨⟨m, volumeT⟩, List.mem_of_getElem? (put_freeSlot _ _)⟩

theorem imported (importing : Importing s t name bytes x u r) (small : bytes.length + 1 < 2 ^ 31)
    (can : CanWrite u x (bytes.length + 1)) : Imported t name x bytes := by
  obtain ⟨new, effect⟩ := importing.write
  obtain ⟨m, opened⟩ := importing.opened
  obtain ⟨length, blank⟩ := importing.blank small
  obtain ⟨⟨k, volume⟩, bound⟩ := importing.listed
  have all : r.1 = ((bytes.length + 1 : Nat) : Int) := effect.done.mpr (by rwa [Nat.zero_add])
  have written : contents r.2 x = bytes ++ [0] := by
    rcases effect.result with ⟨-, -, written⟩ | ⟨nothing, -⟩
    · have le := importSize_le s bytes
      rw [written, bufferBytes_last, bufferBytes_take _ (Nat.le_refl _), List.take_length, blank,
        overwrite_tail _ (Nat.zero_le _)
          (by simp only [List.length_replicate, List.length_append, List.length_singleton]; omega),
        List.take_zero, List.nil_append]
    · omega
  have table : getFileByFname r.2 name = some (fileOpen x) := by
    rw [getFileByFname, show r.2.fileTable = u.fileTable from (congrArg Fs.fileTable effect.took.rest :)]
    exact opened.table
  obtain ⟨inode, same⟩ := (opened.inode.written effect).setFile name ⟨x, r.1 - 2, false⟩
  rw [← importing.result] at inode same
  refine ⟨⟨k, volume⟩, bound, inode, volume.writable (mem_rootFiles.mpr ⟨_, bound⟩) inode.listed, ?_,
    same.trans written⟩
  rw [importing.result, getFileByFname_setFile (by rw [table]; rfl), all]
  congr 2
  omega

theorem can_of_whole (importing : Importing s t name bytes x u r) (whole : fileLen t x = bytes.length + 1) :
    CanWrite u x (bytes.length + 1) := by
  obtain ⟨new, effect⟩ := importing.write
  obtain ⟨inode, deny⟩ := importing.inode
  have same : fileLen t x = fileLen r.2 x := by
    rw [importing.result]
    rfl
  by_contra refused
  rcases effect.result with ⟨all, -⟩ | ⟨-, length, -⟩
  · rw [effect.done, Nat.zero_add] at all
    exact refused all
  · have kept : fileLen r.2 x = fileLen u x := congrArg Int.toNat length
    exact refused ⟨deny, Or.inl (by omega)⟩

theorem can_of_room (importing : Importing s t name bytes x u r) (vol : Volume s n)
    (room : freeSlot (rootSlots s) < (rootSlots s).length) (fits : bytes.length + 1 ≤ MAX_LENGTH)
    (enough : 1 + (createNeeds (bytes.length + 1)).length ≤ (freeSectors s.freeMap).length) :
    CanWrite u x (bytes.length + 1) := by
  simp only [MAX_LENGTH] at fits
  have small : bytes.length + 1 < 2 ^ 31 := by omega
  obtain ⟨inode, deny⟩ := importing.inode
  obtain ⟨length, -⟩ := importing.blank small
  obtain ⟨m, opened⟩ := importing.opened
  obtain ⟨new, creation⟩ := filesysCreate_effect vol.mounted name (importSize s bytes)
  obtain ⟨y, file, root, -, split, -⟩ := creation.made importing.made
  have taken : new.length = 1 + (createNeeds (importSize s bytes)).length := by
    obtain ⟨-, -, -, -, few⟩ := creation.done.mp importing.made
    rw [creation.taken, List.length_take, createMissing_room vol.mounted room, List.length_cons]
    rw [createMissing_room vol.mounted room, List.length_cons] at few
    omega
  have left := congrArg List.length split
  rw [List.length_append, taken, ← opened.rehandled.bits] at left
  by_cases inside : bytes.length + 1 ≤ fileLen u x
  · exact ⟨deny, Or.inl inside⟩
  have sectors : bytesToSectors ((bytes.length + 1 : Nat) : Int) = (bytes.length + 1 + 511) / 512 :=
    bytesToSectors_eq (by omega)
  have le : bytesToSectors (u.inodeLength x) ≤ bytesToSectors ((bytes.length + 1 : Nat) : Int) := by
    rw [inode.file.sectorCount, sectors]
    omega
  have growth := inode.file.growth le
  have whole : createNeeds (bytes.length + 1) = inodeMissing (fun _ => zeros) InodeDisk.empty
      (bytesToSectors ((bytes.length + 1 : Nat) : Int)) := createNeeds_eq (by omega) (by omega)
  have part : createNeeds (importSize s bytes) = inodeMissing (fun _ => zeros) InodeDisk.empty
      (bytesToSectors (u.inodeLength x)) := by
    have le := importSize_le s bytes
    have low := inode.file.length
    rw [length] at low ⊢
    exact createNeeds_eq (by omega) (by omega)
  refine ⟨deny, Or.inr ⟨by rw [sectors]; simp only [MAX_SECTORS]; omega, ?_⟩⟩
  rw [writeNeeds, if_neg (by rintro (denied | small); exacts [denied deny, inside small])]
  rw [whole] at enough
  rw [part] at left
  omega

end Importing

end Volume

section append

variable {t : FlatFs} {name : CString} {x : BlockSector} {bytes : List Byte}

theorem eq_of_shift {text : List Byte} {a c : Byte} (same : text ++ [a] = c :: text) : c = a := by
  induction text generalizing c with
  | nil => exact (List.cons.inj same).1.symm
  | cons d rest ih =>
    rw [List.cons_append] at same
    obtain ⟨head, tail⟩ := List.cons.inj same
    exact head.symm.trans (ih tail)

theorem Imported.written (imported : Imported t name x bytes) (nonempty : bytes ≠ []) {words : List CString}
    (some : words ≠ []) (fits : bytes.length + (joined words).length + 1 ≤ MAX_LENGTH)
    (can : CanWrite t x (bytes.length + (joined words).length + 1)) : ∃ u,
      writeCommand t (ascii "write" :: name :: words) = Option.some (0, u) ∧
        FileSystem.contents u x = bytes.dropLast ++ joined words ++ [0, 0] := by
  have long := List.length_pos_of_ne_nil nonempty
  have table := imported.table
  rw [show (bytes.length : Int) - 1 = ((bytes.length - 1 : Nat) : Int) by omega] at table
  obtain ⟨u, run, -, -, written⟩ := imported.inode.writeCommand table some (by omega)
    (by rwa [show bytes.length - 1 + ((joined words).length + 2) = bytes.length + (joined words).length + 1 by omega])
  refine ⟨u, run, ?_⟩
  rw [written, imported.contents, overwrite_tail _ (by simp only [List.length_append, List.length_singleton]; omega) (by simp; omega),
    List.take_append_of_le_length (Nat.sub_le _ _), ← List.dropLast_eq_take, List.append_assoc]

theorem dropLast_ne (nonempty : bytes ≠ []) (noNul : (0 : Byte) ∉ bytes) (text : List Byte) (k : Nat) :
    bytes.dropLast ++ text ++ [0, 0] ≠ bytes ++ text ++ List.replicate k 0 := by
  intro same
  have count := congrArg List.length same
  have long := List.length_pos_of_ne_nil nonempty
  simp only [List.length_append, List.length_dropLast, List.length_cons, List.length_nil, List.length_replicate] at count
  obtain rfl : k = 1 := by omega
  have split := List.dropLast_append_getLast nonempty
  rw [← split] at same
  simp only [List.dropLast_concat, List.append_assoc, List.append_cancel_left_eq, List.singleton_append,
    List.replicate_one] at same
  have shift : (text ++ [0]) ++ [0] = bytes.getLast nonempty :: (text ++ [0]) := by
    rw [List.append_assoc]
    exact same
  exact noNul (eq_of_shift shift ▸ List.getLast_mem nonempty)

end append

section fresh

variable {s t : FlatFs} {x : BlockSector} {name : CString} {bytes : List Byte}

theorem importSize_eq {n : Nat} (mounted : Mounted s n) (few : numFreeSectors s * 512 < 2 ^ 31) (bytes : List Byte) :
    importSize s bytes = (min (numFreeSectors s * 512) (bytes.length + 1) : Nat) := by
  have space : offsetOf (fsutilFreespace s * BLOCK_SECTOR_SIZE) = ((numFreeSectors s * 512 : Nat) : Int) := by
    rw [fsutilFreespace, numFreeSectors_int mounted, BLOCK_SECTOR_SIZE]
    exact offsetOf_eq (by omega) (by omega)
  rw [importSize, space]
  split <;> omega

theorem FileAt.canWrite_within (file : FileAt s x) (writable : s.inodeDenyWriteCnt x = 0) {fin : Nat}
    (fits : fin ≤ MAX_LENGTH) (within : (fin + 511) / 512 = (fileLen s x + 511) / 512) : CanWrite s x fin := by
  simp only [MAX_LENGTH] at fits
  have sectors : bytesToSectors fin = (fin + 511) / 512 := bytesToSectors_eq (by omega)
  have none : inodeMissing s.cache (s.inodeData x) (bytesToSectors fin) = [] :=
    inodeMissing_mapped fun i below => file.blocks (by rw [file.sectorCount, ← within, ← sectors]; exact below)
  refine ⟨writable, Or.inr ⟨by rw [sectors]; simp only [MAX_SECTORS]; omega, ?_⟩⟩
  rw [writeNeeds]
  split
  · exact Nat.zero_le _
  · rw [none]
    exact Nat.zero_le _

theorem Fresh.imports {size : BlockSector} (fresh : Fresh size s) {left : Nat}
    (free : (freeSectors s.freeMap).length = left) (few : left * 512 < 2 ^ 31) (named : FileName name)
    (fits : bytes.length + 1 ≤ MAX_LENGTH) (small : bytes.length + 1 ≤ left * 512)
    (room : (createNeeds (bytes.length + 1)).length < left) :
    ∃ t y, copyIn s name (some bytes) = (0, t) ∧ Imported t name y bytes := by
  have count : numFreeSectors s = left := (numFreeSectors_eq s).trans free
  have size : importSize s bytes = (bytes.length + 1 : Nat) := by
    rw [importSize_eq fresh.mounted (by rw [count]; exact few), count, Nat.min_eq_right small]
  simp only [MAX_LENGTH] at fits
  have absent : getFileByFname s name = none := by
    rw [getFileByFname, fresh.fileTable]
    rfl
  have made : (fsutilCreate s name (importSize s bytes)).1 = true := by
    obtain ⟨new, creation⟩ := filesysCreate_effect fresh.mounted name ((bytes.length + 1 : Nat) : Int)
    have short := named.ok.2
    simp only [NAME_MAX] at short
    rw [size, fsutilCreate, if_neg (by have := named.ok.1; omega), offsetOf_eq (by omega) (by omega)]
    refine creation.done.mpr ?_
    rw [named.split]
    refine fresh.fits free named.ok ((sizeOk_iff (by omega)).mpr ?_) room
    simp only [MAX_SECTORS]
    omega
  obtain ⟨t, y, u, r, run, importing⟩ := fresh.volume.imports absent named.proper named.plain.2.1 named.plain.2.2
    (by omega) made
  refine ⟨t, y, run, importing.imported (by omega) (importing.can_of_room fresh.volume fresh.room ?_ ?_)⟩
  · simp only [MAX_LENGTH]
    omega
  · omega

end fresh

theorem Fresh.importsA {s : Fs BufferCache} (fresh : Fresh 80 s.flat) (free : numFreeSectors s = 5) :
    ∃ t x u, copyIn s [97] (some [65]) = (0, t) ∧ Imported t.flat [97] x [65] ∧ CanWrite t.flat x 3 ∧
      writeCommand t [ascii "write", [97], [66]] = some (0, u) ∧ contents u.flat x = [66, 0, 0] := by
  have named : FileName [97] := ⟨by decide, by decide, by decide, by decide, by decide⟩
  rw [numFreeSectors_eq] at free
  have needs : (createNeeds ((1 : Nat) + 1)).length = 1 := by decide +kernel
  obtain ⟨t, x, run, imported⟩ := @Fresh.imports _ _ [65] 80 fresh 5 free (by decide) named (by decide) (by decide)
    (by rw [List.length_singleton, needs]; decide)
  have can : CanWrite t x 3 := by
    have length : fileLen t x = 2 := by
      rw [← length_contents, imported.contents]
      rfl
    exact imported.inode.file.canWrite_within imported.deny (by decide) (by rw [length])
  obtain ⟨u, ran, bytes⟩ := @Imported.written t [97] x [65] imported (by decide) [[66]] (by decide) (by decide) can
  rw [← copyIn_flat] at run
  obtain ⟨done, rfl⟩ := Prod.mk.inj run
  rw [← writeCommand_flat, Option.map_eq_some_iff] at ran
  obtain ⟨v, wrote, flat⟩ := ran
  obtain ⟨zero, rfl⟩ := Prod.mk.inj flat
  refine ⟨(copyIn s [97] (some [65])).2, x, v.2, Prod.ext done rfl, imported, can, ?_, bytes⟩
  rw [← zero]
  exact wrote

theorem formatted_free : numFreeSectors (formatted 80) = 5 := by
  have fresh := formatted_fresh (show FormatFits 80 by decide +kernel)
  rw [numFreeSectors_eq, fresh.free_length]
  decide +kernel

/-- After an import the position is on the last byte, and so the next text takes its place. -/
theorem copyIn_not_appended (s : Fs BufferCache) {n : Nat} (vol : Volume s.flat n) {name : CString}
    (absent : getFileByFname s name = none) (proper : (0 : Byte) ∉ name) (single : (splitPathFilename name).2 ≠ dot)
    (double : (splitPathFilename name).2 ≠ dotDot) {bytes : List Byte} (nonempty : bytes ≠ [])
    (noNul : (0 : Byte) ∉ bytes) (fits : bytes.length + 1 ≤ MAX_LENGTH) {t : Fs BufferCache}
    (done : copyIn s name (some bytes) = (0, t)) {x : BlockSector}
    (bound : some ((splitPathFilename name).2, x) ∈ rootSlots t.flat) (whole : fileLen t.flat x = bytes.length + 1)
    {words : List CString} (some : words ≠ []) (room : bytes.length + (joined words).length + 1 ≤ MAX_LENGTH)
    (can : CanWrite t.flat x (bytes.length + (joined words).length + 1)) {r : Int} {u : Fs BufferCache}
    (written : writeCommand t (ascii "write" :: name :: words) = Option.some (r, u)) :
    getFileByFname t name ≠ Option.some ⟨x, bytes.length, false⟩ ∧
      ∀ k, contents u.flat x ≠ bytes ++ joined words ++ List.replicate k 0 := by
  have small : bytes.length + 1 < 2 ^ 31 := by
    simp only [MAX_LENGTH] at fits
    omega
  have run : copyIn s.flat name (Option.some bytes) = (0, t.flat) := by rw [← copyIn_flat, done, flatten_mk]
  obtain ⟨y, v, w, importing⟩ := vol.copyIn_importing absent proper single double small run
  obtain ⟨⟨m, volume⟩, listed⟩ := importing.listed
  obtain rfl := volume.bound bound listed
  have imported := importing.imported small (importing.can_of_whole whole)
  obtain ⟨z, ran, bytesNow⟩ := imported.written nonempty some room can
  rw [← writeCommand_flat, written, Option.map_some] at ran
  obtain rfl : u.flat = z := congrArg Prod.snd (Option.some.inj ran)
  refine ⟨fun same => ?_, fun k => ?_⟩
  · have position := congrArg File.pos (Option.some.inj (same.symm.trans imported.table))
    simp only at position
    omega
  · rw [bytesNow]
    exact dropLast_ne nonempty noNul _ _

theorem copyIn_not_appended_formatted : ∃ t x u, copyIn (formatted 80) [97] (some [65]) = (0, t) ∧
    writeCommand t [ascii "write", [97], [66]] = some (0, u) ∧
      getFileByFname t [97] ≠ some ⟨x, ([65] : List Byte).length, false⟩ ∧
        ∀ k, contents u.flat x ≠ [65] ++ joined [[66]] ++ List.replicate k 0 := by
  have general : ∀ s : Fs BufferCache, Fresh 80 s.flat → numFreeSectors s = 5 → ∃ t x u,
      copyIn s [97] (some [65]) = (0, t) ∧ writeCommand t [ascii "write", [97], [66]] = some (0, u) ∧
        getFileByFname t [97] ≠ some ⟨x, ([65] : List Byte).length, false⟩ ∧
          ∀ k, contents u.flat x ≠ [65] ++ joined [[66]] ++ List.replicate k 0 := by
    intro s fresh free
    obtain ⟨t, x, u, run, imported, can, wrote, -⟩ := fresh.importsA free
    have absent : getFileByFname s [97] = none := by
      rw [← getFileByFname_flat, getFileByFname, fresh.fileTable]
      rfl
    have whole : fileLen t.flat x = 2 := by
      rw [← length_contents, imported.contents]
      rfl
    exact ⟨t, x, u, run, wrote, @copyIn_not_appended s _ fresh.volume [97] absent (by decide) (by decide) (by decide) [65]
      (by decide) (by decide) (by decide) t run x imported.bound whole [[66]] (by decide) (by decide) can 0 u wrote⟩
  exact general _ (formatted_fresh (by decide +kernel)) formatted_free

/-- The imported "A" is gone when "B" has been written. -/
theorem copyIn_overwritten : ∃ t x u, copyIn (formatted 80) [97] (some [65]) = (0, t) ∧
    some ([97], x) ∈ rootSlots t.flat ∧ writeCommand t [ascii "write", [97], [66]] = some (0, u) ∧
      ¬∃ k, contents u.flat x = [65] ++ [66] ++ List.replicate k 0 := by
  have general : ∀ s : Fs BufferCache, Fresh 80 s.flat → numFreeSectors s = 5 → ∃ t x u,
      copyIn s [97] (some [65]) = (0, t) ∧ some ([97], x) ∈ rootSlots t.flat ∧
        writeCommand t [ascii "write", [97], [66]] = some (0, u) ∧
          ¬∃ k, contents u.flat x = [65] ++ [66] ++ List.replicate k 0 := by
    intro s fresh free
    obtain ⟨t, x, u, run, imported, -, wrote, bytes⟩ := fresh.importsA free
    refine ⟨t, x, u, run, imported.bound, wrote, ?_⟩
    rintro ⟨k, same⟩
    rw [bytes] at same
    exact absurd (List.cons.inj same).1 (by decide)
  exact general _ (formatted_fresh (by decide +kernel)) formatted_free

abbrev FILE_CREATION_ERROR : Int := 9

/-- An import that went well in part: the file is there, with a first part of the bytes of the host. -/
def Truncated (name : CString) (bytes : List Byte) (r : Int × Fs BufferCache) : Prop :=
  r.1 = 0 ∧ ∃ x part, some (name, x) ∈ rootSlots r.2.flat ∧ part ≠ [] ∧ part <+: bytes ∧ part <+: contents r.2.flat x

/-- An import that is larger than the free space is refused: a file that fills it has no room for its inode. -/
theorem copyIn_refused (s : Fs BufferCache) {n : Nat} (mounted : Mounted s.flat n) {name : CString} (named : NameOk name)
    (flat : slash ∉ name) (absent : name ∉ keys (rootSlots s.flat))
    (room : freeSlot (rootSlots s.flat) < (rootSlots s.flat).length) (int : numFreeSectors s * 512 < 2 ^ 31)
    {bytes : List Byte} (large : numFreeSectors s * 512 < bytes.length + 1) :
    (copyIn s name (some bytes)).1 = FILE_CREATION_ERROR ∧
      rootSlots (copyIn s name (some bytes)).2.flat = rootSlots s.flat := by
  have size : importSize s bytes = ((numFreeSectors s * 512 : Nat) : Int) := by
    have := importSize_eq mounted int bytes
    rw [Nat.min_eq_left (by exact large.le)] at this
    exact this
  have short := named.2
  simp only [NAME_MAX] at short
  have create : fsutilCreate s name (importSize s bytes) = filesysCreate s name (numFreeSectors s * 512 : Nat) false := by
    rw [size, fsutilCreate, if_neg (by have := named.1; omega), offsetOf_eq (by omega) (by omega)]
  have failed : (filesysCreate s name (numFreeSectors s * 512 : Nat) false).1 = false := by
    rw [← Bool.not_eq_true, (filesysCreate_room s mounted named flat absent room int).1]
    omega
  obtain ⟨new, creation⟩ := filesysCreate_creation mounted name ((numFreeSectors s * 512 : Nat) : Int)
  rw [copyIn_some, create, if_pos failed]
  exact ⟨rfl, (creation.failed failed).1⟩

/-- No import that is too large is cut to what fits. -/
theorem copyIn_not_truncated (s : Fs BufferCache) {n : Nat} (mounted : Mounted s.flat n) {name : CString}
    (named : NameOk name) (flat : slash ∉ name) (absent : name ∉ keys (rootSlots s.flat))
    (room : freeSlot (rootSlots s.flat) < (rootSlots s.flat).length) (int : numFreeSectors s * 512 < 2 ^ 31)
    {bytes : List Byte} (large : numFreeSectors s * 512 < bytes.length + 1) :
    ¬Truncated name bytes (copyIn s name (some bytes)) := by
  rintro ⟨went, -⟩
  have refused := (copyIn_refused s mounted named flat absent room int large).1
  rw [went] at refused
  exact absurd refused (by decide)

theorem copyIn_not_truncated_formatted :
    ¬Truncated [97] (List.replicate 3000 65) (copyIn (formatted 80) [97] (some (List.replicate 3000 65))) := by
  have general : ∀ s : Fs BufferCache, Fresh 80 s.flat → numFreeSectors s = 5 →
      ¬Truncated [97] (List.replicate 3000 65) (copyIn s [97] (some (List.replicate 3000 65))) := by
    intro s fresh free
    exact copyIn_not_truncated s fresh.mounted (by decide) (by decide) (fresh.absent _) fresh.room (by omega)
      (by rw [List.length_replicate, free]; decide)
  exact general _ (formatted_fresh (by decide +kernel)) formatted_free

/-- With 5 sectors free, 2560 bytes and their terminator are refused. -/
theorem copyIn_fills_nothing : ∃ n, Mounted (formatted 80).flat n ∧ numFreeSectors (formatted 80) = 5 ∧
    [97] ∉ keys (rootSlots (formatted 80).flat) ∧
      freeSlot (rootSlots (formatted 80).flat) < (rootSlots (formatted 80).flat).length ∧
        ¬Truncated [97] (List.replicate 2560 65) (copyIn (formatted 80) [97] (some (List.replicate 2560 65))) := by
  have general : ∀ s : Fs BufferCache, Fresh 80 s.flat → numFreeSectors s = 5 →
      ¬Truncated [97] (List.replicate 2560 65) (copyIn s [97] (some (List.replicate 2560 65))) := by
    rintro s fresh free ⟨went, -⟩
    have refused := (@copyIn_refused s _ fresh.mounted [97] (by decide) (by decide) (fresh.absent _) fresh.room (by omega)
      (List.replicate 2560 65) (by rw [List.length_replicate, free]; decide)).1
    rw [went] at refused
    exact absurd refused (by decide)
  have fresh := formatted_fresh (show FormatFits 80 by decide +kernel)
  exact ⟨_, fresh.mounted, formatted_free, fresh.absent _, fresh.room, general _ fresh formatted_free⟩

end ShellOs.FileSystem
