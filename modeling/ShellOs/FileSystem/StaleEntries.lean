import ShellOs.FileSystem.CopyOut
import ShellOs.FileSystem.Cursors
import ShellOs.FileSystem.Commands
import ShellOs.FileSystem.Exhaustion
import ShellOs.FileSystem.Room

/-! `copy_in` and then `copy_out`: the text comes out as it went in, as long as the table of open files does not know the
new name already. It may, since `rm` closes a file by its path as it is typed, and removes it by the last component. -/

namespace ShellOs.FileSystem
open Lib GrowArray SlotMap

section stale

variable {s t : FlatFs} {name : CString} {f : File} {bytes : List Byte} {n : Nat}

theorem Volume.Importing.freed {x : BlockSector} {u : FlatFs} {r : Int × FlatFs} (vol : Volume s n)
    (importing : Volume.Importing s t name bytes x u r) : t.usedFreed = s.usedFreed := by
  obtain ⟨new, creation⟩ := filesysCreate_effect vol.mounted name (importSize s bytes)
  obtain ⟨m, opened⟩ := importing.opened
  obtain ⟨taken, effect⟩ := importing.write
  rw [importing.result]
  exact (congrArg Fs.usedFreed effect.took.rest :).trans (opened.freed.trans creation.freed)

theorem Creation.unlisted {size : Int} {r : Bool × FlatFs} {new : List BlockSector} (creation : Creation s name size r new)
    (mounted : Mounted s n) {x : BlockSector} (absent : s.findInode x = none) : r.2.findInode x = none := by
  by_cases root : x = ROOT_DIR_SECTOR
  · rw [root] at absent ⊢
    have idle : s.cwd = none := by
      rw [← Option.not_isSome_iff_eq_none]
      intro held
      have listed := mounted.handle.listed held
      rw [absent] at listed
      cases listed
    exact (creation.shut ⟨idle, absent⟩).2
  · rw [creation.others x root]
    exact absent

theorem Creation.first {size : Int} {r : Bool × FlatFs} {new : List BlockSector} (creation : Creation s name size r new)
    (made : r.1 = true) (proper : (0 : Byte) ∉ name) (vol : Volume r.2 n) {x : BlockSector}
    (bound : some (name, x) ∈ rootSlots r.2) : ∃ rest, freeSectors s.freeMap = x :: rest := by
  obtain ⟨y, own, root, split, all, -, -, -, -, -, -, slots⟩ := creation.made made
  have second : some (name, y) ∈ rootSlots r.2 := by
    rw [slots proper]
    exact List.mem_of_getElem? (put_freeSlot _ _)
  rw [vol.bound bound second, all, split]
  exact ⟨_, rfl⟩

/-- A new file has a name that the table knows as that of a file whose inode has been freed: that inode is written. -/
theorem Mounted.copyIn_stale (mounted : Mounted s n) (found : getFileByFname s name = some f)
    (freed : s.findInode f.inode = none) (made : (fsutilCreate s name (importSize s bytes)).1 = true) :
    (copyIn s name (some bytes)).1 = 0 ∧ (copyIn s name (some bytes)).2.usedFreed = true := by
  have same := fsutilCreate_made made
  obtain ⟨new, creation⟩ := filesysCreate_effect mounted name (offsetOf (importSize s bytes))
  rw [← same] at creation
  have table : getFileByFname (fsutilCreate s name (importSize s bytes)).2 name = some f := by
    rw [getFileByFname, creation.fileTable]
    exact found
  have gone := creation.unlisted mounted freed
  rw [copyIn_some]
  simp only [made, Bool.true_eq_false, if_false]
  generalize (fsutilCreate s name (importSize s bytes)).2 = u at table gone
  have run : fsutilWrite u name (fun i => bytes.getD i 0) (bytes.length + 1) =
      let w := fileWrite u f (fun i => bytes.getD i 0) (offsetOf (bytes.length + 1))
      (w.1, FileSystem.setFile w.2.2 name w.2.1) := by
    simp only [fsutilWrite, openNamed_held table]
  have some := fileWrite_nonneg u f (fun i => bytes.getD i 0) (offsetOf (bytes.length + 1))
  have used : (u.use f.inode).usedFreed = true := by
    rw [Fs.use, gone]
    rfl
  rw [run]
  refine ⟨if_neg (by simp only; omega), ?_⟩
  exact (blind_usedFreed.inodeWriteAt (u.use f.inode) f.inode _ _ _).trans used

end stale

section copies

variable {s t u : Fs BufferCache} {n : Nat} {name : CString} {bytes : List Byte}

/-- What is copied in is copied out, byte for byte, whatever was read and where it was sought before, and the file stands
where it did. No inode is used that has been freed. -/
def CopiesBack (s : Fs BufferCache) (name : CString) (bytes : List Byte) : Prop :=
  ∀ t u, copyIn s name (some bytes) = (0, t) → Run (fun _ _ => True) (LookOp.step name) t u →
    u.usedFreed = false ∧ ∃ f v, copyOut u name true = (0, some bytes, v) ∧ getFileByFname u name = some f ∧
      getFileByFname v name = some f ∧ v.usedFreed = false

/-- The name is new, valid, and there is room for the file: a slot of the directory, an inode and all that the text and its
NUL need. -/
structure CanImport (s : Fs BufferCache) (name : CString) (bytes : List Byte) : Prop where
  proper : (0 : Byte) ∉ name
  short : name.length < 255
  valid : NameOk (splitPathFilename name).2
  single : (splitPathFilename name).2 ≠ dot
  double : (splitPathFilename name).2 ≠ dotDot
  absent : (splitPathFilename name).2 ∉ keys (rootSlots s.flat)
  slot : freeSlot (rootSlots s.flat) < (rootSlots s.flat).length
  fits : bytes.length + 1 ≤ MAX_LENGTH
  room : 1 + (createNeeds (bytes.length + 1)).length ≤ numFreeSectors s

theorem CanImport.copies (can : CanImport s name bytes) (vol : Volume s.flat n) (intact : s.usedFreed = false)
    (noNul : (0 : Byte) ∉ bytes) (unknown : getFileByFname s name = none) : CopiesBack s name bytes := by
  intro t u done run
  have fits := can.fits
  have room := can.room
  have small : bytes.length + 1 < 2 ^ 31 := by
    simp only [MAX_LENGTH] at fits
    omega
  have flat : copyIn s.flat name (some bytes) = (0, t.flat) := by rw [← copyIn_flat, done, flatten_mk]
  obtain ⟨x, v, w, importing⟩ := vol.copyIn_importing unknown can.proper can.single can.double small flat
  have imported := importing.imported small
    (importing.can_of_room vol can.slot fits (by rw [numFreeSectors_eq] at room; exact room))
  obtain ⟨⟨f, opened⟩, kept⟩ := imported.openFile.run run
  obtain ⟨z, out, table, same⟩ := opened.copyOut
  rw [copyOut_flat, untilNul_text noNul] at out
  obtain ⟨went, rest⟩ := Prod.mk.inj out
  obtain ⟨wrote, rfl⟩ := Prod.mk.inj rest
  have unused : u.flat.usedFreed = false := kept.trans ((importing.freed vol).trans intact)
  exact ⟨unused, f, (copyOut u name true).2.2, Prod.ext went (Prod.ext wrote rfl), opened.table, table, same.trans unused⟩

theorem indexSectors_le {d e : Nat} (le : d ≤ e) : indexSectors d ≤ indexSectors e := by
  unfold indexSectors
  split_ifs <;> omega

theorem createNeeds_le {size total : Nat} (le : size ≤ total) (fits : total ≤ MAX_LENGTH) :
    (createNeeds size).length ≤ (createNeeds total).length := by
  simp only [MAX_LENGTH] at fits
  rw [createNeeds_length (by omega) (by simp only [MAX_SECTORS]; omega),
    createNeeds_length (by omega) (by simp only [MAX_SECTORS]; omega)]
  have sectors : (size + 511) / 512 ≤ (total + 511) / 512 := by omega
  exact Nat.add_le_add sectors (indexSectors_le sectors)

theorem CanImport.made (can : CanImport s name bytes) (vol : Volume s.flat n) (positive : 0 ≤ importSize s bytes) :
    (fsutilCreate s name (importSize s bytes)).1 = true := by
  have fits := can.fits
  have room := can.room
  have most := importSize_le s bytes
  obtain ⟨size, whole⟩ := Int.eq_ofNat_of_zero_le positive
  simp only [MAX_LENGTH] at fits
  have some : name.length ≠ 0 := by
    intro empty
    have nothing := List.eq_nil_of_length_eq_zero empty
    have := can.valid.1
    rw [nothing] at this
    exact absurd this (by decide)
  have needs := @createNeeds_le size (bytes.length + 1) (by omega) can.fits
  have short := can.short
  rw [fsutilCreate, if_neg (by omega), importSize_offset s (by omega), whole, filesysCreate_done vol.mounted]
  refine ⟨(sizeOk_iff (by omega)).mpr (by simp only [MAX_SECTORS]; omega), can.valid, can.absent,
    Or.inl (freeSlot_inside vol.mounted can.slot), ?_⟩
  rw [createMissing_room vol.mounted can.slot, List.length_cons]
  rw [numFreeSectors_eq] at room
  push_cast at needs
  omega

/-- An import comes out again exactly if the table does not know its name, or if it is refused because the space that is
free, as an `int` of bytes, is negative. -/
theorem copyIn_copyOut_iff (vol : Volume s.flat n) (intact : s.usedFreed = false) (can : CanImport s name bytes)
    (noNul : (0 : Byte) ∉ bytes)
    (freed : ∀ f, getFileByFname s name = some f → s.findInode f.inode = none) :
    CopiesBack s name bytes ↔ getFileByFname s name = none ∨ importSize s bytes < 0 := by
  constructor
  · intro copies
    by_contra stale
    obtain ⟨known, positive⟩ := not_or.mp stale
    obtain ⟨f, found⟩ := Option.ne_none_iff_exists'.mp known
    have made := can.made vol (Int.not_lt.mp positive)
    have flat : (fsutilCreate s.flat name (importSize s.flat bytes)).1 = true :=
      (congrArg Prod.fst (fsutilCreate_flat s name (importSize s bytes))).symm.trans made
    obtain ⟨done, used⟩ := vol.mounted.copyIn_stale (by rw [getFileByFname_flat]; exact found) (freed f found) flat
    rw [← copyIn_flat] at done used
    obtain ⟨unused, -⟩ := copies (copyIn s name (some bytes)).2 _ (Prod.ext done rfl) .start
    exact absurd (unused.symm.trans used) (by decide)
  · rintro (unknown | negative)
    · exact can.copies vol intact noNul unknown
    · intro t u done
      have fits := can.fits
      simp only [MAX_LENGTH] at fits
      have least := @importSize_offset _ s bytes (by omega)
      have refused : (fsutilCreate s name (importSize s bytes)).1 = false := by
        rw [Bool.eq_false_iff]
        intro made
        rw [fsutilCreate_made made, filesysCreate_done vol.mounted, least] at made
        obtain ⟨⟨low, -⟩, -⟩ := made
        omega
      rw [copyIn_some, if_pos refused] at done
      cases done

/-- An "A" that is copied in as the first file of a new file system. -/
theorem copiesBack_formatted : CopiesBack (formatted 80) [97] [65] := by
  have general : ∀ s : Fs BufferCache, Fresh 80 s.flat → numFreeSectors s = 5 → CopiesBack s [97] [65] := by
    intro s fresh free
    have unknown : getFileByFname s [97] = none := by
      rw [← getFileByFname_flat, getFileByFname, fresh.fileTable]
      rfl
    have needs : (createNeeds ((1 : Nat) + 1)).length = 1 := by decide +kernel
    have can : CanImport s [97] [65] := ⟨by decide, by decide, by decide, by decide, by decide, fresh.absent _, fresh.room,
      by decide, by rw [List.length_singleton, needs, free]; decide⟩
    refine (copyIn_copyOut_iff fresh.volume fresh.freed can (by decide) fun f found => ?_).mpr (Or.inl unknown)
    rw [unknown] at found
    cases found
  exact general _ (formatted_fresh (by decide +kernel)) formatted_free

end copies

section rm

variable {s t : FlatFs} {x : BlockSector}

theorem filesysRemove_slash (shut : Shut s) {name : CString} (flat : Flat name) (split : splitPathFilename (slash :: name) = ([slash], name)) :
    filesysRemove s (slash :: name) = filesysRemove s name := by
  have root : dirOpenPath s [slash] = dirOpenPath s [] := by
    simp only [dirOpenPath, shut.1]
    rfl
  rw [filesysRemove, filesysRemove, split, flat.split, root]

/-- What a file leaves that is made, opened and removed, by another path. -/
structure LeftStale (s t : FlatFs) (pos : Int) (x : BlockSector) : Prop where
  volume : ∃ n, Volume t n
  shut : Shut t
  slots : bindings (rootSlots t) = []
  room : freeSlot (rootSlots t) < (rootSlots t).length
  table : getFileByFname t [97] = some ⟨x, pos, false⟩
  gone : t.findInode x = none
  bits : SameBits s.freeMap t.freeMap
  first : ∃ rest, freeSectors s.freeMap = x :: rest
  unused : t.usedFreed = false

theorem Fresh.leavesStale (fresh : Fresh 80 s) (made : (filesysCreate s [97] 512 false).1 = true) {pos : Int} (low : 0 ≤ pos)
    (high : pos < 2 ^ 31) :
    ∃ x, LeftStale s (fsutilRm (fsutilSeek (fsutilCreate s [97] 512).2 [97] pos).2 [slash, 97]).2 pos x := by
  have flat : Flat [97] := fileName_a.toFlat
  have create : fsutilCreate s [97] 512 = filesysCreate s [97] 512 false := by
    rw [fsutilCreate, if_neg (by decide), show offsetOf 512 = 512 by decide]
  obtain ⟨positioned, -⟩ := @Positioned.fsutilCreate s [97] fresh.positioned (by decide) (by decide) (by decide) 512
  have sought := positioned.fsutilSeek flat low high
  rw [create] at positioned sought ⊢
  obtain ⟨n, x, just⟩ := fresh.createsA made
  obtain ⟨new, creation⟩ := filesysCreate_effect fresh.mounted [97] 512
  rw [show (splitPathFilename [97]).2 = [97] by decide] at creation
  have took := OnlyTook.creates fresh.mounted creation made (by decide) fresh.room just.bound
  have first := creation.first made (by decide) just.volume just.bound
  have freed := creation.freed.trans fresh.freed
  generalize (filesysCreate s [97] 512 false).2 = c at *
  have unknown : getFileByFname c [97] = none := by
    rw [getFileByFname, just.fileTable]
    rfl
  obtain ⟨t, opened⟩ := just.volume.opensNamed unknown ⟨by decide, by decide, by decide⟩ just.bound
  have seek : (fsutilSeek c [97] pos).2 = setFile t [97] (fileSeek (fileOpen x) pos) := by
    simp only [fsutilSeek, opened.run]
  rw [seek] at sought ⊢
  have tookT := took.rehandled (just.volume.file x (mem_rootFiles.mpr ⟨_, just.bound⟩)).1 just.volume.mounted.dir.fine
    opened.rehandled
  have entries : (setFile t [97] (fileSeek (fileOpen x) pos)).fileTable = [⟨[97], ⟨x, pos, false⟩⟩] := by
    simp only [setFile, opened.entries, just.fileTable]
    rfl
  have unused : (setFile t [97] (fileSeek (fileOpen x) pos)).usedFreed = false := opened.freed.trans freed
  have tookU : OnlyTook s (setFile t [97] (fileSeek (fileOpen x) pos)) x :=
    ⟨tookT.size, tookT.used, tookT.fresh, tookT.exact⟩
  obtain ⟨volU, slotsU, -⟩ := opened.volume.tabled (setFile t [97] (fileSeek (fileOpen x) pos)).fileTable
  have bound : some ([97], x) ∈ rootSlots (setFile t [97] (fileSeek (fileOpen x) pos)) := by
    rw [show rootSlots (setFile t [97] (fileSeek (fileOpen x) pos)) = rootSlots t from slotsU, opened.slots]
    exact just.bound
  have binds : bindings (rootSlots (setFile t [97] (fileSeek (fileOpen x) pos))) = [([97], x)] := by
    rw [show rootSlots (setFile t [97] (fileSeek (fileOpen x) pos)) = rootSlots t from slotsU, opened.slots, just.slots]
  change Volume (setFile t [97] (fileSeek (fileOpen x) pos)) n at volU
  generalize setFile t [97] (fileSeek (fileOpen x) pos) = u at *
  have absent : getFileByFname u [slash, 97] = none := by
    rw [getFileByFname, entries]
    rfl
  have remove : (fsutilRm u [slash, 97]).2 = (filesysRemove u [97]).2 := by
    simp only [fsutilRm, removeFromFileTable, absent]
    rw [filesysRemove_slash sought.ok.shut flat (by decide)]
  rw [remove]
  have straight : OnlyDots (splitPathFilename [97]).1 := fun token member => by cases member
  obtain ⟨k, y, slot, -, unlinked⟩ := filesysRemove_effect volU.mounted straight (mem_keys.mpr ⟨x, bound⟩)
    fun y there => volU.removable (mem_rootFiles.mpr ⟨_, there⟩)
  obtain rfl := volU.bound bound (List.mem_of_getElem? slot)
  obtain ⟨volume, perm, -⟩ := volU.removes slot unlinked
  obtain ⟨shut, same⟩ := filesysRemove_shut volU sought.ok.shut.quiet fileName_a bound
  obtain ⟨-, bits⟩ := tookU.removes fresh.mounted.dir.fine.small volU straight bound
  refine ⟨x, ⟨n, volume⟩, shut, ?_, ?_, ?_, unlinked.gone, bits, first, same.trans unused⟩
  · rw [binds, List.perm_comm, List.perm_singleton] at perm
    exact (List.cons.inj perm).2
  · apply freeSlot_lt (j := k)
    rw [unlinked.slots, List.getElem?_set_self (List.getElem?_eq_some_iff.mp slot).1]
  · rw [getFileByFname, unlinked.fileTable, entries]
    rfl

theorem LeftStale.loses (stale : LeftStale s t (2 ^ 31 - 1) x) (few : (freeSectors s.freeMap).length = 5) :
    let r := copyIn t [97] (some [65])
    r.1 = 0 ∧ r.2.usedFreed = true ∧ (copyOut r.2 [97] true).2.1 = some [] := by
  obtain ⟨n, vol⟩ := stale.volume
  have left : (freeSectors t.freeMap).length = 5 := (congrArg List.length stale.bits.free).trans few
  have free : numFreeSectors t = 5 := (numFreeSectors_eq t).trans left
  have size : importSize t [65] = 2 := by
    rw [importSize_eq vol.mounted (by rw [free]; decide), free]
    decide
  have create : fsutilCreate t [97] (importSize t [65]) = filesysCreate t [97] 2 false := by
    rw [fsutilCreate, if_neg (by decide), size, show offsetOf 2 = 2 by decide]
  obtain ⟨new, creation⟩ := filesysCreate_effect vol.mounted [97] 2
  rw [show (splitPathFilename [97]).2 = [97] by decide] at creation
  have made : (fsutilCreate t [97] (importSize t [65])).1 = true := by
    rw [create]
    refine creation.done.mpr ⟨by decide, by decide, ?_, Or.inl (freeSlot_inside vol.mounted stale.room), ?_⟩
    · rw [keys, stale.slots]
      exact List.not_mem_nil
    · rw [createMissing_room vol.mounted stale.room, List.length_cons, left]
      decide +kernel
  obtain ⟨done, used⟩ := vol.mounted.copyIn_stale stale.table stale.gone made
  obtain ⟨⟨m, volume⟩, -, newFile, -⟩ := vol.creates creation (by decide)
  obtain ⟨z, file⟩ := newFile (create ▸ made)
  have bound : some ([97], z) ∈ rootSlots (filesysCreate t [97] 2 false).2 := by
    rw [file.slots]
    exact List.mem_of_getElem? (put_freeSlot _ _)
  obtain rfl : z = x := by
    obtain ⟨rest, here⟩ := creation.first (create ▸ made) (by decide) volume bound
    obtain ⟨old, there⟩ := stale.first
    rw [stale.bits.free, there] at here
    exact (List.cons.inj here).1.symm
  have table : getFileByFname (filesysCreate t [97] 2 false).2 [97] = some ⟨z, 2 ^ 31 - 1, false⟩ := by
    rw [getFileByFname, creation.fileTable]
    exact stale.table
  -- the write of two bytes at that position overflows, and so the new file stays blank
  let w := (filesysCreate t [97] 2 false).2.use z
  have same := Rehandled.use (filesysCreate t [97] 2 false).2 z
  obtain ⟨here, -, kept, -⟩ := same.file volume.mounted.dir.fine file.file
  have blank : contents w z = [0, 0] := kept.trans (file.blank.trans (by decide))
  have none := inodeWriteAt_overflow (volume.mounted.handle.use z).nodup here (o := 2 ^ 31 - 1) (n := 2) (by decide)
    (by decide) (by decide)
  have run : (copyIn t [97] (some [65])).2 = setFile w [97] ⟨z, 2 ^ 31 - 1 + (0 - 2), false⟩ := by
    rw [copyIn_some]
    simp only [made, Bool.true_eq_false, if_false]
    rw [create]
    simp only [fsutilWrite, openNamed_held table, fileWrite]
    rw [show offsetOf (((List.length [(65 : Byte)] : Nat) : Int) + 1) = (2 : Nat) by decide,
      show (2 : Int) ^ 31 - 1 = ((2 ^ 31 - 1 : Nat) : Int) by decide, none]
  have opened : OpenFile w [97] ⟨z, 2 ^ 31 - 1, false⟩ [0, 0] :=
    ⟨(same.ok volume.mounted.dir.fine).1, here, Fs.use_use _ z, by rw [getFileByFname, Fs.use_fileTable]; exact table, blank⟩
  obtain ⟨v, out, -, -⟩ := (opened.setFile (2 ^ 31 - 1 + (0 - 2))).copyOut
  refine ⟨done, used, ?_⟩
  rw [run]
  exact congrArg (fun r => r.2.1) out

theorem LeftStale.copiesNothing {s t : Fs BufferCache} (stale : LeftStale s.flat t.flat (2 ^ 31 - 1) x)
    (few : numFreeSectors s = 5) : CanImport t [97] [65] ∧ (copyIn t [97] (some [65])).1 = 0 ∧
      (copyIn t [97] (some [65])).2.usedFreed = true ∧ (copyOut (copyIn t [97] (some [65])).2 [97] true).2.1 = some [] := by
  rw [numFreeSectors_eq] at few
  obtain ⟨done, used, lost⟩ := stale.loses few
  rw [← copyIn_flat] at done used lost
  simp only [flatten_fst, flatten_snd, copyOut_flat] at done used lost
  have needs : (createNeeds ((1 : Nat) + 1)).length = 1 := by decide +kernel
  refine ⟨⟨by decide, by decide, by decide, by decide, by decide, ?_, stale.room, by decide, ?_⟩, done, used, lost⟩
  · rw [keys, stale.slots]
    exact List.not_mem_nil
  · rw [List.length_singleton, needs, numFreeSectors_eq, stale.bits.free, few]
    decide

/-- After `create a 512`, `seek a 2147483647` and `rm /a`, the text "A" is copied in as "a", and an empty one comes out. -/
theorem copyIn_stale_loses :
    let t := (fsutilRm (fsutilSeek (fsutilCreate (formatted 80) [97] 512).2 [97] (2 ^ 31 - 1)).2 [slash, 97]).2
    CanImport t [97] [65] ∧ (copyIn t [97] (some [65])).1 = 0 ∧ (copyIn t [97] (some [65])).2.usedFreed = true ∧
      (copyOut (copyIn t [97] (some [65])).2 [97] true).2.1 = some [] := by
  have general : ∀ s : Fs BufferCache, Fresh 80 s.flat → numFreeSectors s = 5 → (filesysCreate s [97] 512 false).1 = true →
      ∃ x, LeftStale s.flat (fsutilRm (fsutilSeek (fsutilCreate s [97] 512).2 [97] (2 ^ 31 - 1)).2 [slash, 97]).2.flat
        (2 ^ 31 - 1) x := by
    intro s fresh free made
    have flat : (filesysCreate s.flat [97] 512 false).1 = true := by
      rw [← filesysCreate_flat]
      exact made
    obtain ⟨x, stale⟩ := @Fresh.leavesStale s.flat fresh flat (2 ^ 31 - 1) (by decide) (by decide)
    rw [← fsutilCreate_flat, flatten_snd, ← fsutilSeek_flat, flatten_snd, ← fsutilRm_flat, flatten_snd] at stale
    exact ⟨x, stale⟩
  have fresh := formatted_fresh (show FormatFits 80 by decide +kernel)
  obtain ⟨x, stale⟩ := general _ fresh formatted_free (formatted_creates (by decide) (by decide))
  exact stale.copiesNothing formatted_free

end rm

end ShellOs.FileSystem
