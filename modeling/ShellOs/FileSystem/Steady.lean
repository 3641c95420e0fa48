import ShellOs.FileSystem.Defragment
import ShellOs.FileSystem.Exhaustion

/-! What the commands leave alone for the next process: the free map's inode, on the disk and in memory. -/

namespace ShellOs.FileSystem
open Lib BlockTree SlotMap

/-- The free map's inode is where and as it was, and its file still holds the bits. -/
structure Steady (s t : FlatFs) : Prop where
  zero : t.cache 0 = s.cache 0
  map : t.findInode FREE_MAP_SECTOR = s.findInode FREE_MAP_SECTOR
  file : t.freeMapFile = s.freeMapFile
  size : t.freeMap.bitCnt = s.freeMap.bitCnt
  synced : Synced s → Synced t

namespace Steady

variable {s t u : FlatFs}

theorem refl (s : FlatFs) : Steady s s := ⟨rfl, rfl, rfl, rfl, id⟩

theorem trans (early : Steady s t) (late : Steady t u) : Steady s u where
  zero := late.zero.trans early.zero
  map := late.map.trans early.map
  file := late.file.trans early.file
  size := late.size.trans early.size
  synced := fun synced => late.synced (early.synced synced)

theorem of_change {touched : List BlockSector} (change : Change s t touched) (zero : t.cache 0 = s.cache 0)
    (map : t.findInode FREE_MAP_SECTOR = s.findInode FREE_MAP_SECTOR) : Steady s t :=
  ⟨zero, map, change.freeMapFile, change.size, change.synced⟩

theorem tabled (s : FlatFs) (entries : List FileTableEntry) : Steady s { s with fileTable := entries } :=
  ⟨rfl, rfl, rfl, rfl, id⟩

end Steady

section effects

variable {s t : FlatFs} {n k : Nat} {name : CString} {x : BlockSector} {f : File}

theorem Rehandled.steady (same : Rehandled s t) (vol : Volume s n) : Steady s t := by
  obtain ⟨f, held, inode⟩ := vol.mounted.map
  have map := same.freeMap f held
  rw [inode] at map
  exact .of_change (same.change vol.mounted.dir.fine) (by rw [same.cache]) map

theorem Unlinked.steady (unlinked : Unlinked s t x n k) (vol : Volume s n) (listed : x ∈ rootFiles s) : Steady s t :=
  .of_change unlinked.change unlinked.zero
    (unlinked.others _ (vol.file _ listed).1.nonzero.symm (by decide))

/-- What is created or written needs no index block at the point where the free map runs out. -/
def Spares (s : FlatFs) (needs : List BlockKind) : Prop := needs[(freeSectors s.freeMap).length]? ≠ some .index

theorem Creation.steady {size : Int} {r : Bool × FlatFs} {new : List BlockSector} (creation : Creation s name size r new)
    (spares : Spares s (createMissing s name size)) : Steady s r.2 :=
  .of_change creation.change (creation.zero.trans (if_neg spares)) (creation.others _ (by decide))

theorem fsutilCreate_steady (vol : Volume s n) (path : CString) (size : Int)
    (spares : Spares s (createMissing s (splitPathFilename path).2 (offsetOf size))) :
    Steady s (fsutilCreate s path size).2 := by
  unfold fsutilCreate
  split
  next => exact .refl s
  next =>
    obtain ⟨new, creation⟩ := filesysCreate_effect vol.mounted path (offsetOf size)
    exact creation.steady spares

theorem inodeWriteAt_steady (vol : Volume s n) (held : FileOp.Held s x) (some : 0 < k) {o : Nat} (small : o + k < 2 ^ 31)
    (buffer : Nat → Byte) (spares : Spares s (writeNeeds s x (o + k))) : Steady s (inodeWriteAt s x buffer k o).2 := by
  have fine := vol.mounted.dir.fine
  have file := (vol.file x held.1).1
  have foreign := vol.foreign (List.mem_cons_of_mem _ held.1)
  obtain ⟨new, effect⟩ := inodeWriteAt_effect fine file held.2 foreign some small buffer
  have zero := inodeWriteAt_sectorZero fine file held.2 foreign small buffer
  rw [if_neg spares] at zero
  exact .of_change (effect.took.change fine) zero (effect.handles.others _ file.nonzero.symm)

theorem fileWrite_steady (vol : Volume s n) (held : FileOp.Held s f.inode) (inside : 0 ≤ f.pos) (high : f.pos < 2 ^ 31)
    (some : 0 < k) (small : k < 2 ^ 31) (buffer : Nat → Byte)
    (spares : Spares s (writeNeeds s f.inode (f.pos.toNat + k))) : Steady s (fileWrite s f buffer k).2.2 := by
  obtain ⟨p, place⟩ := Int.eq_ofNat_of_zero_le inside
  rw [place] at high
  rw [place, Int.toNat_natCast] at spares
  simp only [fileWrite, Fs.use_open held.2, place]
  by_cases inRange : p + k < 2 ^ 31
  · exact inodeWriteAt_steady vol held some inRange _ spares
  · rw [inodeWriteAt_overflow vol.mounted.handle.nodup (vol.file _ held.1).1 (by omega) small (by omega)]
    exact .refl s

end effects

section scan

variable {s : FlatFs} {n k : Nat} {dir : Dir} {β : Type} {body : β → FlatFs → CString → β × FlatFs}
  {inv : β → FlatFs → Prop}

/-- What a scan of the root directory asks of a turn: it leaves the scan where it was, and the free map's inode alone. -/
def Settles (body : β → FlatFs → CString → β × FlatFs) (inv : β → FlatFs → Prop) : Prop :=
  ∀ acc u dir k name x, inv acc u → dirAt u dir = dir → Before u dir (k + 1) →
    (rootSlots u)[k]? = some (some (name, x)) →
    Steady u (body acc u name).2 ∧ inv (body acc u name).1 (body acc u name).2 ∧
      Before (body acc u name).2 dir (k + 1) ∧ (rootSlots (body acc u name).2).length = (rootSlots u).length

theorem whileReaddir_steady (volume : ∀ acc u, inv acc u → Volume u n) (current : ∀ acc u, inv acc u → u.cwd.isSome)
    (moves : ∀ acc u dir pos, inv acc u → inv acc (setDir u (moved u dir pos))) (turn : Settles body inv) {acc : β}
    (held : inv acc s) (here : dir.inode = ROOT_DIR_SECTOR) (before : Before s dir k) (inside : k ≤ (rootSlots s).length)
    (calls : Nat) :
    let r := whileReaddir body calls acc s dir
    Steady s r.2.2 ∧ inv r.1 r.2.2 ∧ r.2.1.inode = ROOT_DIR_SECTOR := by
  induction calls generalizing s dir k acc with
  | zero => exact ⟨.refl s, held, here⟩
  | succ calls ih =>
    have vol := volume _ _ held
    have move : ∀ pos, Steady s (setDir s (moved s dir pos)) ∧ rootSlots (setDir s (moved s dir pos)) = rootSlots s := by
      intro pos
      have only := setDir_moved vol.mounted.handle dir pos
      exact ⟨only.rehandled.steady vol, (vol.only only).2.1⟩
    have ready := Fs.use_open (vol.mounted.handle.listed (current _ _ held))
    rcases dirReaddir_spec vol.mounted.dir ready before inside with ⟨-, run, -⟩ | ⟨j, name, x, -, slot, -, run, next⟩
    · simp only [whileReaddir, run]
      exact ⟨(move _).1, moves _ _ _ _ held, before.1⟩
    · obtain ⟨first, slots⟩ := move (36 * (j + 2) : Nat)
      have small := (List.getElem?_eq_some_iff.mp slot).1
      rw [← slots] at slot
      obtain ⟨second, kept, place, length⟩ := turn acc _ _ j name x (moves _ _ _ _ held) (dirAt_setDir _ _) next slot
      simp only [whileReaddir, run]
      have there : (moved s dir (36 * (j + 2) : Nat)).inode = ROOT_DIR_SECTOR := before.1
      obtain ⟨third, last, root⟩ := ih kept there place (by rw [length, slots]; omega)
      exact ⟨first.trans (second.trans third), last, root⟩

end scan

section opening

variable {s t : FlatFs} {n k : Nat} {name : CString} {x : BlockSector} {f : File}

theorem Volume.openNamed_steady (vol : Volume s n) (absent : getFileByFname s name = none)
    (plain : Plain (splitPathFilename name).2) (bound : some ((splitPathFilename name).2, x) ∈ rootSlots s) :
    ∃ t, openNamed s name = (some (fileOpen x), t) ∧ Steady s t ∧ Volume t n ∧ FileOp.Held t x ∧
      (∀ fin, Spares s (writeNeeds s x fin) → Spares t (writeNeeds t x fin)) ∧ t.inodeData x = s.inodeData x ∧
      t.cache = s.cache := by
  have listed := mem_rootFiles.mpr ⟨_, bound⟩
  obtain ⟨u, opened, run⟩ := vol.openNamed_opens absent plain bound
  obtain ⟨volU, slotsU, -⟩ := vol.opens listed opened
  have absentU : getFileByFname u name = none := by
    rw [getFileByFname, opened.fileTable]
    exact absent
  rw [addToFileTable, absentU, Option.isSome_none, if_neg Bool.false_ne_true] at run
  obtain ⟨volT, slotsT, -⟩ := volU.tabled (u.fileTable ++ [⟨name, fileOpen x⟩])
  have held : FileOp.Held { u with fileTable := u.fileTable ++ [⟨name, fileOpen x⟩] } x := by
    refine ⟨?_, opened.held⟩
    rw [rootFiles, slotsT, slotsU]
    exact listed
  refine ⟨_, run, (opened.rehandled.steady vol).trans (.tabled _ _), volT, held, fun fin spares => ?_,
    opened.data, opened.rehandled.cache⟩
  have writable : s.inodeDenyWriteCnt x = 0 := by
    cases before : s.findInode x with
    | none => exact Fs.inodeDenyWriteCnt_absent before
    | some i => exact vol.writable listed (by rw [before]; rfl)
  have needs := writeNeeds_congr ((volT.writable held.1 held.2).trans writable.symm) (show _ = s.inodeData x from opened.data)
    (fun z _ => congrFun opened.rehandled.cache z) fin
  rw [Spares, needs, show freeSectors _ = _ from congrArg freeSectors opened.rehandled.bits]
  exact spares

end opening

section findFile

variable {s : FlatFs} {n : Nat} {name : CString} {x : BlockSector}

theorem findFileStep_steady (vol : Volume s n) (ok : TableOk s) (named : FileName name)
    (bound : some (name, x) ∈ rootSlots s) (pattern : CString) (names : List CString) :
    Steady s (findFileStep pattern (some names) s name).2 := by
  obtain ⟨value, opened, -, -⟩ := vol.opensListed named bound
  obtain ⟨o, run⟩ : ∃ o, filesysOpen s name = (some (fileOpen x), o) := ⟨_, Prod.ext value rfl⟩
  rw [run] at opened
  have listed := mem_rootFiles.mpr ⟨_, bound⟩
  obtain ⟨volO, slotsO, -⟩ := vol.opens listed opened
  obtain ⟨g, registered⟩ := addToFileTable_registered (ok.opened vol opened slotsO) (by rw [slotsO]; exact bound)
  obtain ⟨volR, slotsR, -⟩ := volO.tabled (addToFileTable o (fileOpen x) name).fileTable
  have tabled := Steady.tabled o (addToFileTable o (fileOpen x) name).fileTable
  rw [← registered.rest] at volR slotsR tabled
  obtain ⟨r, added⟩ : ∃ r, addToFileTable o (fileOpen x) name = r := ⟨_, rfl⟩
  rw [added] at registered volR slotsR tabled
  have listedR : x ∈ rootFiles r := by
    rw [rootFiles, slotsR, slotsO]
    exact listed
  have heldR : (r.findInode x).isSome := by
    rw [registered.rest]
    exact opened.held
  have closed := volR.fileClosed ⟨listedR, heldR⟩
  have shutting := (closed.rehandled (volR.foreign (List.mem_cons_of_mem _ listedR))).steady volR
  rw [findFileStep_registered run added registered heldR pattern names]
  exact (opened.rehandled.steady vol).trans (tabled.trans (shutting.trans (.tabled _ _)))

theorem findFile_steady (vol : Volume s n) (ok : TableOk s) (named : ∀ name ∈ keys (rootSlots s), FileName name)
    (shut : Shut s) (pattern : CString) : Steady s (findFile s pattern).2 := by
  let inv (found : Option (List CString)) (u : FlatFs) : Prop :=
    found.isSome ∧ Volume u n ∧ TableOk u ∧ (∀ name ∈ keys (rootSlots u), FileName name) ∧ u.cwd.isSome
  have looks : ∀ found u v, found.isSome → Volume u n → TableOk u → (∀ name ∈ keys (rootSlots u), FileName name) →
      RootClosed u v → v.cwd.isSome → inv found v := by
    intro found u v some vol ok named only current
    obtain ⟨volume, slots, -⟩ := vol.only only
    exact ⟨some, volume, only.tableOk vol ok, by rw [slots]; exact named, current⟩
  have turn : Settles (findFileStep pattern) inv := by
    rintro found u dir k name x ⟨some, vol, ok, named, current⟩ - before slot
    obtain ⟨names, rfl⟩ := Option.isSome_iff_exists.mp some
    have bound := List.mem_of_getElem? slot
    have fileName := named name (mem_keys.mpr ⟨x, bound⟩)
    have steady := findFileStep_steady vol ok fileName bound pattern names
    obtain ⟨v, step, visited, cwd, -⟩ := findFileStep_visited vol ok fileName bound pattern names
    rw [step] at steady ⊢
    refine ⟨steady, ⟨rfl, visited.volume, visited.ok, by rw [visited.slots]; exact named, cwd ▸ current⟩, ?_,
      by rw [visited.slots]⟩
    rw [Before, dirAt, cwd]
    exact before
  have opened := dirOpenRoot_spec vol.mounted.handle
  have only := opened.only vol.mounted.dir.fine
  have start := looks (some []) _ _ rfl vol ok named only (by rw [opened.cwd]; rfl)
  obtain ⟨scan, held, here⟩ := whileReaddir_steady (fun _ _ held => held.2.1) (fun _ _ held => held.2.2.2.2)
    (fun found u dir pos held => looks _ _ _ held.1 held.2.1 held.2.2.1 held.2.2.2.1
      (setDir_moved held.2.1.mounted.handle dir pos) ((setDir_current u dir pos).2 ▸ held.2.2.2.2)) turn
    start opened.dir.1 shut.before (Nat.zero_le _) (readdirCalls (dirOpenRoot s).2 (dirOpenRoot s).1)
  have last := dirClose_spec held.2.1.mounted.handle here held.2.1.mounted.foreign
  exact (only.rehandled.steady vol).trans (scan.trans (last.rehandled.steady held.2.1))

end findFile

end ShellOs.FileSystem
