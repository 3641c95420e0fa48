import ShellOs.FileSystem.Defragment
import Mathlib.Data.Finset.Card

/-! What `defragment` makes of the names, the lengths and the bytes of the files. -/

namespace ShellOs.FileSystem
open Lib SlotMap

/-- A mounted disk that has nothing but regular files in its root directory, none of them open. `dir_lookup` takes "." and
".." for the directory itself, so that they are no names of files. -/
structure AtRest (s : FlatFs) (n : Nat) : Prop where
  volume : Volume s n
  shut : Shut s
  closed : ∀ x ∈ rootFiles s, s.findInode x = none
  fileTable : s.fileTable = []
  named : ∀ name ∈ keys (rootSlots s), FileName name

/-- The root directory lists the same names, and every file has the same length and the same bytes. -/
structure SameFiles (s t : FlatFs) : Prop where
  names : ∀ name, name ∈ keys (rootSlots t) ↔ name ∈ keys (rootSlots s)
  bytes : ∀ name x y, some (name, x) ∈ rootSlots s → some (name, y) ∈ rootSlots t →
    t.inodeLength y = s.inodeLength x ∧ contents t y = contents s x

/-- An empty file, or one whose last byte is a NUL. -/
def Terminated (s : FlatFs) (x : BlockSector) : Prop := contents s x = [] ∨ (contents s x).getLast? = some 0

section bytes

variable {s t : FlatFs} {n : Nat} {x : BlockSector}

theorem AtRest.defragmentable (rest : AtRest s n) : Defragmentable s n where
  volume := rest.volume
  table := by
    constructor
    · rw [rest.fileTable]
      exact List.nodup_nil
    · rw [rest.fileTable]
      exact fun entry member => by cases member
  shut := rest.shut
  stored x listed := by
    rw [Stored, Fs.inodeData, rest.closed x listed]
    rfl
  named := rest.named

theorem Defragmented.pairs (done : Defragmented s t (keys (rootSlots s))) :
    ((bindings (rootSlots t)).map fun b => (b.1, contents t b.2)) =
      (bindings (rootSlots s)).map fun b => (b.1, terminated (contents s b.2)) := by
  have names := done.names
  have bytes := done.bytes
  rw [rootFiles, rootFiles, List.map_map, List.map_map] at bytes
  rw [keys, keys] at names
  calc (bindings (rootSlots t)).map (fun b => (b.1, contents t b.2))
      = ((bindings (rootSlots t)).map Prod.fst).zip ((bindings (rootSlots t)).map fun b => contents t b.2) :=
        List.zip_map'.symm
    _ = ((bindings (rootSlots s)).map Prod.fst).zip ((bindings (rootSlots s)).map fun b => terminated (contents s b.2)) :=
        congrArg₂ List.zip names bytes
    _ = _ := List.zip_map'

/-- The files are the same exactly if no byte is lost that was not a NUL. -/
theorem Defragmented.sameFiles_iff (done : Defragmented s t (keys (rootSlots s))) (vol : Volume s n) :
    SameFiles s t ↔ ∀ x ∈ rootFiles s, Terminated s x := by
  obtain ⟨m, volume⟩ := done.volume
  have pairs := done.pairs
  constructor
  · intro same x listed
    obtain ⟨name, bound⟩ := mem_rootFiles.mp listed
    have member : (name, terminated (contents s x)) ∈ (bindings (rootSlots t)).map fun b => (b.1, contents t b.2) := by
      rw [pairs]
      exact List.mem_map_of_mem (f := fun b => (b.1, terminated (contents s b.2))) (mem_bindings.mpr bound)
    obtain ⟨b, made, pair⟩ := List.mem_map.mp member
    obtain ⟨rfl, bytes⟩ := Prod.mk.inj pair
    have kept := (same.bytes b.1 x b.2 bound (mem_bindings.mp made)).2
    exact terminated_eq_iff.mp (bytes.symm.trans kept)
  · intro ends
    refine ⟨fun name => by rw [done.names], fun name x y before after => ?_⟩
    have member : (name, contents t y) ∈ (bindings (rootSlots s)).map fun b => (b.1, terminated (contents s b.2)) := by
      rw [← pairs]
      exact List.mem_map_of_mem (f := fun b => (b.1, contents t b.2)) (mem_bindings.mpr after)
    obtain ⟨b, old, pair⟩ := List.mem_map.mp member
    obtain ⟨rfl, bytes⟩ := Prod.mk.inj pair
    obtain rfl := vol.bound before (mem_bindings.mp old)
    have listed := mem_rootFiles.mpr ⟨_, before⟩
    have same : contents t y = contents s b.2 := bytes.symm.trans (terminated_eq_iff.mpr (ends b.2 listed))
    have length : fileLen t y = fileLen s b.2 := by
      rw [← length_contents t y, ← length_contents s b.2, same]
    refine ⟨?_, same⟩
    rw [(volume.file y (mem_rootFiles.mpr ⟨_, after⟩)).1.length, (vol.file b.2 listed).1.length, length]

end bytes

section names

variable {s t : FlatFs} {n : Nat} {name : CString}

/-- Three letters for a number below a million. -/
def letters (i : Nat) : CString :=
  [BitVec.ofNat 8 (97 + i % 100), BitVec.ofNat 8 (97 + i / 100 % 100), BitVec.ofNat 8 (97 + i / 10000)]

theorem letters_injective {i j : Nat} (smallI : i < 1000000) (smallJ : j < 1000000) (same : letters i = letters j) : i = j := by
  have value : ∀ k, k < 100 → (BitVec.ofNat 8 (97 + k)).toNat = 97 + k := by
    intro k below
    rw [BitVec.toNat_ofNat]
    omega
  simp only [letters, List.cons.injEq, and_true] at same
  obtain ⟨low, middle, high⟩ := same
  have low := congrArg BitVec.toNat low
  have middle := congrArg BitVec.toNat middle
  have high := congrArg BitVec.toNat high
  rw [value _ (by omega), value _ (by omega)] at low middle high
  omega

theorem letters_fileName {i : Nat} (small : i < 1000000) : FileName (letters i) := by
  have large : ∀ c ∈ letters i, 97 ≤ c.toNat := by
    intro c member
    simp only [letters, List.mem_cons, List.not_mem_nil, or_false] at member
    rcases member with rfl | rfl | rfl
    all_goals
      rw [BitVec.toNat_ofNat]
      omega
  have other : ∀ c : Byte, c.toNat < 97 → c ∉ letters i := fun c few member => absurd (large c member) (by omega)
  have three : (letters i).length = 3 := rfl
  refine ⟨⟨Nat.succ_pos _, show 3 ≤ NAME_MAX by decide⟩, other slash (by decide), other 0 (by decide), fun same => ?_,
    fun same => ?_⟩
  · rw [same] at three
    exact absurd three (by decide)
  · rw [same] at three
    exact absurd three (by decide)

/-- There is always a name that no file has. -/
theorem Volume.unusedName (vol : Volume s n) : ∃ q, FileName q ∧ q.length = 3 ∧ q ∉ keys (rootSlots s) := by
  by_contra all
  push Not at all
  have few : (keys (rootSlots s)).length < 1000000 := by
    have slots := vol.mounted.dir.length_slots
    have fits := vol.mounted.dir.fits
    have most : (bindings (rootSlots s)).length ≤ (rootSlots s).length := List.length_filterMap_le _ _
    rw [keys, List.length_map]
    simp only [MAX_LENGTH] at fits
    omega
  have inside : (Finset.range 1000000).image letters ⊆ (keys (rootSlots s)).toFinset := by
    intro q member
    obtain ⟨i, below, rfl⟩ := Finset.mem_image.mp member
    exact List.mem_toFinset.mpr (all _ (letters_fileName (Finset.mem_range.mp below)) rfl)
  have count : ((Finset.range 1000000).image letters).card = 1000000 := by
    rw [Finset.card_image_of_injOn, Finset.card_range]
    intro i memberI j memberJ same
    exact letters_injective (Finset.mem_range.mp memberI) (Finset.mem_range.mp memberJ) same
  have most := (Finset.card_le_card inside).trans (List.toFinset_card_le _)
  omega

/-- The part of a path behind a slash names the file. -/
theorem FileName.behind {q : CString} (named : FileName name) (next : FileName q) (short : q.length = 3) :
    MadeAs (name ++ slash :: q) q where
  last := by
    have parts : tokens (name ++ slash :: q) = [name] ++ [q] := by
      have first : ([name].filter fun token => !token.isEmpty) = [name] := by simp [named.nonempty]
      rw [← first, ← tokens_name next.nonempty next.flat]
      exact pieces_append named.flat q
    change (tokens (name ++ slash :: q)).getLastD [] = q
    rw [parts]
    rfl
  named := next
  nonempty := by
    rw [List.length_append, List.length_cons]
    omega
  short := by
    have bound := named.ok.2
    simp only [NAME_MAX] at bound
    rw [List.length_append, List.length_cons]
    omega

/-- A name that fills its field is read on into the memory behind it, and a slash there makes another name of it. -/
theorem AtRest.renames (rest : AtRest s n) (present : name ∈ keys (rootSlots s)) (full : ¬name.length < NAME_MAX) :
    ∃ stale t, defragment s stale = (0, t) ∧ name ∉ keys (rootSlots t) := by
  obtain ⟨x, bound⟩ := mem_keys.mp present
  obtain ⟨A, B, split⟩ := List.append_of_mem (mem_bindings.mpr bound)
  obtain ⟨q, fresh, three, unused⟩ := rest.volume.unusedName
  have named : ∀ c ∈ bindings (rootSlots s), FileName c.1 := fun c member => rest.named _ (List.mem_map_of_mem member)
  have unique := rest.volume.names
  rw [keys, split, List.map_append, List.map_cons] at unused unique
  rw [split] at named
  -- the memory behind the name of the one file goes on with a slash
  let stale : Nat → CString := fun j => if j = A.length then slash :: q else []
  have early := @names_backUps s stale 0 A (fun c member => named c (List.mem_append_left _ member)) fun j _ high =>
    Or.inr (if_neg (by omega))
  have late := @names_backUps s stale (0 + A.length + 1) B
    (fun c member => named c (List.mem_append_right _ (List.mem_cons_of_mem _ member))) fun j low _ =>
    Or.inr (if_neg (by omega))
  have bound := (rest.named name present).ok.2
  have stored : storedName stale (0 + A.length) name = name ++ slash :: q := by
    rw [storedName, if_neg full, List.take_of_length_le bound, Nat.zero_add]
    exact congrArg (name ++ ·) (if_pos rfl)
  have files : backUps stale s 0 (bindings (rootSlots s)) = backUps stale s 0 A ++
      ⟨name ++ slash :: q, contents s x, fileLen s x⟩ :: backUps stale s (0 + A.length + 1) B := by
    rw [split, backUps_append, backUps, stored]
  have others : ∀ file, file ∈ backUps stale s 0 A ∨ file ∈ backUps stale s (0 + A.length + 1) B → FileName file.name := by
    rintro file (front | behind)
    · have member := List.mem_map_of_mem (f := FileData.name) front
      rw [early] at member
      obtain ⟨c, inside, same⟩ := List.mem_map.mp member
      exact same ▸ named c (List.mem_append_left _ inside)
    · have member := List.mem_map_of_mem (f := FileData.name) behind
      rw [late] at member
      obtain ⟨c, inside, same⟩ := List.mem_map.mp member
      exact same ▸ named c (List.mem_append_right _ (List.mem_cons_of_mem _ inside))
  have made := (rest.named name present).behind fresh three
  have entries : (backUps stale s 0 (bindings (rootSlots s))).map FileData.entry =
      A.map Prod.fst ++ q :: B.map Prod.fst := by
    rw [files, List.map_append, List.map_cons, List.map_congr_left fun file front => (others file (Or.inl front)).entry,
      List.map_congr_left fun file behind => (others file (Or.inr behind)).entry, early, late]
    exact congrArg (fun last => A.map Prod.fst ++ last :: B.map Prod.fst) made.last
  have apart : (A.map Prod.fst ++ q :: B.map Prod.fst).Nodup := by
    rw [List.nodup_middle] at unique ⊢
    obtain ⟨-, distinct⟩ := List.nodup_cons.mp unique
    refine List.nodup_cons.mpr ⟨fun member => unused ?_, distinct⟩
    rcases List.mem_append.mp member with front | behind
    · exact List.mem_append_left _ front
    · exact List.mem_append_right _ (List.mem_cons_of_mem _ behind)
  have restorable : Restorable s (backUps stale s 0 (bindings (rootSlots s))) := by
    refine ⟨fun file member => ?_, fun file member => Or.inr ?_, by rw [entries]; exact apart⟩
    · rw [files, List.mem_append, List.mem_cons] at member
      rcases member with front | rfl | behind
      · have other := others file (Or.inl front)
        exact other.entry ▸ other.madeAs
      · rw [FileData.entry, made.last]
        exact made
      · have other := others file (Or.inr behind)
        exact other.entry ▸ other.madeAs
    · rw [getFileByFname, rest.fileTable]
      rfl
  obtain ⟨t, run, done⟩ := rest.defragmentable.defragment_spec stale restorable
  refine ⟨stale, t, run, ?_⟩
  rw [done.names, entries]
  intro still
  rw [List.nodup_middle] at unique
  have gone := (List.nodup_cons.mp unique).1
  rcases List.mem_append.mp still with front | behind
  · exact gone (List.mem_append_left _ front)
  · rcases List.mem_cons.mp behind with rfl | later
    · exact unused (List.mem_append_right _ List.mem_cons_self)
    · exact gone (List.mem_append_right _ later)

/-- `defragment` writes every file again with `file_write`, which puts a NUL over the last byte, and under the name that
`strncpy` has left in its array, which is not terminated if the name fills the field. It returns 0 all the same. -/
theorem defragment_sameFiles_iff {s : Fs BufferCache} (rest : AtRest s.flat n) :
    (∀ stale, (defragment s stale).1 = 0 → SameFiles s.flat (defragment s stale).2.flat) ↔
      (∀ name ∈ keys (rootSlots s.flat), name.length < NAME_MAX) ∧ ∀ x ∈ rootFiles s.flat, Terminated s.flat x := by
  have can := rest.defragmentable
  have result : ∀ stale t, defragment s.flat stale = (0, t) →
      (defragment s stale).1 = 0 ∧ (defragment s stale).2.flat = t := by
    intro stale t run
    have same := defragment_flat s stale
    rw [run] at same
    exact ⟨congrArg Prod.fst same, congrArg Prod.snd same⟩
  constructor
  · intro same
    have kept : ∀ stale t, defragment s.flat stale = (0, t) → SameFiles s.flat t := by
      intro stale t run
      obtain ⟨value, state⟩ := result stale t run
      rw [← state]
      exact same stale value
    constructor
    · intro name present
      by_contra full
      obtain ⟨stale, t, run, gone⟩ := rest.renames present full
      exact gone (((kept stale t run).names name).mpr present)
    · obtain ⟨t, run, done⟩ := can.defragment_short (fun _ => []) (Or.inr fun _ => rfl)
      exact (done.sameFiles_iff can.volume).mp (kept _ t run)
  · rintro ⟨short, ends⟩ stale -
    obtain ⟨t, run, done⟩ := can.defragment_short stale (Or.inl short)
    rw [(result stale t run).2]
    exact (done.sameFiles_iff can.volume).mpr ends

end names

section runs

variable {s : FlatFs} {n : Nat} {x : BlockSector} {size : Int}

theorem JustA.files (just : JustA s size n x) : rootFiles s = [x] := by
  rw [rootFiles, just.slots]
  rfl

theorem JustA.atRest (just : JustA s size n x) : AtRest s n := by
  refine ⟨just.volume, just.shut, fun y listed => ?_, just.fileTable, just.named⟩
  rw [just.files, List.mem_singleton] at listed
  rw [listed]
  exact just.unlisted

theorem defragment_sameFiles_formatted : let s := (filesysCreate (formatted 80) [97] 600 false).2
    ∀ stale, (defragment s stale).1 = 0 → SameFiles s.flat (defragment s stale).2.flat := by
  have general : ∀ s : Fs BufferCache, Fresh 80 s.flat → (filesysCreate s [97] 600 false).1 = true →
      let t := (filesysCreate s [97] 600 false).2
      ∀ stale, (defragment t stale).1 = 0 → SameFiles t.flat (defragment t stale).2.flat := by
    intro s fresh made t
    obtain ⟨n, x, just⟩ := @Fresh.createsA _ fresh 600 (by rw [← filesysCreate_flat]; exact made)
    rw [← filesysCreate_flat, flatten_snd] at just
    refine (defragment_sameFiles_iff just.atRest).mpr ⟨fun name present => ?_, fun y listed => Or.inr ?_⟩
    · rw [keys, just.slots, List.map_singleton, List.mem_singleton] at present
      rw [present]
      exact show 1 < NAME_MAX by decide
    · rw [just.files, List.mem_singleton] at listed
      rw [listed, just.blank, List.getLast?_replicate]
      rfl
  exact general _ (formatted_fresh (by decide +kernel)) (formatted_makesA (by decide) (by decide))

/-- The file "a" of the one byte "A", written by `inode_write_at`. -/
def makeAnA (s : Fs BufferCache) : Fs BufferCache :=
  let made := (filesysCreate s [97] 1 false).2
  (inodeWriteAt made ((rootFiles made.flat).headD 0) (fun _ => 65) 1 0).2

theorem JustA.writes (just : JustA s 1 n x) : let t := (inodeWriteAt s x (fun _ => 65) 1 0).2
    AtRest t n ∧ x ∈ rootFiles t ∧ contents t x = [65] := by
  intro t
  have listed : x ∈ rootFiles s := by
    rw [just.files]
    exact List.mem_singleton_self x
  have blank : contents s x = [0] := just.blank
  have length : fileLen s x = 1 := by
    rw [← length_contents, blank]
    rfl
  have writable : s.inodeDenyWriteCnt x = 0 := by
    rw [Fs.inodeDenyWriteCnt, just.unlisted]
  have file := (just.volume.file x listed).1
  have effect : WriteEffect s x (fun _ => 65) 1 0 (inodeWriteAt s x (fun _ => 65) 1 0) [] :=
    writeEffect_inside just.volume.mounted.dir.fine file writable Nat.one_pos (by omega) _
  have done : (inodeWriteAt s x (fun _ => 65) 1 0).1 = 1 := effect.done.mpr (by
    rw [CanWrite]
    exact ⟨writable, Or.inl (by omega)⟩)
  obtain ⟨volume, slots, -⟩ := just.volume.writes listed effect
  have files : rootFiles t = rootFiles s := by rw [rootFiles, rootFiles, slots]
  obtain ⟨-, -, bytes⟩ := effect.result.resolve_right fun failed => by
    rw [failed.1] at done
    cases done
  obtain ⟨d, here⟩ := effect.handles.this
  refine ⟨⟨volume, ⟨?_, ?_⟩, fun y member => ?_, ?_, fun name present => ?_⟩, ?_, ?_⟩
  · exact (congrArg Fs.cwd effect.took.rest :).trans just.shut.1
  · exact (effect.handles.others _ (just.volume.ne_root listed).symm).trans just.shut.2
  · rw [files, just.files, List.mem_singleton] at member
    rw [member, here, just.unlisted]
    rfl
  · exact (congrArg Fs.fileTable effect.took.rest :).trans just.fileTable
  · rw [slots] at present
    exact just.named name present
  · rw [files]
    exact listed
  · rw [bytes, blank]
    rfl

/-- The one byte of the file is lost, although 0 is returned. -/
theorem defragment_loses_byte : let s := makeAnA (formatted 80)
    (∃ n, AtRest s.flat n) ∧ (defragment s fun _ => []).1 = 0 ∧
      ¬SameFiles s.flat (defragment s fun _ => []).2.flat := by
  have general : ∀ s : Fs BufferCache, Fresh 80 s.flat → (filesysCreate s [97] 1 false).1 = true →
      (∃ n, AtRest (makeAnA s).flat n) ∧ (defragment (makeAnA s) fun _ => []).1 = 0 ∧
        ¬SameFiles (makeAnA s).flat (defragment (makeAnA s) fun _ => []).2.flat := by
    intro s fresh made
    obtain ⟨n, x, just⟩ := @Fresh.createsA _ fresh 1 (by rw [← filesysCreate_flat]; exact made)
    rw [← filesysCreate_flat, flatten_snd] at just
    have first : (rootFiles (filesysCreate s [97] 1 false).2.flat).headD 0 = x := by rw [just.files]; rfl
    obtain ⟨rest, listed, bytes⟩ := just.writes
    have state : (makeAnA s).flat = (inodeWriteAt (filesysCreate s [97] 1 false).2.flat x (fun _ => 65) 1 0).2 := by
      rw [makeAnA, ← inodeWriteAt_flat, flatten_snd, ← first]
    rw [← state] at rest listed bytes
    generalize makeAnA s = t at *
    obtain ⟨u, run, done⟩ := rest.defragmentable.defragment_short (fun _ => []) (Or.inr fun _ => rfl)
    have same := defragment_flat t fun _ => []
    rw [run] at same
    have after : (defragment t fun _ => []).2.flat = u := congrArg Prod.snd same
    refine ⟨⟨n, rest⟩, congrArg Prod.fst same, ?_⟩
    rw [after, done.sameFiles_iff rest.volume]
    intro ends
    have none := ends x listed
    rw [Terminated, bytes] at none
    exact absurd none (by decide)
  exact general _ (formatted_fresh (by decide +kernel)) (formatted_makesA (by decide) (by decide))

end runs

end ShellOs.FileSystem
