import ShellOs.FileSystem.Entries
import ShellOs.FileSystem.Release
import ShellOs.Lib.Scan

/-! The root directory as a row of slots: how it is opened and closed, what `lookup` and `dir_add`
find in it, and what writing one of its entries changes. -/

namespace ShellOs.FileSystem
open Lib SlotMap GrowArray BlockTree

theorem WriteEffect.bytes {s : FlatFs} {x : BlockSector} {buffer : Nat → Byte} {n o : Nat} {r : Int × FlatFs}
    {new : List BlockSector} (effect : WriteEffect s x buffer n o r new) (file : FileAt s x) (some : 0 < n)
    (done : r.1 = n) : fileLen r.2 x = max (fileLen s x) (o + n) ∧ ∀ p, p < fileLen r.2 x →
      byteAt r.2.cache (r.2.inodeData x) p =
        if o ≤ p ∧ p < o + n then buffer (p - o)
        else if p < fileLen s x then byteAt s.cache (s.inodeData x) p else 0 := by
  obtain ⟨-, length, bytes⟩ | ⟨fails, -⟩ := effect.result
  · have size : fileLen r.2 x = max (fileLen s x) (o + n) := by
      have before := file.length
      simp only [fileLen] at before ⊢
      omega
    refine ⟨size, fun p below => ?_⟩
    have here := congrArg (fun l : List Byte => l[p]?) bytes
    have count : (contents s x).length = fileLen s x ∧ (bufferBytes buffer n).length = n := by
      rw [file.contents_content]
      simp [content, bufferBytes]
    rw [getElem?_overwrite, count.1, count.2, effect.file.contents_content, file.contents_content,
      getElem?_content, if_pos below, Nat.zero_add] at here
    by_cases inside : o ≤ p ∧ p < o + n
    · rw [if_pos inside, bufferBytes, List.getElem?_map, List.getElem?_range (by omega), Option.map_some] at here
      rw [if_pos inside]
      exact Option.some.inj here
    · rw [if_neg inside] at here ⊢
      by_cases old : p < fileLen s x
      · rw [if_pos old, getElem?_content, if_pos old, Nat.zero_add] at here
        rw [if_pos old]
        exact Option.some.inj here
      · rw [if_neg old, if_pos (by omega)] at here
        rw [if_neg old]
        exact Option.some.inj here
  · omega

theorem WriteEffect.unchanged {s : FlatFs} {x : BlockSector} {buffer : Nat → Byte} {n o : Nat} {r : Int × FlatFs}
    {new : List BlockSector} (effect : WriteEffect s x buffer n o r new) (file : FileAt s x)
    (failed : r.1 ≠ n) : fileLen r.2 x = fileLen s x ∧ ∀ p, p < fileLen s x →
      byteAt r.2.cache (r.2.inodeData x) p = byteAt s.cache (s.inodeData x) p := by
  obtain ⟨done, -⟩ | ⟨-, length, bytes⟩ := effect.result
  · exact absurd done failed
  · have size : fileLen r.2 x = fileLen s x := by simp only [fileLen, length]
    refine ⟨size, fun p below => ?_⟩
    have here := congrArg (fun l : List Byte => l[p]?) bytes
    rw [effect.file.contents_content, file.contents_content, getElem?_content, getElem?_content, size,
      if_pos below, if_pos below, Nat.zero_add] at here
    exact Option.some.inj here

def rootSlots (s : FlatFs) : List (Option (CString × BlockSector)) :=
  dirSlots s.cache (s.inodeData ROOT_DIR_SECTOR) (fileLen s ROOT_DIR_SECTOR / ENTRY_SIZE)

/-- A root directory of `n` entries, the first of which is for the parent. -/
structure DirOk (s : FlatFs) (n : Nat) : Prop where
  fine : FreeMapOk s
  file : FileAt s ROOT_DIR_SECTOR
  length : fileLen s ROOT_DIR_SECTOR = 36 * n
  nonempty : 0 < n
  parent : (entryAt s.cache (s.inodeData ROOT_DIR_SECTOR) 0).inUse = true ∧
    (entryAt s.cache (s.inodeData ROOT_DIR_SECTOR) 0).inodeSector = ROOT_DIR_SECTOR
  writable : s.inodeDenyWriteCnt ROOT_DIR_SECTOR = 0

namespace DirOk

variable {s : FlatFs} {n : Nat} {name : CString}

theorem slots (ok : DirOk s n) : rootSlots s = dirSlots s.cache (s.inodeData ROOT_DIR_SECTOR) n := by
  rw [rootSlots, ok.length]
  simp only [ENTRY_SIZE]
  rw [Nat.mul_div_cancel_left n (by decide)]

theorem length_slots (ok : DirOk s n) : (rootSlots s).length + 1 = n := by
  have := ok.nonempty
  rw [ok.slots, length_dirSlots]
  omega

theorem fits (ok : DirOk s n) : 36 * n ≤ MAX_LENGTH := ok.length ▸ ok.file.good.fits

theorem inodeLength (ok : DirOk s n) : s.inodeLength ROOT_DIR_SECTOR = (36 * n : Nat) := by
  rw [ok.file.length, ok.length]

theorem mapped (ok : DirOk s n) : Mapped s.cache (s.inodeData ROOT_DIR_SECTOR) (36 * n) :=
  ok.length ▸ ok.file.good.mapped

theorem named_iff (ok : DirOk s n) {k : Nat} (inside : k + 1 < n) {v : BlockSector} :
    (rootSlots s)[k]? = some (some (name, v)) ↔
      (entryAt s.cache (s.inodeData ROOT_DIR_SECTOR) (k + 1)).named name = true ∧
        (entryAt s.cache (s.inodeData ROOT_DIR_SECTOR) (k + 1)).inodeSector = v := by
  rw [ok.slots, getElem?_dirSlots _ _ inside, DirEntry.named, DirEntry.slot]
  cases (entryAt s.cache (s.inodeData ROOT_DIR_SECTOR) (k + 1)).inUse with
  | true => simp [and_comm]
  | false => simp

theorem lookup_eq (ok : DirOk s n) (name : CString) : lookup s ROOT_DIR_SECTOR name =
    (((List.range' 1 (n - 1)).find? fun j => (entryAt s.cache (s.inodeData ROOT_DIR_SECTOR) j).named name).map
      fun j => (entryAt s.cache (s.inodeData ROOT_DIR_SECTOR) j, ((36 * j : Nat) : Int)), s) := by
  have scan := scanEntries_spec ok.inodeLength ok.fits ok.mapped (fun e => e.named name)
    (show 1 ≤ n from ok.nonempty)
  have start : lookup s ROOT_DIR_SECTOR name =
      let r := scanEntries s ROOT_DIR_SECTOR (fun e => e.named name) ((36 * 1 : Nat) : Int)
      (r.1.map fun e => (e, r.2.1), r.2.2) := rfl
  rw [start, scan]
  cases (List.range' 1 (n - 1)).find? fun j =>
    (entryAt s.cache (s.inodeData ROOT_DIR_SECTOR) j).named name <;> rfl

theorem lookup_absent (ok : DirOk s n) (absent : name ∉ keys (rootSlots s)) :
    lookup s ROOT_DIR_SECTOR name = (none, s) := by
  have none : (List.range' 1 (n - 1)).find? (fun j =>
      (entryAt s.cache (s.inodeData ROOT_DIR_SECTOR) j).named name) = none := by
    rw [List.find?_eq_none]
    intro j member here
    obtain ⟨low, high⟩ := List.mem_range'_1.mp member
    obtain ⟨k, rfl⟩ : ∃ k, j = k + 1 := ⟨j - 1, by omega⟩
    exact absent (mem_keys.mpr ⟨_, List.mem_of_getElem? ((ok.named_iff (by omega)).mpr ⟨here, rfl⟩)⟩)
  rw [ok.lookup_eq, none]
  rfl

theorem lookup_present (ok : DirOk s n) (present : name ∈ keys (rootSlots s)) :
    ∃ k e, k + 1 < n ∧ e = entryAt s.cache (s.inodeData ROOT_DIR_SECTOR) (k + 1) ∧ e.named name = true ∧
      (rootSlots s)[k]? = some (some (name, e.inodeSector)) ∧
      lookup s ROOT_DIR_SECTOR name = (some (e, ((36 * (k + 1) : Nat) : Int)), s) := by
  obtain ⟨v, member⟩ := mem_keys.mp present
  obtain ⟨k, inside, slot⟩ := List.getElem_of_mem member
  have length := ok.length_slots
  have here := ((ok.named_iff (by omega)).mp (List.getElem?_eq_some_iff.mpr ⟨inside, slot⟩)).1
  cases found : (List.range' 1 (n - 1)).find? (fun j =>
      (entryAt s.cache (s.inodeData ROOT_DIR_SECTOR) j).named name) with
  | none =>
    rw [List.find?_eq_none] at found
    exact absurd here (found _ (List.mem_range'_1.mpr ⟨by omega, by omega⟩))
  | some j =>
    obtain ⟨low, high⟩ := List.mem_range'_1.mp (List.mem_of_find?_eq_some found)
    obtain ⟨k, rfl⟩ : ∃ k, j = k + 1 := ⟨j - 1, by omega⟩
    have hit := List.find?_some found
    refine ⟨k, _, by omega, rfl, hit, (ok.named_iff (by omega)).mpr ⟨hit, rfl⟩, ?_⟩
    rw [ok.lookup_eq, found]
    rfl

theorem inUse_of_slot (ok : DirOk s n) {k : Nat} (inside : k + 1 < n) :
    (entryAt s.cache (s.inodeData ROOT_DIR_SECTOR) (k + 1)).inUse = true ↔
      ∃ e, (rootSlots s)[k]? = some (some e) := by
  rw [ok.slots, getElem?_dirSlots _ _ inside, DirEntry.slot]
  cases (entryAt s.cache (s.inodeData ROOT_DIR_SECTOR) (k + 1)).inUse <;> simp

theorem scan_free (ok : DirOk s n) : ∃ e, scanEntries s ROOT_DIR_SECTOR (fun e => !e.inUse) 0 =
    (e, ((36 * (freeSlot (rootSlots s) + 1) : Nat) : Int), s) := by
  have length := ok.length_slots
  have most := freeSlot_le (rootSlots s)
  have scan := scanEntries_spec ok.inodeLength ok.fits ok.mapped (fun e => !e.inUse) (Nat.zero_le n)
  have busy : ∀ j, j < freeSlot (rootSlots s) + 1 →
      (!(entryAt s.cache (s.inodeData ROOT_DIR_SECTOR) j).inUse) = false := by
    intro j below
    cases j with
    | zero =>
      rw [ok.parent.1]
      rfl
    | succ k =>
      rw [(ok.inUse_of_slot (by omega)).mpr (before_freeSlot (by omega))]
      rfl
  rw [show (0 : Int) = ((36 * 0 : Nat) : Int) from rfl, scan, Nat.sub_zero]
  by_cases room : freeSlot (rootSlots s) < (rootSlots s).length
  · have free : (entryAt s.cache (s.inodeData ROOT_DIR_SECTOR) (freeSlot (rootSlots s) + 1)).inUse = false := by
      rw [← Bool.not_eq_true, ok.inUse_of_slot (by omega), freeSlot_empty room]
      simp
    have found : (List.range' 0 n).find? (fun j =>
        !(entryAt s.cache (s.inodeData ROOT_DIR_SECTOR) j).inUse) = some (freeSlot (rootSlots s) + 1) := by
      rw [List.find?_range'_eq_some]
      refine ⟨by rw [free]; rfl, List.mem_range'_1.mpr ⟨by omega, by omega⟩, fun j _ below => ?_⟩
      rw [busy j below]
      rfl
    rw [found]
    exact ⟨_, rfl⟩
  · have none : (List.range' 0 n).find? (fun j =>
        !(entryAt s.cache (s.inodeData ROOT_DIR_SECTOR) j).inUse) = none := by
      rw [List.find?_range'_eq_none]
      intro j _ below
      rw [busy j (by omega)]
      rfl
    rw [none]
    refine ⟨Option.none, ?_⟩
    rw [show freeSlot (rootSlots s) + 1 = n by omega]

/-- Writing an entry of the root directory: if it is written, its slot has changed, otherwise
nothing has. -/
theorem written (ok : DirOk s n) {j : Nat} (bound : j < n) {e : DirEntry} {r : Int × FlatFs}
    {new : List BlockSector}
    (effect : WriteEffect s ROOT_DIR_SECTOR e.encode ENTRY_SIZE (36 * (j + 1)) r new) :
    (r.1 = ENTRY_SIZE → DirOk r.2 (max n (j + 2)) ∧ rootSlots r.2 =
      if j + 1 < n then (rootSlots s).set j e.slot else rootSlots s ++ [e.slot]) ∧
    (r.1 ≠ ENTRY_SIZE → DirOk r.2 n ∧ rootSlots r.2 = rootSlots s) := by
  have deny : r.2.inodeDenyWriteCnt ROOT_DIR_SECTOR = 0 := by
    obtain ⟨d, found⟩ := effect.handles.this
    rw [← ok.writable]
    unfold Fs.inodeDenyWriteCnt
    rw [found]
    cases s.findInode ROOT_DIR_SECTOR <;> rfl
  constructor
  · intro done
    obtain ⟨size, bytes⟩ := effect.bytes ok.file (by decide) done
    rw [ok.length] at size bytes
    have length : fileLen r.2 ROOT_DIR_SECTOR = 36 * max n (j + 2) := by
      simp only [ENTRY_SIZE] at size
      omega
    rw [length] at bytes
    have written : EntryWritten s.cache r.2.cache (s.inodeData ROOT_DIR_SECTOR) (r.2.inodeData ROOT_DIR_SECTOR)
        (36 * n) (j + 1) e := by
      intro p below
      rw [bytes p (by omega), if_pos below]
    have first : entryAt r.2.cache (r.2.inodeData ROOT_DIR_SECTOR) 0 =
        entryAt s.cache (s.inodeData ROOT_DIR_SECTOR) 0 := by
      have := ok.nonempty
      rw [written.entry (by omega), if_neg (by omega)]
    have next : DirOk r.2 (max n (j + 2)) :=
      ⟨effect.took.ok, effect.file, length, by omega, by rw [first]; exact ok.parent, deny⟩
    refine ⟨next, ?_⟩
    rw [next.slots, ok.slots]
    by_cases inside : j + 1 < n
    · rw [if_pos inside, show max n (j + 2) = n by omega]
      exact written.slots le_rfl
    · have last : n = j + 1 := by omega
      subst last
      rw [if_neg inside, show max (j + 1) (j + 2) = j + 1 + 1 by omega, dirSlots_succ _ _ (by omega)]
      have same : dirSlots r.2.cache (r.2.inodeData ROOT_DIR_SECTOR) (j + 1) =
          dirSlots s.cache (s.inodeData ROOT_DIR_SECTOR) (j + 1) := by
        refine dirSlots_congr fun p below => ?_
        rw [written p below, if_neg (by omega)]
      have here : entryAt r.2.cache (r.2.inodeData ROOT_DIR_SECTOR) (j + 1) = e := by
        rw [← decode_encode e]
        refine congrArg DirEntry.decode (List.map_congr_left fun i member => ?_)
        have small := List.mem_range.mp member
        rw [bytes _ (by omega), if_pos (by simp only [ENTRY_SIZE]; omega), Nat.add_sub_cancel_left]
      rw [same, here]
  · intro failed
    obtain ⟨size, bytes⟩ := effect.unchanged ok.file failed
    rw [ok.length] at size bytes
    have first : entryAt r.2.cache (r.2.inodeData ROOT_DIR_SECTOR) 0 =
        entryAt s.cache (s.inodeData ROOT_DIR_SECTOR) 0 := by
      have := ok.nonempty
      exact entryAt_congr (by omega) bytes
    have next : DirOk r.2 n :=
      ⟨effect.took.ok, effect.file, size, ok.nonempty, by rw [first]; exact ok.parent, deny⟩
    refine ⟨next, ?_⟩
    rw [next.slots, ok.slots]
    exact dirSlots_congr bytes

end DirOk

section add

variable {s : FlatFs} {n : Nat} {dir : Dir} {name : CString} {sector : BlockSector}

def NameOk (name : CString) : Prop := 0 < name.length ∧ name.length ≤ NAME_MAX

instance (name : CString) : Decidable (NameOk name) := inferInstanceAs (Decidable (_ ∧ _))

def newEntry (name : CString) (sector : BlockSector) : DirEntry := ⟨sector, strncpyName name, true⟩

theorem cName_strncpyName {name : CString} (short : name.length ≤ NAME_MAX) (proper : (0 : Byte) ∉ name)
    (sector : BlockSector) (inUse : Bool) : DirEntry.cName ⟨sector, strncpyName name, inUse⟩ = name := by
  simp only [NAME_MAX] at short
  have bytes : List.ofFn (strncpyName name) = name ++ List.replicate (31 - name.length) 0 := by
    apply List.ext_getElem?
    intro i
    by_cases inside : i < 31
    · rw [List.getElem?_ofFn, dif_pos (by simpa only [NAME_MAX] using inside)]
      simp only [strncpyName]
      rw [List.getD_eq_getElem?_getD]
      by_cases old : i < name.length
      · rw [List.getElem?_append_left old, List.getElem?_eq_getElem old, Option.getD_some]
      · rw [List.getElem?_append_right (by omega), List.getElem?_replicate, if_pos (by omega),
          List.getElem?_eq_none (by omega), Option.getD_none]
    · rw [List.getElem?_eq_none (by simp only [List.length_ofFn, NAME_MAX]; omega),
        List.getElem?_eq_none (by simp only [List.length_append, List.length_replicate]; omega)]
  obtain ⟨more, count⟩ : ∃ more, 31 - name.length = more + 1 := ⟨30 - name.length, by omega⟩
  rw [DirEntry.cName, bytes, count, List.replicate_succ]
  exact takeWhile_ne proper _

theorem newEntry_slot (valid : NameOk name) (proper : (0 : Byte) ∉ name) :
    (newEntry name sector).slot = some (name, sector) := by
  simp only [newEntry, DirEntry.slot, if_true, cName_strncpyName valid.2 proper]

theorem dirAdd_refuses (ok : DirOk s n) (here : dir.inode = ROOT_DIR_SECTOR)
    (listed : (s.findInode ROOT_DIR_SECTOR).isSome)
    (bad : ¬(NameOk name ∧ name ∉ keys (rootSlots s))) : dirAdd s dir name sector false = (false, s) := by
  unfold dirAdd
  rw [here, Fs.use_open listed]
  by_cases invalid : name.length = 0 ∨ NAME_MAX < name.length
  · rw [if_pos invalid]
  · rw [if_neg invalid]
    have present : name ∈ keys (rootSlots s) := by
      by_contra absent
      exact bad ⟨⟨by omega, by omega⟩, absent⟩
    obtain ⟨k, e, -, -, -, -, found⟩ := ok.lookup_present present
    rw [found]
    rfl

theorem dirAdd_writes (ok : DirOk s n) (here : dir.inode = ROOT_DIR_SECTOR)
    (listed : (s.findInode ROOT_DIR_SECTOR).isSome) (valid : NameOk name)
    (absent : name ∉ keys (rootSlots s)) : dirAdd s dir name sector false =
      let r := inodeWriteAt s ROOT_DIR_SECTOR (newEntry name sector).encode ENTRY_SIZE
        ((36 * (freeSlot (rootSlots s) + 1) : Nat) : Int)
      (decide (r.1 = ENTRY_SIZE), r.2) := by
  obtain ⟨e, scan⟩ := ok.scan_free
  unfold dirAdd
  rw [here, if_neg (by have := valid.1; have := valid.2; omega), Fs.use_open listed, ok.lookup_absent absent]
  simp only [Option.isSome_none, Bool.false_eq_true, if_false]
  rw [scan]
  rfl

def addNeeds (s : FlatFs) (name : CString) : List BlockKind :=
  if NameOk name ∧ name ∉ keys (rootSlots s) then
    writeNeeds s ROOT_DIR_SECTOR (36 * (freeSlot (rootSlots s) + 1) + 36)
  else []

structure AddEffect (s : FlatFs) (name : CString) (sector : BlockSector) (r : Bool × FlatFs)
    (new : List BlockSector) : Prop where
  took : Took s r.2 new (sectorsOf s ROOT_DIR_SECTOR)
  handles : SameHandles s r.2 ROOT_DIR_SECTOR
  dir : ∃ n, DirOk r.2 n
  sectors : ∀ z ∈ sectorsOf r.2 ROOT_DIR_SECTOR, z ∈ sectorsOf s ROOT_DIR_SECTOR ∨ z ∈ new
  slots : r.1 = true → (0 : Byte) ∉ name → rootSlots r.2 = put (rootSlots s) (name, sector)
  failed : r.1 = false → rootSlots r.2 = rootSlots s
  done : r.1 = true ↔ NameOk name ∧ name ∉ keys (rootSlots s) ∧
    CanWrite s ROOT_DIR_SECTOR (36 * (freeSlot (rootSlots s) + 1) + 36)
  enough : (addNeeds s name).length ≤ (freeSectors s.freeMap).length →
    new.length = (addNeeds s name).length ∧ r.2.cache 0 = s.cache 0
  short : (freeSectors s.freeMap).length < (addNeeds s name).length →
    freeSectors r.2.freeMap = [] ∧ r.2.cache 0 =
      if (addNeeds s name)[(freeSectors s.freeMap).length]? = some .index then zeros else s.cache 0

theorem dirAdd_effect (ok : DirOk s n) (here : dir.inode = ROOT_DIR_SECTOR)
    (listed : (s.findInode ROOT_DIR_SECTOR).isSome)
    (foreign : ∀ f, s.freeMapFile = some f → f.inode ≠ ROOT_DIR_SECTOR) (name : CString) (sector : BlockSector) :
    ∃ new, AddEffect s name sector (dirAdd s dir name sector false) new := by
  by_cases good : NameOk name ∧ name ∉ keys (rootSlots s)
  · rw [dirAdd_writes ok here listed good.1 good.2]
    have length := ok.length_slots
    have most := freeSlot_le (rootSlots s)
    have fits := ok.fits
    simp only [MAX_LENGTH] at fits
    have needs : addNeeds s name = writeNeeds s ROOT_DIR_SECTOR (36 * (freeSlot (rootSlots s) + 1) + 36) :=
      if_pos good
    obtain ⟨new, effect⟩ := inodeWriteAt_effect (n := 36) (o := 36 * (freeSlot (rootSlots s) + 1)) ok.fine ok.file
      listed foreign (by decide) (by omega) (newEntry name sector).encode
    obtain ⟨whenDone, whenFailed⟩ := ok.written (by omega) effect
    simp only
    refine ⟨new, effect.took, effect.handles, ?_, effect.sectors, fun done proper => ?_, fun failed => ?_, ?_, ?_, ?_⟩
    · by_cases done : (inodeWriteAt s ROOT_DIR_SECTOR (newEntry name sector).encode (36 : Nat)
          ((36 * (freeSlot (rootSlots s) + 1) : Nat) : Int)).1 = (36 : Nat)
      · exact ⟨_, (whenDone done).1⟩
      · exact ⟨_, (whenFailed done).1⟩
    · rw [(whenDone (of_decide_eq_true done)).2, newEntry_slot good.1 proper, put]
      by_cases room : freeSlot (rootSlots s) < (rootSlots s).length
      · rw [if_pos room, if_pos (by omega)]
      · rw [if_neg room, if_neg (by omega)]
    · exact (whenFailed (of_decide_eq_false failed)).2
    · rw [decide_eq_true_eq]
      exact effect.done.trans ⟨fun can => ⟨good.1, good.2, can⟩, fun all => all.2.2⟩
    · rw [needs]
      exact effect.enough
    · rw [needs]
      exact effect.short
  · rw [dirAdd_refuses ok here listed good]
    have needs : addNeeds s name = [] := if_neg good
    refine ⟨[], (Took.refl ok.fine).touch (by simp), SameHandles.refl _ rfl, ⟨n, ok⟩, fun z member => Or.inl member,
      (fun never => by cases never), fun _ => rfl, ⟨(fun never => by cases never), fun all => ?_⟩,
      fun _ => ⟨by rw [needs]; rfl, rfl⟩, fun less => by simp [needs] at less⟩
    exact absurd ⟨all.1, all.2.1⟩ good

end add

end ShellOs.FileSystem
