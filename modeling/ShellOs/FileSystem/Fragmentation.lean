import ShellOs.FileSystem.Peek
import ShellOs.FileSystem.DataSectors

/-! What `fragmentation_degree` counts. -/

namespace ShellOs.FileSystem
open Lib SlotMap

section blocks

variable {s t u : FlatFs} {n k : Nat} {name : CString} {x : BlockSector}

def dataBlocks (s : FlatFs) (x : BlockSector) : List BlockSector :=
  (List.range ((fileLen s x + 511) / 512)).map (blockAt s.cache (s.inodeData x))

theorem FileAt.dataSectors (file : FileAt s x) : getInodeDataSectors s x = (dataBlocks s x, s) := by
  have fits := file.good.fits
  simp only [MAX_LENGTH] at fits
  rw [getInodeDataSectors_eq s x file.sectorCount (by rw [file.length]; omega) (by omega), dataBlocks]
  congr 1
  apply List.map_congr_left
  intro i below
  have mapped := file.blocks (by rw [file.sectorCount]; exact List.mem_range.mp below)
  rw [indexToSector_blockAt (by simp only [MAX_SECTORS]; have := List.mem_range.mp below; omega) mapped]

theorem dataBlocks_congr (cache : t.cache = s.cache) (data : t.inodeData x = s.inodeData x) :
    dataBlocks t x = dataBlocks s x := by
  rw [dataBlocks, dataBlocks, fileLen, fileLen, Fs.inodeLength, Fs.inodeLength, cache, data]

theorem Peeked.data {A : List BlockSector} (peeked : Peeked s u n A) (away : x ≠ ROOT_DIR_SECTOR) (outside : x ∉ A) :
    u.inodeData x = s.inodeData x :=
  inodeData_of_find (peeked.others x away outside) (by rw [peeked.rehandled.cache])

theorem OpenedShortly.data {A : List BlockSector} {o : FlatFs} (peeked : Peeked s u n A)
    (shortly : OpenedShortly u o n name x) (away : x ≠ ROOT_DIR_SECTOR) (outside : x ∉ A) :
    o.cache = s.cache ∧ o.inodeData x = s.inodeData x :=
  ⟨shortly.opened.rehandled.cache.trans peeked.rehandled.cache, shortly.opened.data.trans (peeked.data away outside)⟩

end blocks

section degree

variable {s u : FlatFs} {n k : Nat} {name fileName : CString} {x : BlockSector}

/-- How many whole sectors a file has: what `fragmentation_degree` takes for the number of its blocks. -/
def wholeBlocks (s : FlatFs) (x : BlockSector) : Nat := fileLen s x / 512

def Tallied (s : FlatFs) (x : BlockSector) : Prop := 1 < wholeBlocks s x

def TalliedFragmented (s : FlatFs) (x : BlockSector) : Prop :=
  Tallied s x ∧ fragmented ((dataBlocks s x).take (wholeBlocks s x)) = true

instance (s : FlatFs) (x : BlockSector) : Decidable (Tallied s x) := inferInstanceAs (Decidable (_ < _))

instance (s : FlatFs) (x : BlockSector) : Decidable (TalliedFragmented s x) := inferInstanceAs (Decidable (_ ∧ _))

def tally (s : FlatFs) (counts : Nat × Nat) (b : CString × BlockSector) : Nat × Nat :=
  (counts.1 + if Tallied s b.2 then 1 else 0, counts.2 + if TalliedFragmented s b.2 then 1 else 0)

theorem tally_foldl (s : FlatFs) (files : List (CString × BlockSector)) (counts : Nat × Nat) :
    files.foldl (tally s) counts = (counts.1 + files.countP (fun b => Tallied s b.2),
      counts.2 + files.countP (fun b => TalliedFragmented s b.2)) := by
  induction files generalizing counts with
  | nil => rfl
  | cons b rest ih =>
    rw [List.foldl_cons, ih, tally, List.countP_cons, List.countP_cons]
    simp only [decide_eq_true_eq, Prod.mk.injEq]
    omega

theorem fragmentationStep_opened {o : FlatFs} (counts : Nat × Nat) (shortly : OpenedShortly u o n name x)
    (cache : o.cache = s.cache) (data : o.inodeData x = s.inodeData x) (listed : x ∈ rootFiles o) :
    fragmentationStep counts u name = (tally s counts (name, x), fileClose o (fileOpen x)) := by
  have file := (shortly.volume.file x listed).1
  have length : fileLen o x = fileLen s x := by rw [fileLen, fileLen, Fs.inodeLength, Fs.inodeLength, data]
  have total : (fileLength o (fileOpen x)).tdiv BLOCK_SECTOR_SIZE = (wholeBlocks s x : Int) := by
    rw [fileLength, fileOpen, file.length, length, wholeBlocks]
    rfl
  have sectors : getInodeDataSectors o (fileOpen x).inode = (dataBlocks s x, o) := by
    rw [← dataBlocks_congr cache data]
    exact file.dataSectors
  simp only [fragmentationStep, shortly.run, total, sectors, Int.toNat_natCast]
  by_cases many : 1 < wholeBlocks s x
  · rw [if_pos (by omega)]
    simp only [tally, TalliedFragmented, Tallied, many, true_and, if_true]
  · rw [if_neg (by omega)]
    simp only [tally, TalliedFragmented, Tallied, many, false_and, if_false, Nat.add_zero]

theorem fragmentationStep_peeks (vol : Volume s n) (named : ∀ name ∈ keys (rootSlots s), FileName name) :
    Peeks s n fragmentationStep (tally s) true := by
  intro u counts name x seen peeked bound outside
  have away := vol.ne_root (mem_rootFiles.mpr ⟨_, bound⟩)
  have boundU : some (name, x) ∈ rootSlots u := by
    rw [peeked.slots]
    exact bound
  have nameOk := named name (mem_keys.mpr ⟨x, bound⟩)
  obtain ⟨o, shortly⟩ := peeked.volume.opensShortly nameOk.plain (nameOk.listed boundU)
  obtain ⟨cache, data⟩ := shortly.data peeked away outside
  exact ⟨_, fragmentationStep_opened counts shortly cache data shortly.kept.1, shortly.peeked, shortly.cwd, shortly.quiet⟩

def Unnamed (s : FlatFs) (name : CString) : Prop :=
  name = [] ∨ Plain (splitPathFilename name).2 ∧ (splitPathFilename name).2 ∉ keys (rootSlots s)

theorem filesysOpen_unnamed (vol : Volume s n) (unnamed : Unnamed s name) :
    ∃ v, filesysOpen s name = (none, v) ∧ RootClosed s v ∧ v.usedFreed = s.usedFreed ∧ v.cwd = s.cwd ∧
      (Quiet s → Quiet v) := by
  rcases unnamed with rfl | ⟨plain, absent⟩
  · exact ⟨s, rfl, RootClosed.refl vol.mounted.handle, rfl, rfl, id⟩
  · have opened := dirOpenRoot_spec vol.mounted.handle
    obtain ⟨none, only⟩ := filesysOpen_absent vol.mounted plain absent
    have run := filesysOpen_nothing vol.mounted plain absent
    rw [run] at only
    exact ⟨_, run, only, dirClose_opened_freed vol.mounted, opened.restores opened.handle opened.cwd,
      opened.restoresQuiet opened.handle opened.cwd rfl⟩

theorem fragmentationDegree_unnamed (vol : Volume s n) (named : ∀ name ∈ keys (rootSlots s), FileName name)
    (unnamed : Unnamed s fileName) (start : Before (dirOpenRoot s).2 (dirOpenRoot s).1 k)
    (inside : k ≤ (rootSlots s).length) :
    (fragmentationDegree s fileName).1 = (bindings ((rootSlots s).drop k)).foldl (tally s) (0, 0) ∧
      Peeked s (fragmentationDegree s fileName).2 n ((bindings ((rootSlots s).drop k)).map Prod.snd) ∧
      (Shut s → Shut (fragmentationDegree s fileName).2) := by
  have opened := dirOpenRoot_spec vol.mounted.handle
  have first := (opened.only vol.mounted.dir.fine).peeked vol (congrArg Fs.usedFreed opened.rest :)
  have unnamedO : Unnamed (dirOpenRoot s).2 fileName := by
    rw [Unnamed, first.slots]
    exact unnamed
  obtain ⟨v, run, only, freed, cwd, quietV⟩ := filesysOpen_unnamed first.volume unnamedO
  have both := first.trans (only.peeked first.volume freed)
  have startV : Before v (dirOpenRoot s).1 k := by
    rw [Before, dirAt, cwd]
    exact start
  have enough := both.volume.mounted.dir.readdirCalls opened.dir.1 k
  rw [both.slots] at enough
  have files : ((bindings (rootSlots s)).map Prod.snd).Nodup := (List.nodup_cons.mp vol.owners).2
  have unseen : (([] : List BlockSector) ++ (bindings ((rootSlots s).drop k)).map Prod.snd).Nodup := by
    rw [List.nil_append]
    exact files.sublist (((List.drop_sublist k _).filterMap id).map Prod.snd)
  have current : v.cwd.isSome := by
    rw [cwd, opened.cwd]
    rfl
  obtain ⟨went, here, scan, current, quiet⟩ :=
    whileReaddir_peeked (fragmentationStep_peeks vol named) both unseen current startV inside enough (0, 0)
  have handle := scan.volume.mounted.handle
  have last := (dirClose_spec handle here scan.volume.mounted.foreign).peeked scan.volume
    (dirClose_freed handle here (handle.listed current))
  have all := scan.trans last
  rw [closedBy, if_pos rfl, List.append_nil] at all
  have step : fragmentationStep (0, 0) (dirOpenRoot s).2 fileName = ((0, 0), v) := by
    simp only [fragmentationStep, run]
  simp only [fragmentationDegree, step]
  refine ⟨went, all, fun shut => ?_⟩
  obtain ⟨before, once⟩ := opened.quiet shut.1 shut.quiet
  obtain ⟨after, once⟩ := quiet (quietV before) once
  exact after.dirClose scan.volume.mounted.handle here once

end degree

section verdict

variable {s : FlatFs} {x : BlockSector} {n k : Nat}

def neighbours (sectors : List BlockSector) : List (BlockSector × BlockSector) := sectors.zip sectors.tail

def FarApart (pair : BlockSector × BlockSector) : Prop := 3 < ((pair.1.toNat : Int) - pair.2.toNat).natAbs

instance (pair : BlockSector × BlockSector) : Decidable (FarApart pair) := inferInstanceAs (Decidable (_ < _))

def Fragmentable (s : FlatFs) (x : BlockSector) : Prop := 1 < (dataBlocks s x).length

def Fragmented (s : FlatFs) (x : BlockSector) : Prop :=
  Fragmentable s x ∧ ∃ pair ∈ neighbours (dataBlocks s x), FarApart pair

/-- Among its whole sectors some sector lies more than 3 behind the one before it. -/
def JumpsAhead (s : FlatFs) (x : BlockSector) : Prop :=
  ∃ pair ∈ neighbours ((dataBlocks s x).take (wholeBlocks s x)), pair.1.toNat + 3 < pair.2.toNat

instance (s : FlatFs) (x : BlockSector) : Decidable (Fragmentable s x) := inferInstanceAs (Decidable (_ < _))

instance (s : FlatFs) (x : BlockSector) : Decidable (Fragmented s x) := inferInstanceAs (Decidable (_ ∧ _))

theorem length_dataBlocks (s : FlatFs) (x : BlockSector) : (dataBlocks s x).length = (fileLen s x + 511) / 512 := by
  rw [dataBlocks, List.length_map, List.length_range]

theorem neighbours_take {sectors : List BlockSector} {m : Nat} {pair : BlockSector × BlockSector}
    (member : pair ∈ neighbours (sectors.take m)) : pair ∈ neighbours sectors ∧ 1 < m := by
  obtain ⟨i, found⟩ := List.mem_iff_getElem?.mp member
  obtain ⟨first, second⟩ := List.getElem?_zip_eq_some.mp found
  rw [List.getElem?_tail] at second
  have inside := (List.getElem?_eq_some_iff.mp second).1
  rw [List.length_take] at inside
  rw [List.getElem?_take_of_lt (by omega)] at first second
  refine ⟨List.mem_iff_getElem?.mpr ⟨i, List.getElem?_zip_eq_some.mpr ⟨first, ?_⟩⟩, by omega⟩
  rw [List.getElem?_tail]
  exact second

theorem Volume.block_small (vol : Volume s n) (listed : x ∈ rootFiles s) {a : BlockSector}
    (member : a ∈ dataBlocks s x) : a.toInt = a.toNat := by
  have file := (vol.file x listed).1
  have fits := file.good.fits
  simp only [MAX_LENGTH] at fits
  obtain ⟨i, below, rfl⟩ := List.mem_map.mp member
  have inside := List.mem_range.mp below
  have bound : i < MAX_SECTORS := by
    simp only [MAX_SECTORS]
    omega
  have node := blockAt_mem bound (file.blocks (by rw [file.sectorCount]; exact inside))
  have used := (file.good.used _ node).1
  obtain ⟨f, opened, -⟩ := vol.mounted.map
  have map := (vol.mounted.dir.fine.file f opened).layout.fits
  simp only [byteCnt, elemCnt, divRoundUp, ELEM_BITS, MAX_LENGTH] at map
  rw [BitVec.toInt_eq_toNat_of_lt (by omega)]

theorem Volume.talliedFragmented_iff (vol : Volume s n) (listed : x ∈ rootFiles s) :
    TalliedFragmented s x ↔ JumpsAhead s x := by
  have compare : ∀ pair ∈ neighbours ((dataBlocks s x).take (wholeBlocks s x)),
      3 < pair.2.toInt - pair.1.toInt ↔ pair.1.toNat + 3 < pair.2.toNat := by
    intro pair member
    have whole := (neighbours_take member).1
    obtain ⟨first, second⟩ := List.of_mem_zip whole
    rw [vol.block_small listed first, vol.block_small listed (List.mem_of_mem_tail second)]
    omega
  rw [TalliedFragmented, fragmented, List.any_eq_true, JumpsAhead]
  constructor
  · rintro ⟨-, pair, member, far⟩
    exact ⟨pair, member, (compare pair member).mp (of_decide_eq_true far)⟩
  · rintro ⟨pair, member, far⟩
    exact ⟨(neighbours_take member).2, pair, member, decide_eq_true ((compare pair member).mpr far)⟩

theorem Tallied.fragmentable (tallied : Tallied s x) : Fragmentable s x := by
  rw [Tallied, wholeBlocks] at tallied
  rw [Fragmentable, length_dataBlocks]
  omega

theorem JumpsAhead.fragmented (jumps : JumpsAhead s x) : Fragmented s x := by
  obtain ⟨pair, member, far⟩ := jumps
  obtain ⟨whole, many⟩ := neighbours_take member
  refine ⟨Tallied.fragmentable many, pair, whole, ?_⟩
  rw [FarApart]
  omega

theorem countP_eq_iff {α : Type} {p q : α → Bool} {l : List α} (less : ∀ a ∈ l, p a = true → q a = true) :
    l.countP p = l.countP q ↔ ∀ a ∈ l, q a = true → p a = true := by
  constructor
  · intro same
    induction l with
    | nil => simp
    | cons a rest ih =>
      have below := List.countP_mono_left (l := rest) fun b member => less b (List.mem_cons_of_mem _ member)
      have here := less a List.mem_cons_self
      rw [List.countP_cons, List.countP_cons] at same
      have both : rest.countP p = rest.countP q ∧ (q a = true → p a = true) := by
        by_cases pa : p a = true
        · rw [if_pos pa, if_pos (here pa)] at same
          exact ⟨by omega, fun _ => pa⟩
        · by_cases qa : q a = true
          · rw [if_neg pa, if_pos qa] at same
            omega
          · rw [if_neg pa, if_neg qa] at same
            exact ⟨by omega, fun always => absurd always qa⟩
      intro b member
      rcases List.mem_cons.mp member with rfl | later
      · exact both.2
      · exact ih (fun b member => less b (List.mem_cons_of_mem _ member)) both.1 b later
  · intro more
    apply List.countP_congr
    exact fun a member => ⟨less a member, more a member⟩

theorem fragmentable_iff_tallied : (Fragmentable s x → Tallied s x) ↔ fileLen s x ≤ 512 ∨ 1024 ≤ fileLen s x := by
  rw [Fragmentable, length_dataBlocks, Tallied, wholeBlocks]
  omega

def CountsRight (s : Fs BufferCache) (fileName : CString) : Prop :=
  (fragmentationDegree s fileName).1 = ((bindings (rootSlots s.flat)).countP (fun b => Fragmentable s.flat b.2),
    (bindings (rootSlots s.flat)).countP (fun b => Fragmented s.flat b.2))

theorem bindings_split (t : List (Option (CString × BlockSector))) (k : Nat) :
    bindings t = bindings (t.take k) ++ bindings (t.drop k) := by
  rw [bindings, bindings, bindings, ← List.filterMap_append, List.take_append_drop]

end verdict

/-- The counts are right exactly if the scan leaves out no file that it ought to count, no file ends in its second
sector, and a file whose sectors lie far apart somewhere also jumps ahead among its whole sectors. -/
theorem fragmentationDegree_right_iff (s : Fs BufferCache) {n k : Nat} (vol : Volume s.flat n)
    (named : ∀ name ∈ keys (rootSlots s.flat), FileName name) {fileName : CString} (unnamed : Unnamed s.flat fileName)
    (start : Before (dirOpenRoot s.flat).2 (dirOpenRoot s.flat).1 k) (inside : k ≤ (rootSlots s.flat).length) :
    CountsRight s fileName ↔
      (∀ b ∈ bindings ((rootSlots s.flat).take k), ¬Fragmentable s.flat b.2) ∧
        ∀ b ∈ bindings ((rootSlots s.flat).drop k), (fileLen s.flat b.2 ≤ 512 ∨ 1024 ≤ fileLen s.flat b.2) ∧
          (Fragmented s.flat b.2 → JumpsAhead s.flat b.2) := by
  obtain ⟨counts, -, -⟩ := fragmentationDegree_unnamed vol named unnamed start inside
  rw [← fragmentationDegree_flat, flatten_fst, tally_foldl, Nat.zero_add, Nat.zero_add] at counts
  rw [CountsRight, counts, bindings_split (rootSlots s.flat) k, List.countP_append, List.countP_append, Prod.mk.injEq]
  have listed : ∀ b ∈ bindings ((rootSlots s.flat).drop k), b.2 ∈ rootFiles s.flat := fun b member =>
    mem_rootFiles.mpr ⟨b.1, List.mem_of_mem_drop (mem_bindings.mp member)⟩
  have jumps : ∀ b ∈ bindings ((rootSlots s.flat).drop k), TalliedFragmented s.flat b.2 ↔ JumpsAhead s.flat b.2 :=
    fun b member => vol.talliedFragmented_iff (listed b member)
  generalize bindings ((rootSlots s.flat).take k) = left at *
  generalize bindings ((rootSlots s.flat).drop k) = reached at *
  have lessFirst : ∀ b ∈ reached, decide (Tallied s.flat b.2) = true → decide (Fragmentable s.flat b.2) = true :=
    fun b _ tallied => decide_eq_true (of_decide_eq_true tallied : Tallied s.flat b.2).fragmentable
  have lessSecond : ∀ b ∈ reached, decide (TalliedFragmented s.flat b.2) = true → decide (Fragmented s.flat b.2) = true :=
    fun b member tallied => decide_eq_true ((jumps b member).mp (of_decide_eq_true tallied)).fragmented
  have first := countP_eq_iff lessFirst
  have second := countP_eq_iff lessSecond
  have belowFirst := List.countP_mono_left lessFirst
  have belowSecond := List.countP_mono_left lessSecond
  constructor
  · rintro ⟨sameFirst, sameSecond⟩
    have none : left.countP (fun b => decide (Fragmentable s.flat b.2)) = 0 := by omega
    refine ⟨fun b member large => ?_, fun b member => ⟨?_, fun broken => ?_⟩⟩
    · exact List.countP_eq_zero.mp none b member (decide_eq_true large)
    · apply fragmentable_iff_tallied.mp
      intro large
      exact of_decide_eq_true (first.mp (by omega) b member (decide_eq_true large))
    · apply (jumps b member).mp
      exact of_decide_eq_true (second.mp (by omega) b member (decide_eq_true broken))
  · rintro ⟨left, reached⟩
    have noneFirst := List.countP_eq_zero.mpr fun b member => mt of_decide_eq_true (left b member)
    have noneSecond := List.countP_eq_zero.mpr fun b member =>
      mt (fun always => (of_decide_eq_true always : Fragmented s.flat b.2).1) (left b member)
    rw [noneFirst, noneSecond, Nat.zero_add, Nat.zero_add]
    refine ⟨first.mpr fun b member large => ?_, second.mpr fun b member broken => ?_⟩
    · exact decide_eq_true (fragmentable_iff_tallied.mpr (reached b member).1 (of_decide_eq_true large))
    · exact decide_eq_true ((jumps b member).mpr ((reached b member).2 (of_decide_eq_true broken)))

theorem fragmentationDegree_right_formatted : CountsRight (formatted 80) [] := by
  have general : ∀ s : Fs BufferCache, Fresh 80 s.flat → CountsRight s [] := by
    intro s fresh
    have empty : bindings (rootSlots s.flat) = [] := by
      rw [fresh.slots, bindings, List.filterMap_eq_nil_iff]
      exact fun slot member => List.eq_of_mem_replicate member
    have none : keys (rootSlots s.flat) = [] := congrArg (List.map Prod.fst) empty
    apply (fragmentationDegree_right_iff s fresh.volume (by rw [none]; simp) (Or.inl rfl) fresh.shut.before
      (Nat.zero_le _)).mpr
    rw [List.drop_zero, List.take_zero, empty]
    simp [bindings]
  exact general _ (formatted_fresh (by decide +kernel))

/-- The file "a" has 600 bytes and so two sectors, and is not counted. -/
theorem fragmentationDegree_misses : (filesysCreate (formatted 80) [97] 600 false).1 = true ∧
    ¬CountsRight (filesysCreate (formatted 80) [97] 600 false).2 [] := by
  have general : ∀ s : Fs BufferCache, Fresh 80 s.flat → (filesysCreate s [97] 600 false).1 = true →
      ¬CountsRight (filesysCreate s [97] 600 false).2 [] := by
    intro s fresh made right
    obtain ⟨n, x, just⟩ := @Fresh.createsA _ fresh 600 (by rw [← filesysCreate_flat]; exact made)
    rw [← filesysCreate_flat, flatten_snd] at just
    have exactly := (fragmentationDegree_right_iff _ just.volume just.named (Or.inl rfl) just.shut.before
      (Nat.zero_le _)).mp right
    rw [List.drop_zero, just.slots] at exactly
    have size : fileLen (filesysCreate s [97] 600 false).2.flat x = 600 := by
      rw [fileLen, just.length]
      decide
    have sized := (exactly.2 _ (List.mem_singleton.mpr rfl)).1
    rw [size] at sized
    omega
  have made : (filesysCreate (formatted 80) [97] 600 false).1 = true := formatted_makesA (by decide) (by decide)
  exact ⟨made, general _ (formatted_fresh (by decide +kernel)) made⟩

end ShellOs.FileSystem
