import ShellOs.FileSystem.BlockMap

/-! What `free_map_allocate` does to a file system whose free-map file is in order: it takes the
lowest clear bit, sets it, and brings the bitmap file up to date. -/

namespace ShellOs.FileSystem
open Lib BlockTree

def Used (b : Bitmap) (x : BlockSector) : Prop := x.toNat < b.bitCnt ∧ bitmapTest b x.toNat = true

/-- The sectors of an inode are its own and hold its first `len` bytes. -/
structure Layout (v : Disk) (b : Bitmap) (d : InodeDisk) (len : Nat) : Prop where
  length : d.length.toInt = len
  fits : len ≤ MAX_LENGTH
  mapped : Mapped v d len
  nodup : (inodeNodes v d).Nodup
  used : ∀ x ∈ inodeNodes v d, Used b x

def KeepsUsed (b b' : Bitmap) : Prop := ∀ x, Used b x → Used b' x

theorem Layout.congr {v w : Disk} {b b' : Bitmap} {d : InodeDisk} {len : Nat}
    (layout : Layout v b d len) (tables : ∀ x ∈ inodeInner v d, w x = v x)
    (used : ∀ x ∈ inodeNodes v d, Used b' x) : Layout w b' d len := by
  obtain ⟨nodes, -, blocks⟩ := inode_congr (d := d) (e := d) (fun _ _ => rfl) tables
  have fits := layout.fits
  simp only [MAX_LENGTH] at fits
  refine ⟨layout.length, layout.fits, fun i below => ?_, ?_, fun x member => ?_⟩
  · rw [blocks i (by simp only [MAX_SECTORS]; omega)]
    exact layout.mapped i below
  · rw [nodes]
    exact layout.nodup
  · rw [nodes] at member
    exact used x member

theorem Layout.small {v : Disk} {b : Bitmap} {d : InodeDisk} {len i : Nat}
    (layout : Layout v b d len) (below : i * 512 < len) : i < MAX_SECTORS := by
  have fits := layout.fits
  simp only [MAX_LENGTH] at fits
  simp only [MAX_SECTORS]
  omega

theorem Layout.block_used {v : Disk} {b : Bitmap} {d : InodeDisk} {len i : Nat}
    (layout : Layout v b d len) (below : i * 512 < len) : Used b (blockAt v d i) :=
  layout.used _ (blockAt_mem (layout.small below) (layout.mapped i below))

/-- The sectors that are left, the next one to be allocated first. -/
def freeSectors (b : Bitmap) : List BlockSector := (freeBits b).map (BitVec.ofNat 32)

theorem mem_freeSectors {b : Bitmap} (small : b.bitCnt < 2 ^ 32) {x : BlockSector} :
    x ∈ freeSectors b ↔ x.toNat < b.bitCnt ∧ bitmapTest b x.toNat = false := by
  simp only [freeSectors, List.mem_map, mem_freeBits]
  constructor
  · rintro ⟨i, ⟨inside, clear⟩, rfl⟩
    rw [BitVec.toNat_ofNat, Nat.mod_eq_of_lt (by omega)]
    exact ⟨inside, clear⟩
  · intro free
    exact ⟨x.toNat, free, by simp⟩

theorem freeSectors_nodup {b : Bitmap} (small : b.bitCnt < 2 ^ 32) : (freeSectors b).Nodup := by
  refine (List.nodup_map_iff_inj_on (freeBits_nodup b)).mpr fun i inI j inJ same => ?_
  have numbers := congrArg BitVec.toNat same
  have boundI := (mem_freeBits.mp inI).1
  have boundJ := (mem_freeBits.mp inJ).1
  rwa [BitVec.toNat_ofNat, BitVec.toNat_ofNat, Nat.mod_eq_of_lt (by omega),
    Nat.mod_eq_of_lt (by omega)] at numbers

theorem used_iff_not_free {b : Bitmap} (small : b.bitCnt < 2 ^ 32) {x : BlockSector} :
    Used b x ↔ x.toNat < b.bitCnt ∧ x ∉ freeSectors b := by
  rw [mem_freeSectors small]
  unfold Used
  cases bitmapTest b x.toNat <;> simp

structure BitmapFile (s : FlatFs) (inode : BlockSector) : Prop where
  listed : (s.findInode inode).isSome
  writable : s.inodeDenyWriteCnt inode = 0
  layout : Layout s.cache s.freeMap (s.inodeData inode) (byteCnt s.freeMap.bitCnt)

structure FreeMapOk (s : FlatFs) : Prop where
  small : s.freeMap.bitCnt < 2 ^ 32
  first : Used s.freeMap 0
  file : ∀ f, s.freeMapFile = some f → BitmapFile s f.inode

def freeMapNodes (s : FlatFs) : List BlockSector :=
  match s.freeMapFile with
  | none => []
  | some f => inodeNodes s.cache (s.inodeData f.inode)

def freeMapData (s : FlatFs) : List BlockSector :=
  match s.freeMapFile with
  | none => []
  | some f => (List.range ((byteCnt s.freeMap.bitCnt + 511) / 512)).map
      (blockAt s.cache (s.inodeData f.inode))

def Synced (s : FlatFs) : Prop :=
  ∀ f, s.freeMapFile = some f → ∀ i, i < s.freeMap.bitCnt →
    (byteAt s.cache (s.inodeData f.inode) (i / 8)).getLsbD (i % 8) = bitmapTest s.freeMap i

theorem byte_inside {bitCnt i : Nat} (inside : i < bitCnt) : i / 8 < byteCnt bitCnt := by
  simp only [byteCnt, elemCnt, divRoundUp, ELEM_BITS]
  omega

theorem freeMapNodes_closed {s : FlatFs} (closed : s.freeMapFile = none) : freeMapNodes s = [] := by
  simp only [freeMapNodes, closed]

theorem freeMapData_closed {s : FlatFs} (closed : s.freeMapFile = none) : freeMapData s = [] := by
  simp only [freeMapData, closed]

theorem freeMapNodes_open {s : FlatFs} {f : File} (opened : s.freeMapFile = some f) :
    freeMapNodes s = inodeNodes s.cache (s.inodeData f.inode) := by
  simp only [freeMapNodes, opened]

theorem freeMapData_open {s : FlatFs} {f : File} (opened : s.freeMapFile = some f) :
    freeMapData s = (List.range ((byteCnt s.freeMap.bitCnt + 511) / 512)).map
      (blockAt s.cache (s.inodeData f.inode)) := by
  simp only [freeMapData, opened]

theorem mem_freeMapData {s : FlatFs} {f : File} (opened : s.freeMapFile = some f) {x : BlockSector} :
    x ∈ freeMapData s ↔ ∃ i, i * 512 < byteCnt s.freeMap.bitCnt ∧
      blockAt s.cache (s.inodeData f.inode) i = x := by
  simp only [freeMapData_open opened, List.mem_map, List.mem_range]
  constructor <;> rintro ⟨i, below, same⟩ <;> exact ⟨i, by omega, same⟩

theorem freeMapData_sub {s : FlatFs} (ok : FreeMapOk s) {x : BlockSector}
    (member : x ∈ freeMapData s) : x ∈ freeMapNodes s := by
  cases opened : s.freeMapFile with
  | none => simp [freeMapData_closed opened] at member
  | some f =>
    obtain ⟨i, below, rfl⟩ := (mem_freeMapData opened).mp member
    have layout := (ok.file f opened).layout
    rw [freeMapNodes_open opened]
    exact blockAt_mem (layout.small below) (layout.mapped i below)

theorem freeMapNodes_used {s : FlatFs} (ok : FreeMapOk s) {x : BlockSector}
    (member : x ∈ freeMapNodes s) : Used s.freeMap x := by
  cases opened : s.freeMapFile with
  | none => simp [freeMapNodes_closed opened] at member
  | some f => exact (ok.file f opened).layout.used x (freeMapNodes_open opened ▸ member)

theorem zero_not_mem_freeMapNodes (s : FlatFs) : (0 : BlockSector) ∉ freeMapNodes s := by
  unfold freeMapNodes
  split
  · simp
  · exact zero_not_mem_inodeNodes _ _

theorem used_ne_noSector {b : Bitmap} (small : b.bitCnt < 2 ^ 32) {x : BlockSector}
    (used : Used b x) : x ≠ NO_SECTOR := by
  rintro rfl
  have bound := used.1
  simp only [BitVec.toNat_allOnes] at bound
  omega

theorem inodeWriteWith_inside (allocate : FlatFs → Option BlockSector × FlatFs) {s : FlatFs} {inode : BlockSector} {len n o : Nat}
    (small : s.freeMap.bitCnt < 2 ^ 32) (settled : Settled s inode)
    (writable : s.inodeDenyWriteCnt inode = 0)
    (layout : Layout s.cache s.freeMap (s.inodeData inode) len) (some : 0 < n) (bound : o + n ≤ len)
    (buffer : Nat → Byte) :
    ∃ w, inodeWriteWith allocate s inode buffer n o = ((n : Int), { s with cache := w }) ∧
      Wrote s.cache w (s.inodeData inode) len o n buffer := by
  have fits := layout.fits
  simp only [MAX_LENGTH] at fits
  have last : offsetOf ((o : Int) + n - 1) = ((o + n - 1 : Nat) : Int) := by
    rw [offsetOf_eq (by omega) (by omega)]
    omega
  have inside : ((o + n - 1) / 512) * 512 < len := by omega
  obtain ⟨w, run, wrote⟩ := inodeWriteLoop_spec settled layout.length layout.fits layout.mapped
    layout.nodup buffer n o 0 bound
  refine ⟨w, ?_, by simpa only [Nat.zero_add] using wrote⟩
  unfold inodeWriteWith
  rw [if_neg (by simp [writable]), last,
    byteToSector_blockAt layout.length layout.fits layout.mapped (by omega)]
  simp only
  rw [if_neg (used_ne_noSector small (layout.block_used inside))]
  simpa only [Nat.zero_add, Nat.cast_zero] using run

theorem byteCnt_pos {b : Bitmap} (some : 0 < b.bitCnt) : 0 < byteCnt b.bitCnt := by
  simp only [byteCnt, elemCnt, divRoundUp, ELEM_BITS]
  omega

theorem bitmapWriteWith_spec {s : FlatFs} {f : File} (ok : FreeMapOk s)
    (opened : s.freeMapFile = some f) (depth : Nat) :
    ∃ w, bitmapWriteWith (inodeWriteDepth (depth + 1)) s f = (true, { s with cache := w }) ∧
      (∀ x, x ∉ freeMapData s → w x = s.cache x) ∧ Synced { s with cache := w } := by
  have file := ok.file f opened
  have positive := byteCnt_pos (Nat.zero_lt_of_lt ok.first.1)
  have fits := file.layout.fits
  simp only [MAX_LENGTH] at fits
  have size : offsetOf (bitmapFileSize s.freeMap) = (byteCnt s.freeMap.bitCnt : Nat) := by
    rw [bitmapFileSize, offsetOf_eq (by omega) (by omega)]
  obtain ⟨w, run, wrote⟩ := inodeWriteWith_inside (o := 0)
    (freeMapAllocateWith (inodeWriteDepth depth) 1) ok.small (Or.inl file.listed) file.writable file.layout
    positive (by omega) (bitmapBytes s.freeMap)
  refine ⟨w, ?_, fun x apart => wrote.frame x fun i _ below same => ?_, fun g same k inside => ?_⟩
  · simp only [Nat.cast_zero] at run
    simp only [bitmapWriteWith, size, inodeWriteDepth, run, decide_true]
  · exact apart ((mem_freeMapData opened).mpr ⟨i, by omega, same.symm⟩)
  · have data : ({ s with cache := w } : FlatFs).inodeData f.inode = s.inodeData f.inode :=
      Fs.inodeData_of_listed file.listed rfl
    have which : g = f := Option.some.inj (same.symm.trans opened)
    subst which
    simp only [data] at inside ⊢
    have below := byte_inside inside
    rw [wrote.bytes (k / 8) (by omega), if_pos (by omega), Nat.sub_zero, getLsbD_bitmapBytes]

theorem bitmapWrite_spec {s : FlatFs} {f : File} (ok : FreeMapOk s) (opened : s.freeMapFile = some f) :
    ∃ w, bitmapWrite s f = (true, { s with cache := w }) ∧ (∀ x, x ∉ freeMapData s → w x = s.cache x) ∧
      Synced { s with cache := w } := by
  have depth : bitmapWrite s f = bitmapWriteWith (inodeWriteDepth (s.freeMap.bitCnt + 1 + 1)) s f := by
    simp only [bitmapWrite, bitmapWriteWith, inodeWriteAt, Nat.add_assoc, Nat.reduceAdd]
    rfl
  rw [depth]
  exact bitmapWriteWith_spec ok opened (s.freeMap.bitCnt + 1)

/-- The sectors `new` have been taken from the free map, and only they, the sectors `touched`, the
free-map file and sector 0 may hold other bytes than before. -/
structure Took (s s' : FlatFs) (new touched : List BlockSector) : Prop where
  rest : s' = { s with cache := s'.cache, freeMap := s'.freeMap, openInodes := s'.openInodes }
  size : s'.freeMap.bitCnt = s.freeMap.bitCnt
  free : freeSectors s.freeMap = new ++ freeSectors s'.freeMap
  frame : ∀ x, x ≠ 0 → x ∉ new → x ∉ touched → x ∉ freeMapData s → s'.cache x = s.cache x
  nodes : freeMapNodes s' = freeMapNodes s
  data : freeMapData s' = freeMapData s
  ok : FreeMapOk s'
  synced : Synced s → Synced s'

namespace Took

theorem refl {s : FlatFs} (ok : FreeMapOk s) : Took s s [] [] :=
  ⟨rfl, rfl, rfl, fun _ _ _ _ _ => rfl, rfl, rfl, ok, id⟩

theorem freeMapFile {s s' : FlatFs} {new touched : List BlockSector}
    (took : Took s s' new touched) : s'.freeMapFile = s.freeMapFile := by rw [took.rest]

theorem trans {s t u : FlatFs} {newA newB touchedA touchedB touched : List BlockSector}
    (early : Took s t newA touchedA) (late : Took t u newB touchedB)
    (first : ∀ x ∈ touchedA, x ∈ touched) (second : ∀ x ∈ touchedB, x ∈ touched ∨ x ∈ newA) :
    Took s u (newA ++ newB) touched := by
  refine ⟨?_, late.size.trans early.size, ?_, fun x nonzero fresh apart other => ?_,
    late.nodes.trans early.nodes, late.data.trans early.data, late.ok,
    fun synced => late.synced (early.synced synced)⟩
  · rw [late.rest, early.rest]
  · rw [early.free, late.free, List.append_assoc]
  · simp only [List.mem_append, not_or] at fresh
    have inLate : x ∉ touchedB := fun member => by
      rcases second x member with old | new
      · exact apart old
      · exact fresh.1 new
    rw [late.frame x nonzero fresh.2 inLate (early.data ▸ other),
      early.frame x nonzero fresh.1 (fun member => apart (first x member)) other]

theorem touch {s s' : FlatFs} {new touched more : List BlockSector} (took : Took s s' new touched)
    (sub : ∀ x ∈ touched, x ∈ more) : Took s s' new more :=
  { took with
    frame := fun x nonzero fresh apart => took.frame x nonzero fresh fun member => apart (sub x member) }

theorem small {s s' : FlatFs} {new touched : List BlockSector} (took : Took s s' new touched) :
    s.freeMap.bitCnt < 2 ^ 32 := took.size ▸ took.ok.small

theorem keepsUsed {s s' : FlatFs} {new touched : List BlockSector} (took : Took s s' new touched) :
    KeepsUsed s.freeMap s'.freeMap := by
  intro x used
  rw [used_iff_not_free took.small] at used
  rw [used_iff_not_free took.ok.small, took.size]
  refine ⟨used.1, fun free => used.2 ?_⟩
  rw [took.free]
  exact List.mem_append_right _ free

theorem new_free {s s' : FlatFs} {new touched : List BlockSector} (took : Took s s' new touched)
    {x : BlockSector} (member : x ∈ new) : x ∈ freeSectors s.freeMap := by
  rw [took.free]
  exact List.mem_append_left _ member

theorem new_not_used {s s' : FlatFs} {new touched : List BlockSector} (took : Took s s' new touched)
    {x : BlockSector} (member : x ∈ new) : ¬Used s.freeMap x := by
  rw [used_iff_not_free took.small]
  exact fun used => used.2 (took.new_free member)

theorem new_nodup {s s' : FlatFs} {new touched : List BlockSector} (took : Took s s' new touched) :
    new.Nodup := by
  have all := freeSectors_nodup took.small
  rw [took.free] at all
  exact all.of_append_left

theorem new_used {s s' : FlatFs} {new touched : List BlockSector} (took : Took s s' new touched)
    {x : BlockSector} (member : x ∈ new) : Used s'.freeMap x := by
  have all := freeSectors_nodup took.small
  rw [took.free, List.nodup_append] at all
  rw [used_iff_not_free took.ok.small, took.size]
  exact ⟨((mem_freeSectors took.small).mp (took.new_free member)).1,
    fun still => all.2.2 x member x still rfl⟩

theorem new_ne_zero {s s' : FlatFs} {new touched : List BlockSector} (ok : FreeMapOk s)
    (took : Took s s' new touched) {x : BlockSector} (member : x ∈ new) : x ≠ 0 :=
  fun zero => took.new_not_used member (zero ▸ ok.first)

theorem new_not_freeMapNodes {s s' : FlatFs} {new touched : List BlockSector} (ok : FreeMapOk s)
    (took : Took s s' new touched) {x : BlockSector} (member : x ∈ new) : x ∉ freeMapNodes s :=
  fun inside => took.new_not_used member (freeMapNodes_used ok inside)

end Took

theorem FreeMapOk.kept {s : FlatFs} (ok : FreeMapOk s) {b : Bitmap} (keeps : KeepsUsed s.freeMap b) :
    ∀ x, x = 0 ∨ x ∈ freeMapNodes s → Used b x := by
  rintro x (rfl | member)
  · exact keeps 0 ok.first
  · exact keeps x (freeMapNodes_used ok member)

theorem FreeMapOk.change {s : FlatFs} (ok : FreeMapOk s) {w : Disk} {b : Bitmap}
    (size : b.bitCnt = s.freeMap.bitCnt) (kept : ∀ x, x = 0 ∨ x ∈ freeMapNodes s → Used b x)
    (tables : ∀ x ∈ freeMapNodes s, x ∉ freeMapData s → w x = s.cache x) :
    FreeMapOk { s with cache := w, freeMap := b } ∧
      freeMapNodes { s with cache := w, freeMap := b } = freeMapNodes s ∧
      freeMapData { s with cache := w, freeMap := b } = freeMapData s := by
  have open' : ∀ f, s.freeMapFile = some f →
      BitmapFile { s with cache := w, freeMap := b } f.inode ∧
      ({ s with cache := w, freeMap := b } : FlatFs).inodeData f.inode = s.inodeData f.inode ∧
      inodeNodes w (s.inodeData f.inode) = inodeNodes s.cache (s.inodeData f.inode) ∧
      ∀ i, i < MAX_SECTORS →
        blockAt w (s.inodeData f.inode) i = blockAt s.cache (s.inodeData f.inode) i := by
    intro f opened
    have file := ok.file f opened
    have inner : ∀ x ∈ inodeInner s.cache (s.inodeData f.inode), w x = s.cache x := by
      intro x member
      refine tables x ?_ fun inData => ?_
      · rw [freeMapNodes_open opened]
        exact inodeInner_sub member
      · obtain ⟨i, below, rfl⟩ := (mem_freeMapData opened).mp inData
        exact blockAt_not_inner file.layout.nodup (file.layout.small below) member
    have data : ({ s with cache := w, freeMap := b } : FlatFs).inodeData f.inode =
        s.inodeData f.inode := Fs.inodeData_of_listed file.listed rfl
    obtain ⟨nodes, -, blocks⟩ := inode_congr (d := s.inodeData f.inode) (fun _ _ => rfl) inner
    refine ⟨⟨file.listed, file.writable, ?_⟩, data, nodes, blocks⟩
    rw [data, size]
    refine file.layout.congr inner fun x member => kept x (Or.inr ?_)
    rw [freeMapNodes_open opened]
    exact member
  refine ⟨⟨size ▸ ok.small, kept 0 (Or.inl rfl), fun f opened => (open' f opened).1⟩, ?_, ?_⟩
  · obtain closed | ⟨f, opened⟩ := s.freeMapFile.eq_none_or_eq_some
    · rw [freeMapNodes_closed (s := s) closed]
      exact freeMapNodes_closed closed
    · obtain ⟨-, data, nodes, -⟩ := open' f opened
      rw [freeMapNodes_open (s := s) opened, ← nodes, ← data]
      exact freeMapNodes_open opened
  · obtain closed | ⟨f, opened⟩ := s.freeMapFile.eq_none_or_eq_some
    · rw [freeMapData_closed (s := s) closed]
      exact freeMapData_closed closed
    · obtain ⟨-, data, -, blocks⟩ := open' f opened
      have layout := (ok.file f opened).layout
      rw [freeMapData_open (s := s) opened]
      refine (freeMapData_open (s := { s with cache := w, freeMap := b }) opened).trans ?_
      simp only [data, size]
      apply List.map_congr_left
      intro i member
      have below := List.mem_range.mp member
      exact blocks i (layout.small (by omega))

theorem FreeMapOk.reopen {s : FlatFs} (ok : FreeMapOk s) {l : List Inode}
    (same : ∀ f, s.freeMapFile = some f →
      ({ s with openInodes := l } : FlatFs).findInode f.inode = s.findInode f.inode) :
    FreeMapOk { s with openInodes := l } ∧ freeMapNodes { s with openInodes := l } = freeMapNodes s ∧
      freeMapData { s with openInodes := l } = freeMapData s ∧
      (Synced s → Synced { s with openInodes := l }) := by
  have data : ∀ f, s.freeMapFile = some f →
      ({ s with openInodes := l } : FlatFs).inodeData f.inode = s.inodeData f.inode := by
    intro f opened
    simp only [Fs.inodeData, same f opened]
  have deny : ∀ f, s.freeMapFile = some f →
      ({ s with openInodes := l } : FlatFs).inodeDenyWriteCnt f.inode =
        s.inodeDenyWriteCnt f.inode := by
    intro f opened
    simp only [Fs.inodeDenyWriteCnt, same f opened]
  refine ⟨⟨ok.small, ok.first, fun f opened => ?_⟩, ?_, ?_, fun synced f opened k inside => ?_⟩
  · have file := ok.file f opened
    exact ⟨by rw [same f opened]; exact file.listed, by rw [deny f opened]; exact file.writable,
      by rw [data f opened]; exact file.layout⟩
  · obtain closed | ⟨f, opened⟩ := s.freeMapFile.eq_none_or_eq_some
    · rw [freeMapNodes_closed (s := s) closed]
      exact freeMapNodes_closed closed
    · rw [freeMapNodes_open (s := s) opened, ← data f opened]
      exact freeMapNodes_open opened
  · obtain closed | ⟨f, opened⟩ := s.freeMapFile.eq_none_or_eq_some
    · rw [freeMapData_closed (s := s) closed]
      exact freeMapData_closed closed
    · rw [freeMapData_open (s := s) opened, ← data f opened]
      exact freeMapData_open opened
  · rw [data f opened]
    exact synced f opened k inside

theorem Synced.change {s : FlatFs} (ok : FreeMapOk s) (synced : Synced s) {w : Disk}
    (same : ∀ x ∈ freeMapNodes s, w x = s.cache x) : Synced { s with cache := w } := by
  intro f opened k inside
  have file := ok.file f opened
  have data : ({ s with cache := w } : FlatFs).inodeData f.inode = s.inodeData f.inode :=
    Fs.inodeData_of_listed file.listed rfl
  rw [freeMapNodes_open (s := s) opened] at same
  have below := byte_inside inside
  simp only at below
  have small := file.layout.small (i := k / 8 / 512) (by omega)
  obtain ⟨-, -, blocks⟩ := inode_congr (d := s.inodeData f.inode) (fun _ _ => rfl)
    fun x member => same x (inodeInner_sub member)
  rw [← synced f opened k inside]
  simp only [data, byteAt]
  rw [blocks _ small, same _ (blockAt_mem small (file.layout.mapped _ (by omega)))]

theorem Took.overwrite {s s' : FlatFs} {new touched : List BlockSector} (took : Took s s' new touched)
    {w : Disk} (kept : ∀ y, y ≠ 0 → y ∉ new → y ∉ touched → w y = s'.cache y)
    (apart : ∀ y ∈ freeMapNodes s, w y = s'.cache y) : Took s { s' with cache := w } new touched := by
  have elsewhere : ∀ y ∈ freeMapNodes s', w y = s'.cache y := fun y member =>
    apart y (took.nodes ▸ member)
  obtain ⟨ok, nodes, data⟩ := took.ok.change (w := w) rfl
    (took.ok.kept fun _ used => used) fun y member _ => elsewhere y member
  refine ⟨?_, took.size, took.free, fun y nonzero fresh mine other => ?_, nodes.trans took.nodes,
    data.trans took.data, ok, fun synced => (took.synced synced).change took.ok elsewhere⟩
  · conv_lhs => rw [took.rest]
  · exact (kept y nonzero fresh mine).trans (took.frame y nonzero fresh mine other)

theorem Took.write {s s' : FlatFs} {new touched : List BlockSector} (took : Took s s' new touched)
    {x : BlockSector} (owned : x = 0 ∨ x ∈ new ∨ x ∈ touched) (apart : x ∉ freeMapNodes s) (b : Sector) :
    Took s (s'.bufferCacheWrite x b) new touched := by
  refine took.overwrite (w := Function.update s'.cache x b) (fun y nonzero fresh mine => ?_) fun y member => ?_
  · refine Function.update_of_ne ?_ _ _
    rintro rfl
    rcases owned with zero | inNew | inTouched
    · exact nonzero zero
    · exact fresh inNew
    · exact mine inTouched
  · exact Function.update_of_ne (fun same : y = x => apart (same ▸ member)) _ _

theorem Took.reopen {s s' : FlatFs} {new touched : List BlockSector} (took : Took s s' new touched)
    {l : List Inode} (same : ∀ f, s'.freeMapFile = some f →
      ({ s' with openInodes := l } : FlatFs).findInode f.inode = s'.findInode f.inode) :
    Took s { s' with openInodes := l } new touched := by
  obtain ⟨ok, nodes, data, synced⟩ := took.ok.reopen same
  refine ⟨?_, took.size, took.free, took.frame, nodes.trans took.nodes, data.trans took.data, ok,
    fun before => synced (took.synced before)⟩
  conv_lhs => rw [took.rest]

/-- `free_map_allocate (1, p)` on a file system whose free-map file is in order. -/
def Allocates (allocate : FlatFs → Option BlockSector × FlatFs) : Prop :=
  ∀ s, FreeMapOk s → (freeSectors s.freeMap = [] → allocate s = (none, s)) ∧
    ∀ x rest, freeSectors s.freeMap = x :: rest →
      ∃ s', allocate s = (some x, s') ∧ Took s s' [x] [] ∧ s'.cache 0 = s.cache 0 ∧
        s'.openInodes = s.openInodes

theorem scanAndFlip_none {b : Bitmap} (full : freeSectors b = []) :
    bitmapScanAndFlip b 0 1 false = (BITMAP_ERROR, b) := by
  have none : freeBits b = [] := List.map_eq_nil_iff.mp full
  simp [bitmapScanAndFlip, bitmapScan_one, none]

theorem scanAndFlip_some {b : Bitmap} (small : b.bitCnt < 2 ^ 32) {x : BlockSector}
    {rest : List BlockSector} (free : freeSectors b = x :: rest) :
    bitmapScanAndFlip b 0 1 false = (x.toNat, bitmapSet b x.toNat true) ∧
      freeSectors (bitmapSet b x.toNat true) = rest := by
  obtain ⟨a, others, bits, rfl, rfl⟩ := List.map_eq_cons_iff.mp free
  have inside := (mem_freeBits.mp (bits ▸ List.mem_cons_self : a ∈ freeBits b)).1
  have number : (BitVec.ofNat 32 a).toNat = a := by
    rw [BitVec.toNat_ofNat, Nat.mod_eq_of_lt (by omega)]
  have scan : bitmapScan b 0 1 false = a := by simp [bitmapScan_one, bits]
  have proper : a ≠ BITMAP_ERROR := by
    simp only [BITMAP_ERROR]
    omega
  refine ⟨?_, ?_⟩
  · simp only [bitmapScanAndFlip, scan, if_pos proper, bitmapSetMultiple_one, number, Bool.not_false]
  · rw [number]
    unfold freeSectors
    rw [freeBits_set_head bits]

theorem keepsUsed_set (b : Bitmap) (i : Nat) : KeepsUsed b (bitmapSet b i true) := by
  intro x used
  refine ⟨by simpa using used.1, ?_⟩
  rw [bitmapTest_set]
  split
  · rfl
  · exact used.2

theorem allocates_of_depth (depth : Nat) :
    Allocates (freeMapAllocateWith (inodeWriteDepth (depth + 1)) 1) := by
  intro s ok
  refine ⟨fun full => ?_, fun x rest free => ?_⟩
  · simp [freeMapAllocateWith, scanAndFlip_none full]
  obtain ⟨scan, remaining⟩ := scanAndFlip_some ok.small free
  have inside := ((mem_freeSectors ok.small).mp (free ▸ List.mem_cons_self : x ∈ freeSectors s.freeMap))
  have proper : x.toNat ≠ BITMAP_ERROR := by
    have := ok.small
    simp only [BITMAP_ERROR]
    omega
  have keeps := keepsUsed_set s.freeMap x.toNat
  obtain ⟨flippedOk, flippedNodes, flippedData⟩ := ok.change (w := s.cache)
    (b := bitmapSet s.freeMap x.toNat true) (by simp) (ok.kept keeps) fun _ _ _ => rfl
  have freeNow : freeSectors s.freeMap = [x] ++ freeSectors (bitmapSet s.freeMap x.toNat true) := by
    rw [remaining, free]
    rfl
  obtain closed | ⟨f, opened⟩ := s.freeMapFile.eq_none_or_eq_some
  · refine ⟨{ s with freeMap := bitmapSet s.freeMap x.toNat true }, ?_, ?_, rfl, rfl⟩
    · simp only [freeMapAllocateWith, scan, if_neg proper, closed, BitVec.ofNat_toNat,
        BitVec.setWidth_eq]
    · exact ⟨rfl, by simp, freeNow, fun _ _ _ _ _ => rfl, flippedNodes, flippedData, flippedOk,
        fun _ g same => by simp [closed] at same⟩
  · obtain ⟨w, run, frame, synced⟩ := bitmapWriteWith_spec flippedOk opened depth
    simp only [flippedData] at frame
    obtain ⟨writtenOk, writtenNodes, writtenData⟩ := ok.change (w := w)
      (b := bitmapSet s.freeMap x.toNat true) (by simp) (ok.kept keeps) fun y _ apart => frame y apart
    refine ⟨{ s with cache := w, freeMap := bitmapSet s.freeMap x.toNat true }, ?_, ?_, ?_, rfl⟩
    · simp only [opened] at run
      simp only [freeMapAllocateWith, scan, if_neg proper, opened, run, if_true, BitVec.ofNat_toNat,
        BitVec.setWidth_eq]
    · exact ⟨rfl, by simp, freeNow, fun y _ _ _ apart => frame y apart, writtenNodes, writtenData,
        writtenOk, fun _ => synced⟩
    · exact frame 0 fun member => zero_not_mem_freeMapNodes s (freeMapData_sub ok member)

theorem scanAndFlip_bitCnt (b : Bitmap) (start cnt : Nat) (value : Bool) :
    (bitmapScanAndFlip b start cnt value).2.bitCnt = b.bitCnt := by
  unfold bitmapScanAndFlip
  simp only
  split
  · exact (bitmapSetMultiple_spec _ _ _ _).1
  · rfl

theorem freeMapAllocate_allocates : Allocates fun s => freeMapAllocate s 1 := by
  intro s ok
  have depth : freeMapAllocate s 1 =
      freeMapAllocateWith (inodeWriteDepth (s.freeMap.bitCnt + 2)) 1 s := by
    simp only [freeMapAllocate, freeMapAllocateWith, bitmapWriteWith, inodeWriteAt,
      scanAndFlip_bitCnt]
    rfl
  simp only [depth]
  exact allocates_of_depth (s.freeMap.bitCnt + 1) s ok

end ShellOs.FileSystem
