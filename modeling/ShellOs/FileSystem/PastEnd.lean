import ShellOs.FileSystem.DataSectors

/-! What `recover (2)` finds past the end of a file. -/

namespace ShellOs.FileSystem
open Lib

/-- The bytes of a block that are not NUL, from `used` on, lie between these two, which are such bytes themselves. -/
structure HiddenIn (block : Sector) (used first last : Nat) : Prop where
  low : used ≤ first
  order : first ≤ last
  inside : last < BLOCK_SECTOR_SIZE
  firstByte : sectorByte block first ≠ 0
  lastByte : sectorByte block last ≠ 0
  before : ∀ i, used ≤ i → i < first → sectorByte block i = 0
  after : ∀ i, last < i → i < BLOCK_SECTOR_SIZE → sectorByte block i = 0

def blockBytes (block : Sector) (start len : Nat) : List Byte := (List.range' start len).map (sectorByte block)

/-- The two loops of `recover_past_end` over one block: where the hidden data starts and where it ends. -/
def hiddenRange (block : Sector) (start : Nat) : Nat × Nat :=
  let found := (List.range' start (BLOCK_SECTOR_SIZE - start)).find? fun y => sectorByte block y != 0
  let bounds := match found with
    | none => (start, start)
    | some y => (y, y + 1)
  (bounds.1, (List.range' (bounds.1 + 1) (BLOCK_SECTOR_SIZE - (bounds.1 + 1))).foldl
    (fun last z => if sectorByte block z != 0 then z + 1 else last) bounds.2)

section block

variable {block : Sector} {used first last : Nat}

theorem lastLoop_spec (block : Sector) (start count finish : Nat) :
    let ends := (List.range' start count).foldl (fun last z => if sectorByte block z != 0 then z + 1 else last) finish
    ends = finish ∧ (∀ z, start ≤ z → z < start + count → sectorByte block z = 0) ∨
      ∃ z, ends = z + 1 ∧ start ≤ z ∧ z < start + count ∧ sectorByte block z ≠ 0 ∧
        ∀ y, z < y → y < start + count → sectorByte block y = 0 := by
  induction count with
  | zero => exact Or.inl ⟨rfl, fun z low high => absurd high (Nat.not_lt.mpr low)⟩
  | succ count ih =>
    intro ends
    have step : ends = if sectorByte block (start + count) != 0 then start + count + 1 else
        (List.range' start count).foldl (fun last z => if sectorByte block z != 0 then z + 1 else last) finish := by
      simp only [ends, List.range'_1_concat, List.foldl_append, List.foldl_cons, List.foldl_nil]
    by_cases zero : sectorByte block (start + count) = 0
    · rw [zero] at step
      rcases ih with ⟨same, clear⟩ | ⟨z, found, low, high, some, clear⟩
      · refine Or.inl ⟨step.trans same, fun z low high => ?_⟩
        by_cases newest : z = start + count
        · rw [newest, zero]
        · exact clear z low (by omega)
      · refine Or.inr ⟨z, step.trans found, low, by omega, some, fun y later high => ?_⟩
        by_cases newest : y = start + count
        · rw [newest, zero]
        · exact clear y later (by omega)
    · rw [if_pos (bne_iff_ne.mpr zero)] at step
      exact Or.inr ⟨start + count, step, by omega, by omega, zero, fun y later high => by omega⟩

theorem hiddenRange_spec (block : Sector) {start : Nat} (inside : start ≤ BLOCK_SECTOR_SIZE) :
    hiddenRange block start = (start, start) ∧
        (∀ i, start ≤ i → i < BLOCK_SECTOR_SIZE → sectorByte block i = 0) ∨
      ∃ first last, HiddenIn block start first last ∧ hiddenRange block start = (first, last + 1) := by
  cases found : (List.range' start (BLOCK_SECTOR_SIZE - start)).find? fun y => sectorByte block y != 0 with
  | none =>
    have clear : ∀ i, start ≤ i → i < BLOCK_SECTOR_SIZE → sectorByte block i = 0 := by
      rw [List.find?_range'_eq_none] at found
      intro i low high
      have byte := found i low (by omega)
      simpa using byte
    refine Or.inl ⟨?_, clear⟩
    simp only [hiddenRange, found]
    rcases lastLoop_spec block (start + 1) (BLOCK_SECTOR_SIZE - (start + 1)) start with
      ⟨same, -⟩ | ⟨z, -, low, high, some, -⟩
    · rw [same]
    · exact absurd (clear z (by omega) (by omega)) some
  | some y =>
    obtain ⟨byte, bounds, skipped⟩ := List.find?_range'_eq_some.mp found
    rw [List.mem_range'_1] at bounds
    have before : ∀ i, start ≤ i → i < y → sectorByte block i = 0 := by
      intro i low early
      have clear := skipped i low early
      simpa using clear
    right
    simp only [hiddenRange, found]
    rcases lastLoop_spec block (y + 1) (BLOCK_SECTOR_SIZE - (y + 1)) (y + 1) with
      ⟨same, clear⟩ | ⟨z, same, low, high, some, clear⟩
    · refine ⟨y, y, ⟨bounds.1, Nat.le_refl y, by omega, bne_iff_ne.mp byte, bne_iff_ne.mp byte, before, ?_⟩,
        by rw [same]⟩
      exact fun i later high => clear i later (by omega)
    · refine ⟨y, z, ⟨bounds.1, by omega, by omega, bne_iff_ne.mp byte, some, before, ?_⟩, by rw [same]⟩
      exact fun i later high => clear i later (by omega)

theorem blockBytes_append (block : Sector) (start m n : Nat) :
    blockBytes block start (m + n) = blockBytes block start m ++ blockBytes block (start + m) n := by
  rw [blockBytes, ← List.range'_append_1, List.map_append, blockBytes, blockBytes]

theorem blockBytes_drop (block : Sector) (inside : used ≤ BLOCK_SECTOR_SIZE) :
    (List.ofFn block).drop used = blockBytes block used (BLOCK_SECTOR_SIZE - used) := by
  have whole : List.ofFn block = blockBytes block 0 (used + (BLOCK_SECTOR_SIZE - used)) := by
    rw [Nat.add_sub_cancel' inside, blockBytes, ← List.range_eq_range']
    refine List.ext_getElem (by rw [List.length_ofFn, List.length_map, List.length_range]) fun i low high => ?_
    simp only [List.length_ofFn] at low
    simp only [List.getElem_ofFn, List.getElem_map, List.getElem_range]
    rw [sectorByte_lt _ low]
  have front : (blockBytes block 0 used).length = used := by rw [blockBytes, List.length_map, List.length_range']
  rw [whole, blockBytes_append, Nat.zero_add, List.drop_left' front]

theorem blockBytes_clear (start len : Nat) (clear : ∀ i, start ≤ i → i < start + len → sectorByte block i = 0) :
    ∀ c ∈ blockBytes block start len, (c == 0) = true := by
  intro c member
  obtain ⟨i, bounds, rfl⟩ := List.mem_map.mp member
  rw [List.mem_range'_1] at bounds
  rw [clear i bounds.1 bounds.2]
  rfl

theorem hiddenBytes_clear (inside : used ≤ BLOCK_SECTOR_SIZE)
    (clear : ∀ i, used ≤ i → i < BLOCK_SECTOR_SIZE → sectorByte block i = 0) : hiddenBytes block used = [] := by
  have zero := blockBytes_clear used (BLOCK_SECTOR_SIZE - used) fun i low high => clear i low (by omega)
  rw [hiddenBytes, blockBytes_drop block inside, List.dropWhile_eq_nil_iff.mpr zero]
  rfl

theorem HiddenIn.bytes (hidden : HiddenIn block used first last) :
    hiddenBytes block used = blockBytes block first (last + 1 - first) := by
  obtain ⟨low, order, inside, firstByte, lastByte, before, after⟩ := hidden
  have parts : blockBytes block used (BLOCK_SECTOR_SIZE - used) = blockBytes block used (first - used) ++
      (blockBytes block first (last + 1 - first) ++ blockBytes block (last + 1) (BLOCK_SECTOR_SIZE - (last + 1))) := by
    rw [show BLOCK_SECTOR_SIZE - used =
        (first - used) + ((last + 1 - first) + (BLOCK_SECTOR_SIZE - (last + 1))) by omega,
      blockBytes_append, blockBytes_append, Nat.add_sub_cancel' low,
      show first + (last + 1 - first) = last + 1 by omega]
  have front := blockBytes_clear used (first - used) fun i low high => before i low (by omega)
  have back := blockBytes_clear (last + 1) (BLOCK_SECTOR_SIZE - (last + 1))
    fun i low high => after i low (by omega)
  have start : blockBytes block first (last + 1 - first) =
      sectorByte block first :: blockBytes block (first + 1) (last - first) := by
    rw [show last + 1 - first = last - first + 1 by omega, blockBytes, List.range'_succ, List.map_cons, blockBytes]
  have finish : blockBytes block first (last + 1 - first) =
      blockBytes block first (last - first) ++ [sectorByte block last] := by
    rw [show last + 1 - first = last - first + 1 by omega, blockBytes_append, Nat.add_sub_cancel' order]
    rfl
  have skipped : (blockBytes block used (BLOCK_SECTOR_SIZE - used)).dropWhile (fun c => c == 0) =
      blockBytes block first (last + 1 - first) ++
        blockBytes block (last + 1) (BLOCK_SECTOR_SIZE - (last + 1)) := by
    rw [parts, List.dropWhile_append_of_pos front, start, List.cons_append, List.dropWhile_cons_of_neg]
    simpa using firstByte
  have cut : (blockBytes block (last + 1) (BLOCK_SECTOR_SIZE - (last + 1))).reverse.dropWhile (fun c => c == 0) = [] :=
    List.dropWhile_eq_nil_iff.mpr fun c member => back c (List.mem_reverse.mp member)
  rw [hiddenBytes, blockBytes_drop block (by omega), skipped, List.rdropWhile, List.reverse_append,
    List.dropWhile_append, cut, if_pos List.isEmpty_nil]
  change List.rdropWhile (fun c => c == 0) (blockBytes block first (last + 1 - first)) = _
  rw [finish, List.rdropWhile_concat_neg]
  simpa using lastByte

theorem HiddenIn.nonempty (hidden : HiddenIn block used first last) : hiddenBytes block used ≠ [] := by
  have order := hidden.order
  rw [hidden.bytes, blockBytes, show last + 1 - first = last - first + 1 by omega, List.range'_succ, List.map_cons]
  exact List.cons_ne_nil _ _

/-- What `recover_past_end` writes is the part of the block between the two bounds that its loops find. -/
theorem hiddenBytes_range (block : Sector) {start : Nat} (inside : start ≤ BLOCK_SECTOR_SIZE) :
    hiddenBytes block start =
      blockBytes block (hiddenRange block start).1 ((hiddenRange block start).2 - (hiddenRange block start).1) := by
  rcases hiddenRange_spec block inside with ⟨range, clear⟩ | ⟨first, last, hidden, range⟩
  · rw [range, hiddenBytes_clear inside clear, Nat.sub_self]
    rfl
  · rw [range, hidden.bytes]

end block

section file

variable {σ : Type} [Store σ BlockSector Sector]

def usedInLast (len : Nat) : Nat := len - 512 * ((len - 1) / 512)

def lastSector (s : Fs σ) (inode : BlockSector) : Sector :=
  Store.view s.cache (byteToSector s inode (s.inodeLength inode - 1)).1

/-- A file is left on the host just when a byte past the end of the file is not NUL, and it has the bytes from the first
of these to the last. -/
def ReportsHidden (block : Sector) (used : Nat) (filename : CString) (reported : List HostFile) : Prop :=
  (reported ≠ [] ↔ ∃ i, used ≤ i ∧ i < BLOCK_SECTOR_SIZE ∧ sectorByte block i ≠ 0) ∧
    ∀ first last, HiddenIn block used first last → reported =
      [⟨fileNameOf (ascii "recovered2-" ++ filename ++ ascii ".txt"), blockBytes block first (last + 1 - first)⟩]

theorem hiddenBytes_past (block : Sector) : hiddenBytes block BLOCK_SECTOR_SIZE = [] :=
  hiddenBytes_clear (Nat.le_refl _) fun _ low high => absurd high (Nat.not_lt.mpr low)

theorem pastEndLoop_last (filename : CString) (fileSize : Int) {blockCount x : Nat} (sectors : List BlockSector)
    (last : BlockSector) (files : List HostFile) (s : FlatFs) (count : x + sectors.length + 1 = blockCount) :
    pastEndLoop filename fileSize blockCount (sectors ++ [last]) x files s = (recoveredBytes files filename
      (hiddenBytes (s.cache last) (fileSize.tmod BLOCK_SECTOR_SIZE).toNat), s) := by
  induction sectors generalizing x files with
  | nil =>
    rw [List.length_nil, Nat.add_zero] at count
    rw [List.nil_append, pastEndLoop, if_pos (by omega)]
    rfl
  | cons sector rest ih =>
    rw [List.length_cons] at count
    simp only [List.cons_append, pastEndLoop]
    rw [if_neg (by omega), hiddenBytes_past]
    exact ih _ (by omega)

theorem recoverPastEnd_run {s : FlatFs} (files : List HostFile) {file : File} (filename : CString) {len : Nat}
    (length : s.inodeLength file.inode = len) (some : 1 ≤ len) (fits : len ≤ MAX_LENGTH) :
    (recoverPastEnd files s file filename).1 =
      recoveredBytes files filename (hiddenBytes (lastSector s file.inode) (len % 512)) := by
  simp only [MAX_LENGTH] at fits
  have count : divRoundUp ((len : Int)).toNat BLOCK_SECTOR_SIZE = (len - 1) / 512 + 1 := by
    rw [divRoundUp]
    simp only [BLOCK_SECTOR_SIZE]
    omega
  have sectors := getInodeDataSectors_eq file.inode (s := s) (n := (len - 1) / 512 + 1)
    (by rw [length, bytesToSectors_eq (by omega)]; omega) (by rw [length]; omega) (by omega)
  have last : (byteToSector s file.inode (len - 1)).1 =
      (indexToSector s (s.inodeData file.inode) ((len - 1) / 512)).1 := by
    rw [byteToSector, length, if_pos (by omega)]
    simp only [BLOCK_SECTOR_SIZE]
    rw [show (((len : Int) - 1) / (512 : Nat)).toNat = (len - 1) / 512 by omega]
  have rest : ((len : Int).tmod BLOCK_SECTOR_SIZE).toNat = len % 512 := by
    simp only [BLOCK_SECTOR_SIZE]
    rw [← Int.ofNat_tmod]
    rfl
  simp only [recoverPastEnd, fileLength, length, sectors, count]
  rw [List.take_of_length_le (by simp), List.range_succ, List.map_append, List.map_singleton,
    pastEndLoop_last _ _ _ _ _ _ (by simp), lastSector, length, last, rest]
  rfl

theorem hiddenBytes_reported (block : Sector) {used : Nat} (inside : used ≤ BLOCK_SECTOR_SIZE) (filename : CString) :
    ReportsHidden block used filename (recoveredBytes [] filename (hiddenBytes block used)) := by
  constructor
  · rcases hiddenRange_spec block inside with ⟨-, clear⟩ | ⟨first, last, hidden, -⟩
    · rw [hiddenBytes_clear inside clear, recoveredBytes, if_pos rfl]
      constructor
      · exact fun some => absurd rfl some
      · rintro ⟨i, low, high, some⟩
        exact absurd (clear i low high) some
    · rw [recoveredBytes, if_neg hidden.nonempty]
      constructor
      · exact fun _ => ⟨first, hidden.low, Nat.lt_of_le_of_lt hidden.order hidden.inside, hidden.firstByte⟩
      · exact fun _ => List.cons_ne_nil _ _
  · intro first last hidden
    rw [recoveredBytes, if_neg hidden.nonempty, hidden.bytes, List.nil_append]

theorem recoveredBytes_append (files : List HostFile) (filename : CString) (hidden : List Byte) :
    recoveredBytes files filename hidden = files ++ recoveredBytes [] filename hidden := by
  rw [recoveredBytes, recoveredBytes]
  split
  · rw [List.append_nil]
  · rfl

variable [LawfulStore σ]

/-- Where the length of a file is a multiple of the sector size, its whole last sector is taken for hidden data. -/
theorem recoverPastEnd_exact_iff (s : Fs σ) (files : List HostFile) (file : File) (filename : CString) {len : Nat}
    (length : s.inodeLength file.inode = len) (some : 1 ≤ len) (fits : len ≤ MAX_LENGTH) :
    (∃ reported, (recoverPastEnd files s file filename).1 = files ++ reported ∧
        ReportsHidden (lastSector s file.inode) (usedInLast len) filename reported) ↔
      len % BLOCK_SECTOR_SIZE ≠ 0 ∨
        ∀ i, i < BLOCK_SECTOR_SIZE → sectorByte (lastSector s file.inode) i = 0 := by
  have run : (recoverPastEnd files s file filename).1 =
      files ++ recoveredBytes [] filename (hiddenBytes (lastSector s file.inode) (len % 512)) := by
    have flat := recoverPastEnd_run (s := s.flat) files filename length some fits
    have same : lastSector s.flat file.inode = lastSector s file.inode := by
      rw [lastSector, lastSector, byteToSector_fst s, Fs.inodeLength_flat]
      rfl
    rw [same, recoveredBytes_append] at flat
    rw [← flat]
    simp only [recoverPastEnd, fileLength_flat, ← getInodeDataSectors_flat, flatten_fst, flatten_snd,
      ← pastEndLoop_flat]
  have reports := hiddenBytes_reported (lastSector s file.inode)
    (Nat.le_of_lt (Nat.mod_lt len (show 0 < BLOCK_SECTOR_SIZE by decide))) filename
  rw [run]
  simp only [List.append_cancel_left_eq, exists_eq_left']
  by_cases whole : len % BLOCK_SECTOR_SIZE = 0
  · have used : usedInLast len = BLOCK_SECTOR_SIZE := by
      simp only [BLOCK_SECTOR_SIZE] at whole ⊢
      rw [usedInLast]
      omega
    rw [used, whole]
    rw [whole] at reports
    constructor
    · intro exact
      refine Or.inr fun i inside => ?_
      by_contra some
      obtain ⟨j, low, high, -⟩ := exact.1.mp (reports.1.mpr ⟨i, Nat.zero_le i, inside, some⟩)
      exact Nat.not_lt.mpr low high
    · rintro (partly | zero)
      · exact absurd rfl partly
      · rw [hiddenBytes_clear (Nat.zero_le _) fun i _ inside => zero i inside, recoveredBytes, if_pos rfl]
        refine ⟨⟨fun some => absurd rfl some, ?_⟩, fun first last hidden => ?_⟩
        · rintro ⟨i, low, high, -⟩
          exact absurd high (Nat.not_lt.mpr low)
        · exact absurd (Nat.lt_of_le_of_lt hidden.order hidden.inside) (Nat.not_lt.mpr hidden.low)
  · have used : usedInLast len = len % BLOCK_SECTOR_SIZE := by
      simp only [BLOCK_SECTOR_SIZE] at whole ⊢
      rw [usedInLast]
      omega
    rw [used]
    exact ⟨fun _ => Or.inl whole, fun _ => reports⟩

end file

def oneSectorInode (len : Nat) : InodeDisk := { diskInode len false with directBlocks := fun _ => 6 }

/-- A disk with such a file at sector 5; the first byte of its data is an A and the others are NUL. -/
def oneSectorFile (len : Nat) : FlatFs :=
  filesysStart (Function.update (Function.update (fun _ => zeros) 5 (oneSectorInode len).encode) 6
    fun i => if i.val = 0 then 65 else 0) 80

theorem oneSectorFile_inode (len : Nat) : (oneSectorFile len).inodeData 5 = oneSectorInode len := by
  have block : (oneSectorFile len).cache 5 = (oneSectorInode len).encode := by
    simp [oneSectorFile, filesysStart]
  rw [← InodeDisk.decode_encode (oneSectorInode len), ← block]
  rfl

theorem oneSectorFile_length {len : Nat} (small : len < 2 ^ 31) : (oneSectorFile len).inodeLength 5 = len := by
  rw [Fs.inodeLength, oneSectorFile_inode]
  change (BitVec.ofInt 32 len).toInt = len
  rw [BitVec.toInt_ofInt]
  apply Int.bmod_eq_of_le <;> omega

theorem oneSectorFile_last {len : Nat} (some : 1 ≤ len) (one : len ≤ 512) (i : Nat) :
    sectorByte (lastSector (oneSectorFile len) 5) i = if i = 0 then 65 else 0 := by
  have index : (((len : Int) - 1) / BLOCK_SECTOR_SIZE).toNat = 0 := by
    simp only [BLOCK_SECTOR_SIZE]
    omega
  have sector : (byteToSector (oneSectorFile len) 5 (len - 1)).1 = 6 := by
    rw [byteToSector, oneSectorFile_length (by omega), if_pos (by omega), oneSectorFile_inode, index]
    rfl
  have block : (oneSectorFile len).cache 6 = fun i => if i.val = 0 then 65 else 0 := by
    simp [oneSectorFile, filesysStart]
  rw [lastSector, oneSectorFile_length (by omega), sector]
  change sectorByte ((oneSectorFile len).cache 6) i = _
  rw [block, sectorByte]
  split
  · rfl
  · rw [if_neg (by simp only [BLOCK_SECTOR_SIZE] at *; omega)]

theorem recoverPastEnd_exact_one : ∃ reported,
    (recoverPastEnd [] (oneSectorFile 1) (fileOpen 5) [97]).1 = [] ++ reported ∧
      ReportsHidden (lastSector (oneSectorFile 1) 5) (usedInLast 1) [97] reported :=
  (recoverPastEnd_exact_iff (oneSectorFile 1) [] (fileOpen 5) [97] (oneSectorFile_length (by decide)) (by decide)
    (by decide)).mpr (Or.inl (by decide))

/-- The whole last sector of a file of 512 bytes is searched, and its own first byte reported. -/
theorem recoverPastEnd_reports_own : ¬∃ reported,
    (recoverPastEnd [] (oneSectorFile 512) (fileOpen 5) [97]).1 = [] ++ reported ∧
      ReportsHidden (lastSector (oneSectorFile 512) 5) (usedInLast 512) [97] reported := by
  rintro ⟨reported, run, exact, -⟩
  have byte := oneSectorFile_last (show 1 ≤ 512 by decide) (Nat.le_refl 512)
  rw [recoverPastEnd_run [] [97] (oneSectorFile_length (by decide)) (by decide) (by decide), List.nil_append] at run
  have own : reported ≠ [] := by
    rw [← run]
    refine (hiddenBytes_reported _ (Nat.zero_le _) [97]).1.mpr ⟨0, Nat.le_refl 0, by decide, ?_⟩
    rw [show (fileOpen 5).inode = 5 from rfl, byte]
    decide
  obtain ⟨i, low, high, -⟩ := exact.mp own
  exact Nat.not_lt.mpr low high

end ShellOs.FileSystem
