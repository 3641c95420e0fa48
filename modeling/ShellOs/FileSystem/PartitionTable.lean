import ShellOs.FileSystem.Device

/-! The scan for partitions that runs when the disk is set up (partition.c), and on which images it returns. -/

namespace ShellOs.FileSystem.Device
open Lib

/-- `struct partition_table_entry`, as far as the scan reads it. -/
structure PartitionTableEntry where
  type : Byte
  offset : BlockSector
  size : BlockSector
  deriving DecidableEq

structure PartitionTable where
  partitions : List PartitionTableEntry
  signature : BitVec 16

/-- The entries are packed behind the 446 bytes of the loader, and the signature is last. -/
def PartitionTable.decode (b : Sector) : PartitionTable where
  partitions := (List.range 4).map fun i =>
    { type := sectorByte b (446 + 16 * i + 4)
      offset := LittleEndian.ofBytes 4 fun j => sectorByte b (446 + 16 * i + 8 + j)
      size := LittleEndian.ofBytes 4 fun j => sectorByte b (446 + 16 * i + 12 + j) }
  signature := LittleEndian.ofBytes 2 fun j => sectorByte b (510 + j)

inductive Notice
  | pastEndOfDevice (sector : BlockSector)
  | invalidSignature
  | invalidExtended (sector : BlockSector)
  | extendedPartition (sector : BlockSector)
  | startsPastEnd (partNr : Nat) (start : BlockSector)
  | endsPastEnd (partNr : Nat) (fin size : BlockSector)
  | registered (partNr : Nat) (partition : Block)
  | noPartitions

structure Scan where
  partNr : Nat
  notices : List Notice

namespace Scan

def say (scan : Scan) (notice : Notice) : Scan := { scan with notices := scan.notices ++ [notice] }

def found (scan : Scan) (block : Block) (start size : BlockSector) : Scan :=
  let partNr := scan.partNr + 1
  let notice := match foundPartition block start size with
    | some partition => .registered partNr partition
    | none => if block.size ≤ start then .startsPastEnd partNr start else .endsPastEnd partNr (start + size) block.size
  { partNr := partNr, notices := scan.notices ++ [notice] }

end Scan

namespace PartitionTableEntry

def isEmpty (e : PartitionTableEntry) : Bool := e.size == 0 || e.type == 0

def isExtended (e : PartitionTableEntry) : Bool := e.type == 0x05 || e.type == 0x0f || e.type == 0x85 || e.type == 0xc5

def nested (e : PartitionTableEntry) (sector primaryExtendedSector : BlockSector) : BlockSector × BlockSector :=
  if sector = 0 then (e.offset, e.offset) else (e.offset + primaryExtendedSector, primaryExtendedSector)

end PartitionTableEntry

/-- The body of the loop over the entries, `deeper` being the nested call. -/
def scanEntry (block : Block) (deeper : BlockSector → BlockSector → Scan → Option Scan)
    (sector primaryExtendedSector : BlockSector) (scan : Scan) (e : PartitionTableEntry) : Option Scan :=
  if e.isEmpty then some scan
  else if e.isExtended then
    let call := e.nested sector primaryExtendedSector
    deeper call.1 call.2 (scan.say (.extendedPartition sector))
  else some (scan.found block (e.offset + sector) e.size)

section scan

variable (block : Block) (host : HostDisk) (buffer : Sector)

/-- What `block_read(block, 0, pt)` puts into a buffer. Whatever sector the call is for, it is sector 0 that is read. -/
def tableRead : PartitionTable := .decode (blockRead block host 0 buffer)

/-- `read_partition_table`, where the fuel bounds how deep the calls nest; `none` if that is not deep enough. -/
def readPartitionTable : Nat → BlockSector → BlockSector → Scan → Option Scan
  | 0, _, _, _ => none
  | fuel + 1, sector, primaryExtendedSector, scan =>
    if block.size ≤ sector then some (scan.say (.pastEndOfDevice sector))
    else
      let pt := tableRead block host buffer
      if pt.signature = 0xaa55 then
        pt.partitions.foldlM (scanEntry block (readPartitionTable fuel) sector primaryExtendedSector) scan
      else some (scan.say (if primaryExtendedSector = 0 then .invalidSignature else .invalidExtended sector))

def partitionScan (fuel : Nat) : Option Scan :=
  (readPartitionTable block host buffer fuel 0 0 ⟨0, []⟩).map fun scan =>
    if scan.partNr = 0 then scan.say .noPartitions else scan

def extendedEntries : List PartitionTableEntry :=
  (tableRead block host buffer).partitions.filter fun e => !e.isEmpty && e.isExtended

/-- A call returns if it stops at once, or if all its nested calls return. -/
def Returns : Nat → BlockSector → BlockSector → Prop
  | 0, _, _ => False
  | fuel + 1, sector, primaryExtendedSector =>
    block.size ≤ sector ∨ (tableRead block host buffer).signature ≠ 0xaa55 ∨
      ∀ e ∈ extendedEntries block host buffer,
        Returns fuel (e.nested sector primaryExtendedSector).1 (e.nested sector primaryExtendedSector).2

end scan

section depth

variable {block : Block} {host : HostDisk} {buffer : Sector}

theorem foldlM_isSome {α β : Type} {turn : β → α → Option β} {ok : α → Prop}
    (each : ∀ acc a, (turn acc a).isSome ↔ ok a) (l : List α) (acc : β) :
    (l.foldlM turn acc).isSome ↔ ∀ a ∈ l, ok a := by
  induction l generalizing acc with
  | nil => simp
  | cons a rest ih =>
    rw [List.foldlM_cons, List.forall_mem_cons]
    cases run : turn acc a with
    | none =>
      have stuck : ¬ok a := by rw [← each acc a, run]; simp
      simp [stuck]
    | some next =>
      have went : ok a := by rw [← each acc a, run]; rfl
      rw [Option.bind_eq_bind, Option.bind_some, ih next]
      simp [went]

theorem scanEntry_isSome {deeper : BlockSector → BlockSector → Scan → Option Scan} {ok : BlockSector → BlockSector → Prop}
    (calls : ∀ sector primary scan, (deeper sector primary scan).isSome ↔ ok sector primary)
    (sector primary : BlockSector) (scan : Scan) (e : PartitionTableEntry) :
    (scanEntry block deeper sector primary scan e).isSome ↔
      ((!e.isEmpty && e.isExtended) = true → ok (e.nested sector primary).1 (e.nested sector primary).2) := by
  rw [scanEntry]
  cases e.isEmpty <;> cases e.isExtended <;> simp [calls]

/-- Whether a call returns depends neither on the partitions found so far nor on what has been printed. -/
theorem readPartitionTable_isSome (fuel : Nat) (sector primary : BlockSector) (scan : Scan) :
    (readPartitionTable block host buffer fuel sector primary scan).isSome ↔
      Returns block host buffer fuel sector primary := by
  induction fuel generalizing sector primary scan with
  | zero => simp [readPartitionTable, Returns]
  | succ fuel ih =>
    rw [readPartitionTable, Returns]
    by_cases past : block.size ≤ sector
    · simp only [past, if_true, true_or, Option.isSome_some]
    · simp only [past, if_false, false_or]
      by_cases signed : (tableRead block host buffer).signature = 0xaa55
      · rw [if_pos signed, foldlM_isSome (scanEntry_isSome ih sector primary)]
        simp [signed, extendedEntries]
      · rw [if_neg signed]
        exact iff_of_true rfl (Or.inl signed)

theorem not_returns {e1 e2 : PartitionTableEntry} (signed : (tableRead block host buffer).signature = 0xaa55)
    (mem1 : e1 ∈ extendedEntries block host buffer) (mem2 : e2 ∈ extendedEntries block host buffer)
    (first : e1.offset < block.size) (second : e1.offset + e2.offset < block.size) {sector primary : BlockSector}
    (here : sector = 0 ∨ sector = e1.offset ∧ primary = e1.offset ∨
      sector = e1.offset + e2.offset ∧ primary = e1.offset) (fuel : Nat) :
    ¬Returns block host buffer fuel sector primary := by
  induction fuel generalizing sector primary with
  | zero => exact id
  | succ fuel ih =>
    have positive : (0 : BlockSector) < block.size := by bv_omega
    have inside : sector < block.size := by
      rcases here with rfl | ⟨rfl, -⟩ | ⟨rfl, -⟩
      · exact positive
      · exact first
      · exact second
    rw [Returns]
    rintro (past | unsigned | all)
    · exact absurd past (BitVec.not_le.mpr inside)
    · exact unsigned signed
    · by_cases top : sector = 0
      · have call := all e1 mem1
        rw [PartitionTableEntry.nested, if_pos top] at call
        exact ih (Or.inr (Or.inl ⟨rfl, rfl⟩)) call
      · have call := all e2 mem2
        rw [PartitionTableEntry.nested, if_neg top] at call
        have above : primary = e1.offset := by
          rcases here with zero | ⟨-, same⟩ | ⟨-, same⟩
          · exact absurd zero top
          · exact same
          · exact same
        rw [above, BitVec.add_comm] at call
        exact ih (Or.inr (Or.inr ⟨rfl, rfl⟩)) call

theorem returns_three (apart : ∀ e1 ∈ extendedEntries block host buffer, ∀ e2 ∈ extendedEntries block host buffer,
    block.size ≤ e1.offset ∨ block.size ≤ e1.offset + e2.offset) : Returns block host buffer 3 0 0 := by
  right; right
  intro e1 mem1
  rw [PartitionTableEntry.nested, if_pos rfl, Returns]
  by_cases past : block.size ≤ e1.offset
  · exact Or.inl past
  · right; right
    intro e2 mem2
    have away : e1.offset ≠ 0 := by
      rintro zero
      have further := (apart e1 mem1 e1 mem1).resolve_left past
      rw [zero] at past further
      exact past further
    rw [PartitionTableEntry.nested, if_neg away, Returns]
    left
    rw [BitVec.add_comm]
    exact (apart e1 mem1 e2 mem2).resolve_left past

end depth

/-- The scan returns exactly on the disks without a table, and on those with no two extended partitions (or one, taken
twice) such that the first starts on the device and so does the second, when its offset is taken from there. -/
theorem partitionScan_returns_iff (block : Block) (host : HostDisk) (buffer : Sector) :
    (∃ fuel, (partitionScan block host buffer fuel).isSome) ↔
      (tableRead block host buffer).signature ≠ 0xaa55 ∨
        ∀ e1 ∈ extendedEntries block host buffer, ∀ e2 ∈ extendedEntries block host buffer,
          block.size ≤ e1.offset ∨ block.size ≤ e1.offset + e2.offset := by
  simp only [partitionScan, Option.isSome_map, readPartitionTable_isSome]
  constructor
  · rintro ⟨fuel, returns⟩
    by_contra loops
    rw [not_or, not_not] at loops
    apply loops.2
    intro e1 mem1 e2 mem2
    by_contra inside
    rw [not_or, BitVec.not_le, BitVec.not_le] at inside
    exact not_returns loops.1 mem1 mem2 inside.1 inside.2 (Or.inl rfl) fuel returns
  · rintro (unsigned | apart)
    · exact ⟨1, Or.inr (Or.inl unsigned)⟩
    · exact ⟨3, returns_three apart⟩

/-- A disk of four sectors with one extended partition, in sectors 1 and 2. -/
def extendedDisk : HostDisk :=
  List.replicate 446 0 ++ [0, 0, 0, 0, 0x05, 0, 0, 0, 1, 0, 0, 0, 2, 0, 0, 0] ++ List.replicate 48 0 ++ [0x55, 0xaa] ++
    List.replicate 1536 0

theorem partitionScan_hangs :
    ¬∃ fuel, (partitionScan (identifyAtaDevice extendedDisk) extendedDisk zeros fuel).isSome := by
  rintro ⟨fuel, returns⟩
  have signed : (tableRead (identifyAtaDevice extendedDisk) extendedDisk zeros).signature = 0xaa55 := by decide +kernel
  have entry : (⟨5, 1, 2⟩ : PartitionTableEntry) ∈ extendedEntries (identifyAtaDevice extendedDisk) extendedDisk zeros := by
    decide +kernel
  have stuck : ¬Returns (identifyAtaDevice extendedDisk) extendedDisk zeros fuel 0 0 :=
    not_returns signed entry entry (by decide +kernel) (by decide +kernel) (Or.inl rfl) fuel
  rw [partitionScan, Option.isSome_map, readPartitionTable_isSome] at returns
  exact stuck returns

end ShellOs.FileSystem.Device
