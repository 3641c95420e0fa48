import ShellOs.FileSystem.Shell
import ShellOs.FileSystem.BackUp

/-! Positions of open files: what the file commands of the shell do to them. -/

namespace ShellOs.FileSystem
open Lib SlotMap GrowArray

/-- Between two commands: no open file stands before its start. -/
structure Positioned (s : FlatFs) : Prop where
  ok : ShellOk s
  positions : ∀ entry ∈ s.fileTable, 0 ≤ entry.f.pos ∧ entry.f.pos < 2 ^ 31

theorem Fresh.positioned {s : FlatFs} {size : BlockSector} (fresh : Fresh size s) : Positioned s := by
  have none : ∀ entry ∈ s.fileTable, False := by
    rw [fresh.fileTable]
    exact fun entry member => by cases member
  have names : (s.fileTable.map FileTableEntry.fname).Nodup := by
    rw [fresh.fileTable]
    exact List.nodup_nil
  constructor
  · apply ShellOk.of_files fresh.volume fresh.shut _ names
    · exact fun entry member => (none entry member).elim
    · exact fun name member => absurd member (fresh.absent name)
  · exact fun entry member => (none entry member).elim

namespace Positioned

variable {s t : FlatFs} {name : CString} {f : File}

theorem setFile (positioned : Positioned s) (found : getFileByFname s name = some f) {pos : Int} (low : 0 ≤ pos)
    (high : pos < 2 ^ 31) : Positioned (setFile s name (fileSeek f pos)) := by
  refine ⟨positioned.ok.setFile found pos, fun entry member => ?_⟩
  rcases mem_setFile member with before | rfl
  · exact positioned.positions entry before
  · exact ⟨low, high⟩

theorem file (positioned : Positioned s) (found : getFileByFname s name = some f) : 0 ≤ f.pos ∧ f.pos < 2 ^ 31 :=
  positioned.positions _ (getFileByFname_mem found)

theorem reached (positioned : Positioned s) (reached : Reached s t name) : Positioned t := by
  refine ⟨reached.ok, fun entry member => ?_⟩
  rcases reached.entries entry member with before | start
  · exact positioned.positions entry before
  · rw [start]
    exact ⟨le_rfl, by decide⟩

theorem wrote (positioned : Positioned s) {x : BlockSector} (listed : x ∈ rootFiles s) {buffer : Nat → Byte}
    {k o : Nat} {r : Int × FlatFs} {new : List BlockSector} (effect : WriteEffect s x buffer k o r new) :
    Positioned r.2 := by
  have table : r.2.fileTable = s.fileTable := (congrArg Fs.fileTable effect.took.rest :)
  refine ⟨positioned.ok.wrote listed effect, fun entry member => positioned.positions entry ?_⟩
  rw [← table]
  exact member

theorem fileWrite (positioned : Positioned s) (found : getFileByFname s name = some f) {k : Nat} (some : 0 < k)
    (small : k < 2 ^ 31)
    (may : 2 ≤ f.pos ∨ 2 ≤ f.pos + k ∧ f.pos + k < 2 ^ 31 ∧ CanWrite s f.inode (f.pos.toNat + k))
    (buffer : Nat → Byte) : let w := FileSystem.fileWrite s f buffer k
      Positioned (FileSystem.setFile w.2.2 name w.2.1) := by
  obtain ⟨inode, -, listed⟩ := positioned.ok.inode found
  obtain ⟨low, high⟩ := positioned.file found
  obtain ⟨p, position⟩ := Int.eq_ofNat_of_zero_le low
  rw [position] at may high low
  rw [Int.toNat_natCast] at may
  simp only [FileSystem.fileWrite, positioned.ok.use found, position]
  generalize Function.update buffer ((k : Int) - 1).toNat 0 = bytes
  by_cases fits : p + k < 2 ^ 31
  · obtain ⟨new, effect⟩ := inodeWriteAt_effect inode.fine inode.file inode.listed inode.foreign some fits bytes
    generalize inodeWriteAt s f.inode bytes k p = r at effect
    have table : getFileByFname r.2 name = Option.some f := by
      rw [getFileByFname, congrArg Fs.fileTable effect.took.rest]
      exact found
    have counts : r.1 = k ∨ r.1 = 0 := by
      rcases effect.result with ⟨all, -⟩ | ⟨none, -⟩
      · exact Or.inl all
      · exact Or.inr none
    apply (positioned.wrote listed effect).setFile table
    · rcases may with far | ⟨long, -, can⟩
      · omega
      · rw [effect.done.mpr can]
        omega
    · omega
  · rw [inodeWriteAt_overflow inode.nodup inode.file (by omega) small (by omega) bytes]
    apply positioned.setFile found
    · rcases may with far | ⟨-, inside, -⟩ <;> omega
    · omega

theorem fsutilWrite (positioned : Positioned s) (flat : Flat name) {k : Nat} (some : 0 < k) (small : k < 2 ^ 31)
    (may : ∀ f, target s name = Option.some f →
      2 ≤ f.pos ∨ 2 ≤ f.pos + k ∧ f.pos + k < 2 ^ 31 ∧ CanWrite s f.inode (f.pos.toNat + k)) (buffer : Nat → Byte) :
    Positioned (FileSystem.fsutilWrite s name buffer k).2 := by
  obtain ⟨t, run, reached⟩ := positioned.ok.openNamed_target flat
  have before := positioned.reached reached
  cases found : target s name with
  | none =>
    rw [found] at run
    simp only [FileSystem.fsutilWrite, run]
    exact before
  | some f =>
    rw [found] at run
    have size : offsetOf (k : Int) = k := offsetOf_eq (by omega) (by omega)
    simp only [FileSystem.fsutilWrite, run, size]
    apply before.fileWrite (reached.found f found) some small
    rcases may f found with far | ⟨long, inside, can⟩
    · exact Or.inl far
    · exact Or.inr ⟨long, inside, reached.can f _ found can⟩

theorem fsutilSeek (positioned : Positioned s) (flat : Flat name) {offset : Int} (low : 0 ≤ offset)
    (high : offset < 2 ^ 31) : Positioned (FileSystem.fsutilSeek s name offset).2 := by
  obtain ⟨t, run, reached⟩ := positioned.ok.openNamed_target flat
  have before := positioned.reached reached
  cases found : target s name with
  | none =>
    rw [found] at run
    simp only [FileSystem.fsutilSeek, run]
    exact before
  | some f =>
    rw [found] at run
    simp only [FileSystem.fsutilSeek, run]
    exact before.setFile (reached.found f found) low high

theorem fsutilCreate (positioned : Positioned s) (proper : (0 : Byte) ∉ name)
    (single : (splitPathFilename name).2 ≠ dot) (double : (splitPathFilename name).2 ≠ dotDot) (size : Int) :
    Positioned (FileSystem.fsutilCreate s name size).2 ∧
      (FileSystem.fsutilCreate s name size).2.fileTable = s.fileTable := by
  rw [FileSystem.fsutilCreate]
  split
  next => exact ⟨positioned, rfl⟩
  next =>
    obtain ⟨ok, table⟩ := positioned.ok.created proper single double (offsetOf size)
    refine ⟨⟨ok, ?_⟩, table⟩
    rw [table]
    exact positioned.positions

theorem target_created (ok : ShellOk s) (flat : Flat name) {size : Nat} (small : size < 2 ^ 31)
    (made : (filesysCreate s name size false).1 = true) :
    ∃ x, target (filesysCreate s name size false).2 name = some (fileOpen x) ∧
      CanWrite (filesysCreate s name size false).2 x size := by
  obtain ⟨n, vol⟩ := ok.volume
  obtain ⟨new, creation⟩ := filesysCreate_effect vol.mounted name size
  rw [flat.split] at creation
  obtain ⟨x, file⟩ := creation.newFile vol.mounted made flat.proper
  have unlisted := file.unlisted
  have length := file.length
  rw [offsetOf_eq (by omega) (by omega)] at length
  have absent : getFileByFname (filesysCreate s name size false).2 name = none := by
    rw [getFileByFname, creation.fileTable]
    apply getFileByFname_none.mpr
    intro entry member here
    exact file.absent (here ▸ ok.listed entry member)
  refine ⟨x, ?_, ?_, Or.inl ?_⟩
  · rw [target, absent, file.slots, find_added (put_perm _ _) vol.names file.absent, if_pos rfl]
    rfl
  · rw [Fs.inodeDenyWriteCnt, unlisted]
  · rw [fileLen, length, Int.toNat_natCast]

theorem fillsNew (positioned : Positioned s) (flat : Flat name) {size : Nat} (long : 2 ≤ size) (small : size < 2 ^ 31)
    (made : (filesysCreate s name size false).1 = true) (buffer : Nat → Byte) :
    Positioned (FileSystem.fsutilWrite (filesysCreate s name size false).2 name buffer size).2 := by
  obtain ⟨ok, table⟩ := @ShellOk.created _ positioned.ok name flat.proper flat.plain.2.1 flat.plain.2.2 size
  obtain ⟨x, here, can⟩ := target_created positioned.ok flat small made
  have before : Positioned (filesysCreate s name size false).2 := by
    refine ⟨ok, ?_⟩
    rw [table]
    exact positioned.positions
  apply before.fsutilWrite flat (by omega) small
  intro f same
  rw [here] at same
  rw [← Option.some.inj same]
  refine Or.inr ⟨?_, ?_, ?_⟩
  · simp only [fileOpen]
    omega
  · simp only [fileOpen]
    omega
  · simp only [fileOpen, Int.toNat_zero, Nat.zero_add]
    exact can

theorem created_below {n size : Nat} (vol : Volume s n) (small : size < 2 ^ 31)
    (made : (filesysCreate s name size false).1 = true) : size < numFreeSectors s * 512 := by
  obtain ⟨new, creation⟩ := filesysCreate_effect vol.mounted name size
  obtain ⟨sized, -, -, -, enough⟩ := creation.done.mp made
  have sectors := (sizeOk_iff small).mp sized
  have count := numFreeSectors_eq s
  rw [createMissing, List.length_cons, List.length_append, createNeeds_length small sectors] at enough
  change _ ≤ (freeSectors s.flat.freeMap).length at enough
  omega

theorem copyIn (positioned : Positioned s) (flat : Flat name) (few : numFreeSectors s * 512 < 2 ^ 31)
    {host : Option (List Byte)} (nonempty : host = some [] → ¬CreateFits s name 1) :
    Positioned (FileSystem.copyIn s name host).2 := by
  cases host with
  | none => exact positioned
  | some bytes =>
    obtain ⟨n, vol⟩ := positioned.ok.volume
    have before := (positioned.fsutilCreate flat.proper flat.plain.2.1 flat.plain.2.2 (importSize s bytes)).1
    have size := importSize_eq vol.mounted few bytes
    rw [copyIn_some]
    cases made : (FileSystem.fsutilCreate s name (importSize s bytes)).1 with
    | false =>
      simp only [made, if_true]
      exact before
    | true =>
      have create := fsutilCreate_made made
      rw [size, offsetOf_eq (by omega) (by omega)] at create
      rw [size, create] at made
      have below := created_below vol (by omega) made
      rw [Nat.min_eq_right (by omega)] at size create made
      have long : 2 ≤ bytes.length + 1 := by
        cases bytes with
        | nil =>
          obtain ⟨new, creation⟩ := filesysCreate_effect vol.mounted name 1
          rw [flat.split] at creation
          exact absurd (creation.done.mp made) (nonempty rfl)
        | cons b rest => simp
      have filled := positioned.fillsNew flat long (by omega) made fun i => bytes.getD i 0
      simp only [size, create, made, Bool.true_eq_false, if_false]
      exact filled

end Positioned

end ShellOs.FileSystem
