import ShellOs.FileSystem.Idle
import ShellOs.FileSystem.Room
import ShellOs.FileSystem.TransparentCalls

/-! A reservation maps the sectors of a file and takes nothing else from the free map. -/

namespace ShellOs.FileSystem
open Lib BlockTree

theorem inner_or_blockAt {v : Disk} {d : InodeDisk} {z : BlockSector} (member : z ∈ inodeNodes v d) :
    z ∈ inodeInner v d ∨ ∃ i, i < MAX_SECTORS ∧ blockAt v d i = z := by
  rcases forest_inner_or_leaf member with index | ⟨⟨j, i⟩, ⟨inside, below⟩, here⟩
  · exact Or.inl index
  · right
    simp only [inodeShape] at inside below
    have place : ∃ k, k < MAX_SECTORS ∧ position k = (j, i) := by
      simp only [MAX_SECTORS]
      by_cases direct : j < 123
      · rw [if_pos direct] at below
        obtain rfl : i = 0 := by omega
        exact ⟨j, by omega, if_pos direct⟩
      · by_cases single : j = 123
        · rw [if_neg direct, if_pos single] at below
          refine ⟨123 + i, by omega, ?_⟩
          rw [position, if_neg (by omega), if_pos (by omega), single, Nat.add_sub_cancel_left]
        · rw [if_neg direct, if_neg single] at below
          refine ⟨251 + i, by omega, ?_⟩
          rw [position, if_neg (by omega), if_neg (by omega), show j = 124 by omega, Nat.add_sub_cancel_left]
    obtain ⟨k, bound, same⟩ := place
    exact ⟨k, bound, by rw [blockAt, same]; exact here⟩

def NewData (v : Disk) (d : InodeDisk) (w : Disk) (e : InodeDisk) (z : BlockSector) : Prop :=
  z ≠ 0 ∧ ∃ i, i < MAX_SECTORS ∧ blockAt v d i = 0 ∧ blockAt w e i = z

/-- A sector that is an index sector of the file now and was not before. -/
def NewIndex (v : Disk) (d : InodeDisk) (w : Disk) (e : InodeDisk) (z : BlockSector) : Prop :=
  z ∈ inodeInner w e ∧ z ∉ inodeInner v d

/-- The table `e` is `d` with the first `n` blocks of the file mapped. -/
structure Reserved (s t : FlatFs) (d e : InodeDisk) (n : Nat) : Prop where
  mapped : ∀ i, i < n → (indexToSector t e i).1 ≠ 0 ∧ Used t.freeMap (indexToSector t e i).1 ∧
    (indexToSector t e i).1 ∉ inodeInner t.cache e
  distinct : ∀ i j, i < n → j < n → (indexToSector t e i).1 = (indexToSector t e j).1 → i = j
  kept : ∀ i, i < MAX_SECTORS → blockAt s.cache d i ≠ 0 → (indexToSector t e i).1 = (indexToSector s d i).1 ∧
    t.cache (indexToSector t e i).1 = s.cache (indexToSector s d i).1
  fresh : ∀ z, NewData s.cache d t.cache e z → z ∈ freeSectors s.freeMap ∧ t.cache z = zeros
  bits : ∀ z, Used t.freeMap z ↔
    Used s.freeMap z ∨ NewData s.cache d t.cache e z ∨ NewIndex s.cache d t.cache e z
  taken : ∀ z, NewData s.cache d t.cache e z ∨ NewIndex s.cache d t.cache e z → ¬Used s.freeMap z

section reserve

variable {allocate : FlatFs → Option BlockSector × FlatFs}

theorem inodeReserve_reserved (allocates : Allocates allocate) {s : FlatFs} {d : InodeDisk} (fine : FreeMapOk s)
    (own : Own s (inodeNodes s.cache d)) {length : Nat} (fits : length ≤ MAX_LENGTH)
    (ok : (inodeReserve allocate s d length).ok = true) :
    let r := inodeReserve allocate s d length
    Reserved s r.fs d r.value ((length + 511) / 512) ∧ FreeMapOk r.fs ∧
      inodeMissing r.fs.cache r.value ((length + 511) / 512) = [] := by
  simp only [MAX_LENGTH] at fits
  have count : bytesToSectors (length : Int) = (length + 511) / 512 := bytesToSectors_eq (by omega)
  obtain ⟨new, leaked, reached, grown, done, extended⟩ := inodeReserve_spec (d := d) allocates fine own
    (show (0 : Int) ≤ (length : Int) by omega)
  rw [count] at grown done
  generalize inodeReserve allocate s d length = r at *
  intro r
  have few : (length + 511) / 512 ≤ MAX_SECTORS := by simp only [MAX_SECTORS]; omega
  obtain rfl : reached = true := by
    rw [ok] at done
    cases reached
    · cases done
    · rfl
  have enough := grown.enough.mp rfl
  obtain ⟨-, none, -, -⟩ := grown.done enough
  have ownNext := grown.own fine own
  have mapped : ∀ i, i < (length + 511) / 512 → blockAt r.fs.cache r.value i ≠ 0 := by
    intro i below
    exact grown.full rfl (position i) ⟨i, below, by omega, rfl⟩
  have index : ∀ i, i < MAX_SECTORS → blockAt r.fs.cache r.value i ≠ 0 →
      (indexToSector r.fs r.value i).1 = blockAt r.fs.cache r.value i := by
    intro i bound present
    rw [indexToSector_blockAt bound present]
  have ledger := grown.grows.ledger
  rw [none, List.append_nil] at ledger
  have fresh : ∀ z ∈ new, ¬Used s.freeMap z := fun z member => grown.took.new_not_used member
  have members : ∀ z, z ∈ new ↔ NewData s.cache d r.fs.cache r.value z ∨ NewIndex s.cache d r.fs.cache r.value z := by
    intro z
    constructor
    · intro member
      have node : z ∈ inodeNodes r.fs.cache r.value := ledger.mem_iff.mpr (List.mem_append_right _ member)
      rcases inner_or_blockAt node with inner | ⟨i, bound, here⟩
      · exact Or.inr ⟨inner, fun old => fresh z member (own.used z (inodeInner_sub old))⟩
      · refine Or.inl ⟨fun zero => zero_not_mem_inodeNodes _ _ (zero ▸ node), i, bound, ?_, here⟩
        by_contra before
        have same := (grown.kept fine own bound before).1
        exact fresh z member (own.used z (here ▸ same ▸ blockAt_mem bound before))
    · rintro (⟨nonzero, i, bound, null, rfl⟩ | ⟨inner, older⟩)
      · exact grown.grows.fresh (position i) (within_position bound) null nonzero
      · exact (grown.grows.inner z inner).resolve_left older
  refine ⟨⟨fun i below => ?_, fun i j belowI belowJ same => ?_, fun i bound before => ?_, fun z newData => ?_,
    fun z => ?_, fun z either => fresh z ((members z).mpr either)⟩, grown.took.ok, inodeMissing_mapped mapped⟩
  · have present := mapped i below
    rw [index i (by omega) present]
    exact ⟨present, ownNext.used _ (blockAt_mem (by omega) present), blockAt_not_inner ownNext.nodup (by omega)⟩
  · rw [index i (by omega) (mapped i belowI), index j (by omega) (mapped j belowJ)] at same
    exact blockAt_injective ownNext.nodup (by omega) (by omega) (mapped i belowI) same
  · obtain ⟨place, bytes⟩ := grown.kept fine own bound before
    rw [index i bound (place ▸ before), indexToSector_blockAt bound before, place]
    exact ⟨rfl, bytes⟩
  · obtain ⟨nonzero, i, bound, null, rfl⟩ := newData
    exact ⟨grown.took.new_free ((members _).mpr (Or.inl ⟨nonzero, i, bound, null, rfl⟩)),
      grown.blank (position i) (within_position bound) null nonzero⟩
  · rw [← members]
    exact used_of_free fine.small grown.took.size grown.took.free z

theorem inodeReserve_enough (allocates : Allocates allocate) {s : FlatFs} {d : InodeDisk} (fine : FreeMapOk s)
    (own : Own s (inodeNodes s.cache d)) {length : Nat} (fits : length ≤ MAX_LENGTH)
    (enough : (inodeMissing s.cache d ((length + 511) / 512)).length ≤ (freeSectors s.freeMap).length) :
    (inodeReserve allocate s d length).ok = true := by
  simp only [MAX_LENGTH] at fits
  have count : bytesToSectors (length : Int) = (length + 511) / 512 := bytesToSectors_eq (by omega)
  obtain ⟨new, leaked, reached, grown, done, -⟩ := inodeReserve_spec (d := d) allocates fine own
    (show (0 : Int) ≤ (length : Int) by omega)
  rw [count] at grown done
  rw [done, (grown.done enough).1, Bool.true_and, decide_eq_true_eq]
  simp only [MAX_SECTORS]
  omega

end reserve

/-- `inode_reserve` on any index table: what it maps, what it leaves alone, what it takes, and that to reserve the same
length again changes nothing. -/
theorem inodeReserve_sound (s : Fs BufferCache) {d : InodeDisk} (fine : FreeMapOk s.flat)
    (own : Own s.flat (inodeNodes s.flat.cache d)) {length : Nat} (fits : length ≤ 16635 * 512) :
    let r := inodeReserve (fun s => freeMapAllocate s 1) s d length
    r.ok = true → Reserved s.flat r.fs.flat d r.value ((length + 511) / 512) ∧
      let again := inodeReserve (fun s => freeMapAllocate s 1) r.fs r.value length
      again.ok = true ∧ again.value = r.value ∧ again.fs.flat = r.fs.flat := by
  intro r ok
  have flat : ∀ (t : Fs BufferCache) e, (inodeReserve (fun s => freeMapAllocate s 1) t e length).flatten =
      inodeReserve (fun s => freeMapAllocate s 1) t.flat e length :=
    fun t e => inodeReserve_flat (fun t => freeMapAllocate_flat t 1) t e length
  have count : bytesToSectors (length : Int) = (length + 511) / 512 := bytesToSectors_eq (by omega)
  have okFlat : (inodeReserve (fun s => freeMapAllocate s 1) s.flat d length).ok = true := by
    rw [← flat, Outcome.flatten_ok]
    exact ok
  have small : length ≤ MAX_LENGTH := fits
  have first := inodeReserve_reserved freeMapAllocate_allocates fine own small okFlat
  simp only [← flat, Outcome.flatten_fs, Outcome.flatten_value] at first
  obtain ⟨reserved, fineNext, none⟩ := first
  refine ⟨reserved, ?_⟩
  have idle : Idle r.fs.flat (inodeMissing r.fs.flat.cache r.value (bytesToSectors length)) := by
    rw [count]
    exact Or.inr none
  have second := inodeReserve_idle freeMapAllocate_allocates fineNext r.value (show (0 : Int) ≤ length by omega) idle
  have missing : inodeMissing r.fs.flat.cache r.value ((length + 511) / 512) = [] := none
  have few : (length + 511) / 512 ≤ MAX_SECTORS := by
    simp only [MAX_SECTORS]
    omega
  have twice : (inodeReserve (fun s => freeMapAllocate s 1) r.fs r.value length).flatten = ⟨true, r.value, r.fs.flat⟩ := by
    rw [flat, second, count, missing, List.isEmpty_nil, Bool.true_and, decide_eq_true few, stalled_nil]
  refine ⟨?_, ?_, ?_⟩
  · rw [← Outcome.flatten_ok, twice]
  · rw [← Outcome.flatten_value, twice]
  · rw [← Outcome.flatten_fs, twice]

theorem inodeReserve_sound_formatted :
    let r := inodeReserve (fun s => freeMapAllocate s 1) (formatted 80) InodeDisk.empty (1024 : Nat)
    Reserved (formatted 80).flat r.fs.flat InodeDisk.empty r.value 2 := by
  have fresh := formatted_fresh (show FormatFits 80 by decide +kernel)
  have free : (freeSectors (formatted 80).flat.freeMap).length = 5 := fresh.free_length.trans (by decide +kernel)
  have run : ∀ s : Fs BufferCache, Fresh 80 s.flat → (freeSectors s.flat.freeMap).length = 5 →
      let r := inodeReserve (fun s => freeMapAllocate s 1) s InodeDisk.empty (1024 : Nat)
      Reserved s.flat r.fs.flat InodeDisk.empty r.value 2 := by
    intro s fresh free
    have fine := fresh.mounted.dir.fine
    have own : Own s.flat (inodeNodes s.flat.cache InodeDisk.empty) := by
      rw [inodeNodes_null s.flat.cache empty_entries]
      exact ⟨List.nodup_nil, (fun _ never => by cases never), (fun _ never => by cases never)⟩
    have needs : (inodeMissing s.flat.cache InodeDisk.empty 2).length = 2 := by
      rw [inodeMissing_null s.flat.cache empty_entries, inodeMissing_empty (by decide)]
      rfl
    have ok := inodeReserve_enough freeMapAllocate_allocates fine own (show 1024 ≤ MAX_LENGTH by decide)
      (by rw [free]; exact needs.le.trans (by decide))
    have flat : (inodeReserve (fun s => freeMapAllocate s 1) s InodeDisk.empty (1024 : Nat)).flatten =
        inodeReserve (fun s => freeMapAllocate s 1) s.flat InodeDisk.empty (1024 : Nat) :=
      inodeReserve_flat (fun t => freeMapAllocate_flat t 1) s InodeDisk.empty _
    rw [← flat, Outcome.flatten_ok] at ok
    exact (inodeReserve_sound s fine own (show 1024 ≤ 16635 * 512 by decide) ok).1
  exact run _ fresh free

end ShellOs.FileSystem
