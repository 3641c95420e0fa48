import ShellOs.Lib.SlotMap
import ShellOs.FileSystem.TransparentCalls
import ShellOs.FileSystem.BlockMap

/-! The entries of a directory: what the scans find in them, and what writing one of them changes. -/

namespace ShellOs.FileSystem
open Lib

theorem decode_encode (e : DirEntry) : DirEntry.decode ((List.range 36).map e.encode) = e := by
  have byte : ∀ k, k < 36 → ((List.range 36).map e.encode).getD k 0 = e.encode k := by
    intro k small
    rw [List.getD_eq_getElem?_getD, List.getElem?_map, List.getElem?_range small]
    rfl
  obtain ⟨sector, name, inUse⟩ := e
  simp only [DirEntry.decode, DirEntry.mk.injEq]
  refine ⟨?_, ?_, ?_⟩
  · rw [← LittleEndian.ofBytes_byteOf (w := 4) sector]
    refine LittleEndian.ofBytes_congr fun j small => ?_
    rw [LittleEndian.ofBytes_byteOf, byte j (by omega), DirEntry.encode, if_pos small]
  · funext i
    have small := i.isLt
    simp only [NAME_MAX] at small
    rw [byte _ (by omega), DirEntry.encode, if_neg (by omega), dif_pos (by simp only [NAME_MAX]; omega)]
    simp only [show 4 + i.val - 4 = i.val by omega]
  · rw [byte 35 (by decide)]
    cases inUse <;> rfl

def entryAt (v : Disk) (d : InodeDisk) (k : Nat) : DirEntry := DirEntry.decode (content v d (36 * k) 36)

def DirEntry.named (e : DirEntry) (name : CString) : Bool := e.inUse && e.cName == name

theorem scanEntries_spec {s : FlatFs} {inode : BlockSector} {n : Nat}
    (length : s.inodeLength inode = (36 * n : Nat)) (fits : 36 * n ≤ MAX_LENGTH)
    (mapped : Mapped s.cache (s.inodeData inode) (36 * n)) (stop : DirEntry → Bool) {k : Nat}
    (bound : k ≤ n) : scanEntries s inode stop (36 * k : Nat) =
      match (List.range' k (n - k)).find? fun j => stop (entryAt s.cache (s.inodeData inode) j) with
      | some j => (some (entryAt s.cache (s.inodeData inode) j), ((36 * j : Nat) : Int), s)
      | none => (none, ((36 * n : Nat) : Int), s) := by
  have count : ∀ o m, (content s.cache (s.inodeData inode) o m).length = m := by simp [content]
  have size : ((ENTRY_SIZE : Nat) : Int) = ((36 : Nat) : Int) := rfl
  induction left : n - k generalizing k with
  | zero =>
    rw [scanEntries, size, inodeReadAt_spec length fits mapped, dif_neg]
    · simp only [List.range'_zero, List.find?_nil]
      rw [show k = n by omega]
    · simp only [count, ENTRY_SIZE]
      omega
  | succ m ih =>
    rw [scanEntries, size, inodeReadAt_spec length fits mapped,
      show min 36 (36 * n - 36 * k) = 36 by omega, dif_pos (count _ _), List.range'_succ]
    simp only
    by_cases found : stop (entryAt s.cache (s.inodeData inode) k) = true
    · rw [List.find?_cons_of_pos (p := fun j => stop (entryAt s.cache (s.inodeData inode) j)) found]
      exact if_pos found
    · rw [List.find?_cons_of_neg (p := fun j => stop (entryAt s.cache (s.inodeData inode) j)) found,
        ← ih (by omega) (by omega)]
      exact if_neg found

def EntryWritten (v w : Disk) (d d' : InodeDisk) (len j : Nat) (e : DirEntry) : Prop :=
  ∀ p, p < len → byteAt w d' p =
    if 36 * j ≤ p ∧ p < 36 * j + 36 then e.encode (p - 36 * j) else byteAt v d p

theorem EntryWritten.entry {v w : Disk} {d d' : InodeDisk} {len j k : Nat} {e : DirEntry}
    (written : EntryWritten v w d d' len j e) (inside : 36 * (k + 1) ≤ len) :
    entryAt w d' k = if k = j then e else entryAt v d k := by
  have byte : ∀ i, i < 36 → byteAt w d' (36 * k + i) =
      if k = j then e.encode i else byteAt v d (36 * k + i) := by
    intro i small
    rw [written _ (by omega)]
    by_cases same : k = j
    · subst same
      rw [if_pos (by omega), if_pos rfl, Nat.add_sub_cancel_left]
    · rw [if_neg (by omega), if_neg same]
  by_cases same : k = j
  · rw [if_pos same, ← decode_encode e]
    refine congrArg DirEntry.decode (List.map_congr_left fun i member => ?_)
    rw [byte i (List.mem_range.mp member), if_pos same]
  · rw [if_neg same]
    refine congrArg DirEntry.decode (List.map_congr_left fun i member => ?_)
    rw [byte i (List.mem_range.mp member), if_neg same]

theorem entryAt_congr {v w : Disk} {d e : InodeDisk} {len k : Nat} (inside : 36 * (k + 1) ≤ len)
    (same : ∀ p, p < len → byteAt w e p = byteAt v d p) : entryAt w e k = entryAt v d k :=
  congrArg DirEntry.decode (List.map_congr_left fun i member => same _ (by
    have := List.mem_range.mp member
    omega))

def DirEntry.slot (e : DirEntry) : Option (CString × BlockSector) :=
  if e.inUse then some (e.cName, e.inodeSector) else none

/-- The slots of a directory of `n` entries, the one for the parent left out. -/
def dirSlots (v : Disk) (d : InodeDisk) (n : Nat) : List (Option (CString × BlockSector)) :=
  (List.range' 1 (n - 1)).map fun k => (entryAt v d k).slot

theorem length_dirSlots (v : Disk) (d : InodeDisk) (n : Nat) : (dirSlots v d n).length = n - 1 := by
  simp [dirSlots]

theorem getElem?_dirSlots (v : Disk) (d : InodeDisk) {n k : Nat} (inside : k + 1 < n) :
    (dirSlots v d n)[k]? = some (entryAt v d (k + 1)).slot := by
  rw [dirSlots, List.getElem?_map, List.getElem?_range' (by omega), Nat.one_mul, Nat.add_comm 1 k]
  rfl

theorem dirSlots_congr {v w : Disk} {d e : InodeDisk} {n : Nat}
    (same : ∀ p, p < 36 * n → byteAt w e p = byteAt v d p) : dirSlots w e n = dirSlots v d n := by
  refine List.map_congr_left fun k member => ?_
  have inside := List.mem_range'_1.mp member
  rw [entryAt_congr (by omega) same]

theorem EntryWritten.slots {v w : Disk} {d d' : InodeDisk} {len j n : Nat} {e : DirEntry}
    (written : EntryWritten v w d d' len (j + 1) e) (inside : 36 * n ≤ len) :
    dirSlots w d' n = (dirSlots v d n).set j e.slot := by
  apply List.ext_getElem?
  intro k
  by_cases small : k + 1 < n
  · rw [getElem?_dirSlots w d' small, written.entry (by omega)]
    by_cases same : k = j
    · subst same
      rw [if_pos rfl, List.getElem?_set_self (by rw [length_dirSlots]; omega)]
    · rw [if_neg (by omega), List.getElem?_set_ne (Ne.symm same), getElem?_dirSlots v d small]
  · rw [List.getElem?_eq_none (by rw [length_dirSlots]; omega),
      List.getElem?_eq_none (by rw [List.length_set, length_dirSlots]; omega)]

theorem dirSlots_succ (v : Disk) (d : InodeDisk) {n : Nat} (some : 0 < n) :
    dirSlots v d (n + 1) = dirSlots v d n ++ [(entryAt v d n).slot] := by
  have split : List.range' 1 (n + 1 - 1) = List.range' 1 (n - 1) ++ [n] := by
    rw [show n + 1 - 1 = (n - 1) + 1 by omega, List.range'_concat, Nat.one_mul,
      show 1 + (n - 1) = n by omega]
  rw [dirSlots, split, List.map_append]
  rfl

end ShellOs.FileSystem
