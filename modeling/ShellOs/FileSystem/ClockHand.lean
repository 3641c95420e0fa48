import ShellOs.Lib.SecondChance
import ShellOs.FileSystem.Cache

/-! Which slot `buffer_cache_evict` (cache.c) returns, and after how many slots. -/

namespace ShellOs.FileSystem
open Lib SecondChance

namespace CacheState

def evictWithin : Nat → CacheState → Option (Slot × CacheState)
  | 0, _ => none
  | slots + 1, c =>
    if (c.cache c.clock).occupied = false then some (c.clock, c)
    else if (c.cache c.clock).access = true then evictWithin slots c.passOver
    else
      let written := if (c.cache c.clock).dirty then c.bufferCacheFlush c.clock else c
      some (c.clock, written.setEntry c.clock { written.cache c.clock with occupied := false })

def Available (entry : BufferCacheEntry) : Prop := entry.occupied = false ∨ entry.access = false

def clearAccess (entry : BufferCacheEntry) : BufferCacheEntry := { entry with access := false }

def ring (c : CacheState) : Ring BufferCacheEntry BUFFER_CACHE_SIZE := ⟨c.cache, c.clock⟩

/-- How an eviction ends that passes over so many slots: -/
structure Evicts (c : CacheState) (passed : Nat) (slot : Slot) (after : CacheState) : Prop where
  /-- it examines one slot more, -/
  examined : c.evictWithin (passed + 1) = some (slot, after)
  /-- which is the first that is available, or the hand's own again when there is none, -/
  first : slot = ahead c.clock passed ∧ (∀ k < passed, ¬ Available (c.cache (ahead c.clock k))) ∧
    (passed < BUFFER_CACHE_SIZE ∧ Available (c.cache slot) ∨
      passed = BUFFER_CACHE_SIZE ∧ slot = c.clock ∧ ∀ i, ¬ Available (c.cache i))
  /-- it leaves that slot free and the hand there, -/
  freed : (after.cache slot).occupied = false ∧ after.clock = slot
  /-- takes the reference bit from those that it passed over, and leaves the others alone, -/
  passedOver : ∀ k < passed, ahead c.clock k ≠ slot →
    after.cache (ahead c.clock k) = { c.cache (ahead c.clock k) with access := false }
  others : ∀ i, i ≠ slot → (∀ k < passed, i ≠ ahead c.clock k) → after.cache i = c.cache i
  /-- changes nothing in a slot that was free, -/
  idle : (c.cache slot).occupied = false → after.cache slot = c.cache slot ∧ after.fsDevice = c.fsDevice
  /-- and frees an occupied one when a dirty buffer is in its sector. -/
  writtenBack : (c.cache slot).occupied = true → ∃ written : CacheState, (written.cache slot).occupied = true ∧
    written.fsDevice = (if (c.cache slot).dirty then
      blockWrite c.fsDevice (c.cache slot).diskSector (c.cache slot).buffer else c.fsDevice) ∧
    after = written.setEntry slot { written.cache slot with occupied := false } ∧
    after.cache slot = { c.cache slot with occupied := false, dirty := false, access := false }

section passes

variable {c : CacheState} {k : Nat}

theorem ring_passes (c : CacheState) (k : Nat) : (passOver^[k] c).ring = (pass clearAccess)^[k] c.ring := by
  have simulates : Function.Semiconj ring passOver (pass clearAccess) := fun _ => rfl
  exact simulates.iterate_right k c

theorem fsDevice_passes (c : CacheState) (k : Nat) : (passOver^[k] c).fsDevice = c.fsDevice := by
  induction k with
  | zero => rfl
  | succ k ih =>
    rw [Function.iterate_succ_apply', ← ih]
    rfl

theorem clock_passes (c : CacheState) (k : Nat) : (passOver^[k] c).clock = ahead c.clock k :=
  (congrArg Ring.hand (ring_passes c k)).trans (hand_passes clearAccess c.ring k)

theorem cache_passes (c : CacheState) (within : k ≤ BUFFER_CACHE_SIZE) (i : Slot) : (passOver^[k] c).cache i =
    if distance c.clock i < k then clearAccess (c.cache i) else c.cache i :=
  (congrArg (fun r => Ring.entries r i) (ring_passes c k)).trans (entries_passes clearAccess c.ring within i)

theorem found_passes (c : CacheState) (k : Nat) :
    (passOver^[k] c).cache (passOver^[k] c).clock = found clearAccess c.ring k :=
  congrArg (fun r => Ring.entries r (Ring.hand r)) (ring_passes c k)

theorem evict_passOver (busy : ¬ Available (c.cache c.clock)) (slots : Nat) :
    c.evictWithin (slots + 1) = c.passOver.evictWithin slots := by
  obtain ⟨occupied, access⟩ := not_or.mp busy
  rw [evictWithin, if_neg occupied, if_pos (Bool.not_eq_false _ ▸ access)]

theorem evict_passes (busy : ∀ j < k, ¬ Available ((passOver^[j] c).cache (passOver^[j] c).clock)) (slots : Nat) :
    c.evictWithin (k + slots) = (passOver^[k] c).evictWithin slots := by
  induction k generalizing slots with
  | zero => rw [Nat.zero_add, Function.iterate_zero_apply]
  | succ k ih =>
    rw [Nat.add_assoc, Nat.add_comm 1 slots, ih (fun j before => busy j (Nat.lt_succ_of_lt before)),
      evict_passOver (busy k (Nat.lt_succ_self k)), ← Function.iterate_succ_apply' passOver]

theorem evictWithin_eq {slots : Nat} {r : Slot × CacheState} (ends : c.evictWithin slots = some r) :
    c.bufferCacheEvict = r := by
  induction slots generalizing c with
  | zero => cases ends
  | succ slots ih =>
    rw [evictWithin] at ends
    rw [bufferCacheEvict]
    split
    next free =>
      rw [if_pos free] at ends
      exact Option.some_inj.mp ends
    next occupied =>
      rw [if_neg occupied] at ends
      split
      next access =>
        rw [if_pos access] at ends
        exact ih ends
      next clear =>
        rw [if_neg clear] at ends
        exact Option.some_inj.mp ends

end passes

def takeSlot (c : CacheState) : CacheState :=
  if (c.cache c.clock).occupied = false then c
  else (c.bufferCacheFlush c.clock).setEntry c.clock
    { (c.bufferCacheFlush c.clock).cache c.clock with occupied := false }

section here

variable {c : CacheState}

theorem evict_here (available : Available (c.cache c.clock)) : c.evictWithin 1 = some (c.clock, c.takeSlot) := by
  rw [evictWithin, takeSlot]
  split
  next => rfl
  next occupied =>
    have clear : ¬ (c.cache c.clock).access = true := by simp [available.resolve_left occupied]
    rw [if_neg clear]
    cases dirty : (c.cache c.clock).dirty with
    | true => rfl
    | false =>
      have same : c.bufferCacheFlush c.clock = c := by simp [bufferCacheFlush, dirty]
      simp only [same, Bool.false_eq_true, if_false]

theorem flush_cache (c : CacheState) (i : Slot) : (c.bufferCacheFlush i).cache i = { c.cache i with dirty := false } ∧
    ∀ j, j ≠ i → (c.bufferCacheFlush i).cache j = c.cache j := by
  unfold bufferCacheFlush
  split
  next => exact ⟨setEntry_cache_self .., fun j other => setEntry_cache_ne _ other _⟩
  next clean =>
    rw [Bool.not_eq_true] at clean
    exact ⟨by rw [← clean], fun _ _ => rfl⟩

theorem flush_fsDevice (c : CacheState) (i : Slot) : (c.bufferCacheFlush i).fsDevice =
    if (c.cache i).dirty then blockWrite c.fsDevice (c.cache i).diskSector (c.cache i).buffer else c.fsDevice := by
  unfold bufferCacheFlush
  split <;> rfl

theorem flush_clock (c : CacheState) (i : Slot) : (c.bufferCacheFlush i).clock = c.clock := by
  unfold bufferCacheFlush
  split <;> rfl

theorem takeSlot_cache (c : CacheState) :
    ((c.takeSlot).cache c.clock).occupied = false ∧ c.takeSlot.clock = c.clock ∧
      ∀ i, i ≠ c.clock → c.takeSlot.cache i = c.cache i := by
  unfold takeSlot
  split
  next free => exact ⟨free, rfl, fun _ _ => rfl⟩
  next =>
    refine ⟨by rw [setEntry_cache_self], flush_clock c c.clock, fun i other => ?_⟩
    rw [setEntry_cache_ne _ other, (flush_cache c c.clock).2 i other]

theorem takeSlot_idle (free : (c.cache c.clock).occupied = false) : c.takeSlot = c := if_pos free

theorem takeSlot_occupied (occupied : (c.cache c.clock).occupied = true) :
    ∃ written : CacheState, (written.cache c.clock).occupied = true ∧
      written.fsDevice = (if (c.cache c.clock).dirty then
        blockWrite c.fsDevice (c.cache c.clock).diskSector (c.cache c.clock).buffer else c.fsDevice) ∧
      c.takeSlot = written.setEntry c.clock { written.cache c.clock with occupied := false } ∧
      c.takeSlot.cache c.clock = { c.cache c.clock with occupied := false, dirty := false } := by
  have taken : c.takeSlot = (c.bufferCacheFlush c.clock).setEntry c.clock
      { (c.bufferCacheFlush c.clock).cache c.clock with occupied := false } := if_neg (by simp [occupied])
  have flushed := (flush_cache c c.clock).1
  refine ⟨c.bufferCacheFlush c.clock, by rw [flushed, occupied], flush_fsDevice c c.clock, taken, ?_⟩
  rw [taken, setEntry_cache_self, flushed]

end here

theorem original (c : CacheState) {k : Nat} (inside : k < BUFFER_CACHE_SIZE) :
    (passOver^[k] c).cache (ahead c.clock k) = c.cache (ahead c.clock k) := by
  rw [cache_passes c inside.le, distance_ahead c.clock inside, if_neg (lt_irrefl k)]

theorem victim_entry {c : CacheState} {k : Nat} (bound : k ≤ BUFFER_CACHE_SIZE)
    (available : Available ((passOver^[k] c).cache (ahead c.clock k)))
    (occupied : (c.cache (ahead c.clock k)).occupied = true) :
    (passOver^[k] c).cache (ahead c.clock k) = clearAccess (c.cache (ahead c.clock k)) := by
  rw [cache_passes c bound] at available ⊢
  split at available
  next behind => rw [if_pos behind]
  next before =>
    rw [if_neg before, clearAccess]
    have access := available.resolve_left (by simp [occupied])
    rw [← access]

/-- `buffer_cache_evict` examines at most 65 slots and returns the first available one, free, with its buffer written
back if it was dirty. -/
theorem bufferCacheEvict_spec (c : CacheState) :
    ∃ passed ≤ BUFFER_CACHE_SIZE, Evicts c passed c.bufferCacheEvict.1 c.bufferCacheEvict.2 := by
  have clears : ∀ entry, Available (clearAccess entry) := fun _ => Or.inr rfl
  obtain ⟨passed, bound, busy, available, stops⟩ := first_stop clearAccess c.ring clears
  simp only [← found_passes] at busy available
  have ends := (evict_passes busy 1).trans (evict_here available)
  have cache := cache_passes c bound
  have device := fsDevice_passes c passed
  have clock := clock_passes c passed
  obtain ⟨freed, stays, others⟩ := takeSlot_cache (passOver^[passed] c)
  have idle := takeSlot_idle (c := passOver^[passed] c)
  have dirty := takeSlot_occupied (c := passOver^[passed] c)
  rw [evictWithin_eq ends]
  rw [clock] at ends available freed stays others idle dirty ⊢
  have first : passed < BUFFER_CACHE_SIZE ∧ Available (c.cache (ahead c.clock passed)) ∨
      passed = BUFFER_CACHE_SIZE ∧ ahead c.clock passed = c.clock ∧ ∀ i, ¬ Available (c.cache i) := by
    rcases stops with inside | ⟨rfl, none'⟩
    · exact Or.inl ⟨inside, original c inside ▸ available⟩
    · exact Or.inr ⟨rfl, ahead_size c.clock, none'⟩
  have referenced : ∀ k < passed, ¬ Available (c.cache (ahead c.clock k)) := fun k before => by
    have found := busy k before
    rwa [clock_passes, original c (by omega)] at found
  refine ⟨passed, bound, ends, ⟨rfl, referenced, first⟩, ⟨freed, stays⟩, fun k before other => ?_,
    fun i other apart => ?_, fun free => ?_, fun occupied => ?_⟩
  · rw [others _ other, cache, if_pos (by rwa [distance_ahead c.clock (by omega)])]
    rfl
  · rw [others i other, cache, if_neg fun behind => apart _ behind (ahead_distance c.clock i).symm]
  · rcases first with ⟨inside, -⟩ | ⟨-, -, none'⟩
    · rw [idle (original c inside ▸ free)]
      exact ⟨original c inside, device⟩
    · exact absurd (Or.inl free) (none' _)
  · have entry := victim_entry bound available occupied
    rw [entry, device] at dirty
    exact dirty occupied

end CacheState

end ShellOs.FileSystem
