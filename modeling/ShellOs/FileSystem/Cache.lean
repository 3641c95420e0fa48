import ShellOs.Lib.WriteBack
import ShellOs.Lib.Store
import ShellOs.FileSystem.Block
import Mathlib.Data.Fintype.Card

/-! The buffer cache (cache.c): 64 slots, a clock hand and the block device behind them. -/

namespace ShellOs.FileSystem
open Lib

abbrev BUFFER_CACHE_SIZE : Nat := 64

abbrev Slot := Fin BUFFER_CACHE_SIZE

instance : NeZero BUFFER_CACHE_SIZE := ⟨by decide⟩

structure BufferCacheEntry where
  occupied : Bool
  diskSector : BlockSector
  buffer : Sector
  dirty : Bool
  access : Bool

/-- The static state of cache.c together with `fs_device`. -/
structure CacheState where
  cache : Slot → BufferCacheEntry
  clock : Slot
  fsDevice : BlockDevice

namespace CacheState

def setEntry (c : CacheState) (i : Slot) (entry : BufferCacheEntry) : CacheState :=
  { c with cache := Function.update c.cache i entry }

def bufferCacheInit (c : CacheState) : CacheState :=
  { c with cache := fun i => { c.cache i with occupied := false, dirty := false } }

def bufferCacheFlush (c : CacheState) (i : Slot) : CacheState :=
  if (c.cache i).dirty then
    let written := { c with
      fsDevice := blockWrite c.fsDevice (c.cache i).diskSector (c.cache i).buffer }
    written.setEntry i { c.cache i with dirty := false }
  else c

def closeSlot (c : CacheState) (i : Slot) : CacheState :=
  if (c.cache i).occupied = false then c else c.bufferCacheFlush i

def bufferCacheClose (c : CacheState) : CacheState :=
  (List.finRange BUFFER_CACHE_SIZE).foldl closeSlot c

def bufferCacheLookup (c : CacheState) (sector : BlockSector) : Option Slot :=
  (List.finRange BUFFER_CACHE_SIZE).find? fun i =>
    (c.cache i).occupied && (c.cache i).diskSector == sector

def referenced (c : CacheState) : Nat :=
  (Finset.univ.filter fun i => (c.cache i).access = true).card

/-- The step of the clock loop that gives the slot under the hand a second chance. -/
def passOver (c : CacheState) : CacheState :=
  { c.setEntry c.clock { c.cache c.clock with access := false } with clock := c.clock + 1 }

theorem referenced_passOver (c : CacheState) (access : (c.cache c.clock).access = true) :
    c.passOver.referenced < c.referenced := by
  unfold referenced
  apply Finset.card_lt_card
  rw [Finset.ssubset_iff_of_subset]
  · refine ⟨c.clock, by simpa using access, fun member => ?_⟩
    have still := (Finset.mem_filter.mp member).2
    simp [passOver, setEntry] at still
  · intro i member
    have still := (Finset.mem_filter.mp member).2
    by_cases same : i = c.clock
    · subst same
      simpa using access
    · simpa [passOver, setEntry, Function.update_of_ne same] using still

def bufferCacheEvict (c : CacheState) : Slot × CacheState :=
  if (c.cache c.clock).occupied = false then (c.clock, c)
  else if (c.cache c.clock).access = true then bufferCacheEvict c.passOver
  else
    let written := if (c.cache c.clock).dirty then c.bufferCacheFlush c.clock else c
    (c.clock, written.setEntry c.clock { written.cache c.clock with occupied := false })
termination_by c.referenced
decreasing_by exact referenced_passOver c ‹_›

/-- Find the slot of a sector, loading the sector into an evicted one on a miss. -/
def obtain (c : CacheState) (sector : BlockSector) : Slot × CacheState :=
  match c.bufferCacheLookup sector with
  | some i => (i, c)
  | none =>
    let r := c.bufferCacheEvict
    (r.1, r.2.setEntry r.1
      { r.2.cache r.1 with
        occupied := true, diskSector := sector, dirty := false
        buffer := blockRead r.2.fsDevice sector })

def bufferCacheRead (c : CacheState) (sector : BlockSector) : Sector × CacheState :=
  let r := c.obtain sector
  ((r.2.cache r.1).buffer, r.2.setEntry r.1 { r.2.cache r.1 with access := true })

def bufferCacheWrite (c : CacheState) (sector : BlockSector) (source : Sector) : CacheState :=
  let r := c.obtain sector
  r.2.setEntry r.1 { r.2.cache r.1 with access := true, dirty := true, buffer := source }

/-- The write-back cache that the slots form, whatever the clock and the reference bits are. -/
def cached (c : CacheState) : WriteBack.Cached Slot BlockSector Sector where
  lines i := if (c.cache i).occupied then
      some ⟨(c.cache i).diskSector, (c.cache i).buffer, (c.cache i).dirty⟩ else none
  backing := c.fsDevice.sectors

def view (c : CacheState) (sector : BlockSector) : Sector :=
  match c.bufferCacheLookup sector with
  | some i => (c.cache i).buffer
  | none => c.fsDevice.sectors sector

/-- No sector is cached twice, clean entries equal the device, free slots are clean. -/
structure Valid (c : CacheState) : Prop where
  coherent : WriteBack.Coherent c.cached
  idle : ∀ i, (c.cache i).occupied = false → (c.cache i).dirty = false

@[simp] theorem setEntry_cache_self (c : CacheState) (i : Slot) (entry : BufferCacheEntry) :
    (c.setEntry i entry).cache i = entry := by simp [setEntry]

theorem setEntry_cache_ne (c : CacheState) {i j : Slot} (different : j ≠ i)
    (entry : BufferCacheEntry) : (c.setEntry i entry).cache j = c.cache j := by
  simp [setEntry, Function.update_of_ne different]

theorem cached_setEntry (c : CacheState) (i : Slot) (entry : BufferCacheEntry) :
    (c.setEntry i entry).cached =
      { c.cached with
        lines := Function.update c.cached.lines i
          (if entry.occupied then some ⟨entry.diskSector, entry.buffer, entry.dirty⟩ else none) } := by
  have lines : (c.setEntry i entry).cached.lines = Function.update c.cached.lines i
      (if entry.occupied then some ⟨entry.diskSector, entry.buffer, entry.dirty⟩ else none) := by
    funext j
    by_cases same : j = i
    · subst same
      simp [cached]
    · simp [cached, setEntry_cache_ne c same, Function.update_of_ne same]
  exact congrArg (WriteBack.Cached.mk · c.fsDevice.sectors) lines

theorem cached_access (c : CacheState) (i : Slot) (access : Bool) :
    (c.setEntry i { c.cache i with access := access }).cached = c.cached := by
  rw [cached_setEntry]
  exact congrArg (WriteBack.Cached.mk · c.fsDevice.sectors)
    (Function.update_eq_self i c.cached.lines)

theorem cached_passOver (c : CacheState) : c.passOver.cached = c.cached :=
  cached_access c c.clock false

theorem cached_flush {c : CacheState} {i : Slot} (occupied : (c.cache i).occupied = true) :
    (c.bufferCacheFlush i).cached = WriteBack.writeBack c.cached i := by
  have held : c.cached.lines i =
      some ⟨(c.cache i).diskSector, (c.cache i).buffer, (c.cache i).dirty⟩ := by
    simp [cached, occupied]
  cases dirty : (c.cache i).dirty with
  | false =>
    rw [WriteBack.writeBack_of_clean held dirty]
    simp [bufferCacheFlush, dirty]
  | true =>
    rw [WriteBack.writeBack_of_dirty held dirty]
    simp only [bufferCacheFlush, dirty, if_true]
    rw [cached_setEntry]
    simp only [occupied, if_true]
    rfl

theorem cached_clear (c : CacheState) (i : Slot) :
    (c.setEntry i { c.cache i with occupied := false }).cached = WriteBack.drop c.cached i := by
  rw [cached_setEntry]
  rfl

theorem lookup_some {c : CacheState} {sector : BlockSector} {i : Slot}
    (hit : c.bufferCacheLookup sector = some i) :
    (c.cache i).occupied = true ∧ (c.cache i).diskSector = sector := by
  have found := List.find?_some hit
  simpa using found

theorem lookup_none {c : CacheState} {sector : BlockSector}
    (miss : c.bufferCacheLookup sector = none) : WriteBack.Absent c.cached sector := by
  intro i line held same
  have tested := List.find?_eq_none.mp miss i (List.mem_finRange i)
  cases occupied : (c.cache i).occupied with
  | false => simp [cached, occupied] at held
  | true =>
    simp only [cached, occupied, if_true, Option.some.injEq] at held
    subst held
    simp only [occupied, Bool.true_and, beq_iff_eq] at tested
    exact tested same

theorem view_eq {c : CacheState} (coherent : WriteBack.Coherent c.cached) :
    WriteBack.view c.cached = c.view := by
  funext sector
  unfold view
  cases found : c.bufferCacheLookup sector with
  | none => exact WriteBack.view_of_absent (lookup_none found)
  | some i =>
    obtain ⟨occupied, rfl⟩ := lookup_some found
    have held : c.cached.lines i =
        some ⟨(c.cache i).diskSector, (c.cache i).buffer, (c.cache i).dirty⟩ := by
      simp [cached, occupied]
    exact WriteBack.view_of_line coherent held

theorem view_of_cached {c d : CacheState} (valid : Valid c) (kept : WriteBack.Coherent d.cached)
    (same : WriteBack.view d.cached = WriteBack.view c.cached) : d.view = c.view := by
  rw [← view_eq kept, same, view_eq valid.coherent]

theorem flush_spec {c : CacheState} (valid : Valid c) {i : Slot}
    (occupied : (c.cache i).occupied = true) :
    Valid (c.bufferCacheFlush i) ∧ (c.bufferCacheFlush i).view = c.view ∧
      ((c.bufferCacheFlush i).cache i).dirty = false ∧
      (∀ j, j ≠ i → (c.bufferCacheFlush i).cache j = c.cache j) ∧
      ((c.bufferCacheFlush i).cache i).occupied = true := by
  have spec := WriteBack.writeBack_spec valid.coherent i
  rw [← cached_flush occupied] at spec
  have clean : ((c.bufferCacheFlush i).cache i).dirty = false := by
    cases dirty : (c.cache i).dirty <;> simp [bufferCacheFlush, dirty]
  have others : ∀ j, j ≠ i → (c.bufferCacheFlush i).cache j = c.cache j := by
    intro j different
    cases dirty : (c.cache i).dirty
    · simp [bufferCacheFlush, dirty]
    · simp only [bufferCacheFlush, dirty, if_true]
      rw [setEntry_cache_ne _ different]
  have still : ((c.bufferCacheFlush i).cache i).occupied = true := by
    cases dirty : (c.cache i).dirty <;> simp [bufferCacheFlush, dirty, occupied]
  refine ⟨⟨spec.1, fun j free => ?_⟩, view_of_cached valid spec.1 spec.2, clean, others, still⟩
  by_cases same : j = i
  · exact same ▸ clean
  · rw [others j same] at free ⊢
    exact valid.idle j free

/-- The evicted slot is free and clean, and neither the view nor the set of cached
sectors has grown. -/
theorem evict_spec {c : CacheState} (valid : Valid c) :
    Valid c.bufferCacheEvict.2 ∧ c.bufferCacheEvict.2.view = c.view ∧
      (c.bufferCacheEvict.2.cache c.bufferCacheEvict.1).occupied = false ∧
      ∀ sector, WriteBack.Absent c.cached sector →
        WriteBack.Absent c.bufferCacheEvict.2.cached sector := by
  induction c using bufferCacheEvict.induct with
  | case1 c free =>
    rw [bufferCacheEvict, if_pos free]
    exact ⟨valid, rfl, free, fun _ absent => absent⟩
  | case2 c occupied access ih =>
    rw [bufferCacheEvict, if_neg occupied, if_pos access]
    have same := cached_passOver c
    have kept : Valid c.passOver := by
      refine ⟨same ▸ valid.coherent, fun i free => ?_⟩
      by_cases here : i = c.clock
      · subst here
        simp only [passOver, setEntry_cache_self] at free ⊢
        exact valid.idle _ free
      · simp only [passOver, setEntry_cache_ne c here] at free ⊢
        exact valid.idle i free
    obtain ⟨validEnd, viewEnd, freeEnd, absentEnd⟩ := ih kept
    refine ⟨validEnd, viewEnd.trans (view_of_cached valid kept.coherent (by rw [same])), freeEnd, ?_⟩
    intro sector absent
    exact absentEnd sector (same ▸ absent)
  | case3 c occupied access =>
    rw [bufferCacheEvict, if_neg occupied, if_neg access]
    have flushed : (if (c.cache c.clock).dirty then c.bufferCacheFlush c.clock else c) =
        c.bufferCacheFlush c.clock := by
      unfold bufferCacheFlush
      split <;> rfl
    simp only [flushed]
    simp only [Bool.not_eq_false] at occupied
    obtain ⟨validFlush, viewFlush, clean, -, still⟩ := flush_spec valid occupied
    have written := cached_flush occupied
    generalize c.bufferCacheFlush c.clock = flushed at *
    have dropped := WriteBack.drop_spec validFlush.coherent (i := c.clock) (by
      intro line held
      simp only [cached, still, if_true, Option.some.injEq] at held
      rw [← held]
      exact clean)
    rw [← cached_clear] at dropped
    refine ⟨⟨dropped.1, fun i free => ?_⟩, ?_, by simp, ?_⟩
    · by_cases here : i = c.clock
      · subst here
        simpa using clean
      · rw [setEntry_cache_ne _ here] at free ⊢
        exact validFlush.idle i free
    · exact (view_of_cached validFlush dropped.1 dropped.2).trans viewFlush
    · intro sector absent i line held same
      rw [cached_clear] at held
      by_cases here : i = c.clock
      · subst here
        simp [WriteBack.drop] at held
      · simp only [WriteBack.drop, Function.update_of_ne here] at held
        have addr : WriteBack.addrAt (WriteBack.writeBack c.cached c.clock) i = some line.addr := by
          rw [← written]
          simp [WriteBack.addrAt, held]
        rw [WriteBack.writeBack_addr] at addr
        simp only [WriteBack.addrAt, Option.map_eq_some_iff] at addr
        obtain ⟨old, before, oldAddr⟩ := addr
        exact absent i old before (oldAddr.trans same)

theorem obtain_spec {c : CacheState} (valid : Valid c) (sector : BlockSector) :
    Valid (c.obtain sector).2 ∧ (c.obtain sector).2.view = c.view ∧
      ((c.obtain sector).2.cache (c.obtain sector).1).occupied = true ∧
      ((c.obtain sector).2.cache (c.obtain sector).1).diskSector = sector ∧
      ((c.obtain sector).2.cache (c.obtain sector).1).buffer = c.view sector := by
  cases found : c.bufferCacheLookup sector with
  | some i =>
    obtain ⟨occupied, same⟩ := lookup_some found
    simp only [CacheState.obtain, found]
    exact ⟨valid, trivial, occupied, same, by simp [view, found]⟩
  | none =>
    simp only [CacheState.obtain, found]
    obtain ⟨validEvict, viewEvict, free, absentEvict⟩ := evict_spec valid
    generalize c.bufferCacheEvict = r at *
    have absent := absentEvict sector (lookup_none found)
    have empty : r.2.cached.lines r.1 = none := by simp [cached, free]
    have filled := WriteBack.fill_spec validEvict.coherent empty absent
    have same : (r.2.setEntry r.1 { r.2.cache r.1 with
        occupied := true, diskSector := sector, dirty := false
        buffer := blockRead r.2.fsDevice sector }).cached = WriteBack.fill r.2.cached r.1 sector := by
      rw [cached_setEntry]
      rfl
    rw [← same] at filled
    refine ⟨⟨filled.1, fun i idle => ?_⟩, ?_, by simp, by simp, ?_⟩
    · by_cases here : i = r.1
      · subst here
        simp
      · rw [setEntry_cache_ne _ here] at idle ⊢
        exact validEvict.idle i idle
    · exact (view_of_cached validEvict filled.1 filled.2).trans viewEvict
    · rw [setEntry_cache_self, ← viewEvict, ← view_eq validEvict.coherent,
        WriteBack.view_of_absent absent]
      rfl

theorem read_spec {c : CacheState} (valid : Valid c) (sector : BlockSector) :
    (c.bufferCacheRead sector).1 = c.view sector ∧ Valid (c.bufferCacheRead sector).2 ∧
      (c.bufferCacheRead sector).2.view = c.view := by
  obtain ⟨kept, same, -, -, bytes⟩ := obtain_spec valid sector
  simp only [bufferCacheRead]
  generalize c.obtain sector = r at *
  have untouched := cached_access r.2 r.1 true
  have coherent : WriteBack.Coherent
      (r.2.setEntry r.1 { r.2.cache r.1 with access := true }).cached := untouched ▸ kept.coherent
  refine ⟨bytes, ⟨coherent, fun i idle => ?_⟩, ?_⟩
  · by_cases here : i = r.1
    · subst here
      simp only [setEntry_cache_self] at idle ⊢
      exact kept.idle _ idle
    · rw [setEntry_cache_ne _ here] at idle ⊢
      exact kept.idle i idle
  · exact (view_of_cached kept coherent (by rw [untouched])).trans same

theorem write_spec {c : CacheState} (valid : Valid c) (sector : BlockSector) (source : Sector) :
    Valid (c.bufferCacheWrite sector source) ∧
      (c.bufferCacheWrite sector source).view = Function.update c.view sector source := by
  obtain ⟨kept, same, occupied, addr, -⟩ := obtain_spec valid sector
  simp only [bufferCacheWrite]
  generalize c.obtain sector = r at *
  subst addr
  have held : r.2.cached.lines r.1 = some ⟨(r.2.cache r.1).diskSector, (r.2.cache r.1).buffer,
      (r.2.cache r.1).dirty⟩ := by simp [cached, occupied]
  have stored := WriteBack.store_spec kept.coherent held source
  have shape : (r.2.setEntry r.1 { r.2.cache r.1 with
      access := true, dirty := true, buffer := source }).cached =
        WriteBack.store r.2.cached r.1 source := by
    rw [cached_setEntry]
    simp [WriteBack.store, held, occupied]
  rw [← shape] at stored
  refine ⟨⟨stored.1, fun i idle => ?_⟩, ?_⟩
  · by_cases here : i = r.1
    · subst here
      simp [occupied] at idle
    · rw [setEntry_cache_ne _ here] at idle ⊢
      exact kept.idle i idle
  · rw [← view_eq stored.1, stored.2, view_eq kept.coherent, same]

theorem init_spec (c : CacheState) :
    Valid c.bufferCacheInit ∧ c.bufferCacheInit.view = c.fsDevice.sectors := by
  have empty : ∀ i, c.bufferCacheInit.cached.lines i = none := fun i => by
    simp [cached, bufferCacheInit]
  have coherent : WriteBack.Coherent c.bufferCacheInit.cached := by
    refine ⟨fun i j first second held => ?_, fun i line held => ?_⟩ <;>
      rw [empty i] at held <;> cases held
  refine ⟨⟨coherent, fun i _ => rfl⟩, ?_⟩
  rw [← view_eq coherent]
  exact WriteBack.view_ext coherent _ (fun i line held => by rw [empty i] at held; cases held)
    (fun _ _ => rfl)

theorem closeSlot_spec {c : CacheState} (valid : Valid c) (i : Slot) :
    Valid (c.closeSlot i) ∧ (c.closeSlot i).view = c.view ∧ ((c.closeSlot i).cache i).dirty = false ∧
      ∀ j, (c.cache j).dirty = false → ((c.closeSlot i).cache j).dirty = false := by
  unfold closeSlot
  split
  next free => exact ⟨valid, rfl, valid.idle i free, fun _ clean => clean⟩
  next occupied =>
    simp only [Bool.not_eq_false] at occupied
    obtain ⟨kept, same, clean, others, -⟩ := flush_spec valid occupied
    refine ⟨kept, same, clean, fun j before => ?_⟩
    by_cases here : j = i
    · exact here ▸ clean
    · rwa [others j here]

theorem closeSlots_spec {c : CacheState} (valid : Valid c) (slots : List Slot) :
    Valid (slots.foldl closeSlot c) ∧ (slots.foldl closeSlot c).view = c.view ∧
      (∀ i ∈ slots, ((slots.foldl closeSlot c).cache i).dirty = false) ∧
      ∀ j, (c.cache j).dirty = false → ((slots.foldl closeSlot c).cache j).dirty = false := by
  induction slots generalizing c with
  | nil => exact ⟨valid, rfl, by simp, fun _ clean => clean⟩
  | cons i rest ih =>
    obtain ⟨kept, same, clean, others⟩ := closeSlot_spec valid i
    obtain ⟨keptEnd, sameEnd, cleanEnd, othersEnd⟩ := ih kept
    refine ⟨keptEnd, sameEnd.trans same, ?_, fun j before => othersEnd j (others j before)⟩
    intro j member
    rcases List.mem_cons.mp member with rfl | later
    · exact othersEnd j clean
    · exact cleanEnd j later

theorem close_spec {c : CacheState} (valid : Valid c) :
    Valid c.bufferCacheClose ∧ c.bufferCacheClose.view = c.view ∧
      (∀ i, (c.bufferCacheClose.cache i).dirty = false) ∧
      c.bufferCacheClose.fsDevice.sectors = c.view := by
  obtain ⟨kept, same, clean, -⟩ := closeSlots_spec valid (List.finRange BUFFER_CACHE_SIZE)
  rw [← bufferCacheClose] at kept same clean
  generalize c.bufferCacheClose = closed at *
  have allClean : ∀ i, (closed.cache i).dirty = false := fun i => clean i (List.mem_finRange i)
  refine ⟨kept, same, allClean, ?_⟩
  have backing := WriteBack.backing_of_clean kept.coherent fun i line held => by
    cases occupied : (closed.cache i).occupied with
    | false => simp [cached, occupied] at held
    | true =>
      simp only [cached, occupied, if_true, Option.some.injEq] at held
      rw [← held]
      exact allClean i
  rw [view_eq kept.coherent] at backing
  exact backing.symm.trans same

inductive Call where
  | read (sector : BlockSector)
  | write (sector : BlockSector) (source : Sector)
  | close

def call (c : CacheState) : Call → CacheState
  | .read sector => (c.bufferCacheRead sector).2
  | .write sector source => c.bufferCacheWrite sector source
  | .close => c.bufferCacheClose

/-- The bytes of the latest write to a sector, or `initial` if there was none. -/
def latest (initial : Sector) (sector : BlockSector) (calls : List Call) : Sector :=
  calls.foldl (fun last call => match call with
    | .write other source => if other = sector then source else last
    | _ => last) initial

theorem call_spec {c : CacheState} (valid : Valid c) (step : Call) :
    Valid (c.call step) ∧ ∀ sector, (c.call step).view sector = latest (c.view sector) sector [step] := by
  cases step with
  | read sector =>
    obtain ⟨-, kept, same⟩ := read_spec valid sector
    exact ⟨kept, fun other => by simp [call, same, latest]⟩
  | write sector source =>
    obtain ⟨kept, changed⟩ := write_spec valid sector source
    refine ⟨kept, fun other => ?_⟩
    by_cases same : sector = other
    · subst same
      simp [call, changed, latest]
    · simp [call, changed, latest, same, Function.update_of_ne (Ne.symm same)]
  | close =>
    obtain ⟨kept, same, -⟩ := close_spec valid
    exact ⟨kept, fun other => by simp [call, same, latest]⟩

theorem calls_spec {c : CacheState} (valid : Valid c) (calls : List Call) :
    Valid (calls.foldl call c) ∧
      ∀ sector, (calls.foldl call c).view sector = latest (c.view sector) sector calls := by
  induction calls generalizing c with
  | nil => exact ⟨valid, fun _ => rfl⟩
  | cons step rest ih =>
    obtain ⟨kept, changed⟩ := call_spec valid step
    obtain ⟨keptEnd, changedEnd⟩ := ih kept
    refine ⟨keptEnd, fun sector => ?_⟩
    rw [List.foldl_cons, changedEnd sector, changed sector]
    rfl

/-- The cache is transparent and durable: from any device and any leftover slots, after any
calls, a read returns the latest write or else the device's initial bytes, and closing puts
exactly these on the device and leaves nothing dirty. -/
theorem cache_transparent_durable (start : CacheState) (calls : List Call) :
    (∀ sector, ((calls.foldl call start.bufferCacheInit).bufferCacheRead sector).1 =
      latest (start.fsDevice.sectors sector) sector calls) ∧
    (∀ sector, (calls.foldl call start.bufferCacheInit).bufferCacheClose.fsDevice.sectors sector =
      latest (start.fsDevice.sectors sector) sector calls) ∧
    ∀ i, ((calls.foldl call start.bufferCacheInit).bufferCacheClose.cache i).dirty = false := by
  obtain ⟨valid, fresh⟩ := init_spec start
  obtain ⟨kept, bytes⟩ := calls_spec valid calls
  simp only [fresh] at bytes
  obtain ⟨-, -, clean, device⟩ := close_spec kept
  refine ⟨fun sector => ?_, fun sector => ?_, clean⟩
  · rw [(read_spec kept sector).1, bytes sector]
  · rw [device, bytes sector]

end CacheState

/-- The cache as the rest of the file system holds it, with its invariant. -/
structure BufferCache where
  state : CacheState
  valid : state.Valid

namespace BufferCache

def init (start : CacheState) : BufferCache :=
  ⟨start.bufferCacheInit, (CacheState.init_spec start).1⟩

def close (c : BufferCache) : BufferCache :=
  ⟨c.state.bufferCacheClose, (CacheState.close_spec c.valid).1⟩

instance : Store BufferCache BlockSector Sector where
  read c sector :=
    ((c.state.bufferCacheRead sector).1, ⟨(c.state.bufferCacheRead sector).2,
      (CacheState.read_spec c.valid sector).2.1⟩)
  write c sector source :=
    ⟨c.state.bufferCacheWrite sector source, (CacheState.write_spec c.valid sector source).1⟩
  view c := c.state.view

instance : LawfulStore BufferCache where
  read_value c sector := (CacheState.read_spec c.valid sector).1
  view_read c sector := (CacheState.read_spec c.valid sector).2.2
  view_write c sector source := (CacheState.write_spec c.valid sector source).2

theorem view_init (start : CacheState) : Store.view (init start) = start.fsDevice.sectors :=
  (CacheState.init_spec start).2

theorem device_close (c : BufferCache) : c.close.state.fsDevice.sectors = Store.view c := by
  simp only [close]
  exact (CacheState.close_spec c.valid).2.2.2

end BufferCache

end ShellOs.FileSystem
