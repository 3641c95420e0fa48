import ShellOs.Kernel.FramePlaces
import Mathlib.Data.List.Perm.Subperm

/-! What the end of `run_proc_RR` clears behind the frame store (pcb.c, shellmemory.c). -/

namespace ShellOs.Kernel

open KernelState

/-- The shell between two runs. A page that has been loaded twice keeps a frame for ever, so the frames need not be free. -/
inductive Rested (sizes : StoreSizes) : KernelState → Prop
  | setup (m : ShellMemory) (pcb : Nat → PagedPCB) (pidCounter : Nat) :
      Rested sizes ⟨memInit sizes m, pcb, [], [], [], pidCounter⟩
  | commands {k : KernelState} (m : ShellMemory) (before : Rested sizes k)
      (keeps : ∀ pos < sizes.frameStoreSize, m pos = k.memory pos) : Rested sizes { k with memory := m }
  | runs {k started t : KernelState} {parseInput : Text → ShellMemory → Int × ShellMemory} {scripts : List (Option Text)}
      {fuel : Nat} (before : Rested sizes k) (keeps : KeepsFrames sizes parseInput)
      (starts : newProcs sizes scripts k = some started) (run : started.runQueue sizes parseInput fuel = some t) :
      Rested sizes t.freeAll

namespace KernelState

/-- What the end of `run_proc_RR` clears is inside of the array, and it changes nothing but frames. -/
def Confined (sizes : StoreSizes) (k : KernelState) : Prop :=
  ∀ pos, sizes.frameStoreSize ≤ pos → k.freeAll.memory pos = k.memory pos ∧
    ∀ pid ∈ k.allPcb, pos ∈ clearedWith (k.pcb pid) → pos < sizes.frameStoreSize + sizes.varStoreSize

def InLast (sizes : StoreSizes) (k : KernelState) : Prop :=
  ∃ pid ∈ k.allPcb, ∃ page ∈ (k.pcb pid).pageTable, page.index (Fin.last 2) + 1 = 3 * (sizes.frameStoreSize / 3)

end KernelState

/-- The two slots behind the last frame are free variables, or left over from the frames. -/
def Spare (sizes : StoreSizes) (m : ShellMemory) : Prop :=
  ∀ pos, sizes.frameStoreSize ≤ pos → pos < 3 * (sizes.frameStoreSize / 3) + 2 →
    pos < sizes.frameStoreSize + sizes.varStoreSize ∧ m pos = ⟨noneText, noneText⟩

/-- Scripts with as many lines as are counted, none of which has the result 1, are started when all frames are free. -/
structure Plain (sizes : StoreSizes) (parseInput : Text → ShellMemory → Int × ShellMemory) (k : KernelState)
    (scripts : List Text) : Prop where
  nonempty : scripts ≠ []
  empty : ∀ pos < sizes.frameStoreSize, (k.memory pos).var = noneText
  matched : ∀ script ∈ scripts, countLines script = (scriptReads script).length
  goesOn : ∀ script ∈ scripts, GoesOn sizes parseInput (scriptReads script)

section clearing

variable {sizes : StoreSizes} {parseInput : Text → ShellMemory → Int × ShellMemory} {k t : KernelState} {pos pid : Nat}
  {page : Page}

theorem KernelState.Running.cleared (running : Running sizes k) (ended : k.queueDone = true) (member : pid ∈ k.allPcb)
    (listed : page ∈ (k.pcb pid).pageTable) (clears : page.Clears pos) :
    (∃ q, 3 * q + 3 ≤ sizes.frameStoreSize ∧ (∀ j : Fin 3, page.index j = 3 * q + j) ∧ 3 * q ≤ pos ∧ pos < 3 * q + 5) ∨
      (∀ j, page.index j = 0) ∧ pos < 3 := by
  obtain ⟨i, present⟩ := List.mem_iff_getElem?.mp listed
  obtain ⟨j, low, high⟩ := clears
  rcases running.loaded ended member present with ⟨q, inside, index⟩ | index
  · rw [index] at low high
    exact .inl ⟨q, inside, index, by omega, by omega⟩
  · rw [index] at high
    exact .inr ⟨index, by omega⟩

theorem KernelState.Running.aligned_freeAll (running : Running sizes k) (ended : k.queueDone = true) :
    Aligned sizes k.freeAll.memory := by
  classical
  intro q inside last
  simp only [freeAll_at] at last ⊢
  have whole : ∀ pos, 3 * q ≤ pos → pos < 3 * q + 3 → ((∃ pid ∈ k.allPcb, ∃ page ∈ (k.pcb pid).pageTable, page.Clears pos) ∨
      (k.memory pos).var = noneText) → (if ∃ pid ∈ k.allPcb, ∃ page ∈ (k.pcb pid).pageTable, page.Clears pos then
        (⟨noneText, noneText⟩ : MemoryStruct) else k.memory pos).var = noneText := by
    intro pos _ _ free
    split
    next => rfl
    next kept => exact free.resolve_left kept
  split at last
  next cleared =>
    obtain ⟨pid, member, page, listed, clears⟩ := cleared
    have both : page.Clears (3 * q) ∧ page.Clears (3 * q + 1) := by
      rcases running.cleared ended member listed clears with ⟨q', -, index, low, high⟩ | ⟨index, small⟩
      · obtain rfl : q' = q := by omega
        have first := index 0
        rw [Fin.val_zero] at first
        exact ⟨⟨0, by omega⟩, ⟨0, by omega⟩⟩
      · exact ⟨⟨0, by rw [index]; omega⟩, ⟨0, by rw [index]; omega⟩⟩
    exact ⟨whole _ (by omega) (by omega) (.inl ⟨pid, member, page, listed, both.1⟩),
      whole _ (by omega) (by omega) (.inl ⟨pid, member, page, listed, both.2⟩)⟩
  next =>
    obtain ⟨first, second⟩ := running.tracked.placed.aligned q inside last
    exact ⟨whole _ (by omega) (by omega) (.inr first), whole _ (by omega) (by omega) (.inr second)⟩

theorem KernelState.Running.idle (noQueue : k.queue = []) (noCache : k.lruCache = []) (nobody : k.allPcb = [])
    (aligned : Aligned sizes k.memory) : Running sizes k := by
  have none' : ∀ {pid : Nat}, pid ∉ k.allPcb := fun {pid} => nobody ▸ List.not_mem_nil
  refine ⟨⟨⟨aligned, fun _ member => absurd member none'⟩, fun x member => ?_, fun _ member => absurd member none'⟩,
    fun some' => absurd nobody some', fun _ member => ?_, fun _ member => absurd member none'⟩
  · rw [noCache] at member
    cases member
  · rw [noQueue] at member
    cases member

theorem Rested.idle (rested : Rested sizes k) :
    k.queue = [] ∧ k.lruCache = [] ∧ k.allPcb = [] ∧ Aligned sizes k.memory := by
  induction rested with
  | setup m pcb pidCounter =>
    refine ⟨rfl, rfl, rfl, fun q inside _ => ?_⟩
    have free : ∀ pos < sizes.frameStoreSize, (memInit sizes m pos).var = noneText := fun pos small => by
      rw [memInit, if_pos (by omega)]
    exact ⟨free _ (by omega), free _ (by omega)⟩
  | commands m before keeps ih => exact ⟨ih.1, ih.2.1, ih.2.2.1, ih.2.2.2.congr keeps⟩
  | runs before keeps starts run ih =>
    have begun := (Running.idle ih.1 ih.2.1 ih.2.2.1 ih.2.2.2).newProcs starts
    obtain ⟨running, -, ended⟩ := begun.runQueue keeps run
    exact ⟨rfl, rfl, rfl, running.aligned_freeAll ended⟩

theorem KernelState.Running.confined_iff (running : Running sizes k) (ended : k.queueDone = true) :
    k.Confined sizes ↔ (k.InLast sizes → Spare sizes k.memory) := by
  classical
  constructor
  · intro confined inLast pos behind near
    obtain ⟨pid, member, page, listed, last⟩ := inLast
    have clears : page.Clears pos := ⟨Fin.last 2, by omega, by omega⟩
    obtain ⟨kept, bound⟩ := confined pos behind
    rw [freeAll_at, if_pos ⟨pid, member, page, listed, clears⟩] at kept
    exact ⟨bound pid member (mem_clearedWith.mpr ⟨page, listed, clears⟩), kept.symm⟩
  · intro spare pos behind
    have free : ∀ pid ∈ k.allPcb, ∀ page ∈ (k.pcb pid).pageTable, page.Clears pos →
        pos < sizes.frameStoreSize + sizes.varStoreSize ∧ k.memory pos = ⟨noneText, noneText⟩ := by
      intro pid member page listed clears
      rcases running.cleared ended member listed clears with ⟨q, inside, index, low, high⟩ | ⟨-, small⟩
      · have last := index (Fin.last 2)
        rw [Fin.val_last] at last
        exact spare ⟨pid, member, page, listed, by omega⟩ pos behind (by omega)
      · have room := running.room (List.ne_nil_of_mem member)
        omega
    constructor
    · rw [freeAll_at]
      split
      next cleared =>
        obtain ⟨pid, member, page, listed, clears⟩ := cleared
        exact (free pid member page listed clears).2.symm
      next => rfl
    · intro pid member cleared
      obtain ⟨page, listed, clears⟩ := mem_clearedWith.mp cleared
      exact (free pid member page listed clears).1

end clearing

section counting

variable {sizes : StoreSizes} {parseInput : Text → ShellMemory → Int × ShellMemory} {k started t : KernelState}
  {known : List Nat} {cache : List (Nat × Nat)} {work : Nat → Work} {start : Nat × Nat → Nat} {scripts : List Text}
  {fuel : Nat}

def allPages (known : List Nat) (work : Nat → Work) : List (Nat × Nat) :=
  known.flatMap fun pid => (List.range (work pid).pages).map (Prod.mk pid)

theorem mem_allPages {x : Nat × Nat} : x ∈ allPages known work ↔ x.1 ∈ known ∧ x.2 < (work x.1).pages := by
  rw [allPages, List.mem_flatMap]
  constructor
  · rintro ⟨pid, member, inside⟩
    obtain ⟨i, early, rfl⟩ := List.mem_map.mp inside
    exact ⟨member, List.mem_range.mp early⟩
  · rintro ⟨member, early⟩
    exact ⟨x.1, member, List.mem_map.mpr ⟨x.2, List.mem_range.mpr early, rfl⟩⟩

theorem length_allPages : (allPages known work).length = (known.map fun pid => (work pid).pages).sum := by
  rw [allPages, List.length_flatMap]
  simp

theorem nodup_allPages (distinct : known.Nodup) : (allPages known work).Nodup := by
  rw [allPages, List.nodup_flatMap]
  refine ⟨fun pid _ => List.nodup_range.map fun i j same => (Prod.mk.inj same).2, distinct.imp fun {p q} different => ?_⟩
  intro x inP inQ
  obtain ⟨i, -, rfl⟩ := List.mem_map.mp inP
  obtain ⟨j, -, same⟩ := List.mem_map.mp inQ
  exact different (Prod.mk.inj same).1.symm

/-- When all pages have been loaded, the last frame is taken exactly if there are as many pages as frames. -/
theorem KernelState.Packed.inLast_iff (packed : Packed sizes t t.allPcb t.lruCache work start) (distinct : t.allPcb.Nodup)
    (loaded : ∀ pid ∈ t.allPcb, (work pid).loaded = (work pid).pages) (room : 3 ≤ sizes.frameStoreSize) :
    t.InLast sizes ↔ sizes.frameStoreSize / 3 ≤ (t.allPcb.map fun pid => (work pid).pages).sum := by
  have few : t.lruCache.length ≤ (t.allPcb.map fun pid => (work pid).pages).sum := by
    rw [← length_allPages]
    refine (packed.nodup.subperm fun x cached => mem_allPages.mpr ?_).length_le
    obtain ⟨member, early⟩ := packed.owned x cached
    exact ⟨member, loaded x.1 member ▸ early⟩
  constructor
  · intro inLast
    obtain ⟨pid, member, page, listed, last⟩ := inLast
    by_contra less
    -- the frame store has not been full, so the page is still in the cache
    obtain ⟨i, present⟩ := List.mem_iff_getElem?.mp listed
    have inside : i < (work pid).pages := (packed.works pid member).table ▸ (List.getElem?_eq_some_iff.mp present).1
    have cached := packed.kept (by omega) pid member i (loaded pid member ▸ inside)
    obtain ⟨other, present', index, -⟩ := (packed.stored _ cached).page
    obtain rfl := Option.some_inj.mp (present.symm.trans present')
    have place := index (Fin.last 2)
    have whole := packed.aligned _ cached
    have before := packed.low _ cached
    simp only [Fin.val_last] at place
    omega
  · intro many
    have full : sizes.frameStoreSize / 3 ≤ t.lruCache.length := by
      by_contra less
      have all : (allPages t.allPcb work).length ≤ t.lruCache.length := by
        refine ((nodup_allPages distinct).subperm fun x listed => ?_).length_le
        obtain ⟨member, early⟩ := mem_allPages.mp listed
        exact packed.kept (by omega) x.1 member x.2 (loaded x.1 member ▸ early)
      rw [length_allPages] at all
      omega
    -- as many pages as there are frames, each in its own
    have frames : (t.lruCache.map fun x => start x / 3).Nodup := by
      refine List.Nodup.map_on (fun x inX y inY same => ?_) packed.nodup
      by_contra different
      have apart := packed.apart x inX y inY different
      omega
    have bounded : ∀ q ∈ t.lruCache.map fun x => start x / 3, q ∈ List.range (sizes.frameStoreSize / 3) := by
      intro q taken
      obtain ⟨x, cached, rfl⟩ := List.mem_map.mp taken
      have inside := packed.frames x cached
      rw [List.mem_range]
      omega
    have all := (frames.subperm bounded).perm_of_length_le (by rw [List.length_range, List.length_map]; exact full)
    have last : sizes.frameStoreSize / 3 - 1 ∈ t.lruCache.map fun x => start x / 3 :=
      all.mem_iff.mpr (List.mem_range.mpr (by omega))
    obtain ⟨x, cached, here⟩ := List.mem_map.mp last
    obtain ⟨page, present, index, -⟩ := (packed.stored x cached).page
    have whole := packed.aligned x cached
    have place := index (Fin.last 2)
    simp only [Fin.val_last] at place
    exact ⟨x.1, (packed.owned x cached).1, page, List.mem_of_getElem? present, by omega⟩

theorem Plain.inLast_iff (plain : Plain sizes parseInput k scripts) (rested : Rested sizes k)
    (starts : newProcs sizes (scripts.map some) k = some started) (run : started.runQueue sizes parseInput fuel = some t) :
    t.InLast sizes ↔ sizes.frameStoreSize / 3 ≤ (scripts.map fun script => pageTableSize (countLines script)).sum := by
  obtain ⟨noQueue, noCache, nobody, aligned⟩ := rested.idle
  obtain ⟨work, begun, allPcb, -, reads⟩ := newProcs_begun (.idle noQueue noCache nobody plain.empty) plain.matched starts
  rw [nobody, List.nil_append] at allPcb
  have pages : started.allPcb.map (fun pid => (work pid).pages) =
      scripts.map fun script => pageTableSize (countLines script) := by
    rw [allPcb]
    refine List.ext_getElem (by simp) fun n before inside => ?_
    rw [List.length_map] at inside
    have text := (reads n scripts[n] (List.getElem?_eq_getElem inside)).1
    simp only [List.getElem_map, List.getElem_range', Nat.one_mul, Work.pages, text]
    rw [plain.matched _ (List.getElem_mem inside)]
  have goesOn : ∀ pid ∈ started.allPcb, GoesOn sizes parseInput (work pid).reads := by
    intro pid member
    rw [allPcb, List.mem_range'_1] at member
    obtain ⟨n, rfl⟩ := Nat.exists_eq_add_of_le member.1
    have inside : n < scripts.length := by omega
    rw [(reads n scripts[n] (List.getElem?_eq_getElem inside)).1]
    exact plain.goesOn _ (List.getElem_mem inside)
  obtain ⟨fuel', t', work', loop, scheduled, same, advance, done⟩ := begun.scheduled.loops goesOn
  obtain rfl := runQueue_unique run loop
  obtain ⟨start, packed⟩ := scheduled.packed
  have pages' : ∀ pid, (work' pid).pages = (work pid).pages := fun pid => by
    rw [Work.pages, Work.pages, advance.reads]
  have loaded : ∀ pid ∈ t.allPcb, (work' pid).loaded = (work' pid).pages := by
    intro pid member
    have works := packed.works pid member
    have fetched := works.fetched
    have all := done pid (same ▸ member)
    refine Nat.le_antisymm works.loaded ?_
    by_contra less
    have more := Work.lt_pages.mp (Nat.lt_of_not_le less)
    omega
  have room := ((Running.idle noQueue noCache nobody aligned).newProcs starts).room (by
    rw [allPcb]
    obtain ⟨script, rest, rfl⟩ := List.exists_cons_of_ne_nil plain.nonempty
    rw [List.length_cons, List.range'_succ]
    exact List.cons_ne_nil _ _)
  rw [packed.inLast_iff scheduled.distinct loaded room, same]
  simp only [pages', pages]

end counting

/-- At the end of a run of scripts, `run_proc_RR` clears nothing but frames, if and only if the last frame belongs to none of
the processes or the slots behind it are free. When all frames were free and no line has the result 1, for which a page is
loaded once more, it belongs to one of them if and only if the scripts have as many pages as there are frames. -/
theorem freeAll_confined_iff {sizes : StoreSizes} {parseInput : Text → ShellMemory → Int × ShellMemory}
    {k started t : KernelState} {scripts : List Text} {fuel : Nat} (rested : Rested sizes k)
    (keeps : KeepsFrames sizes parseInput) (starts : newProcs sizes (scripts.map some) k = some started)
    (run : started.runQueue sizes parseInput fuel = some t) :
    (t.Confined sizes ↔ (t.InLast sizes → Spare sizes t.memory)) ∧
      (Plain sizes parseInput k scripts → (t.InLast sizes ↔
        sizes.frameStoreSize / 3 ≤ (scripts.map fun script => pageTableSize (countLines script)).sum)) := by
  obtain ⟨noQueue, noCache, nobody, aligned⟩ := rested.idle
  obtain ⟨running, -, ended⟩ := ((Running.idle noQueue noCache nobody aligned).newProcs starts).runQueue keeps run
  exact ⟨running.confined_iff ended, fun plain => plain.inLast_iff rested starts run⟩

/-- Seven lines in two frames: both are taken at the end, and the two variables behind them are free. -/
theorem freeAll_confined_seven : ∃ started t, newProcs ⟨6, 2⟩ [some sevenLines] twoFrames = some started ∧
    started.runQueue ⟨6, 2⟩ (fun _ m => (0, m)) 20 = some t ∧ t.Confined ⟨6, 2⟩ := by
  have runs : ∃ started t, newProcs ⟨6, 2⟩ ([sevenLines].map some) twoFrames = some started ∧
      started.runQueue ⟨6, 2⟩ (fun _ m => (0, m)) 20 = some t ∧ t.memory 6 = ⟨noneText, noneText⟩ ∧
      t.memory 7 = ⟨noneText, noneText⟩ := ⟨_, _, rfl, rfl, by decide +kernel, by decide +kernel⟩
  obtain ⟨started, t, starts, run, first, second⟩ := runs
  have rested : Rested ⟨6, 2⟩ twoFrames := .setup _ _ _
  have confined := (freeAll_confined_iff rested (fun _ _ _ _ => rfl) starts run).1
  refine ⟨started, t, starts, run, confined.mpr fun _ pos behind near => ?_⟩
  simp only at behind near
  obtain rfl | rfl : pos = 6 ∨ pos = 7 := by omega
  · exact ⟨by decide, first⟩
  · exact ⟨by decide, second⟩

def script28 : Text := (List.replicate 27 ['x', '\n']).flatten ++ ['x']

def beforeRun : KernelState where
  memory := Function.update (memInit makefileSizes fun _ => ⟨[], []⟩) 30 ⟨['a'], ['y']⟩
  pcb pid := ⟨pid, 0, fun _ => 0, [], []⟩
  queue := []
  lruCache := []
  allPcb := []
  pidCounter := 1

def afterRun : Option KernelState :=
  (beforeRun.newProc makefileSizes (some script28)).bind (runQueue makefileSizes (fun _ m => (7, m)) 40)

/-- The variable is there before the frames are freed, and not after. -/
theorem afterRun_loses : (afterRun.map fun k => (k.memory 30, k.freeAll.memory 30)) =
    some (⟨['a'], ['y']⟩, ⟨noneText, noneText⟩) := by
  decide +kernel

end ShellOs.Kernel
