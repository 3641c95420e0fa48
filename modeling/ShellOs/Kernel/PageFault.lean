import ShellOs.Kernel.OneLiner
import ShellOs.Kernel.Process

/-! When `run_proc` takes a line for a page fault (kernel.c). -/

namespace ShellOs.Kernel

namespace KernelState

/-- `run_proc` with a line that may execute scripts itself: what `parse` gives for such a line is `none`, since their
`run_proc_RR` frees all processes, and `cpu_run` then counts in one that is gone. -/
def runProcLine (sizes : StoreSizes) (parse : Text → ShellMemory → Option (Int × ShellMemory)) (k : KernelState)
    (pid pageIndex : Nat) (line : Fin 3) : Option (Bool × KernelState) := do
  let page ← k.page pid pageIndex
  if page.validBit line = false then k.runProc sizes (fun _ m => (1, m)) pid pageIndex line
  else do
    let r ← parse (k.memory (page.index line)).value k.memory
    k.runProc sizes (fun _ _ => r) pid pageIndex line

/-- The line is executed once: `run_proc` returns 0, the counters have moved on, and apart from the order of the cache
nothing is changed but by the command. -/
def RunsOnce (sizes : StoreSizes) (parse : Text → ShellMemory → Option (Int × ShellMemory)) (k : KernelState)
    (pid pageIndex : Nat) (line : Fin 3) : Prop :=
  ∃ page ret m cached, k.page pid pageIndex = some page ∧ parse (k.memory (page.index line)).value k.memory = some (ret, m) ∧
    k.runProcLine sizes parse pid pageIndex line = some (false, { k with
      memory := m
      pcb := Function.update k.pcb pid { k.pcb pid with
        programCounter := Function.update (k.pcb pid).programCounter pageIndex ((k.pcb pid).programCounter pageIndex + 1)
        size := (k.pcb pid).size - 1 }
      lruCache := cached :: k.lruCache.erase cached })

/-- The states that the kernel comes to, whatever the commands do to the memory and whoever is in the queue. -/
inductive Reached (sizes : StoreSizes) : KernelState → Prop
  | setup (m : ShellMemory) (pcb : Nat → PagedPCB) (pidCounter : Nat) : Reached sizes ⟨m, pcb, [], [], [], pidCounter⟩
  | newProc {k t : KernelState} {script : Option Text} (before : Reached sizes k) (run : k.newProc sizes script = some t) :
      Reached sizes t
  | runProc {k t : KernelState} {pid pageIndex : Nat} {line : Fin 3} {fault : Bool}
      (parseInput : Text → ShellMemory → Int × ShellMemory) (before : Reached sizes k) (known : pid ∈ k.allPcb)
      (run : k.runProc sizes parseInput pid pageIndex line = some (fault, t)) : Reached sizes t
  | others {k : KernelState} (m : ShellMemory) (queue : List Nat) (before : Reached sizes k) :
      Reached sizes { k with memory := m, queue := queue }
  | freeAll {k : KernelState} (before : Reached sizes k) : Reached sizes k.freeAll

/-- Each page of these processes that has a valid line is in the list. -/
def ValidIn (known : List Nat) (k : KernelState) (l : List (Nat × Nat)) : Prop :=
  ∀ pid ∈ known, ∀ i page, k.page pid i = some page → (∃ line, page.validBit line = true) → (pid, i) ∈ l

structure Cached (k : KernelState) : Prop where
  numbered : ∀ pid ∈ k.allPcb, pid < k.pidCounter
  cached : ValidIn k.allPcb k k.lruCache

/-- The lists of the kernel, apart from the ready queue, and its counter are the same. -/
structure SameLists (k t : KernelState) : Prop where
  lruCache : t.lruCache = k.lruCache
  allPcb : t.allPcb = k.allPcb
  pidCounter : t.pidCounter = k.pidCounter

theorem SameLists.trans {k t u : KernelState} (first : SameLists k t) (second : SameLists t u) : SameLists k u :=
  ⟨second.lruCache.trans first.lruCache, second.allPcb.trans first.allPcb, second.pidCounter.trans first.pidCounter⟩

section pages

variable {sizes : StoreSizes} {k t : KernelState} {pid pageIndex i : Nat} {page : Page} {line : Fin 3} {known : List Nat}
  {l : List (Nat × Nat)} {loaded fault : Bool}

theorem ValidIn.mono {l' : List (Nat × Nat)} (valid : ValidIn known k l) (sub : ∀ cached ∈ l, cached ∈ l') :
    ValidIn known k l' :=
  fun pid member i page present bit => sub _ (valid pid member i page present bit)

theorem ValidIn.congr (valid : ValidIn known k l) (same : ∀ pid i, t.page pid i = k.page pid i) : ValidIn known t l :=
  fun pid member i page present bit => valid pid member i page (same pid i ▸ present) bit

theorem page_setPcb (k : KernelState) (pid other : Nat) (pcb : PagedPCB) (i : Nat) :
    (k.setPcb pid pcb).page other i = if other = pid then pcb.pageTable[i]? else k.page other i := by
  split
  next same =>
    rw [same]
    exact congrArg (fun pcb : PagedPCB => pcb.pageTable[i]?) (Function.update_self ..)
  next different => exact congrArg (fun pcb : PagedPCB => pcb.pageTable[i]?) (Function.update_of_ne different ..)

theorem page_setPcb_same {pcb : PagedPCB} (table : pcb.pageTable = (k.pcb pid).pageTable) (other i : Nat) :
    (k.setPcb pid pcb).page other i = k.page other i := by
  rw [page_setPcb]
  split
  next same => rw [same, table, KernelState.page]
  next => rfl

theorem page_setPage (present : k.page pid i = some page) (m : ShellMemory) (new : Page) (other j : Nat) :
    (({ k with memory := m } : KernelState).setPage pid i new).page other j =
      if (other, j) = (pid, i) then some new else k.page other j := by
  have inside : i < (k.pcb pid).pageTable.length := (List.getElem?_eq_some_iff.mp present).1
  rw [setPage, page_setPcb]
  by_cases same : other = pid
  · rw [if_pos same, List.getElem?_set]
    by_cases here : i = j
    · rw [if_pos here, if_pos inside, same, here, if_pos rfl]
    · rw [if_neg here, if_neg fun equal => here (Prod.mk.inj equal).2.symm, same, KernelState.page]
  · rw [if_neg same, if_neg fun equal => same (Prod.mk.inj equal).1]
    rfl

theorem loadPage_spec (known : List Nat) (l : List (Nat × Nat))
    (run : k.loadPage sizes pid i = some (loaded, t)) :
    SameLists k t ∧ (ValidIn known k l → ValidIn known t ((pid, i) :: l)) := by
  obtain ⟨page, present, run⟩ := Option.bind_eq_some_iff.mp run
  cases frame : frameAlloc sizes k.memory (pidText pid) page with
  | none =>
    rw [frame] at run
    obtain ⟨rfl, rfl⟩ := Prod.mk.inj (Option.some_inj.mp run)
    exact ⟨⟨rfl, rfl, rfl⟩, fun valid => valid.mono fun _ => List.mem_cons_of_mem _⟩
  | some both =>
    rw [frame] at run
    obtain ⟨rfl, rfl⟩ := Prod.mk.inj (Option.some_inj.mp run)
    refine ⟨⟨rfl, rfl, rfl⟩, fun valid other member j new there bit => ?_⟩
    generalize filled : fillPage (pidText pid) [0, 1, 2] both.1 both.2 (k.pcb pid).sourceFile = r at there
    have table : (({ k with memory := r.1 } : KernelState).setPage pid i r.2.1).page other j = some new := by
      refine Eq.trans ?_ there
      exact (page_setPcb_same (by rfl) other j).symm
    rw [page_setPage present] at table
    split at table
    next same => exact same ▸ List.mem_cons_self
    next => exact List.mem_cons_of_mem _ (valid other member j new table bit)

theorem pageEvict_spec (known : List Nat) (l : List (Nat × Nat))
    (run : k.pageEvict pid i = some t) :
    SameLists k t ∧ (ValidIn known k (l ++ [(pid, i)]) → ValidIn known t l) := by
  obtain ⟨page, present, run⟩ := Option.bind_eq_some_iff.mp run
  obtain rfl := Option.some_inj.mp run
  refine ⟨⟨rfl, rfl, rfl⟩, fun valid other member j new there bit => ?_⟩
  rw [page_setPage present] at there
  split at there
  next =>
    obtain rfl := Option.some_inj.mp there
    obtain ⟨line, absurd'⟩ := bit
    cases absurd'
  next different =>
    have inside := valid other member j new there bit
    exact (List.mem_append.mp inside).resolve_right fun last => different (List.mem_singleton.mp last)

theorem loadPages_spec (known : List Nat) (l : List (Nat × Nat)) {pages : List Nat}
    (run : loadPages sizes pid pages k = some t) :
    SameLists k t ∧ (ValidIn known k l → ValidIn known t ((pages.map (Prod.mk pid)).reverse ++ l)) := by
  induction pages generalizing k l with
  | nil =>
    obtain rfl := Option.some_inj.mp run
    exact ⟨⟨rfl, rfl, rfl⟩, id⟩
  | cons i rest ih =>
    obtain ⟨⟨loaded, mid⟩, first, run⟩ := Option.bind_eq_some_iff.mp run
    obtain ⟨lists, valid⟩ := loadPage_spec known l first
    cases loaded with
    | false => cases run
    | true =>
      obtain ⟨lists', valid'⟩ := ih ((pid, i) :: l) run
      refine ⟨lists.trans lists', fun start => ?_⟩
      rw [List.map_cons, List.reverse_cons, List.append_assoc]
      exact valid' (valid start)

theorem cpuRun_spec {parseInput : Text → ShellMemory → Int × ShellMemory} {ret : Int}
    (run : k.cpuRun parseInput pid i line = some (ret, t)) :
    SameLists k t ∧ ∀ other j, t.page other j = k.page other j := by
  obtain ⟨page, -, run⟩ := Option.bind_eq_some_iff.mp run
  split at run
  · obtain ⟨-, rfl⟩ := Prod.mk.inj (Option.some_inj.mp run)
    exact ⟨⟨rfl, rfl, rfl⟩, fun _ _ => rfl⟩
  · obtain ⟨-, rfl⟩ := Prod.mk.inj (Option.some_inj.mp run)
    refine ⟨⟨rfl, rfl, rfl⟩, fun other j => ?_⟩
    exact (page_setPcb_same (by rfl) other j).trans rfl

theorem loadPage_false (run : k.loadPage sizes pid i = some (false, t)) : t = k := by
  obtain ⟨page, -, run⟩ := Option.bind_eq_some_iff.mp run
  cases frame : frameAlloc sizes k.memory (pidText pid) page with
  | none =>
    rw [frame] at run
    exact (Prod.mk.inj (Option.some_inj.mp run)).2.symm
  | some both =>
    rw [frame] at run
    cases (Prod.mk.inj (Option.some_inj.mp run)).1

/-- After a page fault in the first state the page is loaded in the second; without a frame for it, the page used longest
ago goes before. -/
def Fetches (sizes : StoreSizes) (k : KernelState) (pid i : Nat) (u : KernelState) : Prop :=
  k.loadPage sizes pid i = some (true, u) ∨
    ∃ victim evicted again, k.lruCache.getLast? = some victim ∧
      ({ k with lruCache := k.lruCache.dropLast } : KernelState).pageEvict victim.1 victim.2 = some evicted ∧
      evicted.loadPage sizes pid i = some (again, u)

theorem runProc_fault {parseInput : Text → ShellMemory → Int × ShellMemory} {ran : KernelState}
    (executed : k.cpuRun parseInput pid i line = some (1, ran))
    (run : k.runProc sizes parseInput pid i line = some (fault, t)) : fault = true ∧ ∃ u, Fetches sizes ran pid i u ∧
      t = { u with lruCache := (pid, i) :: u.lruCache, queue := u.queue ++ [pid] } := by
  rw [KernelState.runProc, executed] at run
  simp only [Option.bind_eq_bind, Option.bind_some, if_true] at run
  obtain ⟨⟨loaded, first⟩, load, rest⟩ := Option.bind_eq_some_iff.mp run
  cases loaded with
  | true =>
    obtain ⟨rfl, rfl⟩ := Prod.mk.inj (Option.some_inj.mp rest)
    exact ⟨rfl, first, .inl load, rfl⟩
  | false =>
    obtain ⟨victim, last, rest⟩ := Option.bind_eq_some_iff.mp rest
    obtain ⟨evicted, evict, rest⟩ := Option.bind_eq_some_iff.mp rest
    obtain ⟨⟨again, second⟩, reload, rest⟩ := Option.bind_eq_some_iff.mp rest
    obtain ⟨rfl, rfl⟩ := Prod.mk.inj (Option.some_inj.mp rest)
    rw [loadPage_false load] at last evict
    exact ⟨rfl, second, .inr ⟨victim, evicted, again, last, evict, reload⟩, rfl⟩

theorem runProc_goesOn {parseInput : Text → ShellMemory → Int × ShellMemory} {ran : KernelState} {ret : Int}
    (executed : k.cpuRun parseInput pid i line = some (ret, ran)) (goesOn : ret ≠ 1)
    (run : k.runProc sizes parseInput pid i line = some (fault, t)) :
    fault = false ∧ ∃ cached, t = { ran with lruCache := cached :: ran.lruCache.erase cached } ∧ cached ∈ ran.lruCache := by
  rw [KernelState.runProc, executed] at run
  simp only [Option.bind_eq_bind, Option.bind_some, if_neg goesOn] at run
  obtain ⟨page, -, run⟩ := Option.bind_eq_some_iff.mp run
  obtain ⟨cached, found, run⟩ := Option.bind_eq_some_iff.mp run
  obtain ⟨rfl, rfl⟩ := Prod.mk.inj (Option.some_inj.mp run)
  exact ⟨rfl, cached, rfl, List.mem_of_find?_eq_some found⟩

theorem Fetches.valid {u : KernelState} (fetches : Fetches sizes k pid i u) (known : List Nat)
    (valid : ValidIn known k k.lruCache) :
    u.allPcb = k.allPcb ∧ u.pidCounter = k.pidCounter ∧ ValidIn known u ((pid, i) :: u.lruCache) := by
  rcases fetches with load | ⟨victim, evicted, again, last, evict, reload⟩
  · obtain ⟨lists, loads⟩ := loadPage_spec known k.lruCache load
    exact ⟨lists.allPcb, lists.pidCounter, lists.lruCache ▸ loads valid⟩
  · obtain ⟨lists, clears⟩ := pageEvict_spec known k.lruCache.dropLast evict
    obtain ⟨lists', loads⟩ := loadPage_spec known k.lruCache.dropLast reload
    have whole := lists.trans lists'
    have rejoined : k.lruCache.dropLast ++ [(victim.1, victim.2)] = k.lruCache := List.dropLast_append_getLast? victim last
    refine ⟨whole.allPcb, whole.pidCounter, ?_⟩
    rw [show u.lruCache = k.lruCache.dropLast from whole.lruCache]
    exact loads (clears (rejoined.symm ▸ valid.congr fun _ _ => rfl))

theorem mem_touched {x cached : Nat × Nat} (member : x ∈ l) : x ∈ cached :: l.erase cached := by
  by_cases here : x = cached
  · exact here ▸ List.mem_cons_self
  · exact List.mem_cons_of_mem _ ((List.mem_erase_of_ne here).mpr member)

theorem Cached.runProc (cached : Cached k) {parseInput : Text → ShellMemory → Int × ShellMemory}
    (run : k.runProc sizes parseInput pid i line = some (fault, t)) : Cached t := by
  obtain ⟨⟨ret, ran⟩, executed, -⟩ := Option.bind_eq_some_iff.mp run
  obtain ⟨lists, pages⟩ := cpuRun_spec executed
  have start : ValidIn k.allPcb ran ran.lruCache := lists.lruCache ▸ cached.cached.congr pages
  have numbered : ∀ pid ∈ ran.allPcb, pid < ran.pidCounter := fun pid member =>
    lists.pidCounter ▸ cached.numbered pid (lists.allPcb ▸ member)
  rw [← lists.allPcb] at start
  by_cases one : ret = 1
  · subst one
    obtain ⟨-, u, fetches, rfl⟩ := runProc_fault executed run
    obtain ⟨allPcb, pidCounter, valid⟩ := fetches.valid _ start
    exact ⟨fun pid member => pidCounter ▸ numbered pid (allPcb ▸ member), allPcb ▸ valid⟩
  · obtain ⟨-, touched, rfl, -⟩ := runProc_goesOn executed one run
    exact ⟨numbered, start.mono fun _ => mem_touched⟩

theorem Cached.newProc (cached : Cached k) {script : Option Text} (run : k.newProc sizes script = some t) : Cached t := by
  obtain ⟨script, -, run⟩ := Option.bind_eq_some_iff.mp run
  obtain ⟨mid, loads, run⟩ := Option.bind_eq_some_iff.mp run
  obtain rfl := Option.some_inj.mp run
  obtain ⟨lists, valid⟩ := loadPages_spec (k.allPcb ++ [k.pidCounter]) k.lruCache loads
  have allPcb : mid.allPcb = k.allPcb := lists.allPcb
  have pidCounter : mid.pidCounter = k.pidCounter + 1 := lists.pidCounter
  have lruCache : mid.lruCache = k.lruCache := lists.lruCache
  refine ⟨fun pid member => ?_, ?_⟩
  · simp only [pidCounter, allPcb] at member ⊢
    rcases List.mem_append.mp member with earlier | new
    · exact Nat.lt_succ_of_lt (cached.numbered pid earlier)
    · rw [List.mem_singleton.mp new]
      exact Nat.lt_succ_self _
  · simp only [allPcb, lruCache]
    refine ValidIn.congr (valid fun pid member i page present bit => ?_) fun _ _ => rfl
    replace present := (page_setPcb k k.pidCounter pid _ i).symm.trans present
    split at present
    next =>
      -- no line of a page is valid before it is loaded
      rw [List.getElem?_map] at present
      obtain ⟨number, -, rfl⟩ := Option.map_eq_some_iff.mp present
      obtain ⟨line, absurd'⟩ := bit
      cases absurd'
    next other =>
      have earlier := (List.mem_append.mp member).resolve_right fun new => other (List.mem_singleton.mp new)
      exact cached.cached pid earlier i page present bit

theorem Reached.cached (reached : Reached sizes k) : Cached k := by
  induction reached with
  | setup => exact ⟨fun pid member => absurd member List.not_mem_nil, fun pid member => absurd member List.not_mem_nil⟩
  | newProc before run ih => exact ih.newProc run
  | runProc parseInput before known run ih => exact ih.runProc run
  | others m queue before ih => exact ⟨ih.numbered, ih.cached.congr fun _ _ => rfl⟩
  | freeAll before ih =>
    exact ⟨fun pid member => absurd member List.not_mem_nil, fun pid member => absurd member List.not_mem_nil⟩

def counted (k : KernelState) (pid i : Nat) (m : ShellMemory) : KernelState :=
  { k with memory := m }.setPcb pid { k.pcb pid with
    programCounter := Function.update (k.pcb pid).programCounter i ((k.pcb pid).programCounter i + 1)
    size := (k.pcb pid).size - 1 }

theorem page_counted (k : KernelState) (pid i : Nat) (m : ShellMemory) (other j : Nat) :
    (k.counted pid i m).page other j = k.page other j :=
  (page_setPcb_same (by rfl) other j).trans rfl

theorem cpuRun_valid (present : k.page pid i = some page) (resident : page.validBit line = true) (ret : Int)
    (m : ShellMemory) : k.cpuRun (fun _ _ => (ret, m)) pid i line = some (ret, k.counted pid i m) := by
  simp only [cpuRun, present, Option.bind_eq_bind, Option.bind_some, resident, Bool.true_eq_false, if_false]
  rfl

theorem cachedAt_some (member : (pid, i) ∈ k.lruCache) (present : k.page pid i = some page) :
    ∃ cached, k.cachedAt (page.index 0) = some cached := by
  rw [cachedAt]
  cases found : k.lruCache.find? fun cached => (k.page cached.1 cached.2).any fun other => other.index 0 == page.index 0 with
  | some cached => exact ⟨cached, rfl⟩
  | none =>
    have missed := List.find?_eq_none.mp found (pid, i) member
    simp [present] at missed

theorem runProc_done (sizes : StoreSizes) (cached : (pid, i) ∈ k.lruCache) (present : k.page pid i = some page)
    (resident : page.validBit line = true) {ret : Int} (goesOn : ret ≠ 1) (m : ShellMemory) :
    ∃ touched, k.runProc sizes (fun _ _ => (ret, m)) pid i line =
      some (false, { k.counted pid i m with lruCache := touched :: k.lruCache.erase touched }) := by
  have there : (k.counted pid i m).page pid i = some page := (page_counted k pid i m pid i).trans present
  obtain ⟨touched, found⟩ := cachedAt_some (k := k.counted pid i m) cached there
  refine ⟨touched, ?_⟩
  rw [KernelState.runProc, cpuRun_valid present resident]
  simp only [Option.bind_eq_bind, Option.bind_some, if_neg goesOn, there, found]
  rfl

theorem runProcLine_valid {parse : Text → ShellMemory → Option (Int × ShellMemory)} (present : k.page pid i = some page)
    (resident : page.validBit line = true) : k.runProcLine sizes parse pid i line =
      (parse (k.memory (page.index line)).value k.memory).bind fun r => k.runProc sizes (fun _ _ => r) pid i line := by
  simp only [runProcLine, present, Option.bind_eq_bind, Option.bind_some, resident, Bool.true_eq_false, if_false]

end pages

/-- In every state that the kernel comes to, a line that is in its frame is executed once and nothing is loaded, if and
only if its result is not 1 and it executes no scripts. -/
theorem runProc_once_iff {sizes : StoreSizes} {k : KernelState} {pid pageIndex : Nat} {page : Page} {line : Fin 3}
    (reached : Reached sizes k) (known : pid ∈ k.allPcb) (present : k.page pid pageIndex = some page)
    (resident : page.validBit line = true) (parse : Text → ShellMemory → Option (Int × ShellMemory)) :
    RunsOnce sizes parse k pid pageIndex line ↔
      ∃ ret m, parse (k.memory (page.index line)).value k.memory = some (ret, m) ∧ ret ≠ 1 := by
  have cached : (pid, pageIndex) ∈ k.lruCache := reached.cached.cached pid known pageIndex page present ⟨line, resident⟩
  constructor
  · rintro ⟨page', ret, m, touched, there, parsed, run⟩
    obtain rfl := Option.some_inj.mp (present.symm.trans there)
    refine ⟨ret, m, parsed, ?_⟩
    rintro rfl
    rw [runProcLine_valid present resident, parsed] at run
    have never := (runProc_fault (cpuRun_valid present resident 1 m) run).1
    cases never
  · rintro ⟨ret, m, parsed, goesOn⟩
    obtain ⟨touched, run⟩ := runProc_done sizes cached present resident goesOn m
    refine ⟨page, ret, m, touched, present, parsed, ?_⟩
    rw [runProcLine_valid present resident, parsed]
    exact run

def withScript (script : Text) : Option KernelState :=
  newProc makefileSizes ⟨memInit makefileSizes fun _ => ⟨[], []⟩, fun pid => ⟨pid, 0, fun _ => 0, [], []⟩, [], [], [], 1⟩
    (some script)

theorem withScript_reached {script : Text} {k : KernelState} (run : withScript script = some k) :
    Reached makefileSizes k :=
  .newProc (.setup _ _ _) run

theorem runProc_once_echo : ∃ k page, Reached makefileSizes k ∧ 1 ∈ k.allPcb ∧ k.page 1 0 = some page ∧
    page.validBit 0 = true ∧ (RunsOnce makefileSizes (fun _ m => some (0, m)) k 1 0 0 ↔
      ∃ ret m, (some (0, k.memory) : Option (Int × ShellMemory)) = some (ret, m) ∧ ret ≠ 1) := by
  have started : ∃ k, withScript "echo x".toList = some k := ⟨_, rfl⟩
  obtain ⟨k, run⟩ := started
  have reached := withScript_reached run
  have known : 1 ∈ k.allPcb := by
    obtain rfl := Option.some_inj.mp run
    decide
  have present : ∃ page, k.page 1 0 = some page ∧ page.validBit 0 = true := by
    obtain rfl := Option.some_inj.mp run
    exact ⟨_, rfl, rfl⟩
  obtain ⟨page, present, resident⟩ := present
  exact ⟨k, page, reached, known, present, resident, runProc_once_iff reached known present resident _⟩

/-- The commands of a shell that knows `exec` as far as it counts its arguments: four scripts are refused with the
result 1. -/
def countsScripts (words : List Text) (m : ShellMemory) : Command ShellMemory :=
  if words.head? = some "exec".toList ∧ words.length ≤ 5 ∧ 3 < words.length - 1 then .ret 1 m else .ret 7 m

def parseScripts (text : Text) (m : ShellMemory) : Option (Int × ShellMemory) :=
  (parseNested countsScripts 9 0 text m).map fun r => (r.ret, r.shell)

/-- A line with a refused `exec` is in its frame, and is taken for a page fault. -/
theorem runProc_misreads_exec : ∃ k page, Reached makefileSizes k ∧ 1 ∈ k.allPcb ∧ k.page 1 0 = some page ∧
    page.validBit 0 = true ∧ (k.memory (page.index 0)).value = "exec a b c d\n".toList ∧
    ¬ RunsOnce makefileSizes parseScripts k 1 0 0 := by
  have started : ∃ k, withScript "exec a b c d\necho x".toList = some k := ⟨_, rfl⟩
  obtain ⟨k, run⟩ := started
  have present : ∃ page, k.page 1 0 = some page ∧ page.validBit 0 = true ∧
      (k.memory (page.index 0)).value = "exec a b c d\n".toList ∧ 1 ∈ k.allPcb := by
    obtain rfl := Option.some_inj.mp run
    exact ⟨_, rfl, rfl, by decide +kernel, by decide⟩
  obtain ⟨page, present, resident, text, known⟩ := present
  refine ⟨k, page, withScript_reached run, known, present, resident, text, ?_⟩
  rintro ⟨page', ret, m, touched, there, parsed, run⟩
  obtain rfl := Option.some_inj.mp (present.symm.trans there)
  have refused : parseScripts "exec a b c d\n".toList k.memory = some (1, k.memory) := rfl
  rw [text, refused] at parsed
  obtain ⟨rfl, rfl⟩ := Prod.mk.inj (Option.some_inj.mp parsed)
  rw [runProcLine_valid present resident, text, refused] at run
  have never := (runProc_fault (cpuRun_valid present resident 1 k.memory) run).1
  cases never

end KernelState

end ShellOs.Kernel
