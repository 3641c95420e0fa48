import ShellOs.Kernel.ScriptLines

/-! Processes in pages of three lines, and the round-robin scheduler (pcb.c, cpu.c, kernel.c). -/

namespace ShellOs.Kernel

structure Page where
  index : Fin 3 → Nat
  validBit : Fin 3 → Bool
  pageIndex : Nat
  pagePid : Nat

/-- `page_table_size` is the length of `pageTable`, and `program_counter` has as many entries. -/
structure PagedPCB where
  pid : Nat
  size : Int
  programCounter : Nat → Nat
  pageTable : List Page
  sourceFile : Text

def pidText (pid : Nat) : Text := Nat.toDigits 10 pid

def pageTableSize (lines : Nat) : Nat := if lines % 3 = 0 then lines / 3 else lines / 3 + 1

def pageInit (pagePid pageTableIndex : Nat) : Page := ⟨fun _ => 1000, fun _ => false, pageTableIndex, pagePid⟩

def freeFrame (sizes : StoreSizes) (m : ShellMemory) : Option Nat :=
  (List.range sizes.frameStoreSize).find? fun i =>
    i + 3 ≤ sizes.frameStoreSize && (List.range' i 3).all fun j => (m j).var == noneText

/-- `frame_alloc`: the slots are marked with the process and given to the page; `none` if there are not three. -/
def frameAlloc (sizes : StoreSizes) (m : ShellMemory) (pid : Text) (page : Page) : Option (ShellMemory × Page) :=
  (freeFrame sizes m).map fun i =>
    ((List.range' i 3).foldl (fun m k => Function.update m k { m k with var := pid }) m,
      { page with index := fun j => i + j, validBit := fun _ => false })

def memSetValueAt (m : ShellMemory) (pos : Nat) (pid valueIn : Text) : ShellMemory :=
  Function.update m pos ⟨pid, valueIn⟩

/-- The loop that fills a page from the script, to the first `fgets` that fails. -/
def fillPage (pid : Text) : List (Fin 3) → ShellMemory → Page → Text → ShellMemory × Page × Text
  | [], m, page, file => (m, page, file)
  | j :: rest, m, page, file =>
    match fgets 999 file with
    | none => (m, page, file)
    | some (line, file) =>
      fillPage pid rest (memSetValueAt m (page.index j) pid line)
        { page with validBit := Function.update page.validBit j true } file

/-- What the kernel keeps: the memory, the processes by their number, the ready queue, the cache of pages (the one used
last first) and all processes. -/
structure KernelState where
  memory : ShellMemory
  pcb : Nat → PagedPCB
  queue : List Nat
  lruCache : List (Nat × Nat)
  allPcb : List Nat
  pidCounter : Nat

namespace KernelState

variable (sizes : StoreSizes) (parseInput : Text → ShellMemory → Int × ShellMemory)

def setPcb (k : KernelState) (pid : Nat) (pcb : PagedPCB) : KernelState := { k with pcb := Function.update k.pcb pid pcb }

def setPage (k : KernelState) (pid pageIndex : Nat) (page : Page) : KernelState :=
  k.setPcb pid { k.pcb pid with pageTable := (k.pcb pid).pageTable.set pageIndex page }

def page (k : KernelState) (pid pageIndex : Nat) : Option Page := (k.pcb pid).pageTable[pageIndex]?

/-- `load_PAGE`, and one page of `PCB_init`: false if there is no frame. -/
def loadPage (k : KernelState) (pid pageIndex : Nat) : Option (Bool × KernelState) := do
  let page ← k.page pid pageIndex
  match frameAlloc sizes k.memory (pidText pid) page with
  | none => some (false, k)
  | some (m, page) =>
    let filled := fillPage (pidText pid) [0, 1, 2] m page (k.pcb pid).sourceFile
    let loaded := { k with memory := filled.1 }.setPage pid pageIndex filled.2.1
    some (true, loaded.setPcb pid { loaded.pcb pid with sourceFile := filled.2.2 })

/-- The pages that `PCB_init` loads; without a frame for one of them the program ends. -/
def loadPages (pid : Nat) : List Nat → KernelState → Option KernelState
  | [], k => some k
  | i :: rest, k => do
    let (loaded, k) ← k.loadPage sizes pid i
    if loaded then loadPages pid rest k else none

def clearedWith (pcb : PagedPCB) : List Nat :=
  pcb.pageTable.flatMap fun page => [page.index 0, page.index 1, page.index 2].flatMap fun start => List.range' start 3

/-- `new_proc`; with a script that is not there the program ends. -/
def newProc (k : KernelState) (script : Option Text) : Option KernelState := do
  let script ← script
  let pid := k.pidCounter
  let pages := pageTableSize (countLines script)
  let pcb : PagedPCB := ⟨pid, countLines script, fun _ => 0, (List.range pages).map (pageInit pid), script⟩
  let limit := min 2 pages
  let k ← loadPages sizes pid (List.range limit) { k.setPcb pid pcb with pidCounter := pid + 1 }
  some { k with
    allPcb := k.allPcb ++ [pid]
    queue := k.queue ++ [pid]
    lruCache := ((List.range limit).map (Prod.mk pid)).reverse ++ k.lruCache }

def pageEvict (k : KernelState) (pid pageIndex : Nat) : Option KernelState := do
  let page ← k.page pid pageIndex
  let freed := [page.index 0, page.index 1, page.index 2].foldl memFreeAt k.memory
  some ({ k with memory := freed }.setPage pid pageIndex
    { page with index := fun _ => 0, validBit := fun _ => false })

/-- `remove_elem` in the cache: pages are the same if they start in the same slot. -/
def cachedAt (k : KernelState) (start : Nat) : Option (Nat × Nat) :=
  k.lruCache.find? fun cached => (k.page cached.1 cached.2).any fun page => page.index 0 == start

/-- `cpu_run`: the line in the page, if it is valid, is interpreted. The result 1 means a page fault, here or there. -/
def cpuRun (k : KernelState) (pid pageIndex : Nat) (line : Fin 3) : Option (Int × KernelState) := do
  let page ← k.page pid pageIndex
  if page.validBit line = false then some (1, k)
  else
    let r := parseInput (k.memory (page.index line)).value k.memory
    let pcb := k.pcb pid
    some (r.1, { k with memory := r.2 }.setPcb pid { pcb with
      programCounter := Function.update pcb.programCounter pageIndex (pcb.programCounter pageIndex + 1)
      size := pcb.size - 1 })

/-- `run_proc`: true for a page fault, for which a page is loaded, if need be in place of the one used longest ago. -/
def runProc (k : KernelState) (pid pageIndex : Nat) (line : Fin 3) : Option (Bool × KernelState) := do
  let (ret, k) ← k.cpuRun parseInput pid pageIndex line
  if ret = 1 then
    let (loaded, k) ← k.loadPage sizes pid pageIndex
    let k ← if loaded then some k
      else do
        let victim ← k.lruCache.getLast?
        let k ← { k with lruCache := k.lruCache.dropLast }.pageEvict victim.1 victim.2
        let (_, k) ← k.loadPage sizes pid pageIndex
        some k
    some (true, { k with lruCache := (pid, pageIndex) :: k.lruCache, queue := k.queue ++ [pid] })
  else
    let page ← k.page pid pageIndex
    let cached ← k.cachedAt (page.index 0)
    some (false, { k with lruCache := cached :: k.lruCache.erase cached })

/-- The first page that is not done, which has to be there, and its next line. -/
def nextLine (k : KernelState) (pid : Nat) : Option (Nat × Fin 3) := do
  let pcb := k.pcb pid
  let i ← (List.range pcb.pageTable.length).find? fun i => pcb.programCounter i != 3
  if inside : pcb.programCounter i < 3 then some (i, ⟨pcb.programCounter i, inside⟩) else none

def pcbDone (pcb : PagedPCB) : Bool := (List.range pcb.pageTable.length).all fun i => pcb.programCounter i == 3

def queueDone (k : KernelState) : Bool := k.queue.all fun pid => pcbDone (k.pcb pid)

def runLine (k : KernelState) (pid : Nat) : Option (Bool × KernelState) := do
  let (i, line) ← k.nextLine pid
  k.runProc sizes parseInput pid i line

/-- A turn of the loop of `run_proc_RR`: two lines of the first process, which then goes to the end of the queue. -/
def turn (k : KernelState) : Option KernelState :=
  match k.queue with
  | [] => none
  | pid :: rest => do
    let k := { k with queue := rest }
    if 1 < (k.pcb pid).size then
      let (fault, k) ← k.runLine sizes parseInput pid
      if fault then some k
      else
        let (fault, k) ← k.runLine sizes parseInput pid
        if fault then some k else some { k with queue := k.queue ++ [pid] }
    else if (k.pcb pid).size = 1 then
      let (_, k) ← k.runLine sizes parseInput pid
      some k
    else some k

def runQueue : Nat → KernelState → Option KernelState
  | 0, _ => none
  | fuel + 1, k => if k.queueDone then some k else (k.turn sizes parseInput).bind (runQueue fuel)

/-- `free_PCB`, as far as it writes to the memory: each of the three slots of a page is taken for the start of a frame. -/
def freePcb (m : ShellMemory) (pcb : PagedPCB) : ShellMemory :=
  pcb.pageTable.foldl (fun m page => [page.index 0, page.index 1, page.index 2].foldl clearFrame m) m

def freeAll (k : KernelState) : KernelState :=
  { k with memory := (k.allPcb.map k.pcb).foldl freePcb k.memory, queue := [], lruCache := [], allPcb := [] }

def runProcRR (fuel : Nat) (k : KernelState) : Option KernelState := (k.runQueue sizes parseInput fuel).map freeAll

end KernelState

end ShellOs.Kernel
