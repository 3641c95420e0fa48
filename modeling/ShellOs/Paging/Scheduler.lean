import ShellOs.Lib.Bubble
import ShellOs.Paging.Process

/-! Execution of processes, and the policies by which they are scheduled (kernel.c of the shell with demand paging). The
ready queue is the list of its processes. -/

namespace ShellOs.Paging
open Lib
open Kernel (Text)

def maxInt : Nat := 2147483646

/-- What the scheduler has done: a line that a process had executed, and its end. -/
inductive Event
  | executed (pid : Int) (line : Text)
  | terminated (pid : Int)
  deriving DecidableEq

def Event.pid : Event → Int
  | .executed pid _ => pid
  | .terminated pid => pid

/-- The frames, the ready queue, what the commands of the scripts work on, and what was done so far. -/
structure KernelState (σ : Type) where
  store : FrameStore
  queue : List PCB
  shell : σ
  events : List Event

def skipCommands : Nat → Text → Text
  | 0, fp => fp
  | count + 1, fp =>
    match readNextCommand fp with
    | none => skipCommands count fp
    | some (_, fp) => skipCommands count fp

section execute

variable {σ : Type} (shellFrames : Nat) (parseInput : Text → σ → σ)

/-- The line at the program counter, if its page is in a frame of the process. -/
def currentLine (pcb : PCB) (store : FrameStore) : Option Text × FrameStore :=
  let frameIndex := pcb.pageTable (pcb.pc / 3)
  if frameIndex = -1 then (none, store)
  else store.getLineFromFrameStore shellFrames pcb.pid frameIndex (pcb.pc % 3 : Nat)

/-- A page fault: the script is read from its start to the current command, and the page from there. -/
def pageFault (pcb : PCB) (store : FrameStore) : Option (PCB × FrameStore) := do
  let (frame, store, left) ← store.loadFrame shellFrames (skipCommands pcb.currentCommand pcb.fp.contents) pcb.pid
  some (setFrame { pcb with fp := { pcb.fp with left := left } } (pcb.pc / 3) frame, store)

/-- The loop of `execute_process`: the process, if it is not terminated, and the kernel. The commands start no process, so
they work on the state of the shell only. -/
def runQuanta : Nat → PCB → KernelState σ → Option (Option PCB × KernelState σ)
  | 0, pcb, k => some (some pcb, k)
  | quanta + 1, pcb, k =>
    match currentLine shellFrames pcb k.store with
    | (none, store) => do
      let (pcb, store) ← pageFault shellFrames pcb store
      some (some pcb, { k with store := store })
    | (some _, store) => do
      let (line, store) := currentLine shellFrames pcb store
      let line ← line
      let pcb := { pcb with pc := pcb.pc + 1, currentCommand := pcb.currentCommand + 1, priority := false }
      let k : KernelState σ :=
        { k with store := store, shell := parseInput line k.shell, events := k.events ++ [.executed pcb.pid line] }
      if pcb.pc = pcb.numberOfCommands then some (none, { k with events := k.events ++ [.terminated pcb.pid] })
      else runQuanta quanta pcb k

/-- The process is `none` if it was terminated, for which the function of the source returns true. -/
def executeProcess (quanta : Nat) (pcb : PCB) (k : KernelState σ) : Option (Option PCB × KernelState σ) :=
  if pcb.pc = pcb.numberOfCommands then some (none, { k with events := k.events ++ [.terminated pcb.pid] })
  else runQuanta shellFrames parseInput quanta pcb k

/-- The loop that all schedulers have: a process is taken from the queue, if there is any, executed, and put back if it
is not terminated. -/
def schedulerLoop (take : List PCB → Option (PCB × List PCB)) (putBack : PCB → List PCB → List PCB) (quanta : Nat) :
    Nat → KernelState σ → Option (KernelState σ)
  | 0, _ => none
  | fuel + 1, k =>
    match take k.queue with
    | none => some k
    | some (cur, queue) => do
      let (left, k) ← executeProcess shellFrames parseInput quanta cur { k with queue := queue }
      schedulerLoop take putBack quanta fuel
        { k with queue := match left with
                  | none => k.queue
                  | some pcb => putBack pcb k.queue }

end execute

def PCB.Precedes (p r : PCB) : Prop :=
  (p.priority = true ∧ r.priority = false) ∨ (p.priority = r.priority ∧ p.jobLengthScore < r.jobLengthScore)

instance : DecidableRel PCB.Precedes := fun _ _ => inferInstanceAs (Decidable (_ ∨ _))

/-- `sort_ready_queue`, which makes one pass. -/
def sortReadyQueue : List PCB → List PCB
  | [] => []
  | cur :: rest => bubble PCB.Precedes cur rest

def popHead : List PCB → Option (PCB × List PCB)
  | [] => none
  | cur :: rest => some (cur, rest)

def popShortestJob (queue : List PCB) : Option (PCB × List PCB) := popHead (sortReadyQueue queue)

def shortestJobScore (queue : List PCB) : Int :=
  queue.foldl (fun shortest pcb => if pcb.jobLengthScore < shortest then pcb.jobLengthScore else shortest) maxInt

def promote (score : Int) (queue : List PCB) : List PCB :=
  match queue.find? fun pcb => pcb.jobLengthScore = score with
  | none => queue
  | some pcb => pcb :: queue.eraseP fun pcb => pcb.jobLengthScore = score

def decrementJobLengthScore (queue : List PCB) : List PCB :=
  queue.map fun pcb => if 0 < pcb.jobLengthScore then { pcb with jobLengthScore := pcb.jobLengthScore - 1 } else pcb

/-- An iteration of `scheduler_AGING` up to the call of `execute_process`. -/
def agingTake (queue : List PCB) : Option (PCB × List PCB) := do
  let (cur, rest) ← popHead queue
  let shortest := shortestJobScore rest
  let (cur, rest) ← if shortest < cur.jobLengthScore then popHead (promote shortest rest ++ [cur]) else some (cur, rest)
  some (cur, decrementJobLengthScore rest)

section policies

variable {σ : Type} (shellFrames : Nat) (parseInput : Text → σ → σ)

def schedulerRR (quanta fuel : Nat) (k : KernelState σ) : Option (KernelState σ) :=
  schedulerLoop shellFrames parseInput popHead (fun pcb queue => queue ++ [pcb]) quanta fuel k

def schedulerFCFS (fuel : Nat) (k : KernelState σ) : Option (KernelState σ) :=
  schedulerLoop shellFrames parseInput popHead (fun pcb queue => queue ++ [pcb]) maxInt fuel k

def schedulerSJF (fuel : Nat) (k : KernelState σ) : Option (KernelState σ) :=
  schedulerLoop shellFrames parseInput popShortestJob (fun _ queue => queue) maxInt fuel k

def schedulerAGING (fuel : Nat) (k : KernelState σ) : Option (KernelState σ) :=
  schedulerLoop shellFrames parseInput agingTake List.cons 1 fuel { k with queue := sortReadyQueue k.queue }

/-- The policies by name; 5 is the code SCHEDULING_ERROR. It is called when no scheduler is active. -/
def scheduleByPolicy (policy : Text) (fuel : Nat) (k : KernelState σ) : Option (Int × KernelState σ) :=
  if policy = "FCFS".toList then (schedulerFCFS shellFrames parseInput fuel k).map (0, ·)
  else if policy = "SJF".toList then (schedulerSJF shellFrames parseInput fuel k).map (0, ·)
  else if policy = "RR".toList then (schedulerRR shellFrames parseInput 2 fuel k).map (0, ·)
  else if policy = "AGING".toList then (schedulerAGING shellFrames parseInput fuel k).map (0, ·)
  else if policy = "RR30".toList then (schedulerRR shellFrames parseInput 30 fuel k).map (0, ·)
  else some (5, k)

end policies

end ShellOs.Paging
