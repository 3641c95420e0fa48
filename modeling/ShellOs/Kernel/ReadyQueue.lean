import ShellOs.Lib.Chain

/-! The ready queue of the scheduler (ready_queue.c): a list linked through its nodes and edited in place. -/

namespace ShellOs.Kernel
open Lib

abbrev Addr := Nat

structure PCB where
  priority : Bool
  jobLengthScore : Int

structure QueueNode where
  pcb : Addr
  next : Option Addr

/-- The queue's `head`, and the memory that its nodes and their PCBs lie in. -/
structure ReadyQueue where
  head : Option Addr
  node : Addr → QueueNode
  pcb : Addr → PCB

namespace ReadyQueue

def next (q : ReadyQueue) (a : Addr) : Option Addr := (q.node a).next

def setNext (q : ReadyQueue) (a : Addr) (next : Option Addr) : ReadyQueue :=
  { q with node := Function.update q.node a { q.node a with next := next } }

def pcbOf (q : ReadyQueue) (a : Addr) : PCB := q.pcb (q.node a).pcb

def score (q : ReadyQueue) (a : Addr) : Int := (q.pcbOf a).jobLengthScore

def lastNode (q : ReadyQueue) : Nat → Addr → Option Addr
  | 0, _ => none
  | fuel + 1, cur =>
    match q.next cur with
    | none => some cur
    | some next => lastNode q fuel next

/-- The results are `none` for a loop that is not done within the fuel, or if a null pointer is followed. -/
def readyQueueAddToTail (fuel : Nat) (q : ReadyQueue) (node : Addr) : Option ReadyQueue :=
  match q.head with
  | none => some ({ q with head := some node }.setNext node none)
  | some head => (q.lastNode fuel head).map fun cur => (q.setNext cur (some node)).setNext node none

def readyQueueAddToHead (q : ReadyQueue) (node : Addr) : ReadyQueue :=
  match q.head with
  | none => { q with head := some node }.setNext node none
  | some _ => { q.setNext node q.head with head := some node }

def readyQueuePopHead (q : ReadyQueue) : Option Addr × ReadyQueue :=
  match q.head with
  | none => (none, q)
  | some head => (some head, { q with head := q.next head })

def decrementFrom : Nat → ReadyQueue → Option Addr → Option ReadyQueue
  | 0, _, _ => none
  | _ + 1, q, none => some q
  | fuel + 1, q, some cur =>
    let pcb := q.pcbOf cur
    let less := if 0 < pcb.jobLengthScore then { pcb with jobLengthScore := pcb.jobLengthScore - 1 } else pcb
    decrementFrom fuel { q with pcb := Function.update q.pcb (q.node cur).pcb less } (q.next cur)

def readyQueueDecrementJobLengthScore (fuel : Nat) (q : ReadyQueue) : Option ReadyQueue := decrementFrom fuel q q.head

def findBefore (q : ReadyQueue) (toSwap : Addr) : Nat → Option Addr → Option (Option Addr)
  | 0, _ => none
  | _ + 1, none => some none
  | fuel + 1, some cur => if q.next cur = some toSwap then some (some cur) else findBefore q toSwap fuel (q.next cur)

/-- The special case for the head of the queue, behind which the search for the node before goes on. -/
def swapHead (q : ReadyQueue) (toSwap : Addr) : Option ReadyQueue :=
  if q.head = some toSwap then do
    let next ← q.next toSwap
    let linked := (q.setNext toSwap (q.next next)).setNext next (some toSwap)
    some { linked with head := some next }
  else some q

def readyQueueSwapWithNext (fuel : Nat) (q : ReadyQueue) (toSwap : Addr) : Option ReadyQueue := do
  let swapped ← q.swapHead toSwap
  let before ← swapped.findBefore toSwap fuel q.head
  match before with
  | none => some swapped
  | some cur =>
    let mid ← swapped.next cur
    let next ← swapped.next mid
    let afterNext := swapped.next next
    some (((swapped.setNext cur (some next)).setNext next (some toSwap)).setNext toSwap afterNext)

def swapNeeded (q : ReadyQueue) (cur : Addr) : Bool :=
  match q.next cur with
  | none => false
  | some next =>
    if (q.pcbOf cur).priority && (q.pcbOf next).priority then q.score next < q.score cur
    else if (q.pcbOf cur).priority && !(q.pcbOf next).priority then false
    else if !(q.pcbOf cur).priority && (q.pcbOf next).priority then true
    else q.score next < q.score cur

/-- The inner loop of `sort_ready_queue`. It gives the cursor back as well: the outer loop never resets it. -/
def sortPass (limit : Nat) : Nat → ReadyQueue → Addr → Bool → Option (ReadyQueue × Addr × Bool)
  | 0, _, _, _ => none
  | fuel + 1, q, cur, sorted =>
    match q.next cur with
    | none => some (q, cur, sorted)
    | some next =>
      if q.swapNeeded cur then do
        let swapped ← q.readyQueueSwapWithNext limit cur
        sortPass limit fuel swapped cur false
      else sortPass limit fuel q next sorted

def sortLoop (limit : Nat) : Nat → ReadyQueue → Addr → Option ReadyQueue
  | 0, _, _ => none
  | fuel + 1, q, cur => do
    let (q, cur, sorted) ← sortPass limit limit q cur true
    if sorted then some q else sortLoop limit fuel q cur

def sortReadyQueue (limit : Nat) (q : ReadyQueue) : Option ReadyQueue :=
  match q.head with
  | none => some q
  | some head => sortLoop limit limit q head

def readyQueuePopShortestJob (limit : Nat) (q : ReadyQueue) : Option (Option Addr × ReadyQueue) :=
  (q.sortReadyQueue limit).map readyQueuePopHead

def findPromoted (q : ReadyQueue) (score : Int) : Nat → Addr → Option Addr
  | 0, _ => none
  | fuel + 1, cur =>
    match q.next cur with
    | none => some cur
    | some next => if q.score next = score then some cur else findPromoted q score fuel next

def readyQueuePromote (fuel : Nat) (q : ReadyQueue) (score : Int) : Option ReadyQueue := do
  let head ← q.head
  if q.score head = score then some q
  else
    let cur ← q.findPromoted score fuel head
    match q.next cur with
    | none => some q
    | some next =>
      if q.score next ≠ score then some q
      else some { (q.setNext cur (q.next next)).setNext next q.head with head := some next }

end ReadyQueue

inductive QueueCall
  | addToTail (node : Addr)
  | addToHead (node : Addr)
  | popHead
  | sort
  | popShortestJob
  | decrementJobLengthScore
  | promote (score : Int)

/-- What a call returns, if it returns a node, and the queue after it. -/
def QueueCall.run (fuel : Nat) (q : ReadyQueue) : QueueCall → Option (Option Addr × ReadyQueue)
  | .addToTail node => (q.readyQueueAddToTail fuel node).map (none, ·)
  | .addToHead node => some (none, q.readyQueueAddToHead node)
  | .popHead => some q.readyQueuePopHead
  | .sort => (q.sortReadyQueue fuel).map (none, ·)
  | .popShortestJob => q.readyQueuePopShortestJob fuel
  | .decrementJobLengthScore => (q.readyQueueDecrementJobLengthScore fuel).map (none, ·)
  | .promote score => (q.readyQueuePromote fuel score).map (none, ·)

end ShellOs.Kernel
