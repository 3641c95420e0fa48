import ShellOs.FileSystem.LinkedList

/-! The other calls of list.c. A failed assertion gives `none`, as a null pointer does; what an assertion asks only of
pointers that the next line follows is not asked twice. The elements are compared by `less`, which sees their data. -/

namespace ShellOs.FileSystem
open Lib DoublyLinked

inductive Link (α : Type)
  | prev (elem : α)
  | next (elem : α)

section calls

variable {α : Type} [DecidableEq α]

def Link.load (h : Heap α) : Link α → Option (Option α)
  | .prev elem => (h elem).map Cell.prev
  | .next elem => (h elem).map Cell.next

def Link.store (h : Heap α) (pointer : Option α) : Link α → Option (Heap α)
  | .prev elem => setPrev h elem pointer
  | .next elem => setNext h elem pointer

def swap (h : Heap α) (a b : Link α) : Option (Heap α) := do
  let t ← a.load h
  let h ← a.store h (← b.load h)
  b.store h t

def isInterior (h : Heap α) (elem : α) : Bool :=
  match h elem with
  | some ⟨some _, some _⟩ => true
  | _ => false

def listRbegin (h : Heap α) (list : LinkedList α) : Option α := (h list.tail).bind Cell.prev

def listPrev (h : Heap α) (elem : α) : Option α := (h elem).bind Cell.prev

def listRend (list : LinkedList α) : α := list.head

def listHead (list : LinkedList α) : α := list.head

def listTail (list : LinkedList α) : α := list.tail

/-- `list_splice`, which moves the elements from `first` up to `last`, without it. -/
def listSplice (h : Heap α) (before first last : α) : Option (Heap α) := do
  let _ ← (← h before).prev
  if first = last then some h
  else
    let last ← listPrev h last
    if isInterior h first && isInterior h last then
      let h ← setNext h (← (← h first).prev) (← h last).next
      let h ← setPrev h (← (← h last).next) (← h first).prev
      let h ← setPrev h first (← h before).prev
      let h ← setNext h last (some before)
      let h ← setNext h (← (← h before).prev) (some first)
      setPrev h before (some last)
    else none

def listPushFront (h : Heap α) (list : LinkedList α) (elem : α) : Option (Heap α) := do
  listInsert h (← listBegin h list) elem

def listBack (h : Heap α) (list : LinkedList α) : Option α := do
  if ← listEmpty h list then none else listRbegin h list

def listPopBack (h : Heap α) (list : LinkedList α) : Option (α × Heap α) := do
  let back ← listBack h list
  let r ← listRemove h back
  some (back, r.2)

def countFrom (h : Heap α) (list : LinkedList α) : Nat → α → Nat → Option Nat
  | 0, _, _ => none
  | fuel + 1, e, cnt => if e = listEnd list then some cnt else do countFrom h list fuel (← listNext h e) (cnt + 1)

def listSize (fuel : Nat) (h : Heap α) (list : LinkedList α) : Option Nat := do
  countFrom h list fuel (← listBegin h list) 0

def swapFrom (list : LinkedList α) : Nat → Heap α → α → Option (Heap α)
  | 0, _, _ => none
  | fuel + 1, h, e =>
    if e = listEnd list then some h
    else do
      let h ← swap h (.prev e) (.next e)
      swapFrom list fuel h (← (← h e).prev)

def listReverse (fuel : Nat) (h : Heap α) (list : LinkedList α) : Option (Heap α) := do
  if ← listEmpty h list then some h
  else
    let h ← swapFrom list fuel h (← listBegin h list)
    let h ← swap h (.next list.head) (.prev list.tail)
    swap h (.prev (← (← h list.head).next)) (.next (← (← h list.tail).prev))

variable (less : α → α → Bool)

def sortedFrom (h : Heap α) : Nat → α → α → Option Bool
  | 0, _, _ => none
  | fuel + 1, a, b => do
    let a ← listNext h a
    if a = b then some true
    else if less a (← listPrev h a) then some false
    else sortedFrom h fuel a b

def isSorted (fuel : Nat) (h : Heap α) (a b : α) : Option Bool :=
  if a = b then some true else sortedFrom less h fuel a b

def runFrom (h : Heap α) : Nat → α → α → Option α
  | 0, _, _ => none
  | fuel + 1, a, b => do
    let a ← listNext h a
    if a = b then some a
    else if less a (← listPrev h a) then some a
    else runFrom h fuel a b

def findEndOfRun (fuel : Nat) (h : Heap α) (a b : α) : Option α := if a = b then none else runFrom less h fuel a b

def mergeFrom : Nat → Heap α → α → α → α → Option (Heap α)
  | 0, _, _, _, _ => none
  | fuel + 1, h, a0, a1b0, b1 =>
    if a0 = a1b0 ∨ a1b0 = b1 then some h
    else if less a1b0 a0 then do
      let a1b0 ← listNext h a1b0
      let h ← listSplice h a0 (← listPrev h a1b0) a1b0
      mergeFrom fuel h a0 a1b0 b1
    else do mergeFrom fuel h (← listNext h a0) a1b0 b1

def inplaceMerge (fuel : Nat) (h : Heap α) (a0 a1b0 b1 : α) : Option (Heap α) := do
  let first ← isSorted less fuel h a0 a1b0
  let second ← isSorted less fuel h a1b0 b1
  if first && second then mergeFrom less fuel h a0 a1b0 b1 else none

/-- One pass of `list_sort` from `a0` on, and how many runs it has put out. -/
def sortPass (fuel : Nat) (list : LinkedList α) : Nat → Heap α → α → Nat → Option (Nat × Heap α)
  | 0, _, _, _ => none
  | turns + 1, h, a0, outputRunCnt =>
    if a0 = listEnd list then some (outputRunCnt, h)
    else do
      let a1b0 ← findEndOfRun less fuel h a0 (listEnd list)
      if a1b0 = listEnd list then some (outputRunCnt + 1, h)
      else
        let b1 ← findEndOfRun less fuel h a1b0 (listEnd list)
        let h ← inplaceMerge less fuel h a0 a1b0 b1
        sortPass fuel list turns h b1 (outputRunCnt + 1)

def sortPasses (fuel : Nat) (list : LinkedList α) : Nat → Heap α → Option (Heap α)
  | 0, _ => none
  | passes + 1, h => do
    let r ← sortPass less fuel list fuel h (← listBegin h list) 0
    if 1 < r.1 then sortPasses fuel list passes r.2 else some r.2

def listSort (passes fuel : Nat) (h : Heap α) (list : LinkedList α) : Option (Heap α) := do
  let h ← sortPasses less fuel list passes h
  if ← isSorted less fuel h (← listBegin h list) (listEnd list) then some h else none

def placeFrom (h : Heap α) (list : LinkedList α) (elem : α) : Nat → α → Option α
  | 0, _ => none
  | fuel + 1, e =>
    if e = listEnd list then some e
    else if less elem e then some e
    else do placeFrom h list elem fuel (← listNext h e)

def listInsertOrdered (fuel : Nat) (h : Heap α) (list : LinkedList α) (elem : α) : Option (Heap α) := do
  listInsert h (← placeFrom less h list elem fuel (← listBegin h list)) elem

def uniqueFrom (list : LinkedList α) (duplicates : Option (LinkedList α)) : Nat → Heap α → α → Option (Heap α)
  | 0, _, _ => none
  | fuel + 1, h, elem => do
    let next ← listNext h elem
    if next = listEnd list then some h
    else if !less elem next && !less next elem then
      let r ← listRemove h next
      let h ← match duplicates with
        | some duplicates => listPushBack r.2 duplicates next
        | none => some r.2
      uniqueFrom list duplicates fuel h elem
    else uniqueFrom list duplicates fuel h next

def listUnique (fuel : Nat) (h : Heap α) (list : LinkedList α) (duplicates : Option (LinkedList α)) :
    Option (Heap α) := do
  if ← listEmpty h list then some h else uniqueFrom less list duplicates fuel h (← listBegin h list)

/-- The loop of `list_max`, and with the arguments of `less` in the other order that of `list_min`. -/
def bestFrom (better : α → α → Bool) (h : Heap α) (list : LinkedList α) : Nat → α → α → Option α
  | 0, _, _ => none
  | fuel + 1, best, e =>
    if e = listEnd list then some best
    else do bestFrom better h list fuel (if better e best then e else best) (← listNext h e)

def bestOf (better : α → α → Bool) (fuel : Nat) (h : Heap α) (list : LinkedList α) : Option α := do
  let best ← listBegin h list
  if best = listEnd list then some best else bestFrom better h list fuel best (← listNext h best)

def listMax (fuel : Nat) (h : Heap α) (list : LinkedList α) : Option α := bestOf (fun e max => less max e) fuel h list

def listMin (fuel : Nat) (h : Heap α) (list : LinkedList α) : Option α := bestOf less fuel h list

end calls

end ShellOs.FileSystem
