import ShellOs.Kernel.ScriptLines
import ShellOs.Paging.FrameStore

/-! Processes of the shell with demand paging, and how `run` and `exec` start them (pcb.c, kernel.c, interpreter.c). -/

namespace ShellOs.Paging
open Kernel (Text)

/-- A file that is open: what it holds, and what is left of it behind the position. -/
structure OpenFile where
  contents : Text
  left : Text

structure PCB where
  pageTable : Nat → Int
  priority : Bool
  pid : Int
  pc : Nat
  currentCommand : Nat
  numberOfCommands : Nat
  jobLengthScore : Int
  fp : OpenFile

abbrev Files := Text → Option Text

/-- What the shell keeps: the frames, the counter of pid numbers, the ready queue from its head on, and the files. -/
structure Session where
  store : FrameStore
  pidCounter : Int
  queue : List PCB
  files : Files

def countFrom : Nat → Text → Nat
  | 0, _ => 0
  | calls + 1, fp =>
    match readNextCommand fp with
    | none => 0
    | some (_, fp) => countFrom calls fp + 1

def countCommands (fp : Text) : Nat := countFrom (fp.length + 1) fp

def makePCB (fp : Text) (numCommands : Nat) (pid : Int) : PCB where
  pageTable _ := -1
  priority := false
  pid := pid
  pc := 0
  currentCommand := 0
  numberOfCommands := numCommands
  jobLengthScore := numCommands
  fp := ⟨fp, fp⟩

def setFrame (pcb : PCB) (frameIndex : Nat) (frame : Int) : PCB :=
  if 100 ≤ frameIndex then pcb else { pcb with pageTable := Function.update pcb.pageTable frameIndex frame }

section start

variable (shellFrames : Nat) (system : Text → Files → Int × Files)

def copyName (filename : Text) (id : Nat) : Text := "backing_store/".toList ++ filename ++ '.' :: Nat.toDigits 10 id

def copyScriptToBackingStore (filename : Text) (id : Nat) (files : Files) : Int × Files :=
  system ("cp ".toList ++ filename ++ ' ' :: copyName filename id) files

/-- The loop that loads the first pages; the store can only give a frame, never -1. -/
def loadPages (id : Nat) : List Nat → PCB → FrameStore → Option (PCB × FrameStore)
  | [], pcb, store => some (pcb, store)
  | i :: rest, pcb, store =>
    if i * 3 < pcb.numberOfCommands then do
      let (frame, store, left) ← store.loadFrame shellFrames pcb.fp.left id
      loadPages id rest (setFrame { pcb with currentCommand := 0, fp := { pcb.fp with left := left } } i frame) store
    else some (pcb, store)

def processInitialize (filename : Text) (id : Nat) (s : Session) : Option (Int × Session) :=
  match s.files filename with
  | none => some (11, s)
  | some script =>
    let (errorCode, files) := copyScriptToBackingStore system filename id s.files
    if errorCode ≠ 0 then some (errorCode, { s with files := files })
    else
      match files (copyName filename id) with
      | none => some (11, { s with files := files })
      | some fp => do
        let pcb := makePCB fp (countCommands script) s.pidCounter
        let (pcb, store) ← loadPages shellFrames id [0, 1] pcb s.store
        some (0, ⟨store, s.pidCounter + 1, s.queue ++ [pcb], files⟩)

variable {shellFrames system} {filename : Text} {id : Nat} {s t : Session} {errorCode : Int}

/-- A script that cannot be started changes nothing but files; one that is started has a process at the end of the
queue. -/
theorem processInitialize_cases (result : processInitialize shellFrames system filename id s = some (errorCode, t)) :
    (errorCode ≠ 0 ∧ ∃ files, t = { s with files := files }) ∨
    (errorCode = 0 ∧ ∃ script fp pcb store files, s.files filename = some script ∧
      copyScriptToBackingStore system filename id s.files = (0, files) ∧ files (copyName filename id) = some fp ∧
      loadPages shellFrames id [0, 1] (makePCB fp (countCommands script) s.pidCounter) s.store = some (pcb, store) ∧
      t = ⟨store, s.pidCounter + 1, s.queue ++ [pcb], files⟩) := by
  rw [processInitialize] at result
  cases opened : s.files filename with
  | none =>
    rw [opened] at result
    obtain ⟨rfl, rfl⟩ := Prod.mk.inj (Option.some_inj.mp result)
    exact .inl ⟨by decide, s.files, rfl⟩
  | some script =>
    rw [opened] at result
    simp only at result
    cases copy : copyScriptToBackingStore system filename id s.files with
    | mk code files =>
      rw [copy] at result
      by_cases failed : code ≠ 0
      · rw [if_pos failed] at result
        obtain ⟨rfl, rfl⟩ := Prod.mk.inj (Option.some_inj.mp result)
        exact .inl ⟨failed, files, rfl⟩
      · rw [if_neg failed] at result
        obtain rfl := not_not.mp failed
        simp only at result
        cases copied : files (copyName filename id) with
        | none =>
          rw [copied] at result
          obtain ⟨rfl, rfl⟩ := Prod.mk.inj (Option.some_inj.mp result)
          exact .inl ⟨by decide, files, rfl⟩
        | some fp =>
          rw [copied] at result
          obtain ⟨⟨pcb, store⟩, loads, same⟩ := Option.bind_eq_some_iff.mp result
          obtain ⟨rfl, rfl⟩ := Prod.mk.inj (Option.some_inj.mp same)
          exact .inr ⟨rfl, script, fp, pcb, store, files, rfl, rfl, copied, loads, rfl⟩

theorem processInitialize_started (result : processInitialize shellFrames system filename id s = some (0, t)) :
    ∃ script fp pcb store files, s.files filename = some script ∧
      copyScriptToBackingStore system filename id s.files = (0, files) ∧ files (copyName filename id) = some fp ∧
      loadPages shellFrames id [0, 1] (makePCB fp (countCommands script) s.pidCounter) s.store = some (pcb, store) ∧
      t = ⟨store, s.pidCounter + 1, s.queue ++ [pcb], files⟩ := by
  rcases processInitialize_cases result with ⟨failed, -⟩ | ⟨-, started⟩
  · exact absurd rfl failed
  · exact started

end start

end ShellOs.Paging
