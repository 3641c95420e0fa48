import Mathlib.Logic.Function.Basic
import ShellOs.Kernel.ShellMemory
import ShellOs.Lib.Recency

/-! The frame store (shellmemory.c of the shell with demand paging): frames of three lines, of which a full store gives
up the one with the lowest `lru`. -/

namespace ShellOs.Paging
open Lib
open Kernel (Text)

def intMax : Int := 2147483647

/-- A frame, whose three lines are null pointers at first. -/
structure FrameStruct where
  lines : Nat → Option Text
  pid : Int
  empty : Bool
  lru : Int

/-- `shellframes` and the counter `num_lru`. The number `shellFrames` of frames is FRAMESIZE / LINES_PER_FRAME. -/
structure FrameStore where
  shellframes : Nat → FrameStruct
  numLru : Int

/-- `readNextCommand` of shell.c, on what is left of the file: a line, and what is left behind it. -/
def readNextCommand (fp : Text) : Option (Text × Text) :=
  match fp.dropWhile (· != '\n') with
  | [] => if fp.isEmpty then none else some (fp, [])
  | _ :: rest => some (fp.takeWhile (· != '\n'), rest)

def removeWhitespace (input : Text) : Text := input.dropWhile fun c => c == ' ' || c == '\t' || c == '\n'

/-- What `mem_init` does to the frames; the counter is 0 when the program starts. -/
def framesInit (shellFrames : Nat) (frames : Nat → FrameStruct) : FrameStore where
  shellframes i := if i < shellFrames then ⟨fun _ => none, -1, true, -1⟩ else frames i
  numLru := 0

namespace FrameStore

variable (shellFrames : Nat) (s : FrameStore)

def findEmptyFrame : Option Nat := (List.range shellFrames).find? fun i => (s.shellframes i).empty

/-- The search for the lowest `lru`: the victim so far, and its `lru`. -/
def findVictim : List Nat → Option Nat → Int → Option Nat
  | [], victim, _ => victim
  | i :: rest, victim, lowestLru =>
    let lru := (s.shellframes i).lru
    if lru ≠ -1 ∧ lru < lowestLru then findVictim rest (some i) lru else findVictim rest victim lowestLru

end FrameStore

/-- The lines with these numbers are read from the file, as long as it has any. -/
def fillFrame : List Nat → FrameStruct → Text → FrameStruct × Text
  | [], frame, fp => (frame, fp)
  | i :: rest, frame, fp =>
    match readNextCommand fp with
    | none => fillFrame rest frame fp
    | some (command, fp) =>
      fillFrame rest { frame with lines := Function.update frame.lines i (some (removeWhitespace command)) } fp

namespace FrameStore

variable (shellFrames : Nat) (s : FrameStore)

/-- The end of `loadFrame`: the lines are read into the frame, which now belongs to the process. -/
def loadInto (frame : Nat) (fp : Text) (pid : Int) : FrameStore :=
  ⟨Function.update s.shellframes frame
    { (fillFrame [0, 1, 2] (s.shellframes frame) fp).1 with pid := pid, lru := s.numLru, empty := false }, s.numLru + 1⟩

/-- The frame, the store and the file after `loadFrame`, less what it prints; `none` if there is no victim, as the
program then goes on with a number that was never set. -/
def loadFrame (fp : Text) (pid : Int) : Option (Nat × FrameStore × Text) := do
  let emptyFrame ←
    match s.findEmptyFrame shellFrames with
    | some i => some i
    | none => s.findVictim (List.range shellFrames) none intMax
  some (emptyFrame, s.loadInto emptyFrame fp pid, (fillFrame [0, 1, 2] (s.shellframes emptyFrame) fp).2)

def passes (pid frameIndex lineIndex : Int) : Bool :=
  !((s.shellframes frameIndex.toNat).pid != pid || frameIndex < 0 || lineIndex < 0 || shellFrames ≤ frameIndex ||
    3 ≤ lineIndex)

/-- The line, `none` for a null pointer, and the store with the use of its frame. -/
def getLineFromFrameStore (pid frameIndex lineIndex : Int) : Option Text × FrameStore :=
  if s.passes shellFrames pid frameIndex lineIndex then
    let frame := s.shellframes frameIndex.toNat
    (frame.lines lineIndex.toNat,
      ⟨Function.update s.shellframes frameIndex.toNat { frame with lru := s.numLru }, s.numLru + 1⟩)
  else (none, s)

end FrameStore

end ShellOs.Paging
