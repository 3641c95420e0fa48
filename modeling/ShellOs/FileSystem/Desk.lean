import ShellOs.FileSystem.ShellRun
import ShellOs.FileSystem.Rebuild

/-! What the shell is for: files that are known by their names, each with its bytes and a place where the next command
finds it. Sectors, inodes, handles and the root directory are not seen. -/

namespace ShellOs.FileSystem
open Lib GrowArray

inductive Reply
  | status (code : Int)
  | done (well : Bool)
  | bytes (text : Option (List Byte))
  | dump (lines : Option (List (Int × List Byte)))
  | names (list : Option (List CString))
  | copied (code : Int) (text : Option (List Byte))
  | counts (files fragmented : Nat)
  | recovered (files : List HostFile)

/-- A file as the user knows it; it stands somewhere if it is open. -/
structure Document where
  bytes : List Byte
  place : Option Int

namespace Document

def start (f : Document) : Int := f.place.getD 0

def moved (f : Document) (place : Int) : Document := { f with place := some place }

def closed (f : Document) : Document := { f with place := none }

def written (f : Document) (text : List Byte) : Document where
  bytes := overwrite 0 f.bytes f.start.toNat (text ++ [0, 0])
  place := some (f.start + text.length)

def read (f : Document) (size : Int) : List Byte := slice f.bytes f.start.toNat (offsetOf size).toNat

def dump (f : Document) : List (Int × List Byte) := if f.bytes = [] then [] else [(0, f.bytes)]

/-- The host gets the text up to the first NUL, if it lets the shell make a file. -/
def copied (f : Document) (creates : Bool) : Reply :=
  if creates then .copied 0 (some (untilNul f.bytes)) else .copied 11 none

end Document

abbrev Desk := CString → Option Document

namespace Desk

def work (d : Desk) (name : CString) (command : Document → Document) : Desk :=
  Function.update d name ((d name).map command)

/-- What each command may do and answer. Only space is not seen: where it can run out there are two outcomes. -/
inductive Step (d : Desk) : ShellOp → Reply → Desk → Prop
  | ls {names : List CString} (once : names.Nodup) (all : ∀ name, name ∈ names ↔ (d name).isSome) :
      Step d .ls (.names (some names)) d
  | cat {name : CString} : Step d (.cat name) (.dump ((d name).map Document.dump)) d
  | rm {name : CString} : Step d (.rm name) (.done (d name).isSome) (Function.update d name none)
  | created {name : CString} {size : Int} (absent : d name = none) (proper : 0 ≤ offsetOf size) :
      Step d (.create name size) (.done true)
        (Function.update d name (some ⟨List.replicate (offsetOf size).toNat 0, none⟩))
  | notCreated {name : CString} {size : Int} : Step d (.create name size) (.done false) d
  | writeNothing {name : CString} : Step d (.write name []) (.status TOO_FEW_TOKENS) d
  | writeNowhere {name : CString} {words : List CString} (given : words ≠ []) (absent : d name = none) :
      Step d (.write name words) (.status FILE_WRITE_ERROR) d
  | written {name : CString} {words : List CString} {f : Document} (given : words ≠ []) (here : d name = some f)
      (inside : 0 ≤ f.start) : Step d (.write name words) (.status 0) (d.work name fun f => f.written (joined words))
  /-- There is no space for what goes past the end: nothing is written, and the file stands two bytes further back. -/
  | notWritten {name : CString} {words : List CString} {f : Document} (given : words ≠ []) (here : d name = some f)
      (beyond : f.bytes.length < f.start + (joined words).length + 2) :
      Step d (.write name words) (.status 0) (d.work name fun f => f.moved (f.start - 2))
  | findFile {pattern : CString} {names : List CString} (once : names.Nodup)
      (all : ∀ name, name ∈ names ↔ ∃ f, d name = some f ∧ pattern <:+: untilNul f.bytes) :
      Step d (.findFile pattern) (.names (some names)) fun name => (d name).map Document.closed
  | read {name : CString} {size : Int} (inside : ∀ f, d name = some f → 0 ≤ f.start) :
      Step d (.read name size) (.bytes ((d name).map fun f => f.read size))
        (d.work name fun f => f.moved (f.start + (f.read size).length))
  | noHostFile {name : CString} : Step d (.copyIn name none) (.status (-1)) d
  | notCopied {name : CString} {bytes : List Byte} : Step d (.copyIn name (some bytes)) (.status 9) d
  | copied {name : CString} {bytes : List Byte} (absent : d name = none) :
      Step d (.copyIn name (some bytes)) (.status 0)
        (Function.update d name (some ⟨bytes ++ [0], some ((bytes.length : Int) - 1)⟩))
  /-- The file was made for the space that was left, and that was not enough. -/
  | notFilled {name : CString} {bytes : List Byte} {size : Nat} (absent : d name = none) (short : size ≤ bytes.length) :
      Step d (.copyIn name (some bytes)) (.status 0) (Function.update d name (some ⟨List.replicate size 0, some (-2)⟩))
  | copyOut {name : CString} {creates : Bool} :
      Step d (.copyOut name creates) (((d name).map fun f => f.copied creates).getD (.copied (-1) none))
        (d.work name fun f => f.moved f.start)
  | size {name : CString} :
      Step d (.size name) (.status (((d name).map fun f => (f.bytes.length : Int)).getD (-1)))
        (d.work name fun f => f.moved f.start)
  | seek {name : CString} {offset : Int} :
      Step d (.seek name offset) (.status (if (d name).isSome then 0 else -1)) (d.work name fun f => f.moved offset)
  | freespace {sectors : Int} : Step d .freespace (.status sectors) d

end Desk

end ShellOs.FileSystem
