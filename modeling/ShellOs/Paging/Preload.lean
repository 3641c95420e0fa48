import Mathlib.Tactic.Common
import Mathlib.Tactic.IntervalCases
import ShellOs.Lib.Scan
import ShellOs.Paging.Replacement
import ShellOs.Paging.Process

/-! What `process_initialize` puts into the frame store, and what a process finds of it there. -/

namespace ShellOs.Paging
open Lib
open Kernel (Text)

section commands

theorem countFrom_commands (calls : Nat) (fp : Text) (enough : fp.length < calls) :
    countFrom calls fp = (commands fp).length := by
  induction calls generalizing fp with
  | zero => omega
  | succ calls ih =>
    rw [countFrom]
    rcases readNextCommand_spec fp with ⟨none', atEnd⟩ | ⟨line, rest, read, more, shorter⟩
    · rw [atEnd, none']
      rfl
    · rw [read, more, List.length_cons, ← ih rest (by omega)]

theorem countCommands_eq (script : Text) : countCommands script = (commands script).length :=
  countFrom_commands _ script (Nat.lt_succ_self _)

end commands

section preload

variable {shellFrames frame id i j : Nat} {s t : FrameStore} {fp : Text} {pid : Int}

theorem loadFrame_empty (found : s.findEmptyFrame shellFrames = some frame) (fp : Text) (pid : Int) :
    s.loadFrame shellFrames fp pid =
      some (frame, s.loadInto frame fp pid, (fillFrame [0, 1, 2] (s.shellframes frame) fp).2) := by
  rw [FrameStore.loadFrame, found]
  rfl

theorem findEmptyFrame_some (inside : i < shellFrames) (empty : (s.shellframes i).empty = true) :
    ∃ frame < shellFrames, s.findEmptyFrame shellFrames = some frame ∧ (s.shellframes frame).empty = true := by
  cases found : s.findEmptyFrame shellFrames with
  | none => exact absurd empty (List.find?_eq_none.mp found i (List.mem_range.mpr inside))
  | some frame =>
    obtain ⟨empty, inside, -⟩ := List.find?_range_eq_some.mp found
    exact ⟨frame, List.mem_range.mp inside, rfl, empty⟩

/-- The frame holds the page with these commands, for the process of this number. -/
structure HoldsPage (s : FrameStore) (frame : Nat) (page : List Text) (owner : Int) : Prop where
  owned : (s.shellframes frame).pid = owner
  lines : ∀ j < 3, ∀ line, page[j]? = some line → (s.shellframes frame).lines j = some (removeWhitespace line)

theorem loadInto_self (s : FrameStore) (frame : Nat) (fp : Text) (pid : Int) :
    (s.loadInto frame fp pid).shellframes frame =
      { (fillFrame [0, 1, 2] (s.shellframes frame) fp).1 with pid := pid, lru := s.numLru, empty := false } :=
  Function.update_self ..

theorem loadInto_other (other : i ≠ frame) : (s.loadInto frame fp pid).shellframes i = s.shellframes i :=
  Function.update_of_ne other ..

theorem loadInto_holds (s : FrameStore) (frame : Nat) (fp : Text) (pid : Int) :
    HoldsPage (s.loadInto frame fp pid) frame (commands fp) pid where
  owned := by rw [loadInto_self]
  lines j inside line there := by
    rw [loadInto_self]
    have filled := (fillFrame_lines 3 0 (s.shellframes frame) fp).1 j
    rw [if_pos (by omega), Nat.sub_zero, there] at filled
    exact filled

theorem HoldsPage.loadInto {page : List Text} {owner : Int} (holds : HoldsPage s frame page owner) (other : frame ≠ i) :
    HoldsPage (s.loadInto i fp pid) frame page owner where
  owned := by rw [loadInto_other other, holds.owned]
  lines := by
    rw [loadInto_other other]
    exact holds.lines

/-- The page table names a frame of the store that holds these commands. -/
def PageIn (shellFrames : Nat) (s : FrameStore) (pcb : PCB) (page : Nat) (lines : List Text) (owner : Int) : Prop :=
  ∃ frame < shellFrames, pcb.pageTable page = frame ∧ HoldsPage s frame lines owner

def PCB.withPage (pcb : PCB) (page frame : Nat) (left : Text) : PCB :=
  { pcb with
    currentCommand := 0
    fp := { pcb.fp with left := left }
    pageTable := Function.update pcb.pageTable page frame }

theorem loadPages_cons {rest : List Nat} {pcb : PCB} {left : Text} (low : i < 100) (more : i * 3 < pcb.numberOfCommands)
    (result : s.loadFrame shellFrames pcb.fp.left id = some (frame, t, left)) :
    loadPages shellFrames id (i :: rest) pcb s = loadPages shellFrames id rest (pcb.withPage i frame left) t := by
  rw [loadPages, if_pos more, result]
  simp only [Option.bind_eq_bind, Option.bind_some, setFrame, if_neg (Nat.not_le_of_lt low)]
  rfl

theorem loadPages_done {rest : List Nat} {pcb : PCB} (done : pcb.numberOfCommands ≤ i * 3) :
    loadPages shellFrames id (i :: rest) pcb s = some (pcb, s) := by
  rw [loadPages, if_neg (by omega)]

theorem loadPages_spec (first : i < shellFrames) (second : j < shellFrames) (other : i ≠ j)
    (emptyFirst : (s.shellframes i).empty = true) (emptySecond : (s.shellframes j).empty = true) (id : Nat) (fp : Text)
    (pid : Int) : ∃ pcb t, loadPages shellFrames id [0, 1] (makePCB fp (commands fp).length pid) s = some (pcb, t) ∧
      pcb.pid = pid ∧ ∀ page < 2, page * 3 < (commands fp).length →
        PageIn shellFrames t pcb page ((commands fp).drop (3 * page)) id := by
  by_cases one : 0 * 3 < (commands fp).length
  · obtain ⟨frame, inside, found, -⟩ := findEmptyFrame_some first emptyFirst
    have held := loadInto_holds s frame fp id
    rw [loadPages_cons (by decide) one (loadFrame_empty found fp id)]
    have left : commands (fillFrame [0, 1, 2] (s.shellframes frame) fp).2 = (commands fp).drop 3 :=
      (fillFrame_lines 3 0 (s.shellframes frame) fp).2
    by_cases two : 1 * 3 < (commands fp).length
    · obtain ⟨k, within, empty⟩ : ∃ k < shellFrames, ((s.loadInto frame fp id).shellframes k).empty = true := by
        by_cases here : i = frame
        · exact ⟨j, second, by rw [loadInto_other (here ▸ other.symm), emptySecond]⟩
        · exact ⟨i, first, by rw [loadInto_other here, emptyFirst]⟩
      obtain ⟨next, further, behind, stillEmpty⟩ := findEmptyFrame_some within empty
      have apart : frame ≠ next := by
        rintro rfl
        rw [loadInto_self] at stillEmpty
        cases stillEmpty
      have heldNext := loadInto_holds (s.loadInto frame fp id) next (fillFrame [0, 1, 2] (s.shellframes frame) fp).2 id
      rw [left] at heldNext
      rw [loadPages_cons (by decide) two (loadFrame_empty behind _ id)]
      refine ⟨_, _, rfl, rfl, fun page low _ => ?_⟩
      interval_cases page
      · exact ⟨frame, inside, rfl, held.loadInto apart⟩
      · exact ⟨next, further, rfl, heldNext⟩
    · rw [loadPages_done (Nat.le_of_not_lt two)]
      refine ⟨_, _, rfl, rfl, fun page low more => ?_⟩
      interval_cases page
      · exact ⟨frame, inside, rfl, held⟩
      · exact absurd more two
  · rw [loadPages_done (Nat.le_of_not_lt one)]
    exact ⟨_, _, rfl, rfl, fun page _ more => absurd more (by omega)⟩

theorem PageIn.getLine {pcb : PCB} {page : Nat} {lines : List Text} {line : Text} {owner : Int}
    (held : PageIn shellFrames s pcb page lines owner) (inside : j < 3) (there : lines[j]? = some line) :
    (s.getLineFromFrameStore shellFrames pcb.pid (pcb.pageTable page) j).1 =
      if pcb.pid = owner then some (removeWhitespace line) else none := by
  obtain ⟨frame, within, entry, page⟩ := held
  rw [entry, FrameStore.getLineFromFrameStore]
  by_cases same : pcb.pid = owner
  · have passed : s.passes shellFrames pcb.pid frame j = true :=
      passes_iff.mpr ⟨page.owned.trans same.symm, by omega, by omega, by omega, by omega⟩
    rw [if_pos passed, if_pos same]
    exact page.lines j inside line there
  · have stopped : s.passes shellFrames pcb.pid frame j ≠ true := fun passed =>
      same ((passes_iff.mp passed).1.symm.trans page.owned)
    rw [if_neg stopped, if_neg same]

end preload

/-- The lines of the first two pages are found in the frame store, as `view` shows them. -/
def Usable (view : Text → Text) (shellFrames : Nat) (s : FrameStore) (pcb : PCB) (script : Text) : Prop :=
  ∀ i < 2, ∀ j : Nat, j < 3 → ∀ line, (commands script)[3 * i + j]? = some line →
    (s.getLineFromFrameStore shellFrames pcb.pid (pcb.pageTable i) j).1 = some (view line)

section usable

variable {shellFrames id i j : Nat} {system : Text → Files → Int × Files} {s t : Session} {filename script : Text}

/-- The frames of a new process are its own if and only if the number given to `process_initialize` is its pid. The lines
lack their leading white space. -/
theorem preload_usable (opened : s.files filename = some script)
    (copies : (copyScriptToBackingStore system filename id s.files).1 = 0 →
      (copyScriptToBackingStore system filename id s.files).2 (copyName filename id) = some script)
    (some' : commands script ≠ []) (first : i < shellFrames) (second : j < shellFrames) (other : i ≠ j)
    (emptyFirst : (s.store.shellframes i).empty = true) (emptySecond : (s.store.shellframes j).empty = true)
    (result : processInitialize shellFrames system filename id s = some (0, t)) :
    ∃ pcb, t.queue = s.queue ++ [pcb] ∧
      (Usable removeWhitespace shellFrames t.store pcb script ↔ s.pidCounter = id) ∧
      (Usable (fun line => line) shellFrames t.store pcb script ↔
        s.pidCounter = id ∧ ∀ line ∈ (commands script).take 6, removeWhitespace line = line) := by
  obtain ⟨contents, fp, pcb, store, files, there, copy, copied, loads, rfl⟩ := processInitialize_started result
  obtain rfl := Option.some_inj.mp (opened.symm.trans there)
  rw [copy] at copies
  obtain rfl := Option.some_inj.mp ((copies rfl).symm.trans copied)
  obtain ⟨pcb', store', loads', pid, pages⟩ :=
    loadPages_spec first second other emptyFirst emptySecond id script s.pidCounter
  rw [countCommands_eq] at loads
  obtain ⟨rfl, rfl⟩ := Prod.mk.inj (Option.some_inj.mp (loads.symm.trans loads'))
  have finds : ∀ k < 2, ∀ m : Nat, m < 3 → ∀ line, (commands script)[3 * k + m]? = some line →
      (store.getLineFromFrameStore shellFrames pcb.pid (pcb.pageTable k) m).1 =
        if s.pidCounter = id then some (removeWhitespace line) else none := by
    intro k low m inside line there
    have within := (List.getElem?_eq_some_iff.mp there).1
    have held := pages k low (by omega)
    rw [← List.getElem?_drop] at there
    have found := held.getLine inside there
    rw [← pid]
    exact found
  obtain ⟨line, top⟩ : ∃ line, (commands script)[3 * 0 + 0]? = some line :=
    ⟨_, List.getElem?_eq_getElem (List.length_pos_iff.mpr some')⟩
  have usableOwn : ∀ view, Usable view shellFrames store pcb script → s.pidCounter = id := by
    intro view usable
    by_contra apart
    have found := usable 0 (by decide) 0 (by decide) line top
    rw [finds 0 (by decide) 0 (by decide) line top, if_neg apart] at found
    cases found
  refine ⟨pcb, rfl, ⟨usableOwn _, fun own => ?_⟩, fun usable => ⟨usableOwn _ usable, ?_⟩, fun own => ?_⟩
  · intro k low m inside line there
    rw [finds k low m inside line there, if_pos own]
  · intro line member
    obtain ⟨n, there⟩ := List.mem_iff_getElem?.mp member
    have inside : n < 6 := by
      have within := (List.getElem?_eq_some_iff.mp there).1
      rw [List.length_take] at within
      omega
    rw [List.getElem?_take_of_lt inside, ← Nat.div_add_mod n 3] at there
    have found := usable (n / 3) (by omega) (n % 3) (by omega) line there
    rw [finds (n / 3) (by omega) (n % 3) (by omega) line there, if_pos (usableOwn _ usable)] at found
    exact Option.some_inj.mp found
  · intro k low m inside line there
    have early : line ∈ (commands script).take 6 :=
      List.mem_iff_getElem?.mpr ⟨3 * k + m, by rw [List.getElem?_take_of_lt (by omega), there]⟩
    rw [finds k low m inside line there, if_pos own.1, own.2 line early]

def freshSession : Session where
  store := framesInit 3 fun _ => ⟨fun _ => none, 0, false, 0⟩
  pidCounter := 1
  queue := []
  files name := if name = "a".toList then some "echo a".toList else none

def copiesScript : Text → Files → Int × Files := fun command files =>
  if command = "cp a backing_store/a.1".toList then
    (0, Function.update files "backing_store/a.1".toList (files "a".toList))
  else (256, files)

theorem preload_usable_fresh : ∃ t pcb, processInitialize 3 copiesScript "a".toList 1 freshSession = some (0, t) ∧
    t.queue = freshSession.queue ++ [pcb] ∧
      (Usable removeWhitespace 3 t.store pcb "echo a".toList ↔ freshSession.pidCounter = 1) ∧
      (Usable (fun line => line) 3 t.store pcb "echo a".toList ↔
        freshSession.pidCounter = 1 ∧ ∀ line ∈ (commands "echo a".toList).take 6, removeWhitespace line = line) := by
  have result : ∃ t, processInitialize 3 copiesScript "a".toList 1 freshSession = some (0, t) := ⟨_, rfl⟩
  obtain ⟨t, result⟩ := result
  obtain ⟨pcb, usable⟩ := preload_usable rfl (fun _ => rfl) (by decide) (i := 0) (j := 1) (by decide) (by decide)
    (by decide) rfl rfl result
  exact ⟨t, pcb, result, usable⟩

/-- The second time a script is started its process has the number 2, and its frames are those of process 1. -/
theorem preload_foreign : ∃ s t pcb, processInitialize 3 copiesScript "a".toList 1 freshSession = some (0, s) ∧
    processInitialize 3 copiesScript "a".toList 1 { s with queue := [] } = some (0, t) ∧ t.queue = [pcb] ∧
    (commands "echo a".toList)[0]? = some "echo a".toList ∧
    (t.store.getLineFromFrameStore 3 pcb.pid (pcb.pageTable 0) 0).1 = none :=
  ⟨_, _, _, rfl, rfl, rfl, rfl, rfl⟩

end usable

end ShellOs.Paging
