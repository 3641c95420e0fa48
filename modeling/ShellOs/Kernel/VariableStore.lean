import ShellOs.Lib.Run
import ShellOs.Kernel.ShellMemory
import Mathlib.Data.List.Nodup

/-! The commands that use the variables (interpreter.c), and how far the variables are a finite map. -/

namespace ShellOs.Kernel
open Lib

/-- The errors of these commands, with the numbers that they return. -/
inductive Error
  | tooManyTokens
  | tooFewTokens
  | nonAlphanumericToken

namespace Error

def code : Error → Int
  | tooManyTokens => 4
  | tooFewTokens => 5
  | nonAlphanumericToken => 6

def message : Error → Text
  | tooManyTokens => "too many tokens".toList
  | tooFewTokens => "too few tokens".toList
  | nonAlphanumericToken => "non-alphanumeric token".toList

end Error

structure Reply where
  printed : Text
  code : Int

def handleError (error : Error) : Reply := ⟨"Bad command: ".toList ++ error.message ++ ['\n'], error.code⟩

def isAlphaNumStr (str : Text) : Bool := !str.isEmpty && str.all Char.isAlphanum

/-- `strcspn` finds the first of these characters, and the argument ends there. -/
def stripArg (arg : Text) : Text := arg.takeWhile fun c => c != '\r' && c != '\n'

/-- The buffer of the `set` command, as it is allocated for five tokens of fewer than 100 characters and spaces. -/
def SET_BUFFER_SIZE : Nat := 505

def LINK_BUFFER_SIZE : Nat := 1000

/-- The loop of the `set` command, which appends the values to its buffer. It gives nothing if it writes past the end. -/
def appendValues (buffer : Text) : List Text → Option (Except Error Text)
  | [] => some (.ok buffer)
  | value :: more =>
    if isAlphaNumStr value then
      let next := buffer ++ value ++ if more = [] then [] else [' ']
      if next.length < SET_BUFFER_SIZE then appendValues next more else none
    else some (.error .nonAlphanumericToken)

section commands

variable (sizes : StoreSizes) (m : ShellMemory)

/-- `set`. The text of an assignment that it makes up is not used, but must fit. -/
def set (var value : Text) : Option (Reply × ShellMemory) :=
  if var.length + 1 + value.length < LINK_BUFFER_SIZE then some (⟨[], 0⟩, memSetValue sizes m var value) else none

def setCommand : List Text → Option (Reply × ShellMemory)
  | var :: value :: more =>
    if isAlphaNumStr var then
      match appendValues [] (value :: more) with
      | none => none
      | some (.error error) => some (handleError error, m)
      | some (.ok buffer) => set sizes m var buffer
    else some (handleError .nonAlphanumericToken, m)
  | _ => some (handleError .tooFewTokens, m)

def printCommand : List Text → Reply
  | [] => handleError .tooFewTokens
  | [var] => ⟨memGetValue sizes m var 'p' ++ ['\n'], 0⟩
  | _ => handleError .tooManyTokens

def echo : Text → Reply
  | '$' :: var =>
    if (var.tails.filter fun p => !p.isEmpty).all isAlphaNumStr then ⟨memGetValue sizes m var 'e' ++ ['\n'], 0⟩
    else handleError .nonAlphanumericToken
  | var => if isAlphaNumStr var then ⟨var ++ ['\n'], 0⟩ else handleError .nonAlphanumericToken

/-- The commands of `interpreter` that use the variables, `none` for any other, and where one goes wrong: an `echo` without
an argument looks at a token that is not there, and a `set` writes behind its buffer if the values are too long. -/
def interpreter (args : List Text) : Option (Reply × ShellMemory) :=
  match args.map stripArg with
  | [] => some (handleError .tooFewTokens, m)
  | command :: rest =>
    if command = "set".toList then setCommand sizes m rest
    else if command = "print".toList then some (printCommand sizes m rest, m)
    else if command = "echo".toList then
      match rest with
      | [] => none
      | [var] => some (echo sizes m var, m)
      | _ => some (handleError .tooManyTokens, m)
    else if command = "resetmem".toList then some (⟨[], 0⟩, resetVarZone sizes m)
    else none

end commands

inductive StoreOp
  | keep
  | assign (name value : Text)
  | reset

def storeOp (args : List Text) : StoreOp :=
  match args.map stripArg with
  | command :: rest =>
    if command = "set".toList then
      match rest with
      | var :: value :: more =>
        if isAlphaNumStr var && (value :: more).all isAlphaNumStr then .assign var ([' '].intercalate (value :: more))
        else .keep
      | _ => .keep
    else if command = "resetmem".toList then .reset
    else .keep
  | [] => .keep

def StoreOp.apply (sizes : StoreSizes) (m : ShellMemory) : StoreOp → ShellMemory
  | keep => m
  | assign name value => memSetValue sizes m name value
  | reset => resetVarZone sizes m

section append

variable {buffer text var : Text} {values : List Text} {error : Error}

/-- What is in the buffer in the end: the values before the first one that is not alphanumeric, with spaces. -/
def appended : List Text → Text
  | [] => []
  | value :: more => if isAlphaNumStr value then value ++ (if more = [] then [] else [' ']) ++ appended more else []

theorem appended_all (all : values.all isAlphaNumStr) : appended values = [' '].intercalate values := by
  induction values with
  | nil => rfl
  | cons value more ih =>
    obtain ⟨first, rest⟩ := Bool.and_eq_true_iff.mp all
    rw [appended, if_pos first, ih rest]
    cases more with
    | nil => simp
    | cons next later => simp [List.intercalate]

theorem appendValues_isSome_iff (fits : buffer.length < SET_BUFFER_SIZE) :
    (appendValues buffer values).isSome ↔ (buffer ++ appended values).length < SET_BUFFER_SIZE := by
  induction values generalizing buffer with
  | nil => simpa [appendValues, appended] using fits
  | cons value more ih =>
    rw [appendValues, appended]
    by_cases proper : isAlphaNumStr value
    · simp only [if_pos proper]
      by_cases room : (buffer ++ value ++ if more = [] then [] else [' ']).length < SET_BUFFER_SIZE
      · rw [if_pos room, ih room]
        simp only [List.append_assoc]
      · rw [if_neg room]
        refine iff_of_false (by decide) ?_
        simp only [List.length_append] at room ⊢
        omega
    · simpa [proper] using fits

theorem appendValues_ok (run : appendValues buffer values = some (.ok text)) :
    values.all isAlphaNumStr ∧ text = buffer ++ appended values := by
  induction values generalizing buffer with
  | nil =>
    obtain rfl := Except.ok.inj (Option.some.inj run)
    exact ⟨rfl, (List.append_nil _).symm⟩
  | cons value more ih =>
    rw [appendValues] at run
    by_cases proper : isAlphaNumStr value
    · simp only [if_pos proper] at run
      by_cases room : (buffer ++ value ++ if more = [] then [] else [' ']).length < SET_BUFFER_SIZE
      · rw [if_pos room] at run
        obtain ⟨all, same⟩ := ih run
        refine ⟨?_, ?_⟩
        · rw [List.all_cons, proper, all]
          rfl
        · rw [same, appended, if_pos proper]
          simp only [List.append_assoc]
      · rw [if_neg room] at run
        cases run
    · rw [if_neg proper] at run
      cases run

theorem appendValues_error (run : appendValues buffer values = some (.error error)) :
    ¬values.all isAlphaNumStr ∧ error = .nonAlphanumericToken := by
  induction values generalizing buffer with
  | nil => cases run
  | cons value more ih =>
    rw [appendValues] at run
    by_cases proper : isAlphaNumStr value
    · simp only [if_pos proper] at run
      by_cases room : (buffer ++ value ++ if more = [] then [] else [' ']).length < SET_BUFFER_SIZE
      · rw [if_pos room] at run
        obtain ⟨some, same⟩ := ih run
        refine ⟨?_, same⟩
        rw [List.all_cons, proper]
        exact some
      · rw [if_neg room] at run
        cases run
    · rw [if_neg proper] at run
      refine ⟨?_, (Except.error.inj (Option.some.inj run)).symm⟩
      rw [List.all_cons, Bool.and_eq_true]
      exact fun both => proper both.1

end append

def Known : List Text → Prop
  | [] => True
  | command :: rest => command = "set".toList ∨ command = "print".toList ∨ command = "echo".toList ∧ rest ≠ [] ∨
      command = "resetmem".toList

/-- What a `set` appends to its buffer fits there, and with the name in the buffer of the assignment. -/
def Fits : List Text → Prop
  | command :: var :: value :: more => command = "set".toList → isAlphaNumStr var →
      (appended (value :: more)).length < SET_BUFFER_SIZE ∧
        ((value :: more).all isAlphaNumStr → var.length + 1 + (appended (value :: more)).length < LINK_BUFFER_SIZE)
  | _ => True

theorem setCommand_isSome_iff {sizes : StoreSizes} {m : ShellMemory} (rest : List Text) :
    (setCommand sizes m rest).isSome ↔ Fits ("set".toList :: rest) := by
  match rest with
  | [] => exact iff_of_true rfl trivial
  | [_] => exact iff_of_true rfl trivial
  | var :: value :: more =>
    rw [setCommand, Fits]
    by_cases proper : isAlphaNumStr var
    · have whole := @appendValues_isSome_iff [] (value :: more) (by decide)
      rw [List.nil_append] at whole
      simp only [proper, if_true, forall_const]
      cases run : appendValues [] (value :: more) with
      | none =>
        rw [run] at whole
        exact iff_of_false (by simp) fun fits => absurd (whole.mpr fits.1) (by decide)
      | some result =>
        have fits := whole.mp (by rw [run]; rfl)
        cases result with
        | error error =>
          obtain ⟨improper, -⟩ := appendValues_error run
          exact iff_of_true rfl ⟨fits, fun all => absurd all improper⟩
        | ok text =>
          obtain ⟨all, rfl⟩ := appendValues_ok run
          simp only [set, List.nil_append, fits, all, true_and, forall_const]
          split <;> simp [*]
    · exact iff_of_true (by simp [proper]) fun _ alnum => absurd alnum proper

theorem setCommand_store {sizes : StoreSizes} {m : ShellMemory} {var value : Text} {more : List Text}
    {r : Reply × ShellMemory} (run : setCommand sizes m (var :: value :: more) = some r) :
    r.2 = if isAlphaNumStr var && (value :: more).all isAlphaNumStr then
      memSetValue sizes m var ([' '].intercalate (value :: more)) else m := by
  rw [setCommand] at run
  by_cases proper : isAlphaNumStr var
  · rw [if_pos proper] at run
    rw [proper, Bool.true_and]
    cases appends : appendValues [] (value :: more) with
    | none =>
      rw [appends] at run
      cases run
    | some result =>
      rw [appends] at run
      cases result with
      | error error =>
        obtain ⟨improper, -⟩ := appendValues_error appends
        rw [if_neg improper, ← Option.some.inj run]
      | ok text =>
        obtain ⟨all, same⟩ := appendValues_ok appends
        rw [List.nil_append, appended_all all] at same
        simp only [set] at run
        split at run
        · rw [if_pos all, ← Option.some.inj run, same]
        · cases run
  · rw [if_neg proper] at run
    simp only [proper, Bool.false_and, Bool.false_eq_true, if_false]
    rw [← Option.some.inj run]

theorem interpreter_isSome_iff {sizes : StoreSizes} {m : ShellMemory} {args : List Text} :
    (interpreter sizes m args).isSome ↔ Known (args.map stripArg) ∧ Fits (args.map stripArg) := by
  rw [interpreter]
  cases args.map stripArg with
  | nil => exact iff_of_true rfl ⟨trivial, trivial⟩
  | cons command rest =>
    simp only [Known]
    by_cases isSet : command = "set".toList
    · rw [if_pos isSet, setCommand_isSome_iff, isSet]
      simp
    · have fits : Fits (command :: rest) := by
        unfold Fits
        split
        next same =>
          obtain ⟨rfl, rfl⟩ := List.cons.inj same
          exact fun here => absurd here isSet
        · trivial
      rw [if_neg isSet]
      simp only [isSet, false_or, fits, and_true]
      by_cases isPrint : command = "print".toList
      · simp [isPrint]
      · rw [if_neg isPrint]
        by_cases isEcho : command = "echo".toList
        · have other : command ≠ "resetmem".toList := by
            rw [isEcho]
            decide
          rw [if_pos isEcho]
          match rest with
          | [] =>
            refine iff_of_false (by simp) ?_
            simp only [isPrint, other, ne_eq, not_true_eq_false, and_false, or_self, not_false_eq_true]
          | [_] => exact iff_of_true rfl (Or.inr (Or.inl ⟨isEcho, by simp⟩))
          | _ :: _ :: _ => exact iff_of_true rfl (Or.inr (Or.inl ⟨isEcho, by simp⟩))
        · rw [if_neg isEcho]
          by_cases isReset : command = "resetmem".toList
          · rw [if_pos isReset]
            exact iff_of_true rfl (Or.inr (Or.inr isReset))
          · rw [if_neg isReset]
            refine iff_of_false (by simp) ?_
            simp only [isPrint, isEcho, isReset, false_and, or_self, not_false_eq_true]

theorem interpreter_store {sizes : StoreSizes} {m : ShellMemory} {args : List Text} {r : Reply × ShellMemory}
    (run : interpreter sizes m args = some r) : r.2 = (storeOp args).apply sizes m := by
  rw [interpreter] at run
  rw [storeOp]
  cases split : args.map stripArg with
  | nil =>
    rw [split] at run
    rw [← Option.some.inj run]
    rfl
  | cons command rest =>
    simp only [split] at run ⊢
    by_cases isSet : command = "set".toList
    · rw [if_pos isSet] at run ⊢
      match rest with
      | [] => rw [← Option.some.inj run]; rfl
      | [_] => rw [← Option.some.inj run]; rfl
      | var :: value :: more =>
        rw [setCommand_store run]
        simp only
        split <;> rfl
    · rw [if_neg isSet] at run ⊢
      by_cases isReset : command = "resetmem".toList
      · have other : command ≠ "print".toList ∧ command ≠ "echo".toList := by
          rw [isReset]
          decide
        rw [if_neg other.1, if_neg other.2, if_pos isReset] at run
        rw [if_pos isReset, ← Option.some.inj run]
        rfl
      · rw [if_neg isReset] at run ⊢
        split at run
        · rw [← Option.some.inj run]
          rfl
        · split at run
          · split at run
            · cases run
            · rw [← Option.some.inj run]
              rfl
            · rw [← Option.some.inj run]
              rfl
          · cases run

section frames

variable {sizes : StoreSizes} {m : ShellMemory} {args rest : List Text} {r : Reply × ShellMemory}

theorem memSetValue_frames (name value : Text) {pos : Nat} (inside : pos < sizes.frameStoreSize) :
    memSetValue sizes m name value pos = m pos := by
  have behind : ∀ {name : Text} {i : Nat}, varSlot sizes m name = some i → pos ≠ i := fun found same => by
    have low := (slotOf_some.mp found).1.1
    omega
  rw [memSetValue]
  cases found : varSlot sizes m name with
  | some i => exact Function.update_of_ne (behind found) ..
  | none =>
    cases free : varSlot sizes m noneText with
    | some i => exact Function.update_of_ne (behind free) ..
    | none => rfl

theorem StoreOp.apply_frames (op : StoreOp) {pos : Nat} (inside : pos < sizes.frameStoreSize) :
    op.apply sizes m pos = m pos := by
  cases op with
  | keep => rfl
  | assign name value => exact memSetValue_frames name value inside
  | reset =>
    rw [apply, resetVarZone_at, if_neg]
    omega

theorem handleError_code (error : Error) : (handleError error).code ≠ 1 := by
  cases error <;> decide

theorem setCommand_code (run : setCommand sizes m rest = some r) :
    r.1.code ≠ 1 := by
  match rest with
  | [] => exact Option.some_inj.mp run ▸ handleError_code _
  | [_] => exact Option.some_inj.mp run ▸ handleError_code _
  | var :: value :: more =>
    rw [setCommand] at run
    split at run
    · split at run
      · cases run
      · exact Option.some_inj.mp run ▸ handleError_code _
      · rw [set] at run
        split at run
        · exact Option.some_inj.mp run ▸ Int.zero_ne_one
        · cases run
    · exact Option.some_inj.mp run ▸ handleError_code _

theorem printCommand_code (rest : List Text) : (printCommand sizes m rest).code ≠ 1 := by
  match rest with
  | [] => exact handleError_code _
  | [_] => exact Int.zero_ne_one
  | _ :: _ :: _ => exact handleError_code _

theorem echo_code (var : Text) : (echo sizes m var).code ≠ 1 := by
  unfold echo
  split <;> split <;> first | exact Int.zero_ne_one | exact handleError_code _

theorem interpreter_code (run : interpreter sizes m args = some r) : r.1.code ≠ 1 := by
  rw [interpreter] at run
  split at run
  · exact Option.some_inj.mp run ▸ handleError_code _
  next command rest _ =>
    split at run
    · exact setCommand_code run
    · split at run
      · exact Option.some_inj.mp run ▸ printCommand_code rest
      · split at run
        · match rest with
          | [] => cases run
          | [var] => exact Option.some_inj.mp run ▸ echo_code var
          | _ :: _ :: _ => exact Option.some_inj.mp run ▸ handleError_code _
        · split at run
          · exact Option.some_inj.mp run ▸ Int.zero_ne_one
          · cases run

end frames

/-- What was set since the last reset: the values, the names other than "none" in the order in which they came, and the
value that "none" was set to after the last of these. -/
structure Ledger where
  value : Text → Option Text
  others : List Text
  sinceNew : Option Text

namespace Ledger

def empty : Ledger := ⟨fun _ => none, [], none⟩

def assign (ledger : Ledger) (name value : Text) : Ledger :=
  let values := Function.update ledger.value name (some value)
  if name = noneText then { ledger with value := values, sinceNew := some value }
  else if name ∈ ledger.others then { ledger with value := values }
  else { value := values, others := ledger.others ++ [name], sinceNew := none }

def record (ledger : Ledger) : StoreOp → Ledger
  | .keep => ledger
  | .assign name value => ledger.assign name value
  | .reset => .empty

def names (ledger : Ledger) : Nat := ledger.others.length + if (ledger.value noneText).isSome then 1 else 0

/-- The name "none" has the value that it was last set to, or none if it was never set. -/
def NoneRight (sizes : StoreSizes) (ledger : Ledger) : Prop :=
  ledger.others.length = sizes.varStoreSize ∨
    ∃ value, ledger.value noneText = some value ∧ (value = noneText ∨ ledger.sinceNew = some value)

end Ledger

/-- The slots of the variables hold the names other than "none" in the order in which they came. Behind them all slots
are free, and what "none" was set to lies in the first of these. -/
structure Agrees (sizes : StoreSizes) (m : ShellMemory) (ledger : Ledger) : Prop where
  nodup : ledger.others.Nodup
  mark : noneText ∉ ledger.others
  known : ∀ name, name ≠ noneText → ((ledger.value name).isSome ↔ name ∈ ledger.others)
  room : ledger.names ≤ sizes.varStoreSize
  taken : ∀ j name, ledger.others[j]? = some name →
    (m (sizes.frameStoreSize + j)).var = name ∧ ledger.value name = some (m (sizes.frameStoreSize + j)).value
  free : ∀ j, ledger.others.length ≤ j → j < sizes.varStoreSize → m (sizes.frameStoreSize + j) =
    ⟨noneText, if j = ledger.others.length then ledger.sinceNew.getD noneText else noneText⟩
  fresh : ∀ value, ledger.sinceNew = some value → ledger.value noneText = some value

namespace Agrees

variable {sizes : StoreSizes} {m : ShellMemory} {ledger : Ledger} {name value : Text} {j : Nat}

theorem few (agrees : Agrees sizes m ledger) : ledger.others.length ≤ sizes.varStoreSize :=
  Nat.le_trans (Nat.le_add_right _ _) agrees.room

theorem var_at (agrees : Agrees sizes m ledger) (inside : j < sizes.varStoreSize) :
    (m (sizes.frameStoreSize + j)).var = ledger.others.getD j noneText := by
  by_cases below : j < ledger.others.length
  · have here := List.getElem?_eq_getElem below
    rw [(agrees.taken j _ here).1, List.getD_eq_getElem?_getD, here]
    rfl
  · have above := Nat.le_of_not_lt below
    rw [agrees.free j above inside, List.getD_eq_getElem?_getD, List.getElem?_eq_none above]
    rfl

theorem varSlot_mem (agrees : Agrees sizes m ledger) (here : ledger.others[j]? = some name) :
    varSlot sizes m name = some (sizes.frameStoreSize + j) := by
  obtain ⟨below, same⟩ := List.getElem?_eq_some_iff.mp here
  have few := agrees.few
  rw [varSlot, slotOf_some]
  refine ⟨⟨Nat.le_add_right _ _, by omega⟩, (agrees.taken j name here).1, fun k low high again => ?_⟩
  obtain ⟨i, rfl⟩ := Nat.exists_eq_add_of_le low
  have earlier : i < ledger.others.length := by omega
  rw [agrees.var_at (by omega), List.getD_eq_getElem?_getD, List.getElem?_eq_getElem earlier, Option.getD_some] at again
  have equal := (List.Nodup.getElem_inj_iff agrees.nodup).mp (again.trans same.symm)
  omega

theorem var_free (agrees : Agrees sizes m ledger) (inside : j < sizes.varStoreSize) :
    (m (sizes.frameStoreSize + j)).var = noneText ↔ ledger.others.length ≤ j := by
  constructor
  · intro none
    by_contra below
    have here := List.getElem?_eq_getElem (Nat.lt_of_not_le below)
    rw [(agrees.taken j _ here).1] at none
    exact agrees.mark (none ▸ List.getElem_mem _)
  · intro above
    rw [agrees.free j above inside]

theorem varSlot_mark (agrees : Agrees sizes m ledger) (room : ledger.others.length < sizes.varStoreSize) :
    varSlot sizes m noneText = some (sizes.frameStoreSize + ledger.others.length) := by
  rw [varSlot, slotOf_some]
  refine ⟨⟨Nat.le_add_right _ _, by omega⟩, (agrees.var_free room).mpr (Nat.le_refl _), fun k low high free => ?_⟩
  obtain ⟨i, rfl⟩ := Nat.exists_eq_add_of_le low
  have late := (agrees.var_free (by omega)).mp free
  omega

theorem varSlot_full (agrees : Agrees sizes m ledger) (full : ledger.others.length = sizes.varStoreSize) :
    varSlot sizes m noneText = none := by
  rw [varSlot, slotOf_none]
  intro k low high free
  obtain ⟨i, rfl⟩ := Nat.exists_eq_add_of_le low
  have late := (agrees.var_free (by omega)).mp free
  omega

theorem varSlot_new (agrees : Agrees sizes m ledger) (other : name ≠ noneText) (new : name ∉ ledger.others) :
    varSlot sizes m name = none := by
  rw [varSlot, slotOf_none]
  intro k low high here
  obtain ⟨i, rfl⟩ := Nat.exists_eq_add_of_le low
  have inside : i < sizes.varStoreSize := by omega
  by_cases below : i < ledger.others.length
  · rw [(agrees.taken i _ (List.getElem?_eq_getElem below)).1] at here
    exact new (here ▸ List.getElem_mem below)
  · rw [(agrees.var_free inside).mpr (Nat.le_of_not_lt below)] at here
    exact other here.symm

theorem init (sizes : StoreSizes) {m : ShellMemory}
    (clear : ∀ j, j < sizes.varStoreSize → m (sizes.frameStoreSize + j) = ⟨noneText, noneText⟩) :
    Agrees sizes m .empty where
  nodup := List.nodup_nil
  mark := List.not_mem_nil
  known name _ := by simp [Ledger.empty]
  room := by simp [Ledger.names, Ledger.empty]
  taken j name here := by simp [Ledger.empty] at here
  free j _ inside := by
    rw [clear j inside, Ledger.empty, Option.getD_none, ite_self]
  fresh value none := by simp [Ledger.empty] at none

theorem assignNone (agrees : Agrees sizes m ledger) (room : (ledger.assign noneText value).names ≤ sizes.varStoreSize) :
    Agrees sizes (memSetValue sizes m noneText value) (ledger.assign noneText value) := by
  have next : ledger.assign noneText value =
      { ledger with value := Function.update ledger.value noneText (some value), sinceNew := some value } := by
    rw [Ledger.assign, if_pos rfl]
  rw [next] at room ⊢
  have below : ledger.others.length < sizes.varStoreSize := by
    simp only [Ledger.names, Function.update_self, Option.isSome_some, if_true] at room
    omega
  have at_ : ∀ {j}, memSetValue sizes m noneText value (sizes.frameStoreSize + j) =
      if j = ledger.others.length then ⟨noneText, value⟩ else m (sizes.frameStoreSize + j) := by
    intro j
    simp only [memSetValue, agrees.varSlot_mark below]
    by_cases here : j = ledger.others.length
    · rw [if_pos here, here, Function.update_self, agrees.free _ (Nat.le_refl _) below]
    · rw [if_neg here]
      exact Function.update_of_ne (by omega) _ _
  refine ⟨agrees.nodup, agrees.mark, fun name other => ?_, room, fun j name here => ?_, fun j above inside => ?_, ?_⟩
  · simp only [Function.update_of_ne other]
    exact agrees.known name other
  · have index := (List.getElem?_eq_some_iff.mp here).1
    have other : name ≠ noneText := fun same => agrees.mark (same ▸ List.mem_of_getElem? here)
    simp only [at_, if_neg (Nat.ne_of_lt index), Function.update_of_ne other]
    exact agrees.taken j name here
  · rw [at_]
    split
    next here => rfl
    next here =>
      rw [agrees.free j above inside, if_neg here]
  · intro v same
    obtain rfl := Option.some.inj same
    simp only [Function.update_self]

theorem assignOld (agrees : Agrees sizes m ledger) (old : name ∈ ledger.others) :
    Agrees sizes (memSetValue sizes m name value) (ledger.assign name value) := by
  have other : name ≠ noneText := fun same => agrees.mark (same ▸ old)
  have next : ledger.assign name value = { ledger with value := Function.update ledger.value name (some value) } := by
    rw [Ledger.assign, if_neg other, if_pos old]
  obtain ⟨i, here⟩ := List.mem_iff_getElem?.mp old
  have index := (List.getElem?_eq_some_iff.mp here).1
  have at_ : ∀ {j}, memSetValue sizes m name value (sizes.frameStoreSize + j) =
      if j = i then ⟨name, value⟩ else m (sizes.frameStoreSize + j) := by
    intro j
    simp only [memSetValue, agrees.varSlot_mem here]
    by_cases same : j = i
    · rw [if_pos same, same, Function.update_self, (agrees.taken i name here).1]
    · rw [if_neg same]
      exact Function.update_of_ne (by omega) _ _
  rw [next]
  refine ⟨agrees.nodup, agrees.mark, fun v away => ?_, ?_, fun j v there => ?_, fun j above inside => ?_, ?_⟩
  · by_cases same : v = name
    · simp only [same, Function.update_self]
      exact iff_of_true rfl old
    · simp only [Function.update_of_ne same]
      exact agrees.known v away
  · have room := agrees.room
    simp only [Ledger.names, Function.update_of_ne other.symm] at room ⊢
    exact room
  · rw [at_]
    by_cases same : j = i
    · rw [same, here] at there
      obtain rfl := Option.some.inj there
      simp only [if_pos same, Function.update_self, and_self]
    · have away : v ≠ name := by
        rintro rfl
        obtain ⟨inside, equal⟩ := List.getElem?_eq_some_iff.mp there
        obtain ⟨inside', equal'⟩ := List.getElem?_eq_some_iff.mp here
        exact same ((List.Nodup.getElem_inj_iff agrees.nodup).mp (equal.trans equal'.symm))
      simp only [if_neg same, Function.update_of_ne away]
      exact agrees.taken j v there
  · have away : j ≠ i := Nat.ne_of_gt (Nat.lt_of_lt_of_le index above)
    rw [at_, if_neg away]
    exact agrees.free j above inside
  · intro v since
    simp only [Function.update_of_ne other.symm]
    exact agrees.fresh v since

theorem assignNew (agrees : Agrees sizes m ledger) (other : name ≠ noneText) (new : name ∉ ledger.others)
    (room : (ledger.assign name value).names ≤ sizes.varStoreSize) :
    Agrees sizes (memSetValue sizes m name value) (ledger.assign name value) := by
  have next : ledger.assign name value =
      ⟨Function.update ledger.value name (some value), ledger.others ++ [name], none⟩ := by
    rw [Ledger.assign, if_neg other, if_neg new]
  rw [next] at room ⊢
  have below : ledger.others.length < sizes.varStoreSize := by
    simp only [Ledger.names, List.length_append, List.length_singleton] at room
    omega
  have at_ : ∀ {j}, memSetValue sizes m name value (sizes.frameStoreSize + j) =
      if j = ledger.others.length then ⟨name, value⟩ else m (sizes.frameStoreSize + j) := by
    intro j
    simp only [memSetValue, agrees.varSlot_new other new, agrees.varSlot_mark below]
    by_cases here : j = ledger.others.length
    · rw [if_pos here, here, Function.update_self]
    · rw [if_neg here]
      exact Function.update_of_ne (by omega) _ _
  refine ⟨?_, ?_, fun v away => ?_, room, fun j v here => ?_, fun j above inside => ?_, fun v since => by cases since⟩
  · rw [List.nodup_append_comm]
    exact List.nodup_cons.mpr ⟨new, agrees.nodup⟩
  · rw [List.mem_append, List.mem_singleton, not_or]
    exact ⟨agrees.mark, other.symm⟩
  · by_cases same : v = name
    · simp [same]
    · simp only [Function.update_of_ne same, agrees.known v away]
      simp [same]
  · rw [at_]
    by_cases last : j = ledger.others.length
    · rw [last, List.getElem?_concat_length] at here
      obtain rfl := Option.some.inj here
      simp only [if_pos last, Function.update_self, and_self]
    · have inside := (List.getElem?_eq_some_iff.mp here).1
      rw [List.length_append, List.length_singleton] at inside
      rw [List.getElem?_append_left (by omega)] at here
      have away : v ≠ name := by
        rintro rfl
        exact new (List.mem_of_getElem? here)
      simp only [if_neg last, Function.update_of_ne away]
      exact agrees.taken j v here
  · rw [List.length_append, List.length_singleton] at above ⊢
    rw [at_, if_neg (by omega), agrees.free j (by omega) inside, if_neg (by omega)]
    simp

theorem apply (agrees : Agrees sizes m ledger) (op : StoreOp) (room : (ledger.record op).names ≤ sizes.varStoreSize) :
    Agrees sizes (op.apply sizes m) (ledger.record op) := by
  cases op with
  | keep => exact agrees
  | assign name value =>
    by_cases none : name = noneText
    · rw [none] at room ⊢
      exact agrees.assignNone room
    · by_cases old : name ∈ ledger.others
      · exact agrees.assignOld old
      · exact agrees.assignNew none old room
  | reset =>
    apply Agrees.init
    intro j inside
    rw [StoreOp.apply, resetVarZone_at, if_pos ⟨Nat.le_add_right _ _, by omega⟩]

theorem memGetValue_iff (agrees : Agrees sizes m ledger) (name : Text) (caller : Char) :
    memGetValue sizes m name caller = (ledger.value name).getD (notFound caller) ↔
      name ≠ noneText ∨ ledger.NoneRight sizes := by
  by_cases none : name = noneText
  · rw [none, Ledger.NoneRight]
    simp only [ne_eq, not_true_eq_false, false_or]
    have room := agrees.room
    by_cases full : ledger.others.length = sizes.varStoreSize
    · have unset : ledger.value noneText = Option.none := by
        by_contra set
        rw [Ledger.names, if_pos (Option.isSome_iff_ne_none.mpr set)] at room
        omega
      rw [memGetValue, agrees.varSlot_full full, unset]
      exact iff_of_true rfl (Or.inl full)
    · have below : ledger.others.length < sizes.varStoreSize := by
        have := agrees.few
        omega
      rw [memGetValue, agrees.varSlot_mark below]
      simp only [agrees.free _ (Nat.le_refl _) below, if_true, full, false_or]
      cases set : ledger.value noneText with
      | none =>
        have unset : ledger.sinceNew = Option.none := by
          cases since : ledger.sinceNew with
          | none => rfl
          | some v => cases set.symm.trans (agrees.fresh v since)
        rw [unset, Option.getD_none, Option.getD_none]
        refine iff_of_false ?_ (by simp)
        rw [notFound]
        split <;> decide
      | some v =>
        cases since : ledger.sinceNew with
        | none => simp [eq_comm]
        | some w =>
          obtain rfl := Option.some.inj (set.symm.trans (agrees.fresh w since))
          simp
  · refine iff_of_true ?_ (Or.inl none)
    by_cases old : name ∈ ledger.others
    · obtain ⟨j, here⟩ := List.mem_iff_getElem?.mp old
      rw [memGetValue, agrees.varSlot_mem here, (agrees.taken j name here).2, Option.getD_some]
    · have unset : ledger.value name = Option.none := by
        by_contra set
        exact old ((agrees.known name none).mp (Option.isSome_iff_ne_none.mpr set))
      rw [memGetValue, agrees.varSlot_new none old, unset, Option.getD_none]

end Agrees

/-- A command that uses the variables, with values that fit, and room for all names that were set since the last reset. -/
def StoreAllowed (sizes : StoreSizes) (s : ShellMemory × Ledger) (args : List Text) : Prop :=
  (Known (args.map stripArg) ∧ Fits (args.map stripArg)) ∧ (s.2.record (storeOp args)).names ≤ sizes.varStoreSize

def storeStep (sizes : StoreSizes) (s : ShellMemory × Ledger) (args : List Text) : ShellMemory × Ledger :=
  (((interpreter sizes s.1 args).map Prod.snd).getD s.1, s.2.record (storeOp args))

theorem storeRun_agrees {sizes : StoreSizes} {m : ShellMemory} {s : ShellMemory × Ledger}
    (run : Run (StoreAllowed sizes) (storeStep sizes) (memInit sizes m, .empty) s) : Agrees sizes s.1 s.2 := by
  apply run.invariant fun s => Agrees sizes s.1 s.2
  · apply Agrees.init
    intro j inside
    simp only [memInit, Nat.add_lt_add_left inside, if_true]
  · intro u args agrees allowed
    obtain ⟨known, room⟩ := allowed
    obtain ⟨r, run⟩ := Option.isSome_iff_exists.mp ((@interpreter_isSome_iff sizes u.1 args).mpr known)
    have next := agrees.apply (storeOp args) room
    rw [← interpreter_store run] at next
    simp only [storeStep, run, Option.map_some, Option.getD_some]
    exact next

/-- In every run a variable is read as what it was last set to, and a set of one leaves the others alone. For the name
"none", which marks the free slots as well, this is so only as long as no new variable has come since it was set. -/
theorem memGetValue_latest_iff {sizes : StoreSizes} {m : ShellMemory} {s : ShellMemory × Ledger}
    (run : Run (StoreAllowed sizes) (storeStep sizes) (memInit sizes m, .empty) s) (name : Text) (caller : Char) :
    (memGetValue sizes s.1 name caller = (s.2.value name).getD (notFound caller) ↔
      name ≠ noneText ∨ s.2.NoneRight sizes) ∧
    ∀ other value, (s.2.assign other value).names ≤ sizes.varStoreSize → other ≠ name → name ≠ noneText →
      memGetValue sizes (memSetValue sizes s.1 other value) name caller = memGetValue sizes s.1 name caller := by
  have agrees := storeRun_agrees run
  refine ⟨agrees.memGetValue_iff name caller, fun other value room away proper => ?_⟩
  have later := agrees.apply (.assign other value) room
  have kept : (s.2.assign other value).value name = s.2.value name := by
    rw [Ledger.assign]
    split
    · exact Function.update_of_ne away.symm _ _
    · split
      · exact Function.update_of_ne away.symm _ _
      · exact Function.update_of_ne away.symm _ _
  have before := (agrees.memGetValue_iff name caller).mpr (Or.inl proper)
  have after := (later.memGetValue_iff name caller).mpr (Or.inl proper)
  calc memGetValue sizes (memSetValue sizes s.1 other value) name caller
    _ = ((s.2.assign other value).value name).getD (notFound caller) := after
    _ = (s.2.value name).getD (notFound caller) := by rw [kept]
    _ = memGetValue sizes s.1 name caller := before.symm

def emptyStore : ShellMemory × Ledger := (memInit makefileSizes fun _ => ⟨[], []⟩, .empty)

def afterNone : ShellMemory × Ledger :=
  storeStep makefileSizes (storeStep makefileSizes emptyStore ["set".toList, noneText, ['x']])
    ["set".toList, ['a'], ['y']]

theorem noneRun : Run (StoreAllowed makefileSizes) (storeStep makefileSizes) emptyStore afterNone := by
  apply Run.next _ (Run.next _ .start _)
  · exact ⟨⟨Or.inl rfl, fun _ _ => by decide⟩, by decide⟩
  · exact ⟨⟨Or.inl rfl, fun _ _ => by decide⟩, by decide⟩

theorem memGetValue_latest_a : memGetValue makefileSizes afterNone.1 ['a'] 'p' = ['y'] :=
  ((memGetValue_latest_iff noneRun ['a'] 'p').1.mpr (Or.inl (by decide))).trans (by decide)

/-- "none" was set to "x" and is read as "none". -/
theorem memGetValue_forgets : ∃ s, Run (StoreAllowed makefileSizes) (storeStep makefileSizes) emptyStore s ∧
    s.2.value noneText = some ['x'] ∧ memGetValue makefileSizes s.1 noneText 'p' = noneText :=
  ⟨afterNone, noneRun, by decide, by decide⟩

end ShellOs.Kernel
