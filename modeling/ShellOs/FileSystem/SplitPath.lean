import ShellOs.FileSystem.Directory
import ShellOs.Lib.Scan

/-! How `split_path_filename` (directory.c) writes its two outputs, byte by byte: the loop writes a component when it has
found the next one. What it writes is what the directories go by, `splitPathFilename`. -/

namespace ShellOs.FileSystem
open Lib

/-- The bytes behind an output pointer, as far as they have been written. -/
abbrev Output := Nat → Option Byte

/-- The text has been written from the beginning on, and nothing else. -/
def holding (text : List Byte) : Output := fun i => text[i]?

def memcpy (output : Output) (offset : Nat) (text : List Byte) : Output := fun i =>
  if offset ≤ i ∧ i < offset + text.length then text[i - offset]? else output i

/-- `strtok_r` with the delimiter "/", on what is left of the string: the next token, and what is left behind it. -/
def strtokR (p : CString) : Option (CString × CString) :=
  match p.dropWhile (· == slash) with
  | [] => none
  | rest => some (rest.takeWhile (· != slash), (rest.dropWhile (· != slash)).tail)

/-- The variables of the loop. The pointer `dir` is an offset into `directory`, and `none` if that is null. -/
structure SplitState where
  directory : Output
  dir : Option Nat
  lastToken : CString
  p : CString

namespace SplitState

/-- What is done through `dir`, which moves on behind the text, unless it is null. -/
def emit (s : SplitState) (text : List Byte) : SplitState :=
  match s.dir with
  | none => s
  | some dir => { s with directory := memcpy s.directory dir text, dir := some (dir + text.length) }

def appendLastToken (s : SplitState) : SplitState :=
  if 0 < s.lastToken.length then (s.emit s.lastToken).emit [slash] else s

end SplitState

/-- The loop of `split_path_filename`, `none` if it is not done within the fuel. -/
def splitTokens : Nat → SplitState → Option SplitState
  | 0, _ => none
  | fuel + 1, s =>
    match strtokR s.p with
    | none => some s
    | some (token, p) => splitTokens fuel { s.appendLastToken with lastToken := token, p := p }

/-- What `split_path_filename` writes into `directory`, unless that is null, and into `filename`. -/
def splitInto (given : Bool) (path : CString) : Option (Output × Output) := do
  let start : SplitState := ⟨holding [], if given then some 0 else none, [], path⟩
  let rooted := if path.head? = some slash then start.emit [slash] else start
  let s ← splitTokens (path.length + 1) rooted
  some ((s.emit [0]).directory, memcpy (holding []) 0 (s.lastToken ++ [0]))

theorem memcpy_holding (text more : List Byte) : memcpy (holding text) text.length more = holding (text ++ more) := by
  funext i
  rw [memcpy, holding, holding, List.getElem?_append]
  by_cases before : i < text.length
  · rw [if_neg (by omega), if_pos before]
  · rw [if_neg before]
    split
    next => rfl
    next beyond =>
      rw [List.getElem?_eq_none (by omega), List.getElem?_eq_none (by omega)]

theorem strtokR_none {p : CString} (done : strtokR p = none) : tokens p = [] := by
  unfold strtokR at done
  split at done
  next only => exact pieces_none only
  next => cases done

theorem strtokR_some {p token rest : CString} (found : strtokR p = some (token, rest)) :
    tokens p = token :: tokens rest ∧ rest.length < p.length := by
  unfold strtokR at found
  split at found
  next => cases found
  next other =>
    obtain ⟨rfl, rfl⟩ := Prod.mk.inj (Option.some_inj.mp found)
    cases start : p.dropWhile (· == slash) with
    | nil => exact absurd start other
    | cons c tail =>
      refine ⟨pieces_first start, ?_⟩
      have skipped : (p.dropWhile (· == slash)).length ≤ p.length := (List.dropWhile_sublist _).length_le
      have cut : ((c :: tail).dropWhile (· != slash)).length ≤ (c :: tail).length := (List.dropWhile_sublist _).length_le
      rw [start] at skipped
      rw [List.length_tail]
      simp only [List.length_cons] at skipped cut ⊢
      omega

structure Emitted (given : Bool) (s : SplitState) (text : CString) : Prop where
  directory : s.directory = holding (if given then text else [])
  dir : s.dir = if given then some text.length else none

section loop

variable {given : Bool} {s : SplitState} {text : CString}

theorem Emitted.emit (emitted : Emitted given s text) (more : List Byte) : Emitted given (s.emit more) (text ++ more) := by
  unfold SplitState.emit
  cases given with
  | false =>
    rw [show s.dir = none from emitted.dir]
    exact ⟨emitted.directory, emitted.dir⟩
  | true =>
    rw [show s.dir = some text.length from emitted.dir]
    refine ⟨?_, ?_⟩
    · simp only [emitted.directory, if_true, memcpy_holding]
    · simp only [if_true, List.length_append]

theorem emit_lastToken (s : SplitState) (more : List Byte) : (s.emit more).lastToken = s.lastToken := by
  unfold SplitState.emit
  split <;> rfl

theorem emit_p (s : SplitState) (more : List Byte) : (s.emit more).p = s.p := by
  unfold SplitState.emit
  split <;> rfl

def component (token : CString) : CString := if 0 < token.length then token ++ [slash] else []

theorem component_token {token : CString} (some' : token ≠ []) : component token = token ++ [slash] :=
  if_pos (List.length_pos_of_ne_nil some')

theorem Emitted.appendLastToken (emitted : Emitted given s text) :
    Emitted given s.appendLastToken (text ++ component s.lastToken) := by
  unfold SplitState.appendLastToken component
  split
  next => exact (List.append_assoc text s.lastToken [slash]) ▸ (emitted.emit s.lastToken).emit [slash]
  next => exact (List.append_nil text).symm ▸ emitted

theorem splitTokens_spec (fuel : Nat) (enough : s.p.length < fuel) (emitted : Emitted given s text) :
    ∃ t, splitTokens fuel s = some t ∧
      Emitted given t (text ++ (s.lastToken :: tokens s.p).dropLast.flatMap component) ∧
      t.lastToken = (tokens s.p).getLastD s.lastToken := by
  induction fuel generalizing s text with
  | zero => exact absurd enough (Nat.not_lt_zero _)
  | succ fuel ih =>
    cases found : strtokR s.p with
    | none =>
      have last := strtokR_none found
      refine ⟨s, by simp only [splitTokens, found], ?_, by rw [last, List.getLastD_nil]⟩
      rw [last]
      exact (List.append_nil text).symm ▸ emitted
    | some both =>
      obtain ⟨token, rest⟩ := both
      obtain ⟨parts, shorter⟩ := strtokR_some found
      have appended := emitted.appendLastToken
      obtain ⟨t, run, written, last⟩ := ih (s := { s.appendLastToken with lastToken := token, p := rest })
        (by simp only; omega) ⟨appended.directory, appended.dir⟩
      refine ⟨t, ?_, ?_, ?_⟩
      · simp only [splitTokens, found]
        exact run
      · rw [parts, List.dropLast_cons_cons, List.flatMap_cons, ← List.append_assoc]
        exact written
      · rw [parts, List.getLastD_cons]
        exact last

end loop

theorem tokens_ne_nil {path token : CString} (member : token ∈ tokens path) : token ≠ [] := ne_nil_of_pieces member

theorem slash_notMem_token {path token : CString} (member : token ∈ tokens path) : slash ∉ token := notMem_of_pieces member

theorem flatMap_component (path : CString) :
    ([] :: tokens path).dropLast.flatMap component = (tokens path).dropLast.flatMap fun token => token ++ [slash] := by
  have nonempty : ∀ token ∈ (tokens path).dropLast, component token = token ++ [slash] := fun token member =>
    component_token (tokens_ne_nil (List.dropLast_subset _ member))
  cases parts : tokens path with
  | nil => rfl
  | cons first others =>
    rw [parts] at nonempty
    rw [List.dropLast_cons_cons, List.flatMap_cons]
    exact List.flatMap_congr nonempty

theorem splitInto_eq (given : Bool) (path : CString) : splitInto given path =
    some (holding (if given then (splitPathFilename path).1 ++ [0] else []),
      holding ((splitPathFilename path).2 ++ [0])) := by
  let start : SplitState := ⟨holding [], if given then some 0 else none, [], path⟩
  let rooted := if path.head? = some slash then start.emit [slash] else start
  have first : Emitted given start [] := ⟨by cases given <;> rfl, rfl⟩
  have second : Emitted given rooted (if path.head? = some slash then [slash] else []) := by
    simp only [rooted]
    split
    next => exact first.emit [slash]
    next => exact first
  have p : rooted.p = path := by
    simp only [rooted]
    split
    next => exact emit_p start [slash]
    next => rfl
  have lastToken : rooted.lastToken = [] := by
    simp only [rooted]
    split
    next => exact emit_lastToken start [slash]
    next => rfl
  obtain ⟨t, run, written, last⟩ := splitTokens_spec (path.length + 1) (p.symm ▸ Nat.lt_succ_self _) second
  rw [p, lastToken, flatMap_component] at written
  rw [p, lastToken] at last
  have directory := (written.emit [0]).directory
  have filename := memcpy_holding [] (t.lastToken ++ [0])
  rw [last] at filename
  change (splitTokens (path.length + 1) rooted).bind _ = _
  rw [run, Option.bind_some, directory, last]
  exact congrArg some (Prod.ext rfl filename)

theorem tokens_name {name : CString} (nonempty : name ≠ []) (flat : slash ∉ name) : tokens name = [name] := by
  refine (pieces_word flat).trans ?_
  simp [nonempty]

theorem splitPathFilename_name {name : CString} (nonempty : name ≠ []) (flat : slash ∉ name) :
    splitPathFilename name = ([], name) := by
  have first : name.head? ≠ some slash := fun first => flat (List.mem_of_head? first)
  rw [splitPathFilename, tokens_name nonempty flat, if_neg first]
  rfl

section parts

variable (path : CString)

theorem tokens_directory (rest : CString) :
    tokens ((splitPathFilename path).1 ++ rest) = (tokens path).dropLast ++ tokens rest := by
  have separate : ∀ token ∈ (tokens path).dropLast, slash ∉ token ∧ token ≠ [] := fun token member =>
    have inside := List.dropLast_subset _ member
    ⟨slash_notMem_token inside, tokens_ne_nil inside⟩
  have cut := pieces_flatMap separate rest
  rw [splitPathFilename, List.append_assoc]
  split
  next => exact (pieces_cons slash _).trans cut
  next => exact cut

theorem slash_notMem_filename : slash ∉ (splitPathFilename path).2 := by
  change slash ∉ (tokens path).getLastD []
  rw [List.getLastD_eq_getLast?]
  cases last : (tokens path).getLast? with
  | none => exact List.not_mem_nil
  | some token => exact slash_notMem_token (List.mem_of_getLast? last)

theorem tokens_filename : tokens (splitPathFilename path).2 =
    if (splitPathFilename path).2 = [] then [] else [(splitPathFilename path).2] := by
  refine (pieces_word (slash_notMem_filename path)).trans ?_
  split
  next empty =>
    rw [empty]
    rfl
  next some' => simp [some']

theorem tokens_split : tokens ((splitPathFilename path).1 ++ (splitPathFilename path).2) = tokens path := by
  rw [tokens_directory, tokens_filename]
  change (tokens path).dropLast ++ (if (tokens path).getLastD [] = [] then [] else [(tokens path).getLastD []]) = _
  rw [List.getLastD_eq_getLast?]
  cases last : (tokens path).getLast? with
  | none =>
    rw [List.getLast?_eq_none_iff.mp last]
    rfl
  | some token =>
    have some' := tokens_ne_nil (List.mem_of_getLast? last)
    rw [Option.getD_some, if_neg some']
    exact List.dropLast_append_getLast? token last

theorem head_split : ((splitPathFilename path).1 ++ (splitPathFilename path).2).head? = some slash ↔
    path.head? = some slash := by
  by_cases rooted : path.head? = some slash
  · simp [splitPathFilename, rooted]
  · refine ⟨fun start => ?_, fun start => absurd start rooted⟩
    rw [splitPathFilename, if_neg rooted, List.nil_append] at start
    cases parts : tokens path with
    | nil =>
      rw [parts] at start
      cases start
    | cons first others =>
      rw [parts] at start
      have member : first ∈ tokens path := parts ▸ List.mem_cons_self
      have begins : ∃ rest, (first :: others).dropLast.flatMap (fun token => token ++ [slash]) ++
          (first :: others).getLastD [] = first ++ rest := by
        cases others with
        | nil => exact ⟨[], (List.append_nil first).symm⟩
        | cons second others =>
          rw [List.dropLast_cons_cons, List.flatMap_cons, List.append_assoc, List.append_assoc]
          exact ⟨_, rfl⟩
      obtain ⟨rest, whole⟩ := begins
      rw [whole, List.head?_append_of_ne_nil first (tokens_ne_nil member)] at start
      exact absurd (List.mem_of_head? start) (slash_notMem_token member)

theorem splitPathFilename_twice :
    splitPathFilename ((splitPathFilename path).1 ++ (splitPathFilename path).2) = splitPathFilename path := by
  have parts := tokens_split path
  have root := head_split path
  generalize (splitPathFilename path).1 ++ (splitPathFilename path).2 = again at parts root
  rw [splitPathFilename, splitPathFilename, parts]
  simp only [root]

end parts

/-- `split_path_filename` decomposes every path: the file name is the last component, and the directory has the others
and the root. Both together have the components of the path and are split in the same way. -/
theorem splitInto_decomposes (path : CString) :
    ∃ directory filename, splitInto true path = some (holding (directory ++ [0]), holding (filename ++ [0])) ∧
      filename = (tokens path).getLastD [] ∧ slash ∉ filename ∧
      directory = (if path.head? = some slash then [slash] else []) ++
        (tokens path).dropLast.flatMap (fun token => token ++ [slash]) ∧
      tokens directory ++ (if filename = [] then [] else [filename]) = tokens path ∧
      splitInto true (directory ++ filename) = splitInto true path := by
  refine ⟨(splitPathFilename path).1, (splitPathFilename path).2, splitInto_eq true path, rfl,
    slash_notMem_filename path, rfl, ?_, ?_⟩
  · have whole := tokens_split path
    rw [tokens_directory, tokens_filename] at whole
    have directory := tokens_directory path []
    rw [List.append_nil] at directory
    rw [directory]
    exact (congrArg (· ++ _) (List.append_nil _)).trans whole
  · rw [splitInto_eq, splitInto_eq, splitPathFilename_twice]

theorem splitPathFilename_length (path : CString) :
    (splitPathFilename path).1.length + (splitPathFilename path).2.length ≤ path.length ∧
      (splitPathFilename path).2.length + path.count slash ≤ path.length := by
  have whole : (tokens path).flatten.length + path.count slash = path.length := length_flatten_pieces slash path
  have directory : (splitPathFilename path).1.length = (if path.head? = some slash then 1 else 0) +
      ((tokens path).dropLast.flatten.length + (tokens path).dropLast.length) := by
    rw [splitPathFilename, List.length_append, length_flatMap_append]
    congr 1
    split <;> rfl
  have many : (if path.head? = some slash then 1 else 0) + (tokens path).length ≤ path.count slash + 1 := by
    split
    next rooted =>
      have fewer : (tokens path).length ≤ path.count slash := length_pieces_head rooted
      omega
    next =>
      have fewer : (tokens path).length ≤ path.count slash + 1 := length_pieces slash path
      omega
  have filename : (splitPathFilename path).2 = (tokens path).getLast?.getD [] := List.getLastD_eq_getLast?
  cases last : (tokens path).getLast? with
  | none =>
    have none' := List.getLast?_eq_none_iff.mp last
    rw [none'] at whole directory
    rw [filename, last, directory]
    simp only [List.flatten_nil, List.dropLast_nil, List.length_nil, Option.getD_none] at whole ⊢
    split
    next rooted =>
      have inside := List.length_pos_of_mem (List.mem_of_head? rooted)
      omega
    next => omega
  | some token =>
    have parts := List.dropLast_append_getLast? token last
    rw [← parts, List.flatten_append, List.length_append, List.flatten_singleton] at whole
    rw [← parts, List.length_append, List.length_singleton] at many
    rw [filename, last, directory, Option.getD_some]
    omega

inductive Caller where
  | filesysCreate
  | filesysOpen
  | filesysRemove

def Caller.splits : Caller → CString → Bool
  | .filesysOpen, name => name.length != 0
  | _, _ => true

def Caller.arraySize : Caller → CString → Nat
  | .filesysCreate, path => path.length
  | .filesysOpen, name => name.length + 1
  | .filesysRemove, name => name.length

def WrittenBelow (output : Output) (size : Nat) : Prop := ∀ i, (output i).isSome → i < size

/-- If the caller splits the path, the outputs fit in its arrays. -/
def OutputsFit (caller : Caller) (path : CString) : Prop :=
  caller.splits path = true → ∃ directory filename, splitInto true path = some (directory, filename) ∧
    WrittenBelow directory (caller.arraySize path) ∧ WrittenBelow filename (caller.arraySize path)

theorem isSome_holding {text : List Byte} {i : Nat} : (holding text i).isSome ↔ i < text.length := by
  simp [holding]

theorem writtenBelow_holding (text : List Byte) (size : Nat) : WrittenBelow (holding text) size ↔ text.length ≤ size := by
  constructor
  · intro within
    by_contra beyond
    exact absurd (within size (isSome_holding.mpr (Nat.lt_of_not_le beyond))) (lt_irrefl size)
  · intro room i some'
    exact lt_of_lt_of_le (isSome_holding.mp some') room

theorem outputsFit_lengths (caller : Caller) (path : CString) : OutputsFit caller path ↔ (caller.splits path = true →
    (splitPathFilename path).1.length < caller.arraySize path ∧
      (splitPathFilename path).2.length < caller.arraySize path) := by
  have lengths : ∀ text : CString, WrittenBelow (holding (text ++ [0])) (caller.arraySize path) ↔
      text.length < caller.arraySize path := fun text => by
    rw [writtenBelow_holding, List.length_append, List.length_singleton, Nat.succ_le_iff]
  constructor
  · intro fits splits
    obtain ⟨directory, filename, run, first, second⟩ := fits splits
    rw [splitInto_eq] at run
    obtain ⟨rfl, rfl⟩ := Prod.mk.inj (Option.some_inj.mp run)
    exact ⟨(lengths _).mp first, (lengths _).mp second⟩
  · intro short splits
    exact ⟨_, _, splitInto_eq true path, (lengths _).mpr (short splits).1, (lengths _).mpr (short splits).2⟩

theorem directory_short {path : CString} (inside : slash ∈ path) (more : path ≠ [slash])
    (unnamed : (splitPathFilename path).2 = []) : (splitPathFilename path).1.length < path.length := by
  have none' : tokens path = [] := by
    have whole := tokens_split path
    rw [tokens_directory, unnamed] at whole
    have shorter := congrArg List.length whole
    simp only [List.length_append, List.length_dropLast] at shorter
    have nothing : (tokens ([] : CString)).length = 0 := rfl
    exact List.eq_nil_of_length_eq_zero (by omega)
  rw [splitPathFilename, none']
  cases path with
  | nil => cases inside
  | cons c rest =>
    split
    next rooted =>
      obtain rfl := Option.some_inj.mp rooted
      have longer : 0 < rest.length := List.length_pos_of_ne_nil fun empty => more (empty ▸ rfl)
      simpa using longer
    next => simp

/-- `filesys_open` has room for every path. The others, whose arrays have no byte for the terminator, have room exactly if
the path has a slash and is not only that. -/
theorem outputsFit_iff (caller : Caller) (path : CString) :
    OutputsFit caller path ↔ caller = .filesysOpen ∨ slash ∈ path ∧ path ≠ [slash] := by
  obtain ⟨both, last⟩ := splitPathFilename_length path
  have tight : ((splitPathFilename path).1.length < path.length ∧ (splitPathFilename path).2.length < path.length) ↔
      slash ∈ path ∧ path ≠ [slash] := by
    constructor
    · rintro ⟨directory, filename⟩
      refine ⟨?_, ?_⟩
      · by_contra flat
        have nonempty : path ≠ [] := List.ne_nil_of_length_pos (Nat.zero_lt_of_lt filename)
        rw [splitPathFilename_name nonempty flat] at filename
        exact lt_irrefl _ filename
      · rintro rfl
        exact absurd directory (by decide)
    · rintro ⟨inside, more⟩
      have counted : 0 < path.count slash := List.count_pos_iff.mpr inside
      refine ⟨?_, by omega⟩
      cases named : (splitPathFilename path).2 with
      | cons b rest =>
        rw [named, List.length_cons] at both
        omega
      | nil => exact directory_short inside more named
  rw [outputsFit_lengths]
  cases caller with
  | filesysCreate => simpa [Caller.splits, Caller.arraySize] using tight
  | filesysRemove => simpa [Caller.splits, Caller.arraySize] using tight
  | filesysOpen =>
    refine ⟨fun _ => Or.inl rfl, fun _ _ => ?_⟩
    simp only [Caller.arraySize]
    omega

/-- A name of one byte needs two in `file_name`. -/
theorem filesysCreate_overflows : ¬ OutputsFit .filesysCreate [97] := by
  rintro fits
  obtain ⟨directory, filename, run, -, within⟩ := fits rfl
  obtain ⟨-, rfl⟩ := Prod.mk.inj (Option.some_inj.mp run)
  exact absurd (within 1 rfl) (lt_irrefl 1)

end ShellOs.FileSystem
