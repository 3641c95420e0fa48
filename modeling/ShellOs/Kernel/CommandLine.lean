import Mathlib.Tactic.IntervalCases
import ShellOs.Kernel.ShellMemory
import ShellOs.Lib.Scan

/-! The command line of the last shell (`parseInput` of shell.c): `strtok` cuts a line into sections at the semicolons,
and each section is cut into words at the spaces. -/

namespace ShellOs.Kernel
open Lib

/-- `token[a]`, where the string ends with a null character. -/
def charAt (token : Text) (a : Nat) : Char := token.getD a '\x00'

/-- The word loop of `parseInput`: the words from `a` on, `none` if the loop is not done within the fuel. The array
`words` is taken to be large enough. -/
def extractWords (token : Text) : Nat → Nat → Option (List Text)
  | 0, _ => none
  | fuel + 1, a =>
    if charAt token a != '\x00' && a < 1000 then
      let stop := scan (fun c => c != '\x00' && c != ' ') (token.take 1000) a
      let tmp := (token.drop a).take (stop - a)
      if charAt token stop = '\x00' then some [tmp]
      else (extractWords token fuel (stop + 1)).map (tmp :: ·)
    else some []

def sectionWords (token : Text) : Option (List Text) :=
  extractWords token (token.length + 1) (scan (· == ' ') (token.take 1000) 0)

/-- `strtok` with the semicolon, on what is left of a line: the next section, and what is left behind it. -/
def strtok (line : Text) : Option (Text × Text) :=
  match line.dropWhile (· == ';') with
  | [] => none
  | rest => some (rest.takeWhile (· != ';'), (rest.dropWhile (· != ';')).tail)

/-- The place that `strtok` keeps, as what is left of the line there, and what the interpreter works on. -/
structure LineState (σ : Type) where
  left : Text
  shell : σ

section loop

variable {σ : Type} (interpreter : List Text → LineState σ → Int × LineState σ)

def passSection (line : Text) : Text := (strtok line).elim [] Prod.snd

def parseSections : Nat → Int → LineState σ → Option (Int × LineState σ)
  | 0, _, _ => none
  | fuel + 1, ret, s =>
    match strtok s.left with
    | none => some (ret, { s with left := [] })
    | some (token, left) => do
      let words ← sectionWords token
      let r := interpreter words { s with left := left }
      -- the next section is cut off before the result is looked at
      if r.1 = -1 then some (r.1, { r.2 with left := passSection r.2.left }) else parseSections fuel r.1 r.2

def parseInput (fuel : Nat) (ui : Text) (shell : σ) : Option (Int × LineState σ) :=
  parseSections interpreter fuel 0 ⟨ui, shell⟩

end loop

def cutWord (word : Text) : Text := word.takeWhile fun c => c != '\r' && c != '\n'

def runs (text : Text) : List Text := (text.splitOn ' ').filter fun run => !run.isEmpty

def blank (c : Char) : Bool := c == ' ' || c == '\r' || c == '\n'

def TidyFrom (token : Text) (a : Nat) : Prop :=
  ∀ i c, a ≤ i → i = a ∨ token[i - 1]? = some ' ' → token[i]? = some c → blank c = false

section words

variable {token word rest : Text} {a fuel : Nat}

theorem runs_words (inside : ' ' ∉ word) (rest : Text) :
    runs (word ++ ' ' :: rest) = ([word].filter fun run => !run.isEmpty) ++ runs rest :=
  pieces_append inside rest

theorem runs_dropSpaces (text : Text) : runs (text.dropWhile (· == ' ')) = runs text := pieces_dropWhile ' ' text

theorem runs_word (inside : ' ' ∉ word) : runs word = [word].filter fun run => !run.isEmpty := pieces_word inside

def wordChar (c : Char) : Bool := c != '\x00' && c != ' '

theorem charAt_some {c : Char} (here : token[a]? = some c) : charAt token a = c := by
  rw [charAt, List.getD_eq_getElem?_getD, here, Option.getD_some]

theorem charAt_length (token : Text) : charAt token token.length = '\x00' := by
  rw [charAt, List.getD_eq_getElem?_getD, List.getElem?_eq_none (Nat.le_refl _), Option.getD_none]

theorem word_stop (nul : '\x00' ∉ token) (before : scan wordChar token a < token.length) :
    token[scan wordChar token a]? = some ' ' := by
  have here : token[scan wordChar token a]? = some token[scan wordChar token a] := List.getElem?_eq_getElem before
  have stops : wordChar token[scan wordChar token a] = false := scan_stop here
  have present : token[scan wordChar token a] ≠ '\x00' := fun nil => nul (nil ▸ List.getElem_mem _)
  have space : token[scan wordChar token a] = ' ' := by simpa [wordChar, present] using stops
  rw [here, space]

theorem drop_word (nul : '\x00' ∉ token) (inside : a ≤ token.length) :
    let stop := scan wordChar token a
    let tmp := (token.drop a).takeWhile wordChar
    ' ' ∉ tmp ∧ ((stop = token.length ∧ token.drop a = tmp) ∨
      (token[stop]? = some ' ' ∧ token.drop a = tmp ++ ' ' :: token.drop (stop + 1))) := by
  intro stop tmp
  have spaceless : ' ' ∉ tmp := fun member => by
    have passes := List.all_eq_true.mp List.all_takeWhile _ member
    cases passes
  have whole : tmp ++ token.drop stop = token.drop a := by
    rw [drop_scan]
    exact List.takeWhile_append_dropWhile
  refine ⟨spaceless, ?_⟩
  rcases Nat.eq_or_lt_of_le (scan_le_length (p := wordChar) inside) with atEnd | before
  · left
    refine ⟨atEnd, ?_⟩
    rw [← whole, show stop = token.length from atEnd, List.drop_length, List.append_nil]
  · right
    have space : token[stop]? = some ' ' := word_stop nul before
    refine ⟨space, ?_⟩
    rw [← whole, List.drop_eq_getElem_cons before, (List.getElem?_eq_some_iff.mp space).2]

theorem cutWord_first (before : a < token.length) (nul : '\x00' ∉ token) :
    cutWord ((token.drop a).takeWhile wordChar) ≠ [] ↔ blank token[a] = false := by
  have present : token[a] ≠ '\x00' := fun nil => nul (nil ▸ List.getElem_mem _)
  rw [List.drop_eq_getElem_cons before]
  generalize token[a] = c at present
  by_cases space : c = ' '
  · simp [space, wordChar, cutWord, blank]
  · simp [space, present, wordChar, cutWord, blank, List.takeWhile_cons]

theorem tidyFrom_word (nul : '\x00' ∉ token) (before : a < token.length) :
    TidyFrom token a ↔ blank token[a] = false ∧
      (token[scan wordChar token a]? = some ' ' → TidyFrom token (scan wordChar token a + 1)) := by
  have low := le_scan wordChar token a
  have here : token[a]? = some token[a] := List.getElem?_eq_getElem before
  constructor
  · intro tidy
    refine ⟨tidy a _ (Nat.le_refl a) (.inl rfl) here, fun space i c behind first there => ?_⟩
    refine tidy i c (by omega) (.inr ?_) there
    rcases first with rfl | spaced
    · exact space
    · exact spaced
  · rintro ⟨start, later⟩ i c behind first there
    rcases first with rfl | spaced
    · rw [here, Option.some_inj] at there
      exact there ▸ start
    · rcases Nat.eq_or_lt_of_le behind with rfl | further
      · rw [here, Option.some_inj] at there
        exact there ▸ start
      · have passed : scan wordChar token a ≤ i - 1 := scan_le (by omega) spaced rfl
        have within := (List.getElem?_eq_some_iff.mp spaced).1
        exact later (word_stop nul (by omega)) i c (by omega) (.inr spaced) there

/-- The word loop: its words are the runs of the section, empty words aside, and none is empty when cut if and only if
the section is tidy. -/
theorem extractWords_spec (nul : '\x00' ∉ token) (short : token.length ≤ 999) (inside : a ≤ token.length)
    (enough : token.length < fuel + a) : ∃ words, extractWords token fuel a = some words ∧
      (words.filter fun run => !run.isEmpty) = runs (token.drop a) ∧
      ((∀ word ∈ words, cutWord word ≠ []) ↔ TidyFrom token a) := by
  induction fuel generalizing a with
  | zero => omega
  | succ fuel ih =>
    have whole : token.take 1000 = token := List.take_of_length_le (by omega)
    rcases Nat.eq_or_lt_of_le inside with atEnd | before
    · refine ⟨[], ?_, ?_, ?_⟩
      · rw [extractWords, atEnd, charAt_length]
        rfl
      · rw [atEnd, List.drop_length]
        rfl
      · refine iff_of_true (fun _ member => absurd member List.not_mem_nil) fun i c low _ here => ?_
        have within := (List.getElem?_eq_some_iff.mp here).1
        omega
    · have here : token[a]? = some token[a] := List.getElem?_eq_getElem before
      have present : token[a] ≠ '\x00' := fun nil => nul (nil ▸ List.getElem_mem _)
      have more : (charAt token a != '\x00' && decide (a < 1000)) = true := by
        simp only [charAt_some here, Bool.and_eq_true, bne_iff_ne, decide_eq_true_eq]
        exact ⟨present, by omega⟩
      obtain ⟨spaceless, rest⟩ := drop_word nul inside
      rw [extractWords, if_pos more, whole]
      change ∃ words, (let stop := scan wordChar token a
        let tmp := (token.drop a).take (stop - a)
        if charAt token stop = '\x00' then some [tmp]
        else (extractWords token fuel (stop + 1)).map (tmp :: ·)) = some words ∧ _
      simp only [take_scan]
      have first := cutWord_first before nul
      rcases rest with ⟨atEnd, alone⟩ | ⟨space, followed⟩
      · refine ⟨[(token.drop a).takeWhile wordChar], ?_, ?_, ?_⟩
        · rw [atEnd, charAt_length, if_pos rfl]
        · rw [← runs_word spaceless, ← alone]
        · rw [tidyFrom_word nul before, List.forall_mem_singleton, first]
          refine ⟨fun start => ⟨start, fun space => ?_⟩, fun tidy => tidy.1⟩
          rw [atEnd, List.getElem?_eq_none (Nat.le_refl _)] at space
          cases space
      · have within := (List.getElem?_eq_some_iff.mp space).1
        have low := le_scan wordChar token a
        obtain ⟨words, result, kept, cuts⟩ := ih (a := scan wordChar token a + 1) (by omega) (by omega)
        refine ⟨(token.drop a).takeWhile wordChar :: words, ?_, ?_, ?_⟩
        · rw [charAt_some space, if_neg (by decide), result]
          rfl
        · have split : runs (token.drop a) = _ := (congrArg runs followed).trans (runs_words spaceless _)
          rw [split, ← kept, ← List.filter_append]
          rfl
        · rw [tidyFrom_word nul before, List.forall_mem_cons, first, cuts]
          exact ⟨fun ⟨start, later⟩ => ⟨start, fun _ => later⟩, fun ⟨start, later⟩ => ⟨start, later space⟩⟩

def firstWord (token : Text) : Nat := scan (· == ' ') token 0

theorem sectionWords_spec (nul : '\x00' ∉ token) (short : token.length ≤ 999) : ∃ words,
    sectionWords token = some words ∧ (words.filter fun run => !run.isEmpty) = runs token ∧
      ((∀ word ∈ words, cutWord word ≠ []) ↔ TidyFrom token (firstWord token)) := by
  have inside : firstWord token ≤ token.length := scan_le_length (Nat.zero_le _)
  have rest : runs (token.drop (firstWord token)) = runs token := by
    rw [firstWord, drop_scan, List.drop_zero, runs_dropSpaces]
  rw [sectionWords, List.take_of_length_le (by omega), ← rest]
  exact extractWords_spec nul short inside (by omega)

theorem strtok_whole (semicolons : ';' ∉ token) (some' : token ≠ []) : strtok token = some (token, []) := by
  cases token with
  | nil => exact absurd rfl some'
  | cons c rest =>
    have start : (c == ';') = false := by
      rw [beq_eq_false_iff_ne]
      exact fun same => semicolons (same ▸ List.mem_cons_self)
    rw [strtok, List.dropWhile_cons, start]
    simp only [Bool.false_eq_true, if_false, takeWhile_ne_self semicolons, dropWhile_ne_self semicolons, List.tail_nil]

end words

/-- The interpreter is called once with the runs of the section, of which there is room for all, and each is a word still
when cut. An interpreter that does not parse another line leaves the place of `strtok` alone. -/
def SplitsExactly (token : Text) : Prop :=
  (∀ (σ : Type) (interpreter : List Text → LineState σ → Int × LineState σ) (shell : σ) (fuel : Nat),
    (∀ words s, (interpreter words s).2.left = s.left) →
      parseInput interpreter (fuel + 2) token shell = some (interpreter (runs token) ⟨[], shell⟩)) ∧
  (∀ word ∈ runs token, cutWord word ≠ []) ∧ (runs token).length ≤ 100

theorem parseInput_section {σ : Type} {interpreter : List Text → LineState σ → Int × LineState σ} {token : Text}
    {words : List Text} (semicolons : ';' ∉ token) (some' : token ≠ []) (split : sectionWords token = some words)
    (keeps : ∀ words s, (interpreter words s).2.left = s.left) (shell : σ) (fuel : Nat) :
    parseInput interpreter (fuel + 2) token shell = some (interpreter words ⟨[], shell⟩) := by
  have kept := keeps words ⟨[], shell⟩
  simp only [parseInput, parseSections, strtok_whole semicolons some', split, Option.bind_eq_bind, Option.bind_some]
  generalize interpreter words ⟨[], shell⟩ = r at kept
  obtain ⟨ret, left, rest⟩ := r
  obtain rfl : left = [] := kept
  split
  · rfl
  · rfl

/-- A section is split exactly if and only if neither its first word nor what stands behind a space is a space or begins
with the end of a line, and it has no more than a hundred words. -/
theorem parseInput_splits (token : Text) (nul : '\x00' ∉ token) (short : token.length ≤ 999) (semicolons : ';' ∉ token)
    (some' : token ≠ []) : SplitsExactly token ↔ TidyFrom token (firstWord token) ∧ (runs token).length ≤ 100 := by
  obtain ⟨words, split, kept, cuts⟩ := sectionWords_spec nul short
  rw [← cuts]
  constructor
  · rintro ⟨calls, whole, room⟩
    let record : List Text → LineState (List Text) → Int × LineState (List Text) := fun words s => (0, ⟨s.left, words⟩)
    have recorded := calls _ record [] 0 fun _ _ => rfl
    rw [parseInput_section semicolons some' split (fun _ _ => rfl)] at recorded
    have same : words = runs token := congrArg (fun r => r.2.shell) (Option.some_inj.mp recorded)
    exact ⟨same ▸ whole, room⟩
  · rintro ⟨whole, room⟩
    have same : words = runs token := by
      rw [← kept]
      refine (List.filter_eq_self.mpr fun word member => ?_).symm
      have cut := whole word member
      cases word with
      | nil => exact absurd rfl cut
      | cons c rest => rfl
    refine ⟨fun σ interpreter shell fuel keeps => ?_, same ▸ whole, room⟩
    rw [← same]
    exact parseInput_section semicolons some' split keeps shell fuel

theorem parseInput_splits_set : TidyFrom "set x 1\n".toList (firstWord "set x 1\n".toList) ∧
    (runs "set x 1\n".toList).length ≤ 100 ∧ SplitsExactly "set x 1\n".toList := by
  have tidy : TidyFrom "set x 1\n".toList (firstWord "set x 1\n".toList) := by
    intro i c low first here
    have inside : i < 8 := (List.getElem?_eq_some_iff.mp here).1
    revert low first here
    interval_cases i <;> intro low first here <;> obtain rfl := Option.some_inj.mp here <;> revert first <;> decide
  have room : (runs "set x 1\n".toList).length ≤ 100 := by decide
  exact ⟨tidy, room, (parseInput_splits _ (by decide) (by decide) (by decide) (by decide)).mpr ⟨tidy, room⟩⟩

/-- Two spaces in a row give an empty word. -/
theorem parseInput_empty_word : ¬ SplitsExactly "set x  1".toList := by
  rintro ⟨calls, -, -⟩
  have recorded := calls (List Text) (fun words s => (0, ⟨s.left, words⟩)) [] 0 fun _ _ => rfl
  have same := congrArg (Option.map fun r => r.2.shell) recorded
  revert same
  decide

end ShellOs.Kernel
