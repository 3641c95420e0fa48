import Mathlib.Logic.Relation
import Mathlib.Tactic.IntervalCases
import ShellOs.Kernel.ShellMemory
import ShellOs.Lib.Scan

/-! The command line of the shell with demand paging (`parseInput` of its shell.c): words are cut out of a line, and a
semicolon has the words before it interpreted. -/

namespace ShellOs.Paging
open Lib
open Kernel (Text)

/-- `ui[a]`, where the line ends with a null character. -/
def charAt (ui : Text) (a : Nat) : Char := ui.getD a '\x00'

def inWord (c : Char) : Bool := c != ';' && c != '\x00' && c != '\n' && c != ' '

/-- The cursor, the words of the command so far, and what the interpreter works on. -/
structure ParseState (σ : Type) where
  a : Nat
  words : List Text
  shell : σ

def moreInput (ui : Text) (a : Nat) : Bool :=
  a < 1000 && a < ui.length && charAt ui a != '\n' && charAt ui a != '\x00'

section loop

variable {σ : Type} (interpreter : List Text → σ → Int × σ) (ui : Text)

/-- One iteration of the loop. It ends the loop with an error code, or leaves the state for the next iteration. The
arrays `tmp` and `words` are taken to be large enough. -/
def parseIteration (p : ParseState σ) : Except (Int × σ) (ParseState σ) :=
  let a := scan (· == ' ') ui p.a
  if charAt ui a = '\x00' then .error (interpreter p.words p.shell)
  else
    let stop := scan inWord (ui.take 1000) a
    let tmp := (ui.drop a).take (stop - a)
    -- `continue` without a word: the cursor stays where the word should have begun.
    if tmp.length = 0 then .ok { p with a := stop }
    else if charAt ui stop = ';' then
      let r := interpreter (p.words ++ [tmp]) p.shell
      if r.1 = -1 then .error r
      else .ok ⟨scan (· == ' ') (ui.take 1000) (stop + 1), [], r.2⟩
    else .ok { p with a := stop + 1, words := p.words ++ [tmp] }

/-- The loop, and the command behind the last semicolon. `none` is a loop that is not done within the fuel. -/
def parseLoop : Nat → ParseState σ → Option (Int × σ)
  | 0, _ => none
  | fuel + 1, p =>
    if moreInput ui p.a then
      match parseIteration interpreter ui p with
      | .error r => some r
      | .ok p => parseLoop fuel p
    else some (interpreter p.words p.shell)

def parseStart (shell : σ) : ParseState σ := ⟨scan (· == ' ') (ui.take 1000) 0, [], shell⟩

def parseInput (fuel : Nat) (shell : σ) : Option (Int × σ) := parseLoop interpreter ui fuel (parseStart ui shell)

def Iterates (p q : ParseState σ) : Prop := moreInput ui p.a = true ∧ parseIteration interpreter ui p = .ok q

def MakesProgress (shell : σ) : Prop :=
  ∀ p q, Relation.ReflTransGen (Iterates interpreter ui) (parseStart ui shell) p → Iterates interpreter ui p q → p.a < q.a

def Ends (shell : σ) : Prop := ∃ fuel r, parseInput interpreter ui fuel shell = some r

end loop

def FollowsWord (ui : Text) (i : Nat) : Prop := ∃ j c, i = j + 1 ∧ ui[j]? = some c ∧ inWord c = true

/-- Each semicolon comes directly after a word, up to the newline that does not and so ends the line. -/
def ClosesWords (ui : Text) : Prop :=
  ∀ i, ui[i]? = some ';' → (∀ k < i, ui[k]? = some '\n' → FollowsWord ui k) → FollowsWord ui i

section iterations

variable {σ : Type} {interpreter : List Text → σ → Int × σ} {ui : Text} {p q : ParseState σ} {a i stop : Nat}

theorem charAt_of_some {c : Char} (here : ui[a]? = some c) : charAt ui a = c := by
  rw [charAt, List.getD_eq_getElem?_getD, here, Option.getD_some]

theorem charAt_end (nul : '\x00' ∉ ui) : charAt ui a = '\x00' ↔ ui.length ≤ a := by
  constructor
  · intro atEnd
    by_contra inside
    have here : ui[a]? = some ui[a] := List.getElem?_eq_getElem (Nat.lt_of_not_le inside)
    rw [charAt_of_some here] at atEnd
    exact nul (atEnd ▸ List.getElem_mem _)
  · intro beyond
    rw [charAt, List.getD_eq_getElem?_getD, List.getElem?_eq_none beyond, Option.getD_none]

/-- A place that no word ends before, and that the loop can come to: the newlines before it all close a word. -/
def Boundary (ui : Text) (a : Nat) : Prop := ¬ FollowsWord ui a ∧ ∀ k < a, ui[k]? = some '\n' → FollowsWord ui k

theorem not_followsWord_succ (separates : ∀ c, ui[a]? = some c → inWord c = false) : ¬ FollowsWord ui (a + 1) := by
  rintro ⟨j, c, same, here, inside⟩
  obtain rfl : a = j := by omega
  rw [separates c here] at inside
  cases inside

theorem boundary_zero : Boundary ui 0 := by
  refine ⟨?_, fun k before => absurd before (Nat.not_lt_zero k)⟩
  rintro ⟨j, -, same, -⟩
  omega

theorem Boundary.skip (boundary : Boundary ui a) : Boundary ui (scan (· == ' ') ui a) := by
  have space : ∀ k, a ≤ k → k < scan (· == ' ') ui a → ui[k]? = some ' ' := by
    intro k low high
    obtain ⟨c, here, blank⟩ := scan_passes low high
    rw [here, eq_of_beq blank]
  constructor
  · rcases Nat.eq_or_lt_of_le (le_scan (· == ' ') ui a) with same | moved
    · exact same ▸ boundary.1
    · obtain ⟨before, behind⟩ : ∃ before, scan (· == ' ') ui a = before + 1 := ⟨scan (· == ' ') ui a - 1, by omega⟩
      rw [behind]
      refine not_followsWord_succ fun c here => ?_
      rw [space before (by omega) (by omega), Option.some_inj] at here
      exact here ▸ rfl
  · intro k before newline
    by_cases low : a ≤ k
    · rw [space k low before] at newline
      cases newline
    · exact boundary.2 k (by omega) newline

structure WordAt (ui : Text) (a stop : Nat) : Prop where
  begins : a < stop
  inside : ∀ k, a ≤ k → k < stop → ∃ c, ui[k]? = some c ∧ inWord c = true
  separates : ∀ c, ui[stop]? = some c → inWord c = false

theorem WordAt.followsWord (word : WordAt ui a stop) : FollowsWord ui stop := by
  obtain ⟨last, behind⟩ : ∃ last, stop = last + 1 := ⟨stop - 1, by have := word.begins; omega⟩
  obtain ⟨c, here, member⟩ := word.inside last (by have := word.begins; omega) (by omega)
  exact ⟨last, c, behind, here, member⟩

theorem Boundary.pass (boundary : Boundary ui a) (word : WordAt ui a stop) : Boundary ui (stop + 1) := by
  refine ⟨not_followsWord_succ word.separates, fun k before newline => ?_⟩
  rcases Nat.eq_or_lt_of_le (Nat.lt_succ_iff.mp before) with rfl | earlier
  · exact word.followsWord
  · by_cases behind : a ≤ k
    · obtain ⟨c, there, member⟩ := word.inside k behind earlier
      rw [newline, Option.some_inj] at there
      rw [← there] at member
      cases member
    · exact boundary.2 k (by omega) newline

theorem iteration_cases (interpreter : List Text → σ → Int × σ) (p : ParseState σ) (nul : '\x00' ∉ ui)
    (short : ui.length ≤ 999) (skipped : scan (· == ' ') ui p.a = a) :
    (ui.length ≤ a ∧ parseIteration interpreter ui p = .error (interpreter p.words p.shell)) ∨
    ((ui[a]? = some ';' ∨ ui[a]? = some '\n') ∧ parseIteration interpreter ui p = .ok { p with a := a }) ∨
    ∃ stop tmp, WordAt ui a stop ∧ parseIteration interpreter ui p =
      if ui[stop]? = some ';' then
        let r := interpreter (p.words ++ [tmp]) p.shell
        if r.1 = -1 then .error r else .ok ⟨scan (· == ' ') ui (stop + 1), [], r.2⟩
      else .ok { p with a := stop + 1, words := p.words ++ [tmp] } := by
  have whole : ui.take 1000 = ui := List.take_of_length_le (by omega)
  by_cases atEnd : ui.length ≤ a
  · refine .inl ⟨atEnd, ?_⟩
    rw [parseIteration, skipped, if_pos ((charAt_end nul).mpr atEnd)]
  have more : charAt ui a ≠ '\x00' := fun same => atEnd ((charAt_end nul).mp same)
  have here : ui[a]? = some ui[a] := List.getElem?_eq_getElem (by omega)
  have size : ((ui.drop a).take (scan inWord ui a - a)).length = scan inWord ui a - a := by
    have inside := scan_le_length (p := inWord) (Nat.le_of_not_le atEnd)
    rw [List.length_take, List.length_drop]
    omega
  right
  rw [parseIteration, skipped, whole]
  simp only [if_neg more, size]
  rcases Nat.eq_or_lt_of_le (le_scan inWord ui a) with same | begins
  · -- no word begins here, so the character is a separator, and it is not a space
    left
    constructor
    · have stops : inWord ui[a] = false := scan_stop (l := ui) (a := a) (by rw [← same, here])
      have space : (ui[a] == ' ') = false := scan_stop (p := (· == ' ')) (l := ui) (a := p.a) (by rw [skipped, here])
      have present : ui[a] ≠ '\x00' := fun nil => nul (nil ▸ List.getElem_mem _)
      simp only [inWord, Bool.and_eq_false_iff, bne_eq_false_iff_eq] at stops
      rw [here, Option.some_inj, Option.some_inj]
      rcases stops with ((semicolon | nil) | newline) | blank
      · exact .inl semicolon
      · exact absurd nil present
      · exact .inr newline
      · rw [blank] at space
        cases space
    · rw [if_pos (by omega), ← same]
  · right
    refine ⟨scan inWord ui a, (ui.drop a).take (scan inWord ui a - a),
      ⟨begins, fun k low high => scan_passes low high, fun c there => scan_stop there⟩, ?_⟩
    have semicolon : charAt ui (scan inWord ui a) = ';' ↔ ui[scan inWord ui a]? = some ';' := by
      refine ⟨fun same => ?_, charAt_of_some⟩
      have inside : scan inWord ui a < ui.length := by
        by_contra beyond
        rw [(charAt_end nul).mpr (Nat.le_of_not_lt beyond)] at same
        cases same
      have there : ui[scan inWord ui a]? = some ui[scan inWord ui a] := List.getElem?_eq_getElem inside
      rw [there, ← charAt_of_some there, same]
    rw [if_neg (by omega)]
    simp only [semicolon]

theorem iteration_step (nul : '\x00' ∉ ui) (short : ui.length ≤ 999) (closes : ClosesWords ui) (boundary : Boundary ui p.a)
    (iterates : Iterates interpreter ui p q) : Boundary ui q.a ∧ p.a < q.a := by
  obtain ⟨more, next⟩ := iterates
  have low := le_scan (· == ' ') ui p.a
  have skipped := boundary.skip
  rcases iteration_cases interpreter p nul short rfl with
    ⟨-, result⟩ | ⟨separator, result⟩ | ⟨stop, tmp, word, result⟩
  · rw [result] at next
    cases next
  · rw [result] at next
    obtain rfl := Except.ok.inj next
    rcases separator with semicolon | newline
    · exact absurd (closes _ semicolon skipped.2) skipped.1
    · refine ⟨skipped, Nat.lt_of_le_of_ne low fun same => ?_⟩
      change p.a = scan (· == ' ') ui p.a at same
      rw [← same] at newline
      simp [moreInput, charAt_of_some newline] at more
  · have moved : p.a < stop + 1 := by
      have begins := word.begins
      omega
    have after := skipped.pass word
    rw [result] at next
    split at next
    · simp only at next
      split at next
      · cases next
      · obtain rfl := Except.ok.inj next
        exact ⟨after.skip, Nat.lt_of_lt_of_le moved (le_scan (· == ' ') ui (stop + 1))⟩
    · obtain rfl := Except.ok.inj next
      exact ⟨after, moved⟩

/-- A semicolon at which no word ends is never passed, whatever the interpreter does, short of ending the shell. -/
theorem iteration_stuck (nul : '\x00' ∉ ui) (short : ui.length ≤ 999) (semicolon : ui[i]? = some ';')
    (newlines : ∀ k < i, ui[k]? = some '\n' → FollowsWord ui k) (alone : ¬ FollowsWord ui i)
    (goesOn : ∀ words s, (interpreter words s).1 ≠ -1) (boundary : Boundary ui p.a) (before : p.a ≤ i) :
    ∃ q, Iterates interpreter ui p q ∧ Boundary ui q.a ∧ q.a ≤ i := by
  have inside : i < ui.length := (List.getElem?_eq_some_iff.mp semicolon).1
  have stay : ∀ a, a ≤ i → scan (· == ' ') ui a ≤ i := fun a low => scan_le low semicolon rfl
  have more : moreInput ui p.a = true := by
    have here : ui[p.a]? = some ui[p.a] := List.getElem?_eq_getElem (by omega)
    have noNewline : ui[p.a] ≠ '\n' := by
      intro newline
      rw [newline] at here
      have earlier : p.a < i := by
        refine Nat.lt_of_le_of_ne before fun same => ?_
        rw [same, semicolon] at here
        cases here
      exact boundary.1 (newlines p.a earlier here)
    have present : ui[p.a] ≠ '\x00' := fun nil => nul (nil ▸ List.getElem_mem _)
    simp only [moreInput, charAt_of_some here, Bool.and_eq_true, decide_eq_true_eq, bne_iff_ne]
    exact ⟨⟨⟨by omega, by omega⟩, noNewline⟩, present⟩
  have skipped := boundary.skip
  rcases iteration_cases interpreter p nul short rfl with
    ⟨atEnd, -⟩ | ⟨-, result⟩ | ⟨stop, tmp, word, result⟩
  · have low := stay p.a before
    omega
  · exact ⟨_, ⟨more, result⟩, skipped, stay p.a before⟩
  · have ahead : stop < i := by
      by_contra beyond
      rcases Nat.eq_or_lt_of_le (Nat.le_of_not_lt beyond) with rfl | passed
      · exact alone word.followsWord
      · obtain ⟨c, there, member⟩ := word.inside i (stay p.a before) passed
        rw [semicolon, Option.some_inj] at there
        rw [← there] at member
        cases member
    have after := skipped.pass word
    split at result
    · simp only [if_neg (goesOn _ _)] at result
      exact ⟨_, ⟨more, result⟩, after.skip, stay _ ahead⟩
    · exact ⟨_, ⟨more, result⟩, after, ahead⟩

theorem start_boundary (short : ui.length ≤ 999) (shell : σ) : Boundary ui (parseStart ui shell).a := by
  rw [parseStart, List.take_of_length_le (by omega)]
  exact boundary_zero.skip

theorem ends_of_progress (steps : ∀ p q, Boundary ui p.a → Iterates interpreter ui p q → Boundary ui q.a ∧ p.a < q.a)
    (fuel : Nat) (boundary : Boundary ui p.a) (enough : ui.length < fuel + p.a) :
    ∃ r, parseLoop interpreter ui (fuel + 1) p = some r := by
  induction fuel generalizing p with
  | zero =>
    have done : moreInput ui p.a = false := by
      have beyond : ¬ p.a < ui.length := by omega
      simp [moreInput, beyond]
    exact ⟨_, by rw [parseLoop, if_neg (by rw [done]; exact Bool.false_ne_true)]⟩
  | succ fuel ih =>
    rw [parseLoop]
    split
    next more =>
      cases result : parseIteration interpreter ui p with
      | error r => exact ⟨r, rfl⟩
      | ok q =>
        obtain ⟨after, moved⟩ := steps p q boundary ⟨more, result⟩
        exact ih after (by omega)
    next => exact ⟨_, rfl⟩

theorem stuck_never_ends {stuck : ParseState σ → Prop} (goes : ∀ p, stuck p → ∃ q, Iterates interpreter ui p q ∧ stuck q)
    (fuel : Nat) (here : stuck p) : parseLoop interpreter ui fuel p = none := by
  induction fuel generalizing p with
  | zero => rfl
  | succ fuel ih =>
    obtain ⟨q, ⟨more, result⟩, there⟩ := goes p here
    rw [parseLoop, if_pos more, result]
    exact ih there

theorem parseInput_stuck (nul : '\x00' ∉ ui) (short : ui.length ≤ 999) (semicolon : ui[i]? = some ';')
    (newlines : ∀ k < i, ui[k]? = some '\n' → FollowsWord ui k) (alone : ¬ FollowsWord ui i)
    (goesOn : ∀ words s, (interpreter words s).1 ≠ -1) (shell : σ) : ¬ Ends interpreter ui shell := by
  rintro ⟨fuel, r, done⟩
  have low : (parseStart ui shell).a ≤ i := by
    rw [parseStart, List.take_of_length_le (by omega)]
    exact scan_le (Nat.zero_le i) semicolon rfl
  have goes : ∀ p : ParseState σ, Boundary ui p.a ∧ p.a ≤ i → ∃ q, Iterates interpreter ui p q ∧ Boundary ui q.a ∧ q.a ≤ i :=
    fun p here => iteration_stuck nul short semicolon newlines alone goesOn here.1 here.2
  have never : parseInput interpreter ui fuel shell = none := stuck_never_ends goes fuel ⟨start_boundary short shell, low⟩
  rw [never] at done
  cases done

end iterations

/-- The loop is done with a line, in steps that each move on and whatever the interpreter does, if and only if each
semicolon, up to the newline that ends the line, comes directly after a word. -/
theorem parseInput_terminates (ui : Text) (nul : '\x00' ∉ ui) (short : ui.length ≤ 999) :
    (∀ (σ : Type) (interpreter : List Text → σ → Int × σ) (shell : σ),
      MakesProgress interpreter ui shell ∧ Ends interpreter ui shell) ↔ ClosesWords ui := by
  constructor
  · intro all i semicolon newlines
    by_contra alone
    let idle : List Text → Unit → Int × Unit := fun _ _ => (0, ())
    exact parseInput_stuck nul short semicolon newlines alone (fun _ _ => by decide) () (all Unit idle ()).2
  · intro closes σ interpreter shell
    have start := start_boundary short shell
    have steps : ∀ p q, Boundary ui p.a → Iterates interpreter ui p q → Boundary ui q.a ∧ p.a < q.a :=
      fun p q boundary iterates => iteration_step nul short closes boundary iterates
    constructor
    · have boundary : ∀ p, Relation.ReflTransGen (Iterates interpreter ui) (parseStart ui shell) p → Boundary ui p.a := by
        intro p reached
        induction reached with
        | refl => exact start
        | tail _ last ih => exact (steps _ _ ih last).1
      intro p q reached iterates
      exact (steps p q (boundary p reached) iterates).2
    · exact ⟨ui.length + 2, ends_of_progress steps (ui.length + 1) start (by omega)⟩

theorem parseInput_terminates_words : ClosesWords "ls;quit\n".toList ∧
    ∀ (σ : Type) (interpreter : List Text → σ → Int × σ) (shell : σ),
      MakesProgress interpreter "ls;quit\n".toList shell ∧ Ends interpreter "ls;quit\n".toList shell := by
  have closes : ClosesWords "ls;quit\n".toList := by
    intro i semicolon _
    have inside : i < 8 := (List.getElem?_eq_some_iff.mp semicolon).1
    have place : i = 2 := by
      revert semicolon
      interval_cases i <;> decide
    exact ⟨1, 's', place, rfl, rfl⟩
  exact ⟨closes, (parseInput_terminates _ (by decide) (by decide)).mpr closes⟩

/-- The space before the semicolon is enough. -/
theorem parseInput_hangs : ¬ Ends (fun _ (_ : Unit) => (0, ())) "ls ;\n".toList () := by
  have semicolon : "ls ;\n".toList[3]? = some ';' := rfl
  have alone : ¬ FollowsWord "ls ;\n".toList 3 := by
    rintro ⟨j, c, same, here, inside⟩
    obtain rfl : j = 2 := by omega
    obtain rfl : ' ' = c := Option.some_inj.mp here
    cases inside
  have newlines : ∀ k < 3, "ls ;\n".toList[k]? = some '\n' → FollowsWord "ls ;\n".toList k := by
    intro k before newline
    revert newline
    interval_cases k <;> exact fun newline => absurd newline (by decide)
  exact parseInput_stuck (by decide) (by decide) semicolon newlines alone (fun _ _ => by decide) ()

end ShellOs.Paging
