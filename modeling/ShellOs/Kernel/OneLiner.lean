import ShellOs.Kernel.CommandLine

/-! Lines of several commands (`parseInput` of shell.c), some of which execute scripts that are parsed in turn. -/

namespace ShellOs.Kernel
open Lib

/-- The lines that `run_proc_RR` executes, each chosen with what has come of the ones before it. -/
inductive Script (σ : Type) where
  | finish (shell : σ)
  | line (text : Text) (shell : σ) (next : Int → σ → Script σ)

/-- What `interpreter` does with a command: it returns, or it is a `run` or an `exec`, which returns 0 when the scripts
are executed. -/
inductive Command (σ : Type) where
  | ret (result : Int) (shell : σ)
  | scripts (script : Script σ)

/-- The place that `strtok` keeps: how deep the `parseInput` with this line is nested, and what is left of the line. -/
structure Place where
  depth : Nat
  left : Text

structure Call where
  depth : Nat
  token : Text
  words : List Text
  ret : Int

/-- What comes of a `parseInput`: its own calls, its result, and the place at which `strtok` is left. -/
structure Parsed (σ : Type) where
  calls : List Call
  ret : Int
  place : Place
  shell : σ

section nested

variable {σ : Type}

def Script.execute (parse : Text → σ → Option (Parsed σ)) : Script σ → Place → Option (Place × σ)
  | .finish shell, place => some (place, shell)
  | .line text shell next, _ => (parse text shell).bind fun r => (next r.ret r.shell).execute parse r.place

def Command.interpret (parse : Text → σ → Option (Parsed σ)) : Command σ → Place → Option (Int × Place × σ)
  | .ret result shell, place => some (result, place, shell)
  | .scripts script, place => (script.execute parse place).map fun r => (0, r)

def parseCalls (interpreter : List Text → Place → σ → Option (Int × Place × σ)) :
    Nat → Int → Place → σ → Option (Parsed σ)
  | 0, _, _, _ => none
  | fuel + 1, ret, place, shell =>
    match strtok place.left with
    | none => some ⟨[], ret, { place with left := [] }, shell⟩
    | some (token, left) => do
      let words ← sectionWords token
      let (ret, behind, shell) ← interpreter words { place with left := left } shell
      let call : Call := ⟨place.depth, token, words, ret⟩
      if ret = -1 then some ⟨[call], ret, { behind with left := passSection behind.left }, shell⟩
      else (parseCalls interpreter fuel ret behind shell).map fun r => { r with calls := call :: r.calls }

/-- `parseInput`, nested this deep, with an interpreter that calls it for the lines of scripts. -/
def parseNested (command : List Text → σ → Command σ) : Nat → Nat → Text → σ → Option (Parsed σ)
  | 0, _, _, _ => none
  | fuel + 1, depth, ui, shell =>
    parseCalls (fun words place shell => (command words shell).interpret (parseNested command fuel (depth + 1)) place)
      (fuel + 1) 0 ⟨depth, ui⟩ shell

def sections (line : Text) : List Text := pieces ';' line

/-- The interpreter is called for each section of the line in order, up to one that returns -1, and for nothing else;
the words of each section fit into the array. -/
structure CallsEach (depth : Nat) (sections : List Text) (calls : List Call) : Prop where
  inOrder : (calls.map fun call => (call.depth, call.token)) <+: sections.map (Prod.mk depth)
  early : calls.length < sections.length → ∃ call, calls.getLast? = some call ∧ call.ret = -1
  room : ∀ call ∈ calls, call.words.length ≤ 100

def Command.plain : Command σ → Option (Int × σ)
  | .ret result shell => some (result, shell)
  | .scripts (.finish shell) => some (0, shell)
  | .scripts (.line ..) => none

/-- The scripts of a command come to an end, and of the last of their lines no section is left over. -/
def Exhausts (command : List Text → σ → Command σ) (depth : Nat) (words : List Text) (shell : σ) : Prop :=
  ∃ fuel result place after, (command words shell).interpret (parseNested command fuel (depth + 1)) ⟨depth, []⟩ =
    some (result, place, after) ∧ (result = -1 ∨ sections place.left = [])

/-- No section with another one behind it executes a line of a script, as far as the sections are reached. -/
def Undisturbed (command : List Text → σ → Command σ) (depth : Nat) : List Text → σ → Prop
  | [], _ => True
  | token :: rest, shell => ∃ words, sectionWords token = some words ∧ words.length ≤ 100 ∧
    if rest.isEmpty then Exhausts command depth words shell
    else ∃ result after, (command words shell).plain = some (result, after) ∧
      (result = -1 ∨ Undisturbed command depth rest after)

end nested

theorem strtok_none {line : Text} (none' : strtok line = none) : sections line = [] := by
  rw [strtok] at none'
  split at none'
  next only => exact pieces_none only
  next => cases none'

theorem strtok_some {line token left : Text} (next : strtok line = some (token, left)) :
    sections line = token :: sections left := by
  rw [strtok] at next
  split at next
  next => cases next
  next rest some' =>
    obtain ⟨rfl, rfl⟩ := Prod.mk.inj (Option.some_inj.mp next)
    cases start : line.dropWhile (· == ';') with
    | nil => exact absurd start some'
    | cons c rest => exact pieces_first start

theorem strtok_of_sections {line token : Text} {rest : List Text} (cut : sections line = token :: rest) :
    ∃ left, strtok line = some (token, left) ∧ sections left = rest := by
  cases next : strtok line with
  | none =>
    rw [strtok_none next] at cut
    cases cut
  | some both =>
    obtain ⟨first, left⟩ := both
    rw [strtok_some next] at cut
    obtain ⟨rfl, rfl⟩ := List.cons.inj cut
    exact ⟨left, rfl, rfl⟩

section depth

variable {σ : Type} {parse parse' : Text → σ → Option (Parsed σ)} {command : List Text → σ → Command σ} {c : Command σ}
  {script : Script σ} {place behind : Place} {shell after : σ} {result : Int} {fuel more depth : Nat} {r : Parsed σ}
  {interpreter interpreter' : List Text → Place → σ → Option (Int × Place × σ)} {ret : Int} {ui : Text}

theorem Script.execute_depth {P : Nat → Prop} (deep : ∀ text shell r, parse text shell = some r → P r.place.depth)
    (start : P place.depth) (result : script.execute parse place = some (behind, after)) : P behind.depth := by
  induction script generalizing place with
  | finish shell =>
    obtain ⟨rfl, -⟩ := Prod.mk.inj (Option.some_inj.mp result)
    exact start
  | line text shell next ih =>
    obtain ⟨r, parsed, result⟩ := Option.bind_eq_some_iff.mp result
    exact ih r.ret r.shell (deep text shell r parsed) result

theorem Command.interpret_plain (plain : c.plain = some (result, after)) (parse : Text → σ → Option (Parsed σ))
    (place : Place) : c.interpret parse place = some (result, place, after) := by
  cases c with
  | ret =>
    obtain ⟨rfl, rfl⟩ := Prod.mk.inj (Option.some_inj.mp plain)
    rfl
  | scripts script =>
    cases script with
    | finish =>
      obtain ⟨rfl, rfl⟩ := Prod.mk.inj (Option.some_inj.mp plain)
      rfl
    | line => cases plain

theorem Command.interpret_place (scripts : c.plain = none) (parse : Text → σ → Option (Parsed σ))
    (place other : Place) : c.interpret parse place = c.interpret parse other := by
  cases c with
  | ret => cases scripts
  | scripts script =>
    cases script with
    | finish => cases scripts
    | line => rfl

theorem Command.interpret_scripts {P : Nat → Prop} (scripts : c.plain = none)
    (deep : ∀ text shell r, parse text shell = some r → P r.place.depth)
    (run : c.interpret parse place = some (result, behind, after)) : result = 0 ∧ P behind.depth := by
  cases c with
  | ret => cases scripts
  | scripts script =>
    obtain ⟨⟨_, _⟩, executed, ⟨⟩⟩ := Option.map_eq_some_iff.mp run
    refine ⟨rfl, ?_⟩
    cases script with
    | finish => cases scripts
    | line text shell next =>
      obtain ⟨r, parsed, executed⟩ := Option.bind_eq_some_iff.mp executed
      exact Script.execute_depth deep (deep text shell r parsed) executed

theorem Command.interpret_depth {P : Nat → Prop} (deep : ∀ text shell r, parse text shell = some r → P r.place.depth)
    (start : P place.depth) (run : c.interpret parse place = some (result, behind, after)) : P behind.depth := by
  cases plain : c.plain with
  | none => exact (Command.interpret_scripts plain deep run).2
  | some both =>
    rw [Command.interpret_plain plain] at run
    obtain ⟨-, same⟩ := Prod.mk.inj (Option.some_inj.mp run)
    obtain ⟨rfl, -⟩ := Prod.mk.inj same
    exact start

theorem parseCalls_done (nothing : sections place.left = []) :
    parseCalls interpreter (fuel + 1) ret place shell = some ⟨[], ret, { place with left := [] }, shell⟩ := by
  have done : strtok place.left = none := by
    cases next : strtok place.left with
    | none => rfl
    | some both =>
      rw [strtok_some next] at nothing
      cases nothing
  rw [parseCalls, done]

def afterCall (interpreter : List Text → Place → σ → Option (Int × Place × σ)) (fuel : Nat) (call : Call)
    (behind : Place) (after : σ) : Option (Parsed σ) :=
  if call.ret = -1 then some ⟨[call], call.ret, { behind with left := passSection behind.left }, after⟩
  else (parseCalls interpreter fuel call.ret behind after).map fun r => { r with calls := call :: r.calls }

theorem parseCalls_step {token left : Text} {words : List Text} (next : strtok place.left = some (token, left))
    (cut : sectionWords token = some words)
    (called : interpreter words ⟨place.depth, left⟩ shell = some (result, behind, after)) (fuel : Nat) (ret : Int) :
    parseCalls interpreter (fuel + 1) ret place shell =
      afterCall interpreter fuel ⟨place.depth, token, words, result⟩ behind after := by
  rw [parseCalls, next]
  simp only [cut, called, Option.bind_eq_bind, Option.bind_some]
  rfl

theorem parseCalls_cases (run : parseCalls interpreter (fuel + 1) ret place shell = some r) :
    (strtok place.left = none ∧ r = ⟨[], ret, { place with left := [] }, shell⟩) ∨
    ∃ token left words result behind after, strtok place.left = some (token, left) ∧ sectionWords token = some words ∧
      interpreter words ⟨place.depth, left⟩ shell = some (result, behind, after) ∧
      afterCall interpreter fuel ⟨place.depth, token, words, result⟩ behind after = some r := by
  rw [parseCalls] at run
  split at run
  next done => exact .inl ⟨done, (Option.some_inj.mp run).symm⟩
  next token left next =>
    obtain ⟨words, cut, run⟩ := Option.bind_eq_some_iff.mp run
    obtain ⟨⟨result, behind, after⟩, called, run⟩ := Option.bind_eq_some_iff.mp run
    exact .inr ⟨token, left, words, result, behind, after, next, cut, called, run⟩

theorem afterCall_cases {call : Call} (run : afterCall interpreter fuel call behind after = some r) :
    (call.ret = -1 ∧ r = ⟨[call], call.ret, { behind with left := passSection behind.left }, after⟩) ∨
    (call.ret ≠ -1 ∧ ∃ rest, parseCalls interpreter fuel call.ret behind after = some rest ∧
      r = { rest with calls := call :: rest.calls }) := by
  rw [afterCall] at run
  split at run
  next quit => exact .inl ⟨quit, (Option.some_inj.mp run).symm⟩
  next goesOn =>
    obtain ⟨rest, later, same⟩ := Option.map_eq_some_iff.mp run
    exact .inr ⟨goesOn, rest, later, same.symm⟩

theorem parseCalls_depth {P : Nat → Prop} (keeps : ∀ words place shell result behind after, P place.depth →
      interpreter words place shell = some (result, behind, after) → P behind.depth)
    (start : P place.depth) (run : parseCalls interpreter fuel ret place shell = some r) :
    P r.place.depth ∧ ∀ call ∈ r.calls, P call.depth := by
  induction fuel generalizing ret place shell r with
  | zero => cases run
  | succ fuel ih =>
    rcases parseCalls_cases run with ⟨-, rfl⟩ | ⟨token, left, words, result, behind, after, -, -, called, run⟩
    · exact ⟨start, fun call member => absurd member List.not_mem_nil⟩
    · have deep : P behind.depth := keeps words ⟨place.depth, left⟩ shell result behind after start called
      rcases afterCall_cases run with ⟨-, rfl⟩ | ⟨-, rest, later, rfl⟩
      · exact ⟨deep, fun call member => List.mem_singleton.mp member ▸ start⟩
      · obtain ⟨last, calls⟩ := ih deep later
        exact ⟨last, List.forall_mem_cons.mpr ⟨start, calls⟩⟩

theorem parseNested_depth (run : parseNested command fuel depth ui shell = some r) : depth ≤ r.place.depth := by
  induction fuel generalizing depth ui shell r with
  | zero => cases run
  | succ fuel ih =>
    have deep : ∀ text shell r, parseNested command fuel (depth + 1) text shell = some r → depth ≤ r.place.depth :=
      fun text shell r parsed => Nat.le_of_succ_le (ih parsed)
    have keeps := parseCalls_depth (P := (depth ≤ ·))
      (fun _ _ _ _ _ _ start called => Command.interpret_depth deep start called) (Nat.le_refl depth) run
    exact keeps.1

theorem Script.execute_mono (same : ∀ text shell r, parse text shell = some r → parse' text shell = some r)
    (result : script.execute parse place = some (behind, after)) :
    script.execute parse' place = some (behind, after) := by
  induction script generalizing place with
  | finish => exact result
  | line text shell next ih =>
    obtain ⟨r, parsed, result⟩ := Option.bind_eq_some_iff.mp result
    rw [Script.execute, same text shell r parsed]
    exact ih r.ret r.shell result

theorem Command.interpret_mono (same : ∀ text shell r, parse text shell = some r → parse' text shell = some r)
    (run : c.interpret parse place = some (result, behind, after)) :
    c.interpret parse' place = some (result, behind, after) := by
  cases c with
  | ret => exact run
  | scripts script =>
    obtain ⟨⟨_, _⟩, executed, ⟨⟩⟩ := Option.map_eq_some_iff.mp run
    rw [Command.interpret, Script.execute_mono same executed]
    rfl

theorem parseCalls_mono (same : ∀ words place shell r, interpreter words place shell = some r →
      interpreter' words place shell = some r)
    (run : parseCalls interpreter fuel ret place shell = some r) (le : fuel ≤ more) :
    parseCalls interpreter' more ret place shell = some r := by
  induction fuel generalizing ret place shell r more with
  | zero => cases run
  | succ fuel ih =>
    obtain ⟨more, rfl⟩ := Nat.exists_eq_add_of_lt le
    rcases parseCalls_cases run with ⟨done, rfl⟩ | ⟨token, left, words, result, behind, after, next, cut, called, run⟩
    · rw [parseCalls, done]
    · rw [parseCalls_step next cut (same words _ shell _ called), afterCall]
      rcases afterCall_cases run with ⟨quit, rfl⟩ | ⟨goesOn, rest, later, rfl⟩
      · rw [if_pos quit]
      · rw [if_neg goesOn, ih later (Nat.le_add_right fuel more)]
        rfl

theorem parseNested_mono (run : parseNested command fuel depth ui shell = some r) (le : fuel ≤ more) :
    parseNested command more depth ui shell = some r := by
  induction fuel generalizing depth ui shell r more with
  | zero => cases run
  | succ fuel ih =>
    obtain ⟨more, rfl⟩ := Nat.exists_eq_add_of_lt le
    refine parseCalls_mono (fun words place shell called run => ?_) run (by omega)
    exact Command.interpret_mono (fun text shell r parsed => ih parsed (Nat.le_add_right fuel more)) run

theorem parseCalls_none (run : parseCalls interpreter fuel ret place shell = some r) (none' : r.calls = []) :
    sections place.left = [] := by
  cases fuel with
  | zero => cases run
  | succ fuel =>
    rcases parseCalls_cases run with ⟨done, -⟩ | ⟨token, left, words, result, behind, after, -, -, -, run⟩
    · exact strtok_none done
    · rcases afterCall_cases run with ⟨-, rfl⟩ | ⟨-, rest, -, rfl⟩
      · cases none'
      · cases none'

end depth

section each

variable {σ : Type} {command : List Text → σ → Command σ} {depth fuel n : Nat} {line token : Text} {rest : List Text}
  {shell : σ} {ret : Int} {r : Parsed σ} {call : Call} {calls : List Call} {words : List Text}

theorem CallsEach.tail (each : CallsEach depth (token :: rest) (call :: calls)) (goesOn : call.ret ≠ -1) :
    CallsEach depth rest calls where
  inOrder := (List.cons_prefix_cons.mp each.inOrder).2
  early short := by
    obtain ⟨last, found, quit⟩ := each.early (Nat.succ_lt_succ short)
    cases calls with
    | nil =>
      obtain rfl := Option.some_inj.mp found
      exact absurd quit goesOn
    | cons other later => exact ⟨last, by rwa [List.getLast?_cons_cons] at found, quit⟩
  room other member := each.room other (List.mem_cons_of_mem call member)

theorem callsEach_nil (depth : Nat) : CallsEach depth [] [] :=
  ⟨List.nil_prefix, fun short => absurd short (Nat.lt_irrefl 0), fun _ member => absurd member List.not_mem_nil⟩

section afterCall

variable {interpreter : List Text → Place → σ → Option (Int × Place × σ)} {behind : Place} {after : σ} {result : Int}

theorem callsEach_quit (room : words.length ≤ 100) (quit : result = -1) (rest : List Text) :
    ∃ r, afterCall interpreter n ⟨depth, token, words, result⟩ behind after = some r ∧
      CallsEach depth (token :: rest) r.calls := by
  refine ⟨_, if_pos quit, ?_, fun _ => ⟨_, rfl, quit⟩, List.forall_mem_singleton.mpr room⟩
  exact List.cons_prefix_cons.mpr ⟨rfl, List.nil_prefix⟩

theorem callsEach_goesOn (room : words.length ≤ 100) (goesOn : result ≠ -1)
    (later : ∃ r, parseCalls interpreter n result behind after = some r ∧ CallsEach depth rest r.calls) :
    ∃ r, afterCall interpreter n ⟨depth, token, words, result⟩ behind after = some r ∧
      CallsEach depth (token :: rest) r.calls := by
  obtain ⟨r, run, each⟩ := later
  refine ⟨{ r with calls := ⟨depth, token, words, result⟩ :: r.calls }, ?_, ?_, fun short => ?_,
    List.forall_mem_cons.mpr ⟨room, each.room⟩⟩
  · rw [afterCall, if_neg goesOn, run]
    rfl
  · exact List.cons_prefix_cons.mpr ⟨rfl, each.inOrder⟩
  · obtain ⟨last, found, quit⟩ := each.early (Nat.lt_of_succ_lt_succ short)
    exact ⟨last, by rw [List.getLast?_cons, found, Option.getD_some], quit⟩

end afterCall

def nestedInterpreter (command : List Text → σ → Command σ) (fuel depth : Nat) (words : List Text) (place : Place)
    (shell : σ) : Option (Int × Place × σ) :=
  (command words shell).interpret (parseNested command fuel (depth + 1)) place

theorem undisturbed_of_callsEach
    (run : parseCalls (nestedInterpreter command fuel depth) n ret ⟨depth, line⟩ shell = some r)
    (each : CallsEach depth (sections line) r.calls) : Undisturbed command depth (sections line) shell := by
  induction n generalizing ret line shell r with
  | zero => cases run
  | succ n ih =>
    rcases parseCalls_cases run with ⟨done, -⟩ | ⟨token, left, words, result, behind, after, next, cut, called, run⟩
    · rw [strtok_none done]
      trivial
    · rw [strtok_some next] at each ⊢
      have first : ⟨depth, token, words, result⟩ ∈ r.calls := by
        rcases afterCall_cases run with ⟨-, rfl⟩ | ⟨-, rest, -, rfl⟩
        · exact List.mem_singleton_self _
        · exact List.mem_cons_self
      refine ⟨words, cut, each.room _ first, ?_⟩
      cases plain : (command words shell).plain with
      | none =>
        have deep : ∀ text shell r, parseNested command fuel (depth + 1) text shell = some r → depth < r.place.depth :=
          fun text shell r parsed => parseNested_depth parsed
        obtain ⟨zero, deeper⟩ := Command.interpret_scripts (P := (depth < ·)) plain deep called
        rcases afterCall_cases run with ⟨quit, -⟩ | ⟨goesOn, rest, later, rfl⟩
        · rw [zero] at quit
          cases quit
        · have away : ∀ call ∈ rest.calls, depth < call.depth :=
            (parseCalls_depth (P := (depth < ·))
              (fun _ _ _ _ _ _ start called => Command.interpret_depth deep start called) deeper later).2
          have inOrder := (List.cons_prefix_cons.mp each.inOrder).2
          have none' : rest.calls = [] := by
            cases calls : rest.calls with
            | nil => rfl
            | cons call others =>
              rw [calls, List.map_cons] at inOrder
              obtain ⟨section', member, same⟩ := List.mem_map.mp (inOrder.subset List.mem_cons_self)
              have level : depth = call.depth := congrArg Prod.fst same
              have below := away call (calls ▸ List.mem_cons_self)
              omega
          have last : sections left = [] := by
            by_contra more
            have short : 1 < (token :: sections left).length := by
              have some' := List.length_pos_iff.mpr more
              rw [List.length_cons]
              omega
            obtain ⟨call, found, quit⟩ := each.early (by rw [none']; exact short)
            rw [none'] at found
            obtain rfl := Option.some_inj.mp found
            exact goesOn quit
          rw [last, List.isEmpty_nil, if_pos rfl]
          refine ⟨fuel, result, behind, after, ?_, .inr (parseCalls_none later none')⟩
          rw [Command.interpret_place plain _ _ ⟨depth, left⟩]
          exact called
      | some both =>
        obtain ⟨result', after'⟩ := both
        rw [nestedInterpreter, Command.interpret_plain plain] at called
        obtain ⟨⟩ := Option.some_inj.mp called
        split
        · exact ⟨fuel, result, ⟨depth, []⟩, after, Command.interpret_plain plain _ _, .inr rfl⟩
        · refine ⟨result, after, rfl, ?_⟩
          rcases afterCall_cases run with ⟨quit, -⟩ | ⟨goesOn, rest, later, rfl⟩
          · exact .inl quit
          · exact .inr (ih later (each.tail goesOn))

/-- Scripts that come to an end do so wherever the line of the section is left, if nothing follows there. -/
theorem Exhausts.interprets (exhausts : Exhausts command depth words shell) : ∃ enough, ∀ fuel ≥ enough, ∀ left,
    sections left = [] → ∃ result behind after, nestedInterpreter command fuel depth words ⟨depth, left⟩ shell =
      some (result, behind, after) ∧ (result = -1 ∨ sections behind.left = []) := by
  obtain ⟨enough, result, behind, after, run, ends⟩ := exhausts
  refine ⟨enough, fun fuel more left nothing => ?_⟩
  cases plain : (command words shell).plain with
  | none =>
    refine ⟨result, behind, after, ?_, ends⟩
    rw [nestedInterpreter, Command.interpret_place plain _ _ ⟨depth, []⟩]
    exact Command.interpret_mono (fun text shell r parsed => parseNested_mono parsed more) run
  | some both => exact ⟨both.1, ⟨depth, left⟩, both.2, Command.interpret_plain plain _ _, .inr nothing⟩

theorem callsEach_of_undisturbed (undisturbed : Undisturbed command depth (sections line) shell) :
    ∃ enough, ∀ fuel ≥ enough, ∀ n, (sections line).length < n → ∀ ret, ∃ r,
      parseCalls (nestedInterpreter command fuel depth) n ret ⟨depth, line⟩ shell = some r ∧
        CallsEach depth (sections line) r.calls := by
  induction cut : sections line generalizing line shell with
  | nil =>
    refine ⟨0, fun fuel _ n positive ret => ?_⟩
    obtain ⟨n, rfl⟩ := Nat.exists_eq_succ_of_ne_zero (Nat.ne_of_gt positive)
    exact ⟨_, parseCalls_done cut, callsEach_nil depth⟩
  | cons token rest ih =>
    obtain ⟨left, next, behind⟩ := strtok_of_sections cut
    rw [cut] at undisturbed
    obtain ⟨words, split, room, undisturbed⟩ := undisturbed
    cases rest with
    | nil =>
      obtain ⟨enough, interprets⟩ := Exhausts.interprets undisturbed
      refine ⟨enough, fun fuel more n positive ret => ?_⟩
      obtain ⟨n, rfl⟩ := Nat.exists_eq_succ_of_ne_zero (Nat.ne_of_gt (Nat.zero_lt_of_lt positive))
      obtain ⟨result, place, after, called, ends⟩ := interprets fuel more left behind
      rw [parseCalls_step next split called]
      by_cases quit : result = -1
      · exact callsEach_quit room quit []
      · obtain ⟨n, rfl⟩ := Nat.exists_eq_succ_of_ne_zero (Nat.ne_of_gt (Nat.lt_of_succ_lt_succ positive))
        exact callsEach_goesOn room quit ⟨_, parseCalls_done (ends.resolve_left quit), callsEach_nil depth⟩
    | cons second later =>
      obtain ⟨result, after, plain, undisturbed⟩ := undisturbed
      have called : ∀ fuel, nestedInterpreter command fuel depth words ⟨depth, left⟩ shell =
          some (result, ⟨depth, left⟩, after) := fun fuel => Command.interpret_plain plain _ _
      rcases undisturbed with quit | undisturbed
      · refine ⟨0, fun fuel _ n positive ret => ?_⟩
        obtain ⟨n, rfl⟩ := Nat.exists_eq_succ_of_ne_zero (Nat.ne_of_gt (Nat.zero_lt_of_lt positive))
        rw [parseCalls_step next split (called fuel)]
        exact callsEach_quit room quit _
      · rw [← behind] at undisturbed
        obtain ⟨enough, all⟩ := ih undisturbed behind
        refine ⟨enough, fun fuel more n positive ret => ?_⟩
        obtain ⟨n, rfl⟩ := Nat.exists_eq_succ_of_ne_zero (Nat.ne_of_gt (Nat.zero_lt_of_lt positive))
        rw [parseCalls_step next split (called fuel)]
        by_cases quit : result = -1
        · exact callsEach_quit room quit _
        · exact callsEach_goesOn room quit (all fuel more n (Nat.lt_of_succ_lt_succ positive) result)

end each

section flat

variable {σ : Type} (interpreter : List Text → σ → Int × σ)

def flat (words : List Text) (shell : σ) : Command σ := .ret (interpreter words shell).1 (interpreter words shell).2

def flatLine (words : List Text) (s : LineState σ) : Int × LineState σ :=
  ((interpreter words s.shell).1, ⟨s.left, (interpreter words s.shell).2⟩)

def Parsed.outcome (r : Parsed σ) : Int × LineState σ := (r.ret, ⟨r.place.left, r.shell⟩)

theorem parseCalls_flat (fuel depth n : Nat) (ret : Int) (line : Text) (shell : σ) :
    (parseCalls (nestedInterpreter (flat interpreter) fuel depth) n ret ⟨depth, line⟩ shell).map Parsed.outcome =
      parseSections (flatLine interpreter) n ret ⟨line, shell⟩ := by
  induction n generalizing ret line shell with
  | zero => rfl
  | succ n ih =>
    rw [parseSections]
    cases next : strtok line with
    | none =>
      rw [parseCalls, next]
      rfl
    | some both =>
      obtain ⟨token, left⟩ := both
      cases cut : sectionWords token with
      | none =>
        rw [parseCalls, next]
        simp only [cut]
        rfl
      | some words =>
        have called : nestedInterpreter (flat interpreter) fuel depth words ⟨depth, left⟩ shell =
            some ((interpreter words shell).1, ⟨depth, left⟩, (interpreter words shell).2) := rfl
        rw [parseCalls_step next cut called, afterCall]
        simp only [cut, Option.bind_eq_bind, Option.bind_some]
        by_cases quit : (flatLine interpreter words ⟨left, shell⟩).1 = -1
        · rw [if_pos quit]
          exact congrArg (Option.map _) (if_pos quit)
        · rw [if_neg quit]
          refine Eq.trans (congrArg (Option.map _) (if_neg quit)) ?_
          rw [Option.map_map]
          exact ih (interpreter words shell).1 left (interpreter words shell).2

theorem parseNested_flat (fuel depth : Nat) (ui : Text) (shell : σ) :
    (parseNested (flat interpreter) (fuel + 1) depth ui shell).map Parsed.outcome =
      parseInput (flatLine interpreter) (fuel + 1) ui shell :=
  parseCalls_flat interpreter fuel depth (fuel + 1) 0 ui shell

end flat

/-- The interpreter is called once for each section of a line, in order and up to one that returns -1, if and only if no
section with another one behind it executes a line of a script and the scripts of the last section come to an end. -/
theorem parseInput_calls_each {σ : Type} (command : List Text → σ → Command σ) (ui : Text) (shell : σ) :
    (∃ fuel r, parseNested command fuel 0 ui shell = some r ∧ CallsEach 0 (sections ui) r.calls) ↔
      Undisturbed command 0 (sections ui) shell := by
  constructor
  · rintro ⟨fuel, r, run, each⟩
    cases fuel with
    | zero => cases run
    | succ fuel => exact undisturbed_of_callsEach run each
  · intro undisturbed
    obtain ⟨enough, all⟩ := callsEach_of_undisturbed undisturbed
    obtain ⟨r, run, each⟩ := all (max enough (sections ui).length) (Nat.le_max_left ..) _
      (Nat.lt_succ_of_le (Nat.le_max_right enough _)) 0
    exact ⟨max enough (sections ui).length + 1, r, run, each⟩

/-- A shell in which `run s` executes a script with the line `echo b`. -/
def runsScript (words : List Text) (_ : Unit) : Command Unit :=
  if words.head? = some "run".toList then .scripts (.line "echo b\n".toList () fun _ shell => .finish shell)
  else .ret 0 ()

/-- The section behind the `run` is not interpreted. -/
theorem parseInput_loses_section :
    (∃ r, parseNested runsScript 4 0 "run s;echo a".toList () = some r ∧ r.calls.map Call.token = ["run s".toList]) ∧
    sections "run s;echo a".toList = ["run s".toList, "echo a".toList] ∧
    ¬ ∃ fuel r, parseNested runsScript fuel 0 "run s;echo a".toList () = some r ∧
      CallsEach 0 (sections "run s;echo a".toList) r.calls := by
  refine ⟨⟨_, rfl, rfl⟩, rfl, ?_⟩
  rintro ⟨fuel, r, run, each⟩
  cases fuel with
  | zero => cases run
  | succ fuel =>
    obtain ⟨words, split, -, result, after, plain, -⟩ := undisturbed_of_callsEach run each
    have two : sectionWords "run s".toList = some ["run".toList, "s".toList] := rfl
    obtain rfl := Option.some_inj.mp (two.symm.trans split)
    cases plain

end ShellOs.Kernel
