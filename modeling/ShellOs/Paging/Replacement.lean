import Mathlib.Tactic.Common
import Mathlib.Algebra.Group.Nat.Defs
import ShellOs.Kernel.ScriptLines
import ShellOs.Lib.Scan
import ShellOs.Paging.FrameStore

/-! Frames are replaced by their last use: what a run of loads and accesses does to the frame store. -/

namespace ShellOs.Paging
open Lib
open Kernel (Text terminatedLines lastLine script_induction terminatedLines_last terminatedLines_line)

/-- The commands of a script: its lines, of which the last one may lack the newline. -/
def commands (script : Text) : List Text :=
  terminatedLines script ++ if (lastLine script).isEmpty then [] else [lastLine script]

section commands

variable {l rest fp : Text}

theorem commands_last (plain : '\n' ∉ l) : commands l = if l.isEmpty then [] else [l] := by
  obtain ⟨none', whole⟩ := terminatedLines_last plain
  rw [commands, none', whole]
  rfl

theorem commands_line (plain : '\n' ∉ l) (rest : Text) : commands (l ++ '\n' :: rest) = l :: commands rest := by
  obtain ⟨more, last⟩ := terminatedLines_line plain rest
  rw [commands, more, last]
  rfl

theorem readNextCommand_spec (fp : Text) : (commands fp = [] ∧ readNextCommand fp = none) ∨
    ∃ line rest, readNextCommand fp = some (line, rest) ∧ commands fp = line :: commands rest ∧ rest.length < fp.length := by
  induction fp using script_induction with
  | last l plain =>
    rw [commands_last plain, readNextCommand, dropWhile_ne_self plain]
    cases l with
    | nil => exact .inl ⟨rfl, rfl⟩
    | cons c rest => exact .inr ⟨c :: rest, [], rfl, rfl, Nat.zero_lt_succ _⟩
  | line l rest plain _ =>
    right
    refine ⟨l, rest, by rw [readNextCommand, dropWhile_ne plain, takeWhile_ne plain], commands_line plain rest, ?_⟩
    rw [List.length_append, List.length_cons]
    omega

theorem fillFrame_lines (count first : Nat) (frame : FrameStruct) (fp : Text) :
    (∀ j, (fillFrame (List.range' first count) frame fp).1.lines j =
      if first ≤ j ∧ j < first + count then ((commands fp)[j - first]?.map removeWhitespace).or (frame.lines j)
      else frame.lines j) ∧
      commands (fillFrame (List.range' first count) frame fp).2 = (commands fp).drop count := by
  induction count generalizing first frame fp with
  | zero =>
    refine ⟨fun j => ?_, rfl⟩
    rw [if_neg (by omega)]
    rfl
  | succ count ih =>
    rw [List.range'_succ, fillFrame]
    rcases readNextCommand_spec fp with ⟨none', atEnd⟩ | ⟨line, rest, read, more, -⟩
    · obtain ⟨lines, left⟩ := ih (first + 1) frame fp
      rw [atEnd]
      refine ⟨fun j => ?_, ?_⟩
      · rw [lines j, none', List.getElem?_nil, List.getElem?_nil, Option.map_none, Option.none_or, ite_self, ite_self]
      · rw [left, none', List.drop_nil, List.drop_nil]
    · obtain ⟨lines, left⟩ := ih (first + 1)
        { frame with lines := Function.update frame.lines first (some (removeWhitespace line)) } rest
      rw [read]
      refine ⟨fun j => ?_, ?_⟩
      · rw [lines j, more]
        by_cases here : j = first
        · rw [here, if_neg (by omega), if_pos (by omega), Nat.sub_self, List.getElem?_cons_zero]
          exact Function.update_self ..
        · simp only [Function.update_of_ne here]
          by_cases behind : first < j
          · obtain ⟨k, rfl⟩ : ∃ k, j = first + 1 + k := ⟨j - (first + 1), by omega⟩
            rw [show first + 1 + k - (first + 1) = k by omega, show first + 1 + k - first = k + 1 by omega,
              List.getElem?_cons_succ]
            congr 1
            rw [eq_iff_iff]
            omega
          · rw [if_neg (by omega), if_neg (by omega)]
      · rw [left, more, List.drop_succ_cons]

end commands

/-- A run of calls from `mem_init` on: the store, the frames used, the last of them first, and the number of calls. -/
inductive FrameRun (shellFrames : Nat) (frames : Nat → FrameStruct) : FrameStore → List Nat → Nat → Prop
  | start : FrameRun shellFrames frames (framesInit shellFrames frames) [] 0
  | load {s t : FrameStore} {uses : List Nat} {calls frame : Nat} {fp rest : Text} {pid : Int}
      (before : FrameRun shellFrames frames s uses calls)
      (result : s.loadFrame shellFrames fp pid = some (frame, t, rest)) :
      FrameRun shellFrames frames t (frame :: uses) (calls + 1)
  | access {s : FrameStore} {uses : List Nat} {calls : Nat} (pid frameIndex lineIndex : Int)
      (before : FrameRun shellFrames frames s uses calls) :
      FrameRun shellFrames frames (s.getLineFromFrameStore shellFrames pid frameIndex lineIndex).2
        (if s.passes shellFrames pid frameIndex lineIndex then frameIndex.toNat :: uses else uses) (calls + 1)

/-- The counter stamps the uses, and a frame that was not used is as `mem_init` left it. -/
structure StampedBy (shellFrames : Nat) (s : FrameStore) (uses : List Nat) : Prop where
  clock : s.numLru = uses.length
  inside : ∀ i ∈ uses, i < shellFrames
  stamped : Stamped uses fun i => (s.shellframes i).lru
  unused : ∀ i < shellFrames, i ∉ uses → (s.shellframes i).empty = true

section steps

variable {shellFrames calls frame i : Nat} {frames : Nat → FrameStruct} {s t : FrameStore} {uses l : List Nat}
  {fp rest : Text} {pid frameIndex lineIndex lowestLru : Int} {victim : Option Nat}

theorem findVictim_none (others : ∀ i ∈ l, lowestLru ≤ (s.shellframes i).lru) : s.findVictim l victim lowestLru = victim := by
  induction l generalizing victim with
  | nil => rfl
  | cons i rest ih =>
    have here := others i List.mem_cons_self
    rw [FrameStore.findVictim, if_neg (by omega)]
    exact ih fun j member => others j (List.mem_cons_of_mem i member)

theorem findVictim_some (victim : Option Nat) (set : ∀ i ∈ l, 0 ≤ (s.shellframes i).lru) (lower : ∃ i ∈ l, (s.shellframes i).lru < lowestLru) :
    ∃ k ∈ l, s.findVictim l victim lowestLru = some k ∧ ∀ i ∈ l, (s.shellframes k).lru ≤ (s.shellframes i).lru := by
  induction l generalizing victim lowestLru with
  | nil =>
    obtain ⟨i, member, -⟩ := lower
    cases member
  | cons i rest ih =>
    have here := set i List.mem_cons_self
    have later : ∀ j ∈ rest, 0 ≤ (s.shellframes j).lru := fun j member => set j (List.mem_cons_of_mem i member)
    rw [FrameStore.findVictim]
    by_cases low : (s.shellframes i).lru < lowestLru
    · rw [if_pos ⟨by omega, low⟩]
      by_cases lowest : ∃ j ∈ rest, (s.shellframes j).lru < (s.shellframes i).lru
      · obtain ⟨k, member, found, least⟩ := ih (some i) later lowest
        obtain ⟨j, inside, less⟩ := lowest
        refine ⟨k, List.mem_cons_of_mem i member, found, fun m within => ?_⟩
        rcases List.mem_cons.mp within with rfl | behind
        · have below := least j inside
          omega
        · exact least m behind
      · have others : ∀ j ∈ rest, (s.shellframes i).lru ≤ (s.shellframes j).lru := fun j member => by
          by_contra less
          exact lowest ⟨j, member, by omega⟩
        refine ⟨i, List.mem_cons_self, findVictim_none others, fun m within => ?_⟩
        rcases List.mem_cons.mp within with rfl | behind
        · exact Int.le_refl _
        · exact others m behind
    · rw [if_neg fun both => low both.2]
      obtain ⟨j, within, less⟩ := lower
      have behind : j ∈ rest := by
        rcases List.mem_cons.mp within with rfl | behind
        · exact absurd less low
        · exact behind
      obtain ⟨k, member, found, least⟩ := ih victim later ⟨j, behind, less⟩
      refine ⟨k, List.mem_cons_of_mem i member, found, fun m inside => ?_⟩
      rcases List.mem_cons.mp inside with rfl | farther
      · have below := least j behind
        omega
      · exact least m farther

theorem framesInit_stamped (shellFrames : Nat) (frames : Nat → FrameStruct) :
    StampedBy shellFrames (framesInit shellFrames frames) [] where
  clock := rfl
  inside i member := absurd member List.not_mem_nil
  stamped i member := absurd member List.not_mem_nil
  unused i inside _ := by
    rw [framesInit]
    simp only [if_pos inside]

theorem StampedBy.use (stamped : StampedBy shellFrames s uses) (inside : frame < shellFrames) {used : FrameStruct}
    (stamp : used.lru = s.numLru) :
    StampedBy shellFrames ⟨Function.update s.shellframes frame used, s.numLru + 1⟩ (frame :: uses) where
  clock := by
    rw [stamped.clock, List.length_cons]
    push_cast
    rfl
  inside i member := by
    rcases List.mem_cons.mp member with rfl | earlier
    · exact inside
    · exact stamped.inside i earlier
  stamped := by
    have next := stamped.stamped.use frame
    have same : (fun i => (Function.update s.shellframes frame used i).lru) =
        Function.update (fun i => (s.shellframes i).lru) frame uses.length := by
      funext i
      by_cases here : i = frame
      · rw [here, Function.update_self, Function.update_self, stamp, stamped.clock]
      · rw [Function.update_of_ne here, Function.update_of_ne here]
    rw [same]
    exact next
  unused i within fresh := by
    rw [List.mem_cons, not_or] at fresh
    simp only [Function.update_of_ne fresh.1]
    exact stamped.unused i within fresh.2

structure Chosen (shellFrames : Nat) (s : FrameStore) (uses : List Nat) (frame : Nat) : Prop where
  inside : frame < shellFrames
  firstEmpty : (∃ i < shellFrames, (s.shellframes i).empty = true) →
    (s.shellframes frame).empty = true ∧ ∀ i < frame, (s.shellframes i).empty = false
  oldest : (∀ i < shellFrames, (s.shellframes i).empty = false) →
    ∀ i < shellFrames, i ≠ frame → uses.idxOf i < uses.idxOf frame ∧ frame ∈ uses

/-- `loadFrame` finds a frame, the first empty one or the one whose last use is the oldest, and changes no other. -/
theorem loadFrame_spec (some' : 0 < shellFrames) (stamped : StampedBy shellFrames s uses) (few : (uses.length : Int) ≤ intMax)
    (fp : Text) (pid : Int) : ∃ frame, Chosen shellFrames s uses frame ∧ s.loadFrame shellFrames fp pid =
      some (frame, s.loadInto frame fp pid, (fillFrame [0, 1, 2] (s.shellframes frame) fp).2) := by
  cases found : s.findEmptyFrame shellFrames with
  | some frame =>
    obtain ⟨empty, inside, before⟩ := List.find?_range_eq_some.mp found
    refine ⟨frame, ⟨List.mem_range.mp inside, fun _ => ⟨empty, fun i low => ?_⟩, fun full => ?_⟩, ?_⟩
    · simpa using before i low
    · rw [full frame (List.mem_range.mp inside)] at empty
      cases empty
    · rw [FrameStore.loadFrame, found]
      rfl
  | none =>
    have full : ∀ i < shellFrames, (s.shellframes i).empty = false := fun i inside => by
      simpa using List.find?_eq_none.mp found i (List.mem_range.mpr inside)
    have used : ∀ i < shellFrames, i ∈ uses := fun i inside => by
      by_contra fresh
      have empty := stamped.unused i inside fresh
      rw [full i inside] at empty
      cases empty
    have low : ∀ i ∈ List.range shellFrames, 0 ≤ (s.shellframes i).lru := fun i member =>
      stamped.stamped.nonneg (used i (List.mem_range.mp member))
    have high : ∃ i ∈ List.range shellFrames, (s.shellframes i).lru < intMax := by
      have first := stamped.stamped.lt_length (used 0 some')
      exact ⟨0, List.mem_range.mpr some', by omega⟩
    obtain ⟨frame, member, victim, least⟩ := findVictim_some none low high
    have inside := List.mem_range.mp member
    refine ⟨frame, ⟨inside, fun ⟨i, within, empty⟩ => ?_, fun _ i within other => ?_⟩, ?_⟩
    · rw [full i within] at empty
      cases empty
    · refine ⟨?_, used frame inside⟩
      have below := least i (List.mem_range.mpr within)
      have apart : (s.shellframes frame).lru ≠ (s.shellframes i).lru := fun same =>
        other (stamped.stamped.injective (used frame inside) (used i within) same).symm
      exact (stamped.stamped.lt_iff (used frame inside) (used i within)).mp (by omega)
    · rw [FrameStore.loadFrame, found, victim]
      rfl

theorem passes_iff : s.passes shellFrames pid frameIndex lineIndex = true ↔
    (s.shellframes frameIndex.toNat).pid = pid ∧ 0 ≤ frameIndex ∧ frameIndex < shellFrames ∧ 0 ≤ lineIndex ∧ lineIndex < 3 := by
  simp only [FrameStore.passes, Bool.not_eq_true', Bool.or_eq_false_iff, bne_eq_false_iff_eq, decide_eq_false_iff_not]
  constructor
  · rintro ⟨⟨⟨⟨owner, low⟩, line⟩, high⟩, room⟩
    exact ⟨owner, by omega, by omega, by omega, by omega⟩
  · rintro ⟨owner, low, high, line, room⟩
    exact ⟨⟨⟨⟨owner, by omega⟩, by omega⟩, by omega⟩, by omega⟩

theorem FrameRun.stamped (some' : 0 < shellFrames) (run : FrameRun shellFrames frames s uses calls)
    (few : (calls : Int) ≤ intMax) : StampedBy shellFrames s uses ∧ uses.length ≤ calls := by
  induction run with
  | start => exact ⟨framesInit_stamped shellFrames frames, Nat.le_refl 0⟩
  | @load s t uses calls frame fp rest pid before result ih =>
    obtain ⟨stamped, short⟩ := ih (by push_cast at few; omega)
    obtain ⟨chosen, choice, loads⟩ := loadFrame_spec some' stamped (by push_cast at few; omega) fp pid
    rw [result] at loads
    obtain ⟨rfl, rfl, -⟩ := Prod.mk.inj (Option.some_inj.mp loads) |>.imp id Prod.mk.inj
    refine ⟨stamped.use choice.inside rfl, ?_⟩
    rw [List.length_cons]
    omega
  | @access s uses calls pid frameIndex lineIndex before ih =>
    obtain ⟨stamped, short⟩ := ih (by push_cast at few; omega)
    rw [FrameStore.getLineFromFrameStore]
    split
    next passed =>
      have inside := passes_iff.mp passed
      refine ⟨stamped.use (by omega) rfl, ?_⟩
      rw [List.length_cons]
      omega
    next => exact ⟨stamped, by omega⟩

/-- The next call, if it is a load, takes the first empty frame, or else the frame whose last use is the oldest, and only
this frame changes: it gets the next three commands of the file, as far as there are any. An access changes only the `lru`
of its frame. -/
def Replaces (shellFrames : Nat) (s : FrameStore) (uses : List Nat) : Prop :=
  (∀ fp pid, ∃ frame t rest, s.loadFrame shellFrames fp pid = some (frame, t, rest) ∧ Chosen shellFrames s uses frame ∧
    t.shellframes = Function.update s.shellframes frame
      { (fillFrame [0, 1, 2] (s.shellframes frame) fp).1 with pid := pid, lru := s.numLru, empty := false } ∧
    (∀ j, (t.shellframes frame).lines j =
      if j < 3 then ((commands fp)[j]?.map removeWhitespace).or ((s.shellframes frame).lines j)
      else (s.shellframes frame).lines j) ∧
    commands rest = (commands fp).drop 3) ∧
  ∀ pid frameIndex lineIndex,
    let t := (s.getLineFromFrameStore shellFrames pid frameIndex lineIndex).2
    if s.passes shellFrames pid frameIndex lineIndex then
      t.shellframes = Function.update s.shellframes frameIndex.toNat
        { s.shellframes frameIndex.toNat with lru := s.numLru }
    else t = s

theorem replacement_lru (some' : 0 < shellFrames) (run : FrameRun shellFrames frames s uses calls)
    (few : calls + 1 < 2 ^ 31 - 1) : Replaces shellFrames s uses := by
  obtain ⟨stamped, short⟩ := run.stamped some' (by rw [intMax]; omega)
  constructor
  · intro fp pid
    obtain ⟨frame, choice, loads⟩ := loadFrame_spec some' stamped (by rw [intMax]; omega) fp pid
    obtain ⟨lines, left⟩ := fillFrame_lines 3 0 (s.shellframes frame) fp
    refine ⟨frame, _, _, loads, choice, rfl, fun j => ?_, left⟩
    have loaded : (s.loadInto frame fp pid).shellframes frame = _ := Function.update_self ..
    simp only [loaded]
    refine (lines j).trans ?_
    simp only [Nat.zero_le, true_and, Nat.zero_add, Nat.sub_zero]
  · intro pid frameIndex lineIndex
    simp only [FrameStore.getLineFromFrameStore]
    split
    · rfl
    · rfl

theorem replacement_lru_loaded : ∃ s, FrameRun 2 (fun _ => ⟨fun _ => none, 0, false, 0⟩) s [0] 1 ∧ Replaces 2 s [0] := by
  have loaded : FrameRun 2 (fun _ => ⟨fun _ => none, 0, false, 0⟩) _ [0] 1 :=
    @FrameRun.load _ _ _ _ _ _ _ "quit".toList _ 1 .start rfl
  exact ⟨_, loaded, replacement_lru (by decide) loaded (by decide)⟩

end steps

end ShellOs.Paging
