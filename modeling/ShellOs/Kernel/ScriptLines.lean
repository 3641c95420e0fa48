import ShellOs.Kernel.ShellMemory

/-! How many lines a script has for `count_lines`, and how many `fgets` reads from it (pcb.c). -/

namespace ShellOs.Kernel

def countLoop : Char → Nat → Text → Nat
  | _, count, [] => count
  | last, count, c :: rest => countLoop c (if c = '\n' ∧ last ≠ '\n' then count + 1 else count) rest

def countLines (script : Text) : Nat := countLoop '\n' 0 script + 1

/-- At most so many characters, to the end of the line, and what comes after them. -/
def takeLine : Nat → Text → Text × Text
  | 0, rest => ([], rest)
  | _ + 1, [] => ([], [])
  | room + 1, c :: rest =>
    if c = '\n' then ([c], rest)
    else
      let r := takeLine room rest
      (c :: r.1, r.2)

/-- `fgets` with a buffer of `n` characters, the last of which is the NUL. -/
def fgets (n : Nat) (file : Text) : Option (Text × Text) := if file.isEmpty then none else some (takeLine (n - 1) file)

/-- What `fgets(line, 999, file)` delivers until the end of the file, in at most so many calls. -/
def readLines : Nat → Text → List Text
  | 0, _ => []
  | calls + 1, file =>
    match fgets 999 file with
    | none => []
    | some (line, rest) => line :: readLines calls rest

def scriptReads (script : Text) : List Text := readLines script.length script

/-- The lines that end in a newline, and what is behind the last of these. -/
def terminatedLines (script : Text) : List Text := (script.splitOn '\n').dropLast

def lastLine (script : Text) : Text := (script.splitOn '\n').getLastD []

section lines

variable {l rest script : Text}

theorem script_induction {motive : Text → Prop} (last : ∀ l, '\n' ∉ l → motive l)
    (line : ∀ l rest, '\n' ∉ l → motive rest → motive (l ++ '\n' :: rest)) (script : Text) : motive script := by
  induction size : script.length using Nat.strongRecOn generalizing script with
  | ind size ih =>
    by_cases newline : '\n' ∈ script
    · obtain ⟨l, rest, rfl, first⟩ := List.eq_append_cons_of_mem newline
      apply line l rest first
      apply ih rest.length _ rest rfl
      rw [← size, List.length_append, List.length_cons]
      omega
    · exact last script newline

theorem terminatedLines_last (plain : '\n' ∉ l) : terminatedLines l = [] ∧ lastLine l = l := by
  rw [terminatedLines, lastLine, List.splitOn_eq_singleton plain]
  exact ⟨rfl, rfl⟩

theorem terminatedLines_line (plain : '\n' ∉ l) (rest : Text) :
    terminatedLines (l ++ '\n' :: rest) = l :: terminatedLines rest ∧ lastLine (l ++ '\n' :: rest) = lastLine rest := by
  have behind : rest.splitOn '\n' ≠ [] := List.splitOn_ne_nil _ _
  rw [terminatedLines, terminatedLines, lastLine, lastLine, List.splitOn_append_cons_self_of_not_mem plain,
    List.dropLast_cons_of_ne_nil behind, List.getLastD_cons, List.getLastD_eq_getLast?, List.getLastD_eq_getLast?,
    List.getLast?_eq_getLast_of_ne_nil behind]
  exact ⟨rfl, rfl⟩

theorem countLoop_last (plain : '\n' ∉ l) (last : Char) (count : Nat) : countLoop last count l = count := by
  induction l generalizing last count with
  | nil => rfl
  | cons c rest ih =>
    rw [List.mem_cons, not_or] at plain
    rw [countLoop, if_neg fun both => plain.1 both.1.symm]
    exact ih plain.2 c count

theorem countLoop_line (plain : '\n' ∉ l) (last : Char) (count : Nat) (rest : Text) :
    countLoop last count (l ++ '\n' :: rest) =
      countLoop '\n' (count + if l = [] ∧ last = '\n' then 0 else 1) rest := by
  induction l generalizing last count with
  | nil =>
    rw [List.nil_append, countLoop]
    by_cases again : last = '\n' <;> simp [again]
  | cons c line ih =>
    rw [List.mem_cons, not_or] at plain
    have other : c ≠ '\n' := fun same => plain.1 same.symm
    rw [List.cons_append, countLoop, if_neg fun both => other both.1, ih plain.2]
    simp [other]

theorem countLoop_eq (script : Text) (count : Nat) :
    countLoop '\n' count script + (terminatedLines script).count [] = count + (terminatedLines script).length := by
  induction script using script_induction generalizing count with
  | last l plain =>
    rw [countLoop_last plain, (terminatedLines_last plain).1]
    rfl
  | line l rest plain ih =>
    have next := ih (count + if l = [] ∧ '\n' = '\n' then 0 else 1)
    rw [countLoop_line plain, (terminatedLines_line plain rest).1, List.length_cons]
    by_cases empty : l = []
    · subst empty
      simp only [and_self, if_true, Nat.add_zero] at next ⊢
      rw [List.count_cons_self]
      omega
    · simp only [empty, false_and, if_false] at next ⊢
      rw [List.count_cons_of_ne (fun same => empty same)]
      omega

theorem takeLine_last (plain : '\n' ∉ l) {room : Nat} (short : l.length ≤ room) : takeLine room l = (l, []) := by
  induction l generalizing room with
  | nil => cases room <;> rfl
  | cons c line ih =>
    rw [List.mem_cons, not_or] at plain
    obtain ⟨room, rfl⟩ := Nat.exists_eq_succ_of_ne_zero (Nat.ne_of_gt (Nat.lt_of_lt_of_le (Nat.succ_pos _) short))
    rw [takeLine, if_neg fun same => plain.1 same.symm, ih plain.2 (Nat.le_of_succ_le_succ short)]

theorem takeLine_line (plain : '\n' ∉ l) {room : Nat} (short : l.length ≤ room) (rest : Text) :
    takeLine room (l ++ '\n' :: rest) = if l.length < room then (l ++ ['\n'], rest) else (l, '\n' :: rest) := by
  induction l generalizing room with
  | nil =>
    cases room with
    | zero => rfl
    | succ room => rw [List.nil_append, takeLine, if_pos rfl, List.length_nil, if_pos (Nat.succ_pos room)]; rfl
  | cons c line ih =>
    rw [List.mem_cons, not_or] at plain
    obtain ⟨room, rfl⟩ := Nat.exists_eq_succ_of_ne_zero (Nat.ne_of_gt (Nat.lt_of_lt_of_le (Nat.succ_pos _) short))
    rw [List.cons_append, takeLine, if_neg fun same => plain.1 same.symm, ih plain.2 (Nat.le_of_succ_le_succ short),
      List.length_cons]
    by_cases fits : line.length < room
    · rw [if_pos fits, if_pos (Nat.succ_lt_succ fits)]
      rfl
    · rw [if_neg fits, if_neg fun less => fits (Nat.lt_of_succ_lt_succ less)]

theorem readLines_some {calls : Nat} {file : Text} (some : file ≠ []) :
    readLines (calls + 1) file = (takeLine 998 file).1 :: readLines calls (takeLine 998 file).2 := by
  rw [readLines, fgets, if_neg (by simpa using some)]

theorem readLines_nil (calls : Nat) : readLines calls [] = [] := by
  cases calls <;> rfl

/-- The lines of 998 characters that end in a newline take two reads each. -/
def fullLines (script : Text) : Nat := (terminatedLines script).countP fun l => l.length == 998

theorem readLines_length (script : Text) (short : ∀ l ∈ script.splitOn '\n', l.length < 999) {calls : Nat}
    (enough : script.length ≤ calls) : (readLines calls script).length =
      (terminatedLines script).length + fullLines script + if lastLine script = [] then 0 else 1 := by
  induction script using script_induction generalizing calls with
  | last l plain =>
    rw [fullLines, (terminatedLines_last plain).1, (terminatedLines_last plain).2]
    by_cases empty : l = []
    · rw [empty, readLines_nil]
      rfl
    · rw [List.splitOn_eq_singleton plain] at short
      have fits := short l (List.mem_singleton.mpr rfl)
      obtain ⟨calls, rfl⟩ := Nat.exists_eq_succ_of_ne_zero
        (Nat.ne_of_gt (Nat.lt_of_lt_of_le (List.length_pos_iff.mpr empty) enough))
      rw [readLines_some empty, takeLine_last plain (Nat.le_of_lt_succ fits), readLines_nil, if_neg empty]
      rfl
  | line l rest plain ih =>
    rw [List.splitOn_append_cons_self_of_not_mem plain] at short
    have fits : l.length ≤ 998 := Nat.le_of_lt_succ (short l List.mem_cons_self)
    have later := fun {calls} => @ih (fun l member => short l (List.mem_cons_of_mem _ member)) calls
    have nonempty : l ++ '\n' :: rest ≠ [] := by simp
    rw [List.length_append, List.length_cons] at enough
    rw [fullLines, (terminatedLines_line plain rest).1, (terminatedLines_line plain rest).2]
    by_cases full : l.length = 998
    · obtain ⟨calls, rfl⟩ := Nat.exists_eq_add_of_le (show 2 ≤ calls by omega)
      have further := @later calls (by omega)
      rw [Nat.add_comm 2, readLines_some nonempty, takeLine_line plain fits, if_neg (by omega),
        readLines_some (List.cons_ne_nil _ _), takeLine, if_pos rfl, List.countP_cons_of_pos (by simpa using full)]
      simp only [List.length_cons, further, fullLines]
      omega
    · obtain ⟨calls, rfl⟩ := Nat.exists_eq_add_of_le (show 1 ≤ calls by omega)
      have further := @later calls (by omega)
      rw [Nat.add_comm 1, readLines_some nonempty, takeLine_line plain fits, if_pos (by omega),
        List.countP_cons_of_neg (by simpa using full)]
      simp only [List.length_cons, further, fullLines]
      omega

end lines

/-- The size of a process is the number of lines that are read for it exactly if there is one thing about the script
that only one of the two counts minds: an empty line, a line of 998 characters, or a last line without a newline. -/
theorem countLines_reads_iff (script : Text) (short : ∀ l ∈ script.splitOn '\n', l.length < 999) :
    countLines script = (scriptReads script).length ↔
      (terminatedLines script).count [] + fullLines script + (if lastLine script = [] then 0 else 1) = 1 := by
  have counted := countLoop_eq script 0
  have read := readLines_length script short (Nat.le_refl _)
  rw [countLines, scriptReads, read]
  constructor
  · intro same
    omega
  · intro one
    omega

theorem countLines_reads_two : countLines ['a', '\n', 'b'] = (scriptReads ['a', '\n', 'b']).length :=
  (countLines_reads_iff ['a', '\n', 'b'] (by decide)).mpr (by decide)

/-- A script of one line that ends in a newline. -/
theorem countLines_waits : countLines ['a', '\n'] = 2 ∧ (scriptReads ['a', '\n']).length = 1 := by decide

end ShellOs.Kernel
