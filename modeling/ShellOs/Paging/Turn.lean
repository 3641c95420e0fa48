import Mathlib.Data.Finset.Card
import ShellOs.Paging.Preload
import ShellOs.Paging.Scheduler

/-! A turn of a process, as long as there are empty frames for all the pages that it still lacks. -/

namespace ShellOs.Paging
open Kernel (Text)

structure Job where
  pid : Int
  script : Text
  numberOfCommands : Nat

def PCB.job (pcb : PCB) : Job := ⟨pcb.pid, pcb.fp.contents, pcb.numberOfCommands⟩

def Job.lines (job : Job) : List Text := (commands job.script).map removeWhitespace

/-- The process was terminated when so many of its lines as it has commands had been executed, one after the other. -/
def Complete (events : List Event) (job : Job) : Prop :=
  events.filter (fun event => event.pid = job.pid) =
    job.lines.map (Event.executed job.pid) ++ [.terminated job.pid] ∧ job.lines.length = job.numberOfCommands

def FrameStore.empties (shellFrames : Nat) (s : FrameStore) : Finset Nat :=
  (Finset.range shellFrames).filter fun i => (s.shellframes i).empty = true

def PCB.missing (pcb : PCB) : Finset Nat :=
  (Finset.range ((pcb.numberOfCommands + 2) / 3)).filter fun page => pcb.pageTable page = -1

def Keeps (s t : FrameStore) : Prop := ∀ i, (s.shellframes i).empty = false →
  (t.shellframes i).empty = false ∧ (t.shellframes i).pid = (s.shellframes i).pid ∧
    (t.shellframes i).lines = (s.shellframes i).lines

def Held (shellFrames : Nat) (s : FrameStore) (pcb : PCB) (page : Nat) : Prop :=
  ∃ frame < shellFrames, pcb.pageTable page = frame ∧ (s.shellframes frame).empty = false ∧
    HoldsPage s frame ((commands pcb.fp.contents).drop (3 * page)) pcb.pid

/-- A process whose lines up to the program counter have been executed, and whose pages are there or still to come. -/
structure Going (shellFrames : Nat) (s : FrameStore) (events : List Event) (pcb : PCB) : Prop where
  counted : (commands pcb.fp.contents).length = pcb.numberOfCommands
  short : pcb.numberOfCommands ≤ 300
  position : pcb.currentCommand = pcb.pc
  within : pcb.pc ≤ pcb.numberOfCommands
  pages : ∀ page, page * 3 < pcb.numberOfCommands →
    Held shellFrames s pcb page ∨ (pcb.pageTable page = -1 ∧ pcb.pc ≤ page * 3)
  done : events.filter (fun event => event.pid = pcb.pid) = (pcb.job.lines.take pcb.pc).map (Event.executed pcb.pid)

section store

variable {shellFrames frame page : Nat} {s t u : FrameStore} {pcb next : PCB} {events : List Event} {fp : Text} {pid : Int}

theorem mem_empties : frame ∈ s.empties shellFrames ↔ frame < shellFrames ∧ (s.shellframes frame).empty = true := by
  rw [FrameStore.empties, Finset.mem_filter, Finset.mem_range]

theorem mem_missing : page ∈ pcb.missing ↔ page * 3 < pcb.numberOfCommands ∧ pcb.pageTable page = -1 := by
  rw [PCB.missing, Finset.mem_filter, Finset.mem_range]
  have same : page < (pcb.numberOfCommands + 2) / 3 ↔ page * 3 < pcb.numberOfCommands := by omega
  rw [same]

theorem Keeps.refl (s : FrameStore) : Keeps s s := fun _ full => ⟨full, rfl, rfl⟩

theorem Keeps.trans (earlier : Keeps s t) (later : Keeps t u) : Keeps s u := fun i full => by
  obtain ⟨still, pid, lines⟩ := earlier i full
  obtain ⟨last, pid', lines'⟩ := later i still
  exact ⟨last, pid'.trans pid, lines'.trans lines⟩

theorem Keeps.held (keeps : Keeps s t) (held : Held shellFrames s pcb page) : Held shellFrames t pcb page := by
  obtain ⟨frame, inside, entry, full, owned, lines⟩ := held
  obtain ⟨still, pid, same⟩ := keeps frame full
  exact ⟨frame, inside, entry, still, pid.trans owned, same ▸ lines⟩

theorem Keeps.going (keeps : Keeps s t) (going : Going shellFrames s events pcb) : Going shellFrames t events pcb where
  counted := going.counted
  short := going.short
  position := going.position
  within := going.within
  pages page more := (going.pages page more).imp_left keeps.held
  done := going.done

theorem getLine_frames (shellFrames : Nat) (s : FrameStore) (pid frameIndex lineIndex : Int) (i : Nat) :
    ∃ lru, (s.getLineFromFrameStore shellFrames pid frameIndex lineIndex).2.shellframes i =
      { s.shellframes i with lru := lru } := by
  rw [FrameStore.getLineFromFrameStore]
  split
  · by_cases here : i = frameIndex.toNat
    · exact ⟨s.numLru, by rw [here]; exact Function.update_self ..⟩
    · exact ⟨(s.shellframes i).lru, Function.update_of_ne here ..⟩
  · exact ⟨(s.shellframes i).lru, rfl⟩

theorem getLine_keeps (shellFrames : Nat) (s : FrameStore) (pid frameIndex lineIndex : Int) :
    Keeps s (s.getLineFromFrameStore shellFrames pid frameIndex lineIndex).2 ∧
      (s.getLineFromFrameStore shellFrames pid frameIndex lineIndex).2.empties shellFrames = s.empties shellFrames := by
  have frames := getLine_frames shellFrames s pid frameIndex lineIndex
  generalize (s.getLineFromFrameStore shellFrames pid frameIndex lineIndex).2 = t at frames
  constructor
  · intro i full
    obtain ⟨lru, same⟩ := frames i
    simp only [same, full, and_self]
  · ext i
    obtain ⟨lru, same⟩ := frames i
    rw [mem_empties, mem_empties, same]

theorem loadInto_keeps (empty : frame ∈ s.empties shellFrames) (fp : Text) (pid : Int) :
    Keeps s (s.loadInto frame fp pid) := fun i full => by
  have other : i ≠ frame := by
    rintro rfl
    rw [(mem_empties.mp empty).2] at full
    cases full
  rw [loadInto_other other]
  exact ⟨full, rfl, rfl⟩

theorem loadInto_empties (shellFrames : Nat) (s : FrameStore) (frame : Nat) (fp : Text) (pid : Int) :
    (s.loadInto frame fp pid).empties shellFrames = (s.empties shellFrames).erase frame := by
  ext i
  rw [Finset.mem_erase, mem_empties, mem_empties]
  by_cases here : i = frame
  · rw [here, loadInto_self]
    simp
  · rw [loadInto_other here]
    simp [here]

theorem loadFrame_fresh (some' : (s.empties shellFrames).Nonempty) (fp : Text) (pid : Int) :
    ∃ frame ∈ s.empties shellFrames, ∃ left, commands left = (commands fp).drop 3 ∧
      s.loadFrame shellFrames fp pid = some (frame, s.loadInto frame fp pid, left) := by
  obtain ⟨i, member⟩ := some'
  obtain ⟨inside, empty⟩ := mem_empties.mp member
  obtain ⟨frame, within, found, free⟩ := findEmptyFrame_some inside empty
  exact ⟨frame, mem_empties.mpr ⟨within, free⟩, _, (fillFrame_lines 3 0 (s.shellframes frame) fp).2,
    loadFrame_empty found fp pid⟩

theorem skipCommands_drop (count : Nat) (fp : Text) : commands (skipCommands count fp) = (commands fp).drop count := by
  induction count generalizing fp with
  | zero => rfl
  | succ count ih =>
    rw [skipCommands]
    rcases readNextCommand_spec fp with ⟨none', atEnd⟩ | ⟨line, rest, read, more, -⟩
    · rw [atEnd]
      simp only
      rw [ih fp, none', List.drop_nil, List.drop_nil]
    · rw [read, more, List.drop_succ_cons]
      exact ih rest

theorem Going.missing_done (going : Going shellFrames s events pcb) (last : pcb.numberOfCommands ≤ pcb.pc) :
    pcb.missing = ∅ := by
  ext page
  refine iff_of_false (fun member => ?_) (Finset.notMem_empty page)
  obtain ⟨more, absent⟩ := mem_missing.mp member
  rcases going.pages page more with ⟨frame, -, entry, -⟩ | ⟨-, behind⟩
  · omega
  · omega

theorem Held.entry (held : Held shellFrames s pcb page) : pcb.pageTable page ≠ -1 := by
  obtain ⟨frame, -, entry, -⟩ := held
  omega

theorem Held.currentLine {line : Text} (held : Held shellFrames s pcb (pcb.pc / 3))
    (there : pcb.job.lines[pcb.pc]? = some line) :
    ∃ t, currentLine shellFrames pcb s = (some line, t) ∧ Keeps s t ∧ t.empties shellFrames = s.empties shellFrames := by
  have known := held.entry
  obtain ⟨frame, inside, entry, -, page⟩ := held
  obtain ⟨command, found, rfl⟩ : ∃ command, (commands pcb.fp.contents)[pcb.pc]? = some command ∧
      removeWhitespace command = line := by
    rw [Job.lines, List.getElem?_map] at there
    exact Option.map_eq_some_iff.mp there
  have inPage : ((commands pcb.fp.contents).drop (3 * (pcb.pc / 3)))[pcb.pc % 3]? = some command := by
    rw [List.getElem?_drop, Nat.div_add_mod, found]
  have line := PageIn.getLine ⟨frame, inside, entry, page⟩ (Nat.mod_lt pcb.pc (by decide)) inPage
  rw [if_pos rfl] at line
  obtain ⟨keeps, empties⟩ := getLine_keeps shellFrames s pcb.pid (pcb.pageTable (pcb.pc / 3)) (pcb.pc % 3 : Nat)
  refine ⟨_, ?_, keeps, empties⟩
  rw [Paging.currentLine, if_neg known, ← line]

end store

section turn

variable {σ : Type} {shellFrames quanta : Nat} {parseInput : Text → σ → σ} {s t : FrameStore} {pcb next : PCB}
  {events : List Event} {k : KernelState σ} {left : Option PCB}

/-- What a turn does: other processes are left alone, the process ends when nothing is missing, and it goes on for want of
a page or at the end of its quanta. -/
structure Turn (shellFrames quanta : Nat) (pcb : PCB) (k : KernelState σ) (left : Option PCB) (after : KernelState σ) :
    Prop where
  queue : after.queue = k.queue
  keeps : Keeps k.store after.store
  others : ∀ pid ≠ pcb.pid,
    after.events.filter (fun event => event.pid = pid) = k.events.filter fun event => event.pid = pid
  ended : left = none → Complete after.events pcb.job ∧ pcb.missing = ∅ ∧
    after.store.empties shellFrames = k.store.empties shellFrames
  goes : ∀ next, left = some next → next.job = pcb.job ∧ Going shellFrames after.store after.events next ∧
    ((pcb.pc ≤ next.pc ∧ next.missing.card + 1 = pcb.missing.card ∧
        (after.store.empties shellFrames).card + 1 = (k.store.empties shellFrames).card) ∨
      (next.pc = pcb.pc + quanta ∧ next.pc < next.numberOfCommands ∧ next.missing = pcb.missing ∧
        after.store.empties shellFrames = k.store.empties shellFrames))

theorem lines_length (job : Job) : job.lines.length = (commands job.script).length := List.length_map ..

theorem Going.complete (going : Going shellFrames s events pcb) (last : pcb.numberOfCommands ≤ pcb.pc) :
    Complete (events ++ [.terminated pcb.pid]) pcb.job := by
  have whole : pcb.job.lines.length = pcb.numberOfCommands := (lines_length pcb.job).trans going.counted
  refine ⟨?_, whole⟩
  have done := going.done
  rw [List.take_of_length_le (by omega)] at done
  rw [List.filter_append]
  exact congrArg₂ (· ++ ·) done (List.filter_cons_of_pos (by simp [Event.pid, PCB.job]))

def PCB.advance (pcb : PCB) : PCB :=
  { pcb with pc := pcb.pc + 1, currentCommand := pcb.currentCommand + 1, priority := false }

theorem Going.advance {line : Text} (going : Going shellFrames s events pcb) (more : pcb.pc < pcb.numberOfCommands)
    (held : Held shellFrames s pcb (pcb.pc / 3)) (there : pcb.job.lines[pcb.pc]? = some line) :
    Going shellFrames s (events ++ [.executed pcb.pid line]) pcb.advance where
  counted := going.counted
  short := going.short
  position := congrArg (· + 1) going.position
  within := more
  pages page inside := by
    rcases going.pages page inside with here | ⟨absent, behind⟩
    · exact .inl here
    · have other : page ≠ pcb.pc / 3 := by
        rintro rfl
        exact held.entry absent
      refine .inr ⟨absent, ?_⟩
      change pcb.pc + 1 ≤ page * 3
      omega
  done := by
    change _ = (pcb.job.lines.take (pcb.pc + 1)).map (Event.executed pcb.pid)
    rw [List.filter_append, List.take_add_one, there, List.map_append]
    exact congrArg₂ (· ++ ·) going.done (List.filter_cons_of_pos (by simp [Event.pid, PCB.advance]))

theorem pageFault_spec (going : Going shellFrames s events pcb) (more : pcb.pc < pcb.numberOfCommands)
    (absent : pcb.pageTable (pcb.pc / 3) = -1) (room : (s.empties shellFrames).Nonempty) :
    ∃ next t, pageFault shellFrames pcb s = some (next, t) ∧ next.job = pcb.job ∧ next.pc = pcb.pc ∧ Keeps s t ∧
      Going shellFrames t events next ∧ next.missing.card + 1 = pcb.missing.card ∧
      (t.empties shellFrames).card + 1 = (s.empties shellFrames).card := by
  have start : pcb.pc = 3 * (pcb.pc / 3) := by
    rcases going.pages (pcb.pc / 3) (by omega) with held | ⟨-, behind⟩
    · exact absurd absent held.entry
    · omega
  have rest : commands (skipCommands pcb.currentCommand pcb.fp.contents) = (commands pcb.fp.contents).drop pcb.pc := by
    rw [skipCommands_drop, going.position]
  have low : ¬ 100 ≤ pcb.pc / 3 := by
    have short := going.short
    omega
  rw [pageFault]
  generalize skipCommands pcb.currentCommand pcb.fp.contents = fp at rest ⊢
  obtain ⟨frame, member, left, -, loads⟩ := loadFrame_fresh room fp pcb.pid
  have page := loadInto_holds s frame fp pcb.pid
  have keeps := loadInto_keeps member fp pcb.pid
  have empties := loadInto_empties shellFrames s frame fp pcb.pid
  have full := congrArg FrameStruct.empty (loadInto_self s frame fp pcb.pid)
  rw [rest] at page
  refine ⟨{ pcb with fp := { pcb.fp with left := left }, pageTable := Function.update pcb.pageTable (pcb.pc / 3) frame },
    s.loadInto frame fp pcb.pid, ?_, rfl, rfl, keeps, ?_, ?_, ?_⟩
  · rw [loads]
    simp only [Option.bind_eq_bind, Option.bind_some, setFrame, if_neg low]
  · refine ⟨going.counted, going.short, going.position, going.within, fun other inside => ?_, going.done⟩
    by_cases here : other = pcb.pc / 3
    · refine .inl ⟨frame, (mem_empties.mp member).1, ?_, full, ?_⟩
      · rw [here]
        exact Function.update_self ..
      · rw [here, ← start]
        exact page
    · rcases going.pages other inside with held | ⟨missing, behind⟩
      · obtain ⟨frame, within, entry, still⟩ := keeps.held held
        exact .inl ⟨frame, within, (Function.update_of_ne here ..).trans entry, still⟩
      · exact .inr ⟨(Function.update_of_ne here ..).trans missing, behind⟩
  · have was : pcb.pc / 3 ∈ pcb.missing := mem_missing.mpr ⟨by omega, absent⟩
    rw [← Finset.card_erase_add_one was]
    congr 2
    ext other
    rw [Finset.mem_erase, mem_missing, mem_missing]
    by_cases here : other = pcb.pc / 3
    · simp [here]
    · simp [here]
  · rw [empties, Finset.card_erase_add_one member]

theorem filter_others {event : Event} {pid : Int} (own : event.pid = pcb.pid) (other : pid ≠ pcb.pid) (events : List Event) :
    (events ++ [event]).filter (fun event => event.pid = pid) = events.filter fun event => event.pid = pid := by
  have out : ¬ event.pid = pid := fun same => other (same.symm.trans own)
  rw [List.filter_append, List.filter_cons_of_neg (by simp [out]), List.filter_nil, List.append_nil]

theorem turn_last (going : Going shellFrames k.store k.events pcb) (last : pcb.numberOfCommands ≤ pcb.pc) (quanta : Nat) :
    Turn shellFrames quanta pcb k none { k with events := k.events ++ [.terminated pcb.pid] } where
  queue := rfl
  keeps := Keeps.refl k.store
  others _ other := filter_others rfl other k.events
  ended _ := ⟨going.complete last, going.missing_done last, rfl⟩
  goes _ absurd' := by cases absurd'

theorem Turn.after_line {line : Text} {shell : σ} {after : KernelState σ} (keeps : Keeps k.store t)
    (empties : t.empties shellFrames = k.store.empties shellFrames)
    (turn : Turn shellFrames quanta pcb.advance
      { k with store := t, shell := shell, events := k.events ++ [.executed pcb.pid line] } left after) :
    Turn shellFrames (quanta + 1) pcb k left after where
  queue := turn.queue
  keeps := keeps.trans turn.keeps
  others pid other := (turn.others pid other).trans (filter_others rfl other k.events)
  ended stops := by
    obtain ⟨complete, missing, same⟩ := turn.ended stops
    exact ⟨complete, missing, same.trans empties⟩
  goes next goesOn := by
    obtain ⟨job, going, fault | full⟩ := turn.goes next goesOn
    · obtain ⟨later, fewer, taken⟩ := fault
      simp only [empties] at taken
      exact ⟨job, going, .inl ⟨Nat.le_of_succ_le later, fewer, taken⟩⟩
    · obtain ⟨whole, more, missing, same⟩ := full
      refine ⟨job, going, .inr ⟨?_, more, missing, same.trans empties⟩⟩
      rw [whole, PCB.advance, Nat.add_assoc, Nat.add_comm 1]

theorem runQuanta_spec (parseInput : Text → σ → σ) (quanta : Nat) (going : Going shellFrames k.store k.events pcb)
    (more : pcb.pc < pcb.numberOfCommands) (room : pcb.missing.card ≤ (k.store.empties shellFrames).card) :
    ∃ left after, runQuanta shellFrames parseInput quanta pcb k = some (left, after) ∧
      Turn shellFrames quanta pcb k left after := by
  induction quanta generalizing pcb k with
  | zero =>
    refine ⟨some pcb, k, rfl, rfl, Keeps.refl k.store, fun _ _ => rfl, fun ended => (by cases ended), ?_⟩
    rintro next ⟨⟩
    exact ⟨rfl, going, .inr ⟨rfl, more, rfl, rfl⟩⟩
  | succ quanta ih =>
    rw [runQuanta]
    rcases going.pages (pcb.pc / 3) (by omega) with held | ⟨absent, -⟩
    · obtain ⟨line, there⟩ : ∃ line, pcb.job.lines[pcb.pc]? = some line := by
        refine ⟨_, List.getElem?_eq_getElem ?_⟩
        rw [lines_length]
        exact Nat.lt_of_lt_of_eq more going.counted.symm
      obtain ⟨s, found, keeps, empties⟩ := held.currentLine there
      obtain ⟨t, again, keeps', empties'⟩ := (keeps.held held).currentLine there
      have next := ((keeps.trans keeps').going going).advance more ((keeps.trans keeps').held held) there
      rw [found]
      simp only [again, Option.bind_eq_bind, Option.bind_some]
      by_cases last : pcb.pc + 1 = pcb.numberOfCommands
      · rw [if_pos last]
        exact ⟨none, _, rfl, (turn_last next (Nat.le_of_eq last.symm) quanta).after_line (keeps.trans keeps')
          (empties'.trans empties)⟩
      · rw [if_neg last]
        have fits : pcb.advance.missing.card ≤ (t.empties shellFrames).card := by
          rw [empties', empties]
          exact room
        obtain ⟨left, after, result, turn⟩ := ih
          (k := { k with store := t, shell := parseInput line k.shell, events := k.events ++ [.executed pcb.pid line] })
          next (Nat.lt_of_le_of_ne more last) fits
        exact ⟨left, after, result, turn.after_line (keeps.trans keeps') (empties'.trans empties)⟩
    · have fault : currentLine shellFrames pcb k.store = (none, k.store) := by
        rw [currentLine, if_pos absent]
      have some' : (k.store.empties shellFrames).Nonempty := by
        rw [← Finset.card_pos]
        have was : pcb.pc / 3 ∈ pcb.missing := mem_missing.mpr ⟨by omega, absent⟩
        exact Nat.lt_of_lt_of_le (Finset.card_pos.mpr ⟨_, was⟩) room
      obtain ⟨next, t, result, job, same, keeps, still, fewer, taken⟩ := pageFault_spec going more absent some'
      rw [fault]
      simp only [result, Option.bind_eq_bind, Option.bind_some]
      refine ⟨some next, _, rfl, rfl, keeps, fun _ _ => rfl, fun ended => (by cases ended), ?_⟩
      rintro _ ⟨⟩
      exact ⟨job, still, .inl ⟨Nat.le_of_eq same.symm, fewer, taken⟩⟩

theorem executeProcess_spec (parseInput : Text → σ → σ) (quanta : Nat) (going : Going shellFrames k.store k.events pcb)
    (room : pcb.missing.card ≤ (k.store.empties shellFrames).card) :
    ∃ left after, executeProcess shellFrames parseInput quanta pcb k = some (left, after) ∧
      Turn shellFrames quanta pcb k left after := by
  rw [executeProcess]
  by_cases last : pcb.pc = pcb.numberOfCommands
  · rw [if_pos last]
    exact ⟨none, _, rfl, turn_last going (Nat.le_of_eq last.symm) quanta⟩
  · rw [if_neg last]
    exact runQuanta_spec parseInput quanta going (Nat.lt_of_le_of_ne going.within last) room

end turn

end ShellOs.Paging
