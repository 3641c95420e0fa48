import ShellOs.Kernel.CommandLine
import ShellOs.Kernel.FramePlaces
import ShellOs.Kernel.VariableStore

/-! Scripts of non-empty lines under the round-robin scheduler: each process executes the lines of its script, unless one of
them is too long for `fgets` to read it together with its newline (pcb.c, kernel.c). -/

namespace ShellOs.Kernel
open KernelState

/-- The lines of a script, each with the newline that ends it. -/
def fileLines (script : Text) : List Text := (terminatedLines script).map (· ++ ['\n']) ++ [lastLine script]

/-- Lines shorter than 999 characters, separated by single newlines. -/
def Separated (script : Text) : Prop := ∀ l ∈ script.splitOn '\n', l ≠ [] ∧ l.length < 999

section lines

variable {script : Text}

theorem Separated.counts (separated : Separated script) : countLines script = (fileLines script).length := by
  have counted := countLoop_eq script 0
  have full : (terminatedLines script).count [] = 0 := by
    rw [List.count_eq_zero]
    intro empty
    exact (separated [] ((List.dropLast_sublist _).subset empty)).1 rfl
  rw [countLines, fileLines, List.length_append, List.length_map, List.length_singleton]
  omega

theorem readLines_whole (separated : Separated script) (whole : ∀ l ∈ terminatedLines script, l.length ≠ 998) {calls : Nat}
    (enough : script.length ≤ calls) : readLines calls script = fileLines script := by
  induction script using script_induction generalizing calls with
  | last l plain =>
    obtain ⟨none', all⟩ := terminatedLines_last plain
    rw [Separated, List.splitOn_eq_singleton plain] at separated
    obtain ⟨some', short⟩ := separated l (List.mem_singleton.mpr rfl)
    obtain ⟨calls, rfl⟩ := Nat.exists_eq_succ_of_ne_zero
      (Nat.ne_of_gt (Nat.lt_of_lt_of_le (List.length_pos_iff.mpr some') enough))
    rw [readLines_some some', takeLine_last plain (Nat.le_of_lt_succ short), readLines_nil, fileLines, none', all]
    rfl
  | line l rest plain ih =>
    obtain ⟨more, same⟩ := terminatedLines_line plain rest
    rw [Separated, List.splitOn_append_cons_self_of_not_mem plain] at separated
    rw [more] at whole
    have short := (separated l List.mem_cons_self).2
    have fits : l.length < 998 := Nat.lt_of_le_of_ne (Nat.le_of_lt_succ short) (whole l List.mem_cons_self)
    have later := @ih (fun line member => separated line (List.mem_cons_of_mem l member))
      (fun line member => whole line (List.mem_cons_of_mem l member))
    rw [List.length_append, List.length_cons] at enough
    obtain ⟨calls, rfl⟩ := Nat.exists_eq_add_of_le (show 1 ≤ calls by omega)
    rw [Nat.add_comm 1, readLines_some (by simp), takeLine_line plain (Nat.le_of_lt fits), if_pos fits]
    simp only [fileLines, more, same, List.map_cons, List.cons_append]
    rw [later (by omega)]
    rfl

theorem takeLine_short (room : Nat) (file : Text) : (takeLine room file).1.length ≤ room := by
  induction file generalizing room with
  | nil => cases room <;> exact Nat.zero_le _
  | cons c rest ih =>
    cases room with
    | zero => exact Nat.le_refl _
    | succ room =>
      rw [takeLine]
      split
      · exact Nat.succ_le_succ (Nat.zero_le _)
      · exact Nat.succ_le_succ (ih room)

end lines

/-- The lines given to `parseInput` in these events, whatever their process. -/
def lineCount (events : List Event) : Nat :=
  events.countP fun
    | .executes _ _ => true
    | .evicts _ _ => false

namespace KernelState

section turns

variable (sizes : StoreSizes) (parseInput : Text → ShellMemory → Int × ShellMemory)

/-- What happens in the turns of `run_proc_RR`, one after the other. -/
def queueTurns : Nat → KernelState → List (List Event)
  | 0, _ => []
  | fuel + 1, k =>
    if k.queueDone then []
    else k.turnEvents sizes parseInput :: (k.turn sizes parseInput).toList.flatMap (queueTurns fuel)

variable {sizes parseInput} {k : KernelState}

theorem flatten_queueTurns (fuel : Nat) :
    (k.queueTurns sizes parseInput fuel).flatten = k.queueEvents sizes parseInput fuel := by
  induction fuel generalizing k with
  | zero => rfl
  | succ fuel ih =>
    rw [queueTurns, queueEvents]
    split
    · rfl
    · cases k.turn sizes parseInput with
      | none => rfl
      | some t =>
        rw [List.flatten_cons, Option.toList_some, List.flatMap_singleton, List.flatMap_singleton, ih]

theorem lineCount_append (events later : List Event) : lineCount (events ++ later) = lineCount events + lineCount later :=
  List.countP_append

theorem lineCount_victims (pid i : Nat) : lineCount (k.victims sizes pid i) = 0 := by
  rw [victims]
  split
  next t _ =>
    rw [lineCount, List.countP_eq_zero]
    intro event member
    obtain ⟨victim, -, rfl⟩ := List.mem_map.mp member
    exact Bool.false_ne_true
  next => rfl

theorem lineCount_lineEvents (pid : Nat) : lineCount (k.lineEvents sizes parseInput pid) ≤ 1 := by
  rw [lineEvents]
  split
  next => exact Nat.zero_le 1
  next i line _ =>
    have few : lineCount (((k.page pid i).toList.filter fun page => page.validBit line).map
        fun page => .executes pid (k.memory (page.index line)).value) ≤ 1 := by
      refine List.countP_le_length.trans ?_
      rw [List.length_map]
      refine (List.length_filter_le ..).trans ?_
      cases k.page pid i <;> simp
    rw [lineCount_append]
    split
    next => rw [lineCount_victims]; exact few
    next => exact few

theorem lineCount_turnEvents : lineCount (k.turnEvents sizes parseInput) ≤ 2 := by
  rw [turnEvents]
  split
  next => exact Nat.zero_le 2
  next pid rest _ =>
    dsimp only
    have first : lineCount (lineEvents sizes parseInput { k with queue := rest } pid) ≤ 1 := lineCount_lineEvents pid
    split
    next =>
      rw [lineCount_append]
      split
      next t _ =>
        have second : lineCount (t.lineEvents sizes parseInput pid) ≤ 1 := lineCount_lineEvents pid
        omega
      next => exact Nat.le_succ_of_le first
    next =>
      split
      next => exact Nat.le_succ_of_le first
      next => exact Nat.zero_le 2

theorem lineCount_queueTurns {fuel : Nat} {turn : List Event} (member : turn ∈ k.queueTurns sizes parseInput fuel) :
    lineCount turn ≤ 2 := by
  induction fuel generalizing k with
  | zero => cases member
  | succ fuel ih =>
    rw [queueTurns] at member
    split at member
    next => cases member
    next =>
      rcases List.mem_cons.mp member with rfl | later
      · exact lineCount_turnEvents
      · obtain ⟨t, -, there⟩ := List.mem_flatMap.mp later
        exact ih there

end turns

/-- No slot of the frames has more characters than `fgets` reads at once, and the valid lines lie in the frames. -/
structure Short (sizes : StoreSizes) (k : KernelState) (known : List Nat) : Prop where
  values : ∀ pos < sizes.frameStoreSize, (k.memory pos).value.length ≤ 998
  pages : ∀ pid ∈ known, ∀ i page, k.page pid i = some page → ∀ line, page.validBit line = true →
    page.index line < sizes.frameStoreSize
  queued : ∀ pid ∈ k.queue, pid ∈ known

/-- The lines in these events that are of one of the processes leave the frames as they are. -/
def KeepsIn (sizes : StoreSizes) (parseInput : Text → ShellMemory → Int × ShellMemory) (known : List Nat)
    (events : List Event) : Prop :=
  ∀ pid ∈ known, ∀ text, .executes pid text ∈ events → ∀ m, ∀ pos < sizes.frameStoreSize, (parseInput text m).2 pos = m pos

def ShortIn (known : List Nat) (events : List Event) : Prop :=
  ∀ pid text, .executes pid text ∈ events → pid ∈ known ∧ text.length ≤ 998

section short

variable {sizes : StoreSizes} {parseInput : Text → ShellMemory → Int × ShellMemory} {k t : KernelState}
  {known : List Nat} {pid i fuel : Nat} {loaded fault : Bool} {page : Page} {line : Fin 3} {m : ShellMemory}
  {file text : Text}

theorem fillPage_short {bound : Nat} (name : Text) (js : List (Fin 3))
    (values : ∀ pos < bound, (m pos).value.length ≤ 998) :
    ∀ pos < bound, ((fillPage name js m page file).1 pos).value.length ≤ 998 := by
  induction js generalizing m page file with
  | nil => exact values
  | cons j js ih =>
    rw [fillPage]
    split
    next => exact values
    next line rest read =>
      refine ih fun pos inside => ?_
      by_cases here : pos = page.index j
      · rw [memSetValueAt, here, Function.update_self]
        rw [fgets] at read
        split at read
        next => cases read
        next => exact (Prod.mk.inj (Option.some_inj.mp read)).1 ▸ takeLine_short 998 file
      · rw [memSetValueAt, Function.update_of_ne here]
        exact values pos inside

theorem Short.loads (short : Short sizes k known) (run : k.loadPage sizes pid i = some (loaded, t)) :
    Short sizes t known ∧ OnlyPages k t := by
  obtain ⟨page, present, load⟩ := Option.bind_eq_some_iff.mp run
  cases found : freeFrame sizes k.memory with
  | none =>
    rw [loadPage_none present found] at run
    obtain ⟨-, rfl⟩ := Prod.mk.inj (Option.some_inj.mp run)
    exact ⟨short, .refl k⟩
  | some start =>
    obtain ⟨new, newPage, rest, fills, loads⟩ := loadPage_some present found
    obtain ⟨-, rfl⟩ := Prod.mk.inj (Option.some_inj.mp (run.symm.trans loads))
    have same := withPage_onlyPages k pid i new newPage rest
    refine ⟨⟨?_, fun other member j there inside line valid => ?_, same.queue ▸ short.queued⟩, same⟩
    · simp only [frameAlloc, found, Option.map_some] at load
      have memory : (k.withPage pid i new newPage rest).memory = _ :=
        congrArg KernelState.memory (Prod.mk.inj (Option.some_inj.mp load)).2.symm
      rw [memory]
      refine fillPage_short _ _ fun pos inside => ?_
      rw [foldl_mark]
      split <;> exact short.values pos inside
    · rw [page_withPage present] at inside
      split at inside
      next =>
        obtain rfl := Option.some_inj.mp inside
        have room := (freeFrame_some found).1
        rw [fills.index]
        omega
      next => exact short.pages other member j there inside line valid

theorem Short.evicts (short : Short sizes k known) (run : k.pageEvict pid i = some t) : Short sizes t known := by
  obtain ⟨page, present, -⟩ := Option.bind_eq_some_iff.mp run
  obtain ⟨t', run', evicts⟩ := pageEvict_some present
  obtain rfl := Option.some_inj.mp (run.symm.trans run')
  refine ⟨fun pos inside => ?_, fun other member j there inside line valid => ?_, evicts.queue ▸ short.queued⟩
  · rw [evicts.memory]
    split
    · exact show 4 ≤ 998 by decide
    · exact short.values pos inside
  · rw [evicts.pages] at inside
    split at inside
    next =>
      obtain rfl := Option.some_inj.mp inside
      cases valid
    next => exact short.pages other member j there inside line valid

theorem Short.fetches (short : Short sizes k known) (fetches : Fetches sizes k pid i t) : Short sizes t known := by
  rcases fetches with load | ⟨victim, evicted, again, -, evict, reload⟩
  · exact (short.loads load).1
  · have before : Short sizes { k with lruCache := k.lruCache.dropLast } known := ⟨short.values, short.pages, short.queued⟩
    exact ((before.evicts evict).loads reload).1

theorem lineEvents_executes {other : Nat} (member : .executes other text ∈ k.lineEvents sizes parseInput pid) :
    other = pid ∧ ∃ i line page, k.nextLine pid = some (i, line) ∧ k.page pid i = some page ∧ page.validBit line = true ∧
      text = (k.memory (page.index line)).value := by
  rw [lineEvents] at member
  split at member
  next => cases member
  next i line next =>
    rcases List.mem_append.mp member with here | later
    · obtain ⟨page, listed, same⟩ := List.mem_map.mp here
      obtain ⟨present, valid⟩ := List.mem_filter.mp listed
      obtain ⟨rfl, rfl⟩ := Event.executes.inj same
      exact ⟨rfl, i, line, page, next, Option.mem_toList.mp present, valid, rfl⟩
    · split at later
      next t _ =>
        rw [victims] at later
        split at later
        next =>
          obtain ⟨victim, -, same⟩ := List.mem_map.mp later
          cases same
        next => cases later
      next => cases later

theorem executes_mem (next : k.nextLine pid = some (i, line)) (present : k.page pid i = some page)
    (valid : page.validBit line = true) :
    .executes pid (k.memory (page.index line)).value ∈ k.lineEvents sizes parseInput pid := by
  rw [lineEvents, next]
  refine List.mem_append_left _ (List.mem_map.mpr ⟨page, ?_, rfl⟩)
  rw [present]
  exact List.mem_filter.mpr ⟨List.mem_singleton.mpr rfl, valid⟩

theorem shortIn_nil (known : List Nat) : ShortIn known [] := by
  intro pid text nothing
  cases nothing

theorem ShortIn.append {events later : List Event} (first : ShortIn known events) (second : ShortIn known later) :
    ShortIn known (events ++ later) := fun pid text member =>
  (List.mem_append.mp member).elim (first pid text) (second pid text)

theorem Short.lineEvents (short : Short sizes k known) (member : pid ∈ known) :
    ShortIn known (k.lineEvents sizes parseInput pid) := by
  intro other text event
  obtain ⟨rfl, i, line, page, -, present, valid, rfl⟩ := lineEvents_executes event
  exact ⟨member, short.values _ (short.pages other member i page present line valid)⟩

theorem Short.waits (short : Short sizes k known) (member : pid ∈ known) (lruCache : List (Nat × Nat)) :
    Short sizes { k with lruCache := lruCache, queue := k.queue ++ [pid] } known := by
  refine ⟨short.values, short.pages, fun other waits => ?_⟩
  rcases List.mem_append.mp waits with before | last
  · exact short.queued other before
  · exact List.mem_singleton.mp last ▸ member

theorem Short.runLine (short : Short sizes k known) (member : pid ∈ known)
    (keeps : KeepsIn sizes parseInput known (k.lineEvents sizes parseInput pid))
    (run : k.runLine sizes parseInput pid = some (fault, t)) : Short sizes t known := by
  obtain ⟨⟨i, line⟩, next, run⟩ := Option.bind_eq_some_iff.mp run
  replace run : k.runProc sizes parseInput pid i line = some (fault, t) := run
  obtain ⟨⟨ret, ran⟩, executed, -⟩ := Option.bind_eq_some_iff.mp run
  have before : Short sizes ran known := by
    rcases cpuRun_cases executed with ⟨-, rfl⟩ | ⟨page, present, valid, rfl⟩
    · exact short
    · have same := keeps pid member _ (executes_mem next present valid) k.memory
      refine ⟨fun pos inside => ?_, fun other listed j there inside => ?_, short.queued⟩
      · exact (congrArg (fun slot : MemoryStruct => slot.value.length) (same pos inside)).trans_le (short.values pos inside)
      · rw [page_counted] at inside
        exact short.pages other listed j there inside
  by_cases one : ret = 1
  · subst one
    obtain ⟨-, u, fetches, rfl⟩ := runProc_fault executed run
    exact (before.fetches fetches).waits member _
  · obtain ⟨-, cached, rfl, -⟩ := runProc_goesOn executed one run
    exact ⟨before.values, before.pages, before.queued⟩

theorem Short.turn (short : Short sizes k known) (keeps : KeepsIn sizes parseInput known (k.turnEvents sizes parseInput)) :
    ShortIn known (k.turnEvents sizes parseInput) ∧ ∀ t, k.turn sizes parseInput = some t → Short sizes t known := by
  cases first : k.queue with
  | nil =>
    refine ⟨fun pid text event => ?_, fun t run => ?_⟩
    · rw [turnEvents, first] at event
      cases event
    · rw [KernelState.turn, first] at run
      cases run
  | cons pid rest =>
    have member : pid ∈ known := short.queued pid (first ▸ List.mem_cons_self)
    have begins : Short sizes { k with queue := rest } known :=
      ⟨short.values, short.pages, fun other later => short.queued other (first ▸ List.mem_cons_of_mem pid later)⟩
    have line : ShortIn known (({ k with queue := rest } : KernelState).lineEvents sizes parseInput pid) :=
      begins.lineEvents member
    simp only [turnEvents, first] at keeps ⊢
    simp only [KernelState.turn, first]
    split at keeps
    next many =>
      rw [if_pos many]
      have early : KeepsIn sizes parseInput known (({ k with queue := rest } : KernelState).lineEvents sizes parseInput pid) :=
        fun other listed text inside => keeps other listed text (List.mem_append_left _ inside)
      split at keeps
      next u ran =>
        have between := begins.runLine member early ran
        have later : KeepsIn sizes parseInput known (u.lineEvents sizes parseInput pid) :=
          fun other listed text inside => keeps other listed text (List.mem_append_right _ inside)
        refine ⟨line.append (between.lineEvents member), fun t run => ?_⟩
        rw [if_pos many] at run
        obtain ⟨both, ran', run⟩ := Option.bind_eq_some_iff.mp run
        obtain rfl := Option.some_inj.mp (ran.symm.trans ran')
        obtain ⟨⟨fault, v⟩, next, run⟩ := Option.bind_eq_some_iff.mp run
        have after := between.runLine member later next
        cases fault with
        | true => exact Option.some_inj.mp run ▸ after
        | false => exact Option.some_inj.mp run ▸ after.waits member v.lruCache
      next other =>
        refine ⟨line.append (shortIn_nil _), fun t run => ?_⟩
        rw [if_pos many] at run
        obtain ⟨⟨fault, u⟩, ran, run⟩ := Option.bind_eq_some_iff.mp run
        cases fault with
        | true => exact Option.some_inj.mp run ▸ begins.runLine member early ran
        | false => exact absurd ran (other u)
    next few =>
      rw [if_neg few]
      split at keeps
      next one =>
        rw [if_pos one]
        refine ⟨line, fun t run => ?_⟩
        rw [if_neg few, if_pos one] at run
        obtain ⟨⟨fault, u⟩, ran, run⟩ := Option.bind_eq_some_iff.mp run
        exact Option.some_inj.mp run ▸ begins.runLine member keeps ran
      next none' =>
        rw [if_neg none']
        refine ⟨shortIn_nil _, fun t run => ?_⟩
        rw [if_neg few, if_neg none'] at run
        exact Option.some_inj.mp run ▸ begins

theorem Short.queueEvents (short : Short sizes k known)
    (keeps : KeepsIn sizes parseInput known (k.queueEvents sizes parseInput fuel)) :
    ShortIn known (k.queueEvents sizes parseInput fuel) := by
  induction fuel generalizing k with
  | zero => exact shortIn_nil _
  | succ fuel ih =>
    rw [KernelState.queueEvents] at keeps ⊢
    split at keeps
    next done =>
      rw [if_pos done]
      exact shortIn_nil _
    next left =>
      rw [if_neg left]
      obtain ⟨events, next⟩ := short.turn fun pid listed text member => keeps pid listed text (List.mem_append_left _ member)
      refine events.append fun pid text member => ?_
      obtain ⟨t, there, later⟩ := List.mem_flatMap.mp member
      refine ih (next t (Option.mem_toList.mp there)) (fun other listed line inside => ?_) pid text later
      exact keeps other listed line (List.mem_append_right _ (List.mem_flatMap.mpr ⟨t, there, inside⟩))

theorem Short.loadPages {pages : List Nat} (short : Short sizes k known)
    (run : KernelState.loadPages sizes pid pages k = some t) : Short sizes t known ∧ OnlyPages k t := by
  induction pages generalizing k with
  | nil =>
    obtain rfl := Option.some_inj.mp run
    exact ⟨short, .refl k⟩
  | cons i rest ih =>
    obtain ⟨⟨loaded, u⟩, load, run⟩ := Option.bind_eq_some_iff.mp run
    obtain ⟨between, same⟩ := short.loads load
    cases loaded with
    | false => cases run
    | true =>
      obtain ⟨after, same'⟩ := ih between run
      exact ⟨after, same.trans same'⟩

theorem Short.newProc {script : Option Text} (short : Short sizes k known) (run : k.newProc sizes script = some t) :
    Short sizes t (known ++ [k.pidCounter]) ∧ t.pidCounter = k.pidCounter + 1 := by
  obtain ⟨text, -, run⟩ := Option.bind_eq_some_iff.mp run
  obtain ⟨u, loads, run⟩ := Option.bind_eq_some_iff.mp run
  obtain rfl := Option.some_inj.mp run
  obtain ⟨pcb, new⟩ : ∃ pcb : PagedPCB, pcb = ⟨k.pidCounter, countLines text, fun _ => 0,
      (List.range (pageTableSize (countLines text))).map (pageInit k.pidCounter), text⟩ := ⟨_, rfl⟩
  have begins : Short sizes { k.setPcb k.pidCounter pcb with pidCounter := k.pidCounter + 1 } (known ++ [k.pidCounter]) := by
    refine ⟨short.values, fun pid member i page present line valid => ?_, fun pid waits => ?_⟩
    · replace present : (k.setPcb k.pidCounter pcb).page pid i = some page := present
      rw [page_setPcb] at present
      split at present
      next =>
        rw [new, List.getElem?_map] at present
        obtain ⟨number, -, rfl⟩ := Option.map_eq_some_iff.mp present
        cases valid
      next different =>
        have early := (List.mem_append.mp member).resolve_right fun last => different (List.mem_singleton.mp last)
        exact short.pages pid early i page present line valid
    · exact List.mem_append_left _ (short.queued pid waits)
  obtain ⟨after, same⟩ := begins.loadPages (by rw [new]; exact loads)
  refine ⟨⟨after.values, after.pages, fun pid waits => ?_⟩, same.pidCounter⟩
  rcases List.mem_append.mp waits with before | last
  · exact after.queued pid before
  · exact List.mem_append_right _ last

theorem Short.newProcs {scripts : List (Option Text)} (short : Short sizes k known)
    (run : KernelState.newProcs sizes scripts k = some t) :
    Short sizes t (known ++ List.range' k.pidCounter scripts.length) := by
  induction scripts generalizing k known with
  | nil =>
    obtain rfl := Option.some_inj.mp run
    rw [List.length_nil, List.range'_zero, List.append_nil]
    exact short
  | cons script rest ih =>
    obtain ⟨u, first, run⟩ := Option.bind_eq_some_iff.mp run
    obtain ⟨between, pidCounter⟩ := short.newProc first
    have after := ih between run
    rw [pidCounter, List.append_assoc] at after
    rw [List.length_cons, List.range'_succ]
    exact after

end short

end KernelState

/-- The run of these scripts comes to its end, and each process has executed the lines of its script, each once and in their
order, at most two in a turn; a page that was chosen as a victim had no line left, and all frames are free. -/
structure RunsExactly (sizes : StoreSizes) (parseInput : Text → ShellMemory → Int × ShellMemory) (first : Nat)
    (scripts : List Text) (started : KernelState) (fuel : Nat) (t : KernelState) : Prop where
  returns : started.runProcRR sizes parseInput fuel = some t
  lines : ∀ n script, scripts[n]? = some script →
    executed (first + n) (started.queueTurns sizes parseInput fuel).flatten = fileLines script
  turns : ∀ turn ∈ started.queueTurns sizes parseInput fuel, lineCount turn ≤ 2
  victims : ∀ before pid i after, (started.queueTurns sizes parseInput fuel).flatten = before ++ .evicts pid i :: after →
    ∃ n script, scripts[n]? = some script ∧ pid = first + n ∧
      min (3 * (i + 1)) (fileLines script).length ≤ (executed pid before).length
  free : ∀ pos < sizes.frameStoreSize, (t.memory pos).var = noneText

section exact

variable {sizes : StoreSizes} {parseInput : Text → ShellMemory → Int × ShellMemory} {k started t : KernelState}
  {scripts : List Text} {fuel first : Nat}

theorem mem_executed {pid : Nat} {text : Text} {events : List Event} :
    text ∈ executed pid events ↔ .executes pid text ∈ events := by
  rw [executed, List.mem_filterMap]
  constructor
  · rintro ⟨event, member, here⟩
    cases event with
    | executes other line =>
      simp only [Option.ite_none_right_eq_some, Option.some_inj] at here
      obtain ⟨rfl, rfl⟩ := here
      exact member
    | evicts => cases here
  · intro member
    exact ⟨_, member, if_pos rfl⟩

theorem runsExactly_of_whole (noQueue : k.queue = []) (noCache : k.lruCache = []) (nobody : k.allPcb = [])
    (empty : ∀ pos < sizes.frameStoreSize, (k.memory pos).var = noneText)
    (separated : ∀ script ∈ scripts, Separated script)
    (goesOn : ∀ script ∈ scripts, GoesOn sizes parseInput (fileLines script))
    (starts : newProcs sizes (scripts.map some) k = some started)
    (whole : ∀ script ∈ scripts, ∀ l ∈ terminatedLines script, l.length ≠ 998) :
    ∃ fuel t, RunsExactly sizes parseInput k.pidCounter scripts started fuel t := by
  have reads : ∀ script ∈ scripts, scriptReads script = fileLines script := fun script member =>
    readLines_whole (separated script member) (whole script member) (Nat.le_refl _)
  have matched : ∀ script ∈ scripts, countLines script = (scriptReads script).length := fun script member => by
    rw [reads script member, (separated script member).counts]
  obtain ⟨fuel, t, work, loop, scheduled, lines, victims⟩ := newProcs_executes noQueue noCache nobody empty matched
    (fun script member => reads script member ▸ goesOn script member) starts
  refine ⟨fuel, t.freeAll, ?_, fun n script there => ?_, fun turn => lineCount_queueTurns, fun before pid i after split => ?_,
    fun pos inside => scheduled.freed inside⟩
  · rw [runProcRR, loop]
    rfl
  · rw [flatten_queueTurns, lines n script there, reads script (List.mem_of_getElem? there)]
  · rw [flatten_queueTurns] at split
    obtain ⟨n, script, there, same, bound⟩ := victims before pid i after split
    rw [reads script (List.mem_of_getElem? there)] at bound
    exact ⟨n, script, there, same, bound⟩

/-- A line of 998 characters and its newline are never executed together. -/
theorem RunsExactly.whole (exact' : RunsExactly sizes parseInput k.pidCounter scripts started fuel t)
    (noQueue : k.queue = []) (empty : ∀ pos < sizes.frameStoreSize, k.memory pos = ⟨noneText, noneText⟩)
    (goesOn : ∀ script ∈ scripts, GoesOn sizes parseInput (fileLines script))
    (starts : newProcs sizes (scripts.map some) k = some started) :
    ∀ script ∈ scripts, ∀ l ∈ terminatedLines script, l.length ≠ 998 := by
  have idle : Short sizes k [] := by
    refine ⟨fun pos inside => ?_, fun pid none' => absurd none' List.not_mem_nil, fun pid waits => ?_⟩
    · rw [empty pos inside]
      exact show 4 ≤ 998 by decide
    · rw [noQueue] at waits
      exact waits
  have short := idle.newProcs starts
  rw [List.nil_append, List.length_map] at short
  have lines := exact'.lines
  rw [flatten_queueTurns] at lines
  have keeps : KeepsIn sizes parseInput (List.range' k.pidCounter scripts.length)
      (started.queueEvents sizes parseInput fuel) := by
    intro pid known text event m
    rw [List.mem_range'_1] at known
    obtain ⟨n, rfl⟩ := Nat.exists_eq_add_of_le known.1
    have there := List.getElem?_eq_getElem (show n < scripts.length by omega)
    have line := lines n _ there ▸ mem_executed.mpr event
    exact (goesOn _ (List.mem_of_getElem? there) text line m).2
  intro script member l terminated full
  obtain ⟨n, inside, rfl⟩ := List.mem_iff_getElem.mp member
  have line : l ++ ['\n'] ∈ fileLines scripts[n] :=
    List.mem_append_left _ (List.mem_map_of_mem terminated)
  rw [← lines n _ (List.getElem?_eq_getElem inside)] at line
  have bound := (short.queueEvents keeps _ _ (mem_executed.mp line)).2
  rw [List.length_append, List.length_singleton] at bound
  omega

end exact

/-- Round-robin execution of scripts of non-empty lines, in a shell in which nothing else runs and all frames are free: it is
exact if and only if no line of 998 characters has another one behind it. -/
theorem runProcRR_exact_iff {sizes : StoreSizes} {parseInput : Text → ShellMemory → Int × ShellMemory}
    {k started : KernelState} {scripts : List Text} (noQueue : k.queue = []) (noCache : k.lruCache = []) (nobody : k.allPcb = [])
    (empty : ∀ pos < sizes.frameStoreSize, k.memory pos = ⟨noneText, noneText⟩)
    (separated : ∀ script ∈ scripts, Separated script)
    (goesOn : ∀ script ∈ scripts, GoesOn sizes parseInput (fileLines script))
    (starts : newProcs sizes (scripts.map some) k = some started) :
    (∃ fuel t, RunsExactly sizes parseInput k.pidCounter scripts started fuel t) ↔
      ∀ script ∈ scripts, ∀ l ∈ terminatedLines script, l.length ≠ 998 := by
  constructor
  · rintro ⟨fuel, t, exact'⟩
    exact exact'.whole noQueue empty goesOn starts
  · intro whole
    exact runsExactly_of_whole noQueue noCache nobody (fun pos inside => by rw [empty pos inside]) separated goesOn starts whole

section commands

variable {sizes : StoreSizes} {fuel : Nat} {ret result : Int} {s t : LineState ShellMemory}

/-- The shell as far as it has the commands that use the variables. -/
def storeShell (sizes : StoreSizes) (words : List Text) (s : LineState ShellMemory) : Int × LineState ShellMemory :=
  match interpreter sizes s.shell words with
  | some (reply, m) => (reply.code, { s with shell := m })
  | none => (0, s)

def storeParse (sizes : StoreSizes) (line : Text) (m : ShellMemory) : Int × ShellMemory :=
  match parseInput (storeShell sizes) (line.length + 1) line m with
  | some (ret, s) => (ret, s.shell)
  | none => (0, m)

theorem storeShell_goesOn (words : List Text) (s : LineState ShellMemory) : (storeShell sizes words s).1 ≠ 1 ∧
    ∀ pos < sizes.frameStoreSize, (storeShell sizes words s).2.shell pos = s.shell pos := by
  rw [storeShell]
  split
  next reply m run =>
    refine ⟨interpreter_code run, fun pos inside => ?_⟩
    have store : m = _ := interpreter_store run
    rw [store]
    exact StoreOp.apply_frames _ inside
  next => exact ⟨Int.zero_ne_one, fun _ _ => rfl⟩

theorem parseSections_goesOn (run : parseSections (storeShell sizes) fuel ret s = some (result, t)) (other : ret ≠ 1) :
    result ≠ 1 ∧ ∀ pos < sizes.frameStoreSize, t.shell pos = s.shell pos := by
  induction fuel generalizing ret s with
  | zero => cases run
  | succ fuel ih =>
    rw [parseSections] at run
    split at run
    next =>
      obtain ⟨rfl, rfl⟩ := Prod.mk.inj (Option.some_inj.mp run)
      exact ⟨other, fun _ _ => rfl⟩
    next token left _ =>
      obtain ⟨words, -, run⟩ := Option.bind_eq_some_iff.mp run
      obtain ⟨returns, keeps⟩ := storeShell_goesOn words { s with left := left }
      dsimp only at run
      split at run
      next =>
        obtain ⟨rfl, rfl⟩ := Prod.mk.inj (Option.some_inj.mp run)
        exact ⟨returns, keeps⟩
      next =>
        obtain ⟨last, same⟩ := ih run returns
        exact ⟨last, fun pos inside => (same pos inside).trans (keeps pos inside)⟩

/-- Of the commands that use the variables, none has the result 1, and none writes to the frames. -/
theorem storeParse_goesOn (sizes : StoreSizes) (lines : List Text) : GoesOn sizes (storeParse sizes) lines := by
  intro line _ m
  rw [storeParse]
  split
  next ret s run => exact parseSections_goesOn run Int.zero_ne_one
  next => exact ⟨Int.zero_ne_one, fun _ _ => rfl⟩

end commands

/-- Seven lines, of which the first and the fourth set a variable. The third page takes the frame of the first. -/
def sevenCommands : Text := "set x 1\nprint x\necho a\nset y 2\nprint y\necho b\nprint x".toList

theorem runProcRR_exact_commands : ∃ started fuel t, newProcs ⟨6, 2⟩ [some sevenCommands] twoFrames = some started ∧
    RunsExactly ⟨6, 2⟩ (storeParse ⟨6, 2⟩) 1 [sevenCommands] started fuel t := by
  have starts : ∃ started, newProcs ⟨6, 2⟩ ([sevenCommands].map some) twoFrames = some started := ⟨_, rfl⟩
  obtain ⟨started, starts⟩ := starts
  have separated : ∀ script ∈ [sevenCommands], Separated script := fun script member => by
    rw [List.mem_singleton.mp member, Separated]
    decide
  obtain ⟨fuel, t, runs⟩ := (runProcRR_exact_iff rfl rfl rfl (by decide) separated
    (fun _ _ => storeParse_goesOn ⟨6, 2⟩ _) starts).mpr (by decide)
  exact ⟨started, fuel, t, starts, runs⟩

/-- An `echo` of 998 characters and a `set` behind it. -/
def fullScript : Text := "echo ".toList ++ List.replicate 993 'a' ++ '\n' :: "set x 1".toList

/-- The newline of the first line is executed as a second line, and then the process is done. -/
theorem runProcRR_skips_last : Separated fullScript ∧ ∃ started t,
    newProcs ⟨6, 2⟩ [some fullScript] twoFrames = some started ∧
    started.runProcRR ⟨6, 2⟩ (storeParse ⟨6, 2⟩) 3 = some t ∧
    executed 1 (started.queueTurns ⟨6, 2⟩ (storeParse ⟨6, 2⟩) 3).flatten =
      ["echo ".toList ++ List.replicate 993 'a', ['\n']] ∧
    ¬ ∃ fuel t, RunsExactly ⟨6, 2⟩ (storeParse ⟨6, 2⟩) 1 [fullScript] started fuel t := by
  have separated : Separated fullScript := by
    rw [Separated]
    decide +kernel
  have runs : ((newProcs ⟨6, 2⟩ ([fullScript].map some) twoFrames).bind fun started =>
      (started.runProcRR ⟨6, 2⟩ (storeParse ⟨6, 2⟩) 3).map fun _ =>
        executed 1 (started.queueTurns ⟨6, 2⟩ (storeParse ⟨6, 2⟩) 3).flatten) =
      some ["echo ".toList ++ List.replicate 993 'a', ['\n']] := by decide +kernel
  obtain ⟨started, starts, runs⟩ := Option.bind_eq_some_iff.mp runs
  obtain ⟨t, run, lines⟩ := Option.map_eq_some_iff.mp runs
  refine ⟨separated, started, t, starts, run, lines, ?_⟩
  rintro ⟨fuel, t, exact'⟩
  have whole := RunsExactly.whole exact' rfl (by decide) (fun _ _ => storeParse_goesOn ⟨6, 2⟩ _) starts
  revert whole
  decide +kernel

end ShellOs.Kernel
