import ShellOs.Kernel.PageFault
import Mathlib.Data.List.FinRange
import Mathlib.Tactic.FinCases

/-! The frames of processes in pages: which lines lie where, and how a page comes and goes (pcb.c, kernel.c). -/

namespace ShellOs.Kernel

/-- What a process has to do: the lines that are read from its script, and how many of them are done and how many of its
pages have been loaded. -/
structure Work where
  reads : List Text
  done : Nat
  loaded : Nat

theorem lt_pageTableSize {i lines : Nat} : i < pageTableSize lines ↔ 3 * i < lines := by
  rw [pageTableSize]
  split <;> omega

namespace Work

variable {w : Work} {i : Nat}

def pages (w : Work) : Nat := pageTableSize w.reads.length

def Left (w : Work) (i : Nat) : Prop := w.done < min (3 * (i + 1)) w.reads.length

theorem lt_pages : i < w.pages ↔ 3 * i < w.reads.length := lt_pageTableSize

theorem left_next (left : w.done < w.reads.length) : w.Left (w.done / 3) := by
  rw [Left]
  omega

end Work

section reading

variable {file rest line : Text} {lines : List Text} {room calls calls' : Nat}

theorem takeLine_rest (room : Nat) (file : Text) : (takeLine room file).2.length ≤ file.length := by
  induction file generalizing room with
  | nil => cases room <;> exact Nat.le_refl _
  | cons c rest ih =>
    cases room with
    | zero => exact Nat.le_refl _
    | succ room =>
      rw [takeLine, List.length_cons]
      split
      · exact Nat.le_succ _
      · exact Nat.le_succ_of_le (ih room)

theorem takeLine_shrinks (some' : file ≠ []) (positive : 0 < room) : (takeLine room file).2.length < file.length := by
  obtain ⟨room, rfl⟩ := Nat.exists_eq_succ_of_ne_zero (Nat.ne_of_gt positive)
  cases file with
  | nil => exact absurd rfl some'
  | cons c rest =>
    rw [takeLine, List.length_cons]
    split
    · exact Nat.lt_succ_self _
    · exact Nat.lt_succ_of_le (takeLine_rest room rest)

theorem readLines_enough (enough : file.length ≤ calls) (enough' : file.length ≤ calls') :
    readLines calls file = readLines calls' file := by
  induction calls generalizing file calls' with
  | zero =>
    rw [List.length_eq_zero_iff.mp (Nat.le_zero.mp enough), readLines_nil, readLines_nil]
  | succ calls ih =>
    by_cases empty : file = []
    · rw [empty, readLines_nil, readLines_nil]
    · obtain ⟨calls', rfl⟩ := Nat.exists_eq_succ_of_ne_zero
        (Nat.ne_of_gt (Nat.lt_of_lt_of_le (List.length_pos_iff.mpr empty) enough'))
      have shorter := takeLine_shrinks empty (show 0 < 998 by decide)
      have behind := Nat.le_of_lt_succ (Nat.lt_of_lt_of_le shorter enough)
      have behind' := Nat.le_of_lt_succ (Nat.lt_of_lt_of_le shorter enough')
      rw [readLines_some empty, readLines_some empty, ih behind behind']

theorem fgets_none (nothing : scriptReads file = []) : fgets 999 file = none := by
  cases file with
  | nil => rfl
  | cons c rest =>
    rw [scriptReads, List.length_cons, readLines_some (List.cons_ne_nil c rest)] at nothing
    cases nothing

theorem fgets_some (next : scriptReads file = line :: lines) :
    ∃ rest, fgets 999 file = some (line, rest) ∧ scriptReads rest = lines := by
  cases file with
  | nil => cases next
  | cons c rest =>
    have shorter := takeLine_shrinks (List.cons_ne_nil c rest) (show 0 < 998 by decide)
    rw [scriptReads, List.length_cons, readLines_some (List.cons_ne_nil c rest)] at next
    obtain ⟨rfl, rfl⟩ := List.cons.inj next
    refine ⟨_, rfl, readLines_enough (Nat.le_refl _) (Nat.le_of_lt_succ shorter)⟩

end reading

section filling

variable (pid : Text) (start : Nat)

theorem fillPage_spec (js : List (Fin 3)) (m : ShellMemory) (page : Page) (file : Text) (distinct : js.Nodup)
    (inside : ∀ j, page.index j = start + j) (unread : ∀ j ∈ js, page.validBit j = false) :
    ∃ new newPage rest, fillPage pid js m page file = (new, newPage, rest) ∧
      scriptReads rest = (scriptReads file).drop js.length ∧ newPage.index = page.index ∧
      (∀ (n : Nat) (j : Fin 3), js[n]? = some j → newPage.validBit j = decide (n < (scriptReads file).length)) ∧
      (∀ j, j ∉ js → newPage.validBit j = page.validBit j) ∧
      (∀ (n : Nat) (j : Fin 3) (line : Text), js[n]? = some j → (scriptReads file)[n]? = some line →
        new (start + j) = ⟨pid, line⟩) ∧
      ∀ pos, new pos = m pos ∨ ∃ j ∈ js, ∃ line, pos = start + j.val ∧ new pos = ⟨pid, line⟩ := by
  induction js generalizing m page file with
  | nil =>
    refine ⟨m, page, file, rfl, rfl, rfl, ?_, fun _ _ => rfl, ?_, fun _ => .inl rfl⟩
    · intro n j none'
      cases none'
    · intro n j line none'
      cases none'
  | cons i js ih =>
    obtain ⟨absent, distinct⟩ := List.nodup_cons.mp distinct
    cases reads : scriptReads file with
    | nil =>
      refine ⟨m, page, file, ?_, ?_, rfl, ?_, fun _ _ => rfl, ?_, fun _ => .inl rfl⟩
      · rw [fillPage, fgets_none reads]
      · rw [reads, List.drop_nil]
      · intro n j there
        rw [unread j (List.mem_of_getElem? there)]
        rfl
      · intro n j line _ none'
        cases none'
    | cons line lines =>
      obtain ⟨behind, read, rest⟩ := fgets_some reads
      have later : ∀ j ∈ js, Function.update page.validBit i true j = false := fun j member => by
        have other : j ≠ i := fun same => absent (same ▸ member)
        rw [Function.update_of_ne other]
        exact unread j (List.mem_cons_of_mem i member)
      obtain ⟨new, newPage, last, filled, dropped, index, valid, others, lines', frame⟩ :=
        ih (memSetValueAt m (page.index i) pid line) { page with validBit := Function.update page.validBit i true }
          behind distinct inside later
      rw [rest] at dropped valid lines'
      refine ⟨new, newPage, last, ?_, dropped, index, ?_, ?_, ?_, ?_⟩
      · rw [fillPage, read]
        exact filled
      · intro n j there
        cases n with
        | zero =>
          obtain rfl := Option.some_inj.mp there
          rw [others i absent]
          exact (Function.update_self i true page.validBit).trans (decide_eq_true (Nat.succ_pos _)).symm
        | succ n =>
          rw [valid n j there]
          simp
      · intro j outside
        rw [List.mem_cons, not_or] at outside
        rw [others j outside.2]
        exact Function.update_of_ne outside.1 true page.validBit
      · intro n j text there here
        cases n with
        | zero =>
          obtain rfl := Option.some_inj.mp there
          obtain rfl := Option.some_inj.mp here
          rcases frame (start + i) with kept | ⟨j, member, -, same, -⟩
          · rw [kept, memSetValueAt, inside i, Function.update_self]
          · have equal : j = i := Fin.ext (by omega)
            exact absurd (equal ▸ member) absent
        | succ n => exact lines' n j text there here
      · intro pos
        rcases frame pos with kept | ⟨j, member, rest⟩
        · by_cases here : pos = start + i
          · refine .inr ⟨i, List.mem_cons_self, line, here, ?_⟩
            rw [kept, memSetValueAt, inside i, here, Function.update_self]
          · left
            rw [kept, memSetValueAt, inside i, Function.update_of_ne here]
        · exact .inr ⟨j, List.mem_cons_of_mem i member, rest⟩

end filling

namespace KernelState

structure Counts (k : KernelState) (pid lines done : Nat) : Prop where
  size : (k.pcb pid).size = (lines : Int) - done
  inside : done ≤ lines
  table : (k.pcb pid).pageTable.length = pageTableSize lines
  counters : ∀ i, (k.pcb pid).programCounter i = min 3 (done - 3 * i)

structure Works (k : KernelState) (pid : Nat) (w : Work) : Prop where
  size : (k.pcb pid).size = (w.reads.length : Int) - w.done
  inside : w.done ≤ w.reads.length
  table : (k.pcb pid).pageTable.length = w.pages
  counters : ∀ i, (k.pcb pid).programCounter i = min 3 (w.done - 3 * i)
  file : scriptReads (k.pcb pid).sourceFile = w.reads.drop (3 * w.loaded)
  loaded : w.loaded ≤ w.pages
  fetched : w.done ≤ 3 * w.loaded

theorem Works.counts {k : KernelState} {pid : Nat} {w : Work} (works : k.Works pid w) :
    k.Counts pid w.reads.length w.done :=
  ⟨works.size, works.inside, works.table, works.counters⟩

/-- The page lies in three slots from `start` on, its lines in their order. -/
structure Stored (k : KernelState) (start pid i : Nat) (w : Work) : Prop where
  page : ∃ page, k.page pid i = some page ∧ (∀ j : Fin 3, page.index j = start + j) ∧
    ∀ j : Fin 3, page.validBit j = decide (3 * i + j < w.reads.length)
  lines : ∀ (j : Fin 3) (line : Text), w.reads[3 * i + j]? = some line → (k.memory (start + j)).value = line
  marked : ∀ j : Fin 3, (k.memory (start + j)).var ≠ noneText

/-- The processes that the kernel knows, the pages in the cache and the frame of each of them fit together. A page that is
not in the cache any more has no line left. -/
structure Consistent (sizes : StoreSizes) (k : KernelState) (known : List Nat) (cache : List (Nat × Nat))
    (work : Nat → Work) (start : Nat × Nat → Nat) : Prop where
  works : ∀ pid ∈ known, k.Works pid (work pid)
  nodup : cache.Nodup
  owned : ∀ x ∈ cache, x.1 ∈ known ∧ x.2 < (work x.1).loaded
  stored : ∀ x ∈ cache, k.Stored (start x) x.1 x.2 (work x.1)
  frames : ∀ x ∈ cache, start x + 3 ≤ sizes.frameStoreSize
  apart : ∀ x ∈ cache, ∀ y ∈ cache, x ≠ y → start x + 3 ≤ start y ∨ start y + 3 ≤ start x
  absent : ∀ pid ∈ known, ∀ i page, (pid, i) ∉ cache → k.page pid i = some page → ∀ j, page.validBit j = false
  finished : ∀ pid ∈ known, ∀ i < (work pid).loaded, (pid, i) ∉ cache → ¬ (work pid).Left i
  free : ∀ pos < sizes.frameStoreSize, (∀ x ∈ cache, pos < start x ∨ start x + 3 ≤ pos) → (k.memory pos).var = noneText

section frames

variable {sizes : StoreSizes} {m : ShellMemory} {start pos pid : Nat}

theorem pidText_ne (pid : Nat) : pidText pid ≠ noneText := by
  intro same
  have digit : 'n' ∈ pidText pid := same ▸ List.mem_cons_self
  have isDigit := Nat.isDigit_of_mem_toDigits (by decide) (by decide) digit
  revert isDigit
  decide

theorem freeFrame_some (found : freeFrame sizes m = some start) :
    start + 3 ≤ sizes.frameStoreSize ∧ ∀ pos, start ≤ pos → pos < start + 3 → (m pos).var = noneText := by
  have passes := List.find?_some found
  simp only [Bool.and_eq_true, decide_eq_true_eq, List.all_eq_true, List.mem_range'_1, beq_iff_eq] at passes
  exact ⟨passes.1, fun pos low high => passes.2 pos ⟨low, high⟩⟩

theorem freeFrame_lowest (found : freeFrame sizes m = some start) {lower : Nat} (before : lower < start) :
    ∃ pos, lower ≤ pos ∧ pos < lower + 3 ∧ (m pos).var ≠ noneText := by
  have inside := (freeFrame_some found).1
  have fails := (List.find?_range_eq_some.mp found).2.2 lower before
  by_contra taken
  push Not at taken
  simp only [Bool.not_eq_true', Bool.and_eq_false_iff, decide_eq_false_iff_not, List.all_eq_false, List.mem_range'_1,
    beq_iff_eq] at fails
  rcases fails with past | ⟨pos, between, used⟩
  · omega
  · exact used (taken pos between.1 between.2)

theorem freeFrame_isSome (inside : start + 3 ≤ sizes.frameStoreSize)
    (free : ∀ pos, start ≤ pos → pos < start + 3 → (m pos).var = noneText) : (freeFrame sizes m).isSome := by
  rw [freeFrame, List.find?_isSome]
  refine ⟨start, List.mem_range.mpr (by omega), ?_⟩
  simp only [Bool.and_eq_true, decide_eq_true_eq, List.all_eq_true, List.mem_range'_1, beq_iff_eq]
  exact ⟨inside, fun pos between => free pos between.1 between.2⟩

theorem foldl_mark (name : Text) (positions : List Nat) (m : ShellMemory) (pos : Nat) :
    positions.foldl (fun m k => Function.update m k { m k with var := name }) m pos =
      if pos ∈ positions then { m pos with var := name } else m pos := by
  induction positions generalizing m with
  | nil => rfl
  | cons first rest ih =>
    rw [List.foldl_cons, ih]
    by_cases here : pos = first
    · subst here
      simp
    · simp [here]

end frames

variable {sizes : StoreSizes} {k t : KernelState} {known : List Nat} {cache cache' : List (Nat × Nat)}
  {work : Nat → Work} {start : Nat × Nat → Nat} {pid i : Nat}

theorem Consistent.perm (consistent : Consistent sizes k known cache work start) (perm : cache.Perm cache') :
    Consistent sizes k known cache' work start where
  works := consistent.works
  nodup := perm.nodup_iff.mp consistent.nodup
  owned x member := consistent.owned x (perm.mem_iff.mpr member)
  stored x member := consistent.stored x (perm.mem_iff.mpr member)
  frames x member := consistent.frames x (perm.mem_iff.mpr member)
  apart x first y second := consistent.apart x (perm.mem_iff.mpr first) y (perm.mem_iff.mpr second)
  absent pid member i page outside := consistent.absent pid member i page fun inside => outside (perm.mem_iff.mp inside)
  finished pid member i early outside := consistent.finished pid member i early fun inside => outside (perm.mem_iff.mp inside)
  free pos inside away := consistent.free pos inside fun x member => away x (perm.mem_iff.mp member)

theorem Consistent.lists (consistent : Consistent sizes k known cache work start) (queue : List Nat)
    (lruCache : List (Nat × Nat)) (allPcb : List Nat) (pidCounter : Nat) :
    Consistent sizes ⟨k.memory, k.pcb, queue, lruCache, allPcb, pidCounter⟩ known cache work start where
  works pid member :=
    have works := consistent.works pid member
    ⟨works.size, works.inside, works.table, works.counters, works.file, works.loaded, works.fetched⟩
  nodup := consistent.nodup
  owned := consistent.owned
  stored x member :=
    have stored := consistent.stored x member
    ⟨stored.page, stored.lines, stored.marked⟩
  frames := consistent.frames
  apart := consistent.apart
  absent := consistent.absent
  finished := consistent.finished
  free := consistent.free

theorem Consistent.resident (consistent : Consistent sizes k known cache work start) (member : pid ∈ known)
    (left : (work pid).done < (work pid).reads.length) (early : (work pid).done / 3 < (work pid).loaded) :
    (pid, (work pid).done / 3) ∈ cache := by
  by_contra outside
  exact consistent.finished pid member _ early outside (Work.left_next left)

theorem Consistent.present (consistent : Consistent sizes k known cache work start) (member : pid ∈ known)
    (inside : i < (work pid).pages) : ∃ page, k.page pid i = some page :=
  ⟨_, List.getElem?_eq_getElem ((consistent.works pid member).table ▸ inside)⟩

/-- The state that `load_PAGE` leaves, where the page and its lines are in the memory and the script is read further. -/
def withPage (k : KernelState) (pid i : Nat) (m : ShellMemory) (page : Page) (file : Text) : KernelState :=
  let loaded := { k with memory := m }.setPage pid i page
  loaded.setPcb pid { loaded.pcb pid with sourceFile := file }

theorem page_withPage {page : Page} (present : k.page pid i = some page) (m : ShellMemory) (new : Page) (file : Text)
    (other j : Nat) : (k.withPage pid i m new file).page other j = if (other, j) = (pid, i) then some new else k.page other j :=
  (page_setPcb_same (by rfl) other j).trans (page_setPage present m new other j)

theorem withPage_other {m : ShellMemory} {page : Page} {file : Text} {other : Nat} (different : other ≠ pid) :
    (k.withPage pid i m page file).pcb other = k.pcb other :=
  (Function.update_of_ne different ..).trans (Function.update_of_ne different ..)

theorem withPage_self {m : ShellMemory} {page : Page} {file : Text} : (k.withPage pid i m page file).pcb pid =
    { k.pcb pid with pageTable := (k.pcb pid).pageTable.set i page, sourceFile := file } := by
  simp only [withPage, setPage, setPcb, Function.update_self]

theorem Consistent.away (consistent : Consistent sizes k known cache work start) {frame : Nat}
    (free : ∀ pos, frame ≤ pos → pos < frame + 3 → (k.memory pos).var = noneText) {x : Nat × Nat} (member : x ∈ cache) :
    start x + 3 ≤ frame ∨ frame + 3 ≤ start x := by
  by_contra meet
  obtain ⟨j, low, high⟩ : ∃ j : Fin 3, frame ≤ start x + j ∧ start x + j < frame + 3 := by
    by_cases before : frame ≤ start x
    · exact ⟨0, by omega, by simp only [Fin.val_zero]; omega⟩
    · exact ⟨⟨frame - start x, by omega⟩, by simp only []; omega, by simp only []; omega⟩
  exact (consistent.stored x member).marked j (free _ low high)

theorem Stored.elsewhere {frame : Nat} {w : Work} (stored : k.Stored frame pid i w)
    (pages : t.page pid i = k.page pid i) (memory : ∀ j : Fin 3, t.memory (frame + j) = k.memory (frame + j)) {w' : Work}
    (reads : w'.reads = w.reads) : t.Stored frame pid i w' where
  page := by
    rw [pages, reads]
    exact stored.page
  lines j line here := by
    rw [memory j]
    exact stored.lines j line (reads ▸ here)
  marked j := by
    rw [memory j]
    exact stored.marked j

theorem Consistent.loads (consistent : Consistent sizes k known cache work start) (member : pid ∈ known)
    (more : (work pid).loaded < (work pid).pages) {frame : Nat} {new : ShellMemory} {newPage : Page} {rest : Text}
    (inside : frame + 3 ≤ sizes.frameStoreSize)
    (free : ∀ pos, frame ≤ pos → pos < frame + 3 → (k.memory pos).var = noneText)
    (file : scriptReads rest = (work pid).reads.drop (3 * ((work pid).loaded + 1)))
    (stored : (k.withPage pid (work pid).loaded new newPage rest).Stored frame pid (work pid).loaded (work pid))
    (elsewhere : ∀ pos, pos < frame ∨ frame + 3 ≤ pos → new pos = k.memory pos) :
    Consistent sizes (k.withPage pid (work pid).loaded new newPage rest) known ((pid, (work pid).loaded) :: cache)
      (Function.update work pid { work pid with loaded := (work pid).loaded + 1 })
      (Function.update start (pid, (work pid).loaded) frame) := by
  obtain ⟨page, present⟩ := consistent.present member more
  have fresh : (pid, (work pid).loaded) ∉ cache := fun cached => Nat.lt_irrefl _ (consistent.owned _ cached).2
  have apart : ∀ x ∈ cache, x ≠ (pid, (work pid).loaded) := fun x cached same => fresh (same ▸ cached)
  have reads : ∀ other, (Function.update work pid { work pid with loaded := (work pid).loaded + 1 } other).reads =
      (work other).reads := fun other => by
    by_cases same : other = pid
    · rw [same, Function.update_self]
    · rw [Function.update_of_ne same]
  have left : ∀ other i, (Function.update work pid { work pid with loaded := (work pid).loaded + 1 } other).Left i ↔
      (work other).Left i := fun other i => by
    by_cases same : other = pid
    · rw [same, Function.update_self]
      exact Iff.rfl
    · rw [Function.update_of_ne same]
  constructor
  case works =>
    intro other known'
    by_cases same : other = pid
    · subst same
      have works := consistent.works other member
      rw [Function.update_self]
      constructor
      · rw [withPage_self]
        exact works.size
      · exact works.inside
      · rw [withPage_self]
        exact (List.length_set ..).trans works.table
      · rw [withPage_self]
        exact works.counters
      · rw [withPage_self]
        exact file
      · exact more
      · exact Nat.le_trans works.fetched (Nat.mul_le_mul_left 3 (Nat.le_succ _))
    · rw [Function.update_of_ne same]
      have works := consistent.works other known'
      have same' : (k.withPage pid (work pid).loaded new newPage rest).pcb other = k.pcb other := withPage_other same
      exact ⟨same' ▸ works.size, works.inside, same' ▸ works.table, same' ▸ works.counters, same' ▸ works.file, works.loaded,
        works.fetched⟩
  case nodup => exact List.nodup_cons.mpr ⟨fresh, consistent.nodup⟩
  case owned =>
    intro x cached
    rcases List.mem_cons.mp cached with rfl | cached
    · refine ⟨member, ?_⟩
      rw [Function.update_self]
      exact Nat.lt_succ_self _
    · obtain ⟨known', early⟩ := consistent.owned x cached
      refine ⟨known', ?_⟩
      by_cases same : x.1 = pid
      · rw [same, Function.update_self]
        exact Nat.lt_succ_of_lt (same ▸ early)
      · rw [Function.update_of_ne same]
        exact early
  case stored =>
    intro x cached
    rcases List.mem_cons.mp cached with rfl | cached
    · rw [Function.update_self, Function.update_self]
      exact stored.elsewhere rfl (fun _ => rfl) rfl
    · rw [Function.update_of_ne (apart x cached)]
      have away := consistent.away free cached
      refine (consistent.stored x cached).elsewhere ?_ (fun j => elsewhere _ ?_) (reads x.1)
      · rw [page_withPage present, if_neg (apart x cached)]
      · omega
  case frames =>
    intro x cached
    rcases List.mem_cons.mp cached with rfl | cached
    · rw [Function.update_self]
      exact inside
    · rw [Function.update_of_ne (apart x cached)]
      exact consistent.frames x cached
  case apart =>
    intro x first y second different
    rcases List.mem_cons.mp first with rfl | first
    · have later := (List.mem_cons.mp second).resolve_left different.symm
      rw [Function.update_self, Function.update_of_ne different.symm]
      exact (consistent.away free later).symm
    · rcases List.mem_cons.mp second with rfl | second
      · rw [Function.update_self, Function.update_of_ne different]
        exact consistent.away free first
      · rw [Function.update_of_ne (apart x first), Function.update_of_ne (apart y second)]
        exact consistent.apart x first y second different
  case absent =>
    intro other known' i page' outside there
    rw [List.mem_cons, not_or] at outside
    rw [page_withPage present, if_neg outside.1] at there
    exact consistent.absent other known' i page' outside.2 there
  case finished =>
    intro other known' i early outside
    rw [List.mem_cons, not_or] at outside
    rw [left]
    refine consistent.finished other known' i ?_ outside.2
    by_cases same : other = pid
    · subst same
      rw [Function.update_self] at early
      exact Nat.lt_of_le_of_ne (Nat.le_of_lt_succ early) fun last => outside.1 (Prod.ext rfl last)
    · rwa [Function.update_of_ne same] at early
  case free =>
    intro pos small away
    have here := away _ List.mem_cons_self
    rw [Function.update_self] at here
    refine (congrArg MemoryStruct.var (elsewhere pos here)).trans (consistent.free pos small fun x cached => ?_)
    have there := away x (List.mem_cons_of_mem _ cached)
    rwa [Function.update_of_ne (apart x cached)] at there

/-- The frame has been given to a page of the process and filled from its script. -/
structure Fills (k : KernelState) (pid frame : Nat) (new : ShellMemory) (newPage : Page) (rest : Text) : Prop where
  index : ∀ j : Fin 3, newPage.index j = frame + j
  valid : ∀ j : Fin 3, newPage.validBit j = decide (j < (scriptReads (k.pcb pid).sourceFile).length)
  rest : scriptReads rest = (scriptReads (k.pcb pid).sourceFile).drop 3
  lines : ∀ (j : Fin 3) (line : Text), (scriptReads (k.pcb pid).sourceFile)[j.val]? = some line → (new (frame + j)).value = line
  marked : ∀ j : Fin 3, (new (frame + j)).var ≠ noneText
  elsewhere : ∀ pos, pos < frame ∨ frame + 3 ≤ pos → new pos = k.memory pos

theorem loadPage_none {page : Page} (present : k.page pid i = some page) (full : freeFrame sizes k.memory = none) :
    k.loadPage sizes pid i = some (false, k) := by
  rw [loadPage, present]
  simp only [Option.bind_eq_bind, Option.bind_some, frameAlloc, full, Option.map_none]

theorem loadPage_some {page : Page} {frame : Nat} (present : k.page pid i = some page)
    (found : freeFrame sizes k.memory = some frame) : ∃ new newPage rest, k.Fills pid frame new newPage rest ∧
      k.loadPage sizes pid i = some (true, k.withPage pid i new newPage rest) := by
  obtain ⟨m, marked⟩ : ∃ m : ShellMemory, m = (List.range' frame 3).foldl
      (fun m k => Function.update m k { m k with var := pidText pid }) k.memory := ⟨_, rfl⟩
  have marks : ∀ pos, m pos =
      if frame ≤ pos ∧ pos < frame + 3 then { k.memory pos with var := pidText pid } else k.memory pos := fun pos => by
    rw [marked, foldl_mark]
    simp only [List.mem_range'_1]
  obtain ⟨new, newPage, rest, filled, dropped, index, valid, -, lines, frameRule⟩ :=
    fillPage_spec (pidText pid) frame [0, 1, 2] m
      { page with index := fun j => frame + j, validBit := fun _ => false } (k.pcb pid).sourceFile (by decide)
      (fun _ => rfl) (fun _ _ => rfl)
  have table : ∀ j : Fin 3, ([0, 1, 2] : List (Fin 3))[j.val]? = some j := by decide
  refine ⟨new, newPage, rest, ⟨fun j => congrFun index j, fun j => valid j j (table j), dropped, ?_, ?_, ?_⟩, ?_⟩
  · intro j line here
    exact congrArg MemoryStruct.value (lines j j line (table j) here)
  · intro j
    rcases frameRule (frame + j) with kept | ⟨-, -, line, -, written⟩
    · rw [kept, marks, if_pos ⟨Nat.le_add_right .., by omega⟩]
      exact pidText_ne pid
    · rw [written]
      exact pidText_ne pid
  · intro pos away
    rcases frameRule pos with kept | ⟨j, -, line, rfl, -⟩
    · rw [kept, marks, if_neg (by omega)]
    · omega
  · rw [loadPage, present]
    simp only [Option.bind_eq_bind, Option.bind_some, frameAlloc, found, Option.map_some]
    rw [← marked, filled]
    rfl

theorem loadPage_cases (consistent : Consistent sizes k known cache work start) (member : pid ∈ known)
    (more : (work pid).loaded < (work pid).pages) :
    (freeFrame sizes k.memory = none ∧ k.loadPage sizes pid (work pid).loaded = some (false, k)) ∨
    ∃ frame t, freeFrame sizes k.memory = some frame ∧ k.loadPage sizes pid (work pid).loaded = some (true, t) ∧
      SameLists k t ∧ t.queue = k.queue ∧
      Consistent sizes t known ((pid, (work pid).loaded) :: cache)
        (Function.update work pid { work pid with loaded := (work pid).loaded + 1 })
        (Function.update start (pid, (work pid).loaded) frame) := by
  obtain ⟨page, present⟩ := consistent.present member more
  have works := consistent.works pid member
  cases found : freeFrame sizes k.memory with
  | none => exact .inl ⟨rfl, loadPage_none present found⟩
  | some frame =>
    right
    obtain ⟨inside, free⟩ := freeFrame_some found
    obtain ⟨new, newPage, rest, fills, run⟩ := loadPage_some present found
    have reads : scriptReads (k.pcb pid).sourceFile = (work pid).reads.drop (3 * (work pid).loaded) := works.file
    refine ⟨frame, _, rfl, run, ⟨rfl, rfl, rfl⟩, rfl,
      consistent.loads member more inside free ?_ ⟨?_, ?_, fills.marked⟩ fills.elsewhere⟩
    · rw [fills.rest, reads, List.drop_drop]
      rfl
    · refine ⟨newPage, ?_, fills.index, fun j => ?_⟩
      · rw [page_withPage present, if_pos rfl]
      · rw [fills.valid, reads, List.length_drop]
        congr 1
        exact propext (by omega)
    · intro j line here
      rw [← List.getElem?_drop, ← reads] at here
      exact fills.lines j line here

structure Evicts (k t : KernelState) (x : Nat × Nat) (page : Page) : Prop where
  lists : SameLists k t
  queue : t.queue = k.queue
  pages : ∀ other i, t.page other i =
    if (other, i) = x then some { page with index := fun _ => 0, validBit := fun _ => false } else k.page other i
  memory : ∀ pos, t.memory pos = if ∃ j, pos = page.index j then ⟨noneText, noneText⟩ else k.memory pos
  pcb : ∀ other, (t.pcb other).size = (k.pcb other).size ∧ (t.pcb other).programCounter = (k.pcb other).programCounter ∧
    (t.pcb other).sourceFile = (k.pcb other).sourceFile ∧ (t.pcb other).pageTable.length = (k.pcb other).pageTable.length

theorem pageEvict_some {page : Page} (present : k.page pid i = some page) :
    ∃ t, k.pageEvict pid i = some t ∧ Evicts k t (pid, i) page := by
  refine ⟨({ k with memory := [page.index 0, page.index 1, page.index 2].foldl memFreeAt k.memory } :
    KernelState).setPage pid i { page with index := fun _ => 0, validBit := fun _ => false }, ?_, ⟨rfl, rfl, rfl⟩, rfl,
    fun other j => page_setPage present _ _ other j, fun pos => ?_, fun other => ?_⟩
  · rw [pageEvict, present]
    rfl
  · have slots : pos ∈ [page.index 0, page.index 1, page.index 2] ↔ ∃ j, pos = page.index j := by
      simp only [List.mem_cons, List.not_mem_nil, or_false, Fin.exists_fin_succ, IsEmpty.exists_iff]
      rfl
    refine (foldl_memFreeAt _ k.memory pos).trans ?_
    simp only [slots]
  · by_cases same : other = pid
    · subst same
      simp [setPage, setPcb]
    · simp [setPage, setPcb, Function.update_of_ne same]

theorem pageEvict_consistent {victim : Nat × Nat} (consistent : Consistent sizes k known (cache ++ [victim]) work start)
    (done : ¬ (work victim.1).Left victim.2) : ∃ t, k.pageEvict victim.1 victim.2 = some t ∧ SameLists k t ∧
      t.queue = k.queue ∧ Consistent sizes t known cache work start ∧ (freeFrame sizes t.memory).isSome := by
  have last : victim ∈ cache ++ [victim] := List.mem_append_right _ (List.mem_singleton.mpr rfl)
  have early : ∀ x ∈ cache, x ∈ cache ++ [victim] := fun x => List.mem_append_left _
  have split := List.nodup_append.mp consistent.nodup
  have other : ∀ x ∈ cache, x ≠ victim := fun x member => split.2.2 x member victim (List.mem_singleton.mpr rfl)
  obtain ⟨known', -⟩ := consistent.owned victim last
  obtain ⟨⟨page, present, index, -⟩, -, -⟩ := consistent.stored victim last
  obtain ⟨t, run, evicts⟩ := pageEvict_some present
  have pages := evicts.pages
  have pcb := evicts.pcb
  have memory : ∀ pos, t.memory pos =
      if start victim ≤ pos ∧ pos < start victim + 3 then ⟨noneText, noneText⟩ else k.memory pos := fun pos => by
    have slots : (∃ j, pos = page.index j) ↔ start victim ≤ pos ∧ pos < start victim + 3 := by
      simp only [index]
      constructor
      · intro there
        obtain ⟨j, rfl⟩ := there
        omega
      · intro inside
        exact ⟨⟨pos - start victim, by omega⟩, by simp only []; omega⟩
    rw [evicts.memory]
    simp only [slots]
  have free : ∀ pos, start victim ≤ pos → pos < start victim + 3 → (t.memory pos).var = noneText := fun pos low high => by
    rw [memory, if_pos ⟨low, high⟩]
  refine ⟨t, run, evicts.lists, evicts.queue, ?_, freeFrame_isSome (consistent.frames victim last) free⟩
  constructor
  case works =>
    intro other known''
    have works := consistent.works other known''
    obtain ⟨size, counters, file, table⟩ := pcb other
    exact ⟨size ▸ works.size, works.inside, table.trans works.table, counters ▸ works.counters, file ▸ works.file,
      works.loaded, works.fetched⟩
  case nodup => exact split.1
  case owned => exact fun x member => consistent.owned x (early x member)
  case stored =>
    intro x member
    have apart := consistent.apart x (early x member) victim last (other x member)
    refine (consistent.stored x (early x member)).elsewhere ?_ (fun j => ?_) rfl
    · rw [pages, if_neg (other x member)]
    · rw [memory, if_neg (by omega)]
  case frames => exact fun x member => consistent.frames x (early x member)
  case apart => exact fun x first y second => consistent.apart x (early x first) y (early y second)
  case absent =>
    intro other' known'' i page' outside there
    rw [pages] at there
    split at there
    next => exact Option.some_inj.mp there ▸ fun _ => rfl
    next different =>
      refine consistent.absent other' known'' i page' (fun inside => ?_) there
      rcases List.mem_append.mp inside with inside | inside
      · exact outside inside
      · exact different (List.mem_singleton.mp inside)
  case finished =>
    intro other' known'' i before outside
    by_cases same : (other', i) = victim
    · rw [← same] at done
      exact done
    · refine consistent.finished other' known'' i before fun inside => ?_
      rcases List.mem_append.mp inside with inside | inside
      · exact outside inside
      · exact same (List.mem_singleton.mp inside)
  case free =>
    intro pos small away
    by_cases here : start victim ≤ pos ∧ pos < start victim + 3
    · exact free pos here.1 here.2
    · rw [memory, if_neg here]
      refine consistent.free pos small fun x inside => ?_
      rcases List.mem_append.mp inside with inside | inside
      · exact away x inside
      · rw [List.mem_singleton.mp inside]
        omega

/-- The pages in the cache fill the frame store from the front, and as long as there is a frame behind them they are all
that have been loaded. -/
structure Packed (sizes : StoreSizes) (k : KernelState) (known : List Nat) (cache : List (Nat × Nat))
    (work : Nat → Work) (start : Nat × Nat → Nat) : Prop extends Consistent sizes k known cache work start where
  aligned : ∀ x ∈ cache, start x % 3 = 0
  low : ∀ x ∈ cache, start x < 3 * cache.length
  kept : 3 * cache.length + 3 ≤ sizes.frameStoreSize → ∀ pid ∈ known, ∀ i < (work pid).loaded, (pid, i) ∈ cache

theorem Packed.of_perm {work' : Nat → Work} (packed : Packed sizes k known cache work start)
    (consistent : Consistent sizes t known cache' work' start) (perm : cache.Perm cache')
    (loaded : ∀ pid ∈ known, (work' pid).loaded = (work pid).loaded) : Packed sizes t known cache' work' start where
  toConsistent := consistent
  aligned x member := packed.aligned x (perm.mem_iff.mpr member)
  low x member := perm.length_eq ▸ packed.low x (perm.mem_iff.mpr member)
  kept room pid member i early := perm.mem_iff.mp (packed.kept (perm.length_eq ▸ room) pid member i (loaded pid member ▸ early))

theorem Packed.lists (packed : Packed sizes k known cache work start) (queue : List Nat)
    (lruCache : List (Nat × Nat)) (allPcb : List Nat) (pidCounter : Nat) :
    Packed sizes ⟨k.memory, k.pcb, queue, lruCache, allPcb, pidCounter⟩ known cache work start :=
  packed.of_perm (packed.toConsistent.lists queue lruCache allPcb pidCounter) (.refl _) fun _ _ => rfl

theorem Consistent.frame_aligned {frame : Nat} (consistent : Consistent sizes k known cache work start)
    (aligned : ∀ x ∈ cache, start x % 3 = 0) (found : freeFrame sizes k.memory = some frame) : frame % 3 = 0 := by
  obtain ⟨inside, free⟩ := freeFrame_some found
  by_contra between
  obtain ⟨pos, low, high, used⟩ := freeFrame_lowest found (show 3 * (frame / 3) < frame by omega)
  refine used (consistent.free pos (by omega) fun x cached => ?_)
  by_contra here
  -- a page there would take a slot that is free
  have whole := aligned x cached
  have last := free (start x + (2 : Fin 3)) (by simp only [Fin.val_two]; omega) (by simp only [Fin.val_two]; omega)
  exact (consistent.stored x cached).marked 2 last

theorem Packed.behind (packed : Packed sizes k known cache work start) {pos : Nat} (low : 3 * cache.length ≤ pos)
    (inside : pos < sizes.frameStoreSize) : (k.memory pos).var = noneText := by
  refine packed.free pos inside fun x cached => .inr ?_
  have whole := packed.aligned x cached
  have before := packed.low x cached
  omega

theorem Packed.loads {frame : Nat} (packed : Packed sizes k known cache work start)
    (found : freeFrame sizes k.memory = some frame)
    (after : Consistent sizes t known ((pid, (work pid).loaded) :: cache)
      (Function.update work pid { work pid with loaded := (work pid).loaded + 1 })
      (Function.update start (pid, (work pid).loaded) frame)) :
    Packed sizes t known ((pid, (work pid).loaded) :: cache)
      (Function.update work pid { work pid with loaded := (work pid).loaded + 1 })
      (Function.update start (pid, (work pid).loaded) frame) := by
  have apart : ∀ x ∈ cache, x ≠ (pid, (work pid).loaded) := fun x cached same =>
    (List.nodup_cons.mp after.nodup).1 (same ▸ cached)
  have lowest : frame ≤ 3 * cache.length := by
    have inside := (freeFrame_some found).1
    by_contra above
    obtain ⟨pos, low, high, used⟩ := freeFrame_lowest found (Nat.lt_of_not_le above)
    exact used (packed.behind low (by omega))
  refine ⟨after, fun x cached => ?_, fun x cached => ?_, fun room other member i early => ?_⟩
  · rcases List.mem_cons.mp cached with rfl | cached
    · rw [Function.update_self]
      exact packed.toConsistent.frame_aligned packed.aligned found
    · rw [Function.update_of_ne (apart x cached)]
      exact packed.aligned x cached
  · rw [List.length_cons]
    rcases List.mem_cons.mp cached with rfl | cached
    · rw [Function.update_self]
      omega
    · rw [Function.update_of_ne (apart x cached)]
      exact Nat.lt_of_lt_of_le (packed.low x cached) (by omega)
  · rw [List.length_cons] at room
    have before := packed.kept (by omega) other member i
    by_cases same : other = pid
    · subst same
      rw [Function.update_self] at early
      rcases Nat.lt_or_eq_of_le (Nat.le_of_lt_succ early) with earlier | rfl
      · exact List.mem_cons_of_mem _ (before earlier)
      · exact List.mem_cons_self
    · rw [Function.update_of_ne same] at early
      exact List.mem_cons_of_mem _ (before early)

theorem Packed.replaces {frame : Nat} {u : KernelState} (packed : Packed sizes k known cache work start)
    (nonempty : cache ≠ []) (full : freeFrame sizes k.memory = none)
    (evicted : Consistent sizes u known cache.dropLast work start) (found : freeFrame sizes u.memory = some frame)
    (after : Consistent sizes t known ((pid, (work pid).loaded) :: cache.dropLast)
      (Function.update work pid { work pid with loaded := (work pid).loaded + 1 })
      (Function.update start (pid, (work pid).loaded) frame)) :
    Packed sizes t known ((pid, (work pid).loaded) :: cache.dropLast)
      (Function.update work pid { work pid with loaded := (work pid).loaded + 1 })
      (Function.update start (pid, (work pid).loaded) frame) := by
  have early : ∀ x ∈ cache.dropLast, x ∈ cache := fun x => fun cached => (List.dropLast_sublist cache).subset cached
  have apart : ∀ x ∈ cache.dropLast, x ≠ (pid, (work pid).loaded) := fun x cached same =>
    (List.nodup_cons.mp after.nodup).1 (same ▸ cached)
  have length : ((pid, (work pid).loaded) :: cache.dropLast).length = cache.length := by
    have positive := List.length_pos_iff.mpr nonempty
    rw [List.length_cons, List.length_dropLast]
    omega
  have spare : sizes.frameStoreSize < 3 * cache.length + 3 := by
    by_contra room
    have some' := freeFrame_isSome (m := k.memory) (Nat.le_of_not_lt room) fun pos low high =>
      packed.behind low (by omega)
    rw [full] at some'
    cases some'
  have inside := (freeFrame_some found).1
  refine ⟨after, fun x cached => ?_, fun x cached => ?_, fun room => ?_⟩
  · rcases List.mem_cons.mp cached with rfl | cached
    · rw [Function.update_self]
      exact evicted.frame_aligned (fun x cached => packed.aligned x (early x cached)) found
    · rw [Function.update_of_ne (apart x cached)]
      exact packed.aligned x (early x cached)
  · rw [length]
    rcases List.mem_cons.mp cached with rfl | cached
    · rw [Function.update_self]
      omega
    · rw [Function.update_of_ne (apart x cached)]
      exact packed.low x (early x cached)
  · rw [length] at room
    omega

section lines

variable {line : Text} {parseInput : Text → ShellMemory → Int × ShellMemory}

theorem nextLine_eq {lines done : Nat} (counts : k.Counts pid lines done) (left : done < lines) :
    k.nextLine pid = some (done / 3, ⟨done % 3, Nat.mod_lt _ (by decide)⟩) := by
  have counter : (k.pcb pid).programCounter (done / 3) = done % 3 := by
    rw [counts.counters]
    omega
  have first : (List.range (k.pcb pid).pageTable.length).find? (fun i => (k.pcb pid).programCounter i != 3) =
      some (done / 3) := by
    rw [List.find?_range_eq_some]
    refine ⟨?_, ?_, ?_⟩
    · rw [counter]
      simpa using Nat.ne_of_lt (Nat.mod_lt done (by decide : 0 < 3))
    · rw [counts.table, List.mem_range, lt_pageTableSize]
      omega
    · intro i before
      rw [counts.counters]
      simp
      omega
  rw [nextLine]
  simp only [first, Option.bind_eq_bind, Option.bind_some, counter, Nat.mod_lt _ (show 3 > 0 by decide), dif_pos]

theorem Consistent.lineAt (consistent : Consistent sizes k known cache work start) (member : pid ∈ known)
    (next : (work pid).reads[(work pid).done]? = some line) (early : (work pid).done / 3 < (work pid).loaded) :
    ∃ page, k.page pid ((work pid).done / 3) = some page ∧ page.index 0 = start (pid, (work pid).done / 3) ∧
      page.validBit ⟨(work pid).done % 3, Nat.mod_lt _ (by decide)⟩ = true ∧
      (k.memory (page.index ⟨(work pid).done % 3, Nat.mod_lt _ (by decide)⟩)).value = line := by
  have left : (work pid).done < (work pid).reads.length := (List.getElem?_eq_some_iff.mp next).1
  have stored := consistent.stored _ (consistent.resident member left early)
  obtain ⟨page, present, index, valid⟩ := stored.page
  have whole : 3 * ((work pid).done / 3) + (work pid).done % 3 = (work pid).done := Nat.div_add_mod ..
  refine ⟨page, present, index 0, ?_, ?_⟩
  · rw [valid]
    apply decide_eq_true
    rw [← whole] at left
    exact left
  · rw [index]
    exact stored.lines _ line (by simpa only [whole] using next)

theorem Consistent.cachedAt (consistent : Consistent sizes k known k.lruCache work start) (member : (pid, i) ∈ k.lruCache) :
    k.cachedAt (start (pid, i)) = some (pid, i) := by
  obtain ⟨page, present, index, -⟩ := (consistent.stored _ member).page
  obtain ⟨x, found⟩ := cachedAt_some member present
  rw [index] at found
  have inside : x ∈ k.lruCache := List.mem_of_find?_eq_some found
  obtain ⟨other, present', index', -⟩ := (consistent.stored x inside).page
  have same := List.find?_some found
  rw [present', Option.any_some, beq_iff_eq, index'] at same
  rw [show k.cachedAt (start (pid, i)) = some x from found]
  by_contra different
  have apart := consistent.apart x inside (pid, i) member fun equal => different (congrArg some equal)
  omega

theorem Counts.counted {lines done : Nat} (counts : k.Counts pid lines done) (left : done < lines) (m : ShellMemory) :
    (k.counted pid (done / 3) m).Counts pid lines (done + 1) := by
  have self : (k.counted pid (done / 3) m).pcb pid = { k.pcb pid with
      programCounter := Function.update (k.pcb pid).programCounter (done / 3) ((k.pcb pid).programCounter (done / 3) + 1)
      size := (k.pcb pid).size - 1 } := Function.update_self ..
  constructor
  case size =>
    rw [self]
    have size := counts.size
    simp only [size]
    push_cast
    omega
  case inside => exact left
  case table =>
    rw [self]
    exact counts.table
  case counters =>
    intro i
    rw [self]
    simp only
    by_cases page : i = done / 3
    · rw [page, Function.update_self, counts.counters]
      omega
    · rw [Function.update_of_ne page, counts.counters]
      omega

theorem Consistent.counted (consistent : Consistent sizes k known cache work start)
    (left : (work pid).done < (work pid).reads.length) (early : (work pid).done / 3 < (work pid).loaded) {m : ShellMemory}
    (keeps : ∀ pos < sizes.frameStoreSize, m pos = k.memory pos) :
    Consistent sizes (k.counted pid ((work pid).done / 3) m) known cache
      (Function.update work pid { work pid with done := (work pid).done + 1 }) start := by
  have same : ∀ other, other ≠ pid → (k.counted pid ((work pid).done / 3) m).pcb other = k.pcb other :=
    fun other different => Function.update_of_ne different ..
  have self : (k.counted pid ((work pid).done / 3) m).pcb pid = { k.pcb pid with
      programCounter := Function.update (k.pcb pid).programCounter ((work pid).done / 3)
        ((k.pcb pid).programCounter ((work pid).done / 3) + 1)
      size := (k.pcb pid).size - 1 } := Function.update_self ..
  have reads : ∀ other, (Function.update work pid { work pid with done := (work pid).done + 1 } other).reads =
      (work other).reads := fun other => by
    by_cases here : other = pid
    · rw [here, Function.update_self]
    · rw [Function.update_of_ne here]
  have loaded : ∀ other, (Function.update work pid { work pid with done := (work pid).done + 1 } other).loaded =
      (work other).loaded := fun other => by
    by_cases here : other = pid
    · rw [here, Function.update_self]
    · rw [Function.update_of_ne here]
  constructor
  case works =>
    intro other known'
    have works := consistent.works other known'
    by_cases here : other = pid
    · subst here
      have counts := works.counts.counted left m
      rw [Function.update_self]
      refine ⟨counts.size, counts.inside, counts.table, counts.counters, ?_, works.loaded, ?_⟩
      · rw [self]
        exact works.file
      · simp only
        omega
    · rw [Function.update_of_ne here]
      have kept := same other here
      exact ⟨kept ▸ works.size, works.inside, kept ▸ works.table, kept ▸ works.counters, kept ▸ works.file, works.loaded,
        works.fetched⟩
  case nodup => exact consistent.nodup
  case owned => exact fun x cached => ⟨(consistent.owned x cached).1, loaded x.1 ▸ (consistent.owned x cached).2⟩
  case stored =>
    intro x cached
    refine (consistent.stored x cached).elsewhere (page_counted k pid _ m x.1 x.2) (fun j => keeps _ ?_) (reads x.1)
    have frame := consistent.frames x cached
    omega
  case frames => exact consistent.frames
  case apart => exact consistent.apart
  case absent =>
    intro other known' i page outside there
    rw [page_counted] at there
    exact consistent.absent other known' i page outside there
  case finished =>
    intro other known' i before outside remains
    rw [loaded] at before
    refine consistent.finished other known' i before outside ?_
    rw [Work.Left, reads] at remains
    refine Nat.lt_of_le_of_lt ?_ remains
    by_cases here : other = pid
    · rw [here, Function.update_self]
      exact Nat.le_succ _
    · rw [Function.update_of_ne here]
  case free =>
    intro pos small away
    exact (congrArg MemoryStruct.var (keeps pos small)).trans (consistent.free pos small away)

theorem runLine_executes (packed : Packed sizes k known k.lruCache work start) (member : pid ∈ known)
    (next : (work pid).reads[(work pid).done]? = some line) (early : (work pid).done / 3 < (work pid).loaded)
    (goesOn : (parseInput line k.memory).1 ≠ 1)
    (keeps : ∀ pos < sizes.frameStoreSize, (parseInput line k.memory).2 pos = k.memory pos) :
    ∃ t, k.runLine sizes parseInput pid = some (false, t) ∧ t.queue = k.queue ∧ t.allPcb = k.allPcb ∧
      t.pidCounter = k.pidCounter ∧
      t.lruCache = (pid, (work pid).done / 3) :: k.lruCache.erase (pid, (work pid).done / 3) ∧
      Packed sizes t known t.lruCache (Function.update work pid { work pid with done := (work pid).done + 1 })
        start := by
  have left : (work pid).done < (work pid).reads.length := (List.getElem?_eq_some_iff.mp next).1
  have consistent := packed.toConsistent
  have works := consistent.works pid member
  have cached := consistent.resident member left early
  obtain ⟨page, present, index, valid, text⟩ := consistent.lineAt member next early
  have counted := consistent.counted left early keeps
  have there : (k.counted pid ((work pid).done / 3) (parseInput line k.memory).2).page pid ((work pid).done / 3) = some page :=
    (page_counted ..).trans present
  have found : (k.counted pid ((work pid).done / 3) (parseInput line k.memory).2).cachedAt (page.index 0) =
      some (pid, (work pid).done / 3) := by
    rw [index]
    exact Consistent.cachedAt counted cached
  have executed : k.cpuRun parseInput pid ((work pid).done / 3) ⟨(work pid).done % 3, Nat.mod_lt _ (by decide)⟩ =
      some ((parseInput line k.memory).1, k.counted pid ((work pid).done / 3) (parseInput line k.memory).2) := by
    simp only [cpuRun, present, Option.bind_eq_bind, Option.bind_some, valid, Bool.true_eq_false, if_false, text]
    rfl
  refine ⟨{ k.counted pid ((work pid).done / 3) (parseInput line k.memory).2 with
    lruCache := (pid, (work pid).done / 3) :: k.lruCache.erase (pid, (work pid).done / 3) }, ?_, rfl, rfl, rfl, rfl, ?_⟩
  · rw [runLine, nextLine_eq works.counts left]
    simp only [Option.bind_eq_bind, Option.bind_some, KernelState.runProc, executed, if_neg goesOn, there, found]
    rfl
  · have perm := List.perm_cons_erase cached
    refine packed.of_perm ((counted.perm perm).lists _ _ _ _) perm fun other _ => ?_
    by_cases here : other = pid
    · rw [here, Function.update_self]
    · rw [Function.update_of_ne here]

variable (parseInput) in
/-- and otherwise loads the page, for which the last one in the cache has to go if there is no frame. -/
theorem runLine_faults (packed : Packed sizes k known k.lruCache work start) (member : pid ∈ known)
    (left : (work pid).done < (work pid).reads.length) (late : (work pid).loaded ≤ (work pid).done / 3)
    (nonempty : k.lruCache ≠ [])
    (victim : freeFrame sizes k.memory = none → ∀ x ∈ k.lruCache.getLast?, ¬ (work x.1).Left x.2) :
    ∃ t start', k.runLine sizes parseInput pid = some (true, t) ∧ t.queue = k.queue ++ [pid] ∧ t.allPcb = k.allPcb ∧
      t.pidCounter = k.pidCounter ∧
      Packed sizes t known t.lruCache (Function.update work pid { work pid with loaded := (work pid).loaded + 1 })
        start' ∧
      t.lruCache = (pid, (work pid).loaded) ::
        if (freeFrame sizes k.memory).isSome then k.lruCache else k.lruCache.dropLast := by
  have consistent := packed.toConsistent
  have works := consistent.works pid member
  have here : (work pid).done / 3 = (work pid).loaded := by
    have fetched := works.fetched
    omega
  have more : (work pid).loaded < (work pid).pages := by
    rw [Work.lt_pages]
    omega
  obtain ⟨page, present⟩ := consistent.present member more
  have absent : (pid, (work pid).loaded) ∉ k.lruCache := fun cached => Nat.lt_irrefl _ (consistent.owned _ cached).2
  have invalid := consistent.absent pid member _ page absent present
  have executed : k.cpuRun parseInput pid (work pid).loaded ⟨(work pid).done % 3, Nat.mod_lt _ (by decide)⟩ = some (1, k) := by
    simp only [cpuRun, present, Option.bind_eq_bind, Option.bind_some, invalid, if_true]
  rcases loadPage_cases consistent member more with ⟨full, load⟩ | ⟨frame, t, found, load, lists, queue, after⟩
  · obtain ⟨x, last⟩ : ∃ x, k.lruCache.getLast? = some x := ⟨_, List.getLast?_eq_getLast_of_ne_nil nonempty⟩
    have split := List.dropLast_append_getLast? x last
    have shorter := consistent
    rw [← split] at shorter
    obtain ⟨u, evict, lists, queue, rest, free⟩ := pageEvict_consistent
      (shorter.lists k.queue k.lruCache.dropLast k.allPcb k.pidCounter) (victim full x last)
    rcases loadPage_cases rest member more with ⟨full', -⟩ | ⟨frame, t, found, reload, lists', queue', after⟩
    · rw [full'] at free
      cases free
    · refine ⟨{ t with lruCache := (pid, (work pid).loaded) :: t.lruCache, queue := t.queue ++ [pid] },
        Function.update start (pid, (work pid).loaded) frame, ?_, ?_,
        lists'.allPcb.trans lists.allPcb, lists'.pidCounter.trans lists.pidCounter, ?_, ?_⟩
      · rw [runLine, nextLine_eq works.counts left]
        simp only [Option.bind_eq_bind, Option.bind_some, KernelState.runProc, here, executed, if_true, load, Bool.false_eq_true,
          if_false, last, evict, reload]
      · exact congrArg (· ++ [pid]) (queue'.trans queue)
      · have cache : t.lruCache = k.lruCache.dropLast := lists'.lruCache.trans lists.lruCache
        have fills := packed.replaces nonempty full (rest.lists k.queue k.lruCache k.allPcb k.pidCounter) found after
        rw [← cache] at fills
        exact fills.lists _ _ _ _
      · simp only [full, Option.isSome_none, Bool.false_eq_true, if_false, lists'.lruCache, lists.lruCache]
  · refine ⟨{ t with lruCache := (pid, (work pid).loaded) :: t.lruCache, queue := t.queue ++ [pid] },
        Function.update start (pid, (work pid).loaded) frame, ?_, ?_,
      lists.allPcb, lists.pidCounter, ?_, ?_⟩
    · rw [runLine, nextLine_eq works.counts left]
      simp only [Option.bind_eq_bind, Option.bind_some, KernelState.runProc, here, executed, if_true, load]
    · exact congrArg (· ++ [pid]) queue
    · have fills := packed.loads found after
      rw [← lists.lruCache] at fills
      exact fills.lists _ _ _ _
    · simp only [found, Option.isSome_some, if_true, lists.lruCache]

end lines

section starting

variable {script : Text} {n : Nat}

theorem setPcb_same (k : KernelState) (pid : Nat) (pcb : PagedPCB) : (k.setPcb pid pcb).pcb pid = pcb :=
  Function.update_self ..

theorem setPcb_other {other : Nat} (different : other ≠ pid) (pcb : PagedPCB) :
    (k.setPcb pid pcb).pcb other = k.pcb other :=
  Function.update_of_ne different ..

theorem Consistent.registers (consistent : Consistent sizes k known cache work start) (fresh : pid ∉ known)
    (pcb : PagedPCB) {reads : List Text} (size : pcb.size = reads.length)
    (table : pcb.pageTable = (List.range (pageTableSize reads.length)).map (pageInit pid))
    (counters : ∀ i, pcb.programCounter i = 0) (file : scriptReads pcb.sourceFile = reads) :
    Consistent sizes (k.setPcb pid pcb) (known ++ [pid]) cache (Function.update work pid ⟨reads, 0, 0⟩) start := by
  have split : ∀ other ∈ known ++ [pid], other ∈ known ∧ other ≠ pid ∨ other = pid := fun other member => by
    rcases List.mem_append.mp member with early | last
    · exact .inl ⟨early, fun same => fresh (same ▸ early)⟩
    · exact .inr (List.mem_singleton.mp last)
  constructor
  case works =>
    intro other member
    rcases split other member with ⟨early, different⟩ | rfl
    · rw [Function.update_of_ne different]
      have works := consistent.works other early
      have same : (k.setPcb pid pcb).pcb other = k.pcb other := setPcb_other different pcb
      exact ⟨same ▸ works.size, works.inside, same ▸ works.table, same ▸ works.counters, same ▸ works.file, works.loaded,
        works.fetched⟩
    · rw [Function.update_self]
      constructor
      · rw [setPcb_same, size]
        simp
      · exact Nat.zero_le _
      · rw [setPcb_same, table, List.length_map, List.length_range]
        rfl
      · intro i
        rw [setPcb_same, counters]
        simp
      · rw [setPcb_same, file]
        rfl
      · exact Nat.zero_le _
      · exact Nat.zero_le _
  case nodup => exact consistent.nodup
  case owned =>
    intro x cached
    obtain ⟨early, loaded⟩ := consistent.owned x cached
    have different : x.1 ≠ pid := fun same => fresh (same ▸ early)
    rw [Function.update_of_ne different]
    exact ⟨List.mem_append_left _ early, loaded⟩
  case stored =>
    intro x cached
    have different : x.1 ≠ pid := fun same => fresh (same ▸ (consistent.owned x cached).1)
    rw [Function.update_of_ne different]
    refine (consistent.stored x cached).elsewhere (t := k.setPcb pid pcb) ?_ (fun _ => rfl) rfl
    rw [page_setPcb, if_neg different]
  case frames => exact consistent.frames
  case apart => exact consistent.apart
  case absent =>
    intro other member i page outside there
    rw [page_setPcb] at there
    rcases split other member with ⟨early, different⟩ | rfl
    · rw [if_neg different] at there
      exact consistent.absent other early i page outside there
    · rw [if_pos rfl, table, List.getElem?_map] at there
      obtain ⟨number, -, rfl⟩ := Option.map_eq_some_iff.mp there
      exact fun _ => rfl
  case finished =>
    intro other member i early outside
    rcases split other member with ⟨early', different⟩ | rfl
    · rw [Function.update_of_ne different] at early ⊢
      exact consistent.finished other early' i early outside
    · rw [Function.update_self] at early
      cases early
  case free => exact consistent.free

theorem Packed.registers (packed : Packed sizes k known cache work start) (fresh : pid ∉ known)
    (pcb : PagedPCB) {reads : List Text} (size : pcb.size = reads.length)
    (table : pcb.pageTable = (List.range (pageTableSize reads.length)).map (pageInit pid))
    (counters : ∀ i, pcb.programCounter i = 0) (file : scriptReads pcb.sourceFile = reads) :
    Packed sizes (k.setPcb pid pcb) (known ++ [pid]) cache (Function.update work pid ⟨reads, 0, 0⟩) start := by
  refine ⟨packed.toConsistent.registers fresh pcb size table counters file, packed.aligned, packed.low,
    fun room other member i early => ?_⟩
  rcases List.mem_append.mp member with before | last
  · have different : other ≠ pid := fun same => fresh (same ▸ before)
    rw [Function.update_of_ne different] at early
    exact packed.kept room other before i early
  · rw [List.mem_singleton.mp last, Function.update_self] at early
    cases early

theorem loadPages_packed (packed : Packed sizes k known cache work start) (member : pid ∈ known)
    (room : (work pid).loaded + n ≤ (work pid).pages)
    (run : loadPages sizes pid (List.range' (work pid).loaded n) k = some t) : ∃ start', t.queue = k.queue ∧
      Packed sizes t known (((List.range' (work pid).loaded n).map (Prod.mk pid)).reverse ++ cache)
        (Function.update work pid { work pid with loaded := (work pid).loaded + n }) start' := by
  induction n generalizing k cache work start with
  | zero =>
    obtain rfl := Option.some_inj.mp run
    refine ⟨start, rfl, ?_⟩
    rw [show Function.update work pid { work pid with loaded := (work pid).loaded + 0 } = work from
      Function.update_eq_self pid work]
    exact packed
  | succ n ih =>
    rw [List.range'_succ] at run
    obtain ⟨⟨loaded, u⟩, load, run⟩ := Option.bind_eq_some_iff.mp run
    rcases loadPage_cases packed.toConsistent member (by omega) with ⟨-, load'⟩ | ⟨frame, u', found, load', -, queue, after⟩
    · rw [load'] at load
      obtain ⟨rfl, rfl⟩ := Prod.mk.inj (Option.some_inj.mp load)
      cases run
    · rw [load'] at load
      obtain ⟨rfl, rfl⟩ := Prod.mk.inj (Option.some_inj.mp load)
      have self : Function.update work pid { work pid with loaded := (work pid).loaded + 1 } pid =
          { work pid with loaded := (work pid).loaded + 1 } := Function.update_self ..
      obtain ⟨start', queue', final⟩ := ih (packed.loads found after)
        (by rw [self]; exact Nat.le_trans (Nat.le_of_eq (Nat.add_right_comm ..)) room)
        (by rw [self]; exact run)
      rw [self, Function.update_idem] at final
      refine ⟨start', queue'.trans queue, ?_⟩
      rw [List.range'_succ, List.map_cons, List.reverse_cons, List.append_assoc]
      rw [show (work pid).loaded + (n + 1) = (work pid).loaded + 1 + n by omega]
      exact final

theorem newProc_packed (packed : Packed sizes k k.allPcb k.lruCache work start)
    (fresh : k.pidCounter ∉ k.allPcb) (matched : countLines script = (scriptReads script).length)
    (run : k.newProc sizes (some script) = some t) : ∃ start', t.queue = k.queue ++ [k.pidCounter] ∧
      t.allPcb = k.allPcb ++ [k.pidCounter] ∧ t.pidCounter = k.pidCounter + 1 ∧
      t.lruCache = ((List.range (min 2 (pageTableSize (countLines script)))).map (Prod.mk k.pidCounter)).reverse ++
        k.lruCache ∧
      Packed sizes t t.allPcb t.lruCache (Function.update work k.pidCounter
        ⟨scriptReads script, 0, min 2 (pageTableSize (countLines script))⟩) start' := by
  obtain ⟨u, loads, run⟩ := Option.bind_eq_some_iff.mp run
  obtain rfl := Option.some_inj.mp run
  have self : Function.update work k.pidCounter ⟨scriptReads script, 0, 0⟩ k.pidCounter = ⟨scriptReads script, 0, 0⟩ :=
    Function.update_self ..
  have registered := packed.registers fresh ⟨k.pidCounter, countLines script, fun _ => 0,
    (List.range (pageTableSize (countLines script))).map (pageInit k.pidCounter), script⟩
    (congrArg Nat.cast matched) (by rw [matched]) (fun _ => rfl) rfl
  have begins := registered.lists k.queue k.lruCache k.allPcb (k.pidCounter + 1)
  have room : 0 + min 2 (pageTableSize (countLines script)) ≤ (⟨scriptReads script, 0, 0⟩ : Work).pages := by
    rw [Work.pages, ← matched]
    omega
  obtain ⟨start', queue, after⟩ := loadPages_packed (n := min 2 (pageTableSize (countLines script))) begins
    (List.mem_append_right _ (List.mem_singleton.mpr rfl)) (by rw [self]; exact room)
    (by rw [self, ← List.range_eq_range']; exact loads)
  obtain ⟨lists, -⟩ := loadPages_spec [] [] loads
  have allPcb : u.allPcb = k.allPcb := lists.allPcb
  have lruCache : u.lruCache = k.lruCache := lists.lruCache
  have pidCounter : u.pidCounter = k.pidCounter + 1 := lists.pidCounter
  rw [self, Function.update_idem, ← List.range_eq_range', Nat.zero_add] at after
  refine ⟨start', ?_, ?_, pidCounter, ?_, ?_⟩
  · exact congrArg (· ++ [k.pidCounter]) queue
  · exact congrArg (· ++ [k.pidCounter]) allPcb
  · exact congrArg (_ ++ ·) lruCache
  · simp only [allPcb, lruCache]
    exact after.lists _ _ _ _

end starting

end KernelState

end ShellOs.Kernel
