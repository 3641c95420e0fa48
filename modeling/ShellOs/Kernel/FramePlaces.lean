import ShellOs.Kernel.RoundRobin

/-! Where the pages of processes lie in the frame store, whatever their lines return (pcb.c, kernel.c). -/

namespace ShellOs.Kernel

open KernelState

/-- The last slot of a frame is free only together with the two in front of it. -/
def Aligned (sizes : StoreSizes) (m : ShellMemory) : Prop :=
  ∀ q, 3 * q + 3 ≤ sizes.frameStoreSize → (m (3 * q + 2)).var = noneText →
    (m (3 * q)).var = noneText ∧ (m (3 * q + 1)).var = noneText

/-- A page lies in a frame, has been evicted, or has not been loaded; then none of its lines has been executed. -/
inductive Lies (sizes : StoreSizes) (page : Page) (programCounter : Nat) : Prop
  | framed (q : Nat) (inside : 3 * q + 3 ≤ sizes.frameStoreSize) (index : ∀ j : Fin 3, page.index j = 3 * q + j)
  | evicted (index : ∀ j, page.index j = 0)
  | unloaded (index : ∀ j, page.index j = 1000) (invalid : ∀ j, page.validBit j = false) (unread : programCounter = 0)

/-- No command writes to the frames; those that start scripts themselves would. -/
def KeepsFrames (sizes : StoreSizes) (parseInput : Text → ShellMemory → Int × ShellMemory) : Prop :=
  ∀ line m, ∀ pos < sizes.frameStoreSize, (parseInput line m).2 pos = m pos

section aligned

variable {sizes : StoreSizes} {m new : ShellMemory} {k t : KernelState} {start pid programCounter : Nat} {page : Page}
  {rest : Text} {x : Nat × Nat}

theorem Aligned.congr (aligned : Aligned sizes m) (same : ∀ pos < sizes.frameStoreSize, new pos = m pos) :
    Aligned sizes new := by
  intro q inside free
  rw [same _ (by omega)] at free
  rw [same _ (by omega), same _ (by omega)]
  exact aligned q inside free

theorem Aligned.freeFrame (aligned : Aligned sizes m) (found : freeFrame sizes m = some start) : ∃ q, start = 3 * q := by
  obtain ⟨inside, free⟩ := freeFrame_some found
  by_cases whole : start % 3 = 0
  · exact ⟨start / 3, by omega⟩
  · -- the frame that `start` is in ends in a free slot, so it is free as a whole
    have last := free (3 * (start / 3) + 2) (by omega) (by omega)
    have both := aligned (start / 3) (by omega) last
    obtain ⟨pos, low, high, used⟩ := freeFrame_lowest found (show 3 * (start / 3) < start by omega)
    obtain rfl | rfl | rfl : pos = 3 * (start / 3) ∨ pos = 3 * (start / 3) + 1 ∨ pos = 3 * (start / 3) + 2 := by omega
    · exact absurd both.1 used
    · exact absurd both.2 used
    · exact absurd last used

theorem Aligned.fills (aligned : Aligned sizes k.memory) (found : Kernel.freeFrame sizes k.memory = some start)
    (fills : k.Fills pid start new page rest) : Aligned sizes new := by
  obtain ⟨q, rfl⟩ := aligned.freeFrame found
  intro q' inside free
  by_cases here : q' = q
  · exact absurd (here ▸ free) (fills.marked 2)
  · rw [fills.elsewhere _ (by omega)] at free
    rw [fills.elsewhere _ (by omega), fills.elsewhere _ (by omega)]
    exact aligned q' inside free

theorem Aligned.evicts (aligned : Aligned sizes k.memory) (lies : Lies sizes page programCounter)
    (evicts : Evicts k t x page) : Aligned sizes t.memory := by
  have free : ∀ pos, (t.memory pos).var = noneText ↔ (∃ j, pos = page.index j) ∨ (k.memory pos).var = noneText := by
    intro pos
    rw [evicts.memory]
    split
    next cleared => exact iff_of_true rfl (.inl cleared)
    next kept => exact (or_iff_right kept).symm
  intro q inside last
  rw [free] at last
  rw [free, free]
  rcases last with cleared | last
  · obtain ⟨j, here⟩ := cleared
    cases lies with
    | framed q' _ index =>
      rw [index] at here
      obtain rfl : q = q' := by omega
      exact ⟨.inl ⟨0, (index 0).symm⟩, .inl ⟨1, (index 1).symm⟩⟩
    | evicted index =>
      rw [index] at here
      omega
    | unloaded index =>
      rw [index] at here
      omega
  · obtain ⟨first, second⟩ := aligned q inside last
    exact ⟨.inr first, .inr second⟩

end aligned

namespace KernelState

structure OnlyPages (k t : KernelState) : Prop where
  queue : t.queue = k.queue
  allPcb : t.allPcb = k.allPcb
  pidCounter : t.pidCounter = k.pidCounter
  pcb : ∀ other, (t.pcb other).size = (k.pcb other).size ∧ (t.pcb other).programCounter = (k.pcb other).programCounter ∧
    (t.pcb other).pageTable.length = (k.pcb other).pageTable.length

structure Placed (sizes : StoreSizes) (k : KernelState) (known : List Nat) : Prop where
  aligned : Aligned sizes k.memory
  lies : ∀ pid ∈ known, ∀ i page, k.page pid i = some page → Lies sizes page ((k.pcb pid).programCounter i)

section pages

variable {sizes : StoreSizes} {k t u : KernelState} {known : List Nat} {pid i lines done : Nat} {page : Page}
  {m : ShellMemory} {x : Nat × Nat} {loaded : Bool} {line : Fin 3}

theorem OnlyPages.refl (k : KernelState) : OnlyPages k k := ⟨rfl, rfl, rfl, fun _ => ⟨rfl, rfl, rfl⟩⟩

theorem OnlyPages.trans (first : OnlyPages k t) (second : OnlyPages t u) : OnlyPages k u where
  queue := second.queue.trans first.queue
  allPcb := second.allPcb.trans first.allPcb
  pidCounter := second.pidCounter.trans first.pidCounter
  pcb other :=
    have before := first.pcb other
    have after := second.pcb other
    ⟨after.1.trans before.1, after.2.1.trans before.2.1, after.2.2.trans before.2.2⟩

theorem OnlyPages.counts (same : OnlyPages k t) (counts : k.Counts pid lines done) : t.Counts pid lines done where
  size := (same.pcb pid).1.trans counts.size
  inside := counts.inside
  table := (same.pcb pid).2.2.trans counts.table
  counters i := (congrFun (same.pcb pid).2.1 i).trans (counts.counters i)

theorem Evicts.onlyPages (evicts : Evicts k t x page) : OnlyPages k t where
  queue := evicts.queue
  allPcb := evicts.lists.allPcb
  pidCounter := evicts.lists.pidCounter
  pcb other :=
    have pcb := evicts.pcb other
    ⟨pcb.1, pcb.2.1, pcb.2.2.2⟩

theorem withPage_onlyPages (k : KernelState) (pid i : Nat) (m : ShellMemory) (page : Page) (file : Text) :
    OnlyPages k (k.withPage pid i m page file) := by
  refine ⟨rfl, rfl, rfl, fun other => ?_⟩
  by_cases same : other = pid
  · rw [same, withPage_self]
    exact ⟨rfl, rfl, List.length_set ..⟩
  · rw [withPage_other same]
    exact ⟨rfl, rfl, rfl⟩

theorem Placed.loads (placed : Placed sizes k known) (run : k.loadPage sizes pid i = some (loaded, t)) :
    Placed sizes t known ∧ OnlyPages k t ∧ t.lruCache = k.lruCache := by
  obtain ⟨page, present, -⟩ := Option.bind_eq_some_iff.mp run
  cases found : freeFrame sizes k.memory with
  | none =>
    rw [loadPage_none present found] at run
    obtain ⟨-, rfl⟩ := Prod.mk.inj (Option.some_inj.mp run)
    exact ⟨placed, .refl k, rfl⟩
  | some start =>
    obtain ⟨new, newPage, rest, fills, load⟩ := loadPage_some present found
    rw [load] at run
    obtain ⟨-, rfl⟩ := Prod.mk.inj (Option.some_inj.mp run)
    have same := withPage_onlyPages k pid i new newPage rest
    refine ⟨⟨placed.aligned.fills found fills, fun other member j there inside => ?_⟩, same, rfl⟩
    rw [page_withPage present] at inside
    rw [(same.pcb other).2.1]
    split at inside
    next =>
      obtain rfl := Option.some_inj.mp inside
      obtain ⟨q, rfl⟩ := placed.aligned.freeFrame found
      exact .framed q (freeFrame_some found).1 fills.index
    next => exact placed.lies other member j there inside

theorem Placed.evicts (placed : Placed sizes k known) (member : pid ∈ known) (run : k.pageEvict pid i = some t) :
    Placed sizes t known ∧ OnlyPages k t ∧ t.lruCache = k.lruCache := by
  obtain ⟨page, present, -⟩ := Option.bind_eq_some_iff.mp run
  obtain ⟨t', run', evicts⟩ := pageEvict_some present
  obtain rfl := Option.some_inj.mp (run.symm.trans run')
  have same := evicts.onlyPages
  refine ⟨⟨placed.aligned.evicts (placed.lies pid member i page present) evicts, fun other member' j there inside => ?_⟩,
    same, evicts.lists.lruCache⟩
  rw [evicts.pages] at inside
  rw [(same.pcb other).2.1]
  split at inside
  next =>
    obtain rfl := Option.some_inj.mp inside
    exact .evicted fun _ => rfl
  next => exact placed.lies other member' j there inside

theorem Placed.fetches (placed : Placed sizes k known) (owned : ∀ x ∈ k.lruCache, x.1 ∈ known)
    (fetches : Fetches sizes k pid i t) :
    Placed sizes t known ∧ OnlyPages k t ∧ ∀ x ∈ t.lruCache, x.1 ∈ known := by
  rcases fetches with load | ⟨victim, evicted, again, last, evict, reload⟩
  · obtain ⟨after, same, cache⟩ := placed.loads load
    exact ⟨after, same, cache ▸ owned⟩
  · have before : Placed sizes { k with lruCache := k.lruCache.dropLast } known := ⟨placed.aligned, placed.lies⟩
    obtain ⟨between, same, cache⟩ := before.evicts (owned victim (List.mem_of_getLast? last)) evict
    obtain ⟨after, same', cache'⟩ := between.loads reload
    have whole := same.trans same'
    refine ⟨after, ⟨whole.queue, whole.allPcb, whole.pidCounter, whole.pcb⟩, fun x member => ?_⟩
    rw [cache', cache] at member
    exact owned x ((List.dropLast_sublist _).subset member)

theorem Placed.counted (placed : Placed sizes k known) (present : k.page pid i = some page)
    (valid : page.validBit line = true) (keeps : ∀ pos < sizes.frameStoreSize, m pos = k.memory pos) :
    Placed sizes (k.counted pid i m) known := by
  refine ⟨placed.aligned.congr keeps, fun other member j there inside => ?_⟩
  rw [page_counted] at inside
  have lies := placed.lies other member j there inside
  by_cases here : other = pid ∧ j = i
  · obtain ⟨rfl, rfl⟩ := here
    obtain rfl := Option.some_inj.mp (present.symm.trans inside)
    cases lies with
    | framed q inside' index => exact .framed q inside' index
    | evicted index => exact .evicted index
    | unloaded _ invalid =>
      rw [invalid] at valid
      cases valid
  · have same : ((k.counted pid i m).pcb other).programCounter j = (k.pcb other).programCounter j := by
      by_cases process : other = pid
      · subst process
        have different : j ≠ i := fun equal => here ⟨rfl, equal⟩
        rw [show (k.counted other i m).pcb other = _ from Function.update_self ..]
        exact Function.update_of_ne different ..
      · rw [show (k.counted pid i m).pcb other = k.pcb other from Function.update_of_ne process ..]
    rw [same]
    exact lies

end pages

structure Tracked (sizes : StoreSizes) (k : KernelState) : Prop where
  placed : Placed sizes k k.allPcb
  owned : ∀ x ∈ k.lruCache, x.1 ∈ k.allPcb
  numbered : ∀ pid ∈ k.allPcb, pid < k.pidCounter

/-- Between two turns: a process that has lines left is in the queue. -/
structure Running (sizes : StoreSizes) (k : KernelState) : Prop where
  tracked : Tracked sizes k
  room : k.allPcb ≠ [] → 3 ≤ sizes.frameStoreSize
  queued : ∀ pid ∈ k.queue, pid ∈ k.allPcb
  counts : ∀ pid ∈ k.allPcb, ∃ lines done, k.Counts pid lines done ∧ (done < lines → pid ∈ k.queue)

/-- What a line of a process does to the counters, and to the queue. -/
structure LineCounts (k t : KernelState) (pid lines done : Nat) (fault : Bool) : Prop where
  allPcb : t.allPcb = k.allPcb
  queue : t.queue = if fault then k.queue ++ [pid] else k.queue
  others : ∀ other, other ≠ pid → ∀ lines done, k.Counts other lines done → t.Counts other lines done
  counts : ∃ done', t.Counts pid lines done' ∧ (fault = false → done' = done + 1)

section runs

variable {sizes : StoreSizes} {parseInput : Text → ShellMemory → Int × ShellMemory} {k t u : KernelState}
  {pid lines done fuel : Nat} {fault : Bool} {rest : List Nat}

theorem Counts.congr (counts : k.Counts pid lines done) (same : t.pcb pid = k.pcb pid) : t.Counts pid lines done where
  size := same ▸ counts.size
  inside := counts.inside
  table := same ▸ counts.table
  counters := same ▸ counts.counters

theorem cpuRun_cases {i : Nat} {line : Fin 3} {ret : Int} (run : k.cpuRun parseInput pid i line = some (ret, t)) :
    ret = 1 ∧ t = k ∨ ∃ page, k.page pid i = some page ∧ page.validBit line = true ∧
      t = k.counted pid i (parseInput (k.memory (page.index line)).value k.memory).2 := by
  obtain ⟨page, present, run⟩ := Option.bind_eq_some_iff.mp run
  split at run
  next =>
    obtain ⟨rfl, rfl⟩ := Prod.mk.inj (Option.some_inj.mp run)
    exact .inl ⟨rfl, rfl⟩
  next valid =>
    obtain ⟨-, rfl⟩ := Prod.mk.inj (Option.some_inj.mp run)
    exact .inr ⟨page, present, Bool.eq_true_of_not_eq_false valid, rfl⟩

theorem Tracked.runLine (tracked : Tracked sizes k) (member : pid ∈ k.allPcb) (counts : k.Counts pid lines done)
    (left : done < lines) (keeps : KeepsFrames sizes parseInput)
    (run : k.runLine sizes parseInput pid = some (fault, t)) : Tracked sizes t ∧ LineCounts k t pid lines done fault := by
  rw [KernelState.runLine, nextLine_eq counts left] at run
  replace run : k.runProc sizes parseInput pid (done / 3) ⟨done % 3, Nat.mod_lt _ (by decide)⟩ = some (fault, t) := run
  obtain ⟨⟨ret, ran⟩, executed, -⟩ := Option.bind_eq_some_iff.mp run
  have before : Placed sizes ran k.allPcb ∧ SameLists k ran ∧ ran.queue = k.queue ∧
      (∀ other, other ≠ pid → ran.pcb other = k.pcb other) ∧
      ∃ done', ran.Counts pid lines done' ∧ (ret ≠ 1 → done' = done + 1) := by
    rcases cpuRun_cases executed with ⟨rfl, rfl⟩ | ⟨page, present, valid, rfl⟩
    · exact ⟨tracked.placed, ⟨rfl, rfl, rfl⟩, rfl, fun _ _ => rfl, done, counts, fun goesOn => absurd rfl goesOn⟩
    · refine ⟨tracked.placed.counted present valid (keeps _ _), ⟨rfl, rfl, rfl⟩, rfl, fun other different => ?_, done + 1,
        counts.counted left _, fun _ => rfl⟩
      exact Function.update_of_ne different ..
  obtain ⟨placed, lists, queue, others, done', counts', goes⟩ := before
  have owned : ∀ x ∈ ran.lruCache, x.1 ∈ k.allPcb := lists.lruCache ▸ tracked.owned
  have numbered : ∀ pid ∈ k.allPcb, pid < ran.pidCounter := lists.pidCounter ▸ tracked.numbered
  by_cases one : ret = 1
  · subst one
    obtain ⟨rfl, u, fetches, rfl⟩ := runProc_fault executed run
    obtain ⟨after, same, owned'⟩ := placed.fetches owned fetches
    have allPcb : u.allPcb = k.allPcb := same.allPcb.trans lists.allPcb
    refine ⟨⟨?_, fun x cached => ?_, fun other known => ?_⟩, allPcb, ?_, fun other different lines done counts => ?_, done', ?_,
      fun never => by cases never⟩
    · simp only [allPcb]
      exact ⟨after.aligned, after.lies⟩
    · simp only [allPcb]
      rcases List.mem_cons.mp cached with rfl | cached
      · exact member
      · exact owned' x cached
    · simp only [allPcb] at known
      simp only [same.pidCounter]
      exact numbered other known
    · simp only [same.queue, queue, if_true]
    · exact (same.counts (counts.congr (others other different))).congr rfl
    · exact (same.counts counts').congr rfl
  · obtain ⟨rfl, cached, rfl, inside⟩ := runProc_goesOn executed one run
    refine ⟨⟨?_, fun x there => ?_, fun other known => ?_⟩, lists.allPcb, queue, fun other different lines done counts => ?_,
      done', counts'.congr rfl, fun _ => goes one⟩
    · simp only [lists.allPcb]
      exact ⟨placed.aligned, placed.lies⟩
    · simp only [lists.allPcb]
      rcases List.mem_cons.mp there with rfl | there
      · exact owned x inside
      · exact owned x (List.mem_of_mem_erase there)
    · simp only [lists.allPcb] at known
      exact numbered other known
    · exact counts.congr (others other different)

/-- After its turn the process is in the queue again, behind the others, unless it has no line left. -/
theorem Running.turned (running : Running sizes k) (first : k.queue = pid :: rest) (tracked : Tracked sizes t)
    (allPcb : t.allPcb = k.allPcb)
    (others : ∀ other, other ≠ pid → ∀ lines done, k.Counts other lines done → t.Counts other lines done)
    (counts : ∃ done, t.Counts pid lines done ∧ (t.queue = rest ++ [pid] ∨ t.queue = rest ∧ lines ≤ done)) :
    Running sizes t := by
  obtain ⟨done, counts, queue⟩ := counts
  have stays : ∀ other ∈ rest, other ∈ t.queue := fun other later => by
    rcases queue with same | ⟨same, -⟩
    · exact same ▸ List.mem_append_left _ later
    · exact same ▸ later
  have known := first ▸ running.queued
  refine ⟨tracked, allPcb ▸ running.room, fun other waits => ?_, fun other member => ?_⟩
  · rw [allPcb]
    rcases queue with same | ⟨same, -⟩
    · rw [same, List.mem_append, List.mem_singleton] at waits
      rcases waits with later | rfl
      · exact known other (List.mem_cons_of_mem _ later)
      · exact known other List.mem_cons_self
    · exact known other (List.mem_cons_of_mem _ (same ▸ waits))
  · by_cases here : other = pid
    · subst here
      refine ⟨lines, done, counts, fun left => ?_⟩
      rcases queue with same | ⟨-, all⟩
      · exact same ▸ List.mem_append_right _ (List.mem_singleton.mpr rfl)
      · exact absurd left (Nat.not_lt_of_le all)
    · obtain ⟨lines', done', counts', waits⟩ := running.counts other (allPcb ▸ member)
      refine ⟨lines', done', others other here _ _ counts', fun left => stays other ?_⟩
      exact (List.mem_cons.mp (first ▸ waits left)).resolve_left here

theorem Running.turn (running : Running sizes k) (keeps : KeepsFrames sizes parseInput)
    (run : k.turn sizes parseInput = some t) : Running sizes t ∧ t.allPcb = k.allPcb := by
  cases first : k.queue with
  | nil =>
    rw [KernelState.turn, first] at run
    cases run
  | cons pid rest =>
    have member : pid ∈ k.allPcb := running.queued pid (first ▸ List.mem_cons_self)
    obtain ⟨lines, done, counts, -⟩ := running.counts pid member
    have size := counts.size
    have begins : Tracked sizes { k with queue := rest } :=
      ⟨⟨running.tracked.placed.aligned, running.tracked.placed.lies⟩, running.tracked.owned, running.tracked.numbered⟩
    have counts' : ({ k with queue := rest } : KernelState).Counts pid lines done := counts.congr rfl
    rw [KernelState.turn, first] at run
    simp only at run
    split at run
    next more =>
      obtain ⟨⟨fault, u⟩, line, run⟩ := Option.bind_eq_some_iff.mp run
      obtain ⟨tracked, ran⟩ := begins.runLine member counts' (by omega) keeps line
      obtain ⟨done', between, once⟩ := ran.counts
      have others : ∀ other, other ≠ pid → ∀ lines done, k.Counts other lines done → u.Counts other lines done :=
        fun other different lines done counts => ran.others other different lines done (counts.congr rfl)
      cases fault with
      | true =>
        obtain rfl := Option.some_inj.mp run
        exact ⟨running.turned first tracked ran.allPcb others ⟨done', between, .inl ran.queue⟩, ran.allPcb⟩
      | false =>
        obtain ⟨⟨fault, v⟩, line', run⟩ := Option.bind_eq_some_iff.mp run
        obtain rfl := once rfl
        obtain ⟨tracked', ran'⟩ := tracked.runLine (ran.allPcb ▸ member) between (by omega) keeps line'
        obtain ⟨done'', after, -⟩ := ran'.counts
        have allPcb : v.allPcb = k.allPcb := ran'.allPcb.trans ran.allPcb
        have others' : ∀ other, other ≠ pid → ∀ lines done, k.Counts other lines done → v.Counts other lines done :=
          fun other different lines done counts => ran'.others other different lines done (others other different lines done counts)
        have queue : u.queue = rest := ran.queue
        cases fault with
        | true =>
          obtain rfl := Option.some_inj.mp run
          refine ⟨running.turned first tracked' allPcb others' ⟨done'', after, .inl ?_⟩, allPcb⟩
          rw [ran'.queue, queue, if_pos rfl]
        | false =>
          obtain rfl := Option.some_inj.mp run
          refine ⟨running.turned first ⟨⟨tracked'.placed.aligned, tracked'.placed.lies⟩, tracked'.owned, tracked'.numbered⟩
            allPcb (fun other different lines done counts => (others' other different lines done counts).congr rfl)
            ⟨done'', after.congr rfl, .inl ?_⟩, allPcb⟩
          have same : v.queue = rest := ran'.queue.trans queue
          simp only [same]
    next =>
      split at run
      next one =>
        obtain ⟨⟨fault, u⟩, line, run⟩ := Option.bind_eq_some_iff.mp run
        obtain rfl := Option.some_inj.mp run
        obtain ⟨tracked, ran⟩ := begins.runLine member counts' (by omega) keeps line
        obtain ⟨done', after, once⟩ := ran.counts
        refine ⟨running.turned first tracked ran.allPcb
          (fun other different lines done counts => ran.others other different lines done (counts.congr rfl))
          ⟨done', after, ?_⟩, ran.allPcb⟩
        cases fault with
        | true => exact .inl ran.queue
        | false =>
          obtain rfl := once rfl
          exact .inr ⟨ran.queue, by omega⟩
      next =>
        obtain rfl := Option.some_inj.mp run
        refine ⟨running.turned first begins rfl (fun other _ lines done counts => counts.congr rfl)
          ⟨done, counts', .inr ⟨rfl, ?_⟩⟩, rfl⟩
        have inside := counts.inside
        omega

theorem Running.runQueue (running : Running sizes k) (keeps : KeepsFrames sizes parseInput)
    (run : k.runQueue sizes parseInput fuel = some t) : Running sizes t ∧ t.allPcb = k.allPcb ∧ t.queueDone = true := by
  induction fuel generalizing k with
  | zero => cases run
  | succ fuel ih =>
    rw [KernelState.runQueue] at run
    split at run
    next done =>
      obtain rfl := Option.some_inj.mp run
      exact ⟨running, rfl, done⟩
    next =>
      obtain ⟨u, turn, run⟩ := Option.bind_eq_some_iff.mp run
      obtain ⟨running', allPcb⟩ := running.turn keeps turn
      obtain ⟨final, allPcb', done⟩ := ih running' run
      exact ⟨final, allPcb'.trans allPcb, done⟩

theorem Running.loaded (running : Running sizes k) (ended : k.queueDone = true) {i : Nat} {page : Page}
    (member : pid ∈ k.allPcb) (present : k.page pid i = some page) :
    (∃ q, 3 * q + 3 ≤ sizes.frameStoreSize ∧ ∀ j : Fin 3, page.index j = 3 * q + j) ∨ ∀ j, page.index j = 0 := by
  obtain ⟨lines, done, counts, waits⟩ := running.counts pid member
  have inside : i < (k.pcb pid).pageTable.length := (List.getElem?_eq_some_iff.mp present).1
  have behind : 3 * i < lines := lt_pageTableSize.mp (counts.table ▸ inside)
  have positive : (k.pcb pid).programCounter i ≠ 0 := by
    by_cases left : done < lines
    · have all := List.all_eq_true.mp (List.all_eq_true.mp ended pid (waits left)) i (List.mem_range.mpr inside)
      rw [beq_iff_eq.mp all]
      decide
    · rw [counts.counters]
      omega
  cases running.tracked.placed.lies pid member i page present with
  | framed q inside index => exact .inl ⟨q, inside, index⟩
  | evicted index => exact .inr index
  | unloaded _ _ unread => exact absurd unread positive

theorem Placed.loadPages {known pages : List Nat} (placed : Placed sizes k known)
    (run : KernelState.loadPages sizes pid pages k = some t) :
    Placed sizes t known ∧ OnlyPages k t ∧ t.lruCache = k.lruCache ∧ (pages ≠ [] → 3 ≤ sizes.frameStoreSize) := by
  induction pages generalizing k with
  | nil =>
    obtain rfl := Option.some_inj.mp run
    exact ⟨placed, .refl k, rfl, fun nonempty => absurd rfl nonempty⟩
  | cons i rest ih =>
    obtain ⟨⟨loaded, u⟩, load, run⟩ := Option.bind_eq_some_iff.mp run
    obtain ⟨between, same, cache⟩ := placed.loads load
    cases loaded with
    | false => cases run
    | true =>
      obtain ⟨after, same', cache', -⟩ := ih between run
      refine ⟨after, same.trans same', cache'.trans cache, fun _ => ?_⟩
      obtain ⟨page, present, -⟩ := Option.bind_eq_some_iff.mp load
      cases found : freeFrame sizes k.memory with
      | none =>
        rw [loadPage_none present found] at load
        cases (Prod.mk.inj (Option.some_inj.mp load)).1
      | some start =>
        have inside := (freeFrame_some found).1
        omega

theorem Running.newProc {script : Option Text} (running : Running sizes k) (run : k.newProc sizes script = some t) :
    Running sizes t := by
  obtain ⟨text, -, run⟩ := Option.bind_eq_some_iff.mp run
  obtain ⟨u, loads, run⟩ := Option.bind_eq_some_iff.mp run
  obtain rfl := Option.some_inj.mp run
  obtain ⟨pcb, new⟩ : ∃ pcb : PagedPCB, pcb = ⟨k.pidCounter, countLines text, fun _ => 0,
      (List.range (pageTableSize (countLines text))).map (pageInit k.pidCounter), text⟩ := ⟨_, rfl⟩
  have old : ∀ pid ∈ k.allPcb, pid ≠ k.pidCounter := fun pid member =>
    Nat.ne_of_lt (running.tracked.numbered pid member)
  obtain ⟨base, begins⟩ : ∃ base : KernelState, base = { k.setPcb k.pidCounter pcb with pidCounter := k.pidCounter + 1 } :=
    ⟨_, rfl⟩
  have self : base.pcb k.pidCounter = pcb := begins ▸ Function.update_self ..
  have others : ∀ pid ∈ k.allPcb, base.pcb pid = k.pcb pid := fun pid member =>
    begins ▸ Function.update_of_ne (old pid member) ..
  have placed : Placed sizes base (k.allPcb ++ [k.pidCounter]) := by
    refine ⟨begins ▸ running.tracked.placed.aligned, fun pid member i page present => ?_⟩
    rcases List.mem_append.mp member with early | last
    · have same := others pid early
      rw [KernelState.page, same] at present
      rw [same]
      exact running.tracked.placed.lies pid early i page present
    · obtain rfl := List.mem_singleton.mp last
      rw [KernelState.page, self, new, List.getElem?_map] at present
      obtain ⟨number, -, rfl⟩ := Option.map_eq_some_iff.mp present
      refine .unloaded (fun _ => rfl) (fun _ => rfl) ?_
      rw [self, new]
  obtain ⟨after, same, cache, some'⟩ := placed.loadPages (by rw [begins, new]; exact loads)
  have queue : u.queue = k.queue := same.queue.trans (by rw [begins]; rfl)
  have allPcb : u.allPcb = k.allPcb := same.allPcb.trans (by rw [begins]; rfl)
  have lruCache : u.lruCache = k.lruCache := cache.trans (by rw [begins]; rfl)
  have pidCounter : u.pidCounter = k.pidCounter + 1 := same.pidCounter.trans (by rw [begins])
  have mine : k.pidCounter ∈ k.allPcb ++ [k.pidCounter] := List.mem_append_right _ (List.mem_singleton.mpr rfl)
  have pages : 0 < min 2 (pageTableSize (countLines text)) :=
    Nat.lt_min.mpr ⟨by decide, lt_pageTableSize.mpr (Nat.succ_pos _)⟩
  refine ⟨⟨?_, fun x member => ?_, fun pid member => ?_⟩, fun _ => some' fun empty => ?_, fun pid waits => ?_, fun pid member => ?_⟩
  · simp only [allPcb]
    exact ⟨after.aligned, after.lies⟩
  · simp only [allPcb, lruCache] at member ⊢
    rcases List.mem_append.mp member with first | early
    · obtain ⟨i, -, rfl⟩ := List.mem_map.mp (List.mem_reverse.mp first)
      exact mine
    · exact List.mem_append_left _ (running.tracked.owned x early)
  · simp only [allPcb, pidCounter] at member ⊢
    rcases List.mem_append.mp member with early | last
    · exact Nat.lt_succ_of_lt (running.tracked.numbered pid early)
    · exact List.mem_singleton.mp last ▸ Nat.lt_succ_self _
  · have length := congrArg List.length empty
    rw [List.length_range] at length
    exact Nat.ne_of_gt pages length
  · simp only [allPcb, queue] at waits ⊢
    rcases List.mem_append.mp waits with early | last
    · exact List.mem_append_left _ (running.queued pid early)
    · exact List.mem_singleton.mp last ▸ mine
  · simp only [allPcb, queue] at member ⊢
    rcases List.mem_append.mp member with early | last
    · obtain ⟨lines, done, counts, waits⟩ := running.counts pid early
      refine ⟨lines, done, (same.counts (counts.congr (others pid early))).congr rfl, fun left => ?_⟩
      exact List.mem_append_left _ (waits left)
    · obtain rfl := List.mem_singleton.mp last
      have counts : base.Counts k.pidCounter (countLines text) 0 := by
        refine ⟨?_, Nat.zero_le _, ?_, fun i => ?_⟩
        · rw [self, new]
          simp
        · rw [self, new, List.length_map, List.length_range]
        · rw [self, new]
          simp
      exact ⟨countLines text, 0, (same.counts counts).congr rfl, fun _ => List.mem_append_right _ (List.mem_singleton.mpr rfl)⟩

theorem Running.newProcs {scripts : List (Option Text)} (running : Running sizes k)
    (run : KernelState.newProcs sizes scripts k = some t) : Running sizes t := by
  induction scripts generalizing k with
  | nil =>
    obtain rfl := Option.some_inj.mp run
    exact running
  | cons script rest ih =>
    obtain ⟨u, first, run⟩ := Option.bind_eq_some_iff.mp run
    exact ih (running.newProc first) run

end runs

end KernelState

end ShellOs.Kernel
