import ShellOs.Kernel.PageCache
import ShellOs.Kernel.FreeFrames
import ShellOs.Lib.TurnCache
import Mathlib.Algebra.Order.BigOperators.Group.Finset
import Mathlib.Algebra.Order.BigOperators.Group.List

/-! What `run_proc_RR` executes, from the first turn to the last (kernel.c). -/

namespace ShellOs.Kernel

/-- A line of a process is given to `parseInput`, or a page is chosen as a victim. -/
inductive Event
  | executes (pid : Nat) (line : Text)
  | evicts (pid pageIndex : Nat)

def executed (pid : Nat) (events : List Event) : List Text :=
  events.filterMap fun
    | .executes other line => if other = pid then some line else none
    | .evicts _ _ => none

namespace KernelState

section events

variable (sizes : StoreSizes) (parseInput : Text → ShellMemory → Int × ShellMemory)

def victims (k : KernelState) (pid pageIndex : Nat) : List Event :=
  match k.loadPage sizes pid pageIndex with
  | some (false, k) => k.lruCache.getLast?.toList.map fun victim => .evicts victim.1 victim.2
  | _ => []

def lineEvents (k : KernelState) (pid : Nat) : List Event :=
  match k.nextLine pid with
  | none => []
  | some (i, line) =>
    ((k.page pid i).toList.filter fun page => page.validBit line).map
        (fun page => .executes pid (k.memory (page.index line)).value) ++
      match k.cpuRun parseInput pid i line with
      | some (1, k) => k.victims sizes pid i
      | _ => []

def turnEvents (k : KernelState) : List Event :=
  match k.queue with
  | [] => []
  | pid :: rest =>
    let k := { k with queue := rest }
    if (1 : Int) < (k.pcb pid).size then
      k.lineEvents sizes parseInput pid ++
        match k.runLine sizes parseInput pid with
        | some (false, k) => k.lineEvents sizes parseInput pid
        | _ => []
    else if (k.pcb pid).size = (1 : Int) then k.lineEvents sizes parseInput pid
    else []

def queueEvents : Nat → KernelState → List Event
  | 0, _ => []
  | fuel + 1, k =>
    if k.queueDone then []
    else k.turnEvents sizes parseInput ++ ((k.turn sizes parseInput).toList.flatMap (queueEvents fuel))

/-- The loop of `exec` (and the one call of `run`) that starts the scripts. -/
def newProcs : List (Option Text) → KernelState → Option KernelState
  | [], k => some k
  | script :: rest, k => (k.newProc sizes script).bind (newProcs rest)

end events

end KernelState

/-- The lines are done in their order, and a victim has none left when it is chosen. -/
structure Advance (known : List Nat) (work work' : Nat → Work) (events : List Event) : Prop where
  reads : ∀ pid, (work' pid).reads = (work pid).reads
  lines : ∀ pid, executed pid events ++ (work' pid).reads.drop (work' pid).done = (work pid).reads.drop (work pid).done
  done : ∀ pid, (work' pid).done = (work pid).done + (executed pid events).length
  victims : ∀ before pid i after, events = before ++ .evicts pid i :: after → pid ∈ known ∧
    min (3 * (i + 1)) (work pid).reads.length ≤ (work pid).done + (executed pid before).length

section advance

variable {known : List Nat} {work work' work'' : Nat → Work} {events later : List Event} {pid : Nat}

@[simp]
theorem executed_nil : executed pid [] = [] := rfl

theorem executed_append : executed pid (events ++ later) = executed pid events ++ executed pid later :=
  List.filterMap_append ..

theorem Advance.refl : Advance known work work [] where
  reads _ := rfl
  lines _ := rfl
  done _ := rfl
  victims before pid i after split := by
    have length := congrArg List.length split
    simp at length

theorem Advance.trans (first : Advance known work work' events) (second : Advance known work' work'' later) :
    Advance known work work'' (events ++ later) where
  reads pid := (second.reads pid).trans (first.reads pid)
  lines pid := by
    rw [executed_append, List.append_assoc, second.lines, first.lines]
  done pid := by
    rw [executed_append, List.length_append, second.done, first.done, Nat.add_assoc]
  victims before pid i after split := by
    rcases List.append_eq_append_iff.mp split with ⟨rest, rfl, tail⟩ | ⟨rest, rfl, tail⟩
    · obtain ⟨member, bound⟩ := second.victims rest pid i after tail
      rw [first.reads, first.done] at bound
      refine ⟨member, ?_⟩
      rw [executed_append, List.length_append]
      omega
    · cases rest with
      | nil =>
        obtain ⟨member, bound⟩ := second.victims [] pid i after tail.symm
        rw [first.reads, first.done] at bound
        exact ⟨member, by simpa using bound⟩
      | cons event rest =>
        rw [List.cons_append] at tail
        obtain ⟨rfl, -⟩ := List.cons.inj tail
        exact first.victims before pid i rest rfl

end advance

namespace KernelState

section lines

variable {sizes : StoreSizes} {parseInput : Text → ShellMemory → Int × ShellMemory} {k : KernelState} {known : List Nat}
  {work : Nat → Work} {start : Nat × Nat → Nat} {pid : Nat} {line : Text}

/-- The commands of these lines do not return 1 and leave the frames as they are. -/
def GoesOn (sizes : StoreSizes) (parseInput : Text → ShellMemory → Int × ShellMemory) (lines : List Text) : Prop :=
  ∀ line ∈ lines, ∀ m, (parseInput line m).1 ≠ 1 ∧ ∀ pos < sizes.frameStoreSize, (parseInput line m).2 pos = m pos

/-- The next line of a process is executed, or its page is loaded. -/
inductive Step (w : Work) : Bool → Work → Prop
  | executes : Step w false { w with done := w.done + 1 }
  | faults : w.loaded ≤ w.done / 3 → Step w true { w with loaded := w.loaded + 1 }

/-- What a line changes: the page of the process is the one used last then, and the others have moved back by one at most. -/
structure LineRun (sizes : StoreSizes) (k t : KernelState) (known : List Nat) (work : Nat → Work) (pid : Nat) (fault : Bool)
    (w : Work) (events : List Event) : Prop where
  step : Step (work pid) fault w
  packed : ∃ start, Packed sizes t known t.lruCache (Function.update work pid w) start
  queue : t.queue = if fault then k.queue ++ [pid] else k.queue
  allPcb : t.allPcb = k.allPcb
  advance : Advance known work (Function.update work pid w) events
  first : t.lruCache.idxOf (pid, (work pid).done / 3) = 0
  near : ∀ x ∈ t.lruCache, x ≠ (pid, (work pid).done / 3) → x ∈ k.lruCache ∧ t.lruCache.idxOf x ≤ k.lruCache.idxOf x + 1
  length : k.lruCache.length ≤ t.lruCache.length

theorem lineRun_executes (packed : Packed sizes k known k.lruCache work start) (member : pid ∈ known)
    (next : (work pid).reads[(work pid).done]? = some line) (early : (work pid).done / 3 < (work pid).loaded)
    (goesOn : GoesOn sizes parseInput (work pid).reads) : ∃ t, k.runLine sizes parseInput pid = some (false, t) ∧
      LineRun sizes k t known work pid false { work pid with done := (work pid).done + 1 }
        (k.lineEvents sizes parseInput pid) := by
  obtain ⟨inside, here⟩ := List.getElem?_eq_some_iff.mp next
  obtain ⟨returns, keeps⟩ := goesOn line (List.mem_of_getElem? next) k.memory
  have consistent := packed.toConsistent
  obtain ⟨t, run, queue, allPcb, -, cache, after⟩ := runLine_executes packed member next early returns keeps
  have cached := consistent.resident member inside early
  obtain ⟨page, present, -, valid, text⟩ := consistent.lineAt member next early
  have events : k.lineEvents sizes parseInput pid = [.executes pid line] := by
    have goes : ∀ r : Int × ShellMemory, r.1 ≠ 1 → (match (some (r.1, k.counted pid ((work pid).done / 3) r.2) :
        Option (Int × KernelState)) with
        | some (1, k) => k.victims sizes pid ((work pid).done / 3)
        | _ => []) = [] := by
      intro r other
      split
      next equal => exact absurd (Prod.mk.inj (Option.some_inj.mp equal)).1 other
      next => rfl
    have ran : k.cpuRun parseInput pid ((work pid).done / 3) ⟨(work pid).done % 3, Nat.mod_lt _ (by decide)⟩ =
        some ((parseInput line k.memory).1, k.counted pid ((work pid).done / 3) (parseInput line k.memory).2) := by
      simp only [cpuRun, present, Option.bind_eq_bind, Option.bind_some, valid, Bool.true_eq_false, if_false, text]
      rfl
    rw [lineEvents, nextLine_eq (consistent.works pid member).counts inside]
    simp only [present, Option.toList_some, ran, goes _ returns, List.append_nil, List.filter_cons, valid, if_true,
      List.filter_nil, List.map_cons, List.map_nil, text]
  refine ⟨t, run, .executes, ⟨start, after⟩, queue, allPcb, ?_, ?_, fun x member other => ?_, ?_⟩
  · rw [events]
    have only : ∀ other, executed other [.executes pid line] = if pid = other then [line] else [] := fun other => by
      rw [executed, List.filterMap_cons]
      split <;> rename_i equal <;> split at equal <;> simp_all
    constructor
    · intro other
      by_cases same : other = pid
      · rw [same, Function.update_self]
      · rw [Function.update_of_ne same]
    · intro other
      rw [only]
      by_cases same : other = pid
      · subst same
        rw [Function.update_self, if_pos rfl, List.drop_eq_getElem_cons inside, here]
        rfl
      · rw [Function.update_of_ne same, if_neg (Ne.symm same)]
        rfl
    · intro other
      rw [only]
      by_cases same : other = pid
      · rw [same, Function.update_self, if_pos rfl]
        rfl
      · rw [Function.update_of_ne same, if_neg (Ne.symm same)]
        rfl
    · intro before other i after split
      cases before with
      | nil => cases (List.cons.inj split).1
      | cons event before => exact absurd (List.cons.inj split).2 (by simp)
  · rw [cache, List.idxOf_cons_self]
  · rw [cache] at member ⊢
    exact Lib.idxOf_touch member other
  · rw [cache, List.length_cons, List.length_erase_of_mem cached]
    omega

variable (parseInput) in
theorem lineRun_faults (packed : Packed sizes k known k.lruCache work start) (member : pid ∈ known)
    (left : (work pid).done < (work pid).reads.length) (late : (work pid).loaded ≤ (work pid).done / 3)
    (nonempty : k.lruCache ≠ []) (victim : ∀ x ∈ k.lruCache.getLast?, ¬ (work x.1).Left x.2) :
    ∃ t, k.runLine sizes parseInput pid = some (true, t) ∧
      LineRun sizes k t known work pid true { work pid with loaded := (work pid).loaded + 1 }
        (k.lineEvents sizes parseInput pid) := by
  have consistent := packed.toConsistent
  have works := consistent.works pid member
  have here : (work pid).done / 3 = (work pid).loaded := by
    have fetched := works.fetched
    omega
  have more : (work pid).loaded < (work pid).pages := by
    rw [Work.lt_pages]
    omega
  obtain ⟨t, start', run, queue, allPcb, -, after, cache⟩ :=
    runLine_faults parseInput packed member left late nonempty fun _ => victim
  obtain ⟨page, present⟩ := consistent.present member more
  have absent : (pid, (work pid).loaded) ∉ k.lruCache := fun cached => Nat.lt_irrefl _ (consistent.owned _ cached).2
  have invalid := consistent.absent pid member _ page absent present
  have ran : k.cpuRun parseInput pid (work pid).loaded ⟨(work pid).done % 3, Nat.mod_lt _ (by decide)⟩ = some (1, k) := by
    simp only [cpuRun, present, Option.bind_eq_bind, Option.bind_some, invalid, if_true]
  have events : k.lineEvents sizes parseInput pid = k.victims sizes pid (work pid).loaded := by
    rw [lineEvents, nextLine_eq works.counts left]
    simp only [here, present, Option.toList_some, ran, List.filter_cons, invalid, Bool.false_eq_true, if_false,
      List.filter_nil, List.map_nil, List.nil_append]
  have chosen : ∀ event ∈ k.victims sizes pid (work pid).loaded, ∃ x ∈ k.lruCache.getLast?, event = .evicts x.1 x.2 := by
    intro event chosen
    rw [victims] at chosen
    rcases loadPage_cases consistent member more with ⟨-, load⟩ | ⟨-, u, -, load, -⟩
    · rw [load] at chosen
      obtain ⟨x, last, rfl⟩ := List.mem_map.mp chosen
      exact ⟨x, Option.mem_toList.mp last, rfl⟩
    · rw [load] at chosen
      cases chosen
  have silent : ∀ other, executed other (k.victims sizes pid (work pid).loaded) = [] := by
    intro other
    rw [executed, List.filterMap_eq_nil_iff]
    intro event member'
    obtain ⟨x, -, rfl⟩ := chosen event member'
    rfl
  refine ⟨t, run, .faults late, ⟨start', after⟩, queue, allPcb, ?_, ?_, fun x inside other => ?_, ?_⟩
  · rw [events]
    constructor
    · intro other
      by_cases same : other = pid
      · rw [same, Function.update_self]
      · rw [Function.update_of_ne same]
    · intro other
      rw [silent]
      by_cases same : other = pid
      · rw [same, Function.update_self]
        rfl
      · rw [Function.update_of_ne same]
        rfl
    · intro other
      rw [silent]
      by_cases same : other = pid
      · rw [same, Function.update_self]
        rfl
      · rw [Function.update_of_ne same]
        rfl
    · intro before other i after split
      have inside : Event.evicts other i ∈ k.victims sizes pid (work pid).loaded := by
        rw [split]
        exact List.mem_append_right _ List.mem_cons_self
      obtain ⟨x, last, equal⟩ := chosen _ inside
      obtain ⟨rfl, rfl⟩ := Event.evicts.inj equal
      have done := victim x last
      rw [Work.Left] at done
      exact ⟨(consistent.owned x (List.mem_of_getLast? last)).1, by omega⟩
  · rw [cache, here, List.idxOf_cons_self]
  · rw [here] at other
    by_cases free : (freeFrame sizes k.memory).isSome
    · rw [cache, if_pos free] at inside ⊢
      exact Lib.idxOf_push inside other
    · rw [cache, if_neg free] at inside ⊢
      exact Lib.idxOf_replace inside other
  · rw [cache, List.length_cons]
    split
    · exact Nat.le_succ _
    · rw [List.length_dropLast]
      omega

end lines

def weight (work : Nat → Work) (pid : Nat) : Nat := min 2 (work pid).pages

def total (work : Nat → Work) (known : List Nat) : Nat := (known.map (weight work)).sum

/-- The page that a process is at, once both pages are done with which it began. -/
def Needs (work : Nat → Work) (pid : Nat) (x : Nat × Nat) : Prop :=
  x = (pid, (work pid).done / 3) ∧ 6 ≤ (work pid).done ∧ (work pid).done < (work pid).reads.length

/-- Between two turns: until the first page fault the processes get on alike, and from then on the page that a process is
at has no more pages in front of it than have been used since its turn. -/
structure Scheduled (sizes : StoreSizes) (k : KernelState) (work : Nat → Work) : Prop where
  packed : ∃ start, Packed sizes k k.allPcb k.lruCache work start
  distinct : k.allPcb.Nodup
  queued : ∀ pid ∈ k.queue, pid ∈ k.allPcb
  nodup : k.queue.Nodup
  waiting : ∀ pid ∈ k.allPcb, (work pid).done < (work pid).reads.length → pid ∈ k.queue
  begun : ∀ pid ∈ k.allPcb, weight work pid ≤ (work pid).loaded
  recent : ∀ pid ∈ k.allPcb, 2 < (work pid).loaded → 3 * ((work pid).loaded - 1) ≤ (work pid).done
  even : ∀ pid ∈ k.queue, (work pid).done < (work pid).reads.length → (work pid).done < 6 → (work pid).done % 2 = 0
  alike : k.queue.Pairwise fun p q => (work p).done < (work p).reads.length → (work q).done < (work q).reads.length →
    min 6 (work p).done ≤ min 6 (work q).done ∧ min 6 (work q).done ≤ min 6 (work p).done + 2
  full : total work k.allPcb ≤ k.lruCache.length
  guarded : Lib.Guarded (weight work) (total work k.allPcb) (Needs work) k.lruCache 0 k.queue

section turns

variable {sizes : StoreSizes} {parseInput : Text → ShellMemory → Int × ShellMemory} {k t : KernelState}
  {work : Nat → Work} {pid : Nat} {rest : List Nat} {w : Work}

theorem sum_weight_le {queue known : List Nat} (nodup : queue.Nodup) (sub : ∀ pid ∈ queue, pid ∈ known)
    (work : Nat → Work) : (queue.map (weight work)).sum ≤ total work known := by
  obtain ⟨between, perm, sublist⟩ := nodup.subperm sub
  rw [total, ← (perm.map (weight work)).sum_eq]
  exact (sublist.map (weight work)).sum_le_sum fun _ _ => Nat.zero_le _

/-- What a turn of the first process in the queue keeps, by how it ends: the process has gone on from `work pid` to `w`,
and the pages of the others have moved back by `d`. -/
theorem Scheduled.turned (scheduled : Scheduled sizes k work) (first : k.queue = pid :: rest)
    (packed : ∃ start, Packed sizes t t.allPcb t.lruCache (Function.update work pid w) start)
    (allPcb : t.allPcb = k.allPcb) (reads : w.reads = (work pid).reads)
    (queue : t.queue = rest ++ [pid] ∨ t.queue = rest ∧ w.reads.length ≤ w.done)
    (onward : (work pid).done ≤ w.done) (loaded : (work pid).loaded ≤ w.loaded)
    (recent : 2 < w.loaded → 3 * (w.loaded - 1) ≤ w.done)
    (pace : w.done < w.reads.length → 6 ≤ (work pid).done ∨ w.done = (work pid).done + 2)
    {d : Nat} (used : d = 0 ∨ d ≤ 2 ∧ (work pid).done < (work pid).reads.length)
    (near : ∀ x ∈ t.lruCache, x.1 ≠ pid → x ∈ k.lruCache ∧ t.lruCache.idxOf x ≤ k.lruCache.idxOf x + d)
    (front : ∀ x ∈ t.lruCache, Needs (Function.update work pid w) pid x → t.lruCache.idxOf x = 0)
    (length : k.lruCache.length ≤ t.lruCache.length) : Scheduled sizes t (Function.update work pid w) := by
  have nodup := scheduled.nodup
  have queued := scheduled.queued
  have even := scheduled.even
  have alike := scheduled.alike
  have guarded := scheduled.guarded
  rw [first] at nodup queued even alike guarded
  obtain ⟨absent, nodup⟩ := List.nodup_cons.mp nodup
  have lengths : w.reads.length = (work pid).reads.length := congrArg List.length reads
  have self : Function.update work pid w pid = w := Function.update_self ..
  have others : ∀ other, other ≠ pid → Function.update work pid w other = work other := fun other different =>
    Function.update_of_ne different ..
  have behind : ∀ other ∈ rest, Function.update work pid w other = work other := fun other member =>
    others other fun same => absent (same ▸ member)
  have weights : weight (Function.update work pid w) = weight work := by
    funext other
    by_cases same : other = pid
    · subst same
      rw [weight, weight, self, Work.pages, Work.pages, reads]
    · rw [weight, weight, others other same]
  have totals : total (Function.update work pid w) t.allPcb = total work k.allPcb := by
    rw [total, total, weights, allPcb]
  -- the process may be in the queue again, behind the others
  have subset : ∀ other ∈ t.queue, other = pid ∨ other ∈ rest := fun other member => by
    rcases queue with same | ⟨same, -⟩
    · rw [same, List.mem_append, List.mem_singleton] at member
      exact member.symm
    · exact .inr (same ▸ member)
  constructor
  case packed => exact packed
  case distinct => exact allPcb ▸ scheduled.distinct
  case queued =>
    intro other member
    rw [allPcb]
    rcases subset other member with rfl | later
    · exact queued other List.mem_cons_self
    · exact queued other (List.mem_cons_of_mem _ later)
  case nodup =>
    rcases queue with same | ⟨same, -⟩
    · rw [same]
      exact List.nodup_append.mpr ⟨nodup, List.nodup_singleton pid, fun other member last single =>
        fun equal => absent (List.mem_singleton.mp single ▸ equal ▸ member)⟩
    · exact same ▸ nodup
  case waiting =>
    intro other member left
    rw [allPcb] at member
    by_cases here : other = pid
    · subst here
      rw [self] at left
      rcases queue with same | ⟨-, over'⟩
      · rw [same]
        exact List.mem_append_right _ (List.mem_singleton.mpr rfl)
      · exact absurd left (Nat.not_lt_of_le over')
    · rw [others other here] at left
      have waits := scheduled.waiting other member left
      rw [first] at waits
      have later := (List.mem_cons.mp waits).resolve_left here
      rcases queue with same | ⟨same, -⟩
      · rw [same]
        exact List.mem_append_left _ later
      · exact same ▸ later
  case begun =>
    intro other member
    rw [allPcb] at member
    have begun := scheduled.begun other member
    rw [weights]
    by_cases here : other = pid
    · subst here
      rw [self]
      exact Nat.le_trans begun loaded
    · rw [others other here]
      exact begun
  case recent =>
    intro other member many
    rw [allPcb] at member
    by_cases here : other = pid
    · subst here
      rw [self] at many ⊢
      exact recent many
    · rw [others other here] at many ⊢
      exact scheduled.recent other member many
  case even =>
    intro other member left few
    rcases subset other member with rfl | later
    · rw [self] at left few ⊢
      have before := even other List.mem_cons_self (by omega) (by omega)
      have next := pace left
      omega
    · rw [behind other later] at left few ⊢
      exact even other (List.mem_cons_of_mem _ later) left few
  case alike =>
    obtain ⟨ahead, alike⟩ := List.pairwise_cons.mp alike
    have kept : rest.Pairwise fun p q =>
        (Function.update work pid w p).done < (Function.update work pid w p).reads.length →
        (Function.update work pid w q).done < (Function.update work pid w q).reads.length →
        min 6 (Function.update work pid w p).done ≤ min 6 (Function.update work pid w q).done ∧
          min 6 (Function.update work pid w q).done ≤ min 6 (Function.update work pid w p).done + 2 := by
      refine alike.imp_of_mem fun {p q} inP inQ both => ?_
      rw [behind p inP, behind q inQ]
      exact both
    rcases queue with same | ⟨same, -⟩
    · rw [same]
      refine List.pairwise_append.mpr ⟨kept, List.pairwise_singleton _ _, fun p inP q single => ?_⟩
      rw [List.mem_singleton.mp single, self, behind p inP]
      intro leftP left
      have both := ahead p inP (by omega) leftP
      have next := pace left
      omega
    · exact same ▸ kept
  case full =>
    rw [totals]
    exact Nat.le_trans scheduled.full length
  case guarded =>
    have kept : Lib.Guarded (weight work) (total work k.allPcb) (Needs (Function.update work pid w)) t.lruCache 0 rest := by
      -- a process that still has lines of its first two pages has nobody behind it who is further
      have room : d ≤ weight work pid ∨ ∀ other ∈ rest, ∀ x, ¬ Needs work other x := by
        rcases used with rfl | ⟨two, left⟩
        · exact .inl (Nat.zero_le _)
        by_cases further : 4 ≤ (work pid).done
        · have pages : 1 < (work pid).pages := Work.lt_pages.mpr (by omega)
          exact .inl (by rw [weight]; omega)
        · refine .inr fun other member x needed => ?_
          have both := (List.pairwise_cons.mp alike).1 other member left needed.2.2
          have ahead := needed.2.1
          omega
      have same : ∀ other ∈ rest, ∀ x, Needs (Function.update work pid w) other x → Needs work other x :=
        fun other member x needed => by rwa [Needs, behind other member] at needed
      rcases room with room | none'
      · refine guarded.2.moved (show 0 + d ≤ 0 + weight work pid by omega) fun other member x inside needed => ?_
        have needed' := same other member x needed
        obtain ⟨kept, close⟩ := near x inside fun here => absent (by rw [← here, needed'.1]; exact member)
        exact ⟨kept, needed', close⟩
      · refine guarded.2.moved (show 0 + 0 ≤ 0 + weight work pid by omega) fun other member x inside needed => ?_
        exact absurd (same other member x needed) (none' other member x)
    rw [totals, weights]
    rcases queue with same | ⟨same, -⟩
    · rw [same]
      refine kept.back fun x member needed => ?_
      rw [front x member needed]
      have bound := sum_weight_le (List.nodup_cons.mpr ⟨absent, nodup⟩) queued work
      rw [List.map_cons, List.sum_cons] at bound
      omega
    · exact same ▸ kept

theorem Scheduled.past_first (scheduled : Scheduled sizes k work) (member : pid ∈ k.allPcb)
    (reads : w.reads = (work pid).reads) (same : w.loaded = (work pid).loaded) (left : w.done < w.reads.length)
    (late : w.loaded ≤ w.done / 3) : 2 ≤ w.loaded ∧ 6 ≤ w.done := by
  have begun := scheduled.begun pid member
  have inside : w.done / 3 < (work pid).pages := by
    rw [Work.lt_pages, ← reads]
    omega
  rw [weight, ← same] at begun
  omega

theorem Scheduled.victim_done (scheduled : Scheduled sizes k work) (first : k.queue = pid :: rest)
    (packed : ∃ start, Packed sizes t k.allPcb t.lruCache (Function.update work pid w) start)
    (reads : w.reads = (work pid).reads) (same : w.loaded = (work pid).loaded) (before : (work pid).done ≤ w.done)
    (soon : w.done ≤ (work pid).done + 1) (left : w.done < w.reads.length) (late : w.loaded ≤ w.done / 3)
    (near : ∀ x ∈ t.lruCache, x.1 ≠ pid → x ∈ k.lruCache ∧ t.lruCache.idxOf x ≤ k.lruCache.idxOf x + 1)
    (length : k.lruCache.length ≤ t.lruCache.length) :
    t.lruCache ≠ [] ∧ 6 ≤ (work pid).done ∧
      ∀ x ∈ t.lruCache.getLast?, ¬ (Function.update work pid w x.1).Left x.2 := by
  obtain ⟨start, packed⟩ := packed
  have consistent := packed.toConsistent
  have nodup := scheduled.nodup
  have guarded := scheduled.guarded
  have alike := scheduled.alike
  have even := scheduled.even pid (first ▸ List.mem_cons_self)
  rw [first] at nodup guarded alike
  have lengths : w.reads.length = (work pid).reads.length := congrArg List.length reads
  have member : pid ∈ k.allPcb := scheduled.queued pid (first ▸ List.mem_cons_self)
  obtain ⟨two, six⟩ := scheduled.past_first member reads same left late
  have past : 6 ≤ (work pid).done := by
    by_contra few
    have parity := even (by omega) (by omega)
    omega
  have mine : weight work pid = 2 := by
    have pages : 1 < (work pid).pages := Work.lt_pages.mpr (by omega)
    rw [weight]
    omega
  have whole : total work k.allPcb ≤ t.lruCache.length := Nat.le_trans scheduled.full length
  have some' : weight work pid ≤ total work k.allPcb := by
    have bound := sum_weight_le (List.nodup_singleton pid) (fun other single => List.mem_singleton.mp single ▸ member) work
    simpa using bound
  refine ⟨fun empty => ?_, past, fun x last remains => ?_⟩
  · rw [empty, List.length_nil] at whole
    omega
  · have cached := List.mem_of_getLast? last
    obtain ⟨known, early⟩ := consistent.owned x cached
    have place := Lib.idxOf_getLast consistent.nodup last
    rw [Work.Left] at remains
    by_cases here : x.1 = pid
    · rw [here, Function.update_self] at remains early
      omega
    · rw [Function.update_of_ne here] at remains early
      have left' : (work x.1).done < (work x.1).reads.length := by omega
      have waits := scheduled.waiting x.1 known left'
      rw [first] at waits
      have later := (List.mem_cons.mp waits).resolve_left here
      have ahead := (List.pairwise_cons.mp alike).1 x.1 later (by omega) left'
      have recent := scheduled.recent x.1 known
      obtain ⟨kept, close⟩ := near x cached here
      have needed : Needs work x.1 x := ⟨Prod.ext rfl (by omega), by omega, left'⟩
      have bound := guarded.2.idxOf_le later kept needed
      have positive : 0 < weight work x.1 := by
        have pages : 0 < (work x.1).pages := Work.lt_pages.mpr (by omega)
        rw [weight]
        omega
      omega

/-- A turn of the first process in the queue, which leads from `work pid` to `w`. -/
structure TurnRun (sizes : StoreSizes) (k t : KernelState) (work : Nat → Work) (pid : Nat) (rest : List Nat) (w : Work)
    (events : List Event) : Prop where
  scheduled : Scheduled sizes t (Function.update work pid w)
  allPcb : t.allPcb = k.allPcb
  advance : Advance k.allPcb work (Function.update work pid w) events
  done : (work pid).done ≤ w.done
  loaded : (work pid).loaded ≤ w.loaded
  queue : t.queue.length ≤ rest.length + 1
  less : (work pid).done + (work pid).loaded < w.done + w.loaded ∨ t.queue = rest

theorem Scheduled.drops (scheduled : Scheduled sizes k work) (first : k.queue = pid :: rest)
    (over' : (work pid).reads.length ≤ (work pid).done) :
    ∃ t, k.turn sizes parseInput = some t ∧
      TurnRun sizes k t work pid rest (work pid) (k.turnEvents sizes parseInput) := by
  obtain ⟨start, packed⟩ := scheduled.packed
  have member : pid ∈ k.allPcb := scheduled.queued pid (first ▸ List.mem_cons_self)
  have works := packed.works pid member
  have size : (k.pcb pid).size = 0 := by
    have inside := works.inside
    rw [works.size]
    omega
  have same : Function.update work pid (work pid) = work := Function.update_eq_self pid work
  have turned := scheduled.turned (t := { k with queue := rest }) (w := work pid) (d := 0) first
    (by rw [same]; exact ⟨start, packed.lists _ _ _ _⟩) rfl rfl (.inr ⟨rfl, over'⟩) (Nat.le_refl _) (Nat.le_refl _)
    (scheduled.recent pid member) (fun left => absurd left (Nat.not_lt_of_le over')) (.inl rfl)
    (fun x inside _ => ⟨inside, Nat.le_refl _⟩)
    (fun x _ needed => by
      rw [same] at needed
      exact absurd needed.2.2 (Nat.not_lt_of_le over')) (Nat.le_refl _)
  refine ⟨{ k with queue := rest }, ?_, turned, rfl, ?_, Nat.le_refl _, Nat.le_refl _, Nat.le_succ _, .inr rfl⟩
  · simp only [turn, first, size]
    rfl
  · have nothing : k.turnEvents sizes parseInput = [] := by
      simp only [turnEvents, first, size]
      rfl
    rw [nothing, same]
    exact .refl

theorem Scheduled.faults (scheduled : Scheduled sizes k work) (first : k.queue = pid :: rest)
    (left : (work pid).done < (work pid).reads.length) (late : (work pid).loaded ≤ (work pid).done / 3) :
    ∃ t w, k.turn sizes parseInput = some t ∧ TurnRun sizes k t work pid rest w (k.turnEvents sizes parseInput) := by
  obtain ⟨start, packed⟩ := scheduled.packed
  have member : pid ∈ k.allPcb := scheduled.queued pid (first ▸ List.mem_cons_self)
  have size := (packed.works pid member).size
  have begins := packed.lists rest k.lruCache k.allPcb k.pidCounter
  have same : Function.update work pid (work pid) = work := Function.update_eq_self pid work
  obtain ⟨nonempty, past, victim⟩ := scheduled.victim_done (t := { k with queue := rest }) (w := work pid) first
    (by rw [same]; exact ⟨start, begins⟩) rfl rfl (Nat.le_refl _) (Nat.le_succ _) left late
    (fun x inside _ => ⟨inside, Nat.le_succ _⟩) (Nat.le_refl _)
  rw [same] at victim
  obtain ⟨t, run, ran⟩ := lineRun_faults parseInput begins member left late nonempty victim
  have queue : t.queue = rest ++ [pid] := ran.queue
  refine ⟨t, { work pid with loaded := (work pid).loaded + 1 }, ?_, ?_, ran.allPcb, ?_, Nat.le_refl _, Nat.le_succ _, ?_,
    .inl (Nat.lt_succ_self _)⟩
  · rw [KernelState.turn, first]
    simp only [run, Option.bind_eq_bind, Option.bind_some, if_true]
    by_cases more : (1 : Int) < (k.pcb pid).size
    · rw [if_pos more]
    · rw [if_neg more, if_pos (by omega)]
  · refine scheduled.turned first (ran.allPcb ▸ ran.packed) ran.allPcb rfl (.inl queue) (Nat.le_refl _) (Nat.le_succ _)
      (fun _ => ?_) (fun _ => .inl past) (d := 1) (.inr ⟨by decide, left⟩) (fun x inside other => ?_)
      (fun x inside needed => ?_) ran.length
    · simp only [Nat.add_sub_cancel]
      omega
    · exact ran.near x inside fun here => other (congrArg Prod.fst here)
    · rw [Needs, Function.update_self] at needed
      rw [needed.1]
      exact ran.first
  · have events : k.turnEvents sizes parseInput = lineEvents sizes parseInput { k with queue := rest } pid := by
      simp only [turnEvents, first, run]
      by_cases more : (1 : Int) < (k.pcb pid).size
      · rw [if_pos more, List.append_nil]
      · rw [if_neg more, if_pos (by omega)]
    rw [events]
    exact ran.advance
  · rw [queue, List.length_append]
    exact Nat.le_refl _

/-- The first line of a turn is executed, and it is the last of the process or is followed by a second. -/
theorem Scheduled.runs (scheduled : Scheduled sizes k work) (first : k.queue = pid :: rest)
    (goesOn : GoesOn sizes parseInput (work pid).reads) (left : (work pid).done < (work pid).reads.length)
    (early : (work pid).done / 3 < (work pid).loaded) :
    ∃ t w, k.turn sizes parseInput = some t ∧ TurnRun sizes k t work pid rest w (k.turnEvents sizes parseInput) := by
  obtain ⟨start, packed⟩ := scheduled.packed
  have member : pid ∈ k.allPcb := scheduled.queued pid (first ▸ List.mem_cons_self)
  have size := (packed.works pid member).size
  have recent := scheduled.recent pid member
  have begins := packed.lists rest k.lruCache k.allPcb k.pidCounter
  obtain ⟨u, run, ran⟩ := lineRun_executes begins member (List.getElem?_eq_getElem left) early goesOn
  obtain ⟨start', after⟩ := ran.packed
  have queue : u.queue = rest := ran.queue
  have other : ∀ {x : Nat × Nat} {i : Nat}, x.1 ≠ pid → x ≠ (pid, i) := fun different here => different (congrArg Prod.fst here)
  by_cases more : (work pid).done + 1 < (work pid).reads.length
  · have two : (1 : Int) < (k.pcb pid).size := by omega
    have self : Function.update work pid { work pid with done := (work pid).done + 1 } pid =
        { work pid with done := (work pid).done + 1 } := Function.update_self ..
    have events : k.turnEvents sizes parseInput =
        lineEvents sizes parseInput { k with queue := rest } pid ++ u.lineEvents sizes parseInput pid := by
      simp only [turnEvents, first, run, if_pos two]
    by_cases early' : ((work pid).done + 1) / 3 < (work pid).loaded
    · obtain ⟨t, again, ran'⟩ := lineRun_executes after member
        (by rw [self]; exact List.getElem?_eq_getElem more) (by rw [self]; exact early') (by rw [self]; exact goesOn)
      have front := ran'.first
      rw [self] at ran' front
      have queue' : t.queue = rest := ran'.queue.trans queue
      refine ⟨{ t with queue := t.queue ++ [pid] }, { work pid with done := (work pid).done + 2 }, ?_, ?_,
        ran'.allPcb.trans ran.allPcb, ?_, Nat.le_add_right .., Nat.le_refl _, ?_, .inl (by simp only; omega)⟩
      · rw [KernelState.turn, first]
        simp only [run, again, Option.bind_eq_bind, Option.bind_some, if_pos two, Bool.false_eq_true, if_false]
      · obtain ⟨start'', final⟩ := ran'.packed
        rw [Function.update_idem] at final
        refine scheduled.turned first ⟨start'', ?_⟩ (ran'.allPcb.trans ran.allPcb) rfl (.inl (congrArg (· ++ [pid]) queue'))
          (Nat.le_add_right ..) (Nat.le_refl _) (fun many => ?_) (fun _ => .inr rfl) (d := 2) (.inr ⟨Nat.le_refl _, left⟩)
          (fun x inside different => ?_) (fun x inside needed => ?_) (Nat.le_trans ran.length ran'.length)
        · rw [show t.allPcb = k.allPcb from ran'.allPcb.trans ran.allPcb]
          exact final.lists _ _ _ _
        · have bound := recent many
          simp only at bound ⊢
          omega
        · obtain ⟨kept, close⟩ := ran'.near x inside (other different)
          obtain ⟨kept', close'⟩ := ran.near x kept (other different)
          exact ⟨kept', by simp only at close' ⊢; omega⟩
        · -- a page behind the line just executed has not been loaded yet
          rw [Needs, Function.update_self] at needed
          obtain ⟨rfl, past, -⟩ := needed
          have owned := (final.owned _ inside).2
          rw [Function.update_self] at owned
          simp only at owned past inside ⊢
          have here : ((work pid).done + 2) / 3 = ((work pid).done + 1) / 3 := by
            have bound := recent (by omega)
            omega
          rw [here]
          exact front
      · rw [events]
        have both := ran.advance.trans ran'.advance
        rw [Function.update_idem] at both
        exact both
      · simp only [queue', List.length_append, List.length_singleton]
        exact Nat.le_refl _
    · have late : (work pid).loaded ≤ ((work pid).done + 1) / 3 := Nat.le_of_not_lt early'
      obtain ⟨nonempty, past, victim⟩ := scheduled.victim_done first ⟨start', after⟩ rfl rfl (Nat.le_succ _) (Nat.le_refl _)
        more late (fun x inside different => ran.near x inside (other different)) ran.length
      obtain ⟨t, again, ran'⟩ := lineRun_faults parseInput after member (by rw [self]; exact more)
        (by rw [self]; exact late) nonempty victim
      have front := ran'.first
      rw [self] at ran' front
      have queue' : t.queue = rest ++ [pid] := ran'.queue.trans (congrArg (· ++ [pid]) queue)
      refine ⟨t, { work pid with done := (work pid).done + 1, loaded := (work pid).loaded + 1 }, ?_, ?_,
        ran'.allPcb.trans ran.allPcb, ?_, Nat.le_succ _, Nat.le_succ _, ?_, .inl (by simp only; omega)⟩
      · rw [KernelState.turn, first]
        simp only [run, again, Option.bind_eq_bind, Option.bind_some, if_pos two, Bool.false_eq_true, if_false, if_true]
      · obtain ⟨start'', final⟩ := ran'.packed
        rw [Function.update_idem] at final
        refine scheduled.turned first ⟨start'', ?_⟩ (ran'.allPcb.trans ran.allPcb) rfl (.inl queue')
          (Nat.le_succ _) (Nat.le_succ _) (fun many => ?_) (fun _ => .inl past) (d := 2) (.inr ⟨Nat.le_refl _, left⟩)
          (fun x inside different => ?_) (fun x inside needed => ?_) (Nat.le_trans ran.length ran'.length)
        · rw [show t.allPcb = k.allPcb from ran'.allPcb.trans ran.allPcb]
          exact final
        · simp only [Nat.add_sub_cancel] at many ⊢
          omega
        · obtain ⟨kept, close⟩ := ran'.near x inside (other different)
          obtain ⟨kept', close'⟩ := ran.near x kept (other different)
          exact ⟨kept', by simp only at close' ⊢; omega⟩
        · rw [Needs, Function.update_self] at needed
          rw [needed.1]
          exact front
      · rw [events]
        have both := ran.advance.trans ran'.advance
        rw [Function.update_idem] at both
        exact both
      · rw [queue', List.length_append]
        exact Nat.le_refl _
  · have one : (k.pcb pid).size = 1 := by omega
    have last : ¬ (1 : Int) < (k.pcb pid).size := by omega
    refine ⟨u, { work pid with done := (work pid).done + 1 }, ?_, ?_, ran.allPcb, ?_, Nat.le_succ _, Nat.le_refl _, ?_,
      .inl (by simp only; omega)⟩
    · rw [KernelState.turn, first]
      simp only [run, Option.bind_eq_bind, Option.bind_some, if_neg last, if_pos one]
    · refine scheduled.turned first ⟨start', ?_⟩ ran.allPcb rfl (.inr ⟨queue, Nat.le_of_not_lt more⟩) (Nat.le_succ _)
        (Nat.le_refl _) (fun many => ?_) (fun still => absurd still more) (d := 1) (.inr ⟨by decide, left⟩)
        (fun x inside different => ran.near x inside (other different)) (fun x inside needed => ?_) ran.length
      · rw [show u.allPcb = k.allPcb from ran.allPcb]
        exact after
      · have bound := recent many
        simp only at bound ⊢
        omega
      · rw [Needs, Function.update_self] at needed
        exact absurd needed.2.2 more
    · have events : k.turnEvents sizes parseInput = lineEvents sizes parseInput { k with queue := rest } pid := by
        simp only [turnEvents, first, if_neg last, if_pos one]
      rw [events]
      exact ran.advance
    · rw [queue]
      exact Nat.le_succ _

theorem Scheduled.turn (scheduled : Scheduled sizes k work) (first : k.queue = pid :: rest)
    (goesOn : GoesOn sizes parseInput (work pid).reads) :
    ∃ t w, k.turn sizes parseInput = some t ∧ TurnRun sizes k t work pid rest w (k.turnEvents sizes parseInput) := by
  by_cases left : (work pid).done < (work pid).reads.length
  · by_cases early : (work pid).done / 3 < (work pid).loaded
    · exact scheduled.runs first goesOn left early
    · exact scheduled.faults first left (Nat.le_of_not_lt early)
  · obtain ⟨t, run, dropped⟩ := scheduled.drops first (Nat.le_of_not_lt left)
    exact ⟨t, work pid, run, dropped⟩

def remaining (k : KernelState) (work : Nat → Work) : Nat :=
  ∑ pid ∈ k.allPcb.toFinset, (((work pid).reads.length - (work pid).done) + ((work pid).pages - (work pid).loaded)) +
    k.queue.length

theorem TurnRun.less_remaining {events : List Event} (scheduled : Scheduled sizes k work) (first : k.queue = pid :: rest)
    (ran : TurnRun sizes k t work pid rest w events) : t.remaining (Function.update work pid w) < k.remaining work := by
  obtain ⟨start, packed⟩ := ran.scheduled.packed
  have member : pid ∈ k.allPcb := scheduled.queued pid (first ▸ List.mem_cons_self)
  have works := packed.works pid (ran.allPcb ▸ member)
  have reads := ran.advance.reads pid
  have pages : w.pages = (work pid).pages := by
    rw [Function.update_self] at reads
    rw [Work.pages, Work.pages, reads]
  have inside := works.inside
  have bound := works.loaded
  rw [Function.update_self] at inside bound reads
  have lengths : w.reads.length = (work pid).reads.length := congrArg List.length reads
  have less : ∀ other ∈ k.allPcb.toFinset,
      ((Function.update work pid w other).reads.length - (Function.update work pid w other).done) +
        ((Function.update work pid w other).pages - (Function.update work pid w other).loaded) ≤
      ((work other).reads.length - (work other).done) + ((work other).pages - (work other).loaded) := by
    intro other _
    by_cases here : other = pid
    · subst here
      rw [Function.update_self]
      have done := ran.done
      have loaded := ran.loaded
      omega
    · rw [Function.update_of_ne here]
  have queue := ran.queue
  rw [remaining, remaining, ran.allPcb, first, List.length_cons]
  rcases ran.less with further | same
  · have smaller := Finset.sum_lt_sum less ⟨pid, List.mem_toFinset.mpr member, by
      rw [Function.update_self]
      have done := ran.done
      have loaded := ran.loaded
      omega⟩
    omega
  · have smaller := Finset.sum_le_sum less
    rw [same]
    omega

theorem Scheduled.loops (scheduled : Scheduled sizes k work)
    (goesOn : ∀ pid ∈ k.allPcb, GoesOn sizes parseInput (work pid).reads) :
    ∃ fuel t work', k.runQueue sizes parseInput fuel = some t ∧ Scheduled sizes t work' ∧ t.allPcb = k.allPcb ∧
      Advance k.allPcb work work' (k.queueEvents sizes parseInput fuel) ∧
      ∀ pid ∈ k.allPcb, (work' pid).reads.length ≤ (work' pid).done := by
  induction less : k.remaining work using Nat.strongRecOn generalizing k work with
  | ind size ih =>
    by_cases over' : k.queueDone
    · refine ⟨1, k, work, ?_, scheduled, rfl, ?_, fun pid member => ?_⟩
      · rw [runQueue, if_pos over']
      · rw [queueEvents, if_pos over']
        exact .refl
      · by_contra left
        have waits := scheduled.waiting pid member (Nat.lt_of_not_le left)
        obtain ⟨start, packed⟩ := scheduled.packed
        have works := packed.works pid member
        have counters := List.all_eq_true.mp (List.all_eq_true.mp over' pid waits) ((work pid).done / 3) (by
          rw [List.mem_range, works.table, Work.lt_pages]
          omega)
        rw [beq_iff_eq, works.counters] at counters
        omega
    · obtain ⟨pid, rest, first⟩ : ∃ pid rest, k.queue = pid :: rest := by
        cases queue : k.queue with
        | nil => exact absurd (by rw [queueDone, queue]; rfl) over'
        | cons pid rest => exact ⟨pid, rest, rfl⟩
      have member : pid ∈ k.allPcb := scheduled.queued pid (first ▸ List.mem_cons_self)
      obtain ⟨t, w, run, ran⟩ := scheduled.turn first (goesOn pid member)
      have goesOn' : ∀ pid ∈ t.allPcb, GoesOn sizes parseInput (Function.update work _ w pid).reads := fun other known => by
        rw [ran.advance.reads]
        exact goesOn other (ran.allPcb ▸ known)
      obtain ⟨fuel, u, work', loop, scheduled', allPcb, advance, done⟩ :=
        ih _ (less ▸ ran.less_remaining scheduled first) ran.scheduled goesOn' rfl
      rw [ran.allPcb] at advance done
      refine ⟨fuel + 1, u, work', ?_, scheduled', allPcb.trans ran.allPcb, ?_, done⟩
      · rw [runQueue, if_neg over', run]
        exact loop
      · rw [queueEvents, if_neg over', run, Option.toList_some, List.flatMap_singleton]
        exact ran.advance.trans advance

end turns

/-- The processes have been started and nothing has been executed. -/
structure Begun (sizes : StoreSizes) (k : KernelState) (work : Nat → Work) : Prop where
  packed : ∃ start, Packed sizes k k.allPcb k.lruCache work start
  distinct : k.allPcb.Nodup
  numbered : ∀ pid ∈ k.allPcb, pid < k.pidCounter
  queue : k.queue = k.allPcb
  fresh : ∀ pid ∈ k.allPcb, (work pid).done = 0 ∧ (work pid).loaded = weight work pid
  full : k.lruCache.length = total work k.allPcb

section starting

variable {sizes : StoreSizes} {k t : KernelState} {work : Nat → Work} {script : Text} {scripts : List Text}

theorem Begun.scheduled (begun : Begun sizes k work) : Scheduled sizes k work where
  packed := begun.packed
  distinct := begun.distinct
  queued pid member := begun.queue ▸ member
  nodup := begun.queue ▸ begun.distinct
  waiting pid member _ := begun.queue ▸ member
  begun pid member := Nat.le_of_eq (begun.fresh pid member).2.symm
  recent pid member many := by
    have first := (begun.fresh pid member).2
    rw [weight] at first
    omega
  even pid member _ _ := by rw [(begun.fresh pid (begun.queue ▸ member)).1]
  alike := by
    refine List.pairwise_of_forall_mem_list fun p inP q inQ _ _ => ?_
    rw [(begun.fresh p (begun.queue ▸ inP)).1, (begun.fresh q (begun.queue ▸ inQ)).1]
    exact ⟨Nat.le_refl _, Nat.le_add_right ..⟩
  full := Nat.le_of_eq begun.full.symm
  guarded := Lib.Guarded.of_none fun pid member x needed => by
    have past := needed.2.1
    rw [(begun.fresh pid (begun.queue ▸ member)).1] at past
    cases past

theorem Begun.idle (noQueue : k.queue = []) (noCache : k.lruCache = []) (nobody : k.allPcb = [])
    (empty : ∀ pos < sizes.frameStoreSize, (k.memory pos).var = noneText) : Begun sizes k fun _ => ⟨[], 0, 0⟩ := by
  have vacant : ∀ {x : Nat × Nat}, x ∉ k.lruCache := fun {x} => noCache ▸ List.not_mem_nil
  have none' : ∀ {pid : Nat}, pid ∉ k.allPcb := fun {pid} => nobody ▸ List.not_mem_nil
  refine ⟨⟨fun _ => 0, ?_⟩, ?_, ?_, ?_, ?_, ?_⟩
  · refine ⟨⟨fun _ member => absurd member none', noCache ▸ List.nodup_nil, fun _ member => absurd member vacant,
      fun _ member => absurd member vacant, fun _ member => absurd member vacant, fun _ member => absurd member vacant,
      fun _ member => absurd member none', fun _ member => absurd member none', fun pos inside _ => empty pos inside⟩,
      fun _ member => absurd member vacant, fun _ member => absurd member vacant, fun _ _ member => absurd member none'⟩
  · exact nobody ▸ List.nodup_nil
  · exact fun _ member => absurd member none'
  · rw [noQueue, nobody]
  · exact fun _ member => absurd member none'
  · rw [noCache, nobody]
    rfl

theorem Begun.newProc (begun : Begun sizes k work) (matched : countLines script = (scriptReads script).length)
    (run : k.newProc sizes (some script) = some t) : ∃ loaded,
      Begun sizes t (Function.update work k.pidCounter ⟨scriptReads script, 0, loaded⟩) ∧
      t.allPcb = k.allPcb ++ [k.pidCounter] ∧ t.pidCounter = k.pidCounter + 1 := by
  obtain ⟨start, packed⟩ := begun.packed
  have fresh : k.pidCounter ∉ k.allPcb := fun member => Nat.lt_irrefl _ (begun.numbered _ member)
  obtain ⟨start', queue, allPcb, pidCounter, lruCache, after⟩ := newProc_packed packed fresh matched run
  have old : ∀ pid ∈ k.allPcb, pid ≠ k.pidCounter := fun pid member same => fresh (same ▸ member)
  have weights : ∀ loaded, ∀ pid ∈ k.allPcb,
      weight (Function.update work k.pidCounter ⟨scriptReads script, 0, loaded⟩) pid = weight work pid :=
    fun loaded pid member => by rw [weight, weight, Function.update_of_ne (old pid member)]
  have mine : ∀ loaded, weight (Function.update work k.pidCounter ⟨scriptReads script, 0, loaded⟩) k.pidCounter =
      min 2 (pageTableSize (countLines script)) := fun loaded => by
    rw [weight, Function.update_self, Work.pages, matched]
  refine ⟨_, ⟨⟨start', after⟩, ?_, ?_, ?_, ?_, ?_⟩, allPcb, pidCounter⟩
  · rw [allPcb]
    exact List.nodup_append.mpr ⟨begun.distinct, List.nodup_singleton _, fun pid member other single => by
      rw [List.mem_singleton.mp single]
      exact old pid member⟩
  · intro pid member
    rw [allPcb] at member
    rw [pidCounter]
    rcases List.mem_append.mp member with early | last
    · exact Nat.lt_succ_of_lt (begun.numbered pid early)
    · exact List.mem_singleton.mp last ▸ Nat.lt_succ_self _
  · rw [queue, allPcb, begun.queue]
  · intro pid member
    rw [allPcb] at member
    rcases List.mem_append.mp member with early | last
    · rw [weights _ pid early, Function.update_of_ne (old pid early)]
      exact begun.fresh pid early
    · rw [List.mem_singleton.mp last, mine, Function.update_self]
      exact ⟨rfl, rfl⟩
  · rw [lruCache, total, allPcb, List.map_append, List.sum_append, List.map_congr_left (weights _), List.map_singleton,
      List.sum_singleton, mine, List.length_append, begun.full, total, List.length_reverse, List.length_map,
      List.length_range, Nat.add_comm]

theorem newProcs_begun (begun : Begun sizes k work)
    (matched : ∀ script ∈ scripts, countLines script = (scriptReads script).length)
    (run : newProcs sizes (scripts.map some) k = some t) : ∃ work', Begun sizes t work' ∧
      t.allPcb = k.allPcb ++ List.range' k.pidCounter scripts.length ∧ (∀ pid < k.pidCounter, work' pid = work pid) ∧
      ∀ n script, scripts[n]? = some script →
        (work' (k.pidCounter + n)).reads = scriptReads script ∧ (work' (k.pidCounter + n)).done = 0 := by
  induction scripts generalizing k work with
  | nil =>
    obtain rfl := Option.some_inj.mp run
    exact ⟨work, begun, (List.append_nil _).symm, fun _ _ => rfl, fun n script none' => by cases none'⟩
  | cons script rest ih =>
    obtain ⟨u, first, run⟩ := Option.bind_eq_some_iff.mp run
    obtain ⟨loaded, begun', allPcb, pidCounter⟩ := begun.newProc (matched script List.mem_cons_self) first
    obtain ⟨work', final, allPcb', others, reads⟩ := ih begun' (fun s member => matched s (List.mem_cons_of_mem _ member)) run
    rw [pidCounter] at allPcb' others reads
    refine ⟨work', final, ?_, fun pid before => ?_, fun n text there => ?_⟩
    · rw [allPcb', allPcb, List.length_cons, List.range'_succ, List.append_assoc]
      rfl
    · rw [others pid (Nat.lt_succ_of_lt before), Function.update_of_ne (Nat.ne_of_lt before)]
    · cases n with
      | zero =>
        obtain rfl := Option.some_inj.mp there
        rw [Nat.add_zero, others _ (Nat.lt_succ_self _), Function.update_self]
        exact ⟨rfl, rfl⟩
      | succ n =>
        rw [show k.pidCounter + (n + 1) = k.pidCounter + 1 + n by omega]
        exact reads n text there

theorem runQueue_unique {parseInput : Text → ShellMemory → Int × ShellMemory} {fuel fuel' : Nat} {u : KernelState}
    (run : k.runQueue sizes parseInput fuel = some t) (run' : k.runQueue sizes parseInput fuel' = some u) : t = u := by
  induction fuel generalizing k fuel' with
  | zero => cases run
  | succ fuel ih =>
    cases fuel' with
    | zero => cases run'
    | succ fuel' =>
      rw [runQueue] at run run'
      split at run
      next done =>
        rw [if_pos done] at run'
        exact Option.some_inj.mp (run.symm.trans run')
      next left =>
        rw [if_neg left] at run'
        obtain ⟨mid, turn, run⟩ := Option.bind_eq_some_iff.mp run
        rw [turn] at run'
        exact ih run run'

end starting

section executing

variable {sizes : StoreSizes} {parseInput : Text → ShellMemory → Int × ShellMemory} {k started t : KernelState}
  {scripts : List Text} {work : Nat → Work}

theorem Scheduled.freed (scheduled : Scheduled sizes t work) {pos : Nat} (inside : pos < sizes.frameStoreSize) :
    (t.freeAll.memory pos).var = noneText := by
  classical
  obtain ⟨start, packed⟩ := scheduled.packed
  rw [freeAll_at]
  split
  next => rfl
  next kept =>
    refine packed.free pos inside fun x cached => ?_
    by_contra within
    obtain ⟨page, present, index, -⟩ := (packed.stored x cached).page
    have clears : page.Clears pos := ⟨0, by rw [index]; simp only [Fin.val_zero]; omega⟩
    exact kept ⟨x.1, (packed.owned x cached).1, page, List.mem_of_getElem? present, clears⟩

theorem newProcs_executes (noQueue : k.queue = []) (noCache : k.lruCache = []) (nobody : k.allPcb = [])
    (empty : ∀ pos < sizes.frameStoreSize, (k.memory pos).var = noneText)
    (matched : ∀ script ∈ scripts, countLines script = (scriptReads script).length)
    (goesOn : ∀ script ∈ scripts, GoesOn sizes parseInput (scriptReads script))
    (starts : newProcs sizes (scripts.map some) k = some started) :
    ∃ fuel t work, started.runQueue sizes parseInput fuel = some t ∧ Scheduled sizes t work ∧
      (∀ n script, scripts[n]? = some script →
        executed (k.pidCounter + n) (started.queueEvents sizes parseInput fuel) = scriptReads script) ∧
      ∀ before pid i after, started.queueEvents sizes parseInput fuel = before ++ .evicts pid i :: after →
        ∃ n script, scripts[n]? = some script ∧ pid = k.pidCounter + n ∧
          min (3 * (i + 1)) (scriptReads script).length ≤ (executed pid before).length := by
  classical
  obtain ⟨work, begun, allPcb, -, reads⟩ := newProcs_begun (.idle noQueue noCache nobody empty) matched starts
  rw [nobody, List.nil_append] at allPcb
  have scriptOf : ∀ pid ∈ started.allPcb, ∃ n script, scripts[n]? = some script ∧ pid = k.pidCounter + n := by
    intro pid member
    rw [allPcb, List.mem_range'_1] at member
    obtain ⟨n, rfl⟩ := Nat.exists_eq_add_of_le member.1
    exact ⟨n, _, List.getElem?_eq_getElem (by omega), rfl⟩
  obtain ⟨fuel, t, work', loop, scheduled, same, advance, done⟩ := begun.scheduled.loops (fun pid member => by
    obtain ⟨n, script, there, rfl⟩ := scriptOf pid member
    rw [(reads n script there).1]
    exact goesOn script (List.mem_of_getElem? there))
  refine ⟨fuel, t, work', loop, scheduled, fun n script there => ?_, fun before pid i after split => ?_⟩
  · obtain ⟨text, zero⟩ := reads n script there
    have member : k.pidCounter + n ∈ started.allPcb := by
      rw [allPcb, List.mem_range'_1]
      have inside := (List.getElem?_eq_some_iff.mp there).1
      omega
    have lines := advance.lines (k.pidCounter + n)
    rw [List.drop_eq_nil_of_le (done _ member), List.append_nil, zero, List.drop_zero, text] at lines
    exact lines
  · obtain ⟨member, bound⟩ := advance.victims before pid i after split
    obtain ⟨n, script, there, rfl⟩ := scriptOf pid member
    obtain ⟨text, zero⟩ := reads n script there
    rw [text, zero, Nat.zero_add] at bound
    exact ⟨n, script, there, rfl, bound⟩

end executing

end KernelState

open KernelState

/-- `run_proc_RR` behind `exec` (or `run`), in a shell in which nothing else runs: it comes to its end with every frame
free; each process has executed the lines of its script, each once and in their order; and a page that was chosen as a
victim had no line left. -/
theorem roundRobin_exact {sizes : StoreSizes} {parseInput : Text → ShellMemory → Int × ShellMemory}
    {k started : KernelState} {scripts : List Text} (noQueue : k.queue = []) (noCache : k.lruCache = []) (nobody : k.allPcb = [])
    (empty : ∀ pos < sizes.frameStoreSize, (k.memory pos).var = noneText)
    (matched : ∀ script ∈ scripts, countLines script = (scriptReads script).length)
    (goesOn : ∀ script ∈ scripts, GoesOn sizes parseInput (scriptReads script))
    (starts : newProcs sizes (scripts.map some) k = some started) :
    ∃ fuel t, started.runProcRR sizes parseInput fuel = some t ∧
      (∀ pos < sizes.frameStoreSize, (t.memory pos).var = noneText) ∧
      (∀ n script, scripts[n]? = some script →
        executed (k.pidCounter + n) (started.queueEvents sizes parseInput fuel) = scriptReads script) ∧
      ∀ before pid i after, started.queueEvents sizes parseInput fuel = before ++ .evicts pid i :: after →
        ∃ n script, scripts[n]? = some script ∧ pid = k.pidCounter + n ∧
          min (3 * (i + 1)) (scriptReads script).length ≤ (executed pid before).length := by
  obtain ⟨fuel, t, work, loop, scheduled, lines, victims⟩ :=
    newProcs_executes noQueue noCache nobody empty matched goesOn starts
  refine ⟨fuel, t.freeAll, ?_, fun pos inside => scheduled.freed inside, lines, victims⟩
  rw [runProcRR, loop]
  rfl

def twoFrames : KernelState where
  memory := memInit ⟨6, 2⟩ fun _ => ⟨[], []⟩
  pcb pid := ⟨pid, 0, fun _ => 0, [], []⟩
  queue := []
  lruCache := []
  allPcb := []
  pidCounter := 1

/-- A script of seven lines, whose third page takes the frame of the first. -/
def sevenLines : Text := "a\nb\nc\nd\ne\nf\ng".toList

theorem roundRobin_exact_seven : ∃ started fuel t, newProcs ⟨6, 2⟩ [some sevenLines] twoFrames = some started ∧
    started.runProcRR ⟨6, 2⟩ (fun _ m => (0, m)) fuel = some t ∧
    executed 1 (started.queueEvents ⟨6, 2⟩ (fun _ m => (0, m)) fuel) = scriptReads sevenLines := by
  have starts : ∃ started, newProcs ⟨6, 2⟩ ([sevenLines].map some) twoFrames = some started := ⟨_, rfl⟩
  obtain ⟨started, starts⟩ := starts
  have goesOn : ∀ script ∈ [sevenLines], GoesOn ⟨6, 2⟩ (fun _ m => (0, m)) (scriptReads script) :=
    fun _ _ _ _ _ => ⟨show (0 : Int) ≠ 1 by decide, fun _ _ => rfl⟩
  obtain ⟨fuel, t, run, -, lines, -⟩ := roundRobin_exact rfl rfl rfl (by decide) (by decide) goesOn starts
  exact ⟨started, fuel, t, starts, run, lines 0 sevenLines rfl⟩

end ShellOs.Kernel
