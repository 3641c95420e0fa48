import ShellOs.Paging.RoundRobin

/-! The sessions that the commands of the shell lead to, and what of them round robin relies on. -/

namespace ShellOs.Paging
open Lib
open Kernel (Text)

/-- Sessions that are reached when scripts are started and round robin is run, with any changes to the files. -/
inductive Reached (shellFrames : Nat) (system : Text → Files → Int × Files) : Session → Prop
  | begin (frames : Nat → FrameStruct) (files : Files) :
      Reached shellFrames system (beginSession shellFrames frames files)
  | edit {s : Session} (files : Files) (before : Reached shellFrames system s) :
      Reached shellFrames system { s with files := files }
  | start {s t : Session} {name : Text} {id : Nat} {errorCode : Int} (before : Reached shellFrames system s)
      (copies : CopiesScripts system [name])
      (result : processInitialize shellFrames system name id s = some (errorCode, t)) : Reached shellFrames system t
  | schedule {s : Session} {σ : Type} {parseInput : Text → σ → σ} {shell : σ} {quanta fuel : Nat} {after : KernelState σ}
      (before : Reached shellFrames system s)
      (result : schedulerRR shellFrames parseInput quanta fuel ⟨s.store, s.queue, shell, []⟩ = some after) :
      Reached shellFrames system { s with store := after.store, queue := after.queue }

/-- The processes have been started and wait for their first turn. -/
structure Startable (shellFrames : Nat) (s : Session) : Prop where
  stamped : ∃ uses, StampedBy shellFrames s.store uses
  waiting : ∀ pcb ∈ s.queue, pcb.pc = 0 ∧ pcb.pid < s.pidCounter
  apart : (s.queue.map PCB.pid).Nodup
  backed : ∀ pcb ∈ s.queue, ∃ i < shellFrames, ∀ j < 3, j < pcb.numberOfCommands → (s.store.shellframes i).lines j ≠ none

section store

variable {shellFrames frame id i : Nat} {s t : FrameStore} {pcb next : PCB} {uses l : List Nat} {fp left : Text} {pid : Int}

theorem findVictim_mem {victim : Option Nat} {lowestLru : Int} (found : s.findVictim l victim lowestLru = some i) :
    i ∈ l ∨ victim = some i := by
  induction l generalizing victim lowestLru with
  | nil => exact .inr found
  | cons k rest ih =>
    rw [FrameStore.findVictim] at found
    split at found
    · rcases ih found with later | here
      · exact .inl (List.mem_cons_of_mem k later)
      · exact .inl (List.mem_cons.mpr (.inl (Option.some_inj.mp here).symm))
    · exact (ih found).imp_left (List.mem_cons_of_mem k)

theorem loadFrame_result (result : s.loadFrame shellFrames fp pid = some (frame, t, left)) :
    frame < shellFrames ∧ t = s.loadInto frame fp pid := by
  rw [FrameStore.loadFrame] at result
  split at result
  next i empty =>
    obtain ⟨rfl, same⟩ := Prod.mk.inj (Option.some_inj.mp result)
    exact ⟨List.mem_range.mp (List.mem_of_find?_eq_some empty), (Prod.mk.inj same).1.symm⟩
  next =>
    obtain ⟨i, found, whole⟩ := Option.bind_eq_some_iff.mp result
    obtain ⟨rfl, same⟩ := Prod.mk.inj (Option.some_inj.mp whole)
    refine ⟨?_, (Prod.mk.inj same).1.symm⟩
    rcases findVictim_mem found with member | absurd'
    · exact List.mem_range.mp member
    · cases absurd'

theorem loadFrame_stamped (stamped : StampedBy shellFrames s uses)
    (result : s.loadFrame shellFrames fp pid = some (frame, t, left)) :
    StampedBy shellFrames t (frame :: uses) ∧ Fills s t := by
  obtain ⟨inside, rfl⟩ := loadFrame_result result
  exact ⟨stamped.use inside rfl, loadInto_fills s frame fp pid⟩

theorem pageFault_stamped (stamped : StampedBy shellFrames s uses) (result : pageFault shellFrames pcb s = some (next, t)) :
    ∃ uses', StampedBy shellFrames t uses' := by
  obtain ⟨⟨frame, u, left⟩, loads, same⟩ := Option.bind_eq_some_iff.mp result
  obtain ⟨-, rfl⟩ := Prod.mk.inj (Option.some_inj.mp same)
  exact ⟨_, (loadFrame_stamped stamped loads).1⟩

theorem loadPages_stamped {pages : List Nat} (stamped : StampedBy shellFrames s uses)
    (result : loadPages shellFrames id pages pcb s = some (next, t)) :
    (∃ uses', StampedBy shellFrames t uses') ∧ Fills s t := by
  induction pages generalizing pcb s uses with
  | nil =>
    obtain ⟨-, rfl⟩ := Prod.mk.inj (Option.some_inj.mp result)
    exact ⟨⟨uses, stamped⟩, Fills.refl s⟩
  | cons page rest ih =>
    rw [loadPages] at result
    split at result
    · obtain ⟨⟨frame, u, left⟩, loads, result⟩ := Option.bind_eq_some_iff.mp result
      obtain ⟨stamped', fills⟩ := loadFrame_stamped stamped loads
      obtain ⟨stamped'', fills'⟩ := ih stamped' result
      exact ⟨stamped'', fills.trans fills'⟩
    · obtain ⟨-, rfl⟩ := Prod.mk.inj (Option.some_inj.mp result)
      exact ⟨⟨uses, stamped⟩, Fills.refl s⟩

theorem loadPages_backed {script : Text} {pages : List Nat} (some' : 0 < shellFrames) (stamped : StampedBy shellFrames s uses)
    (result : loadPages shellFrames id (0 :: pages) (makePCB script (commands script).length pid) s = some (next, t)) :
    ∃ i < shellFrames, ∀ j < 3, j < (commands script).length → (t.shellframes i).lines j ≠ none := by
  by_cases none' : (commands script).length = 0
  · exact ⟨0, some', fun j _ more => absurd more (by omega)⟩
  · have more : 0 * 3 < (makePCB script (commands script).length pid).numberOfCommands := Nat.pos_of_ne_zero none'
    rw [loadPages, if_pos more] at result
    obtain ⟨⟨frame, u, left⟩, loads, result⟩ := Option.bind_eq_some_iff.mp result
    obtain ⟨stamped', -⟩ := loadFrame_stamped stamped loads
    obtain ⟨inside, rfl⟩ := loadFrame_result loads
    have holds := loadInto_holds s frame script id
    have fills := (loadPages_stamped stamped' result).2
    refine ⟨frame, inside, fun j low more => (fills frame).2 j ?_⟩
    rw [show (makePCB script (commands script).length pid).fp.left = script from rfl,
      holds.lines j low _ (List.getElem?_eq_getElem more)]
    exact Option.some_ne_none _

end store

section run

variable {σ : Type} {shellFrames quanta fuel : Nat} {parseInput : Text → σ → σ} {k after : KernelState σ} {pcb : PCB}
  {left : Option PCB} {uses : List Nat}

theorem runQuanta_stamped (stamped : StampedBy shellFrames k.store uses)
    (result : runQuanta shellFrames parseInput quanta pcb k = some (left, after)) :
    ∃ uses', StampedBy shellFrames after.store uses' := by
  induction quanta generalizing pcb k uses with
  | zero =>
    obtain ⟨-, rfl⟩ := Prod.mk.inj (Option.some_inj.mp result)
    exact ⟨uses, stamped⟩
  | succ quanta ih =>
    have first := currentLine_stamped pcb stamped
    rw [runQuanta] at result
    split at result
    next store found =>
      rw [found] at first
      obtain ⟨⟨next, t⟩, faulted, same⟩ := Option.bind_eq_some_iff.mp result
      obtain ⟨-, rfl⟩ := Prod.mk.inj (Option.some_inj.mp same)
      exact pageFault_stamped first faulted
    next line store found =>
      rw [found] at first
      have second := currentLine_stamped pcb first
      obtain ⟨line', read, result⟩ := Option.bind_eq_some_iff.mp result
      simp only at result
      split at result
      · obtain ⟨-, rfl⟩ := Prod.mk.inj (Option.some_inj.mp result)
        exact ⟨_, second⟩
      · exact ih second result

theorem schedulerRR_stamped (stamped : StampedBy shellFrames k.store uses)
    (result : schedulerRR shellFrames parseInput quanta fuel k = some after) :
    (∃ uses', StampedBy shellFrames after.store uses') ∧ after.queue = [] := by
  rw [schedulerRR] at result
  induction fuel generalizing k uses with
  | zero => cases result
  | succ fuel ih =>
    rw [schedulerLoop] at result
    split at result
    next none' =>
      obtain rfl := Option.some_inj.mp result
      cases queue : k.queue with
      | nil => exact ⟨⟨uses, stamped⟩, rfl⟩
      | cons cur rest =>
        rw [queue] at none'
        cases none'
    next cur rest taken =>
      obtain ⟨⟨left, turned⟩, executed, result⟩ := Option.bind_eq_some_iff.mp result
      have next : ∃ uses', StampedBy shellFrames turned.store uses' := by
        rw [executeProcess] at executed
        split at executed
        · obtain ⟨-, rfl⟩ := Prod.mk.inj (Option.some_inj.mp executed)
          exact ⟨uses, stamped⟩
        · exact runQuanta_stamped (k := { k with queue := rest }) stamped executed
      obtain ⟨uses', stamped'⟩ := next
      refine @ih _ uses' ?_ result
      exact stamped'

end run

section reached

variable {shellFrames id : Nat} {system : Text → Files → Int × Files} {s t : Session} {name : Text} {errorCode : Int}

theorem Startable.start (some' : 0 < shellFrames) (startable : Startable shellFrames s) (copies : CopiesScripts system [name])
    (result : processInitialize shellFrames system name id s = some (0, t)) : Startable shellFrames t := by
  obtain ⟨script, pcb, store, files, loads, rfl⟩ := processInitialize_loads copies result
  obtain ⟨uses, stamped⟩ := startable.stamped
  obtain ⟨stamped', fills⟩ := loadPages_stamped stamped loads
  obtain ⟨job, pc⟩ := loadPages_job loads
  have pid : pcb.pid = s.pidCounter := congrArg Job.pid job
  have number : pcb.numberOfCommands = (commands script).length := congrArg Job.numberOfCommands job
  refine ⟨stamped', fun other member => ?_, ?_, fun other member => ?_⟩
  · rcases List.mem_append.mp member with earlier | here
    · obtain ⟨pc, before⟩ := startable.waiting other earlier
      exact ⟨pc, by simp only; omega⟩
    · obtain rfl := List.mem_singleton.mp here
      exact ⟨pc, by simp only; omega⟩
  · exact pids_append startable.apart fun other earlier => pid ▸ (startable.waiting other earlier).2
  · rcases List.mem_append.mp member with earlier | here
    · obtain ⟨i, inside, lines⟩ := startable.backed other earlier
      exact ⟨i, inside, fun j low more => (fills i).2 j (lines j low more)⟩
    · obtain rfl := List.mem_singleton.mp here
      rw [number]
      exact loadPages_backed some' stamped loads

theorem Reached.startable (some' : 0 < shellFrames) (reached : Reached shellFrames system s) : Startable shellFrames s := by
  induction reached with
  | begin frames files =>
    exact ⟨⟨[], framesInit_stamped shellFrames frames⟩, fun pcb member => absurd member List.not_mem_nil, List.nodup_nil,
      fun pcb member => absurd member List.not_mem_nil⟩
  | edit files before ih => exact ⟨ih.stamped, ih.waiting, ih.apart, ih.backed⟩
  | @start s t name id errorCode before copies result ih =>
    rcases processInitialize_cases result with ⟨-, files, rfl⟩ | ⟨rfl, -⟩
    · exact ⟨ih.stamped, ih.waiting, ih.apart, ih.backed⟩
    · exact ih.start some' copies result
  | schedule before result ih =>
    obtain ⟨uses, stamped⟩ := ih.stamped
    obtain ⟨stamped', empty⟩ := schedulerRR_stamped stamped result
    refine ⟨stamped', fun pcb member => ?_, ?_, fun pcb member => ?_⟩
    · exact absurd (empty ▸ member) List.not_mem_nil
    · rw [empty]
      exact List.nodup_nil
    · exact absurd (empty ▸ member) List.not_mem_nil

theorem backed_all {queue : List PCB} {store : FrameStore} (some' : 0 < shellFrames)
    (backed : ∀ pcb ∈ queue, ∃ i < shellFrames, ∀ j < 3, j < pcb.numberOfCommands → (store.shellframes i).lines j ≠ none) :
    ∃ i < shellFrames, ∃ length, (∀ pcb ∈ queue, pcb.numberOfCommands ≤ length) ∧
      ∀ j < 3, j < length → (store.shellframes i).lines j ≠ none := by
  induction queue with
  | nil => exact ⟨0, some', 0, fun pcb member => absurd member List.not_mem_nil, fun j _ more => absurd more (Nat.not_lt_zero j)⟩
  | cons cur rest ih =>
    obtain ⟨i, inside, length, longest, lines⟩ := ih fun pcb member => backed pcb (List.mem_cons_of_mem cur member)
    by_cases longer : cur.numberOfCommands ≤ length
    · refine ⟨i, inside, length, fun pcb member => ?_, lines⟩
      rcases List.mem_cons.mp member with rfl | later
      · exact longer
      · exact longest pcb later
    · obtain ⟨i', inside', lines'⟩ := backed cur List.mem_cons_self
      refine ⟨i', inside', cur.numberOfCommands, fun pcb member => ?_, lines'⟩
      rcases List.mem_cons.mp member with rfl | later
      · exact Nat.le_refl _
      · exact Nat.le_trans (longest pcb later) (Nat.le_of_not_le longer)

theorem Startable.runs {σ : Type} (startable : Startable shellFrames s) (some' : 0 < shellFrames)
    (enough : s.queue.length ≤ shellFrames) (short : ∀ pcb ∈ s.queue, pcb.numberOfCommands ≤ 300) (shell : σ) :
    ∃ good uses, Runs shellFrames good ⟨s.store, s.queue, shell, []⟩ uses := by
  obtain ⟨uses, stamped⟩ := startable.stamped
  obtain ⟨good, inside, length, longest, lines⟩ := backed_all some' startable.backed
  refine ⟨good, uses, stamped, fun pcb member => ?_, startable.apart, enough, inside, fun pcb member j low more => ?_⟩
  · rw [(startable.waiting pcb member).1]
    exact ⟨Nat.zero_le _, short pcb member⟩
  · have bound := longest pcb member
    exact lines j low (by omega)

end reached

end ShellOs.Paging
