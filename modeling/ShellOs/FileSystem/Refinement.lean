import ShellOs.FileSystem.FileCommands
import ShellOs.FileSystem.Accounting
import ShellOs.FileSystem.Search
import ShellOs.Lib.Trace

/-! The shell does what its users may expect: in every run its commands answer and change the files as on a desk. -/

namespace ShellOs.FileSystem
open Lib SlotMap GrowArray

section creating

variable {s t : FlatFs} {name : CString}

theorem offsetOf_offsetOf (x : Int) : offsetOf (offsetOf x) = offsetOf x := by
  obtain ⟨low, high⟩ := offsetOf_range x
  exact offsetOf_eq low high

theorem Ready.creates (ready : Ready s) (flat : Flat name) (size : Int) :
    ∃ t, Ready t ∧ t.usedFreed = s.usedFreed ∧ (Spares s (createMissing s name (offsetOf size)) → Steady s t) ∧
      (fsutilCreate s name size = (true, t) ∧ desk s name = none ∧ 0 ≤ offsetOf size ∧
        desk t = Function.update (desk s) name (some ⟨List.replicate (offsetOf size).toNat 0, none⟩) ∨
      fsutilCreate s name size = (false, t) ∧ desk t = desk s) := by
  by_cases long : name.length = 0 ∨ 255 ≤ name.length
  · exact ⟨s, ready, rfl, fun _ => .refl s, Or.inr ⟨by rw [fsutilCreate, if_pos long], rfl⟩⟩
  · have run : fsutilCreate s name size = filesysCreate s name (offsetOf size) false := by
      rw [fsutilCreate, if_neg long]
    obtain ⟨n, vol⟩ := ready.ok.volume
    obtain ⟨new, creation⟩ := filesysCreate_effect vol.mounted name (offsetOf size)
    rw [flat.split] at creation
    obtain ⟨⟨m, volume⟩, others, made, failed⟩ := vol.creates creation flat.proper
    obtain ⟨ok, table⟩ := ready.ok.created flat.proper flat.plain.2.1 flat.plain.2.2 (offsetOf size)
    have next : Ready (filesysCreate s name (offsetOf size) false).2 := by
      refine ⟨ok, ?_⟩
      rw [table]
      exact ready.places
    have steady := fsutilCreate_steady vol name size
    rw [flat.split, run] at steady
    refine ⟨_, next, creation.freed, steady, ?_⟩
    rw [run]
    cases went : (filesysCreate s name (offsetOf size) false).1 with
    | true =>
      left
      obtain ⟨x, file⟩ := made went
      have length := file.file.length
      rw [file.length, offsetOf_offsetOf] at length
      have blank := file.blank
      rw [offsetOf_offsetOf] at blank
      have found := find_added (put_perm (rootSlots s) (name, x)) vol.names file.absent
      rw [← file.slots] at found
      have bound : some (name, x) ∈ rootSlots (filesysCreate s name (offsetOf size) false).2 := by
        rw [file.slots]
        exact List.mem_of_getElem? (put_freeSlot _ _)
      refine ⟨Prod.ext went rfl, desk_eq_none.mpr file.absent, by omega, ?_⟩
      funext other
      by_cases here : other = name
      · have unopened : getFileByFname (filesysCreate s name (offsetOf size) false).2 name = none := by
          apply getFileByFname_none.mpr
          intro entry member same
          rw [table] at member
          exact file.absent (same ▸ ready.ok.listed entry member)
        rw [here, Function.update_self, desk_bound volume bound, blank, unopened]
        rfl
      · rw [Function.update_of_ne here]
        apply desk_same
        · rw [found, if_neg here]
        · exact fun y theirs => (others y (mem_rootFiles.mpr ⟨_, theirs⟩)).2.1
        · rw [getFileByFname, getFileByFname, table]
    | false =>
      right
      exact ⟨Prod.ext went rfl, desk_congr (failed went) (fun y listed => (others y listed).2.1) table⟩

theorem Ready.create (ready : Ready s) (flat : Flat name) (size : Int) : Refines s (.create name size) := by
  obtain ⟨t, next, freed, steady, ⟨run, absent, proper, view⟩ | ⟨run, view⟩⟩ := ready.creates flat size
  · exact .of_run (congrArg (fun r => (Reply.done r.1, r.2)) run) view (.created absent proper) next freed steady
  · exact .of_run (congrArg (fun r => (Reply.done r.1, r.2)) run) view .notCreated next freed steady

theorem overwrite_blank {size : Nat} {data : List Byte} (short : size ≤ data.length) :
    overwrite 0 (List.replicate size 0) 0 data = data := by
  rw [overwrite_tail _ (Nat.zero_le _) (by rw [List.length_replicate]; omega), List.take_zero, List.nil_append]

theorem Ready.copyIn (ready : Ready s) (flat : Flat name) {host : Option (List Byte)}
    (small : ∀ bytes, host = some bytes → bytes.length + 1 < 2 ^ 31) : Refines s (.copyIn name host) := by
  cases host with
  | none => exact .of_run rfl rfl .noHostFile ready rfl fun _ => .refl s
  | some bytes =>
    have small := small bytes rfl
    have command := copyIn_some s name bytes
    obtain ⟨t, next, freed, steady, ⟨run, absent, proper, view⟩ | ⟨run, view⟩⟩ := ready.creates flat (importSize s bytes)
    · have least := importSize_le s bytes
      rw [importSize_offset s small] at view proper
      obtain ⟨m, size⟩ := Int.eq_ofNat_of_zero_le proper
      rw [size] at least
      rw [size, Int.toNat_natCast] at view
      have count : offsetOf ((bytes.length : Int) + 1) = ((bytes.length + 1 : Nat) : Int) :=
        offsetOf_eq (by omega) (by omega)
      have new : desk t name = some ⟨List.replicate m 0, none⟩ := by rw [view, Function.update_self]
      rcases next.opens flat with ⟨u, -, missing, -, -⟩ | ⟨u, f, d, opened, found⟩
      · rw [new] at missing
        cases missing
      · obtain rfl := Option.some.inj (new.symm.trans found.here)
        have writes := @Found.writes _ _ _ _ _ found le_rfl (bytes.length + 1) (by omega) small fun i => bytes.getD i 0
        rw [Nat.add_sub_cancel, bufferBytes_last, bufferBytes_take bytes le_rfl, List.take_length] at writes
        have written : fsutilWrite t name (fun i => bytes.getD i 0) ((bytes.length : Int) + 1) =
            let w := fileWrite u f (fun i => bytes.getD i 0) (bytes.length + 1 : Nat)
            (w.1, setFile w.2.2 name w.2.1) := by
          simp only [fsutilWrite, opened, count]
        obtain ⟨last, outcome, still, kept⟩ := writes
        rw [List.length_append, List.length_singleton] at outcome still
        have whole : ShellOp.Spares s (.copyIn name (some bytes)) → Steady s _ := fun spares => by
          obtain ⟨first, second⟩ := spares bytes rfl
          have own := second f (by rw [run]; exact found.aim)
          have start : f.pos.toNat = 0 := by
            rw [← found.start]
            rfl
          rw [run, ← Nat.zero_add (bytes.length + 1), ← start] at own
          exact (steady first).trans (still own)
        have went : ∀ {r : Int × FlatFs}, fsutilWrite t name (fun i => bytes.getD i 0) ((bytes.length : Int) + 1) = r →
            r.1 ≠ -1 → ShellOp.run s (.copyIn name (some bytes)) = (.status 0, r.2) := by
          rintro r rfl well
          rw [ShellOp.run, ShellOp.reply, ShellOp.step, command]
          simp only [run, Bool.true_eq_false, if_false, if_neg well]
        have twice : ∀ command : Document → Document, (desk t).work name command =
            Function.update (desk s) name (some (command ⟨List.replicate m 0, none⟩)) := by
          intro command
          rw [Desk.work_here new, view, Function.update_idem]
        rcases outcome with ⟨all, done⟩ | ⟨none, beyond, done⟩
        · refine .of_run (went written (ne_of_eq_of_ne all (by omega))) (done.trans (twice _)) ?_ last (kept.trans freed) whole
          have place : (0 : Int) + (((bytes.length + 1 : Nat) : Int) - 2) = (bytes.length : Int) - 1 := by omega
          have step := @Desk.Step.copied (desk s) name bytes absent
          simp only [Document.start, Option.getD_none, place, Int.toNat_zero]
          rw [overwrite_blank (by rw [List.length_append, List.length_singleton]; omega)]
          exact step
        · refine .of_run (went written (ne_of_eq_of_ne none (by decide))) (done.trans (twice _)) ?_ last (kept.trans freed) whole
          simp only [List.length_replicate, Document.start, Option.getD_none] at beyond
          exact .notFilled absent (by omega)
    · have refused : ShellOp.run s (.copyIn name (some bytes)) = (.status 9, t) := by
        rw [ShellOp.run, ShellOp.reply, ShellOp.step, command]
        simp only [run, if_true]
      exact .of_run refused view .notCopied next freed fun spares => steady (spares bytes rfl).1

end creating

section directory

variable {s t : FlatFs} {name : CString}

theorem Ready.ls (ready : Ready s) : Refines s .ls := by
  obtain ⟨n, vol⟩ := ready.ok.volume
  have turn : Peeks s n (fun names t name => (names ++ [name], t)) (fun names b => names ++ [b.1]) false := by
    intro u names name x seen peeked bound fresh
    exact ⟨u, rfl, (RootClosed.refl peeked.volume.mounted.handle).peeked peeked.volume rfl, rfl, id⟩
  obtain ⟨listed, peeked, shut⟩ := forRootNames_peeked vol turn ready.ok.shut.before (Nat.zero_le _) []
  have all : ∀ (files : List (CString × BlockSector)) (names : List CString),
      files.foldl (fun names b => names ++ [b.1]) names = names ++ files.map Prod.fst := by
    intro files
    induction files with
    | nil => exact fun names => (List.append_nil names).symm
    | cons b rest ih =>
      intro names
      rw [List.foldl_cons, ih, List.map_cons, List.append_assoc, List.singleton_append]
  rw [List.drop_zero, all, List.nil_append] at listed
  obtain ⟨next, view⟩ := ready.looked (peeked.rootClosed fun z member => by cases member) (shut ready.ok.shut)
  have step := @Desk.Step.ls (desk s) _ vol.names fun name => desk_isSome.symm
  exact .of_run (congrArg (fun names => (Reply.names (some names), (fsutilLs s).2)) listed) view step next peeked.freed
    fun _ => peeked.rehandled.steady vol

theorem Ready.findFile (ready : Ready s) (pattern : CString) : Refines s (.findFile pattern) := by
  have ok := ready.ok
  obtain ⟨n, vol⟩ := ok.volume
  obtain ⟨found, visited, shut⟩ := findFile_visited vol ok.table ok.named ok.shut.before (Nat.zero_le _) pattern
  rw [List.drop_zero] at visited found
  rw [printed_eq, List.nil_append] at found
  have empty : (FileSystem.findFile s pattern).2.fileTable = [] := by
    rw [visited.fileTable, without, List.filter_eq_nil_iff]
    intro entry member outside
    exact of_decide_eq_true outside (ok.listed entry member)
  have next : Ready (FileSystem.findFile s pattern).2 := by
    refine ⟨.of_files visited.volume (shut ok.shut) ?_ ?_ ?_, ?_⟩
    · rw [visited.slots]
      exact ok.named
    · rw [empty]
      exact List.nodup_nil
    · rw [empty]
      exact fun entry member => by cases member
    · rw [empty]
      exact fun entry member => by cases member
  have view : desk (FileSystem.findFile s pattern).2 = fun name => (desk s name).map Document.closed := by
    funext name
    rw [desk, desk, visited.slots, Option.map_map]
    apply Option.map_congr
    intro x bound
    have same := visited.others x (mem_rootFiles.mpr ⟨name, mem_bindings.mp (find_mem bound)⟩)
    rw [getFileByFname, empty, same.2.1]
    rfl
  refine .of_run (congrArg (fun names => (Reply.names names, (FileSystem.findFile s pattern).2)) found) view ?_ next visited.freed
    fun _ => findFile_steady vol ok.table ok.named ok.shut pattern
  apply Desk.Step.findFile
  · exact vol.names.sublist (List.filter_sublist.map _)
  · intro name
    rw [List.mem_map]
    constructor
    · rintro ⟨b, member, rfl⟩
      obtain ⟨bound, holds⟩ := List.mem_filter.mp member
      exact ⟨_, desk_bound vol (mem_bindings.mp bound), of_decide_eq_true holds⟩
    · rintro ⟨f, here, holds⟩
      obtain ⟨x, bound, rfl⟩ := Option.map_eq_some_iff.mp here
      exact ⟨(name, x), List.mem_filter.mpr ⟨find_mem bound, decide_eq_true holds⟩, rfl⟩

theorem Ready.backedUp (ready : Ready s) {n : Nat} {gone : List (CString × BlockSector)} (all : BackedUp s t n gone)
    (shut : Shut t) : Ready t := by
  have ok := ready.ok
  have sub : ∀ b ∈ bindings (rootSlots t), b ∈ bindings (rootSlots s) := fun b member =>
    all.slots.symm.subset (List.mem_append_right _ member)
  have named : ∀ name ∈ keys (rootSlots t), FileName name := by
    intro name present
    obtain ⟨b, member, rfl⟩ := List.mem_map.mp present
    exact ok.named _ (List.mem_map_of_mem (sub b member))
  have listed : ∀ entry ∈ t.fileTable, entry.fname ∈ keys (rootSlots t) := by
    intro entry member
    rw [all.fileTable, mem_without] at member
    have present := ok.listed entry member.1
    have perm := all.slots.map Prod.fst
    rw [List.map_append] at perm
    exact (List.mem_append.mp (perm.subset present)).resolve_left member.2
  refine ⟨⟨⟨n, all.volume⟩, shut, named, all.ok, listed⟩, fun entry member => ?_⟩
  rw [all.fileTable, mem_without] at member
  exact ready.places entry member.1

theorem Ready.rm (ready : Ready s) (flat : Flat name) : Refines s (.rm name) := by
  have ok := ready.ok
  obtain ⟨n, vol⟩ := ok.volume
  have step := @Desk.Step.rm (desk s) name
  cases present : desk s name with
  | none =>
    have missing := desk_eq_none.mp present
    have absent : getFileByFname s name = none := by
      apply getFileByFname_none.mpr
      intro entry member here
      exact missing (here ▸ ok.listed entry member)
    obtain ⟨only, shut, freed⟩ := filesysRemove_nothing vol ok.shut.quiet flat missing
    have dots : OnlyDots (splitPathFilename name).1 := by
      rw [flat.split]
      exact fun token member => by cases member
    have refused := (filesysRemove_absent vol.mounted dots (by rw [flat.split]; exact missing)).1
    have result : fsutilRm s name = (false, (filesysRemove s name).2) := by
      simp only [fsutilRm, removeFromFileTable, absent]
      exact Prod.ext refused rfl
    obtain ⟨next, same⟩ := ready.looked only shut
    have untouched : Function.update (desk s) name none = desk s := by rw [← present, Function.update_eq_self]
    rw [present, untouched] at step
    exact .of_run (congrArg (fun r => (Reply.done r.1, r.2)) result) same step next freed
      fun _ => only.rehandled.steady vol
  | some d =>
    obtain ⟨x, found, rfl⟩ := Option.map_eq_some_iff.mp present
    have bound := mem_bindings.mp (find_mem found)
    obtain ⟨j, slot⟩ := List.mem_iff_getElem?.mp bound
    have out : ReadOut s (removeFromFileTable s name).2 n name x := by
      cases held : getFileByFname s name with
      | none =>
        simp only [removeFromFileTable, held]
        exact ⟨vol, Rehandled.refl s, rfl, fun y mine => ⟨mine, rfl, rfl⟩, fun _ _ => rfl, rfl, (without_absent held).symm⟩
      | some f =>
        rw [vol.bound bound (ok.file held).1]
        exact ok.readOut vol held
    obtain ⟨all, shut, -, freed⟩ := out.removed vol ok.table ok.shut.quiet (ok.named name (mem_keys.mpr ⟨x, bound⟩)) slot
    have dots : OnlyDots (splitPathFilename name).1 := by
      rw [flat.split]
      exact fun token member => by cases member
    obtain ⟨-, -, -, went, -⟩ := filesysRemove_effect out.volume.mounted dots
      (by rw [flat.split, out.slots]; exact mem_keys.mpr ⟨x, bound⟩)
      fun y member => out.volume.removable (mem_rootFiles.mpr ⟨_, member⟩)
    have result : fsutilRm s name = (true, (filesysRemove (removeFromFileTable s name).2 name).2) := Prod.ext went rfl
    have left := find_removed all.slots vol.names
    have steady : Steady s (filesysRemove (removeFromFileTable s name).2 name).2 := by
      rw [← out.slots] at slot
      have unlinked := out.volume.unlinks (ok.named name (mem_keys.mpr ⟨x, bound⟩)) slot
      exact (out.rehandled.steady vol).trans
        (unlinked.steady out.volume (mem_rootFiles.mpr ⟨name, List.mem_of_getElem? slot⟩))
    rw [present] at step
    refine .of_run (congrArg (fun r => (Reply.done r.1, r.2)) result) ?_ step (ready.backedUp all shut)
      (freed.trans (ok.removeFromFileTable_freed name)) fun _ => steady
    funext other
    by_cases here : other = name
    · rw [here, Function.update_self, desk, left, if_pos rfl, Option.map_none]
    · rw [Function.update_of_ne here]
      apply desk_same
      · rw [left, if_neg here]
      · intro y theirs
        have still : (other, y) ∈ bindings (rootSlots (filesysRemove (removeFromFileTable s name).2 name).2) :=
          ((List.mem_cons.mp (all.slots.subset (mem_bindings.mpr theirs))).resolve_left fun same =>
            here (congrArg Prod.fst same))
        exact (all.kept _ still).2.1
      · rw [getFileByFname, all.fileTable, getFileByFname_without, if_neg (by simpa using here)]

end directory

/-- The names are those of files in the root directory, the sizes fit an `int`, and nothing is read or written before the
start of a file. To recover and to examine sectors is not for users of a desk, and neither is to make all files again, for
which the code goes through a directory whose inode it has freed. -/
def ShellOp.Proper (s : FlatFs) : ShellOp → Prop
  | ls | findFile _ | freespace => True
  | cat name | rm name | create name _ | size name | copyOut name _ => Flat name
  | write name words => Flat name ∧ (joined words).length + 2 < 2 ^ 31 ∧ ∀ f, getFileByFname s name = some f → 0 ≤ f.pos
  | read name _ => Flat name ∧ ∀ f, getFileByFname s name = some f → 0 ≤ f.pos
  | copyIn name host => Flat name ∧ ∀ bytes, host = some bytes → bytes.length + 1 < 2 ^ 31
  | seek name offset => Flat name ∧ offset < 2 ^ 31
  | fragmentationDegree _ | defragment _ | recover _ => False

theorem desk_inside {s : FlatFs} {name : CString} (inside : ∀ f, getFileByFname s name = some f → 0 ≤ f.pos) :
    ∀ d, desk s name = some d → 0 ≤ d.start := by
  intro d here
  rw [Document.start, desk_place here]
  cases found : getFileByFname s name with
  | none => exact le_rfl
  | some f => exact inside f found

theorem Ready.refines {s : FlatFs} (ready : Ready s) {op : ShellOp} (proper : op.Proper s) : Refines s op := by
  cases op with
  | ls => exact ready.ls
  | cat name => exact ready.cat proper
  | rm name => exact ready.rm proper
  | create name bytes => exact ready.create proper bytes
  | write name words => exact ready.write proper.1 (desk_inside proper.2.2) proper.2.1
  | findFile pattern => exact ready.findFile pattern
  | read name bytes => exact ready.read proper.1 (desk_inside proper.2) bytes
  | copyIn name host => exact ready.copyIn proper.1 proper.2
  | copyOut name creates => exact ready.copyOut proper creates
  | size name => exact ready.size proper
  | seek name offset => exact ready.seek proper.1 proper.2
  | freespace => exact .of_run rfl rfl .freespace ready rfl fun _ => .refl s
  | fragmentationDegree fileName => exact proper.elim
  | defragment stale => exact proper.elim
  | recover flag => exact proper.elim

end ShellOs.FileSystem
