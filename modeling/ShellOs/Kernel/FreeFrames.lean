import ShellOs.Kernel.Process
import Mathlib.Data.Fintype.Basic
import Mathlib.Tactic.FinCases

/-! Which slots the end of `run_proc_RR` clears. -/

namespace ShellOs.Kernel

/-- A slot is cleared with a page if it is one of three from any of the page's own slots on. -/
def Page.Clears (page : Page) (pos : Nat) : Prop := ∃ j : Fin 3, page.index j ≤ pos ∧ pos < page.index j + 3

namespace KernelState

theorem freePcb_eq (m : ShellMemory) (pcb : PagedPCB) : freePcb m pcb = (clearedWith pcb).foldl memFreeAt m := by
  rw [clearedWith, List.foldl_flatMap, freePcb]
  congr 1

theorem freePcbs_eq (pcbs : List PagedPCB) (m : ShellMemory) :
    pcbs.foldl freePcb m = (pcbs.flatMap clearedWith).foldl memFreeAt m := by
  rw [List.foldl_flatMap]
  congr 1
  funext m pcb
  exact freePcb_eq m pcb

theorem mem_clearedWith {pcb : PagedPCB} {pos : Nat} :
    pos ∈ clearedWith pcb ↔ ∃ page ∈ pcb.pageTable, page.Clears pos := by
  rw [clearedWith, List.mem_flatMap]
  constructor
  · rintro ⟨page, member, cleared⟩
    obtain ⟨start, one, inside⟩ := List.mem_flatMap.mp cleared
    rw [List.mem_range'_1] at inside
    simp only [List.mem_cons, List.not_mem_nil, or_false] at one
    rcases one with rfl | rfl | rfl
    · exact ⟨page, member, 0, inside⟩
    · exact ⟨page, member, 1, inside⟩
    · exact ⟨page, member, 2, inside⟩
  · rintro ⟨page, member, j, inside⟩
    refine ⟨page, member, List.mem_flatMap.mpr ⟨page.index j, ?_, List.mem_range'_1.mpr inside⟩⟩
    fin_cases j <;> simp

theorem freeAll_at (k : KernelState) (pos : Nat) [Decidable (∃ pid ∈ k.allPcb, ∃ page ∈ (k.pcb pid).pageTable, page.Clears pos)] :
    k.freeAll.memory pos =
      if ∃ pid ∈ k.allPcb, ∃ page ∈ (k.pcb pid).pageTable, page.Clears pos then ⟨noneText, noneText⟩
      else k.memory pos := by
  have members : pos ∈ (k.allPcb.map k.pcb).flatMap clearedWith ↔
      ∃ pid ∈ k.allPcb, ∃ page ∈ (k.pcb pid).pageTable, page.Clears pos := by
    simp only [List.mem_flatMap, List.mem_map, exists_exists_and_eq_and, mem_clearedWith]
  simp only [freeAll, freePcbs_eq, foldl_memFreeAt, members]

end KernelState

end ShellOs.Kernel
