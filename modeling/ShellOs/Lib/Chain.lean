import Mathlib.Logic.Function.Basic
import Mathlib.Data.List.Nodup

/-! Singly linked lists: which cells a chain of pointers goes through. -/

namespace ShellOs.Lib

variable {α : Type} {next : α → Option α} {p q : Option α} {l m : List α} {a b : α}

/-- From the pointer `p`, the links lead through the cells of the list to `q`. -/
def Segment (next : α → Option α) : Option α → List α → Option α → Prop
  | p, [], q => p = q
  | p, a :: rest, q => p = some a ∧ Segment next (next a) rest q

def Chain (next : α → Option α) (p : Option α) (l : List α) : Prop := Segment next p l none

theorem segment_append : Segment next p (l ++ m) q ↔ ∃ r, Segment next p l r ∧ Segment next r m q := by
  induction l generalizing p with
  | nil => simp [Segment]
  | cons a rest ih => simp [Segment, ih, and_assoc]

theorem segment_split : Segment next p (l ++ a :: m) q ↔ Segment next p l (some a) ∧ Segment next (next a) m q := by
  rw [segment_append]
  constructor
  · rintro ⟨r, front, rfl, back⟩
    exact ⟨front, back⟩
  · rintro ⟨front, back⟩
    exact ⟨some a, front, rfl, back⟩

theorem segment_congr {links : α → Option α} (same : ∀ a ∈ l, links a = next a) :
    Segment links p l q ↔ Segment next p l q := by
  induction l generalizing p with
  | nil => rfl
  | cons a rest ih =>
    rw [Segment, Segment, same a List.mem_cons_self, ih fun b member => same b (List.mem_cons_of_mem a member)]

theorem segment_update [DecidableEq α] (outside : a ∉ l) (link : Option α) :
    Segment (Function.update next a link) p l q ↔ Segment next p l q := by
  apply segment_congr
  intro b member
  apply Function.update_of_ne
  rintro rfl
  exact outside member

theorem Segment.link (segment : Segment next p l q) (member : a ∈ l) : next a = q ∨ ∃ b ∈ l.tail, next a = some b := by
  induction l generalizing p with
  | nil => cases member
  | cons c rest ih =>
    obtain ⟨-, behind⟩ := segment
    rcases List.mem_cons.mp member with rfl | later
    · cases rest with
      | nil => exact Or.inl behind
      | cons d rest => exact Or.inr ⟨d, List.mem_cons_self, behind.1⟩
    · rcases ih behind later with fin | ⟨b, here, link⟩
      · exact Or.inl fin
      · exact Or.inr ⟨b, List.mem_of_mem_tail here, link⟩

theorem Chain.unique (first : Chain next p l) (second : Chain next p m) : l = m := by
  induction l generalizing p m with
  | nil =>
    cases m with
    | nil => rfl
    | cons b rest => cases first.symm.trans second.1
  | cons a rest ih =>
    cases m with
    | nil => cases second.symm.trans first.1
    | cons b others =>
      obtain rfl : a = b := Option.some.inj (first.1.symm.trans second.1)
      rw [ih first.2 second.2]

theorem Chain.nodup (chain : Chain next p l) : l.Nodup := by
  induction l generalizing p with
  | nil => exact List.nodup_nil
  | cons a rest ih =>
    refine List.nodup_cons.mpr ⟨fun again => ?_, ih chain.2⟩
    obtain ⟨front, back, rfl⟩ := List.append_of_mem again
    have shorter : Chain next (some a) (a :: back) := ⟨rfl, (segment_split.mp chain.2).2⟩
    have whole : Chain next (some a) (a :: (front ++ a :: back)) := ⟨rfl, chain.2⟩
    have lengths := congrArg List.length (whole.unique shorter)
    simp only [List.length_cons, List.length_append] at lengths
    omega

theorem chain_split : Chain next p (l ++ a :: m) ↔ Segment next p l (some a) ∧ Chain next (next a) m := segment_split

theorem Chain.at (chain : Chain next p (l ++ a :: m)) : Chain next (some a) (a :: m) := ⟨rfl, (chain_split.mp chain).2⟩

theorem Chain.link (chain : Chain next p (l ++ a :: b :: m)) : next a = some b := (chain_split.mp chain).2.1

theorem Chain.link_last (chain : Chain next p (l ++ [a])) : next a = none := (chain_split.mp chain).2

theorem Chain.split_nodup (chain : Chain next p (l ++ a :: m)) : a ∉ l ∧ a ∉ m := by
  have nodup := chain.nodup
  rw [List.nodup_middle, List.nodup_cons, List.mem_append, not_or] at nodup
  exact nodup.1

theorem Chain.link_ne (chain : Chain next p (l ++ b :: a :: m)) {c : α} (before : c ∈ l) : next c ≠ some a := by
  intro link
  have apart : a ∉ l ++ [b] := by
    have whole : Chain next p ((l ++ [b]) ++ a :: m) := by rwa [List.append_assoc]
    exact whole.split_nodup.1
  have segment := (chain_split.mp chain).1
  rcases segment.link before with fin | ⟨d, here, same⟩
  · rw [link] at fin
    obtain rfl := Option.some.inj fin
    exact apart (List.mem_append_right l List.mem_cons_self)
  · rw [link] at same
    obtain rfl := Option.some.inj same
    exact apart (List.mem_append_left _ (List.mem_of_mem_tail here))

theorem Chain.first_ne (chain : Chain next p (a :: l)) {c : α} (member : c ∈ a :: l) : next c ≠ some a := by
  intro link
  rcases Segment.link chain member with fin | ⟨d, here, same⟩
  · rw [link] at fin
    cases fin
  · rw [link] at same
    obtain rfl := Option.some.inj same
    exact (List.nodup_cons.mp chain.nodup).1 here

section splice

variable [DecidableEq α] {c : α}

theorem Chain.snoc (chain : Chain next p (l ++ [b])) (fresh : a ∉ l ++ [b]) :
    Chain (Function.update (Function.update next b (some a)) a none) p (l ++ [b, a]) := by
  obtain ⟨outside, away⟩ : a ∉ l ∧ a ≠ b := by simpa using fresh
  obtain ⟨front, -⟩ := chain_split.mp chain
  rw [chain_split, segment_update outside, segment_update chain.split_nodup.1]
  refine ⟨front, ?_, ?_⟩
  · rw [Function.update_of_ne away.symm, Function.update_self]
  · exact Function.update_self _ _ _

theorem Chain.swapFront (chain : Chain next p (a :: b :: m)) :
    Chain (Function.update (Function.update next a (next b)) b (some a)) (some b) (b :: a :: m) := by
  obtain ⟨outsideA, nodup⟩ := List.nodup_cons.mp chain.nodup
  have away : a ≠ b := fun same => outsideA (same ▸ List.mem_cons_self)
  have back : Chain next (next b) m := chain.2.2
  refine ⟨rfl, Function.update_self b _ _, ?_⟩
  rw [Function.update_of_ne away, Function.update_self, segment_update (List.nodup_cons.mp nodup).1,
    segment_update fun member => outsideA (List.mem_cons_of_mem b member)]
  exact back

theorem Chain.swap (chain : Chain next p (l ++ c :: a :: b :: m)) :
    Chain (Function.update (Function.update (Function.update next c (some b)) b (some a)) a (next b)) p
      (l ++ c :: b :: a :: m) := by
  have nodup := chain.nodup
  have back : Chain next (next b) m := (chain_split.mp chain).2.2.2
  have front := (chain_split.mp chain).1
  have outside : (c ∉ l ∧ b ∉ l ∧ a ∉ l) ∧ c ≠ a ∧ c ≠ b ∧ a ≠ b ∧ c ∉ m ∧ b ∉ m ∧ a ∉ m := by
    simp only [List.nodup_append, List.nodup_cons, List.mem_cons, not_or] at nodup
    obtain ⟨-, ⟨⟨ca, cb, cm⟩, ⟨ab, am⟩, bm, -⟩, apart⟩ := nodup
    have absent : ∀ {d}, d = c ∨ d = a ∨ d = b ∨ d ∈ m → d ∉ l := fun here member => apart _ member _ here rfl
    exact ⟨⟨absent (by simp), absent (by simp), absent (by simp)⟩, ca, cb, ab, cm, bm, am⟩
  obtain ⟨⟨cl, bl, al⟩, ca, cb, ab, cm, bm, am⟩ := outside
  rw [chain_split, segment_update al, segment_update bl, segment_update cl]
  refine ⟨front, ?_, ?_, ?_⟩
  · rw [Function.update_of_ne ca, Function.update_of_ne cb, Function.update_self]
  · rw [Function.update_of_ne ab.symm, Function.update_self]
  · rw [Function.update_self, segment_update am, segment_update bm, segment_update cm]
    exact back

theorem Chain.promote (chain : Chain next p (l ++ c :: a :: m)) :
    Chain (Function.update (Function.update next c (next a)) a p) (some a) (a :: (l ++ c :: m)) := by
  have nodup := chain.nodup
  have back : Chain next (next a) m := (chain_split.mp chain).2.2
  have front := (chain_split.mp chain).1
  have outside : (c ∉ l ∧ a ∉ l) ∧ c ≠ a ∧ c ∉ m ∧ a ∉ m := by
    simp only [List.nodup_append, List.nodup_cons, List.mem_cons, not_or] at nodup
    obtain ⟨-, ⟨⟨ca, cm⟩, am, -⟩, apart⟩ := nodup
    have absent : ∀ {d}, d = c ∨ d = a ∨ d ∈ m → d ∉ l := fun here member => apart _ member _ here rfl
    exact ⟨⟨absent (by simp), absent (by simp)⟩, ca, cm, am⟩
  obtain ⟨⟨cl, al⟩, ca, cm, am⟩ := outside
  refine ⟨rfl, ?_⟩
  rw [Function.update_self, segment_split, segment_update al, segment_update cl]
  refine ⟨front, ?_⟩
  rw [Function.update_of_ne ca, Function.update_self, segment_update am, segment_update cm]
  exact back

end splice


end ShellOs.Lib
