import Mathlib.Data.List.TakeDrop
import Mathlib.Data.List.TakeWhile

/-! Cursors that move through a list as long as its entries satisfy a condition. -/

namespace ShellOs.Lib

variable {α : Type} {p : α → Bool} {l : List α} {a i : Nat} {x : α}

theorem takeWhile_passes (before : i < (l.takeWhile p).length) : ∃ x, l[i]? = some x ∧ p x = true := by
  have prefixed : l.takeWhile p <+: l := List.takeWhile_prefix p
  have all : ∀ x ∈ l.takeWhile p, p x = true := List.all_eq_true.mp List.all_takeWhile
  refine ⟨(l.takeWhile p)[i], ?_, all _ (List.getElem_mem before)⟩
  rw [List.prefix_iff_getElem?.mp prefixed i before]

theorem takeWhile_stop (stop : l[(l.takeWhile p).length]? = some x) : p x = false := by
  induction l with
  | nil => cases stop
  | cons y rest ih =>
    cases passes : p y with
    | true =>
      rw [List.takeWhile_cons_of_pos passes, List.length_cons, List.getElem?_cons_succ] at stop
      exact ih stop
    | false =>
      rw [List.takeWhile_cons_of_neg (by simp [passes]), List.length_nil, List.getElem?_cons_zero] at stop
      exact Option.some_inj.mp stop ▸ passes

section separator

variable [BEq α] [LawfulBEq α]

theorem bne_of_not_mem (absent : x ∉ l) : ∀ y ∈ l, (y != x) = true := fun y member => by
  rw [bne_iff_ne]
  exact fun same => absent (same ▸ member)

theorem takeWhile_ne_self (absent : x ∉ l) : l.takeWhile (· != x) = l :=
  List.takeWhile_eq_self_iff.mpr (bne_of_not_mem absent)

theorem dropWhile_ne_self (absent : x ∉ l) : l.dropWhile (· != x) = [] :=
  List.dropWhile_eq_nil_iff.mpr (bne_of_not_mem absent)

theorem takeWhile_ne (absent : x ∉ l) (rest : List α) : (l ++ x :: rest).takeWhile (· != x) = l := by
  rw [List.takeWhile_append_of_pos (bne_of_not_mem absent), List.takeWhile_cons_of_neg (by simp), List.append_nil]

theorem dropWhile_ne (absent : x ∉ l) (rest : List α) : (l ++ x :: rest).dropWhile (· != x) = x :: rest := by
  rw [List.dropWhile_append_of_pos (bne_of_not_mem absent), List.dropWhile_cons_of_neg (by simp)]

theorem flatten_splitOn (sep : α) (l : List α) : (l.splitOn sep).flatten = l.filter (· != sep) := by
  induction l with
  | nil => rfl
  | cons c rest ih =>
    rw [List.splitOn_cons_eq_if_modifyHead]
    split
    next separates =>
      rw [List.flatten_cons, List.nil_append, ih, List.filter_cons_of_neg (by simpa using separates)]
    next other =>
      have kept : (c != sep) = true := by simpa using other
      rw [List.filter_cons_of_pos (p := (· != sep)) kept, ← ih]
      cases whole : rest.splitOn sep with
      | nil => exact absurd whole (List.splitOn_ne_nil sep rest)
      | cons first others => rw [List.modifyHead_cons, List.flatten_cons, List.flatten_cons, List.cons_append]

omit [LawfulBEq α] in
theorem length_splitOn (sep : α) (l : List α) : (l.splitOn sep).length = l.count sep + 1 := by
  induction l with
  | nil => rfl
  | cons c rest ih =>
    rw [List.splitOn_cons_eq_if_modifyHead, List.count_cons]
    split
    next => rw [List.length_cons, ih]
    next => rw [List.length_modifyHead, ih, Nat.add_zero]

def pieces (sep : α) (l : List α) : List (List α) := (l.splitOn sep).filter fun piece => !piece.isEmpty

theorem pieces_append {sep : α} {word : List α} (inside : sep ∉ word) (rest : List α) :
    pieces sep (word ++ sep :: rest) = ([word].filter fun piece => !piece.isEmpty) ++ pieces sep rest := by
  rw [pieces, List.splitOn_append_cons_self_of_not_mem inside, pieces, ← List.filter_append]
  rfl

theorem pieces_cons (sep : α) (l : List α) : pieces sep (sep :: l) = pieces sep l := pieces_append List.not_mem_nil l

theorem pieces_dropWhile (sep : α) (l : List α) : pieces sep (l.dropWhile (· == sep)) = pieces sep l := by
  induction l with
  | nil => rfl
  | cons c rest ih =>
    rw [List.dropWhile_cons]
    split
    next separates => rw [ih, eq_of_beq separates, pieces_cons]
    next => rfl

theorem pieces_word {sep : α} {word : List α} (inside : sep ∉ word) :
    pieces sep word = [word].filter fun piece => !piece.isEmpty := by
  rw [pieces, List.splitOn_eq_singleton inside]

theorem pieces_none {sep : α} (only : l.dropWhile (· == sep) = []) : pieces sep l = [] := by
  rw [← pieces_dropWhile, only]
  rfl

theorem pieces_first {sep : α} {rest : List α} (start : l.dropWhile (· == sep) = x :: rest) :
    pieces sep l = (x :: rest).takeWhile (· != sep) :: pieces sep ((x :: rest).dropWhile (· != sep)).tail := by
  have other : x ≠ sep := by
    have first : (l.dropWhile (· == sep)).head? = some x := by rw [start, List.head?_cons]
    have stops := List.head?_dropWhile_not (· == sep) l
    rw [first] at stops
    simpa using stops
  have some' : (x :: rest).takeWhile (· != sep) ≠ [] := by simp [other]
  have inside : sep ∉ (x :: rest).takeWhile (· != sep) := fun member => by
    have passes := List.all_eq_true.mp List.all_takeWhile _ member
    simp at passes
  have whole : (x :: rest).takeWhile (· != sep) ++ (x :: rest).dropWhile (· != sep) = x :: rest :=
    List.takeWhile_append_dropWhile
  have kept : ([(x :: rest).takeWhile (· != sep)].filter fun piece => !piece.isEmpty) =
      [(x :: rest).takeWhile (· != sep)] := by simp [some']
  rw [← pieces_dropWhile, start]
  cases behind : (x :: rest).dropWhile (· != sep) with
  | nil =>
    rw [behind, List.append_nil] at whole
    calc
      pieces sep (x :: rest) = pieces sep ((x :: rest).takeWhile (· != sep)) := by rw [whole]
      _ = [(x :: rest).takeWhile (· != sep)] := (pieces_word inside).trans kept
  | cons y tail =>
    have separates : y = sep := by
      have first : ((x :: rest).dropWhile (· != sep)).head? = some y := by rw [behind, List.head?_cons]
      have stops := List.head?_dropWhile_not (· != sep) (x :: rest)
      rw [first] at stops
      simpa using stops
    rw [behind, separates] at whole
    calc
      pieces sep (x :: rest) = pieces sep ((x :: rest).takeWhile (· != sep) ++ sep :: tail) := by rw [whole]
      _ = (x :: rest).takeWhile (· != sep) :: pieces sep tail := by
        rw [pieces_append inside, kept]
        rfl

omit [LawfulBEq α] in
theorem ne_nil_of_pieces {sep : α} {piece : List α} (member : piece ∈ pieces sep l) : piece ≠ [] := by
  have kept := (List.mem_filter.mp member).2
  simpa using kept

theorem flatten_pieces (sep : α) (l : List α) : (pieces sep l).flatten = l.filter (· != sep) := by
  rw [pieces, List.flatten_filter_not_isEmpty, flatten_splitOn]

theorem mem_of_pieces {sep b : α} {piece : List α} (member : piece ∈ pieces sep l) (inside : b ∈ piece) :
    b ∈ l ∧ b ≠ sep := by
  have whole : b ∈ l.filter (· != sep) := flatten_pieces sep l ▸ List.mem_flatten.mpr ⟨piece, member, inside⟩
  simpa using whole

theorem notMem_of_pieces {sep : α} {piece : List α} (member : piece ∈ pieces sep l) : sep ∉ piece := fun inside =>
  (mem_of_pieces member inside).2 rfl

omit [LawfulBEq α] in
theorem length_pieces (sep : α) (l : List α) : (pieces sep l).length ≤ l.count sep + 1 :=
  (List.length_filter_le _ _).trans (length_splitOn sep l).le

theorem length_flatten_pieces (sep : α) (l : List α) : (pieces sep l).flatten.length + l.count sep = l.length := by
  rw [flatten_pieces, ← List.countP_eq_length_filter, List.count_eq_countP, Nat.add_comm,
    List.length_eq_countP_add_countP (· == sep)]
  congr 2
  funext y
  simp [bne]

theorem length_pieces_head {sep : α} (start : l.head? = some sep) : (pieces sep l).length ≤ l.count sep := by
  cases l with
  | nil => cases start
  | cons y rest =>
    obtain rfl := Option.some_inj.mp start
    rw [pieces_cons, List.count_cons_self]
    exact length_pieces y rest

omit [BEq α] [LawfulBEq α] in
theorem length_flatMap_append (sep : α) (words : List (List α)) :
    (words.flatMap (· ++ [sep])).length = words.flatten.length + words.length := by
  induction words with
  | nil => rfl
  | cons word rest ih =>
    simp only [List.flatMap_cons, List.flatten_cons, List.length_append, List.length_cons, List.length_nil, ih]
    omega

theorem pieces_flatMap {sep : α} {words : List (List α)} (inside : ∀ word ∈ words, sep ∉ word ∧ word ≠ []) (rest : List α) :
    pieces sep (words.flatMap (· ++ [sep]) ++ rest) = words ++ pieces sep rest := by
  induction words with
  | nil => rfl
  | cons word others ih =>
    obtain ⟨separate, some'⟩ := inside word List.mem_cons_self
    calc
      pieces sep ((word :: others).flatMap (· ++ [sep]) ++ rest) =
          pieces sep (word ++ sep :: (others.flatMap (· ++ [sep]) ++ rest)) := by simp
      _ = [word] ++ pieces sep (others.flatMap (· ++ [sep]) ++ rest) := by
        rw [pieces_append separate]
        simp [some']
      _ = word :: others ++ pieces sep rest := by
        rw [ih fun later member => inside later (List.mem_cons_of_mem _ member)]
        rfl

end separator

def scan (p : α → Bool) (l : List α) (a : Nat) : Nat := a + ((l.drop a).takeWhile p).length

theorem le_scan (p : α → Bool) (l : List α) (a : Nat) : a ≤ scan p l a := Nat.le_add_right a _

theorem scan_le_length (inside : a ≤ l.length) : scan p l a ≤ l.length := by
  have shorter : ((l.drop a).takeWhile p).length ≤ (l.drop a).length := (List.takeWhile_sublist p).length_le
  rw [List.length_drop] at shorter
  rw [scan]
  omega

theorem scan_passes (low : a ≤ i) (high : i < scan p l a) : ∃ x, l[i]? = some x ∧ p x = true := by
  have before : i - a < ((l.drop a).takeWhile p).length := by
    rw [scan] at high
    omega
  obtain ⟨x, at', passes⟩ := takeWhile_passes before
  rw [List.getElem?_drop, Nat.add_sub_cancel' low] at at'
  exact ⟨x, at', passes⟩

theorem scan_stop (stop : l[scan p l a]? = some x) : p x = false := by
  rw [scan, ← List.getElem?_drop] at stop
  exact takeWhile_stop stop

theorem scan_le (low : a ≤ i) (here : l[i]? = some x) (stops : p x = false) : scan p l a ≤ i := by
  by_contra beyond
  obtain ⟨y, there, passes⟩ := scan_passes low (Nat.lt_of_not_le beyond)
  rw [here, Option.some_inj] at there
  rw [there, passes] at stops
  cases stops

theorem take_scan (p : α → Bool) (l : List α) (a : Nat) : (l.drop a).take (scan p l a - a) = (l.drop a).takeWhile p := by
  rw [scan, Nat.add_sub_cancel_left]
  exact (List.prefix_iff_eq_take.mp (List.takeWhile_prefix p)).symm

theorem drop_scan (p : α → Bool) (l : List α) (a : Nat) : l.drop (scan p l a) = (l.drop a).dropWhile p := by
  have whole : (l.drop a).takeWhile p ++ (l.drop a).dropWhile p = l.drop a := List.takeWhile_append_dropWhile
  rw [scan, ← List.drop_drop]
  exact (congrArg (List.drop _) whole.symm).trans List.drop_left

end ShellOs.Lib
