import Mathlib.Data.List.Basic

/-!
# Lines

A list is cut into lines, which end with a separator; the last line may end without one.  `takeLine` is the part of
the list that one call of a reader with a limit takes: it stops behind the first separator, or at its limit.
-/

namespace Lines

variable {α : Type*} [DecidableEq α]

/-- The lines without their ends; the flag tells whether there is a separator behind the line. -/
def lines (sep : α) : List α → List (List α × Bool)
  | [] => []
  | a :: l =>
    if a = sep then ([], true) :: lines sep l
    else match lines sep l with
      | [] => [([a], false)]
      | x :: rest => (a :: x.1, x.2) :: rest

/-- A line with its end. -/
def whole (sep : α) (x : List α × Bool) : List α := if x.2 then x.1 ++ [sep] else x.1

/-- At most `n` elements, up to the first separator. -/
def takeLine (sep : α) : ℕ → List α → List α
  | 0, _ => []
  | _ + 1, [] => []
  | n + 1, a :: l => if a = sep then [a] else a :: takeLine sep n l

variable {sep : α} {xs l : List α} {x : List α × Bool}

omit [DecidableEq α] in
theorem prefix_whole (sep : α) (x : List α × Bool) : x.1 <+: whole sep x := by
  rw [whole]
  split
  · exact List.prefix_append _ _
  · exact List.prefix_rfl

omit [DecidableEq α] in
theorem length_whole (sep : α) (x : List α × Bool) : (whole sep x).length = x.1.length + x.2.toNat := by
  obtain ⟨line, ended⟩ := x
  cases ended with
  | false => rfl
  | true => exact List.length_append

theorem lines_append_sep (h : sep ∉ xs) (l : List α) : lines sep (xs ++ sep :: l) = (xs, true) :: lines sep l := by
  induction xs with
  | nil => rw [List.nil_append, lines, if_pos rfl]
  | cons a xs ih =>
    rw [List.mem_cons, not_or] at h
    rw [List.cons_append, lines, if_neg (Ne.symm h.1), ih h.2]

theorem lines_of_not_mem (h : sep ∉ xs) (hne : xs ≠ []) : lines sep xs = [(xs, false)] := by
  induction xs with
  | nil => exact absurd rfl hne
  | cons a xs ih =>
    rw [List.mem_cons, not_or] at h
    rw [lines, if_neg (Ne.symm h.1)]
    cases xs with
    | nil => rfl
    | cons b xs => rw [ih h.2 (List.cons_ne_nil b xs)]

/-- Line by line to the end of the list. -/
theorem lines_induction (sep : α) {P : List α → Prop} (nil : P []) (last : ∀ xs, xs ≠ [] → sep ∉ xs → P xs)
    (line : ∀ xs l, sep ∉ xs → P l → P (xs ++ sep :: l)) (l : List α) : P l := by
  induction hn : l.length using Nat.strongRecOn generalizing l with
  | ind n ih =>
    by_cases hsep : sep ∈ l
    · obtain ⟨xs, rest, rfl, hnot⟩ := List.eq_append_cons_of_mem hsep
      refine line xs rest hnot (ih rest.length ?_ rest rfl)
      rw [← hn, List.length_append, List.length_cons]
      omega
    · rcases eq_or_ne l [] with rfl | hne
      · exact nil
      · exact last l hne hsep

theorem flatMap_whole (sep : α) (l : List α) : (lines sep l).flatMap (whole sep) = l := by
  induction l using lines_induction sep with
  | nil => rfl
  | last xs hne hnot => rw [lines_of_not_mem hnot hne, List.flatMap_singleton, whole, if_neg Bool.false_ne_true]
  | line xs l hnot ih =>
    rw [lines_append_sep hnot, List.flatMap_cons, ih, whole, if_pos rfl, List.append_assoc, List.singleton_append]

theorem filter_of_not_mem (h : sep ∉ xs) : xs.filter (· ≠ sep) = xs :=
  List.filter_eq_self.2 fun _ ha => decide_eq_true fun he => h (he ▸ ha)

/-- The lines without their ends are the list without the separators. -/
theorem flatten_lines (sep : α) (l : List α) : ((lines sep l).map Prod.fst).flatten = l.filter (· ≠ sep) := by
  induction l using lines_induction sep with
  | nil => rfl
  | last xs hne hnot =>
    rw [lines_of_not_mem hnot hne, filter_of_not_mem hnot, List.map_singleton, List.flatten_singleton]
  | line xs l hnot ih =>
    rw [lines_append_sep hnot, List.map_cons, List.flatten_cons, ih, List.filter_append, filter_of_not_mem hnot,
      List.filter_cons_of_neg (by simp)]

theorem mem_iff_mem_lines {a : α} (ha : a ≠ sep) : a ∈ l ↔ ∃ x ∈ lines sep l, a ∈ x.1 := by
  conv_lhs => rw [← flatMap_whole sep l, List.mem_flatMap]
  refine exists_congr fun x => and_congr_right fun _ => ?_
  rw [whole]
  split
  · rw [List.mem_append, List.mem_singleton, or_iff_left ha]
  · exact Iff.rfl

/-- Only the last line may end without a separator, and then it is not empty. -/
theorem lines_dropLast (hx : x ∈ (lines sep l).dropLast) : x.2 = true := by
  induction l using lines_induction sep with
  | nil => cases hx
  | last xs hne hnot =>
    rw [lines_of_not_mem hnot hne] at hx
    cases hx
  | line xs l hnot ih =>
    rw [lines_append_sep hnot] at hx
    cases hl : lines sep l with
    | nil =>
      rw [hl] at hx
      cases hx
    | cons y rest =>
      rw [hl, List.dropLast_cons_cons, List.mem_cons, ← hl] at hx
      rcases hx with rfl | hx
      · rfl
      · exact ih hx

theorem getLast?_lines (hx : x ∈ lines sep l) (hlast : x.2 = false) : (lines sep l).getLast? = some x := by
  have hne := List.ne_nil_of_mem hx
  rw [← List.dropLast_append_getLast hne, List.mem_append, List.mem_singleton] at hx
  rcases hx with hx | hx
  · rw [lines_dropLast hx] at hlast
    cases hlast
  · rw [List.getLast?_eq_getLast_of_ne_nil hne, hx]

theorem lines_eq_nil (h : lines sep l = []) : l = [] := by
  have hflat := flatMap_whole sep l
  rw [h] at hflat
  exact hflat.symm

theorem length_lines_le (sep : α) (l : List α) : (lines sep l).length ≤ l.length := by
  induction l using lines_induction sep with
  | nil => exact Nat.le_refl 0
  | last xs hne hnot =>
    rw [lines_of_not_mem hnot hne]
    exact List.length_pos_of_ne_nil hne
  | line xs l hnot ih =>
    rw [lines_append_sep hnot, List.length_cons, List.length_append, List.length_cons]
    omega

theorem takeLine_append_sep (h : sep ∉ xs) (l : List α) (n : ℕ) :
    takeLine sep n (xs ++ sep :: l) = (xs ++ [sep]).take n := by
  induction xs generalizing n with
  | nil =>
    cases n with
    | zero => rfl
    | succ n => rw [List.nil_append, takeLine, if_pos rfl, List.nil_append, List.take_succ_cons, List.take_nil]
  | cons a xs ih =>
    rw [List.mem_cons, not_or] at h
    cases n with
    | zero => rfl
    | succ n => rw [List.cons_append, takeLine, if_neg (Ne.symm h.1), ih h.2, List.cons_append, List.take_succ_cons]

theorem takeLine_of_not_mem (h : sep ∉ xs) (n : ℕ) : takeLine sep n xs = xs.take n := by
  induction xs generalizing n with
  | nil => cases n <;> rfl
  | cons a xs ih =>
    rw [List.mem_cons, not_or] at h
    cases n with
    | zero => rfl
    | succ n => rw [takeLine, if_neg (Ne.symm h.1), ih h.2, List.take_succ_cons]

/-- A list with a first line: a reader with a limit takes a part of this line with its end. -/
theorem lines_eq_cons {rest : List (List α × Bool)} (h : lines sep l = x :: rest) :
    sep ∉ x.1 ∧ whole sep x ≠ [] ∧ (∀ n, takeLine sep n l = (whole sep x).take n) ∧
      ∃ l', l = whole sep x ++ l' ∧ lines sep l' = rest ∧ (x.2 = false → l' = []) := by
  induction l using lines_induction sep with
  | nil => cases h
  | last xs hne hnot =>
    rw [lines_of_not_mem hnot hne] at h
    cases h
    refine ⟨hnot, ?_, fun n => ?_, [], ?_, rfl, fun _ => rfl⟩
    · rwa [whole, if_neg Bool.false_ne_true]
    · rw [takeLine_of_not_mem hnot, whole, if_neg Bool.false_ne_true]
    · rw [whole, if_neg Bool.false_ne_true, List.append_nil]
  | line xs l' hnot =>
    rw [lines_append_sep hnot] at h
    cases h
    refine ⟨hnot, ?_, fun n => ?_, l', ?_, rfl, fun hx => by cases hx⟩
    · rw [whole, if_pos rfl]
      exact List.append_ne_nil_of_right_ne_nil xs (List.cons_ne_nil sep [])
    · rw [takeLine_append_sep hnot, whole, if_pos rfl]
    · rw [whole, if_pos rfl, List.append_assoc, List.singleton_append]

end Lines
