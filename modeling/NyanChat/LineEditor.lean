import NyanChat.ClientAnsi
import NyanChat.Library.Loop
import NyanChat.Library.TextCursor

/-!
# The line editor

The array `input` with its length and its cursor is a text with a cursor.  The keys edit it as they should, except a
character in the middle of the text: the loop that makes room for it goes from left to right and writes the character
at the cursor over all that are behind it (`shiftRight_eq`).  The cursor stays in the text, the text in the array, and
the array terminated in every run (`editor_refines_text`).
-/

namespace NyanChat.Ansi

open TextCursor

abbrev Input : Type := Vector UInt8 MAX_MSG_LENGTH

/-! ### The array -/

theorem getAt_natCast {m : ℕ} (a : Vector UInt8 m) (j : ℕ) : getAt a j = a[j]? := by
  rw [getAt, if_pos (Int.natCast_nonneg j), Int.toNat_natCast]

theorem setAt_natCast {m : ℕ} (a : Vector UInt8 m) {j : ℕ} (h : j < m) (b : UInt8) :
    setAt a j b = some (a.set j b h) := by
  rw [setAt, dif_pos ⟨Int.natCast_nonneg j, by rwa [Int.toNat_natCast]⟩]
  simp only [Int.toNat_natCast]

theorem getAt_of_lt {m : ℕ} (a : Vector UInt8 m) {j : ℕ} (h : j < m) : getAt a j = some a[j] := by
  rw [getAt_natCast, Vector.getElem?_eq_getElem h]

/-- A byte that is written over is put back. -/
theorem setAt_restore {m : ℕ} (a : Vector UInt8 m) {j : ℕ} (h : j < m) (b : UInt8) :
    setAt (a.set j b h) j a[j] = some a := by
  rw [setAt_natCast _ h, Vector.set_set, Vector.set_getElem_self]

theorem getElem?_set (a : Input) {i : ℕ} (h : i < MAX_MSG_LENGTH) (b : UInt8) (j : ℕ) :
    (a.set i b h)[j]? = if j = i then some b else a[j]? := by
  rw [Vector.getElem?_set]
  by_cases hij : j = i
  · rw [if_pos hij, if_pos hij.symm]
  · rw [if_neg hij, if_neg (Ne.symm hij)]

theorem exists_getElem? (a : Input) {j : ℕ} (h : j < MAX_MSG_LENGTH) : ∃ x, a[j]? = some x :=
  ⟨a[j], Vector.getElem?_eq_getElem h⟩

/-- Each character from `k` on gets the one behind it. -/
theorem shiftLeft_eq (a : Input) {k n : ℕ} (hn : n ≤ MAX_MSG_LENGTH) :
    ∃ a', shiftLeft a k n = some a' ∧ ∀ j, a'[j]? = if k ≤ j ∧ j + 1 < n then a[j + 1]? else a[j]? := by
  have hturns : ((n : Int) - 1 - k).toNat = n - 1 - k := by omega
  obtain ⟨a', hrun, hend⟩ := Loop.foldlM_range (s := a) (n := n - 1 - k)
    (f := fun (input : Input) i => (getAt input (k + i + 1)).bind (setAt input (k + i)))
    (fun i input => ∀ j, input[j]? = if k ≤ j ∧ j < k + i then a[j + 1]? else a[j]?)
    (fun j => by rw [if_neg (by omega)])
    (by
      intro i hi input hinput
      have hlt : k + i + 1 < MAX_MSG_LENGTH := by omega
      obtain ⟨x, hx⟩ := exists_getElem? a hlt
      have hread : getAt input ((k : Int) + i + 1) = some x := by
        rw [show (k : Int) + i + 1 = ((k + i + 1 : ℕ) : Int) by push_cast; rfl, getAt_natCast, hinput,
          if_neg (by omega), hx]
      have hwrite : setAt input ((k : Int) + i) x = some (input.set (k + i) x (by omega)) := by
        rw [show (k : Int) + i = ((k + i : ℕ) : Int) by push_cast; rfl, setAt_natCast]
      refine ⟨_, by rw [hread]; exact hwrite, fun j => ?_⟩
      rw [getElem?_set, hinput]
      by_cases hj : j = k + i
      · rw [if_pos hj, if_pos (by omega), hj, hx]
      · rw [if_neg hj]
        by_cases hin : k ≤ j ∧ j < k + i
        · rw [if_pos hin, if_pos (by omega)]
        · rw [if_neg hin, if_neg (by omega)])
  refine ⟨a', by rw [shiftLeft, hturns]; exact hrun, fun j => ?_⟩
  rw [hend j]
  by_cases hj : k ≤ j ∧ j + 1 < n
  · rw [if_pos hj, if_pos (by omega)]
  · rw [if_neg hj, if_neg (by omega)]

/-- Each character behind `k` gets the one at `k`. -/
theorem shiftRight_eq (a : Input) {k n : ℕ} (hn : n < MAX_MSG_LENGTH) :
    ∃ a', shiftRight a k n = some a' ∧ ∀ j, a'[j]? = if k < j ∧ j ≤ n then a[k]? else a[j]? := by
  have hturns : ((n : Int) - k).toNat = n - k := by omega
  obtain ⟨a', hrun, hend⟩ := Loop.foldlM_range (s := a) (n := n - k)
    (f := fun (input : Input) i => (getAt input (k + i)).bind (setAt input (k + i + 1)))
    (fun i input => ∀ j, input[j]? = if k < j ∧ j ≤ k + i then a[k]? else a[j]?)
    (fun j => by rw [if_neg (by omega)])
    (by
      intro i hi input hinput
      obtain ⟨x, hx⟩ := exists_getElem? a (show k < MAX_MSG_LENGTH by omega)
      -- the turn before has written what this turn reads
      have hread : getAt input ((k : Int) + i) = some x := by
        rw [show (k : Int) + i = ((k + i : ℕ) : Int) by push_cast; rfl, getAt_natCast, hinput]
        split
        · exact hx
        · rw [show k + i = k by omega, hx]
      have hwrite : setAt input ((k : Int) + i + 1) x = some (input.set (k + i + 1) x (by omega)) := by
        rw [show (k : Int) + i + 1 = ((k + i + 1 : ℕ) : Int) by push_cast; rfl, setAt_natCast]
      refine ⟨_, by rw [hread]; exact hwrite, fun j => ?_⟩
      rw [getElem?_set, hinput]
      by_cases hj : j = k + i + 1
      · rw [if_pos hj, if_pos (by omega), hx]
      · rw [if_neg hj]
        by_cases hin : k < j ∧ j ≤ k + i
        · rw [if_pos hin, if_pos (by omega)]
        · rw [if_neg hin, if_neg (by omega)])
  refine ⟨a', by rw [shiftRight, hturns]; exact hrun, fun j => ?_⟩
  rw [hend j]
  by_cases hj : k < j ∧ j ≤ n
  · rw [if_pos hj, if_pos (by omega)]
  · rw [if_neg hj, if_neg (by omega)]

/-! ### The text of the editor -/

/-- The line that is typed, with the cursor in it. -/
def editorText (c : AnsiState) : TextCursor UInt8 :=
  ⟨slice c.input.toList 0 c.inputCursor.toNat, slice c.input.toList c.inputCursor.toNat c.inputLength.toNat⟩

/-- The cursor `k` is in the text of length `n`, and the text in the array with a NUL behind it. -/
structure EditorAt (c : AnsiState) (k n : ℕ) : Prop where
  cursor : c.inputCursor = k
  length : c.inputLength = n
  cursor_le : k ≤ n
  length_lt : n < MAX_MSG_LENGTH
  terminated : c.input[n]? = some 0
  focus : c.userFocus = FOCUS_INPUT

variable {c : AnsiState} {k n : ℕ}

theorem EditorAt.text (h : EditorAt c k n) :
    editorText c = ⟨slice c.input.toList 0 k, slice c.input.toList k n⟩ := by
  rw [editorText, h.cursor, h.length, Int.toNat_natCast, Int.toNat_natCast]

theorem EditorAt.length_text (h : EditorAt c k n) : (editorText c).text.length = n := by
  have hn := h.length_lt
  have hk := h.cursor_le
  have hsize : c.input.toList.length = MAX_MSG_LENGTH := Vector.length_toList
  rw [h.text, TextCursor.text, List.length_append, length_slice (by omega), length_slice (by omega)]
  omega

theorem clearInput_at (c : AnsiState) (hfocus : c.userFocus = FOCUS_INPUT) :
    EditorAt c.clearInput 0 0 ∧ editorText c.clearInput = empty := by
  have h : EditorAt c.clearInput 0 0 :=
    ⟨rfl, rfl, Nat.le_refl 0, by decide, by rw [AnsiState.clearInput, getElem?_set, if_pos rfl], hfocus⟩
  exact ⟨h, by rw [h.text, slice_eq_nil (Nat.le_refl 0)]; rfl⟩

theorem onArrow_left (h : EditorAt c k n) :
    (∃ k', EditorAt (onArrow c ARROW_LEFT) k' n) ∧
      editorText (onArrow c ARROW_LEFT) = (editorText c).edit (MAX_MSG_LENGTH - 1) .left := by
  rw [onArrow, if_pos rfl]
  have hn := h.length_lt
  have hle := h.cursor_le
  rcases Nat.eq_zero_or_pos k with rfl | hk
  · rw [if_neg (by rw [h.cursor]; omega)]
    refine ⟨⟨0, h⟩, ?_⟩
    rw [h.text, slice_eq_nil (Nat.le_refl 0)]
    rfl
  · rw [if_pos (by rw [h.cursor]; omega)]
    have hat : EditorAt { c with inputCursor := c.inputCursor - 1 } (k - 1) n :=
      ⟨show c.inputCursor - 1 = _ by rw [h.cursor]; omega, h.length, by omega, hn, h.terminated, h.focus⟩
    obtain ⟨x, hx⟩ := exists_getElem? c.input (show k - 1 < MAX_MSG_LENGTH by omega)
    rw [← Vector.getElem?_toList] at hx
    refine ⟨⟨k - 1, hat⟩, ?_⟩
    have hbefore := slice_succ (Nat.zero_le (k - 1)) hx
    rw [Nat.sub_add_cancel hk] at hbefore
    have hbehind := slice_cons (show k - 1 < n by omega) hx
    rw [Nat.sub_add_cancel hk] at hbehind
    rw [hat.text, h.text, edit, hbefore, List.getLast?_concat, List.dropLast_concat, hbehind]

theorem onArrow_right (h : EditorAt c k n) :
    (∃ k', EditorAt (onArrow c ARROW_RIGHT) k' n) ∧
      editorText (onArrow c ARROW_RIGHT) = (editorText c).edit (MAX_MSG_LENGTH - 1) .right := by
  rw [onArrow, if_neg (by decide), if_pos rfl]
  have hn := h.length_lt
  rcases Nat.eq_or_lt_of_le h.cursor_le with rfl | hlt
  · rw [if_neg (by rw [h.cursor, h.length]; omega)]
    refine ⟨⟨k, h⟩, ?_⟩
    rw [h.text, slice_eq_nil (Nat.le_refl k)]
    rfl
  · rw [if_pos (by rw [h.cursor, h.length]; omega)]
    have hat : EditorAt { c with inputCursor := c.inputCursor + 1 } (k + 1) n :=
      ⟨show c.inputCursor + 1 = _ by rw [h.cursor]; omega, h.length, hlt, hn, h.terminated, h.focus⟩
    obtain ⟨x, hx⟩ := exists_getElem? c.input (show k < MAX_MSG_LENGTH by omega)
    rw [← Vector.getElem?_toList] at hx
    exact ⟨⟨k + 1, hat⟩, by rw [hat.text, h.text, edit, slice_cons hlt hx, slice_succ (Nat.zero_le k) hx]⟩

/-- The array after the characters from `k` on were shifted to the left, with a new end. -/
private theorem shiftedLeft {a a' : Input} (hk : k < n) (hn : n < MAX_MSG_LENGTH)
    (h : ∀ j, a'[j]? = if k ≤ j ∧ j + 1 < n then a[j + 1]? else a[j]?) :
    ∃ b, setAt a' ((n : Int) - 1) 0 = some b ∧ b[n - 1]? = some 0 ∧
      slice b.toList 0 k = slice a.toList 0 k ∧ slice b.toList k (n - 1) = slice a.toList (k + 1) n := by
  have hend : n - 1 < MAX_MSG_LENGTH := by omega
  have hindex : (n : Int) - 1 = ((n - 1 : ℕ) : Int) := by omega
  refine ⟨a'.set (n - 1) 0, by rw [hindex, setAt_natCast a' hend], by rw [getElem?_set, if_pos rfl],
    slice_congr (fun i => Iff.rfl) fun i hi => ?_, slice_congr (fun i => by omega) fun i hi => ?_⟩
  · rw [Vector.getElem?_toList, Vector.getElem?_toList, getElem?_set, if_neg (by omega), h, if_neg (by omega)]
  · rw [Vector.getElem?_toList, Vector.getElem?_toList, getElem?_set, if_neg (by omega), h, if_pos (by omega),
      show k + i + 1 = k + 1 + i by omega]

theorem onBackspace_eq (h : EditorAt c k n) :
    ∃ c' k' n', onBackspace c = some c' ∧ EditorAt c' k' n' ∧
      editorText c' = (editorText c).edit (MAX_MSG_LENGTH - 1) .backspace := by
  have hn := h.length_lt
  have hle := h.cursor_le
  rw [onBackspace]
  rcases Nat.eq_zero_or_pos k with rfl | hk
  · rw [if_neg (by rw [h.cursor]; omega)]
    refine ⟨c, 0, n, rfl, h, ?_⟩
    rw [h.text, slice_eq_nil (Nat.le_refl 0)]
    rfl
  · rw [if_pos (by rw [h.cursor]; omega)]
    have hstart : c.inputCursor - 1 = ((k - 1 : ℕ) : Int) := by rw [h.cursor]; omega
    have hlength : c.inputLength - 1 = ((n - 1 : ℕ) : Int) := by rw [h.length]; omega
    obtain ⟨a, hshift, ha⟩ := shiftLeft_eq c.input (show n ≤ MAX_MSG_LENGTH by omega) (k := k - 1)
    obtain ⟨b, hset, hzero, hbefore, hbehind⟩ := shiftedLeft (show k - 1 < n by omega) hn ha
    have hat : EditorAt { c with input := b, inputCursor := c.inputCursor - 1, inputLength := c.inputLength - 1 }
        (k - 1) (n - 1) := ⟨hstart, hlength, by omega, by omega, hzero, h.focus⟩
    refine ⟨_, k - 1, n - 1, ?_, hat, ?_⟩
    · rw [hstart, h.length, hshift]
      exact congrArg (Option.bind · _) hset
    · rw [Nat.sub_add_cancel hk] at hbehind
      obtain ⟨x, hx⟩ := exists_getElem? c.input (show k - 1 < MAX_MSG_LENGTH by omega)
      rw [← Vector.getElem?_toList] at hx
      have hlast := slice_succ (Nat.zero_le (k - 1)) hx
      rw [Nat.sub_add_cancel hk] at hlast
      rw [hat.text, h.text, edit, hlast, List.dropLast_concat, hbefore, hbehind]

theorem onDelete_eq (h : EditorAt c k n) :
    ∃ c' k' n', onDelete c = some c' ∧ EditorAt c' k' n' ∧
      editorText c' = (editorText c).edit (MAX_MSG_LENGTH - 1) .delete := by
  have hn := h.length_lt
  rw [onDelete]
  rcases Nat.eq_or_lt_of_le h.cursor_le with rfl | hlt
  · rw [if_neg (by rw [h.cursor, h.length]; omega)]
    refine ⟨c, k, k, rfl, h, ?_⟩
    rw [h.text, slice_eq_nil (Nat.le_refl k)]
    rfl
  · rw [if_pos (by rw [h.cursor, h.length]; omega)]
    have hlength : c.inputLength - 1 = ((n - 1 : ℕ) : Int) := by rw [h.length]; omega
    obtain ⟨a, hshift, ha⟩ := shiftLeft_eq c.input (show n ≤ MAX_MSG_LENGTH by omega) (k := k)
    obtain ⟨b, hset, hzero, hbefore, hbehind⟩ := shiftedLeft hlt hn ha
    have hat : EditorAt { c with input := b, inputLength := c.inputLength - 1 } k (n - 1) :=
      ⟨h.cursor, hlength, by omega, by omega, hzero, h.focus⟩
    refine ⟨_, k, n - 1, ?_, hat, ?_⟩
    · rw [h.cursor, h.length, hshift]
      exact congrArg (Option.bind · _) hset
    · obtain ⟨x, hx⟩ := exists_getElem? c.input (show k < MAX_MSG_LENGTH by omega)
      rw [← Vector.getElem?_toList] at hx
      rw [hat.text, h.text, edit, slice_cons hlt hx, List.tail_cons, hbefore, hbehind]

/-- The array with room for a character at `k`, the character and a new end. -/
private theorem characterWritten {a a' : Input} {b : UInt8} (hk : k ≤ n) (hn : n + 1 < MAX_MSG_LENGTH)
    (h : ∀ j, a'[j]? = if k < j ∧ j ≤ n then a[k]? else a[j]?) :
    ∃ d e, setAt a' k b = some d ∧ setAt d ((n : Int) + 1) 0 = some e ∧ e[n + 1]? = some 0 ∧
      slice e.toList 0 (k + 1) = slice a.toList 0 k ++ [b] ∧
      (slice e.toList (k + 1) (n + 1) = slice a.toList k n ↔ ∀ i, k + i < n → a[k]? = a[k + i]?) := by
  have hk' : k < MAX_MSG_LENGTH := by omega
  have hindex : (n : Int) + 1 = ((n + 1 : ℕ) : Int) := by omega
  have hread : ∀ j, j ≠ n + 1 → ((a'.set k b hk').set (n + 1) 0 hn)[j]? = if j = k then some b else a'[j]? := by
    intro j hj
    rw [getElem?_set, if_neg hj, getElem?_set]
  refine ⟨a'.set k b, (a'.set k b hk').set (n + 1) 0, setAt_natCast a' hk' b, by rw [hindex, setAt_natCast _ hn],
    by rw [getElem?_set, if_pos rfl], ?_, ?_⟩
  · have hat : ((a'.set k b hk').set (n + 1) 0 hn).toList[k]? = some b := by
      rw [Vector.getElem?_toList, hread k (by omega), if_pos rfl]
    rw [slice_succ (Nat.zero_le k) hat]
    congr 1
    refine slice_congr (fun i => Iff.rfl) fun i hi => ?_
    rw [Vector.getElem?_toList, Vector.getElem?_toList, hread _ (by omega), if_neg (by omega), h, if_neg (by omega)]
  · have hbehind : ∀ i, k + i < n →
        ((a'.set k b hk').set (n + 1) 0 hn).toList[k + 1 + i]? = a[k]? := by
      intro i hi
      rw [Vector.getElem?_toList, hread _ (by omega), if_neg (by omega), h, if_pos (by omega)]
    constructor
    · intro heq i hi
      have hget := congrArg (fun l => l[i]?) heq
      simp only [getElem?_slice] at hget
      rwa [if_pos (by omega), if_pos hi, hbehind i hi, Vector.getElem?_toList] at hget
    · intro hall
      refine slice_congr (fun i => by omega) fun i hi => ?_
      rw [hbehind i hi, hall i hi, Vector.getElem?_toList]

/-- All characters behind the cursor are the same when each of them is the one at the cursor. -/
private theorem behind_same (a : Input) (hn : n < MAX_MSG_LENGTH) :
    (∀ i, k + i < n → a[k]? = a[k + i]?) ↔ ¬ ∃ x ∈ slice a.toList k n, ∃ y ∈ slice a.toList k n, x ≠ y := by
  have hmem : ∀ x, x ∈ slice a.toList k n ↔ ∃ i, k + i < n ∧ a[k + i]? = some x := by
    intro x
    rw [List.mem_iff_getElem?]
    simp only [getElem?_slice, Vector.getElem?_toList]
    constructor
    · rintro ⟨i, hi⟩
      split at hi
      · exact ⟨i, by assumption, hi⟩
      · cases hi
    · rintro ⟨i, hlt, hi⟩
      exact ⟨i, by rw [if_pos hlt, hi]⟩
  constructor
  · rintro hall ⟨x, hx, y, hy, hne⟩
    obtain ⟨i, hi, hxi⟩ := (hmem x).1 hx
    obtain ⟨j, hj, hyj⟩ := (hmem y).1 hy
    rw [← hall i hi] at hxi
    rw [← hall j hj] at hyj
    exact hne (Option.some.inj (hxi.symm.trans hyj))
  · intro hsame i hi
    obtain ⟨x, hx⟩ := exists_getElem? a (show k < MAX_MSG_LENGTH by omega)
    obtain ⟨y, hy⟩ := exists_getElem? a (show k + i < MAX_MSG_LENGTH by omega)
    rw [hx, hy]
    by_contra hne
    exact hsame ⟨x, (hmem x).2 ⟨0, by omega, hx⟩, y, (hmem y).2 ⟨i, hi, hy⟩, fun hxy => hne (congrArg some hxy)⟩

theorem onCharacter_eq (h : EditorAt c k n) (b : UInt8) :
    ∃ c' k' n', onCharacter c b = some c' ∧ EditorAt c' k' n' ∧
      (editorText c' = (editorText c).edit (MAX_MSG_LENGTH - 1) (.insert b) ↔
        ¬ (c.inputLength < (MAX_MSG_LENGTH : Int) - 1 ∧
          ∃ x ∈ (editorText c).behind, ∃ y ∈ (editorText c).behind, x ≠ y)) := by
  have hn := h.length_lt
  have hle := h.cursor_le
  rw [onCharacter, edit, h.length_text]
  by_cases hfull : MAX_MSG_LENGTH - 1 ≤ n
  · rw [if_pos (by rw [h.length]; omega), if_neg (Nat.not_lt.2 hfull)]
    exact ⟨c, k, n, rfl, h, iff_of_true rfl fun hroom => by rw [h.length] at hroom; omega⟩
  · rw [if_neg (by rw [h.length]; omega), if_pos (Nat.not_le.1 hfull)]
    have hroom : ∃ a, (if c.inputCursor = c.inputLength then some c.input
        else shiftRight c.input c.inputCursor c.inputLength) = some a ∧
          ∀ j, a[j]? = if k < j ∧ j ≤ n then c.input[k]? else c.input[j]? := by
      rw [h.cursor, h.length]
      rcases Nat.eq_or_lt_of_le hle with rfl | hlt
      · exact ⟨c.input, if_pos rfl, fun j => by rw [if_neg (by omega)]⟩
      · rw [if_neg (by omega)]
        exact shiftRight_eq c.input hn
    obtain ⟨a, hshift, ha⟩ := hroom
    obtain ⟨d, e, hset, hend, hzero, hbefore, hbehind⟩ := characterWritten (b := b) hle (by omega) ha
    have hat : EditorAt { c with input := e, inputCursor := c.inputCursor + 1, inputLength := c.inputLength + 1 }
        (k + 1) (n + 1) := ⟨show c.inputCursor + 1 = _ by rw [h.cursor]; omega,
          show c.inputLength + 1 = _ by rw [h.length]; omega, by omega, by omega, hzero, h.focus⟩
    refine ⟨_, k + 1, n + 1, ?_, hat, ?_⟩
    · rw [← h.cursor] at hset
      rw [← h.length] at hend
      by_cases hlast : c.inputCursor = c.inputLength
      · rw [if_pos hlast] at hshift ⊢
        obtain rfl := Option.some.inj hshift
        simp only [Option.bind_eq_bind, hset, Option.bind_some, hend, Option.pure_def]
      · rw [if_neg hlast] at hshift ⊢
        simp only [hshift, Option.bind_eq_bind, Option.bind_some, hset, hend, Option.pure_def]
    · rw [hat.text, h.text, TextCursor.mk.injEq, hbefore, and_iff_right rfl, hbehind, behind_same c.input hn, h.length,
        and_iff_right (by omega)]

/-! ### Keys -/

/-- What a key of the bytes `b₀`, `b₁` and `b₂` is to do to the text. -/
def inputEdits (b₀ b₁ b₂ : UInt8) : List (Edit UInt8) :=
  if b₀ = ESCAPE then
    if b₁ = SPECIAL_CHAR_ARROW then
      if b₂ = ARROW_LEFT then [.left] else if b₂ = ARROW_RIGHT then [.right] else []
    else if b₁ = SPECIAL_CHAR_KEYS then
      if b₂ = K_ENTER then [.clear] else if b₂ = K_BACKSPACE then [.backspace]
      else if b₂ = K_DELETE then [.delete] else []
    else []
  else [.insert b₀]

def keyEdits (buffer : Input) (bufLen : ℕ) : List (Edit UInt8) :=
  if bufLen = 0 then [] else inputEdits (buffer.get 0) (buffer.get 1) (buffer.get 2)

/-- The text after some edits. -/
def edited (t : TextCursor UInt8) (edits : List (Edit UInt8)) : TextCursor UInt8 :=
  edits.foldl (edit (MAX_MSG_LENGTH - 1)) t

/-- An ordinary character is typed before characters that are not all the same, and there is room for it. -/
def Smears (c : AnsiState) (buffer : Input) (bufLen : ℕ) : Prop :=
  bufLen ≠ 0 ∧ buffer.get 0 ≠ ESCAPE ∧ c.inputLength < (MAX_MSG_LENGTH : Int) - 1 ∧
    ∃ x ∈ (editorText c).behind, ∃ y ∈ (editorText c).behind, x ≠ y

private theorem onArrow_eq (h : EditorAt c k n) (key : UInt8) :
    ∃ k' n', EditorAt (onArrow c key) k' n' ∧
      editorText (onArrow c key) = edited (editorText c)
        (if key = ARROW_LEFT then [.left] else if key = ARROW_RIGHT then [.right] else []) := by
  by_cases hleft : key = ARROW_LEFT
  · subst hleft
    obtain ⟨⟨k', hat⟩, htext⟩ := onArrow_left h
    exact ⟨k', n, hat, htext⟩
  · by_cases hright : key = ARROW_RIGHT
    · subst hright
      obtain ⟨⟨k', hat⟩, htext⟩ := onArrow_right h
      exact ⟨k', n, hat, htext⟩
    · -- the other arrows move the cursor of the messages
      have hsame : ∀ d : Int, EditorAt { c with dispMsgsCursor := d } k n := fun d =>
        ⟨h.cursor, h.length, h.cursor_le, h.length_lt, h.terminated, h.focus⟩
      rw [onArrow, if_neg hleft, if_neg hright, if_neg hleft, if_neg hright]
      split_ifs
      · exact ⟨k, n, hsame _, rfl⟩
      · exact ⟨k, n, h, rfl⟩
      · exact ⟨k, n, hsame _, rfl⟩
      · exact ⟨k, n, h, rfl⟩
      · exact ⟨k, n, h, rfl⟩

variable {rands : ℕ → ℕ} {memory : ℕ → Message} {buffer : Input} {bufLen : ℕ}

/-- A key is the enter key, or it comes back and edits the text. -/
private theorem onInput_eq (h : EditorAt c k n) (rands : ℕ → ℕ) (memory : ℕ → Message) (b₀ b₁ b₂ : UInt8) :
    b₀ = ESCAPE ∧ inputEdits b₀ b₁ b₂ = [.clear] ∧ onInput rands memory c b₀ b₁ b₂ = onEnter rands memory c ∨
      ∃ c' k' n', onInput rands memory c b₀ b₁ b₂ = some (c', []) ∧ EditorAt c' k' n' ∧
        (editorText c' = edited (editorText c) (inputEdits b₀ b₁ b₂) ↔
          ¬ (b₀ ≠ ESCAPE ∧ c.inputLength < (MAX_MSG_LENGTH : Int) - 1 ∧
            ∃ x ∈ (editorText c).behind, ∃ y ∈ (editorText c).behind, x ≠ y)) := by
  rw [onInput, inputEdits]
  by_cases hescape : b₀ = ESCAPE
  · have hno : ∀ p : Prop, ¬ (b₀ ≠ ESCAPE ∧ p) := fun p hp => hp.1 hescape
    rw [if_pos hescape, if_pos hescape]
    by_cases harrow : b₁ = SPECIAL_CHAR_ARROW
    · rw [if_pos harrow, if_pos harrow]
      obtain ⟨k', n', hat, htext⟩ := onArrow_eq h b₂
      exact Or.inr ⟨_, k', n', rfl, hat, iff_of_true htext (hno _)⟩
    · rw [if_neg harrow, if_neg harrow]
      by_cases hkeys : b₁ = SPECIAL_CHAR_KEYS
      · rw [if_pos hkeys, if_pos hkeys]
        by_cases henter : b₂ = K_ENTER
        · rw [if_pos henter, if_pos henter]
          exact Or.inl ⟨hescape, rfl, rfl⟩
        · rw [if_neg henter, if_neg henter]
          by_cases hback : b₂ = K_BACKSPACE
          · rw [if_pos hback, if_pos hback]
            obtain ⟨c', k', n', hrun, hat, htext⟩ := onBackspace_eq h
            exact Or.inr ⟨c', k', n', by rw [hrun]; rfl, hat, iff_of_true htext (hno _)⟩
          · rw [if_neg hback, if_neg hback]
            by_cases hdelete : b₂ = K_DELETE
            · rw [if_pos hdelete, if_pos hdelete]
              obtain ⟨c', k', n', hrun, hat, htext⟩ := onDelete_eq h
              exact Or.inr ⟨c', k', n', by rw [hrun]; rfl, hat, iff_of_true htext (hno _)⟩
            · rw [if_neg hdelete, if_neg hdelete]
              exact Or.inr ⟨c, k, n, rfl, h, iff_of_true rfl (hno _)⟩
      · rw [if_neg hkeys, if_neg hkeys]
        exact Or.inr ⟨c, k, n, rfl, h, iff_of_true rfl (hno _)⟩
  · rw [if_neg hescape, if_neg hescape]
    obtain ⟨c', k', n', hrun, hat, htext⟩ := onCharacter_eq h b₀
    refine Or.inr ⟨c', k', n', by rw [hrun]; rfl, hat, ?_⟩
    rw [and_iff_right hescape]
    exact htext

theorem onStdinClient_comesBack (h : EditorAt c k n) (henter : keyEdits buffer bufLen ≠ [.clear]) :
    ∃ r, onStdinClient rands memory c buffer bufLen = some r := by
  rw [onStdinClient]
  by_cases hlen : bufLen = 0
  · exact ⟨_, if_pos hlen⟩
  · rw [if_neg hlen, if_pos h.focus]
    rw [keyEdits, if_neg hlen] at henter
    rcases onInput_eq h rands memory (buffer.get 0) (buffer.get 1) (buffer.get 2) with
      ⟨-, hclear, -⟩ | ⟨c', -, -, hrun, -⟩
    · exact absurd hclear henter
    · exact ⟨_, congrArg (Option.map _) hrun⟩

/-- A key edits the text as it should, unless it is a character that smears. -/
theorem onStdinClient_edits (h : EditorAt c k n) {r : Pressed}
    (hrun : onStdinClient rands memory c buffer bufLen = some r) :
    (∃ k' n', EditorAt r.state k' n') ∧
      (editorText r.state = edited (editorText c) (keyEdits buffer bufLen) ↔ ¬ Smears c buffer bufLen) := by
  rw [onStdinClient] at hrun
  rw [keyEdits, Smears]
  by_cases hlen : bufLen = 0
  · rw [if_pos hlen] at hrun ⊢
    cases hrun
    exact ⟨⟨k, n, h⟩, iff_of_true rfl fun hsmears => hsmears.1 hlen⟩
  · rw [if_neg hlen, if_pos h.focus] at hrun
    rw [if_neg hlen, and_iff_right hlen]
    obtain ⟨⟨c', sent⟩, hinput, rfl⟩ := Option.map_eq_some_iff.1 hrun
    have hinput : onInput rands memory c (buffer.get 0) (buffer.get 1) (buffer.get 2) = some (c', sent) := hinput
    rcases onInput_eq h rands memory (buffer.get 0) (buffer.get 1) (buffer.get 2) with
      ⟨hescape, hclear, henter⟩ | ⟨c₁, k', n', hrun₁, hat, htext⟩
    · rw [henter] at hinput
      obtain ⟨⟨client, sent'⟩, -, hpair⟩ := Option.map_eq_some_iff.1 hinput
      obtain ⟨rfl, rfl⟩ := Prod.mk.inj hpair
      obtain ⟨hat, htext⟩ := clearInput_at { c with client := client } h.focus
      refine ⟨⟨0, 0, hat⟩, iff_of_true ?_ fun hsmears => hsmears.1 hescape⟩
      rw [hclear]
      exact htext
    · obtain ⟨rfl, rfl⟩ := Prod.mk.inj (Option.some.inj (hrun₁.symm.trans hinput))
      exact ⟨⟨k', n', hat⟩, htext⟩

/-! ### Messages -/

/-- A message changes the text only when it ends the connection window. -/
def messageEdits (c : AnsiState) (msg : Message) : List (Edit UInt8) :=
  if c.client.waitingPseudoConfirmation ∧ msg.msgType = MSG_WELL_CONNECTED then [.clear] else []

/-- The line editor is the same in both states. -/
structure SameEditor (c c' : AnsiState) : Prop where
  input : c'.input = c.input
  length : c'.inputLength = c.inputLength
  cursor : c'.inputCursor = c.inputCursor
  focus : c'.userFocus = c.userFocus

theorem EditorAt.congr (h : EditorAt c k n) {c' : AnsiState} (hs : SameEditor c c') :
    EditorAt c' k n ∧ editorText c' = editorText c := by
  refine ⟨⟨hs.cursor.trans h.cursor, hs.length.trans h.length, h.cursor_le, h.length_lt, ?_,
    hs.focus.trans h.focus⟩, ?_⟩
  · rw [hs.input]
    exact h.terminated
  · rw [editorText, editorText, hs.input, hs.cursor, hs.length]

private theorem roomDefaultChannel_sameEditor {fuel : ℕ} {c c' : AnsiState}
    (hrun : roomDefaultChannel memory fuel c = some c') : SameEditor c c' := by
  induction fuel generalizing c with
  | zero => cases hrun
  | succ fuel ih =>
    rw [roomDefaultChannel] at hrun
    split at hrun
    · obtain ⟨hinput, hlength, hcursor, hfocus⟩ := ih hrun
      exact ⟨hinput, hlength, hcursor, hfocus⟩
    · cases hrun
      exact ⟨rfl, rfl, rfl, rfl⟩

theorem onMsgClient_edits (h : EditorAt c k n) {fuel : ℕ} {msg : Message} {r : AnsiState × List Message}
    (hrun : onMsgClient fuel memory c msg = some r) :
    (∃ k' n', EditorAt r.1 k' n') ∧ editorText r.1 = edited (editorText c) (messageEdits c msg) := by
  obtain ⟨⟨client, sent⟩, -, hrun⟩ := Option.bind_eq_some_iff.1 hrun
  have hsame : ∀ c', SameEditor { c with client := client } c' → ¬ (c.client.waitingPseudoConfirmation = true ∧
      msg.msgType = MSG_WELL_CONNECTED) → (∃ k' n', EditorAt c' k' n') ∧
        editorText c' = edited (editorText c) (messageEdits c msg) := by
    intro c' hs hno
    obtain ⟨hat, htext⟩ := h.congr (⟨hs.input, hs.length, hs.cursor, hs.focus⟩ : SameEditor c c')
    rw [messageEdits, if_neg hno]
    exact ⟨⟨k, n, hat⟩, htext⟩
  dsimp only at hrun
  split at hrun
  · rename_i hwaiting
    cases hrun
    dsimp only
    split
    · rename_i htype
      obtain ⟨hat, htext⟩ := clearInput_at { c with client := client } h.focus
      rw [messageEdits, if_pos ⟨hwaiting, htype⟩]
      exact ⟨⟨0, 0, hat⟩, htext⟩
    · rename_i htype
      exact hsame _ ⟨rfl, rfl, rfl, rfl⟩ fun hboth => htype hboth.2
  · rename_i hwaiting
    have hno : ¬ (c.client.waitingPseudoConfirmation = true ∧ msg.msgType = MSG_WELL_CONNECTED) :=
      fun hboth => hwaiting hboth.1
    split at hrun
    · obtain ⟨c₁, hstored, hrun⟩ := Option.bind_eq_some_iff.1 hrun
      obtain ⟨c₂, hroom, hstored⟩ := Option.bind_eq_some_iff.1 hstored
      obtain ⟨slot, -, hstored⟩ := Option.bind_eq_some_iff.1 hstored
      obtain ⟨copy, -, hstored⟩ := Option.bind_eq_some_iff.1 hstored
      cases hstored
      cases hrun
      have hs := roomDefaultChannel_sameEditor hroom
      exact hsame _ ⟨hs.input, hs.length, hs.cursor, hs.focus⟩ hno
    · cases hrun
      exact hsame _ ⟨rfl, rfl, rfl, rfl⟩ hno

/-! ### Runs -/

/-- The states of a client that is typed into and receives messages, with the edits that the text should have seen.
Every key satisfies `C` in the state in which it is typed. -/
inductive EditorRun (codes : List UInt8 → Option (List UInt8)) (C : AnsiState → Input → ℕ → Prop) :
    List (Edit UInt8) → AnsiState → Prop
  | start : EditorRun codes C [] (initCstate codes)
  | key {es : List (Edit UInt8)} {c : AnsiState} (rands : ℕ → ℕ) (memory : ℕ → Message) (buffer : Input) (bufLen : ℕ)
      {r : Pressed} : EditorRun codes C es c → C c buffer bufLen →
      onStdinClient rands memory c buffer bufLen = some r → EditorRun codes C (es ++ keyEdits buffer bufLen) r.state
  | message {es : List (Edit UInt8)} {c : AnsiState} (fuel : ℕ) (memory : ℕ → Message) (msg : Message)
      {r : AnsiState × List Message} : EditorRun codes C es c → onMsgClient fuel memory c msg = some r →
      EditorRun codes C (es ++ messageEdits c msg) r.1

variable {codes : List UInt8 → Option (List UInt8)} {C : AnsiState → Input → ℕ → Prop} {es : List (Edit UInt8)}

theorem edited_append (t : TextCursor UInt8) (es es' : List (Edit UInt8)) :
    edited t (es ++ es') = edited (edited t es) es' := List.foldl_append

theorem initCstate_at (codes : List UInt8 → Option (List UInt8)) : EditorAt (initCstate codes) 0 0 :=
  ⟨rfl, rfl, Nat.le_refl 0, by decide, by rw [initCstate]; rfl, rfl⟩

theorem editorRun_at (h : EditorRun codes C es c) : ∃ k n, EditorAt c k n := by
  induction h with
  | start => exact ⟨0, 0, initCstate_at codes⟩
  | key rands memory buffer bufLen _ _ hrun ih =>
    obtain ⟨k, n, hat⟩ := ih
    exact (onStdinClient_edits hat hrun).1
  | message fuel memory msg _ hrun ih =>
    obtain ⟨k, n, hat⟩ := ih
    exact (onMsgClient_edits hat hrun).1

/-- In a run without smeared characters the text has seen the edits. -/
theorem editorRun_text (h : EditorRun codes C es c) (hC : ∀ c buffer bufLen, C c buffer bufLen →
    ¬ Smears c buffer bufLen) : editorText c = edited empty es := by
  induction h with
  | start => rfl
  | key rands memory buffer bufLen hprev hgood hrun ih =>
    obtain ⟨k, n, hat⟩ := editorRun_at hprev
    rw [(onStdinClient_edits hat hrun).2.2 (hC _ _ _ hgood), ih, edited_append]
  | message fuel memory msg hprev hrun ih =>
    obtain ⟨k, n, hat⟩ := editorRun_at hprev
    rw [(onMsgClient_edits hat hrun).2, ih, edited_append]

/-- In every run the cursor stays in the text, and the text in the array with a NUL behind it; a key comes back, except
the enter key, and edits the text as it should exactly when it is no character that smears.  So a run without such
characters refines a text with a cursor. -/
theorem editor_refines_text (h : EditorRun codes C es c) :
    (∃ k n, EditorAt c k n) ∧
    (∀ rands memory buffer bufLen, keyEdits buffer bufLen ≠ [.clear] →
      ∃ r, onStdinClient rands memory c buffer bufLen = some r) ∧
    (∀ rands memory buffer bufLen r, onStdinClient rands memory c buffer bufLen = some r →
      (editorText r.state = edited (editorText c) (keyEdits buffer bufLen) ↔ ¬ Smears c buffer bufLen)) ∧
    ((∀ c buffer bufLen, C c buffer bufLen → ¬ Smears c buffer bufLen) → editorText c = edited empty es) := by
  obtain ⟨k, n, hat⟩ := editorRun_at h
  exact ⟨⟨k, n, hat⟩, fun _ _ _ _ henter => onStdinClient_comesBack hat henter,
    fun _ _ _ _ _ hrun => (onStdinClient_edits hat hrun).2, editorRun_text h⟩

theorem zero_lt_length : 0 < MAX_MSG_LENGTH := by decide

theorem one_lt_length : 1 < MAX_MSG_LENGTH := by decide

theorem two_lt_length : 2 < MAX_MSG_LENGTH := by decide

/-- The bytes of a key. -/
def keyBytes (b₀ b₁ b₂ : UInt8) : Input :=
  (((Vector.replicate _ 0).set 0 b₀ zero_lt_length).set 1 b₁ one_lt_length).set 2 b₂ two_lt_length

def character (b : UInt8) : Input := keyBytes b 0 0

def leftKey : Input := keyBytes ESCAPE SPECIAL_CHAR_ARROW ARROW_LEFT

/-- A client that has just started, after some keys. -/
def pressed (keys : List Input) : Option AnsiState :=
  keys.foldlM (fun c buffer => (onStdinClient (fun _ => 0) (fun _ => Message.zero) c buffer 3).map Pressed.state)
    (initCstate fun _ => none)

/-- The keys are a run when `C` holds for all of them. -/
private theorem editorRun_pressed {keys : List Input} (hC : ∀ keys₁ key keys₂ c, keys = keys₁ ++ key :: keys₂ →
    pressed keys₁ = some c → C c key 3) :
    ∀ {c : AnsiState}, pressed keys = some c →
      EditorRun (fun _ => none) C (keys.flatMap fun buffer => keyEdits buffer 3) c := by
  induction keys using List.reverseRecOn with
  | nil =>
    intro c hrun
    cases hrun
    exact EditorRun.start
  | append_singleton keys key ih =>
    intro c hrun
    rw [pressed, List.foldlM_append] at hrun
    obtain ⟨c₁, hprev, hlast⟩ := Option.bind_eq_some_iff.1 hrun
    rw [List.foldlM_cons] at hlast
    obtain ⟨c₂, hkey, hnil⟩ := Option.bind_eq_some_iff.1 hlast
    cases hnil
    obtain ⟨r, hr, rfl⟩ := Option.map_eq_some_iff.1 hkey
    rw [List.flatMap_append, List.flatMap_singleton]
    refine EditorRun.key _ _ key 3 (ih (fun keys₁ key' keys₂ c h => hC keys₁ key' (keys₂ ++ [key]) c ?_) hprev) ?_ hr
    · rw [h, List.append_assoc, List.cons_append]
    · exact hC keys key [] c₁ rfl hprev

theorem editor_refines_text_h :
    ∃ c, EditorRun (fun _ => none) (fun c buffer bufLen => ¬ Smears c buffer bufLen) [.insert 104] c ∧
      editorText c = ⟨[104], []⟩ := by
  have hseen : (pressed [character 104]).isSome = true := by decide +kernel
  obtain ⟨c, hc⟩ := Option.isSome_iff_exists.1 hseen
  have hrun : EditorRun (fun _ => none) (fun c buffer bufLen => ¬ Smears c buffer bufLen) [.insert 104] c := by
    refine editorRun_pressed (fun keys₁ key keys₂ c₁ hkeys hc₁ => ?_) hc
    -- nothing is behind the cursor of the start
    have hfirst : keys₁ = [] := by
      cases keys₁ with
      | nil => rfl
      | cons _ keys₁ => cases keys₁ <;> cases hkeys
    subst hfirst
    cases hc₁
    rintro ⟨-, -, -, x, hx, -⟩
    cases hx
  exact ⟨c, hrun, (editor_refines_text hrun).2.2.2 fun _ _ _ h => h⟩

/-- An `x` is typed before `ab`, and the text becomes `xaa`. -/
theorem middle_character_smears :
    ∃ c, EditorRun (fun _ => none) (fun _ _ _ => True) [.insert 97, .insert 98, .left, .left, .insert 120] c ∧
      editorText c = ⟨[120], [97, 97]⟩ ∧
      edited empty [.insert 97, .insert 98, .left, .left, .insert 120] = ⟨[120], [97, 98]⟩ := by
  have hseen : (pressed [character 97, character 98, leftKey, leftKey, character 120]).map editorText =
      some ⟨[120], [97, 97]⟩ := by decide +kernel
  obtain ⟨c, hc, htext⟩ := Option.map_eq_some_iff.1 hseen
  exact ⟨c, editorRun_pressed (fun _ _ _ _ _ _ => trivial) hc, htext, rfl⟩

end NyanChat.Ansi
