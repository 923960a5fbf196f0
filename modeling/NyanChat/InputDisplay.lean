import NyanChat.Display
import NyanChat.LineEditor

/-!
# The part of the line that is drawn

`displayInputText` draws a line that is longer than its width as a window on the text.  The window is in the text, and
around the cursor, unless the cursor is more than half a width away from both ends of the text: there the end of the
window is counted from the end of the text (`displayInputText_shows_iff`).
-/

namespace NyanChat.Ansi

open TextCursor

variable {c : AnsiState} {k n : ℕ} {x y maxX : Int}

/-- A text of length `n` in the array of the line, with the cursor at `k`. -/
structure InputAt (c : AnsiState) (k n : ℕ) : Prop where
  cursor : c.inputCursor = k
  length : c.inputLength = n
  cursor_le : k ≤ n
  length_lt : n < MAX_MSG_LENGTH
  terminated : c.input[n]? = some 0

/-- The line of the editor is such a text in every run (`editorRun_at`). -/
theorem EditorAt.inputAt (h : EditorAt c k n) : InputAt c k n :=
  ⟨h.cursor, h.length, h.cursor_le, h.length_lt, h.terminated⟩

/-- A slice of the text with the cursor in it is drawn, in the columns from `x` to `maxX`, as far as `printf` shows
it: up to a NUL among the typed characters. -/
structure ShowsSlice (c : AnsiState) (x y maxX : Int) (d : InputDisplay) : Prop where
  start_nonneg : 0 ≤ d.pStart
  start_le : d.pStart ≤ c.inputCursor
  le_end : c.inputCursor ≤ d.pEnd
  end_le : d.pEnd ≤ c.inputLength
  width : d.pEnd - d.pStart ≤ maxX - x
  drawn : d.drawn = .cursorPosition x y ::
    .text ((slice c.input.toList d.pStart.toNat d.pEnd.toNat).takeWhile (· ≠ 0)) :: drawnCursor c d.cursorX d.cursorY
  cursor : x ≤ d.cursorX ∧ d.cursorX ≤ maxX
  unchanged : d.input = c.input

/-- The text fits in the width, or the cursor is near one of its ends. -/
def InputFits (ctx : Int) (k n : ℕ) : Prop :=
  (n : Int) ≤ ctx ∨ (k : Int) ≤ ctx / 2 ∨ (n : Int) ≤ k + ctx / 2 ∨ ctx = 1 ∧ k + 1 = n

instance (ctx : Int) (k n : ℕ) : Decidable (InputFits ctx k n) :=
  inferInstanceAs (Decidable ((n : Int) ≤ ctx ∨ (k : Int) ≤ ctx / 2 ∨ (n : Int) ≤ k + ctx / 2 ∨ ctx = 1 ∧ k + 1 = n))

/-! ### Strings in the array -/

/-- The string up to a NUL at `e`. -/
theorem stringFrom_eq {a : Input} {p e : ℕ} (hpe : p ≤ e) (hzero : a[e]? = some 0) :
    stringFrom a p = some ((slice a.toList p e).takeWhile (· ≠ 0)) := by
  have hsplit : a.toList.drop p = slice a.toList p e ++ 0 :: a.toList.drop (e + 1) := by
    apply List.ext_getElem?
    intro i
    have hlt : e < MAX_MSG_LENGTH := (Vector.getElem?_eq_some_iff.1 hzero).1
    have hlen : (slice a.toList p e).length = e - p := length_slice (by rw [Vector.length_toList]; omega)
    rw [List.getElem?_drop, List.getElem?_append, hlen, getElem?_slice]
    by_cases hi : i < e - p
    · rw [if_pos hi, if_pos (by omega)]
    · rw [if_neg hi]
      rcases Nat.eq_or_lt_of_le (Nat.not_lt.1 hi) with heq | hgt
      · rw [show p + i = e by omega, show i - (e - p) = 0 by omega, Vector.getElem?_toList, hzero,
          List.getElem?_cons_zero]
      · rw [show i - (e - p) = i - (e - p) - 1 + 1 by omega, List.getElem?_cons_succ, List.getElem?_drop,
          show e + 1 + (i - (e - p) - 1) = p + i by omega]
  rw [stringFrom, if_pos (Int.natCast_nonneg p), Int.toNat_natCast, hsplit, stringIn_append_zero]

/-- A slice is not changed by a character behind it. -/
theorem slice_set (a : Input) {p e : ℕ} (h : e < MAX_MSG_LENGTH) (b : UInt8) :
    slice (a.set e b h).toList p e = slice a.toList p e :=
  slice_congr (fun _ => Iff.rfl) fun i hi => by
    rw [Vector.getElem?_toList, Vector.getElem?_toList, getElem?_set, if_neg (by omega)]

/-- The text from `p` while a NUL stands at `e`. -/
theorem stringFrom_set (a : Input) {p e : ℕ} (hpe : p ≤ e) (he : e < MAX_MSG_LENGTH) :
    stringFrom (a.set e 0 he) p = some ((slice a.toList p e).takeWhile (· ≠ 0)) := by
  have hzero : (a.set e 0 he)[e]? = some 0 := by rw [getElem?_set, if_pos rfl]
  rw [stringFrom_eq hpe hzero, slice_set]

/-! ### The window -/

theorem displayInputText_short (h : InputAt c k n) (hshort : (n : Int) ≤ maxX - x) :
    displayInputText c x y maxX = some ⟨c.input, 0, n, x + k, y, .cursorPosition x y ::
      .text ((slice c.input.toList 0 n).takeWhile (· ≠ 0)) :: drawnCursor c (x + k) y⟩ := by
  have htext := stringFrom_eq (Nat.zero_le n) h.terminated
  rw [displayInputText, h.length, if_pos hshort, h.cursor]
  rw [Nat.cast_zero] at htext
  rw [htext]
  rfl

/-- A line that is too long is drawn through any window in it, and the array is as before. -/
theorem displayInputText_window (h : InputAt c k n) {p e : ℕ} (hlong : maxX - x < n) (hpe : p ≤ e) (hen : e ≤ n)
    (hwindow : inputWindow (maxX - x) n k = (↑p, ↑e)) :
    displayInputText c x y maxX = some ⟨c.input, p, e, x + (k - p), y, .cursorPosition x y ::
      .text ((slice c.input.toList p e).takeWhile (· ≠ 0)) :: drawnCursor c (x + (k - p)) y⟩ := by
  have he : e < MAX_MSG_LENGTH := Nat.lt_of_le_of_lt hen h.length_lt
  rw [displayInputText, h.length, if_neg (Int.not_le.2 hlong), h.cursor, hwindow]
  dsimp only
  rw [getAt_of_lt c.input he, setAt_natCast c.input he]
  show (stringFrom _ _).bind _ = _
  rw [stringFrom_set c.input hpe he]
  show (setAt _ _ _).bind _ = _
  rw [setAt_restore]
  rfl

/-- The slice that is drawn. -/
theorem displayInputText_slice {d : InputDisplay} (h : displayInputText c x y maxX = some d) :
    (d.pStart, d.pEnd) = if c.inputLength ≤ maxX - x then (0, c.inputLength)
      else inputWindow (maxX - x) c.inputLength c.inputCursor := by
  rw [displayInputText] at h
  split at h
  · rename_i hshort
    obtain ⟨text, -, h⟩ := Option.bind_eq_some_iff.1 h
    cases h
    rw [if_pos hshort]
  · rename_i hlong
    rw [if_neg hlong]
    generalize inputWindow (maxX - x) c.inputLength c.inputCursor = window at h ⊢
    obtain ⟨p, e⟩ := window
    obtain ⟨tmp, -, h⟩ := Option.bind_eq_some_iff.1 h
    obtain ⟨ended, -, h⟩ := Option.bind_eq_some_iff.1 h
    obtain ⟨text, -, h⟩ := Option.bind_eq_some_iff.1 h
    obtain ⟨input, -, h⟩ := Option.bind_eq_some_iff.1 h
    cases h
    rfl

/-- The window around the cursor, in the three cases. -/
theorem inputWindow_eq {ctx : Int} (hctx : 0 < ctx) (k n : ℕ) :
    inputWindow ctx n k = if (k : Int) ≤ ctx / 2 then (0, ctx)
      else if (n : Int) ≤ k + ctx / 2 then (n - ctx, (n : Int)) else (k - ctx / 2, n + ctx / 2) := by
  have hhalf : ctx.tdiv 2 = ctx / 2 := Int.tdiv_eq_ediv_of_nonneg hctx.le
  rw [inputWindow, hhalf]
  by_cases hstart : (k : Int) ≤ ctx / 2
  · rw [if_pos hstart, if_pos hstart]
  · rw [if_neg hstart, if_neg hstart]
    by_cases hend : (n : Int) ≤ k + ctx / 2
    · rw [if_pos hend, if_pos (by omega)]
    · rw [if_neg hend, if_neg (by omega)]

/-- A window in the text around the cursor is shown. -/
private theorem showsSlice_of_window (h : InputAt c k n) {p e : ℕ} (hlong : maxX - x < n) (hpk : p ≤ k) (hke : k ≤ e)
    (hen : e ≤ n) (hwidth : (e : Int) - p ≤ maxX - x) (hwindow : inputWindow (maxX - x) n k = (↑p, ↑e)) :
    ∃ d, displayInputText c x y maxX = some d ∧ ShowsSlice c x y maxX d := by
  refine ⟨_, displayInputText_window h hlong (hpk.trans hke) hen hwindow, ?_⟩
  exact
    { start_nonneg := Int.natCast_nonneg p
      start_le := by rw [h.cursor]; exact Int.ofNat_le.2 hpk
      le_end := by rw [h.cursor]; exact Int.ofNat_le.2 hke
      end_le := by rw [h.length]; exact Int.ofNat_le.2 hen
      width := hwidth
      drawn := by rw [Int.toNat_natCast, Int.toNat_natCast]
      cursor := ⟨show x ≤ x + (k - p) by omega, show x + (k - p) ≤ maxX by omega⟩
      unchanged := rfl }

private theorem inputFits_of_shows (h : InputAt c k n) (hctx : 0 < maxX - x) {d : InputDisplay}
    (hrun : displayInputText c x y maxX = some d) (hshows : ShowsSlice c x y maxX d) : InputFits (maxX - x) k n := by
  have hslice := displayInputText_slice hrun
  have hend := hshows.end_le
  have hwidth := hshows.width
  rw [h.length, h.cursor, inputWindow_eq hctx] at hslice
  rw [h.length] at hend
  by_contra hnot
  rw [InputFits, not_or, not_or, not_or] at hnot
  obtain ⟨hlong, hstart, hbehind, hone⟩ := hnot
  rw [if_neg hlong, if_neg hstart, if_neg hbehind] at hslice
  obtain ⟨hp, he⟩ := Prod.mk.inj hslice
  rw [hp, he] at hwidth
  rw [he] at hend
  exact hone (by omega)

private theorem showsSlice_of_short (h : InputAt c k n) (hshort : (n : Int) ≤ maxX - x) :
    ∃ d, displayInputText c x y maxX = some d ∧ ShowsSlice c x y maxX d := by
  have hkn := h.cursor_le
  refine ⟨_, displayInputText_short h hshort, ?_⟩
  exact
    { start_nonneg := Int.le_refl 0
      start_le := by rw [h.cursor]; exact Int.natCast_nonneg k
      le_end := by rw [h.cursor]; exact Int.ofNat_le.2 hkn
      end_le := by rw [h.length]
      width := by rw [Int.sub_zero]; exact hshort
      drawn := rfl
      cursor := ⟨show x ≤ x + k by omega, show x + k ≤ maxX by omega⟩
      unchanged := rfl }

private theorem showsSlice_of_long (h : InputAt c k n) (hctx : 0 < maxX - x) (hlong : maxX - x < n)
    (hfits : InputFits (maxX - x) k n) :
    ∃ d, displayInputText c x y maxX = some d ∧ ShowsSlice c x y maxX d := by
  have hkn := h.cursor_le
  obtain ⟨ctx, hnat⟩ := Int.eq_ofNat_of_zero_le hctx.le
  have hwindow := inputWindow_eq hctx k n
  rw [hnat] at hwindow hfits hlong
  rcases Decidable.em ((k : Int) ≤ (ctx : Int) / 2) with hstart | hstart
  · rw [if_pos hstart] at hwindow
    exact showsSlice_of_window h (p := 0) (e := ctx) (by omega) (Nat.zero_le k) (by omega) (by omega) (by omega)
      (by rw [hnat, hwindow]; rfl)
  · rw [if_neg hstart] at hwindow
    rcases Decidable.em ((n : Int) ≤ k + (ctx : Int) / 2) with hbehind | hbehind
    · rw [if_pos hbehind] at hwindow
      have hstart' : (n : Int) - ctx = ((n - ctx : ℕ) : Int) := by omega
      exact showsSlice_of_window h (p := n - ctx) (e := n) (by omega) (by omega) hkn (Nat.le_refl n) (by omega)
        (by rw [hnat, hwindow, hstart'])
    · rw [if_neg hbehind] at hwindow
      -- with one column there is no half of the width to count wrongly
      have hone : ctx = 1 ∧ k + 1 = n := by
        rcases hfits with hf | hf | hf | hf
        all_goals omega
      obtain ⟨rfl, rfl⟩ := hone
      exact showsSlice_of_window h (p := k) (e := k + 1) (by omega) (Nat.le_refl k) (by omega) (Nat.le_refl _)
        (by omega) (by rw [hnat, hwindow]; exact Prod.ext (by dsimp only; omega) (by dsimp only; omega))

/-- For every text and every cursor in it, the line is drawn as a slice around the cursor exactly when the text fits in
the width or the cursor is near one of its ends. -/
theorem displayInputText_shows_iff (h : InputAt c k n) (x y : Int) {maxX : Int} (hctx : x < maxX) :
    (∃ d, displayInputText c x y maxX = some d ∧ ShowsSlice c x y maxX d) ↔ InputFits (maxX - x) k n := by
  have hpos : 0 < maxX - x := by omega
  constructor
  · rintro ⟨d, hrun, hshows⟩
    exact inputFits_of_shows h hpos hrun hshows
  · intro hfits
    rcases Int.lt_or_le (maxX - x) n with hlong | hshort
    · exact showsSlice_of_long h hpos hlong hfits
    · exact showsSlice_of_short h hshort

/-- A client whose line has 500 letters, with the cursor behind 250 of them. -/
def longLine : AnsiState :=
  { initCstate fun _ => none with
    input := Vector.ofFn fun i => if i.val < 500 then 97 else 0
    inputLength := 500
    inputCursor := 250 }

/-- The cursor is moved near the end of the line. -/
theorem displayInputText_shows_end :
    ∃ d, displayInputText { longLine with inputCursor := 490 } 5 53 91 = some d ∧
      ShowsSlice { longLine with inputCursor := 490 } 5 53 91 d := by
  have hat : EditorAt { longLine with inputCursor := 490 } 490 500 :=
    ⟨rfl, rfl, by decide, by decide, by simp [longLine, MAX_MSG_LENGTH], rfl⟩
  exact (displayInputText_shows_iff hat.inputAt 5 53 (by decide)).2 (by decide)

/-- The window on a long line around a cursor in its middle ends behind the array. -/
theorem middle_window_leaves_array :
    InputAt longLine 250 500 ∧ displayInputText longLine 5 53 91 = none ∧
      ¬ ∃ d, displayInputText longLine 5 53 91 = some d ∧ ShowsSlice longLine 5 53 91 d := by
  have hnone : displayInputText longLine 5 53 91 = none := rfl
  refine ⟨⟨rfl, rfl, by decide, by decide, by simp [longLine, MAX_MSG_LENGTH]⟩, hnone, ?_⟩
  rintro ⟨d, hrun, -⟩
  rw [hnone] at hrun
  cases hrun

end NyanChat.Ansi
