import NyanChat.InputDisplay
import NyanChat.LeftPanel
import NyanChat.Library.Faults

/-!
# Printing one message

`printMessage` writes the header of a message and then its text in lines of the width of the panel.  The lines are
those that `calcOneMsgTotHeight` counts, they hold the whole text, and the message is as before when the accesses of
the header stay in the pseudo.  The row that is returned is the last one only for a message without text: the row
counter already stands on the last line (`printMessage_shows_iff`).
-/

namespace NyanChat.Ansi

open Faults TextCursor

/-- How a drawing ends without a result. -/
inductive DrawFault
  | outOfBounds
  | endless

abbrev Drawing (α : Type) : Type := Except DrawFault α

inductive Color
  | greenYellow
  | lightSalmon

/-- What is written to the terminal while a message is printed. -/
inductive Written
  /-- `set_cursor_position` -/
  | cursorPosition (x y : Int)
  /-- `printf("%s", ...)` -/
  | text (bytes : List UInt8)
  | setClFg (color : Color)
  | setBold
  | resetAnsi

def MSG_HOVER_COLOR : Color := .greenYellow

def printHorizontalLine (c : UInt8) (xStart xEnd y : Int) : List Written :=
  [.cursorPosition xStart y, .text (List.replicate (xEnd - xStart + 1).toNat c)]

/-- The style of the borders of the focused message. -/
def hoverStyle (hover : Bool) : List Written := if hover then [.setClFg MSG_HOVER_COLOR, .setBold] else []

def hoverEnd (hover : Bool) : List Written := if hover then [.resetAnsi] else []

namespace PrintedMessage

variable (call : PrintedMessage)

def totWidth : Int := call.maxX - call.x

def maxTextLineLength : Int := call.totWidth - 3

/-- The row is in the part of the panel that shows messages. -/
def Shown (row : Int) : Prop := call.minYShow ≤ row ∧ row ≤ call.maxYShow

instance (row : Int) : Decidable (call.Shown row) := inferInstanceAs (Decidable (_ ∧ _))

/-- The borders of the header. -/
def headerBorders : List Written :=
  hoverStyle call.hover ++
    (if call.Shown call.y then printHorizontalLine 45 call.x (call.x + 5) call.y else []) ++
    (if call.Shown (call.y + 1) then [.cursorPosition call.x (call.y + 1), .text (ascii "|")] else []) ++
    (if call.Shown (call.y + 2) then printHorizontalLine 45 call.x (call.x + 3) (call.y + 2) else []) ++
    hoverEnd call.hover

/-- The pseudo in the header.  One that is too long is ended by a NUL while it is printed. -/
def headerPseudo (own : Vector UInt8 MAX_NAME_LENGTH) (msg : Message) : Drawing (Message × List Written) := do
  let pseudo ← orFail .outOfBounds (cstr msg.srcPseudo)
  if msg.msgType = MSG_SERVER_CLIENT ∧ 0 < pseudo.length then
    let mine ← orFail .outOfBounds (strcmpEqual own.toList msg.srcPseudo.toList)
    if mine then
      return (msg, [.cursorPosition (call.x + 2) (call.y + 1), .setClFg .lightSalmon, .setBold, .text (ascii "You"),
        .resetAnsi])
    else
      let xplus : Int := (ascii "| From ").length
      if (pseudo.length : Int) > call.totWidth - xplus then
        let tmp ← orFail .outOfBounds (getAt msg.srcPseudo (call.totWidth - xplus - 2))
        let ended ← orFail .outOfBounds (setAt msg.srcPseudo (call.totWidth - xplus - 2) 0)
        let shortened ← orFail .outOfBounds (cstr ended)
        let restored ← orFail .outOfBounds (setAt ended (call.totWidth - xplus - 2) tmp)
        return ({ msg with srcPseudo := restored },
          [.cursorPosition (call.x + 2) (call.y + 1), .text (ascii "From " ++ shortened ++ ascii "..")])
      else return (msg, [.cursorPosition (call.x + 2) (call.y + 1), .text (ascii "From " ++ pseudo)])
  else return (msg, [])

/-- The border of a line of the text. -/
def lineBorder (cy : Int) : List Written :=
  .cursorPosition call.x cy :: (hoverStyle call.hover ++ [.text (ascii ">")] ++ hoverEnd call.hover)

/-- The line of the text from `i` to `pEnd`, which is ended by a NUL while it is printed. -/
def printLine (msg : Message) (i pEnd cy : Int) : Drawing (Message × List Written) := do
  let tmp ← orFail .outOfBounds (getAt msg.msg pEnd)
  let ended ← orFail .outOfBounds (setAt msg.msg pEnd 0)
  let line ← orFail .outOfBounds (stringFrom ended i)
  let restored ← orFail .outOfBounds (setAt ended pEnd tmp)
  return ({ msg with msg := restored }, call.lineBorder cy ++ [.text line])

/-- Where the loop over the lines stops. -/
structure Lines where
  msg : Message
  i : Int
  cy : Int
  written : List Written

/-- The loop over the lines before the last one. -/
def printLines : ℕ → Message → Int → Int → Drawing Lines
  | 0, _, _, _ => .error .endless
  | fuel + 1, msg, i, cy =>
    if msg.msgLength.toInt32.toInt - i > call.maxTextLineLength then do
      let (msg, written) ←
        if call.Shown cy then call.printLine msg i (i + call.maxTextLineLength) cy else .ok (msg, [])
      let rest ← printLines fuel msg (i + call.maxTextLineLength) (cy + 1)
      return { rest with written := written ++ rest.written }
    else .ok ⟨msg, i, cy, []⟩

/-- The last line.  The difference is unsigned. -/
def printLast (l : Lines) : Drawing (List Written) :=
  if ((l.msg.msgLength.toNat : Int) - l.i) % 2 ^ 32 > 0 ∧ call.Shown l.cy then do
    let line ← orFail .outOfBounds (stringFrom l.msg.msg l.i)
    return call.lineBorder l.cy ++ [.text line]
  else .ok []

end PrintedMessage

/-- What `print_message` leaves, writes and returns. -/
structure MessagePrinted where
  msg : Message
  written : List Written
  row : Int

def printMessage (fuel : ℕ) (own : Vector UInt8 MAX_NAME_LENGTH) (call : PrintedMessage) : Drawing MessagePrinted := do
  let (msg, pseudo) ← if call.Shown (call.y + 1) then call.headerPseudo own call.msg else .ok (call.msg, [])
  let lines ← call.printLines fuel msg 0 (call.y + 3)
  let last ← call.printLast lines
  return ⟨lines.msg, .cursorPosition call.x call.y :: call.headerBorders ++ pseudo ++ lines.written ++ last,
    lines.cy - 1⟩

/-! ### What stands on a row -/

/-- The bytes that are written on a row; `cur` is the row of the cursor, when it is known. -/
def bytesOn (row : Int) : Option Int → List Written → List UInt8
  | _, [] => []
  | _, .cursorPosition _ y :: written => bytesOn row (some y) written
  | cur, .text bytes :: written => (if cur = some row then bytes else []) ++ bytesOn row cur written
  | cur, .setClFg _ :: written => bytesOn row cur written
  | cur, .setBold :: written => bytesOn row cur written
  | cur, .resetAnsi :: written => bytesOn row cur written

def content (written : List Written) (row : Int) : List UInt8 := bytesOn row none written

/-- Nothing is written before the cursor is positioned. -/
def Placed (written : List Written) : Prop := ∀ row cur, bytesOn row cur written = content written row

theorem placed_nil : Placed [] := fun _ _ => rfl

theorem placed_cursor (x y : Int) (written : List Written) : Placed (.cursorPosition x y :: written) :=
  fun _ _ => rfl

theorem bytesOn_append (row : Int) {a b : List Written} (hb : Placed b) (cur : Option Int) :
    bytesOn row cur (a ++ b) = bytesOn row cur a ++ content b row := by
  induction a generalizing cur with
  | nil => exact hb row cur
  | cons w a ih => cases w <;> simp [bytesOn, ih]

theorem content_append {a b : List Written} (hb : Placed b) (row : Int) :
    content (a ++ b) row = content a row ++ content b row :=
  bytesOn_append row hb none

theorem Placed.append {a b : List Written} (ha : Placed a) (hb : Placed b) : Placed (a ++ b) := by
  intro row cur
  rw [bytesOn_append row hb, ha row cur, content_append hb]

theorem placed_hoverStyle (hover : Bool) : Placed (hoverStyle hover) := by cases hover <;> exact fun _ _ => rfl

theorem placed_hoverEnd (hover : Bool) : Placed (hoverEnd hover) := by cases hover <;> exact fun _ _ => rfl

theorem content_hoverStyle (hover : Bool) (row : Int) : content (hoverStyle hover) row = [] := by
  cases hover <;> rfl

theorem content_hoverEnd (hover : Bool) (row : Int) : content (hoverEnd hover) row = [] := by cases hover <;> rfl

theorem placed_printHorizontalLine (c : UInt8) (xStart xEnd y : Int) : Placed (printHorizontalLine c xStart xEnd y) :=
  placed_cursor _ _ _

theorem content_printHorizontalLine (c : UInt8) (xStart xEnd y row : Int) :
    content (printHorizontalLine c xStart xEnd y) row =
      if row = y then List.replicate (xEnd - xStart + 1).toNat c else [] := by
  simp [content, printHorizontalLine, bytesOn, eq_comm]

namespace PrintedMessage

variable {call : PrintedMessage} {text : List UInt8}

theorem placed_headerBorders : Placed call.headerBorders := by
  unfold headerBorders
  refine ((((placed_hoverStyle _).append ?_).append ?_).append ?_).append (placed_hoverEnd _)
  all_goals
    split
    · exact placed_cursor _ _ _
    · exact placed_nil

/-- The borders of the header are in its three rows. -/
theorem content_headerBorders (hshown : ∀ row, call.y ≤ row → row < call.y + 3 → call.Shown row) (row : Int) :
    content call.headerBorders row ≠ [] ↔ call.y ≤ row ∧ row < call.y + 3 := by
  have hborder : content [Written.cursorPosition call.x (call.y + 1), .text (ascii "|")] row =
      if row = call.y + 1 then ascii "|" else [] := by
    simp [content, bytesOn, eq_comm]
  rw [headerBorders, if_pos (hshown _ (by omega) (by omega)), if_pos (hshown _ (by omega) (by omega)),
    if_pos (hshown _ (by omega) (by omega)), content_append (placed_hoverEnd _),
    content_append (placed_printHorizontalLine _ _ _ _), content_append (placed_cursor _ _ _),
    content_append (placed_printHorizontalLine _ _ _ _), content_hoverStyle, content_hoverEnd,
    content_printHorizontalLine, hborder, content_printHorizontalLine]
  have hfirst : List.replicate (call.x + 5 - call.x + 1).toNat (45 : UInt8) ≠ [] := by
    rw [show (call.x + 5 - call.x + 1).toNat = 6 by omega]
    decide
  have hlast : List.replicate (call.x + 3 - call.x + 1).toNat (45 : UInt8) ≠ [] := by
    rw [show (call.x + 3 - call.x + 1).toNat = 4 by omega]
    decide
  have hbar : ascii "|" ≠ [] := by decide
  simp only [ne_eq, List.append_eq_nil_iff, ite_eq_right_iff, hfirst, hlast, hbar, imp_false,
    true_and, and_true]
  omega

/-! ### The lines of the text -/

theorem placed_line (cy : Int) (piece : List UInt8) : Placed (call.lineBorder cy ++ [.text piece]) :=
  placed_cursor _ _ _

theorem content_line (cy : Int) (piece : List UInt8) (row : Int) :
    content (call.lineBorder cy ++ [.text piece]) row = if row = cy then ascii ">" ++ piece else [] := by
  rw [lineBorder]
  cases call.hover <;> by_cases hrow : cy = row <;>
    simp [content, bytesOn, hoverStyle, hoverEnd, hrow, eq_comm (a := row)]

/-- The lines of a text from the row `cy` on. -/
def textLines (call : PrintedMessage) : Int → List (List UInt8) → List Written
  | _, [] => []
  | cy, piece :: pieces => call.lineBorder cy ++ [.text piece] ++ textLines call (cy + 1) pieces

theorem placed_textLines (cy : Int) (pieces : List (List UInt8)) : Placed (textLines call cy pieces) := by
  induction pieces generalizing cy with
  | nil => exact placed_nil
  | cons piece pieces ih => exact (placed_line cy piece).append (ih (cy + 1))

theorem textLines_append (cy : Int) (pieces pieces' : List (List UInt8)) :
    textLines call cy (pieces ++ pieces') =
      textLines call cy pieces ++ textLines call (cy + pieces.length) pieces' := by
  induction pieces generalizing cy with
  | nil => simp [textLines]
  | cons piece pieces ih =>
    have hnext : cy + 1 + (pieces.length : Int) = cy + (pieces.length + 1 : ℕ) := by omega
    rw [List.cons_append, textLines, ih, textLines, List.length_cons, hnext]
    simp only [List.append_assoc]

theorem content_textLines_outside (cy : Int) (pieces : List (List UInt8)) {row : Int}
    (hrow : row < cy ∨ cy + pieces.length ≤ row) : content (textLines call cy pieces) row = [] := by
  induction pieces generalizing cy with
  | nil => rfl
  | cons piece pieces ih =>
    rw [List.length_cons] at hrow
    rw [textLines, content_append (placed_textLines _ _), content_line, if_neg (by omega), ih (cy + 1) (by omega)]
    rfl

/-- Each line stands on a row of its own. -/
theorem content_textLines (cy : Int) (pieces : List (List UInt8)) {k : ℕ} (hk : k < pieces.length) :
    content (textLines call cy pieces) (cy + k) = ascii ">" ++ pieces[k] := by
  induction pieces generalizing cy k with
  | nil => exact absurd hk (Nat.not_lt_zero k)
  | cons piece pieces ih =>
    rw [textLines, content_append (placed_textLines _ _), content_line]
    cases k with
    | zero =>
      rw [if_pos (by omega), content_textLines_outside _ _ (by omega), List.append_nil]
      rfl
    | succ k =>
      have hrow : cy + (k + 1 : ℕ) = cy + 1 + k := by omega
      rw [if_neg (by omega), hrow, ih (cy + 1) (by simpa using hk)]
      rfl

theorem content_textLines_ne_nil (cy : Int) (pieces : List (List UInt8)) (row : Int) :
    content (textLines call cy pieces) row ≠ [] ↔ cy ≤ row ∧ row < cy + pieces.length := by
  by_cases hrow : cy ≤ row ∧ row < cy + pieces.length
  · obtain ⟨k, hk⟩ : ∃ k : ℕ, row = cy + k := ⟨(row - cy).toNat, by omega⟩
    rw [hk, content_textLines cy pieces (by omega)]
    exact iff_of_true (List.append_ne_nil_of_left_ne_nil (by decide) _) (by omega)
  · rw [content_textLines_outside cy pieces (by omega)]
    exact iff_of_false (fun h => h rfl) hrow

/-! ### The header -/

/-- The accesses of the header stay in the pseudo. -/
def HeaderInBounds (own : Vector UInt8 MAX_NAME_LENGTH) (call : PrintedMessage) : Prop :=
  ∃ pseudo, cstr call.msg.srcPseudo = some pseudo ∧
    (call.msg.msgType = MSG_SERVER_CLIENT → pseudo ≠ [] →
      ∃ mine, strcmpEqual own.toList call.msg.srcPseudo.toList = some mine ∧
        (mine = false → (pseudo.length : Int) ≤ call.totWidth - 7 ∨ 9 ≤ call.totWidth))

/-- The pseudo is written on the second row, and the message is as before. -/
structure PseudoWritten (call : PrintedMessage) (r : Message × List Written) : Prop where
  msg : r.1 = call.msg
  placed : Placed r.2
  row : ∀ row, row ≠ call.y + 1 → content r.2 row = []

variable {own : Vector UInt8 MAX_NAME_LENGTH}

private theorem xplus_eq : ((ascii "| From ").length : Int) = 7 := rfl

/-- The pseudo with a NUL at `d`, and put back. -/
private theorem shortened_restored {n d : ℕ} (a : Vector UInt8 n) (hd : d < n) :
    ∃ tmp ended shortened, getAt a d = some tmp ∧ setAt a d 0 = some ended ∧ cstr ended = some shortened ∧
      setAt ended d tmp = some a := by
  have hzero : cstr (a.set d 0 hd) ≠ none := cstr_ne_none_iff.2 ⟨⟨d, hd⟩, Vector.getElem_set_self hd⟩
  obtain ⟨shortened, hshortened⟩ := Option.ne_none_iff_exists'.1 hzero
  exact ⟨a[d], a.set d 0 hd, shortened, getAt_of_lt a hd, setAt_natCast a hd 0, hshortened, setAt_restore a hd 0⟩

theorem headerPseudo_written (h : HeaderInBounds own call) :
    ∃ r, call.headerPseudo own call.msg = .ok r ∧ PseudoWritten call r := by
  obtain ⟨pseudo, hpseudo, hcompare⟩ := h
  have hline : ∀ written : List Written, (∀ row, row ≠ call.y + 1 → bytesOn row (some (call.y + 1)) written = []) →
      PseudoWritten call (call.msg, .cursorPosition (call.x + 2) (call.y + 1) :: written) := fun written hwritten =>
    ⟨rfl, placed_cursor _ _ _, hwritten⟩
  have htext : ∀ bytes row, row ≠ call.y + 1 → bytesOn row (some (call.y + 1)) [.text bytes] = [] := by
    intro bytes row hrow
    simp [bytesOn, hrow.symm]
  rw [headerPseudo, hpseudo]
  simp only [orFail_some, ok_bind]
  by_cases hshow : call.msg.msgType = MSG_SERVER_CLIENT ∧ 0 < pseudo.length
  · obtain ⟨mine, hmine, hfits⟩ := hcompare hshow.1 (List.ne_nil_of_length_pos hshow.2)
    rw [if_pos hshow, hmine]
    simp only [orFail_some, ok_bind]
    cases mine with
    | true => exact ⟨_, rfl, hline _ fun row hrow => by simp [bytesOn, hrow.symm]⟩
    | false =>
      rw [if_neg Bool.false_ne_true, xplus_eq]
      by_cases hlong : (pseudo.length : Int) > call.totWidth - 7
      · obtain ⟨-, hlength, -⟩ := cstr_spec hpseudo
        have hwide := (hfits rfl).resolve_left (by omega)
        obtain ⟨d, hd⟩ : ∃ d : ℕ, call.totWidth - 7 - 2 = d := ⟨_, (Int.toNat_of_nonneg (by omega)).symm⟩
        obtain ⟨tmp, ended, shortened, htmp, hended, hshortened, hrestored⟩ :=
          shortened_restored call.msg.srcPseudo (d := d) (by omega)
        rw [if_pos hlong, hd, htmp, hended]
        simp only [orFail_some, ok_bind]
        rw [hshortened, orFail_some, ok_bind, hrestored, orFail_some, ok_bind]
        exact ⟨_, rfl, hline _ (htext _)⟩
      · rw [if_neg hlong]
        exact ⟨_, rfl, hline _ (htext _)⟩
  · rw [if_neg hshow]
    exact ⟨_, rfl, rfl, placed_nil, fun _ _ => rfl⟩

/-- A header that is printed stays in the pseudo. -/
theorem headerInBounds_of_ok {r : Message × List Written} (h : call.headerPseudo own call.msg = .ok r) :
    HeaderInBounds own call := by
  rw [headerPseudo] at h
  obtain ⟨pseudo, hpseudo, h⟩ := bind_eq_ok.1 h
  rw [orFail_eq_ok] at hpseudo
  refine ⟨pseudo, hpseudo, fun htype hne => ?_⟩
  rw [if_pos ⟨htype, List.length_pos_of_ne_nil hne⟩] at h
  obtain ⟨mine, hmine, h⟩ := bind_eq_ok.1 h
  rw [orFail_eq_ok] at hmine
  refine ⟨mine, hmine, ?_⟩
  rintro rfl
  rw [if_neg Bool.false_ne_true, xplus_eq] at h
  by_cases hlong : (pseudo.length : Int) > call.totWidth - 7
  · dsimp only at h
    rw [if_pos hlong] at h
    obtain ⟨tmp, htmp, -⟩ := bind_eq_ok.1 h
    rw [orFail_eq_ok, getAt] at htmp
    split at htmp
    · right
      omega
    · cases htmp
  · left
    omega

/-- The header leaves the message as it is. -/
theorem headerPseudo_msg {r : Message × List Written} (h : call.headerPseudo own call.msg = .ok r) :
    r.1 = call.msg := by
  obtain ⟨r', hr', hwritten⟩ := headerPseudo_written (headerInBounds_of_ok h)
  rw [h] at hr'
  cases hr'
  exact hwritten.msg

end PrintedMessage

/-! ### The text -/

/-- The length of the message is the length of its text, which ends with a NUL. -/
structure HasText (msg : Message) (text : List UInt8) : Prop where
  string : cstr msg.msg = some text
  length : msg.msgLength.toNat = text.length

namespace HasText

variable {msg : Message} {text : List UInt8} (h : HasText msg text)
include h

theorem length_lt : text.length < MAX_MSG_LENGTH := (cstr_spec h.string).2.1

theorem toInt_length : msg.msgLength.toInt32.toInt = text.length := by
  rw [toInt_msgLength (by rw [h.length]; exact h.length_lt), h.length]

theorem slice_toList {i e : ℕ} (he : e ≤ text.length) : slice msg.msg.toList i e = slice text i e := by
  obtain ⟨-, -, t, hsplit⟩ := cstr_spec h.string
  rw [slice, slice, hsplit, List.take_append_of_le_length he]

theorem takeWhile_slice (i e : ℕ) : (slice text i e).takeWhile (· ≠ 0) = slice text i e :=
  takeWhile_of_not_mem fun hmem => (cstr_spec h.string).1 (List.mem_of_mem_take (List.mem_of_mem_drop hmem))

theorem terminated : msg.msg[text.length]? = some 0 := by
  obtain ⟨-, -, t, hsplit⟩ := cstr_spec h.string
  rw [← Vector.getElem?_toList, hsplit, List.getElem?_append_right (Nat.le_refl _), Nat.sub_self,
    List.getElem?_cons_zero]

/-- A NUL written at `e` ends the line there, and is taken back. -/
theorem printLine_eq (call : PrintedMessage) {i e : ℕ} (hie : i ≤ e) (he : e ≤ text.length) (cy : Int) :
    call.printLine msg i e cy = .ok (msg, call.lineBorder cy ++ [.text (slice text i e)]) := by
  have hlt : e < MAX_MSG_LENGTH := Nat.lt_of_le_of_lt he h.length_lt
  have hline : stringFrom (msg.msg.set e 0 hlt) i = some (slice text i e) := by
    rw [stringFrom_set msg.msg hie hlt, h.slice_toList he, h.takeWhile_slice]
  rw [PrintedMessage.printLine, getAt_of_lt msg.msg hlt, orFail_some, ok_bind, setAt_natCast _ hlt, orFail_some,
    ok_bind, hline, orFail_some, ok_bind, setAt_restore, orFail_some, ok_bind]
  rfl

theorem stringFrom_drop {i : ℕ} (hi : i ≤ text.length) : stringFrom msg.msg i = some (text.drop i) := by
  rw [stringFrom_eq hi h.terminated, h.slice_toList (Nat.le_refl _), h.takeWhile_slice, slice, List.take_length]

end HasText

/-- The lines that both loops cut from the text at `i`, until what is left fits into one line of `len` characters. -/
structure Cut (msg : Message) (text : List UInt8) (len fuel i : ℕ) (pieces : List (List UInt8)) : Prop where
  le : i + len * pieces.length ≤ text.length
  /-- Some characters are left, if there were any. -/
  rest : i < text.length → i + len * pieces.length < text.length
  fits : text.length ≤ i + len * pieces.length + len
  flatten : pieces.flatten ++ text.drop (i + len * pieces.length) = text.drop i
  length_le : ∀ piece ∈ pieces, piece.length ≤ len
  counts : ∀ height : Int, Loop.turns (lineTurn msg.msgLength.toInt32.toInt len) fuel ((i : Int), height) =
    some (((i + len * pieces.length : ℕ) : Int), height + pieces.length)
  prints : ∀ (call : PrintedMessage) (cy : Int), call.maxTextLineLength = len →
    (∀ k < pieces.length, call.Shown (cy + k)) →
      call.printLines fuel msg i cy = .ok ⟨msg, ((i + len * pieces.length : ℕ) : Int), cy + pieces.length,
        call.textLines cy pieces⟩

section

variable {msg : Message} {text : List UInt8} (h : HasText msg text) {len fuel i : ℕ}
include h

/-- A turn of the loop that counts, with more than a line left. -/
private theorem HasText.turns_long (hlong : i + len < text.length) (height : Int) :
    Loop.turns (lineTurn msg.msgLength.toInt32.toInt len) (fuel + 1) ((i : Int), height) =
      Loop.turns (lineTurn msg.msgLength.toInt32.toInt len) fuel (((i + len : ℕ) : Int), height + 1) := by
  have hcond : (text.length : Int) - i > len := by omega
  rw [h.toInt_length, Loop.turns, lineTurn, if_pos hcond, if_neg Bool.false_ne_true, Nat.cast_add]

/-- A turn of the loop that prints, with more than a line left. -/
private theorem HasText.printLines_long {call : PrintedMessage} (hwidth : call.maxTextLineLength = len)
    (hlong : i + len < text.length) {cy : Int} (hshown : call.Shown cy) :
    call.printLines (fuel + 1) msg i cy = (call.printLines fuel msg ((i + len : ℕ) : Int) (cy + 1)).map fun rest =>
      { rest with written := call.lineBorder cy ++ [.text (slice text i (i + len))] ++ rest.written } := by
  have hcond : (text.length : Int) - i > len := by omega
  have hline := h.printLine_eq call (Nat.le_add_right i len) hlong.le cy
  rw [Nat.cast_add] at hline ⊢
  rw [PrintedMessage.printLines, h.toInt_length, hwidth, if_pos hcond, if_pos hshown, hline, ok_bind]
  dsimp only
  cases call.printLines fuel msg ((i : Int) + len) (cy + 1) <;> rfl

/-- A turn of both loops, with more than a line left. -/
private theorem Cut.step (hlong : i + len < text.length) {pieces : List (List UInt8)}
    (hcut : Cut msg text len fuel (i + len) pieces) :
    Cut msg text len (fuel + 1) i (slice text i (i + len) :: pieces) := by
  have hnext : i + len * (slice text i (i + len) :: pieces).length = i + len + len * pieces.length := by
    rw [List.length_cons, Nat.mul_succ]
    omega
  refine ⟨?_, fun _ => ?_, ?_, ?_, ?_, fun height => ?_, fun call cy hwidth hshown => ?_⟩
  · rw [hnext]
    exact hcut.le
  · rw [hnext]
    exact hcut.rest hlong
  · rw [hnext]
    exact hcut.fits
  · have hsplit : slice text i (i + len) ++ text.drop (i + len) = text.drop i := by
      conv_rhs => rw [← List.take_append_drop (i + len) text]
      rw [List.drop_append_of_le_length (by rw [List.length_take]; omega), slice]
    rw [hnext, List.flatten_cons, List.append_assoc, hcut.flatten, hsplit]
  · intro piece hpiece
    rcases List.mem_cons.1 hpiece with rfl | hpiece
    · rw [length_slice hlong.le]
      omega
    · exact hcut.length_le piece hpiece
  · rw [h.turns_long hlong, hcut.counts, hnext, List.length_cons, Nat.cast_succ, Int.add_assoc, Int.add_comm 1]
  · have hfirst : call.Shown cy := by
      have h0 := hshown 0 (Nat.succ_pos _)
      rwa [Nat.cast_zero, Int.add_zero] at h0
    have hrest := hcut.prints call (cy + 1) hwidth fun k hk => by
      have hk1 := hshown (k + 1) (Nat.succ_lt_succ hk)
      rwa [Nat.cast_succ, Int.add_comm (k : Int), ← Int.add_assoc] at hk1
    rw [h.printLines_long hwidth hlong hfirst, hrest, hnext, List.length_cons, PrintedMessage.textLines, Nat.cast_succ,
      Int.add_comm (pieces.length : Int), ← Int.add_assoc]
    rfl

/-- The text is cut in as many turns as it has characters, at most. -/
theorem HasText.cut (hlen : 0 < len) (fuel : ℕ) :
    ∀ i ≤ text.length, text.length - i < fuel → ∃ pieces, Cut msg text len fuel i pieces := by
  induction fuel with
  | zero => exact fun i _ hfuel => absurd hfuel (Nat.not_lt_zero _)
  | succ fuel ih =>
    intro i hi hfuel
    by_cases hlong : i + len < text.length
    · obtain ⟨pieces, hcut⟩ := ih (i + len) hlong.le (by omega)
      exact ⟨_, hcut.step h hlong⟩
    · have hcond : ¬ ((text.length : Int) - i > len) := by omega
      refine ⟨[], by simpa using hi, by simp, by simpa using hlong, by simp, by simp, fun height => ?_,
        fun call cy hwidth _ => ?_⟩
      · rw [Loop.turns, lineTurn, h.toInt_length, if_neg hcond, if_pos rfl]
        simp
      · rw [PrintedMessage.printLines, h.toInt_length, hwidth, if_neg hcond]
        simp [PrintedMessage.textLines]

end

/-! ### The printed message -/

variable {call : PrintedMessage} {text : List UInt8} {own : Vector UInt8 MAX_NAME_LENGTH} {fuel : ℕ}

/-- The lines of a text: as many as are counted, each printed on a row of its own when all rows are shown. -/
structure LinesPrinted (fuel : ℕ) (call : PrintedMessage) (text : List UInt8) (pieces : List (List UInt8)) : Prop where
  counted : calcOneMsgTotHeight fuel call.msg call.maxTextLineLength = some (3 + (pieces.length : Int))
  flatten : pieces.flatten = text
  length_le : ∀ piece ∈ pieces, (piece.length : Int) ≤ call.maxTextLineLength
  printed : (∀ k < pieces.length, call.Shown (call.y + 3 + k)) → ∃ l last,
    call.printLines fuel call.msg 0 (call.y + 3) = .ok l ∧ call.printLast l = .ok last ∧ l.msg = call.msg ∧
      l.written ++ last = call.textLines (call.y + 3) pieces ∧
      l.cy = call.y + 3 + pieces.length - if text = [] then 0 else 1

/-- Without a text no loop turns. -/
private theorem HasText.linesPrinted_nil (h : HasText call.msg []) (hwidth : 0 < call.maxTextLineLength)
    (hfuel : 0 < fuel) : LinesPrinted fuel call [] [] := by
  obtain ⟨fuel, rfl⟩ := Nat.exists_eq_succ_of_ne_zero hfuel.ne'
  have hlength : call.msg.msgLength.toInt32.toInt = 0 := h.toInt_length
  have hcond : ¬ ((0 : Int) - 0 > call.maxTextLineLength) := by omega
  refine ⟨?_, rfl, fun piece hpiece => absurd hpiece List.not_mem_nil, fun _ => ?_⟩
  · rw [calcOneMsgTotHeight, Loop.turns, lineTurn, hlength, if_neg hcond, if_pos rfl, h.length]
    rfl
  · refine ⟨⟨call.msg, 0, call.y + 3, []⟩, [], ?_, ?_, rfl, rfl, ?_⟩
    · rw [PrintedMessage.printLines, hlength, if_neg hcond]
    · rw [PrintedMessage.printLast]
      dsimp only
      rw [h.length]
      rfl
    · rw [if_pos rfl, Int.sub_zero]
      exact (Int.add_zero _).symm

/-- The last line is what the loops leave of the text. -/
private theorem Cut.linesPrinted (h : HasText call.msg text) (hne : text ≠ []) {len : ℕ}
    (hlen : call.maxTextLineLength = len) {pieces : List (List UInt8)} (hcut : Cut call.msg text len fuel 0 pieces) :
    LinesPrinted fuel call text (pieces ++ [text.drop (0 + len * pieces.length)]) := by
  have hlt := h.length_lt
  have hmax : MAX_MSG_LENGTH = 512 := rfl
  have hle := hcut.le
  have hflatten := hcut.flatten
  have hrest := hcut.rest (List.length_pos_of_ne_nil hne)
  have hfits := hcut.fits
  have hcounts := hcut.counts 3
  have hprints := hcut.prints call (call.y + 3) hlen
  rw [Nat.cast_zero] at hcounts hprints
  generalize 0 + len * pieces.length = i at *
  have hunsigned : ((text.length : Int) - i) % 2 ^ 32 > 0 := by
    rw [Int.emod_eq_of_lt (by omega) (by omega)]
    omega
  have hcount : pieces.length < (pieces ++ [text.drop i]).length := by
    rw [List.length_append, List.length_singleton]
    exact Nat.lt_succ_self _
  refine ⟨?_, ?_, ?_, fun hshown => ?_⟩
  · rw [calcOneMsgTotHeight, hlen, hcounts]
    show some (if ((call.msg.msgLength.toNat : Int) - i) % 2 ^ 32 > 0 then _ else _) = _
    rw [h.length, if_pos hunsigned, List.length_append, List.length_singleton, Nat.cast_add, Nat.cast_one,
      Int.add_assoc]
  · rw [List.flatten_append, List.flatten_singleton, hflatten, List.drop_zero]
  · intro piece hpiece
    rcases List.mem_append.1 hpiece with hpiece | hpiece
    · rw [hlen]
      exact Int.ofNat_le.2 (hcut.length_le piece hpiece)
    · rw [List.mem_singleton.1 hpiece, List.length_drop, hlen]
      omega
  · have hlines := hprints fun k hk => hshown k (hk.trans hcount)
    have hlast : call.Shown (call.y + 3 + pieces.length) := hshown pieces.length hcount
    refine ⟨_, call.textLines (call.y + 3 + pieces.length) [text.drop i], hlines, ?_, rfl,
      (PrintedMessage.textLines_append _ _ _).symm, ?_⟩
    · rw [PrintedMessage.printLast]
      dsimp only
      rw [h.length, if_pos ⟨hunsigned, hlast⟩, h.stringFrom_drop hle, orFail_some, ok_bind, PrintedMessage.textLines,
        PrintedMessage.textLines, List.append_nil]
      rfl
    · rw [if_neg hne, List.length_append, List.length_singleton]
      dsimp only
      omega

theorem HasText.linesPrinted (h : HasText call.msg text) (hwidth : 0 < call.maxTextLineLength)
    (hfuel : MAX_MSG_LENGTH ≤ fuel) : ∃ pieces, LinesPrinted fuel call text pieces := by
  have hlt := h.length_lt
  by_cases hempty : text = []
  · obtain rfl := hempty
    exact ⟨[], h.linesPrinted_nil hwidth (by omega)⟩
  · obtain ⟨len, hlen⟩ : ∃ len : ℕ, call.maxTextLineLength = len := ⟨_, (Int.toNat_of_nonneg hwidth.le).symm⟩
    have hpos : 0 < len := by omega
    obtain ⟨pieces, hcut⟩ := h.cut hpos fuel 0 (Nat.zero_le _) (by omega)
    exact ⟨_, hcut.linesPrinted h hempty hlen⟩

/-- What `print_message` should do with a message of `height` rows. -/
structure Prints (call : PrintedMessage) (text : List UInt8) (height : Int) (r : MessagePrinted) : Prop where
  rows : ∀ row, content r.written row ≠ [] ↔ call.y ≤ row ∧ row < call.y + height
  lines : ∃ pieces : List (List UInt8), (pieces.length : Int) = height - 3 ∧
    (∀ k (hk : k < pieces.length), content r.written (call.y + 3 + k) = ascii ">" ++ pieces[k]) ∧
    pieces.flatten = text ∧ ∀ piece ∈ pieces, (piece.length : Int) ≤ call.maxTextLineLength
  unchanged : r.msg = call.msg

/-- The header, its pseudo and the lines, one after the other. -/
private theorem printMessage_of_parts {r : Message × List Written} {l : PrintedMessage.Lines} {last : List Written}
    (hshown : call.Shown (call.y + 1)) (hpseudo : call.headerPseudo own call.msg = .ok r)
    (hlines : call.printLines fuel r.1 0 (call.y + 3) = .ok l) (hlast : call.printLast l = .ok last) :
    printMessage fuel own call = .ok ⟨l.msg, .cursorPosition call.x call.y :: call.headerBorders ++ r.2 ++ l.written ++
      last, l.cy - 1⟩ := by
  rw [printMessage, if_pos hshown, hpseudo, ok_bind]
  dsimp only
  rw [hlines, ok_bind, hlast, ok_bind]
  rfl

private theorem content_parts {pseudo : List Written} (hplaced : Placed pseudo) (pieces : List (List UInt8))
    (row : Int) :
    content (.cursorPosition call.x call.y :: call.headerBorders ++ pseudo ++ call.textLines (call.y + 3) pieces) row =
      content call.headerBorders row ++ content pseudo row ++ content (call.textLines (call.y + 3) pieces) row := by
  rw [content_append (PrintedMessage.placed_textLines _ _), content_append hplaced]
  congr 2
  exact PrintedMessage.placed_headerBorders row (some call.y)

theorem LinesPrinted.prints {pieces : List (List UInt8)} (h : LinesPrinted fuel call text pieces)
    (hheader : call.HeaderInBounds own) (hmin : call.minYShow ≤ call.y)
    (hmax : call.y + (3 + pieces.length) - 1 ≤ call.maxYShow) :
    ∃ r, printMessage fuel own call = .ok r ∧ Prints call text (3 + pieces.length) r ∧
      r.row = call.y + 2 + pieces.length - if text = [] then 0 else 1 := by
  have hshown : ∀ row, call.y ≤ row → row < call.y + (3 + pieces.length) → call.Shown row := fun row h₁ h₂ =>
    ⟨by omega, by omega⟩
  obtain ⟨⟨msg, pseudo⟩, hpseudo, hwritten⟩ := PrintedMessage.headerPseudo_written hheader
  obtain ⟨hmsg, hplaced, hrow⟩ := hwritten
  dsimp only at hmsg hplaced hrow
  obtain rfl := hmsg
  obtain ⟨l, last, hlines, hlast, hleft, hall, hcy⟩ := h.printed fun k hk => hshown _ (by omega) (by omega)
  have hrun := printMessage_of_parts (hshown _ (by omega) (by omega)) hpseudo hlines hlast
  rw [List.append_assoc _ l.written, hall] at hrun
  have hborders : ∀ row, content call.headerBorders row = [] ↔ ¬ (call.y ≤ row ∧ row < call.y + 3) := fun row => by
    rw [← PrintedMessage.content_headerBorders fun row h₁ h₂ => hshown row h₁ (by omega), not_not]
  refine ⟨_, hrun, ⟨fun row => ?_, ⟨pieces, by omega, fun k hk => ?_, h.flatten, h.length_le⟩, hleft⟩, ?_⟩
  · have htext : content (call.textLines (call.y + 3) pieces) row = [] ↔
        ¬ (call.y + 3 ≤ row ∧ row < call.y + 3 + pieces.length) := by
      rw [← PrintedMessage.content_textLines_ne_nil, not_not]
    rw [content_parts hplaced, ne_eq, List.append_eq_nil_iff, List.append_eq_nil_iff, hborders, htext]
    by_cases hout : row = call.y + 1
    · exact iff_of_true (fun h => h.1.1 (by omega)) (by omega)
    · simp only [hrow row hout, and_true]
      omega
  · have hnone : content call.headerBorders (call.y + 3 + k) = [] := (hborders _).2 (by omega)
    dsimp only
    rw [content_parts hplaced, hnone, hrow _ (by omega), PrintedMessage.content_textLines _ _ hk]
    rfl
  · dsimp only
    rw [hcy]
    split <;> omega

/-- For every message with its text, every width of at least four and a window that shows all its rows, the lines are
printed as they are counted when the header stays in the pseudo; the row that is returned is the last one only when
there is no text as well. -/
theorem printMessage_shows_iff (h : HasText call.msg text) (hwidth : 4 ≤ call.totWidth)
    (hfuel : MAX_MSG_LENGTH ≤ fuel) :
    ∃ height, calcOneMsgTotHeight fuel call.msg call.maxTextLineLength = some height ∧
      (call.minYShow ≤ call.y → call.y + height - 1 ≤ call.maxYShow →
        ((∃ r, printMessage fuel own call = .ok r ∧ Prints call text height r) ↔ call.HeaderInBounds own) ∧
        ((∃ r, printMessage fuel own call = .ok r ∧ Prints call text height r ∧ r.row = call.y + height - 1) ↔
          call.HeaderInBounds own ∧ text = [])) := by
  have hline : 0 < call.maxTextLineLength := by
    rw [PrintedMessage.maxTextLineLength]
    omega
  obtain ⟨pieces, hpieces⟩ := h.linesPrinted hline hfuel
  refine ⟨_, hpieces.counted, fun hmin hmax => ?_⟩
  have hheader : ∀ r, printMessage fuel own call = .ok r → call.HeaderInBounds own := by
    intro r hr
    have hshown : call.Shown (call.y + 1) := ⟨by omega, by omega⟩
    rw [printMessage, if_pos hshown] at hr
    obtain ⟨pseudo, hpseudo, -⟩ := bind_eq_ok.1 hr
    exact PrintedMessage.headerInBounds_of_ok hpseudo
  refine ⟨⟨fun ⟨r, hr, _⟩ => hheader r hr, fun hbounds => ?_⟩, ?_, ?_⟩
  · obtain ⟨r, hr, hprints, -⟩ := hpieces.prints hbounds hmin hmax
    exact ⟨r, hr, hprints⟩
  · rintro ⟨r, hr, -, hrow⟩
    obtain ⟨r', hr', -, hrow'⟩ := hpieces.prints (hheader r hr) hmin hmax
    rw [hr] at hr'
    cases hr'
    refine ⟨hheader r hr, by_contra fun hne => ?_⟩
    rw [if_neg hne] at hrow'
    omega
  · rintro ⟨hbounds, hempty⟩
    obtain ⟨r, hr, hprints, hrow⟩ := hpieces.prints hbounds hmin hmax
    refine ⟨r, hr, hprints, ?_⟩
    rw [hrow, if_pos hempty]
    omega

/-- A message from the server, at the top of the panel in the narrowest terminal. -/
private def atTop (msg : Message) : PrintedMessage := ⟨0, msg, 3, 3, 41, 3, 49, false⟩

private def noPseudo : Vector UInt8 MAX_NAME_LENGTH := Vector.replicate _ 0

private theorem hasText_zero : HasText Message.zero [] := ⟨by decide +kernel, rfl⟩

theorem printMessage_shows_header :
    ∃ r, printMessage MAX_MSG_LENGTH noPseudo (atTop Message.zero) = .ok r ∧
      Prints (atTop Message.zero) [] 3 r ∧ r.row = 5 := by
  have hcounted : calcOneMsgTotHeight MAX_MSG_LENGTH Message.zero (atTop Message.zero).maxTextLineLength = some 3 := by
    decide +kernel
  have hheader : (atTop Message.zero).HeaderInBounds noPseudo := ⟨[], by decide +kernel, fun _ hne => absurd rfl hne⟩
  obtain ⟨height, hcalc, hiff⟩ := @printMessage_shows_iff (atTop Message.zero) [] noPseudo MAX_MSG_LENGTH hasText_zero
    (by decide) (Nat.le_refl _)
  obtain rfl : height = 3 := Option.some.inj (hcalc.symm.trans hcounted)
  exact (hiff (by decide) (by decide)).2.2 ⟨hheader, rfl⟩

/-- The message `a`. -/
def oneLetter : Message := { Message.zero with msgLength := 1, msg := overlay Message.zero.msg [97] }

/-- The letter stands on the row 6, and the row 5 is returned. -/
theorem printMessage_returns_before_last :
    HasText oneLetter [97] ∧ calcOneMsgTotHeight 2 oneLetter (atTop oneLetter).maxTextLineLength = some 4 ∧
      (printMessage 2 noPseudo (atTop oneLetter)).toOption.map (fun r => (r.row, content r.written 6)) =
        some (5, ascii ">a") ∧
      ¬ ∃ r, printMessage 2 noPseudo (atTop oneLetter) = .ok r ∧ r.row = (atTop oneLetter).y + 4 - 1 := by
  have hrow : (printMessage 2 noPseudo (atTop oneLetter)).toOption.map (fun r => (r.row, content r.written 6)) =
      some (5, ascii ">a") := by
    decide +kernel
  refine ⟨⟨by decide +kernel, rfl⟩, by decide +kernel, hrow, fun ⟨r, hr, hlast⟩ => ?_⟩
  rw [hr] at hrow
  have hfive : r.row = 5 := congrArg Prod.fst (Option.some.inj hrow)
  rw [hfive] at hlast
  exact absurd hlast (by decide)

end NyanChat.Ansi
