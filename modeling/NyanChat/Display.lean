import NyanChat.ClientAnsi
import NyanChat.Library.Loop

/-!
# Drawing the client

The parts of the drawing of `client_ansi.c` that choose what is shown: which part of the typed line
(`displayInputText`), and which of the received messages (`displayLeftPanel`).  What is written to the terminal is a
list of `Drawn`.  A function answers `none` when it accesses an array outside its bounds, or when the fuel of a loop
runs out.
-/

namespace NyanChat.Ansi

def MIN_TERMINAL_WIDTH : Int := 95

def MIN_TERMINAL_HEIGHT : Int := 55

/-- The field `tx` of the shipped `logo_main.txt`, whose lines have 51 characters. -/
def LOGO_MAIN_TX : Int := 52

/-- What is written to the terminal. -/
inductive Drawn
  /-- `set_cursor_position` -/
  | cursorPosition (x y : Int)
  /-- `printf("%s", ...)` -/
  | text (bytes : List UInt8)
  /-- `show_cursor` -/
  | showCursor
deriving DecidableEq

/-! ### The typed line -/

/-- The string at `input + start`. -/
def stringFrom (input : Vector UInt8 MAX_MSG_LENGTH) (start : Int) : Option (List UInt8) :=
  if 0 ≤ start then stringIn (input.toList.drop start.toNat) else none

/-- What `display_input_text` leaves, with the slice of the line that it prints. -/
structure InputDisplay where
  input : Vector UInt8 MAX_MSG_LENGTH
  pStart : Int
  pEnd : Int
  cursorX : Int
  cursorY : Int
  drawn : List Drawn

/-- The slice of a line that is longer than the width `ctx`. -/
def inputWindow (ctx inputLength inputCursor : Int) : Int × Int :=
  if inputCursor ≤ ctx.tdiv 2 then (0, ctx)
  else if inputCursor ≥ inputLength - ctx.tdiv 2 then (inputLength - ctx, inputLength)
  else (inputCursor - ctx.tdiv 2, inputLength + ctx.tdiv 2)

/-- The cursor of the terminal is put on that of the line. -/
def drawnCursor (c : AnsiState) (cursorX cursorY : Int) : List Drawn :=
  if c.userFocus = FOCUS_INPUT then [.cursorPosition cursorX cursorY, .showCursor] else []

def displayInputText (c : AnsiState) (x y maxX : Int) : Option InputDisplay :=
  let ctx := maxX - x
  if c.inputLength ≤ ctx then do
    let text ← stringFrom c.input 0
    let cursorX := x + c.inputCursor
    return ⟨c.input, 0, c.inputLength, cursorX, y, [.cursorPosition x y, .text text] ++ drawnCursor c cursorX y⟩
  else do
    let (pStart, pEnd) := inputWindow ctx c.inputLength c.inputCursor
    let pCurs := c.inputCursor - pStart
    -- the slice is ended by a NUL while it is printed
    let tmp ← getAt c.input pEnd
    let ended ← setAt c.input pEnd 0
    let text ← stringFrom ended pStart
    let input ← setAt ended pEnd tmp
    let cursorX := x + pCurs
    return ⟨input, pStart, pEnd, cursorX, y, [.cursorPosition x y, .text text] ++ drawnCursor c cursorX y⟩

/-! ### The received messages -/

/-- The client with the heights of its messages, in an array that grows with that of the messages. -/
structure PanelState where
  state : AnsiState
  heightsMsgsDefaultChannel : List Int

def initPanel (codes : List UInt8 → Option (List UInt8)) : PanelState :=
  ⟨initCstate codes, List.replicate 10 0⟩

def growPanel (memory : ℕ → Message) (p : PanelState) : PanelState :=
  ⟨growDefaultChannel memory p.state,
    p.heightsMsgsDefaultChannel ++ List.replicate p.state.msgsDefaultChannel.length 0⟩

def roomPanel (memory : ℕ → Message) : ℕ → PanelState → Option PanelState
  | 0, _ => none
  | fuel + 1, p =>
    if p.state.nbMsgsDefaultChannel ≥ p.state.msgsDefaultChannel.length then
      roomPanel memory fuel (growPanel memory p)
    else some p

/-- `on_received_message_default_channel`, with both arrays. -/
def onReceivedMessagePanel (fuel : ℕ) (memory : ℕ → Message) (p : PanelState) (msg : Message) : Option PanelState := do
  let p ← roomPanel memory fuel p
  let slot ← p.state.msgsDefaultChannel[p.state.nbMsgsDefaultChannel]?
  let copy ← copyMessage slot msg
  return { p with state := p.state.store copy }

/-- The size of the terminal, and the field `tx` of `logo_main`. -/
structure Screen where
  winWidth : Int
  winHeight : Int
  logoMainTx : Int

abbrev panelXStart : Int := 3

abbrev panelYStart : Int := 3

namespace Screen

variable (s : Screen)

def xBarriereTop : Int := s.winWidth - s.logoMainTx - 1

def yBarriereBottom : Int := s.winHeight - 4

def panelXEnd : Int := s.xBarriereTop - 1

def panelYEnd : Int := s.yBarriereBottom - 2

def panelWidth : Int := s.panelXEnd - panelXStart

def panelHeight : Int := s.panelYEnd - panelYStart

end Screen

abbrev spacesBetweenMsgs : Int := 1

/-- A turn of the loop over the lines of a text, on the index of the line and the height. -/
def lineTurn (msgLength maxTextLineLength : Int) (t : Int × Int) : (Int × Int) × Bool :=
  if msgLength - t.1 > maxTextLineLength then ((t.1 + maxTextLineLength, t.2 + 1), false) else (t, true)

/-- The number of rows on which a message is shown. -/
def calcOneMsgTotHeight (fuel : ℕ) (msg : Message) (maxTextLineLength : Int) : Option Int := do
  let (i, height) ← Loop.turns (lineTurn msg.msgLength.toInt32.toInt maxTextLineLength) fuel (0, 3)
  -- the difference is unsigned
  return if ((msg.msgLength.toNat : Int) - i) % 2 ^ 32 > 0 then height + 1 else height

def calcMsgsTotHeight (fuel : ℕ) (p : PanelState) (totWidth : Int) : Option PanelState := do
  let heights ← (List.range p.state.nbMsgsDefaultChannel).foldlM (fun (heights : List Int) j => do
    let msg ← p.state.msgsDefaultChannel[j]?
    let height ← calcOneMsgTotHeight fuel msg (totWidth - 3)
    if j < heights.length then some (heights.set j height) else none) p.heightsMsgsDefaultChannel
  return { p with heightsMsgsDefaultChannel := heights }

/-- `heights[i]` -/
def heightAt (heights : List Int) (i : Int) : Option Int := if 0 ≤ i then heights[i.toNat]? else none

def sumHeights (heights : List Int) (ids : List ℕ) : Option Int :=
  ids.foldlM (fun sum (i : ℕ) => (heightAt heights i).map (sum + ·)) 0

/-- The loop that goes down the panel from `cy` until it is full. -/
def lastDisplayed (heights : List Int) (panelWidth : Int) (ids : List ℕ) (cy : Int) : Option (Int × Option ℕ) :=
  Loop.scan (fun cy (i : ℕ) => (heightAt heights i).map fun h => cy + h + spacesBetweenMsgs)
    (fun cy => decide (cy > panelWidth)) ids cy

/-- The loop that goes up the panel from `y₀` to its top. -/
def firstDisplayed (heights : List Int) (ids : List ℕ) (y₀ : Int) : Option (Int × Option ℕ) :=
  Loop.scan (fun y₀ (i : ℕ) => (heightAt heights i).map fun h => y₀ - h - spacesBetweenMsgs)
    (fun y₀ => decide (y₀ ≤ 0)) ids y₀

/-- Where the first message is drawn, and which messages are. -/
structure MsgWindow where
  y₀ : Int
  idFirstMsgDisp : Int
  idLastMsgDisp : Int
deriving DecidableEq

/-- The index of a message, or `-1`. -/
def idOr (id : Option ℕ) (other : Int) : Int := (id.map Int.ofNat).getD other

def msgWindow (s : Screen) (heights : List Int) (nb : ℕ) (cursor : Int) : Option MsgWindow := do
  let cmh ← heightAt heights cursor
  let before := List.range cursor.toNat
  let behind := List.range' (sizeT (cursor + 1)) (nb - sizeT (cursor + 1))
  let sumPre ← sumHeights heights before
  let sumPost ← sumHeights heights behind
  if sumPre + cmh < s.panelHeight.tdiv 2 then do
    let (_, last) ← lastDisplayed heights s.panelWidth (List.range nb) 0
    return ⟨0, 0, idOr last (nb - 1)⟩
  else if sumPost + cmh < s.panelHeight.tdiv 2 then do
    let (y₀, first) ← firstDisplayed heights (List.range nb).reverse s.panelHeight
    return ⟨y₀, idOr first 0, nb - 1⟩
  else do
    let cy := s.panelHeight.tdiv 2 - cmh.tdiv 2
    -- a message before all of which there is room leaves the index `-1`
    let (y₀, first) ← firstDisplayed heights before.reverse cy
    let (_, last) ← lastDisplayed heights s.panelWidth behind (cy + cmh)
    return ⟨y₀, idOr first (-1), idOr last (nb - 1)⟩

/-- A call of `print_message` for a message of the array. -/
structure PrintedMessage where
  id : ℕ
  msg : Message
  x : Int
  y : Int
  maxX : Int
  minYShow : Int
  maxYShow : Int
  hover : Bool
deriving DecidableEq

/-- The messages from the first to the last one of the window. -/
def printMessages (s : Screen) (p : PanelState) (w : MsgWindow) : Option (List PrintedMessage) := do
  let ids := (List.range (w.idLastMsgDisp - w.idFirstMsgDisp + 1).toNat).map fun (i : ℕ) => w.idFirstMsgDisp + i
  let (_, printed) ← ids.foldlM (fun (cy, printed) (i : Int) => do
    let height ← heightAt p.heightsMsgsDefaultChannel i
    let msg ← p.state.msgsDefaultChannel[i.toNat]?
    return (cy + height + spacesBetweenMsgs, printed ++ [(⟨i.toNat, msg, panelXStart, cy, s.panelXEnd,
      panelYStart, s.panelYEnd, i = p.state.dispMsgsCursor⟩ : PrintedMessage)]))
    (panelYStart + w.y₀, [])
  return printed

/-- What `display_left_panel` leaves and draws. -/
structure PanelDisplay where
  panel : PanelState
  window : MsgWindow
  printed : List PrintedMessage

def displayLeftPanel (fuel : ℕ) (s : Screen) (p : PanelState) : Option PanelDisplay :=
  if p.state.client.typeCurrentDest = MSG_FLAG_DEFAULT_CHANNEL then
    if p.state.nbMsgsDefaultChannel = 0 then some ⟨p, ⟨0, 0, 0⟩, []⟩
    else do
      let p ← calcMsgsTotHeight fuel p s.panelWidth
      let w ← msgWindow s p.heightsMsgsDefaultChannel p.state.nbMsgsDefaultChannel p.state.dispMsgsCursor
      let printed ← printMessages s p w
      return ⟨p, w, printed⟩
  else some ⟨p, ⟨0, 0, 0⟩, []⟩

end NyanChat.Ansi
