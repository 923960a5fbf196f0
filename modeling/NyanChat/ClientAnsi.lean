import NyanChat.Client

/-!
# The client in the terminal

What `client_ansi.c` adds to the handlers of a client: its line editor, which collects the keys of a line in `input`,
and the array of the messages received from the default channel.  The drawing on the terminal is left out.  The
contents of the memory that `realloc` adds are arguments.  A function answers `none` when the program exits, or
accesses an array outside its bounds.
-/

namespace NyanChat.Ansi

abbrev FOCUS_INPUT : Int := 0

/-! ### Keys -/

/-- The first byte of a key of several bytes. -/
def ESCAPE : UInt8 := 0x1b

def SPECIAL_CHAR_ARROW : UInt8 := 65

def ARROW_TOP : UInt8 := 116

def ARROW_BOTTOM : UInt8 := 98

def ARROW_LEFT : UInt8 := 108

def ARROW_RIGHT : UInt8 := 114

def SPECIAL_CHAR_KEYS : UInt8 := 75

def K_DELETE : UInt8 := 115

def K_ENTER : UInt8 := 101

def K_BACKSPACE : UInt8 := 98

/-- `CTRL_KEY('q')` -/
def CTRL_KEY_Q : UInt8 := 113 &&& 0x1f

/-! ### The state -/

structure AnsiState where
  client : ClientState
  /-- The `tot_msgs_default_channel` slots. -/
  msgsDefaultChannel : List Message
  nbMsgsDefaultChannel : ℕ
  userFocus : Int
  dispMsgsCursor : Int
  input : Vector UInt8 MAX_MSG_LENGTH
  inputLength : Int
  inputCursor : Int

def initCstate (codes : List UInt8 → Option (List UInt8)) : AnsiState where
  client := initClientState codes
  msgsDefaultChannel := List.replicate 10 (initEmptyMessage Message.zero)
  nbMsgsDefaultChannel := 0
  userFocus := FOCUS_INPUT
  dispMsgsCursor := 0
  input := Vector.replicate _ 0
  inputLength := 0
  inputCursor := 0

/-- The conversion to `size_t`. -/
def sizeT (x : Int) : ℕ := (x % 2 ^ 64).toNat

/-- `a[i]` -/
def getAt {n : ℕ} (a : Vector UInt8 n) (i : Int) : Option UInt8 := if 0 ≤ i then a[i.toNat]? else none

/-- `a[i] = b` -/
def setAt {n : ℕ} (a : Vector UInt8 n) (i : Int) (b : UInt8) : Option (Vector UInt8 n) :=
  if h : 0 ≤ i ∧ i.toNat < n then some (a.set i.toNat b h.2) else none

/-! ### The messages of the default channel -/

/-- One doubling of the array. -/
def growDefaultChannel (memory : ℕ → Message) (c : AnsiState) : AnsiState :=
  { c with
    msgsDefaultChannel := c.msgsDefaultChannel ++
      (List.range c.msgsDefaultChannel.length).map fun i => initEmptyMessage (memory i) }

@[simp] theorem growDefaultChannel_nb (memory : ℕ → Message) (c : AnsiState) :
    (growDefaultChannel memory c).nbMsgsDefaultChannel = c.nbMsgsDefaultChannel := rfl

/-- The array is doubled until there is a slot for a message. -/
def roomDefaultChannel (memory : ℕ → Message) : ℕ → AnsiState → Option AnsiState
  | 0, _ => none
  | fuel + 1, c =>
    if c.nbMsgsDefaultChannel ≥ c.msgsDefaultChannel.length then
      roomDefaultChannel memory fuel (growDefaultChannel memory c)
    else some c

/-- The state with a message in the next slot; the cursor goes from the newest message to the new one. -/
def AnsiState.store (c : AnsiState) (msg : Message) : AnsiState :=
  { c with
    msgsDefaultChannel := c.msgsDefaultChannel.set c.nbMsgsDefaultChannel msg
    dispMsgsCursor :=
      if sizeT c.dispMsgsCursor = sizeT (c.nbMsgsDefaultChannel - 1) then c.dispMsgsCursor + 1 else c.dispMsgsCursor
    nbMsgsDefaultChannel := c.nbMsgsDefaultChannel + 1 }

def onReceivedMessageDefaultChannel (fuel : ℕ) (memory : ℕ → Message) (c : AnsiState) (msg : Message) :
    Option AnsiState := do
  let c ← roomDefaultChannel memory fuel c
  let slot ← c.msgsDefaultChannel[c.nbMsgsDefaultChannel]?
  let copy ← copyMessage slot msg
  return c.store copy

/-- `input_length = 0; input_cursor = 0; input[0] = '\0';` -/
def AnsiState.clearInput (c : AnsiState) : AnsiState :=
  { c with input := c.input.set 0 0, inputLength := 0, inputCursor := 0 }

/-- `on_msg_client`, with the handler of `client.c` for what both clients do with a message. -/
def onMsgClient (fuel : ℕ) (memory : ℕ → Message) (c : AnsiState) (msg : Message) :
    Option (AnsiState × List Message) := do
  let (client, sent) ← NyanChat.onMsgClient c.client msg
  let c' := { c with client := client }
  if c.client.waitingPseudoConfirmation then
    return (if msg.msgType = MSG_WELL_CONNECTED then c'.clearInput else c', sent)
  else if c.client.connected ∧ msg.msgType = MSG_SERVER_CLIENT ∧ msg.dstFlag = MSG_FLAG_DEFAULT_CHANNEL then
    let c' ← onReceivedMessageDefaultChannel fuel memory c' msg
    return (c', sent)
  else return (c', sent)

/-! ### The line editor -/

/-- `for (i = start; i < input_length - 1; i++) input[i] = input[i+1];` -/
def shiftLeft (input : Vector UInt8 MAX_MSG_LENGTH) (start inputLength : Int) :
    Option (Vector UInt8 MAX_MSG_LENGTH) :=
  (List.range (inputLength - 1 - start).toNat).foldlM
    (fun input (i : ℕ) => (getAt input (start + i + 1)).bind (setAt input (start + i))) input

/-- `for (i = start; i < input_length; i++) input[i+1] = input[i];` -/
def shiftRight (input : Vector UInt8 MAX_MSG_LENGTH) (start inputLength : Int) :
    Option (Vector UInt8 MAX_MSG_LENGTH) :=
  (List.range (inputLength - start).toNat).foldlM
    (fun input (i : ℕ) => (getAt input (start + i)).bind (setAt input (start + i + 1))) input

def onArrow (c : AnsiState) (key : UInt8) : AnsiState :=
  if key = ARROW_LEFT then
    if c.inputCursor > 0 then { c with inputCursor := c.inputCursor - 1 } else c
  else if key = ARROW_RIGHT then
    if c.inputCursor < c.inputLength then { c with inputCursor := c.inputCursor + 1 } else c
  else if key = ARROW_BOTTOM then
    if sizeT c.dispMsgsCursor < sizeT (c.nbMsgsDefaultChannel - 1) then
      { c with dispMsgsCursor := c.dispMsgsCursor + 1 }
    else c
  else if key = ARROW_TOP then
    if c.dispMsgsCursor > 0 then { c with dispMsgsCursor := c.dispMsgsCursor - 1 } else c
  else c

def onBackspace (c : AnsiState) : Option AnsiState :=
  if c.inputCursor > 0 then do
    let input ← shiftLeft c.input (c.inputCursor - 1) c.inputLength
    let input ← setAt input (c.inputLength - 1) 0
    return { c with input := input, inputCursor := c.inputCursor - 1, inputLength := c.inputLength - 1 }
  else some c

def onDelete (c : AnsiState) : Option AnsiState :=
  if c.inputLength - c.inputCursor > 0 then do
    let input ← shiftLeft c.input c.inputCursor c.inputLength
    let input ← setAt input (c.inputLength - 1) 0
    return { c with input := input, inputLength := c.inputLength - 1 }
  else some c

/-- A byte that starts no key of several bytes is written at the cursor. -/
def onCharacter (c : AnsiState) (b : UInt8) : Option AnsiState :=
  if c.inputLength ≥ (MAX_MSG_LENGTH : Int) - 1 then some c
  else do
    -- behind the text there is nothing to shift
    let input ← if c.inputCursor = c.inputLength then some c.input else shiftRight c.input c.inputCursor c.inputLength
    let input ← setAt input c.inputCursor b
    let input ← setAt input (c.inputLength + 1) 0
    return { c with input := input, inputCursor := c.inputCursor + 1, inputLength := c.inputLength + 1 }

/-- `client_process_input_message` on the line, which is then empty. -/
def onEnter (rands : ℕ → ℕ) (memory : ℕ → Message) (c : AnsiState) : Option (AnsiState × List Message) :=
  (NyanChat.onStdinClient rands memory c.client c.input.toList c.inputLength.toNat).map fun r =>
    (AnsiState.clearInput { c with client := r.1 }, r.2)

/-- What a key leaves: the state, the messages sent and whether the program is to end. -/
structure Pressed where
  state : AnsiState
  sent : List Message
  endConnection : Bool

/-- What a key does in the line editor. -/
def onInput (rands : ℕ → ℕ) (memory : ℕ → Message) (c : AnsiState) (b₀ b₁ b₂ : UInt8) :
    Option (AnsiState × List Message) :=
  if b₀ = ESCAPE then
    if b₁ = SPECIAL_CHAR_ARROW then some (onArrow c b₂, [])
    else if b₁ = SPECIAL_CHAR_KEYS then
      if b₂ = K_ENTER then onEnter rands memory c
      else if b₂ = K_BACKSPACE then (onBackspace c).map fun c => (c, [])
      else if b₂ = K_DELETE then (onDelete c).map fun c => (c, [])
      else some (c, [])
    else some (c, [])
  else (onCharacter c b₀).map fun c => (c, [])

def onStdinClient (rands : ℕ → ℕ) (memory : ℕ → Message) (c : AnsiState) (buffer : Vector UInt8 MAX_MSG_LENGTH)
    (bufLen : ℕ) : Option Pressed :=
  if bufLen = 0 then some ⟨c, [], false⟩
  else
    let pressed := if c.userFocus = FOCUS_INPUT then onInput rands memory c buffer[0] buffer[1] buffer[2]
      else some (c, [])
    pressed.map fun r => ⟨r.1, r.2, buffer[0] = CTRL_KEY_Q⟩

end NyanChat.Ansi
