import NyanChat.TcpConnection

/-!
# The client

The handlers of `client.c`, which `client_ansi.c` repeats for its own line editor: what a line of input and a received
message do to the state of a client, and the messages that are sent.  A line is given by its buffer and its length,
for `client_ansi.c` by `input` and `input_length`.  The results of `rand()` and the contents of the memory that
`realloc` adds are arguments.  A function answers `none` when the program exits, or accesses an array outside its
bounds.
-/

namespace NyanChat

def PATH_CLI_CODES : List UInt8 := ascii "pseudo_code_clients/"

structure ClientState where
  pseudo : Vector UInt8 MAX_NAME_LENGTH
  connected : Bool
  waitingPseudoConfirmation : Bool
  typeCurrentDest : Int32
  destination : Vector UInt8 MAX_NAME_LENGTH
  /-- The `tot_msg_waiting_ack` slots. -/
  msgWaitingAck : List Message
  nbMsgWaitingAck : ℕ
  /-- The files under `PATH_CLI_CODES`, by their path.  Two paths are two files here, and the calls on them do not
  fail; on a disk this is so for the pseudos without a slash. -/
  codes : List UInt8 → Option (List UInt8)

/-- A client that starts with the given files. -/
def initClientState (codes : List UInt8 → Option (List UInt8)) : ClientState where
  pseudo := Vector.replicate _ 0
  connected := false
  waitingPseudoConfirmation := false
  typeCurrentDest := MSG_FLAG_DEFAULT_CHANNEL
  destination := Vector.replicate _ 0
  msgWaitingAck := List.replicate 10 { Message.zero with msgType := -1 }
  nbMsgWaitingAck := 0
  codes := codes

/-- A code of printable characters. -/
def generateRandomCode (rands : ℕ → ℕ) (codeLength : ℕ) : List UInt8 :=
  (List.range (codeLength - 1)).map (fun i => UInt8.ofNat (32 + rands i % 82)) ++ [0]

/-! ### Sending -/

/-- The slots after `realloc`, when all are in use. -/
def growWaiting (memory : ℕ → Message) (c : ClientState) : ClientState :=
  { c with
    msgWaitingAck := c.msgWaitingAck ++
      (List.range c.msgWaitingAck.length).map fun i => { memory i with msgType := MSG_NULL } }

def findNextMsgId (memory : ℕ → Message) (c : ClientState) : Option (ClientState × ℕ) :=
  if c.nbMsgWaitingAck = c.msgWaitingAck.length then
    let firstFree := c.msgWaitingAck.length
    let c := growWaiting memory c
    ((c.msgWaitingAck.drop firstFree).findIdx? fun m => m.msgType = MSG_NULL).map fun i => (c, firstFree + i)
  else (c.msgWaitingAck.findIdx? fun m => m.msgType = MSG_NULL).map fun i => (c, i)

/-- The text as it is written into the slot `idNewMsg`. -/
def textSlot (c : ClientState) (idNewMsg : ℕ) (slot : Message) (buffer : List UInt8) (msgLen : ℕ) :
    Option Message := do
  let srcPseudo ← strcpy slot.srcPseudo (← cstr c.pseudo)
  let dst ← strcpy slot.dst (← cstr c.destination)
  let msg ← strcpy slot.msg (← stringIn buffer)
  return { slot with
    msgType := MSG_STD_CLIENT_SERVER
    msgId := Int32.ofNat idNewMsg
    srcPseudo := srcPseudo
    dstFlag := c.typeCurrentDest
    dst := dst
    proxyClientSocket := MSG_NULL
    msg := msg
    msgLength := UInt32.ofNat msgLen }

/-- A slot that is sent, and kept until its acknowledgment. -/
def ClientState.wait (c : ClientState) (id : ℕ) (m : Message) : ClientState :=
  { c with msgWaitingAck := c.msgWaitingAck.set id m, nbMsgWaitingAck := c.nbMsgWaitingAck + 1 }

def clientSendMessage (memory : ℕ → Message) (c : ClientState) (buffer : List UInt8) (msgLen : ℕ) :
    Option (ClientState × List Message) := do
  let (c, idNewMsg) ← findNextMsgId memory c
  let slot ← c.msgWaitingAck[idNewMsg]?
  let m ← textSlot c idNewMsg slot buffer msgLen
  return (c.wait idNewMsg m, [m])

/-! ### Connecting -/

/-- The code of a pseudo: a new one is stored, a stored one must have the right length.  The calls of the files do not
fail here; where they do, on a disk, the program exits before. -/
def connectionCode (rands : ℕ → ℕ) (c : ClientState) (path : List UInt8) : Option (ClientState × List UInt8) :=
  match c.codes path with
  | none =>
    let code := generateRandomCode rands CODE_LENGTH
    some ({ c with codes := Function.update c.codes path (some code) }, code)
  | some code => if code.length = CODE_LENGTH then some (c, code) else none

def connectionSlot (slot : Message) (pseudo code : List UInt8) : Option Message := do
  let srcPseudo ← strcpy (initEmptyMessage slot).srcPseudo pseudo
  let msg ← strcpy slot.msg (← stringIn code)
  return { initEmptyMessage slot with
    msgType := MSG_CONNECTION_CLIENT
    msgId := 0
    srcPseudo := srcPseudo
    msg := msg
    msgLength := UInt32.ofNat CODE_LENGTH }

/-- The connection request for the pseudo in a buffer. -/
def requestConnection (rands : ℕ → ℕ) (c : ClientState) (buffer : List UInt8) :
    Option (ClientState × List Message) := do
  let text ← stringIn buffer
  let pseudo ← strcpy c.pseudo text
  let (c, code) ← connectionCode rands { c with pseudo := pseudo } (PATH_CLI_CODES ++ text)
  let slot ← c.msgWaitingAck[0]?
  let m ← connectionSlot slot text code
  return ({ c.wait 0 m with waitingPseudoConfirmation := true }, [m])

/-- `on_stdin_client` of `client.c`, and `client_process_input_message` of `client_ansi.c`. -/
def onStdinClient (rands : ℕ → ℕ) (memory : ℕ → Message) (c : ClientState) (buffer : List UInt8) (msgLen : ℕ) :
    Option (ClientState × List Message) :=
  match cstr c.pseudo with
  | none => none
  | some [] =>
    if c.waitingPseudoConfirmation ∨ msgLen < MIN_NAME_LENGTH then some (c, [])
    else requestConnection rands c buffer
  | some _ => if c.connected then clientSendMessage memory c buffer msgLen else some (c, [])

/-! ### Receiving -/

/-- The waiting message that an acknowledgment is about, after the test of a bad one. -/
def acknowledged (c : ClientState) (msg : Message) : Option (Option (ℕ × Message)) :=
  if msg.msgId < 0 ∨ c.nbMsgWaitingAck < msg.msgId.toNatClampNeg then some none
  else (c.msgWaitingAck[msg.msgId.toNatClampNeg]?).map fun slot =>
    if slot.msgType = MSG_NULL then none else some (msg.msgId.toNatClampNeg, slot)

/-- `init_empty_message(&(cstate->msg_waiting_ack[id]))` -/
def ClientState.clean (c : ClientState) (id : ℕ) (slot : Message) : ClientState :=
  { c with msgWaitingAck := c.msgWaitingAck.set id (initEmptyMessage slot) }

/-- The refusal of a pseudo: its code file and the pseudo are removed, and the message it names is cleaned. -/
def onConnectionError (c : ClientState) (msg : Message) : Option ClientState := do
  let pseudo ← cstr c.pseudo
  let c := { c with
    codes := Function.update c.codes (PATH_CLI_CODES ++ pseudo) none
    pseudo := overlay c.pseudo [0]
    waitingPseudoConfirmation := false }
  if 0 ≤ msg.msgId ∧ msg.msgId.toNatClampNeg < c.nbMsgWaitingAck then
    (c.msgWaitingAck[msg.msgId.toNatClampNeg]?).map fun slot =>
      if slot.msgType = MSG_NULL then c else c.clean msg.msgId.toNatClampNeg slot
  else some c

def onMsgClient (c : ClientState) (msg : Message) : Option (ClientState × List Message) :=
  if c.waitingPseudoConfirmation then
    if msg.msgType = MSG_ERROR then (onConnectionError c msg).map fun c => (c, [])
    else if msg.msgType = MSG_WELL_CONNECTED then
      some ({ c with connected := true, waitingPseudoConfirmation := false }, [])
    else some (c, [])
  else if c.connected then
    if msg.msgType = MSG_ACK_NEG then
      (acknowledged c msg).map fun
        | some (id, slot) =>
          let slot := { slot with nbRetransmission := msg.nbRetransmission }
          ({ c with msgWaitingAck := c.msgWaitingAck.set id slot }, [slot])
        | none => (c, [])
    else if msg.msgType = MSG_ACK_POS then
      (acknowledged c msg).map fun
        | some (id, slot) => (c.clean id slot, [])
        | none => (c, [])
    else some (c, [])
  else some (c, [])

end NyanChat
