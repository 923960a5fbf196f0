import NyanChat.CodeErrors
import NyanChat.Hashmap
import NyanChat.TcpConnection

/-!
# The server

The message handler of `server.c` on the table of clients, the map from pseudos to indices of that table and the
files with the connection codes.  `time(NULL)` and the contents of uninitialized local messages are arguments; the
messages that a call sends are part of its result.  A call that does not come back or is undefined answers `none`.
-/

namespace NyanChat

abbrev NB_MAX_CONNECTED_CLIENTS : ℕ := 196

/-- In seconds. -/
def TIMEOUT_INACTIVE : Int := 30

def PATH_SRV_CODES : List UInt8 := ascii "pseudo_code_server/"

def ERROR_MSG_CON_DIFF_KEYS : List UInt8 := ascii "Error: this pseudo already has another connection code"

def ERROR_MSG_STILL_ACTIVE_CLIENT : List UInt8 := ascii "Error: you still have an active session"

def ERROR_ALREADY_MAX_CLIENTS : List UInt8 := ascii "Error: already max clients connected!"

structure Client where
  connected : Bool
  pseudo : Vector UInt8 MAX_NAME_LENGTH
  lastActivity : Int
  idPollSocketProxy : Int32
deriving DecidableEq

structure ServerState where
  clients : Vector (Option Client) NB_MAX_CONNECTED_CLIENTS
  hmPseudoToId : Hashmap
  /-- The files under `PATH_SRV_CODES`, by their path.  Two paths are two files here, and the calls on them do not
  fail; on a disk this is so for the pseudos without a slash. -/
  codes : List UInt8 → Option (List UInt8)

/-- The answers of `time(NULL)` when the activity of a client is checked and when it is stored. -/
structure Clock where
  check : Int
  store : Int

/-- What the local messages of the handlers hold before they are initialized. -/
structure Locals where
  errorMsg : Message
  connectedMsg : Message
  ack : Message
  newMsg : Message

/-- A message sent on a socket. -/
structure Sent where
  sock : Int
  msg : Message

def createClient (pseudo : List UInt8) (idPollSocket : Int32) (now : Int) : Client where
  connected := false
  pseudo := overlay (Vector.replicate _ 0) (pseudo ++ [0])
  lastActivity := now
  idPollSocketProxy := idPollSocket

/-- The state of a server that starts with the given files. -/
def initServerState (codes : List UInt8 → Option (List UInt8)) : Option ServerState :=
  (hashmapCreate (UInt32.ofNat (NB_MAX_CONNECTED_CLIENTS * 2))).map fun hm =>
    { clients := Vector.replicate _ none, hmPseudoToId := hm, codes := codes }

def ServerState.setClient (s : ServerState) (i : Fin NB_MAX_CONNECTED_CLIENTS) (c : Client) : ServerState :=
  { s with clients := s.clients.set i (some c) }

/-! ### Replies -/

def genPositiveAckFromMsg (msg ack : Message) : Message :=
  { initEmptyMessage ack with
    msgType := MSG_ACK_POS
    msgId := msg.msgId
    proxyClientSocket := msg.proxyClientSocket
    nbRetransmission := msg.nbRetransmission }

def genNegativeAckFromMsg (msg ack : Message) : Message :=
  { initEmptyMessage ack with
    msgType := MSG_ACK_NEG
    msgId := msg.msgId
    proxyClientSocket := msg.proxyClientSocket
    nbRetransmission := msg.nbRetransmission + 1 }

/-- The error message with one of the texts above, which all fit into a message. -/
def errorReply (text : List UInt8) (msg errorMsg : Message) : Message :=
  { initEmptyMessage errorMsg with
    msgType := MSG_ERROR
    proxyClientSocket := msg.proxyClientSocket
    msg := overlay errorMsg.msg (text ++ [0]) }

def connectedReply (msg connectedMsg : Message) : Message :=
  { initEmptyMessage connectedMsg with
    msgType := MSG_WELL_CONNECTED
    proxyClientSocket := msg.proxyClientSocket }

/-- The copy that `broadcast_msg_to_all_connected_clients` makes of a message. -/
def broadcastCopy (msg newMsg : Message) : Option Message := do
  let text ← cstr msg.msg
  let pseudo ← cstr msg.srcPseudo
  let newMsg := initEmptyMessage newMsg
  return { newMsg with
    msg := overlay newMsg.msg (text ++ [0])
    msgLength := msg.msgLength
    msgType := MSG_SERVER_CLIENT
    srcPseudo := overlay newMsg.srcPseudo (pseudo ++ [0]) }

/-- The message for the client at one index of the table. -/
def copyFor (proxySock : Int) (copy : Message) : Option Client → Option Sent
  | some c => if c.connected then some ⟨proxySock, { copy with proxyClientSocket := c.idPollSocketProxy }⟩ else none
  | none => none

def broadcastMsgToAllConnectedClients (s : ServerState) (proxySock : Int) (msg newMsg : Message) :
    Option (List Sent) :=
  (broadcastCopy msg newMsg).map fun copy => s.clients.toList.filterMap (copyFor proxySock copy)

/-! ### Connections -/

/-- The search for the client of a pseudo, which removes a binding without client. -/
def findClient (fuel : ℕ) (s : ServerState) (pseudo : Key) :
    Option (ServerState × Option (Fin NB_MAX_CONNECTED_CLIENTS × Client)) :=
  if hashmapFind s.hmPseudoToId pseudo ≠ -1 then
    let idxClient := (hashmapGet s.hmPseudoToId pseudo).toNat
    let badValue := (hashmapRemove fuel s.hmPseudoToId pseudo).map fun r => ({ s with hmPseudoToId := r.1 }, none)
    if h : idxClient < NB_MAX_CONNECTED_CLIENTS then
      match s.clients[idxClient] with
      | some c => some (s, some (⟨idxClient, h⟩, c))
      | none => badValue
    else badValue
  else some (s, none)

def pathKey (pseudo : List UInt8) : List UInt8 := PATH_SRV_CODES ++ pseudo

/-- The comparison with the stored code and the test of an active session: the text of the refusal, if any. -/
def refusal (clock : Clock) (s : ServerState) (pseudo : List UInt8) (msg : Message) (cli : Option Client) :
    Option (Option (List UInt8)) :=
  match s.codes (pathKey pseudo) with
  | none => some none
  | some foundCode =>
    match strcmpEqual msg.msg.toList foundCode with
    | none => none
    | some false => some (some ERROR_MSG_CON_DIFF_KEYS)
    | some true =>
      match cli with
      | some c =>
        if c.connected ∧ ¬ clock.check - c.lastActivity ≥ TIMEOUT_INACTIVE then
          some (some ERROR_MSG_STILL_ACTIVE_CLIENT)
        else some none
      | none => some none

/-- The first empty index of the table of clients. -/
def emptyIndex (clients : Vector (Option Client) NB_MAX_CONNECTED_CLIENTS) :
    Option (Fin NB_MAX_CONNECTED_CLIENTS) :=
  (List.finRange NB_MAX_CONNECTED_CLIENTS).find? fun i => clients[i].isNone

/-- The client to connect: the known one with its data reset, or a new one.  There is none when the table is full. -/
def takeCare (fuel : ℕ) (clock : Clock) (s : ServerState) (pseudo : List UInt8) (msg : Message) :
    Option (Fin NB_MAX_CONNECTED_CLIENTS × Client) →
      Option (Option (ServerState × Fin NB_MAX_CONNECTED_CLIENTS × Client))
  | some (i, c) =>
    let c := { c with idPollSocketProxy := msg.proxyClientSocket, lastActivity := clock.store }
    some (some (s.setClient i c, i, c))
  | none =>
    match emptyIndex s.clients with
    | none => some none
    | some i =>
      let c := createClient pseudo msg.proxyClientSocket clock.store
      (hashmapInsert fuel s.hmPseudoToId pseudo (UInt32.ofNat i)).map fun r =>
        some ({ s.setClient i c with hmPseudoToId := r.1 }, i, c)

/-- `fwrite(msg->msg, sizeof(char), msg->msg_length, fstorecode)` -/
def storeCode (s : ServerState) (pseudo : List UInt8) (msg : Message) : Option ServerState :=
  if msg.msgLength.toNat ≤ MAX_MSG_LENGTH then
    some { s with codes := Function.update s.codes (pathKey pseudo) (some (msg.msg.toList.take msg.msgLength.toNat)) }
  else none

/-- The branch of `on_msg_received` for `MSG_CONNECTION_CLIENT`. -/
def onConnection (fuel : ℕ) (clock : Clock) (locals : Locals) (sock : Int) (pseudo : List UInt8) (msg : Message)
    (s : ServerState) : Option (ServerState × List Sent) := do
  let (s, cli) ← findClient fuel s pseudo
  match ← refusal clock s pseudo msg (cli.map Prod.snd) with
  | some text => return (s, [⟨sock, errorReply text msg locals.errorMsg⟩])
  | none =>
    match ← takeCare fuel clock s pseudo msg cli with
    | none => return (s, [⟨sock, errorReply ERROR_ALREADY_MAX_CLIENTS msg locals.errorMsg⟩])
    | some (s, i, c) =>
      let s ← storeCode s pseudo msg
      return (s.setClient i { c with connected := true }, [⟨sock, connectedReply msg locals.connectedMsg⟩])

/-! ### Texts -/

/-- What a call of `on_msg_received` leaves: the state, the messages it sent and the message it was given. -/
structure Handled where
  state : ServerState
  sent : List Sent
  msg : Message

/-- The branch of `on_msg_received` for `MSG_STD_CLIENT_SERVER`, with the syndrome table `S`.  The client that is
looked up is not used. -/
def onText (S : Syndromes) (fuel : ℕ) (locals : Locals) (sock : Int) (pseudo : List UInt8) (msg : Message)
    (s : ServerState) : Option Handled := do
  let (s, _) ← findClient fuel s pseudo
  let (msg, rc) ← codeCorrectError S msg
  -- a text that was sent too often is accepted as it is
  if rc = 0 ∨ msg.nbRetransmission > 5 then
    let ack := ⟨sock, genPositiveAckFromMsg msg locals.ack⟩
    if msg.dstFlag = MSG_FLAG_DEFAULT_CHANNEL then
      let copies ← broadcastMsgToAllConnectedClients s sock msg locals.newMsg
      return ⟨s, ack :: copies, msg⟩
    else return ⟨s, [ack], msg⟩
  else return ⟨s, [⟨sock, genNegativeAckFromMsg msg locals.ack⟩], msg⟩

def onMsgReceived (S : Syndromes) (fuel : ℕ) (clock : Clock) (locals : Locals) (sock : Int) (msg : Message)
    (s : ServerState) : Option Handled := do
  let pseudo ← cstr msg.srcPseudo
  if pseudo.length < MIN_NAME_LENGTH then return ⟨s, [], msg⟩
  else if msg.msgType = MSG_CONNECTION_CLIENT then
    let (s, sent) ← onConnection fuel clock locals sock pseudo msg s
    return ⟨s, sent, msg⟩
  else if msg.msgType = MSG_STD_CLIENT_SERVER then onText S fuel locals sock pseudo msg s
  else return ⟨s, [], msg⟩

/-- `on_stdin_server`: whether the connection is to be ended. -/
def onStdinServer (msg : List UInt8) : Option Bool := strcmpEqual msg (ascii "/quit" ++ [0])

end NyanChat
