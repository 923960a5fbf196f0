import NyanChat.Wire

/-!
# Polled connections

The functions of `tcp_connection.c` that work on the poll table: the initialization of a connection, the
acceptance of new clients, the reading of a socket, the compression of the table, the main loop and the closing.
What the system calls answer (`poll`, `accept`, `recv`, `read`) is given to a function as a list or a function of the
table index; a list that ends stands for `EWOULDBLOCK`.  The calls that open and close sockets and the calls of
`on_msg` are logged.  A function answers `none` when it does not come back or accesses the table outside its bounds.
-/

namespace NyanChat

abbrev MAX_POLL_SOCKETS : ℕ := 200

abbrev POLLIN : Int := 1

abbrev stdinFd : Int := 0

inductive ConnectionType
  | server
  | client
  | proxyServerSide
  | proxyClientsSide
deriving DecidableEq

structure SockaddrIn where
  sinFamily : UInt16
  sinPort : UInt16
  sAddr : UInt32
deriving DecidableEq

/-- A registered descriptor with its address and the length of that. -/
structure Peer where
  fd : Int
  addr : SockaddrIn
  adLen : ℕ
deriving DecidableEq

/-- One index of the arrays `poll_fds`, `poll_addrs` and `poll_ad_len`. -/
structure PollSocket extends Peer where
  events : Int
deriving DecidableEq

structure TcpConnection where
  sockfd : Int
  poll : Vector PollSocket MAX_POLL_SOCKETS
  nbPollFds : ℕ
  msg : Message
  typeConnection : ConnectionType
  endConnection : Bool
  needCompressPollArr : Bool

/-- An index after `memset`. -/
def PollSocket.zero : PollSocket := { fd := 0, addr := ⟨0, 0, 0⟩, adLen := 0, events := 0 }

/-- A listening connection on `sockfd`; `msg` is what the structure held before. -/
def tcpConnectionServerInit (type : ConnectionType) (sockfd : Int) (msg : Message) : TcpConnection where
  sockfd := sockfd
  poll := ((Vector.replicate _ PollSocket.zero).set 0 { PollSocket.zero with fd := sockfd, events := POLLIN }).set 1
    { PollSocket.zero with fd := stdinFd, events := POLLIN }
  nbPollFds := 2
  msg := initEmptyMessage msg
  typeConnection := type
  endConnection := false
  needCompressPollArr := false

/-- What a program asks of the system or hands to its `on_msg`. -/
inductive Call
  | accepted (peer : Peer)
  | closed (fd : Int)
  | onMsg (sock : Int) (msg : Message) (msgLen : ℕ)

/-! ### Accepting -/

/-- An answer of `accept` other than `EWOULDBLOCK`. -/
inductive Accept
  | socket (fd : ℕ) (addr : SockaddrIn) (adLen : ℕ)
  | failed

def TcpConnection.register (con : TcpConnection) (peer : Peer) (h : con.nbPollFds < MAX_POLL_SOCKETS) :
    TcpConnection :=
  { con with
    poll := con.poll.set con.nbPollFds { peer with events := POLLIN } h
    nbPollFds := con.nbPollFds + 1 }

/-- The loop of `new_clients_acceptation`.  With a full table it only comes back when `new_sock` is still `-1`. -/
def acceptLoop (newSock : Int) (con : TcpConnection) : List Accept → Option (TcpConnection × List Call)
  | [] => if con.nbPollFds < MAX_POLL_SOCKETS ∨ newSock = -1 then some (con, []) else none
  | .failed :: _ =>
    -- with a full table `accept` is not called any more, and `new_sock` keeps its value
    if con.nbPollFds < MAX_POLL_SOCKETS then some ({ con with endConnection := true }, [])
    else if newSock = -1 then some (con, []) else none
  | .socket fd addr adLen :: rest =>
    if h : con.nbPollFds < MAX_POLL_SOCKETS then
      (acceptLoop fd (con.register ⟨fd, addr, adLen⟩ h) rest).map fun r =>
        (r.1, .accepted ⟨fd, addr, adLen⟩ :: r.2)
    else if newSock = -1 then some (con, []) else none

def newClientsAcceptation (con : TcpConnection) (accepts : List Accept) : Option (TcpConnection × List Call) :=
  acceptLoop (-1) con accepts

/-! ### Compressing -/

/-- `while (last_ok_sock > 0 && poll_fds[last_ok_sock].fd == -1) last_ok_sock--` -/
def lastOkSock (poll : Vector PollSocket MAX_POLL_SOCKETS) : ℕ → Option ℕ
  | 0 => some 0
  | k + 1 =>
    if h : k + 1 < MAX_POLL_SOCKETS then
      if poll[k + 1].fd = -1 then lastOkSock poll k else some (k + 1)
    else none

/-- The entry `last` put at the closed index `i`, and closed itself. -/
def moveSocket (poll : Vector PollSocket MAX_POLL_SOCKETS) (i last : ℕ) (hi : i < MAX_POLL_SOCKETS)
    (hl : last < MAX_POLL_SOCKETS) : Vector PollSocket MAX_POLL_SOCKETS :=
  let moved := poll.set i { poll[last].toPeer with events := poll[i].events } hi
  moved.set last { moved[last] with fd := -1 } hl

/-- The turn `i` of the loop of `compress_poll_socket_array`, on the table and `last_ok_sock`. -/
def compressStep (st : Vector PollSocket MAX_POLL_SOCKETS × ℕ) (i : ℕ) :
    Option (Vector PollSocket MAX_POLL_SOCKETS × ℕ) :=
  if i < st.2 then
    if h : i < MAX_POLL_SOCKETS ∧ st.2 < MAX_POLL_SOCKETS then
      if st.1[i].fd = -1 then
        let poll := moveSocket st.1 i st.2 h.1 h.2
        (lastOkSock poll st.2).map fun last => (poll, last)
      else some st
    else none
  else some st

def compressPollSocketArray (con : TcpConnection) (currentNbPollSocks : ℕ) : Option TcpConnection := do
  -- the search starts at the entry behind the last one
  let last ← lastOkSock con.poll currentNbPollSocks
  let (poll, last) ← (List.range currentNbPollSocks).foldlM compressStep (con.poll, last)
  if poll[0].fd = -1 then return { con with poll := poll, nbPollFds := 0, endConnection := true }
  else return { con with poll := poll, nbPollFds := last + 1 }

/-! ### Reading -/

/-- An answer of `recv` other than `EWOULDBLOCK`. -/
inductive Recv
  | data (bytes : List UInt8)
  | closed
  | failed

/-- The functions of a program that the main loop calls, on the program's own state.  They may change the message
buffer and end the connection; they do not touch the poll table. -/
structure Handlers (σ : Type) where
  onMsg : Int → Message → ℕ → σ → Option (Message × Bool × σ)
  onStdin : Option (List UInt8 → ℕ → σ → Option (Bool × σ))

/-- A connection in its main loop, with the state of its program. -/
structure LoopState (σ : Type) where
  con : TcpConnection
  args : σ
  calls : List Call

variable {σ : Type}

/-- The message buffer after a `recv` on index `idPoll`. -/
def TcpConnection.fill (con : TcpConnection) (idPoll : ℕ) (bytes : List UInt8) : Message :=
  let msg := recvInto con.msg bytes
  if con.typeConnection = .proxyClientsSide then { msg with proxyClientSocket := Int32.ofNat idPoll } else msg

/-- The loop of `read_poll_socket`; the Boolean is `close_conn`. -/
def readLoop (on : Handlers σ) (idPoll : ℕ) (fd : Int) : List Recv → LoopState σ → Option (LoopState σ × Bool)
  | [], st => some (st, false)
  | .closed :: _, st => some (st, true)
  | .failed :: _, st => some (st, true)
  | .data bytes :: rest, st =>
    let msg := st.con.fill idPoll bytes
    match on.onMsg fd msg bytes.length st.args with
    | none => none
    | some (msg', ended, args) =>
      readLoop on idPoll fd rest
        { con := { st.con with msg := msg', endConnection := st.con.endConnection || ended }
          args := args
          calls := st.calls ++ [.onMsg fd msg bytes.length] }

def TcpConnection.close (con : TcpConnection) (idPoll : ℕ) (h : idPoll < MAX_POLL_SOCKETS) : TcpConnection :=
  { con with
    endConnection := con.endConnection || (con.typeConnection = .client || con.typeConnection = .proxyServerSide)
    poll := con.poll.set idPoll { con.poll[idPoll] with fd := -1 } h
    needCompressPollArr := true }

def readPollSocket (on : Handlers σ) (idPoll : ℕ) (h : idPoll < MAX_POLL_SOCKETS) (recvs : List Recv)
    (st : LoopState σ) : Option (LoopState σ) :=
  let fd := st.con.poll[idPoll].fd
  (readLoop on idPoll fd recvs st).map fun r =>
    if r.2 then { r.1 with con := r.1.con.close idPoll h, calls := r.1.calls ++ [.closed fd] } else r.1

/-! ### The main loop -/

/-- What the system has for one index in a turn; `stdin` is `none` when `read` gives nothing. -/
structure Ready where
  revents : Int
  accepts : List Accept
  recvs : List Recv
  stdin : Option (List UInt8)

/-- `buffer[bytes_read - 1] = '\0'` -/
def stdinBuffer (bytes : List UInt8) : List UInt8 := bytes.dropLast ++ [0]

def readStdin (on : Handlers σ) (bytes : List UInt8) (st : LoopState σ) : Option (LoopState σ) :=
  match on.onStdin with
  | none => some st
  | some onStdin =>
    (onStdin (stdinBuffer bytes) bytes.length st.args).map fun r =>
      { st with con := { st.con with endConnection := st.con.endConnection || r.1 }, args := r.2 }

/-- The turn `i` of the loop through the sockets.  The Boolean is true after a `break`. -/
def dispatch (on : Handlers σ) (ready : ℕ → Ready) (st : LoopState σ × Bool) (i : ℕ) :
    Option (LoopState σ × Bool) :=
  if st.2 ∨ (ready i).revents = 0 then some st
  else if (ready i).revents ≠ POLLIN then
    some ({ st.1 with con := { st.1.con with endConnection := true } }, true)
  else if h : i < MAX_POLL_SOCKETS then
    let con := st.1.con
    if (con.typeConnection = .server ∨ con.typeConnection = .proxyClientsSide) ∧ con.poll[i].fd = con.sockfd then
      (newClientsAcceptation con (ready i).accepts).map fun r =>
        ({ st.1 with con := r.1, calls := st.1.calls ++ r.2 }, false)
    else if (con.typeConnection = .client ∨ con.typeConnection = .proxyServerSide) ∧
        con.poll[i].fd = con.sockfd then
      (readPollSocket on i h (ready i).recvs st.1).map (·, false)
    else if con.poll[i].fd = stdinFd then
      -- a read without bytes breaks out of the loop through the sockets
      match (ready i).stdin with
      | none => some (st.1, true)
      | some bytes => (readStdin on bytes st.1).map (·, false)
    else
      (readPollSocket on i h (ready i).recvs st.1).map (·, false)
  else none

/-- The loop of a turn through the sockets that are in the table when `poll` returns. -/
def handleSockets (on : Handlers σ) (ready : ℕ → Ready) (con : TcpConnection) (args : σ) : Option (LoopState σ) :=
  ((List.range con.nbPollFds).foldlM (dispatch on ready) (⟨con, args, []⟩, false)).map Prod.fst

/-- The end of a turn that `poll` began with `currentNbPollSocks` entries. -/
def compressIfNeeded (con : TcpConnection) (currentNbPollSocks : ℕ) : Option TcpConnection :=
  if con.needCompressPollArr then
    compressPollSocketArray { con with needCompressPollArr := false } currentNbPollSocks
  else some con

/-- An answer of `poll`: an error or a timeout, or what is ready. -/
inductive PollAnswer
  | failed
  | ready (ready : ℕ → Ready)

/-- A turn of the main loop after `poll`. -/
def mainloopTurn (on : Handlers σ) (ready : ℕ → Ready) (st : LoopState σ) : Option (LoopState σ) :=
  (handleSockets on ready st.con st.args).bind fun st' =>
    (compressIfNeeded st'.con st.con.nbPollFds).map fun con => ⟨con, st'.args, st.calls ++ st'.calls⟩

/-- `tcp_connection_mainloop` on the answers of `poll`.  The Boolean tells whether the loop was left; otherwise it
waits for the next answer. -/
def tcpConnectionMainloop (on : Handlers σ) : List PollAnswer → LoopState σ → Option (LoopState σ × Bool)
  | [], st => some (st, false)
  | .failed :: _, st => some (st, true)
  | .ready ready :: polls, st =>
    (mainloopTurn on ready st).bind fun st =>
      if st.con.endConnection then some (st, true) else tcpConnectionMainloop on polls st

/-! ### The own connections of the clients and the proxy -/

/-- A connection to a server on `sockfd`, which the proxy gives its type afterwards.  The message is not
initialized. -/
def tcpConnectionClientInit (type : ConnectionType) (sockfd : Int) (msg : Message) : TcpConnection :=
  { tcpConnectionServerInit type sockfd msg with msg := msg }

/-! ### Closing -/

/-- The sockets that `tcp_connection_close` closes.  The program exits at the first one that is not open. -/
def tcpConnectionClose (con : TcpConnection) : List Call :=
  .closed con.sockfd :: ((con.poll.toList.take con.nbPollFds).filter fun s =>
    0 ≤ s.fd ∧ s.fd ≠ con.sockfd ∧ s.fd ≠ stdinFd).map fun s => .closed s.fd

end NyanChat
