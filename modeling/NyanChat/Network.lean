import NyanChat.ServerRuns
import NyanChat.Proxy

/-!
# The network

The proxy and the server together, with the messages on the way between them and the clients as an environment.  The
proxy numbers its clients by their index in its poll table, and the server answers to that number.  Each message on
the way and each session of the server carries the connection that it belongs to, which the programs do not know.
-/

namespace NyanChat

/-- A proxy with its clients and the server.  The connections are numbered in the order of their acceptance. -/
structure Network where
  conClients : TcpConnection
  /-- The number of entries at the beginning of the turn. -/
  current : ℕ
  /-- The connection of an open descriptor. -/
  owner : Int → Option ℕ
  accepted : ℕ
  /-- `con_server.poll_fds[0].fd` -/
  serverFd : Int
  /-- The messages to the server, with the connections that they were read from. -/
  toServer : List (ℕ × Message)
  /-- The socket of the proxy at the server. -/
  proxySock : Int
  server : ServerState
  /-- The connection of the request that a session of the server comes from. -/
  registrant : Fin NB_MAX_CONNECTED_CLIENTS → ℕ
  /-- The messages from the server, with the connections of the requests that gave it the index. -/
  toProxy : List (ℕ × Message)
  /-- For each message sent to a client: the connection that it is for, and the one it was sent to. -/
  delivered : List (ℕ × ℕ)

/-- A proxy that starts to listen, connected to a server that starts. -/
def Network.start (sockfd serverFd proxySock : Int) (msg : Message) (server : ServerState) : Network where
  conClients := tcpConnectionServerInit .proxyClientsSide sockfd msg
  current := 2
  owner _ := none
  accepted := 0
  serverFd := serverFd
  toServer := []
  proxySock := proxySock
  server := server
  registrant _ := 0
  toProxy := []
  delivered := []

/-- The steps of the two threads of the proxy and of the server. -/
inductive Action
  | accept (peer : Peer)
  | request (i : ℕ) (msg : Message) (rands : ℕ → ℕ)
  | close (i : ℕ)
  | endTurn
  | serve (fuel : ℕ) (clock : Clock) (locals : Locals)
  | deliver

namespace Network

/-- The connection at an index of the arrays. -/
def clientAt (con : TcpConnection) (owner : Int → Option ℕ) (i : ℕ) : Option ℕ :=
  (peerAt con.poll i).bind fun p => owner p.fd

/-- The exchange accepts the pseudo of the client. -/
def registers (x : Exchange) (c : Client) : Bool :=
  match cstr c.pseudo with
  | some p => NyanChat.accepted p x
  | none => false

/-- The connections that the messages of an answer are for: the first one answers the request, the others go to the
connected clients. -/
def origins (net : Network) (X : ℕ) : List ℕ :=
  X :: (List.finRange NB_MAX_CONNECTED_CLIENTS).filterMap fun i =>
    if (net.server.clients.get i).any Client.connected then some (net.registrant i) else none

/-- The server has answered a request of the connection `X`. -/
def answered (net : Network) (X : ℕ) (e : Event) (r : Handled) : Network :=
  { net with
    server := r.state
    registrant := fun i => if (r.state.clients.get i).any (registers (e, r.sent)) then X else net.registrant i
    toProxy := net.toProxy ++ (net.origins X).zip (r.sent.map Sent.msg) }

/-- A step.  `accept` gives a descriptor that is not open; only sockets of clients are read and closed. -/
def act (net : Network) : Action → Option Network
  | .accept peer =>
    if h : net.conClients.nbPollFds < MAX_POLL_SOCKETS then
      if net.owner peer.fd = none ∧ peer.fd ≠ -1 ∧ peer.fd ≠ net.conClients.sockfd ∧ peer.fd ≠ stdinFd then
        some { net with
          conClients := net.conClients.register peer h
          owner := Function.update net.owner peer.fd (some net.accepted)
          accepted := net.accepted + 1 }
      else none
    else none
  | .request i msg rands =>
    if i < net.current then do
      let X ← clientAt net.conClients net.owner i
      let (msg, sent) ← onClientReceived rands net.serverFd { msg with proxyClientSocket := Int32.ofNat i }
      return { net with
        conClients := { net.conClients with msg := msg }
        toServer := net.toServer ++ sent.map fun m => (X, m.msg) }
    else none
  | .close i =>
    if h : i < net.current ∧ i < MAX_POLL_SOCKETS then
      (clientAt net.conClients net.owner i).map fun _ =>
        { net with
          conClients := net.conClients.close i h.2
          owner := Function.update net.owner net.conClients.poll[i].fd none }
    else none
  | .endTurn =>
    (compressIfNeeded net.conClients net.current).map fun con =>
      { net with conClients := con, current := con.nbPollFds }
  | .serve fuel clock locals =>
    match net.toServer with
    | [] => none
    | (X, msg) :: rest =>
      (onMsgReceived zeroSyndromes fuel clock locals net.proxySock msg net.server).map fun r =>
        { net with toServer := rest }.answered X ⟨clock, locals, net.proxySock, msg⟩ r
  | .deliver =>
    match net.toProxy with
    | [] => none
    | (X, msg) :: rest =>
      -- what is sent to a descriptor without owner reaches no client
      (onServerReceived net.conClients msg).map fun sent =>
        { net with
          toProxy := rest
          delivered := net.delivered ++ sent.filterMap fun m => (net.owner m.sock).map fun Y => (X, Y) }

end Network

end NyanChat
