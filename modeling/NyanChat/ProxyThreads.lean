import NyanChat.ChatRoom
import NyanChat.LoopSteps
import NyanChat.OwnConnections

/-!
# The threads of the proxy

`gestion_server` and `gestion_clients`, call by call and in any order, between the server and clients that may do
anything.  The proxy listens when it is connected to the server, which stays.  Whatever the threads do is a run of the
network (`proxyThreads_network`), in which one action is the call of a handler.
-/

namespace NyanChat

/-! ### The program -/

/-- The connection that the other thread reads, with the messages sent on it. -/
structure OtherSide where
  con : TcpConnection
  sent : List Sent

/-- Messages are sent on this connection, and `rc` is the answer of `send`. -/
def OtherSide.send (rc : Int) (o : OtherSide) (sent : List Sent) : OtherSide :=
  ⟨sendAll (fun _ => rc) 0 sent.length o.con, o.sent ++ sent⟩

theorem zero_lt_maxPollSockets : 0 < MAX_POLL_SOCKETS := Nat.zero_lt_succ 199

/-- The descriptor of the first entry of the table. -/
def OtherSide.firstFd (o : OtherSide) : Int := (o.con.poll.get ⟨0, zero_lt_maxPollSockets⟩).fd

/-- What `gestion_clients` gives to its main loop. -/
def gestionClients (rands : ℕ → ℕ) (rc : Int) : Handlers OtherSide where
  onMsg _ msg _ server := (onClientReceived rands server.firstFd msg).map fun r => (r.1, false, server.send rc r.2)
  onStdin := none

/-- What `gestion_server` gives to its main loop. -/
def gestionServer (rc : Int) : Handlers OtherSide where
  onMsg _ msg _ clients := (onServerReceived clients.con msg).map fun sent => (msg, false, clients.send rc sent)
  onStdin := none

/-- A call of the clients' side, or a message sent to a client. -/
inductive Traffic
  | call (c : Call)
  | sent (m : Sent)

/-- The program of the proxy and the server, with the messages on the way between them. -/
structure ProxyProgram where
  conServer : TcpConnection
  conClients : TcpConnection
  /-- Where `gestion_server` stands, when it is connected. -/
  serverAt : Option LoopPoint
  /-- Where `gestion_clients` stands, when it listens. -/
  clientsAt : Option LoopPoint
  /-- The socket of the connection to the server. -/
  serverFd : Int
  /-- The socket that listens for clients. -/
  sockfd : Int
  toServer : List Message
  /-- The socket of the proxy at the server. -/
  proxySock : Int
  server : ServerState
  toProxy : List Message
  log : List Traffic

/-- The connections of the clients, as the log tells them: who has a descriptor, how many were accepted, and to whom
messages were sent. -/
structure Ownership where
  owner : Int → Option ℕ
  accepted : ℕ
  receivers : List ℕ

def Ownership.after (o : Ownership) : Traffic → Ownership
  | .call (.accepted peer) =>
    { o with owner := Function.update o.owner peer.fd (some o.accepted), accepted := o.accepted + 1 }
  | .call (.closed fd) => { o with owner := Function.update o.owner fd none }
  | .call (.onMsg ..) => o
  | .sent m => { o with receivers := o.receivers ++ (o.owner m.sock).toList }

def ownership (log : List Traffic) : Ownership := log.foldl Ownership.after ⟨fun _ => none, 0, []⟩

theorem ownership_append (log : List Traffic) (new : List Traffic) :
    ownership (log ++ new) = new.foldl Ownership.after (ownership log) := List.foldl_append

theorem ownership_sent (log : List Traffic) (sent : List Sent) : ownership (log ++ sent.map .sent) =
    { ownership log with
      receivers := (ownership log).receivers ++ sent.filterMap fun m => (ownership log).owner m.sock } := by
  rw [ownership_append]
  generalize ownership log = o
  induction sent generalizing o with
  | nil => simp
  | cons m sent ih =>
    rw [List.map_cons, List.foldl_cons, ih, Ownership.after, List.filterMap_cons]
    cases o.owner m.sock with
    | none => simp
    | some Y => simp

namespace ProxyProgram

/-- A program that starts, and a server that starts. -/
def start (conServer conClients : TcpConnection) (serverFd sockfd proxySock : Int) (server : ServerState) :
    ProxyProgram where
  conServer := conServer
  conClients := conClients
  serverAt := none
  clientsAt := none
  serverFd := serverFd
  sockfd := sockfd
  toServer := []
  proxySock := proxySock
  server := server
  toProxy := []
  log := []

/-- What the system can answer to `gestion_clients`: `poll` reports nothing for a closed entry, and `accept` gives a
descriptor that is not open. -/
def CanAnswer (s : ProxyProgram) : CallAnswer → Prop
  | .poll (some revents) => ∀ j < s.conClients.nbPollFds, revents j ≠ 0 → peerAt s.conClients.poll j ≠ none
  | .accept (some (.socket fd _ _)) =>
    (ownership s.log).owner fd = none ∧ (fd : Int) ≠ stdinFd ∧ (fd : Int) ≠ s.sockfd ∧ (fd : Int) ≠ s.serverFd
  | _ => True

/-- The messages that are sent to the server. -/
def reachServer (s : ProxyProgram) (sent : List Sent) : List Message :=
  sent.filterMap fun m => if m.sock = s.serverFd then some m.msg else none

@[simp] theorem reachServer_nil (s : ProxyProgram) : s.reachServer [] = [] := List.filterMap_nil

/-- A step of one of the threads, or of the server. -/
inductive Next (s : ProxyProgram) : ProxyProgram → Prop
  | connect (msg : Message) : s.serverAt = none →
      Next s { s with
        conServer := tcpConnectionClientInit .proxyServerSide s.serverFd msg
        serverAt := some .polling }
  /-- The main thread waits for the connection to the server before it starts `gestion_clients`. -/
  | listen (msg : Message) : s.serverAt ≠ none → s.clientsAt = none →
      Next s { s with
        conClients := tcpConnectionServerInit .proxyClientsSide s.sockfd msg
        clientsAt := some .polling }
  | clients {p p' : LoopPoint} {st : LoopState OtherSide} (answer : CallAnswer) (rands : ℕ → ℕ) (rc : Int) :
      s.clientsAt = some p → s.CanAnswer answer →
      mainloopStep (gestionClients rands rc) ⟨s.conClients, ⟨s.conServer, []⟩, []⟩ p answer = some (st, p') →
      Next s { s with
        conClients := st.con
        conServer := st.args.con
        clientsAt := some p'
        toServer := s.toServer ++ s.reachServer st.args.sent
        log := s.log ++ st.calls.map .call }
  /-- `gestion_server` reads nothing from its socket. -/
  | own {p p' : LoopPoint} {answer : CallAnswer} {rc : Int} {st : LoopState OtherSide} : s.serverAt = some p →
      (∀ a, answer ≠ .recv (some a)) →
      mainloopStep (gestionServer rc) ⟨s.conServer, ⟨s.conClients, []⟩, []⟩ p answer = some (st, p') →
      Next s { s with conServer := st.con, conClients := st.args.con, serverAt := some p' }
  /-- `gestion_server` reads a message of the server. -/
  | relay {p p' : LoopPoint} {msg : Message} {rest : List Message} {rc : Int} {st : LoopState OtherSide} :
      s.serverAt = some p → s.toProxy = msg :: rest →
      mainloopStep (gestionServer rc) ⟨s.conServer, ⟨s.conClients, []⟩, []⟩ p (.recv (some (.data msg.toBytes))) =
        some (st, p') →
      Next s { s with
        conServer := st.con
        conClients := st.args.con
        serverAt := some p'
        toProxy := rest
        log := s.log ++ st.args.sent.map .sent }
  | serve {fuel : ℕ} {clock : Clock} {locals : Locals} {msg : Message} {rest : List Message} {r : Handled} :
      s.toServer = msg :: rest →
      onMsgReceived zeroSyndromes fuel clock locals s.proxySock msg s.server = some r →
      Next s { s with toServer := rest, server := r.state, toProxy := s.toProxy ++ r.sent.map Sent.msg }

/-- The states of the program while the server stays. -/
inductive Running : ProxyProgram → Prop
  | start {conServer conClients : TcpConnection} {serverFd sockfd proxySock : Int} {server : ServerState}
      {codes : List UInt8 → Option (List UInt8)} : sockfd ≠ -1 → initServerState codes = some server →
      Running (start conServer conClients serverFd sockfd proxySock server)
  | next {s s' : ProxyProgram} : Running s → s.Next s' → Running s'

end ProxyProgram

/-! ### Tables that agree -/

variable {con con' con₁ : TcpConnection} {st st' : LoopState OtherSide} {p p' : LoopPoint} {answer : CallAnswer}

theorem compressIfNeeded_sameTable (hs : SameTable con con') {n : ℕ} (hrun : compressIfNeeded con' n = some con₁) :
    ∃ con₂, compressIfNeeded con n = some con₂ ∧ SameTable con₂ con₁ := by
  unfold compressIfNeeded at hrun ⊢
  rw [← hs.need]
  split at hrun
  · rename_i hneed
    rw [if_pos hneed]
    unfold compressPollSocketArray at hrun ⊢
    dsimp only at hrun ⊢
    rw [hs.poll] at hrun
    obtain ⟨last, hlast, hrun⟩ := Option.bind_eq_some_iff.1 hrun
    obtain ⟨r, hfold, hrun⟩ := Option.bind_eq_some_iff.1 hrun
    rw [hlast, Option.bind_eq_bind, Option.bind_some, hfold, Option.bind_eq_bind, Option.bind_some]
    split at hrun
    · rename_i hclosed
      cases hrun
      exact ⟨_, if_pos hclosed, hs.sockfd, rfl, rfl, hs.type, rfl⟩
    · rename_i hopen
      cases hrun
      exact ⟨_, if_neg hopen, hs.sockfd, rfl, rfl, hs.type, rfl⟩
  · rename_i hneed
    cases hrun
    rw [if_neg hneed]
    exact ⟨con, rfl, hs⟩

theorem compressIfNeeded_keeps {n : ℕ} (hrun : compressIfNeeded con n = some con') :
    con'.typeConnection = con.typeConnection ∧ con'.sockfd = con.sockfd := by
  unfold compressIfNeeded at hrun
  split at hrun
  · unfold compressPollSocketArray at hrun
    obtain ⟨last, -, hrun⟩ := Option.bind_eq_some_iff.1 hrun
    obtain ⟨r, -, hrun⟩ := Option.bind_eq_some_iff.1 hrun
    dsimp only at hrun
    split at hrun <;> cases hrun <;> exact ⟨rfl, rfl⟩
  · cases hrun
    exact ⟨rfl, rfl⟩

theorem SameTable.register (hs : SameTable con con') (peer : Peer) (h : con.nbPollFds < MAX_POLL_SOCKETS)
    (h' : con'.nbPollFds < MAX_POLL_SOCKETS) : SameTable (con.register peer h) (con'.register peer h') := by
  refine ⟨hs.sockfd, ?_, ?_, hs.type, hs.need⟩
  · simp only [TcpConnection.register, hs.poll, hs.nbPollFds]
  · simp only [TcpConnection.register, hs.nbPollFds]

theorem SameTable.close (hs : SameTable con con') (i : ℕ) (h : i < MAX_POLL_SOCKETS) :
    SameTable (con.close i h) (con'.close i h) := by
  refine ⟨hs.sockfd, ?_, hs.nbPollFds, hs.type, rfl⟩
  simp only [TcpConnection.close, hs.poll]

theorem SameTable.handling (hs : SameTable con con') (i : ℕ) : con'.handling i = con.handling i := by
  simp only [TcpConnection.handling, TcpConnection.handlingOf, hs.poll, hs.type, hs.sockfd]

theorem sendAll_sameTable (rc : ℕ → Int) (n m : ℕ) (con : TcpConnection) : SameTable con (sendAll rc n m con) := by
  rw [sendAll_eq]
  exact ⟨rfl, rfl, rfl, rfl, rfl⟩

theorem OtherSide.send_sameTable (rc : Int) (o : OtherSide) (sent : List Sent) :
    SameTable o.con (o.send rc sent).con := by
  exact sendAll_sameTable (fun _ => rc) 0 sent.length o.con

theorem onServerReceived_sameTable (hs : SameTable con con') (msg : Message) :
    onServerReceived con' msg = onServerReceived con msg := by
  simp only [onServerReceived, hs.nbPollFds, hs.poll]

/-! ### The thread of the server -/

variable {sockfd rc : Int}

def LoopPoint.isAccepting : LoopPoint → Bool
  | .accepting .. => true
  | _ => false

theorem Own.handling_ne_accept (h : Own .proxyServerSide sockfd con) (i : ℕ) : con.handling i ≠ .accept := by
  intro hhandling
  rw [TcpConnection.handling] at hhandling
  split at hhandling
  · rw [TcpConnection.handlingOf, h.kind, if_neg (by rintro ⟨htype | htype, -⟩ <;> cases htype)] at hhandling
    split at hhandling
    · cases hhandling
    · split at hhandling <;> cases hhandling
  · cases hhandling

/-- A step of `gestion_server` that reads nothing leaves its connection open, and the other one as it is. -/
theorem Own.idle (h : Own .proxyServerSide sockfd st.con) (haccept : p.isAccepting = false)
    (hanswer : ∀ a, answer ≠ .recv (some a)) (hcase : StepCase (gestionServer rc) st p answer st' p') :
    Own .proxyServerSide sockfd st'.con ∧ st'.args = st.args ∧ p'.isAccepting = false := by
  cases hcase with
  | failed => exact ⟨h, rfl, rfl⟩
  | polled revents => exact ⟨h, rfl, rfl⟩
  | skipped _ _ => exact ⟨h, rfl, rfl⟩
  | error _ _ _ => exact ⟨h.congr ⟨rfl, rfl, rfl, rfl, rfl⟩, rfl, rfl⟩
  | toAccept _ _ _ hhandling => exact absurd hhandling (h.handling_ne_accept _)
  | toRead _ _ _ _ => exact ⟨h, rfl, rfl⟩
  | noInput _ _ _ _ => exact ⟨h, rfl, rfl⟩
  | input _ _ _ _ hread =>
    cases hread
    exact ⟨h, rfl, rfl⟩
  | endTurn _ hcon =>
    rw [compressIfNeeded, h.need, if_neg Bool.false_ne_true] at hcon
    cases hcon
    refine ⟨h, rfl, ?_⟩
    split <;> rfl
  | full _ => cases haccept
  | wouldBlock _ => cases haccept
  | acceptFailed _ => cases haccept
  | accepted _ => cases haccept
  | noData _ => exact ⟨h, rfl, rfl⟩
  | received _ _ => exact absurd rfl (hanswer _)
  | closed _ _ => exact absurd rfl (hanswer _)

/-- It hands on the message that it reads. -/
theorem Own.relay {msg : Message} (h : Own .proxyServerSide sockfd st.con)
    (hcase : StepCase (gestionServer rc) st p (.recv (some (.data msg.toBytes))) st' p') :
    Own .proxyServerSide sockfd st'.con ∧ p'.isAccepting = false ∧
      ∃ sent, onServerReceived st.args.con msg = some sent ∧ st'.args = st.args.send rc sent := by
  cases hcase with
  | @received _ _ i _ _ _ _ hi hmsg =>
    obtain ⟨sent, hsent, hpair⟩ := Option.map_eq_some_iff.1 hmsg
    cases hpair
    refine ⟨h.congr ⟨rfl, rfl, rfl, rfl, rfl⟩, rfl, sent, ?_, rfl⟩
    have hfill : st.con.fill i msg.toBytes = msg := by
      rw [TcpConnection.fill, recvInto_toBytes, h.kind, if_neg (by decide)]
    rw [← hfill]
    exact hsent
  | closed _ h => rcases h with h | h <;> cases h

/-! ### The owners of the descriptors -/

namespace Network

variable {net net' : Network}

theorem Owned.congr {owner : Int → Option ℕ} (h : Owned con owner) (hs : SameTable con con') : Owned con' owner := by
  obtain ⟨hsock, hpoll, hnb, -, -⟩ := hs
  constructor
  case listener => rw [hpoll, hsock]; exact h.listener
  case nb_pos => rw [hnb]; exact h.nb_pos
  case nobody => rw [hsock]; exact h.nobody
  case known => rw [hpoll, hsock]; exact h.known
  case once => rw [hpoll]; exact h.once

theorem Owned.compressIfNeeded {owner : Int → Option ℕ} (h : Owned con owner) {n : ℕ}
    (hrun : compressIfNeeded con n = some con') : Owned con' owner := by
  unfold NyanChat.compressIfNeeded at hrun
  split at hrun
  · obtain ⟨p, hp, -⟩ := h.listener
    have hzero : peerAt con.poll 0 ≠ none := by
      rw [hp]
      exact Option.some_ne_none p
    obtain ⟨con₁, hcon₁, hc⟩ := compressPollSocketArray_spec { con with needCompressPollArr := false }
      (compressPollSocketArray_lt hrun) hzero
    obtain rfl := Option.some.inj (hrun.symm.trans hcon₁)
    have howned : Owned { con with needCompressPollArr := false } owner := ⟨h.1, h.2, h.3, h.4, h.5⟩
    exact howned.compressed hc
  · cases hrun
    exact h

/-- An open entry of which the main loop reads a message is one of a client. -/
theorem Owned.exists_clientAt {owner : Int → Option ℕ} (h : Owned con owner)
    (htype : con.typeConnection = .proxyClientsSide) {i : ℕ} (hopen : peerAt con.poll i ≠ none)
    (hread : con.handling i = .read) : ∃ X, clientAt con owner i = some X := by
  obtain ⟨p, hp⟩ := Option.ne_none_iff_exists'.1 hopen
  obtain ⟨hi, hat, -⟩ := peerAt_eq_some hp
  have hfd : con.poll[i].fd = p.fd := congrArg Peer.fd hat
  have hne : p.fd ≠ con.sockfd ∧ p.fd ≠ stdinFd := by
    rw [TcpConnection.handling, dif_pos hi, TcpConnection.handlingOf, hfd, htype] at hread
    constructor
    · intro hsock
      rw [if_pos ⟨Or.inr rfl, hsock⟩] at hread
      cases hread
    · intro hstdin
      split at hread
      · cases hread
      · split at hread
        · rename_i hown
          rcases hown.1 with htype | htype <;> cases htype
        · cases hread
  rcases h.known i p hp with hsock | hstdin | howner
  · exact absurd hsock hne.1
  · exact absurd hstdin hne.2
  · obtain ⟨X, hX⟩ := Option.ne_none_iff_exists'.1 howner
    exact ⟨X, clientAt_eq_some.2 ⟨p, hp, hX⟩⟩

/-- There is a connection for every message of an answer. -/
theorem length_sent_le {accounts : Key → Option Account} {e : Event} {answer : Handled} {X : ℕ}
    (hs : Serves net.server accounts) (hstep : Step e net.server answer) :
    answer.sent.length ≤ (net.origins X).length := by
  obtain ⟨fuel, hrun⟩ := hstep
  have hone : 1 ≤ (net.origins X).length := Nat.succ_le_succ (Nat.zero_le _)
  cases onMsgReceived_branch hrun with
  | noPseudo => exact Nat.zero_le _
  | other => exact Nat.zero_le _
  | connection hp hvalid htype hconn =>
    rcases onConnection_cases hs hvalid hconn with ⟨-, text, rfl⟩ | ⟨rfl, -⟩ <;> exact hone
  | text hp hvalid htype htext =>
    have hrelays : Relays e net.server answer.sent := onText_relays hs hvalid htext
    obtain ⟨ack, copies, hsent, -, hcopies⟩ := hrelays
    rw [hsent]
    split at hcopies
    · obtain ⟨copy, -, rfl⟩ := hcopies
      rw [origins, List.length_cons, List.length_cons, copiesFor_eq, List.length_filterMap_eq_countP,
        List.length_filterMap_eq_countP]
      refine Nat.succ_le_succ (Nat.le_of_eq (List.countP_congr fun i _ => ?_))
      rw [origin_isSome i copy, Option.isSome_map]
    · rw [hcopies]
      exact hone

end Network

/-! ### The network of a program -/

open Network

/-- The entries from `i` on for which `poll` has reported something are open, and those of a turn in use. -/
structure InSockets (net : Network) (revents : ℕ → Int) (current i : ℕ) : Prop where
  current_eq : net.current = current
  current_le : current ≤ net.conClients.nbPollFds
  ready : ∀ j, i ≤ j → j < current → revents j ≠ 0 → peerAt net.conClients.poll j ≠ none

/-- What holds where `gestion_clients` stands. -/
def AtPoint (net : Network) : LoopPoint → Prop
  | .polling => net.current = net.conClients.nbPollFds
  | .sockets revents current i => InSockets net revents current i
  | .accepting revents current i _ => InSockets net revents current (i + 1)
  | .reading revents current i =>
    InSockets net revents current (i + 1) ∧ i < current ∧ ∃ X, clientAt net.conClients net.owner i = some X
  | .left => True

theorem InSockets.mono {net : Network} {revents : ℕ → Int} {current i j : ℕ} (h : InSockets net revents current i)
    (hle : i ≤ j) : InSockets net revents current j :=
  ⟨h.current_eq, h.current_le, fun k hk => h.ready k (hle.trans hk)⟩

theorem InSockets.congr {net net' : Network} {revents : ℕ → Int} {current i : ℕ} (h : InSockets net revents current i)
    (hcon : net'.conClients = net.conClients) (hcurrent : net'.current = net.current) :
    InSockets net' revents current i := by
  obtain ⟨heq, hle, hready⟩ := h
  rw [← hcurrent] at heq
  rw [← hcon] at hle hready
  exact ⟨heq, hle, hready⟩

theorem AtPoint.congr {net net' : Network} {p : LoopPoint} (h : AtPoint net p)
    (hcon : net'.conClients = net.conClients) (hcurrent : net'.current = net.current)
    (howner : net'.owner = net.owner) : AtPoint net' p := by
  cases p with
  | polling =>
    rw [AtPoint, hcurrent, hcon]
    exact h
  | sockets revents current i => exact InSockets.congr h hcon hcurrent
  | accepting revents current i newSock => exact InSockets.congr h hcon hcurrent
  | reading revents current i =>
    obtain ⟨hin, hi, hclient⟩ := h
    rw [AtPoint, hcon, howner]
    exact ⟨hin.congr hcon hcurrent, hi, hclient⟩
  | left => trivial

/-- The network has the tables, the messages and the connections of the program. -/
structure Mirrors (net : Network) (s : ProxyProgram) : Prop where
  owned : Owned net.conClients net.owner
  serves : ∃ accounts, Serves net.server accounts
  kind : net.conClients.typeConnection = .proxyClientsSide
  sock : net.conClients.sockfd = s.sockfd
  table : s.clientsAt ≠ none → SameTable net.conClients s.conClients
  /-- Before the proxy listens there are no messages. -/
  before : s.clientsAt = none → s.toServer = [] ∧ s.toProxy = [] ∧ ∃ msg,
    net.conClients = tcpConnectionServerInit .proxyClientsSide s.sockfd msg
  point : ∀ p, s.clientsAt = some p → AtPoint net p
  first : s.clientsAt ≠ none → s.serverAt ≠ none
  own : ∀ p, s.serverAt = some p → Own .proxyServerSide s.serverFd s.conServer ∧ p.isAccepting = false
  current : s.clientsAt = none → net.current = 2
  server : net.server = s.server
  toServer : net.toServer.map Prod.snd = s.toServer
  toProxy : net.toProxy.map Prod.snd = s.toProxy
  serverFd : net.serverFd = s.serverFd
  proxySock : net.proxySock = s.proxySock
  ownership : ownership s.log = ⟨net.owner, net.accepted, net.delivered.map Prod.snd⟩

/-- An action of the network, or none, with what it adds to the log. -/
inductive Moves (net : Network) : Network → List Traffic → Prop
  | same : Moves net net []
  | act {net' : Network} {a : Action} (calls : List Call) : (∀ i, a ≠ .close i) → a ≠ .deliver →
      net.act a = some net' → Moves net net' (calls.map .call)
  | deliver {net' : Network} {X : ℕ} {msg : Message} {rest : List (ℕ × Message)} {sent : List Sent} :
      net.toProxy = (X, msg) :: rest → onServerReceived net.conClients msg = some sent →
      net.act .deliver = some net' → Moves net net' (sent.map .sent)
  | close {net' : Network} {i : ℕ} {fd : Int} : net.act (.close i) = some net' →
      Moves net net' [.call (.closed fd)]

namespace Mirrors

variable {net net' : Network} {s s' : ProxyProgram}

theorem start {conServer conClients : TcpConnection} {serverFd sockfd proxySock : Int} {server : ServerState}
    {codes : List UInt8 → Option (List UInt8)} (hsock : sockfd ≠ -1) (hserver : initServerState codes = some server) :
    Mirrors (Network.start sockfd serverFd proxySock Message.zero server)
      (ProxyProgram.start conServer conClients serverFd sockfd proxySock server) where
  owned := owned_start hsock _
  serves := ⟨_, initServerState_serves hserver⟩
  kind := rfl
  sock := rfl
  table h := absurd rfl h
  before _ := ⟨rfl, rfl, _, rfl⟩
  point _ h := by cases h
  first h := absurd rfl h
  own _ h := by cases h
  current _ := rfl
  server := rfl
  toServer := rfl
  toProxy := rfl
  serverFd := rfl
  proxySock := rfl
  ownership := rfl

theorem connect {msg : Message} (h : Mirrors net s) :
    Mirrors net { s with
      conServer := tcpConnectionClientInit .proxyServerSide s.serverFd msg, serverAt := some .polling } :=
  { h with
    first := fun _ => Option.some_ne_none _
    own := fun p hp => by
      cases hp
      exact ⟨⟨rfl, rfl, rfl, rfl, rfl⟩, rfl⟩ }

theorem listen {msg : Message} (h : Mirrors net s) (hserver : s.serverAt ≠ none) (hclients : s.clientsAt = none) :
    Mirrors net { s with
      conClients := tcpConnectionServerInit .proxyClientsSide s.sockfd msg, clientsAt := some .polling } := by
  obtain ⟨-, -, msg', hcon⟩ := h.before hclients
  exact { h with
    table := fun _ => by
      rw [hcon]
      exact ⟨rfl, rfl, rfl, rfl, rfl⟩
    before := fun hnone => by cases hnone
    point := fun p hp => by
      cases hp
      rw [AtPoint, h.current hclients, hcon]
      rfl
    first := fun _ => hserver
    current := fun hnone => by cases hnone }

theorem own_step {p p' : LoopPoint} {st : LoopState OtherSide} (h : Mirrors net s) (hserver : s.serverAt = some p)
    (hanswer : ∀ a, answer ≠ .recv (some a))
    (hstep : mainloopStep (gestionServer rc) ⟨s.conServer, ⟨s.conClients, []⟩, []⟩ p answer = some (st, p')) :
    Mirrors net { s with conServer := st.con, conClients := st.args.con, serverAt := some p' } := by
  obtain ⟨hown, haccept⟩ := h.own p hserver
  obtain ⟨hown', hargs, haccept'⟩ := Own.idle hown haccept hanswer (mainloopStep_case hstep)
  rw [hargs]
  exact { h with
    first := fun _ => Option.some_ne_none _
    own := fun q hq => by
      cases hq
      exact ⟨hown', haccept'⟩ }

/-- A program that has messages listens. -/
theorem clientsAt_ne_none (h : Mirrors net s) (hmsgs : s.toServer ≠ [] ∨ s.toProxy ≠ []) : s.clientsAt ≠ none := by
  intro hnone
  obtain ⟨hserver, hproxy, -⟩ := h.before hnone
  exact hmsgs.elim (fun h => h hserver) fun h => h hproxy

theorem relay {p p' : LoopPoint} {msg : Message} {rest : List Message} {st : LoopState OtherSide} (h : Mirrors net s)
    (hserver : s.serverAt = some p) (hproxy : s.toProxy = msg :: rest)
    (hstep : mainloopStep (gestionServer rc) ⟨s.conServer, ⟨s.conClients, []⟩, []⟩ p
      (.recv (some (.data msg.toBytes))) = some (st, p')) :
    ∃ net', Moves net net' (st.args.sent.map .sent) ∧ Mirrors net' { s with
      conServer := st.con, conClients := st.args.con, serverAt := some p', toProxy := rest
      log := s.log ++ st.args.sent.map .sent } := by
  obtain ⟨hown, -⟩ := h.own p hserver
  obtain ⟨hown', haccept', sent, hsent, hargs⟩ := Own.relay hown (mainloopStep_case hstep)
  have hlistens := h.clientsAt_ne_none (Or.inr (by rw [hproxy]; exact List.cons_ne_nil _ _))
  have htable := h.table hlistens
  have hdown := h.toProxy
  rw [hproxy, List.map_eq_cons_iff] at hdown
  obtain ⟨⟨X, _⟩, rest', hnet, rfl, hrest⟩ := hdown
  rw [onServerReceived_sameTable htable] at hsent
  rw [hargs]
  refine ⟨_, .deliver hnet hsent (by rw [act, hnet]; exact Option.map_eq_some_iff.2 ⟨sent, hsent, rfl⟩), ?_⟩
  exact { h with
    point := fun q hq => (h.point q hq).congr rfl rfl rfl
    table := fun _ => htable.trans (OtherSide.send_sameTable rc ⟨s.conClients, []⟩ sent)
    before := fun hnone => absurd hnone hlistens
    first := fun _ => Option.some_ne_none _
    own := fun q hq => by
      cases hq
      exact ⟨hown', haccept'⟩
    toProxy := hrest
    ownership := by
      rw [OtherSide.send, List.nil_append, ownership_sent, h.ownership]
      simp only [List.map_append, List.map_filterMap, Option.map_map, Function.comp_def]
      simp }

theorem serve {fuel : ℕ} {clock : Clock} {locals : Locals} {msg : Message} {rest : List Message} {r : Handled}
    (h : Mirrors net s) (hmsgs : s.toServer = msg :: rest)
    (hrun : onMsgReceived zeroSyndromes fuel clock locals s.proxySock msg s.server = some r) :
    ∃ net', net.act (.serve fuel clock locals) = some net' ∧ Mirrors net' { s with
      toServer := rest, server := r.state, toProxy := s.toProxy ++ r.sent.map Sent.msg } := by
  have hlistens := h.clientsAt_ne_none (Or.inl (by rw [hmsgs]; exact List.cons_ne_nil _ _))
  have hup := h.toServer
  rw [hmsgs, List.map_eq_cons_iff] at hup
  obtain ⟨⟨X, _⟩, rest', hnet, rfl, hrest⟩ := hup
  rw [← h.server, ← h.proxySock] at hrun
  obtain ⟨accounts, hserves⟩ := h.serves
  have hstep : Step ⟨clock, locals, net.proxySock, _⟩ net.server r := ⟨fuel, hrun⟩
  obtain ⟨accounts', hserves'⟩ := step_serves hserves hstep
  have hlen : (r.sent.map Sent.msg).length ≤ (net.origins X).length := by
    rw [List.length_map]
    exact length_sent_le hserves hstep
  refine ⟨_, by rw [act, hnet]; exact Option.map_eq_some_iff.2 ⟨r, hrun, rfl⟩, ?_⟩
  exact { h with
    serves := ⟨accounts', hserves'⟩
    before := fun hnone => absurd hnone hlistens
    point := fun q hq => (h.point q hq).congr rfl rfl rfl
    server := rfl
    toServer := hrest
    toProxy := by
      rw [answered, List.map_append, h.toProxy]
      exact congrArg _ (List.map_snd_zip hlen) }

/-! #### The clients' side -/

variable {p p' : LoopPoint} {revents : ℕ → Int} {i n : ℕ} {newSock : Int}

/-- `gestion_clients` has gone on, with its table as it was. -/
theorem stay (h : Mirrors net s) (hclients : s.clientsAt = some p) (hs : SameTable s.conClients con)
    (hpoint : AtPoint net p') :
    Mirrors net { s with
      conClients := con, clientsAt := some p', toServer := s.toServer ++ s.reachServer []
      log := s.log ++ ([] : List Call).map .call } := by
  have hlistens : s.clientsAt ≠ none := hclients ▸ Option.some_ne_none p
  rw [List.map_nil, List.append_nil, ProxyProgram.reachServer_nil, List.append_nil]
  exact { h with
    table := fun _ => (h.table hlistens).trans hs
    before := fun hnone => by cases hnone
    point := fun q hq => by
      cases hq
      exact hpoint
    first := fun _ => h.first hlistens
    current := fun hnone => by cases hnone }

theorem accepted (peer : Peer) (h : Mirrors net s) (hclients : s.clientsAt = some (.accepting revents n i newSock))
    (hnb : s.conClients.nbPollFds < MAX_POLL_SOCKETS) (hfree : (NyanChat.ownership s.log).owner peer.fd = none)
    (hopen : peer.fd ≠ -1) (hsock : peer.fd ≠ s.sockfd) (hstdin : peer.fd ≠ stdinFd) (newSock' : Int) :
    ∃ net', net.act (.accept peer) = some net' ∧ Mirrors net' { s with
      conClients := s.conClients.register peer hnb, clientsAt := some (.accepting revents n i newSock')
      toServer := s.toServer ++ s.reachServer [], log := s.log ++ [Call.accepted peer].map .call } := by
  have hlistens : s.clientsAt ≠ none := hclients ▸ Option.some_ne_none _
  have htable := h.table hlistens
  have hpoint : InSockets net revents n (i + 1) := h.point _ hclients
  have hnb' : net.conClients.nbPollFds < MAX_POLL_SOCKETS := htable.nbPollFds ▸ hnb
  rw [h.ownership] at hfree
  rw [← h.sock] at hsock
  refine ⟨_, by rw [act, dif_pos hnb', if_pos ⟨hfree, hopen, hsock, hstdin⟩], ?_⟩
  rw [ProxyProgram.reachServer_nil, List.append_nil]
  exact { h with
    owned := h.owned.register hnb' hfree hopen hsock hstdin _
    table := fun _ => htable.register peer hnb' hnb
    before := fun hnone => by cases hnone
    point := fun q hq => by
      cases hq
      refine ⟨hpoint.current_eq, Nat.le_succ_of_le hpoint.current_le, fun j hj hlt hready => ?_⟩
      have hne : j ≠ net.conClients.nbPollFds := Nat.ne_of_lt (hlt.trans_le hpoint.current_le)
      rw [peerAt_register hnb' hopen, if_neg hne]
      exact hpoint.ready j hj hlt hready
    first := fun _ => h.first hlistens
    current := fun hnone => by cases hnone
    ownership := by
      rw [ownership_append, h.ownership]
      rfl }

theorem received {rands : ℕ → ℕ} {bytes : List UInt8} {r : Message × List Sent} {ended : Bool} {msgLen : ℕ} {fd : Int}
    (h : Mirrors net s) (hclients : s.clientsAt = some (.reading revents n i))
    (hrun : onClientReceived rands (OtherSide.firstFd ⟨s.conServer, []⟩) (s.conClients.fill i bytes) = some r) :
    ∃ net', net.act (.request i (recvInto s.conClients.msg bytes) rands) = some net' ∧ Mirrors net' { s with
      conClients := { s.conClients with msg := r.1, endConnection := ended }
      conServer := (OtherSide.send rc ⟨s.conServer, []⟩ r.2).con, clientsAt := some (.reading revents n i)
      toServer := s.toServer ++ s.reachServer r.2
      log := s.log ++ [Call.onMsg fd (s.conClients.fill i bytes) msgLen].map .call } := by
  have hlistens : s.clientsAt ≠ none := hclients ▸ Option.some_ne_none _
  have htable := h.table hlistens
  obtain ⟨hpoint, hi, X, hX⟩ := h.point _ hclients
  obtain ⟨p, hserver⟩ := Option.ne_none_iff_exists'.1 (h.first hlistens)
  obtain ⟨hown, haccept⟩ := h.own p hserver
  -- the message is for the server
  have hfd : OtherSide.firstFd ⟨s.conServer, []⟩ = net.serverFd := by
    rw [OtherSide.firstFd, hown.poll, h.serverFd]
    rfl
  have hfill : s.conClients.fill i bytes =
      { recvInto s.conClients.msg bytes with proxyClientSocket := Int32.ofNat i } := by
    rw [TcpConnection.fill, if_pos (htable.type.trans h.kind)]
  rw [hfd, hfill] at hrun
  have hreach : s.reachServer r.2 = r.2.map Sent.msg := by
    rcases onClientReceived_sent hrun with hsent | hsent
    · rw [hsent]
      rfl
    · rw [hsent, ProxyProgram.reachServer, List.filterMap_cons, if_pos h.serverFd]
      rfl
  refine ⟨_, by rw [act, if_pos (hpoint.current_eq ▸ hi), hX, Option.bind_eq_bind, Option.bind_some, hrun]; rfl, ?_⟩
  exact { h with
    owned := ⟨h.owned.1, h.owned.2, h.owned.3, h.owned.4, h.owned.5⟩
    table := fun _ => ⟨htable.1, htable.2, htable.3, htable.4, htable.5⟩
    before := fun hnone => by cases hnone
    point := fun q hq => by
      cases hq
      exact ⟨⟨hpoint.current_eq, hpoint.current_le, hpoint.ready⟩, hi, X, hX⟩
    first := fun _ => h.first hlistens
    own := fun q hq => ⟨(h.own q hq).1.congr (OtherSide.send_sameTable rc ⟨s.conServer, []⟩ r.2), (h.own q hq).2⟩
    current := fun hnone => by cases hnone
    toServer := by
      rw [List.map_append, h.toServer, hreach, List.map_map]
      rfl
    ownership := by
      rw [ownership_append, h.ownership]
      rfl }

theorem closed (h : Mirrors net s) (hclients : s.clientsAt = some (.reading revents n i)) (hi : i < MAX_POLL_SOCKETS) :
    ∃ net', net.act (.close i) = some net' ∧ Mirrors net' { s with
      conClients := s.conClients.close i hi, clientsAt := some (.sockets revents n (i + 1))
      toServer := s.toServer ++ s.reachServer []
      log := s.log ++ [Call.closed s.conClients.poll[i].fd].map .call } := by
  have hlistens : s.clientsAt ≠ none := hclients ▸ Option.some_ne_none _
  have htable := h.table hlistens
  obtain ⟨hpoint, hlt, X, hX⟩ := h.point _ hclients
  have hfd : s.conClients.poll[i].fd = net.conClients.poll[i].fd := by simp only [htable.poll]
  have hclient : net.owner net.conClients.poll[i].fd ≠ none := by
    obtain ⟨q, hq, howner⟩ := clientAt_eq_some.1 hX
    obtain ⟨_, hat, -⟩ := peerAt_eq_some hq
    have hqfd : net.conClients.poll[i].fd = q.fd := congrArg Peer.fd hat
    rw [hqfd, howner]
    exact Option.some_ne_none X
  refine ⟨_, by rw [act, dif_pos ⟨hpoint.current_eq ▸ hlt, hi⟩, hX]; rfl, ?_⟩
  rw [ProxyProgram.reachServer_nil, List.append_nil]
  exact { h with
    owned := h.owned.close hi hclient
    table := fun _ => htable.close i hi
    before := fun hnone => by cases hnone
    point := fun q hq => by
      cases hq
      refine ⟨hpoint.current_eq, hpoint.current_le, fun j hj hjn hready => ?_⟩
      rw [peerAt_close, if_neg (Nat.ne_of_gt hj)]
      exact hpoint.ready j hj hjn hready
    first := fun _ => h.first hlistens
    current := fun hnone => by cases hnone
    ownership := by
      rw [ownership_append, h.ownership, hfd]
      rfl }

theorem endTurn (h : Mirrors net s) (hclients : s.clientsAt = some (.sockets revents n i))
    (hrun : compressIfNeeded s.conClients n = some con) :
    ∃ net', net.act .endTurn = some net' ∧ Mirrors net' { s with
      conClients := con, clientsAt := some (if con.endConnection then .left else .polling)
      toServer := s.toServer ++ s.reachServer [], log := s.log ++ ([] : List Call).map .call } := by
  have hlistens : s.clientsAt ≠ none := hclients ▸ Option.some_ne_none _
  have hpoint : InSockets net revents n i := h.point _ hclients
  obtain ⟨con', hcon', hs⟩ := compressIfNeeded_sameTable (h.table hlistens) hrun
  obtain ⟨htype, hsock⟩ := compressIfNeeded_keeps hcon'
  refine ⟨_, by rw [act, hpoint.current_eq]; exact Option.map_eq_some_iff.2 ⟨con', hcon', rfl⟩, ?_⟩
  rw [List.map_nil, List.append_nil, ProxyProgram.reachServer_nil, List.append_nil]
  exact { h with
    owned := h.owned.compressIfNeeded hcon'
    kind := htype.trans h.kind
    sock := hsock.trans h.sock
    table := fun _ => hs
    before := fun hnone => by cases hnone
    point := fun q hq => by
      cases hq
      split
      · trivial
      · rfl
    first := fun _ => h.first hlistens
    current := fun hnone => by cases hnone }

theorem clients {rands : ℕ → ℕ} {st : LoopState OtherSide} (h : Mirrors net s) (hclients : s.clientsAt = some p)
    (hcan : s.CanAnswer answer)
    (hcase : StepCase (gestionClients rands rc) ⟨s.conClients, ⟨s.conServer, []⟩, []⟩ p answer st p') :
    ∃ net', Moves net net' (st.calls.map .call) ∧ Mirrors net' { s with
      conClients := st.con, conServer := st.args.con, clientsAt := some p'
      toServer := s.toServer ++ s.reachServer st.args.sent, log := s.log ++ st.calls.map .call } := by
  have hlistens : s.clientsAt ≠ none := hclients ▸ Option.some_ne_none p
  have htable := h.table hlistens
  have hpoint := h.point p hclients
  have hrefl := SameTable.refl s.conClients
  have hended : SameTable s.conClients { s.conClients with endConnection := true } := ⟨rfl, rfl, rfl, rfl, rfl⟩
  cases hcase with
  | failed => exact ⟨net, .same, h.stay hclients hrefl trivial⟩
  | polled revents =>
    refine ⟨net, .same, h.stay hclients hrefl ⟨?_, Nat.le_of_eq htable.nbPollFds, fun j _ hj hready => ?_⟩⟩
    · exact hpoint.trans htable.nbPollFds.symm
    · rw [← htable.poll]
      exact hcan j hj hready
  | skipped _ _ => exact ⟨net, .same, h.stay hclients hrefl (hpoint.mono (Nat.le_succ _))⟩
  | error hlt _ _ => exact ⟨net, .same, h.stay hclients hended (hpoint.mono hlt.le)⟩
  | toAccept _ _ _ _ => exact ⟨net, .same, h.stay hclients hrefl (hpoint.mono (Nat.le_succ _))⟩
  | @toRead revents n i hlt hpollin _ hhandling =>
    have hready : revents i ≠ 0 := by rw [hpollin]; decide
    have hclient := h.owned.exists_clientAt h.kind (hpoint.ready i (Nat.le_refl i) hlt hready)
      ((htable.handling i).symm.trans hhandling)
    exact ⟨net, .same, h.stay hclients hrefl ⟨hpoint.mono (Nat.le_succ _), hlt, hclient⟩⟩
  | noInput hlt _ _ _ => exact ⟨net, .same, h.stay hclients hrefl (hpoint.mono hlt.le)⟩
  | input _ _ _ _ hread =>
    cases hread
    exact ⟨net, .same, h.stay hclients hrefl (hpoint.mono (Nat.le_succ _))⟩
  | endTurn _ hcon =>
    obtain ⟨net', hact, h'⟩ := h.endTurn hclients hcon
    exact ⟨net', .act _ (fun _ h => by cases h) (fun h => by cases h) hact, h'⟩
  | @full revents n i newSock _ =>
    refine ⟨net, .same, h.stay hclients hrefl ?_⟩
    split <;> exact hpoint
  | wouldBlock _ => exact ⟨net, .same, h.stay hclients hrefl hpoint⟩
  | acceptFailed _ => exact ⟨net, .same, h.stay hclients hended hpoint⟩
  | @accepted _ _ _ _ fd addr adLen hnb =>
    obtain ⟨hfree, hstdin, hsock, -⟩ := hcan
    have hopen : (fd : Int) ≠ -1 := by omega
    obtain ⟨net', hact, h'⟩ := h.accepted ⟨fd, addr, adLen⟩ hclients hnb hfree hopen hsock hstdin fd
    exact ⟨net', .act _ (fun _ h => by cases h) (fun h => by cases h) hact, h'⟩
  | noData _ => exact ⟨net, .same, h.stay hclients hrefl hpoint.1⟩
  | received hi hmsg =>
    obtain ⟨r, hr, hpair⟩ := Option.map_eq_some_iff.1 hmsg
    cases hpair
    obtain ⟨net', hact, h'⟩ := h.received hclients hr
    exact ⟨net', .act _ (fun _ h => by cases h) (fun h => by cases h) hact, h'⟩
  | closed hi _ =>
    obtain ⟨net', hact, h'⟩ := h.closed hclients hi
    exact ⟨net', .close hact, h'⟩

/-- Every step is an action of the network, or none. -/
theorem next (h : Mirrors net s) (hnext : s.Next s') :
    ∃ net' new, s'.log = s.log ++ new ∧ Moves net net' new ∧ Mirrors net' s' := by
  have hnone : s.log = s.log ++ [] := (List.append_nil _).symm
  cases hnext with
  | connect _ _ => exact ⟨net, [], hnone, .same, h.connect⟩
  | listen _ hserver hclients => exact ⟨net, [], hnone, .same, h.listen hserver hclients⟩
  | clients _ _ _ hclients hcan hstep =>
    obtain ⟨net', hmoves, h'⟩ := h.clients hclients hcan (mainloopStep_case hstep)
    exact ⟨net', _, rfl, hmoves, h'⟩
  | own hserver hanswer hstep => exact ⟨net, [], hnone, .same, h.own_step hserver hanswer hstep⟩
  | relay hserver hproxy hstep =>
    obtain ⟨net', hmoves, h'⟩ := h.relay hserver hproxy hstep
    exact ⟨net', _, rfl, hmoves, h'⟩
  | serve hserver hrun =>
    obtain ⟨net', hact, h'⟩ := h.serve hserver hrun
    exact ⟨net', [], hnone, .act [] (fun _ h => by cases h) (fun h => by cases h) hact, h'⟩

end Mirrors

/-- Whatever the threads of the proxy do, in any order, there is a run of the network with their tables, the same
messages on the way, the same server, and the same receivers. -/
theorem proxyThreads_network {s : ProxyProgram} (h : s.Running) : ∃ net, Reachable (fun _ _ => True) net ∧
    net.server = s.server ∧ net.toServer.map Prod.snd = s.toServer ∧ net.toProxy.map Prod.snd = s.toProxy ∧
    (s.clientsAt ≠ none → SameTable net.conClients s.conClients) ∧
    ownership s.log = ⟨net.owner, net.accepted, net.delivered.map Prod.snd⟩ := by
  suffices hmirrors : ∃ net, Reachable (fun _ _ => True) net ∧ Mirrors net s by
    obtain ⟨net, hnet, hs⟩ := hmirrors
    exact ⟨net, hnet, hs.server, hs.toServer, hs.toProxy, hs.table, hs.ownership⟩
  induction h with
  | start hsock hserver => exact ⟨_, .start hsock hserver, Mirrors.start hsock hserver⟩
  | next _ hnext ih =>
    obtain ⟨net, hnet, hs⟩ := ih
    obtain ⟨net', new, -, hmoves, hs'⟩ := hs.next hnext
    cases hmoves with
    | same => exact ⟨net, hnet, hs'⟩
    | act _ _ _ hact => exact ⟨net', .step hnet trivial hact, hs'⟩
    | deliver _ _ hact => exact ⟨net', .step hnet trivial hact, hs'⟩
    | close hact => exact ⟨net', .step hnet trivial hact, hs'⟩

/-- A client connects on the descriptor `5`, while `gestion_server` waits. -/
theorem proxyThreads_network_connects : ∃ (s : ProxyProgram) (net : Network),
    s.clientsAt ≠ none ∧ (ownership s.log).owner 5 = some 0 ∧
    Reachable (fun _ _ => True) net ∧ net.owner 5 = some 0 ∧ SameTable net.conClients s.conClients := by
  have hstart : (ProxyProgram.start (tcpConnectionClientInit .proxyServerSide 4 Message.zero)
      (tcpConnectionServerInit .proxyClientsSide 3 Message.zero) 4 3 6 freshServer).Running :=
    .start (by decide) freshServer_eq
  have hlistens := (hstart.next (.connect Message.zero rfl)).next (.listen Message.zero (Option.some_ne_none _) rfl)
  have hopen : ∀ j < 2, (if j = 0 then POLLIN else 0) ≠ 0 →
      peerAt (tcpConnectionServerInit .proxyClientsSide 3 Message.zero).poll j ≠ none := by
    intro j hj _
    rw [peerAt_serverInit _ (by decide)]
    obtain rfl | rfl : j = 0 ∨ j = 1 := by omega
    · exact Option.some_ne_none _
    · exact Option.some_ne_none _
  have hpolled := hlistens.next
    (.clients (.poll (some fun j => if j = 0 then POLLIN else 0)) (fun _ => 0) 0 rfl hopen rfl)
  have hturns := hpolled.next (.clients .noCall (fun _ => 0) 0 rfl trivial rfl)
  have haccepted := hturns.next (.clients (.accept (some (.socket 5 ⟨0, 0, 0⟩ 16))) (fun _ => 0) 0 rfl
    ⟨rfl, by decide, by decide, by decide⟩ rfl)
  obtain ⟨net, hnet, -, -, -, htable, howner⟩ := proxyThreads_network haccepted
  refine ⟨_, net, Option.some_ne_none _, rfl, hnet, ?_, htable (Option.some_ne_none _)⟩
  exact (congrArg (fun o => o.owner 5) howner).symm.trans rfl

end NyanChat
