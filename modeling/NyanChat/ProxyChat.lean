import NyanChat.ProxyThreads

/-!
# The chat through the threads of the proxy

As long as no connection of a client was closed, what the threads of the proxy do is a run of the chat
(`proxyThreads_chat`).  The log tells what the connections have heard: for each of them the texts that were posted for
it, in the order of the server, up to those that are on their way.
-/

namespace NyanChat

open Network

/-! ### What the log tells -/

/-- The texts that are sent to connections, in their order. -/
def heardIn : Ownership → List Traffic → List (ℕ × List UInt8)
  | _, [] => []
  | o, .call c :: log => heardIn (o.after (.call c)) log
  | o, .sent m :: log =>
    ((o.owner m.sock).bind fun Y => (copyText m.msg).map fun text => (Y, text)).toList ++
      heardIn (o.after (.sent m)) log

theorem heardIn_append (o : Ownership) (log new : List Traffic) :
    heardIn o (log ++ new) = heardIn o log ++ heardIn (log.foldl Ownership.after o) new := by
  induction log generalizing o with
  | nil => rfl
  | cons t log ih =>
    cases t with
    | call c => exact ih _
    | sent m => rw [List.cons_append, heardIn, heardIn, ih, List.append_assoc, List.foldl_cons]

theorem heardIn_calls (o : Ownership) (calls : List Call) : heardIn o (calls.map .call) = [] := by
  induction calls generalizing o with
  | nil => rfl
  | cons c calls ih => exact ih _

theorem heardIn_sent (o : Ownership) (sent : List Sent) : heardIn o (sent.map .sent) =
    sent.filterMap fun m => (o.owner m.sock).bind fun Y => (copyText m.msg).map fun text => (Y, text) := by
  induction sent generalizing o with
  | nil => rfl
  | cons m sent ih =>
    rw [List.map_cons, heardIn, ih, Ownership.after, List.filterMap_cons]
    cases (o.owner m.sock).bind fun Y => (copyText m.msg).map fun text => (Y, text) <;> rfl

/-! ### Runs -/

variable {net net' : Network} {s s' : ProxyProgram}

theorem hears_eq_nil {a : Action} (ha : a ≠ .deliver) : net.hears a = [] := by
  cases a with
  | deliver => exact absurd rfl ha
  | accept _ => rfl
  | request _ _ _ => rfl
  | close _ => rfl
  | endTurn => rfl
  | serve _ _ _ => rfl

/-- A step in which nobody leaves goes on with the chat, and its part of the log tells what is heard. -/
theorem Moves.chats {said : List (List ℕ × List UInt8)} {heard : List (ℕ × List UInt8)} {new : List Traffic}
    (hmoves : Moves net net' new) (h : Chats net said heard) (hstay : ∀ fd, .call (.closed fd) ∉ new)
    {o : Ownership} (ho : o.owner = net.owner) : ∃ said', Chats net' said' (heard ++ heardIn o new) := by
  cases hmoves with
  | same =>
    rw [heardIn, List.append_nil]
    exact ⟨said, h⟩
  | act calls ha hdeliver hact =>
    have hstep := h.step ha hact
    rw [hears_eq_nil hdeliver] at hstep
    rw [heardIn_calls]
    exact ⟨_, hstep⟩
  | deliver hproxy hsent hact =>
    have hstep := h.step (fun _ h => by cases h) hact
    rw [hears, hproxy] at hstep
    dsimp only at hstep
    rw [hsent, Option.getD_some] at hstep
    rw [heardIn_sent, ho]
    exact ⟨_, hstep⟩
  | close _ => exact absurd List.mem_cons_self (hstay _)

theorem ProxyProgram.Running.chats (h : s.Running) (hstay : ∀ fd, .call (.closed fd) ∉ s.log) :
    ∃ net said, Chats net said (heardIn (ownership []) s.log) ∧ Mirrors net s := by
  induction h with
  | start hsock hserver => exact ⟨_, [], .start hsock hserver, Mirrors.start hsock hserver⟩
  | @next s s' _ hnext ih =>
    -- the log grows, and so nobody has left before
    have hgrows : ∀ t ∈ s.log, t ∈ s'.log := by
      cases hnext <;> first | exact fun t ht => ht | exact fun t ht => List.mem_append_left _ ht
    obtain ⟨net, said, hchats, hs⟩ := ih fun fd hfd => hstay fd (hgrows _ hfd)
    obtain ⟨net', new, hlog, hmoves, hs'⟩ := hs.next hnext
    rw [hlog] at hstay ⊢
    have howner : (ownership s.log).owner = net.owner := by rw [hs.ownership]
    obtain ⟨said', hchats'⟩ := hmoves.chats hchats (fun fd hfd => hstay fd (List.mem_append_right _ hfd)) howner
    refine ⟨net', said', ?_, hs'⟩
    rw [heardIn_append]
    exact hchats'

/-- As long as nobody has left, the threads of the proxy are in a run of the chat: every message for a client was sent
to the one that it is for, and the connections have heard the texts that were posted for them, in the order of the
server. -/
theorem proxyThreads_chat (h : s.Running) (hstay : ∀ fd, .call (.closed fd) ∉ s.log) : ∃ net said,
    Chats net said (heardIn (ownership []) s.log) ∧ net.server = s.server ∧ net.toProxy.map Prod.snd = s.toProxy ∧
    (ownership s.log).owner = net.owner ∧ (ownership s.log).receivers = net.delivered.map Prod.fst ∧
    ∀ Y, heardBy Y (heardIn (ownership []) s.log) ++ underway Y net.toProxy = postedFor Y said := by
  obtain ⟨net, said, hchats, hs⟩ := h.chats hstay
  have hrouted : net.delivered.map Prod.snd = net.delivered.map Prod.fst :=
    List.map_congr_left fun d hd => (hchats.placed.routed.delivered d hd).symm
  refine ⟨net, said, hchats, hs.server, hs.toProxy, ?_, ?_, hchats.heard_underway⟩
  · rw [hs.ownership]
  · rw [hs.ownership]
    exact hrouted

/-! ### An example -/

/-- What one of the threads does, or the server. -/
private inductive Doing
  | connect
  | listen
  | clients (answer : CallAnswer)
  | reads (msg : Message)
  | ownPoll (revents : ℕ → Int)
  | ownNext
  | relay
  | serve

private def canAnswer (s : ProxyProgram) : CallAnswer → Bool
  | .poll (some revents) =>
    decide (∀ j < s.conClients.nbPollFds, revents j ≠ 0 → peerAt s.conClients.poll j ≠ none)
  | .accept (some (.socket fd _ _)) =>
    decide ((ownership s.log).owner fd = none ∧ (fd : Int) ≠ stdinFd ∧ (fd : Int) ≠ s.sockfd ∧ (fd : Int) ≠ s.serverFd)
  | _ => true

private theorem canAnswer_spec {answer : CallAnswer} (h : canAnswer s answer = true) : s.CanAnswer answer := by
  cases answer with
  | noCall => trivial
  | poll revents =>
    cases revents with
    | none => trivial
    | some revents =>
      rw [canAnswer] at h
      have hopen := of_decide_eq_true h
      exact hopen
  | accept answer =>
    cases answer with
    | none => trivial
    | some answer =>
      cases answer with
      | socket fd addr adLen =>
        rw [canAnswer] at h
        have hfree := of_decide_eq_true h
        exact hfree
      | failed => trivial
  | recv answer => trivial
  | read bytes => trivial

/-- A message that is received in one piece. -/
private def readsWhole {σ : Type} (on : Handlers σ) (st : LoopState σ) (msg : Message) :
    LoopPoint → Option (LoopState σ × LoopPoint)
  | .reading revents current i =>
    if h : i < MAX_POLL_SOCKETS then
      let fd := st.con.poll[i].fd
      let msg :=
        if st.con.typeConnection = .proxyClientsSide then { msg with proxyClientSocket := Int32.ofNat i } else msg
      (on.onMsg fd msg Message.size st.args).map fun r =>
        ({ con := { st.con with msg := r.1, endConnection := st.con.endConnection || r.2.1 }
           args := r.2.2
           calls := st.calls ++ [.onMsg fd msg Message.size] }, .reading revents current i)
    else none
  | _ => none

private theorem mainloopStep_whole {σ : Type} (on : Handlers σ) (st : LoopState σ) (p : LoopPoint) (msg : Message) :
    mainloopStep on st p (.recv (some (.data msg.toBytes))) = readsWhole on st msg p := by
  cases p with
  | polling => rfl
  | sockets revents current i =>
    rw [mainloopStep]
    split
    · rfl
    · rfl
  | accepting revents current i newSock => rfl
  | reading revents current i =>
    rw [mainloopStep, recvStep, readsWhole]
    split
    · dsimp only
      rw [TcpConnection.fill, recvInto_toBytes, Message.toBytes_length]
    · rfl
  | left => rfl

private def does (s : ProxyProgram) : Doing → Option ProxyProgram
  | .connect =>
    match s.serverAt with
    | none => some { s with
        conServer := tcpConnectionClientInit .proxyServerSide s.serverFd Message.zero
        serverAt := some .polling }
    | some _ => none
  | .listen =>
    match s.serverAt, s.clientsAt with
    | some _, none => some { s with
        conClients := tcpConnectionServerInit .proxyClientsSide s.sockfd Message.zero
        clientsAt := some .polling }
    | _, _ => none
  | .clients answer => do
    let p ← s.clientsAt
    if canAnswer s answer then
      let (st, p') ← mainloopStep (gestionClients (fun _ => 0) 0) ⟨s.conClients, ⟨s.conServer, []⟩, []⟩ p answer
      return { s with
        conClients := st.con
        conServer := st.args.con
        clientsAt := some p'
        toServer := s.toServer ++ s.reachServer st.args.sent
        log := s.log ++ st.calls.map .call }
    else none
  | .reads msg => do
    let p ← s.clientsAt
    let (st, p') ← readsWhole (gestionClients (fun _ => 0) 0) ⟨s.conClients, ⟨s.conServer, []⟩, []⟩ msg p
    return { s with
      conClients := st.con
      conServer := st.args.con
      clientsAt := some p'
      toServer := s.toServer ++ s.reachServer st.args.sent
      log := s.log ++ st.calls.map .call }
  | .ownPoll revents => do
    let p ← s.serverAt
    let (st, p') ← mainloopStep (gestionServer 0) ⟨s.conServer, ⟨s.conClients, []⟩, []⟩ p (.poll (some revents))
    return { s with conServer := st.con, conClients := st.args.con, serverAt := some p' }
  | .ownNext => do
    let p ← s.serverAt
    let (st, p') ← mainloopStep (gestionServer 0) ⟨s.conServer, ⟨s.conClients, []⟩, []⟩ p .noCall
    return { s with conServer := st.con, conClients := st.args.con, serverAt := some p' }
  | .relay =>
    match s.toProxy with
    | [] => none
    | msg :: rest => do
      let p ← s.serverAt
      let (st, p') ← readsWhole (gestionServer 0) ⟨s.conServer, ⟨s.conClients, []⟩, []⟩ msg p
      return { s with
        conServer := st.con
        conClients := st.args.con
        serverAt := some p'
        toProxy := rest
        log := s.log ++ st.args.sent.map .sent }
  | .serve =>
    match s.toServer with
    | [] => none
    | msg :: rest => do
      let r ← onMsgReceived zeroSyndromes 20 ⟨0, 0⟩ ⟨Message.zero, Message.zero, Message.zero, Message.zero⟩ s.proxySock
        msg s.server
      return { s with toServer := rest, server := r.state, toProxy := s.toProxy ++ r.sent.map Sent.msg }

private theorem does_next {d : Doing} (h : does s d = some s') : s.Next s' := by
  cases d with
  | connect =>
    dsimp only [does] at h
    split at h
    · rename_i hserver
      cases h
      exact .connect _ hserver
    · cases h
  | listen =>
    dsimp only [does] at h
    split at h
    · rename_i hserver hclients
      cases h
      exact .listen _ (hserver ▸ Option.some_ne_none _) hclients
    · cases h
  | clients answer =>
    obtain ⟨p, hp, h⟩ := Option.bind_eq_some_iff.1 h
    dsimp only at h
    split at h
    · rename_i hcan
      obtain ⟨⟨st, p'⟩, hstep, h⟩ := Option.bind_eq_some_iff.1 h
      cases h
      exact .clients answer _ _ hp (canAnswer_spec hcan) hstep
    · cases h
  | reads msg =>
    obtain ⟨p, hp, h⟩ := Option.bind_eq_some_iff.1 h
    obtain ⟨⟨st, p'⟩, hstep, h⟩ := Option.bind_eq_some_iff.1 h
    cases h
    rw [← mainloopStep_whole] at hstep
    exact .clients (.recv (some (.data msg.toBytes))) _ _ hp trivial hstep
  | ownPoll revents =>
    obtain ⟨p, hp, h⟩ := Option.bind_eq_some_iff.1 h
    obtain ⟨⟨st, p'⟩, hstep, h⟩ := Option.bind_eq_some_iff.1 h
    cases h
    exact .own hp (fun a h => by cases h) hstep
  | ownNext =>
    obtain ⟨p, hp, h⟩ := Option.bind_eq_some_iff.1 h
    obtain ⟨⟨st, p'⟩, hstep, h⟩ := Option.bind_eq_some_iff.1 h
    cases h
    exact .own hp (fun a h => by cases h) hstep
  | relay =>
    dsimp only [does] at h
    split at h
    · cases h
    · rename_i msg rest hproxy
      obtain ⟨p, hp, h⟩ := Option.bind_eq_some_iff.1 h
      obtain ⟨⟨st, p'⟩, hstep, h⟩ := Option.bind_eq_some_iff.1 h
      cases h
      rw [← mainloopStep_whole] at hstep
      exact .relay hp hproxy hstep
  | serve =>
    dsimp only [does] at h
    split at h
    · cases h
    · rename_i msg rest hserver
      obtain ⟨r, hr, h⟩ := Option.bind_eq_some_iff.1 h
      cases h
      exact .serve hserver hr

private theorem does_running {ds : List Doing} (h : s.Running) (hds : ds.foldlM does s = some s') : s'.Running := by
  induction ds generalizing s with
  | nil =>
    cases hds
    exact h
  | cons d ds ih =>
    obtain ⟨next, hnext, hds⟩ := Option.bind_eq_some_iff.1 hds
    exact ih (h.next (does_next hnext)) hds

/-- A socket of the table has something to read. -/
private def readyAt (i : ℕ) : ℕ → Int := fun j => if j = i then POLLIN else 0

/-- Alice connects on the descriptor `5`, gets a session and sends a text.  The other thread is in its loop of
`read_poll_socket` all the time. -/
private def aliceTalks : List Doing :=
  [.connect, .ownPoll (readyAt 0), .ownNext, .listen, .clients (.poll (some (readyAt 0))), .clients .noCall,
    .clients (.accept (some (.socket 5 ⟨0, 0, 0⟩ 16))), .clients (.accept none), .clients .noCall, .clients .noCall,
    .clients (.poll (some (readyAt 2))), .clients .noCall, .clients .noCall, .clients .noCall,
    .reads (connectionRequest "alice" "secret" 0), .serve, .relay, .reads (textMessage "alice" "hi" 0), .serve, .relay,
    .relay]

private def beforeAlice : ProxyProgram :=
  .start (tcpConnectionClientInit .proxyServerSide 4 Message.zero)
    (tcpConnectionServerInit .proxyClientsSide 3 Message.zero) 4 3 6 freshServer

private def isLeaving : Traffic → Bool
  | .call (.closed _) => true
  | _ => false

private theorem aliceTalks_heard : ((aliceTalks.foldlM does beforeAlice).map fun s =>
    (heardIn (ownership []) s.log, (ownership s.log).receivers, s.log.any isLeaving)) =
      some ([(0, ascii "hi")], [0, 0, 0], false) := by
  decide +kernel

/-- She has heard her own text, and the answers. -/
theorem proxyThreads_chat_alice : ∃ (s : ProxyProgram) (net : Network) (said : List (List ℕ × List UInt8)),
    s.Running ∧ (∀ fd, .call (.closed fd) ∉ s.log) ∧ Chats net said [(0, ascii "hi")] ∧
    net.delivered.map Prod.fst = [0, 0, 0] ∧
    heardBy 0 [(0, ascii "hi")] ++ underway 0 net.toProxy = postedFor 0 said := by
  obtain ⟨s, hs, hlog⟩ := Option.map_eq_some_iff.1 aliceTalks_heard
  obtain ⟨hheard, hlog⟩ := Prod.mk.inj hlog
  obtain ⟨hreceivers, hleaves⟩ := Prod.mk.inj hlog
  have hrun : s.Running := does_running (.start (by decide) freshServer_eq) hs
  have hstay : ∀ fd, .call (.closed fd) ∉ s.log := by
    intro fd hfd
    exact Bool.false_ne_true (hleaves.symm.trans (List.any_eq_true.2 ⟨_, hfd, rfl⟩))
  obtain ⟨net, said, hchats, -, -, -, hdelivered, hposted⟩ := proxyThreads_chat hrun hstay
  rw [hheard] at hchats hposted
  exact ⟨s, net, said, hrun, hstay, hchats, hdelivered.symm.trans hreceivers, hposted 0⟩

end NyanChat
