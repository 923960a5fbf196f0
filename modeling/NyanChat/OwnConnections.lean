import NyanChat.Closing

/-!
# Own connections

A client has one connection, to the proxy, and the proxy has one to the server.  Its table holds the socket and the
standard input until the other side closes the connection, which ends the main loop; then the closing closes the
socket a second time and the program exits (`ownConnection_closesOpen_iff`).
-/

namespace NyanChat

variable {σ : Type} {on : Handlers σ} {ready : ℕ → Ready} {con con' : TcpConnection}

/-! ### The table -/

/-- The connection ends in the data, orderly or with an error. -/
def gone : List Recv → Bool
  | [] => false
  | .data _ :: rest => gone rest
  | .closed :: _ => true
  | .failed :: _ => true

theorem readLoop_gone {i : ℕ} {fd : Int} {recvs : List Recv} {st : LoopState σ} {r : LoopState σ × Bool}
    (hrun : readLoop on i fd recvs st = some r) : r.2 = gone recvs := by
  induction recvs generalizing st with
  | nil =>
    cases hrun
    rfl
  | cons a recvs ih =>
    cases a with
    | closed =>
      cases hrun
      rfl
    | failed =>
      cases hrun
      rfl
    | data bytes =>
      rw [readLoop] at hrun
      dsimp only at hrun
      split at hrun
      · cases hrun
      · exact ih hrun

/-- The table of an own connection, with its socket and the standard input. -/
def ownPoll (sockfd : Int) : PollTable := (tcpConnectionClientInit .client sockfd Message.zero).poll

/-- An own connection that is open. -/
structure Own (type : ConnectionType) (sockfd : Int) (con : TcpConnection) : Prop where
  kind : con.typeConnection = type
  sock : con.sockfd = sockfd
  poll : con.poll = ownPoll sockfd
  nb : con.nbPollFds = 2
  need : con.needCompressPollArr = false

/-- An own connection that the other side has closed. -/
structure Ended (sockfd : Int) (con : TcpConnection) : Prop where
  sock : con.sockfd = sockfd
  poll : con.poll = (ownPoll sockfd).set 0 { ownPeer (-1) with events := POLLIN }
  nb : con.nbPollFds = 2
  need : con.needCompressPollArr = true
  ended : con.endConnection = true

variable {type : ConnectionType} {sockfd : Int}

/-- `recv` of this turn returns 0 or fails.  When `poll` only says `POLLHUP` or `POLLERR`, the loop ends as well, with
the socket open. -/
def PeerGone (ready : ℕ → Ready) : Prop := (ready 0).revents = POLLIN ∧ gone (ready 0).recvs = true

instance (ready : ℕ → Ready) : Decidable (PeerGone ready) := inferInstanceAs (Decidable (_ ∧ _))

def OnlyMsgs (calls : List Call) : Prop := ∀ c ∈ calls, ∃ s m l, c = .onMsg s m l

/-- A turn of an own connection after its first entry. -/
inductive OwnTurn (type : ConnectionType) (sockfd : Int) (ready : ℕ → Ready) (con : TcpConnection) (calls : List Call) :
    Prop
  | stays : ¬ PeerGone ready → Own type sockfd con → OnlyMsgs calls → OwnTurn type sockfd ready con calls
  | gone {msgs : List Call} : PeerGone ready → Ended sockfd con → OnlyMsgs msgs → calls = msgs ++ [.closed sockfd] →
      OwnTurn type sockfd ready con calls

theorem Own.congr (h : Own type sockfd con) (hs : SameTable con con') : Own type sockfd con' :=
  ⟨hs.type.trans h.kind, hs.sockfd.trans h.sock, hs.poll.trans h.poll, hs.nbPollFds.trans h.nb, hs.need.trans h.need⟩

theorem OwnTurn.congr {calls : List Call} (h : OwnTurn type sockfd ready con calls) (hs : SameTable con con')
    (hended : con.endConnection = true → con'.endConnection = true) : OwnTurn type sockfd ready con' calls := by
  cases h with
  | stays hgone hown hmsgs => exact .stays hgone (hown.congr hs) hmsgs
  | gone hgone hend hmsgs hcalls =>
    exact .gone hgone ⟨hs.sockfd.trans hend.sock, hs.poll.trans hend.poll, hs.nbPollFds.trans hend.nb,
      hs.need.trans hend.need, hended hend.ended⟩ hmsgs hcalls

/-- The socket of the connection is read. -/
theorem Own.dispatch_zero (h : Own type sockfd con) (htype : type = .client ∨ type = .proxyServerSide) {args : σ}
    {r : LoopState σ × Bool}
    (hrun : dispatch on ready (⟨con, args, []⟩, false) 0 = some r) :
    OwnTurn type sockfd ready r.1.con r.1.calls := by
  have hnone : OnlyMsgs [] := fun c hc => absurd hc List.not_mem_nil
  cases dispatch_dispatched hrun with
  | skipped hskip =>
    refine .stays (fun hgone => ?_) h hnone
    have hzero := hskip.resolve_left Bool.false_ne_true
    rw [hgone.1] at hzero
    cases hzero
  | error _ _ hother => exact .stays (fun hgone => hother hgone.1) (h.congr ⟨rfl, rfl, rfl, rfl, rfl⟩) hnone
  | handled hi _ hpollin hentry =>
    have hfd : con.poll[0].fd = sockfd := by rw [h.poll]; rfl
    have hread : con.handling 0 = .read := by
      rw [TcpConnection.handling, dif_pos hi, TcpConnection.handlingOf, hfd, h.sock, h.kind, if_neg,
        if_pos ⟨htype, rfl⟩]
      rcases htype with rfl | rfl <;> simp
    dsimp only at hentry
    rw [hread] at hentry
    obtain ⟨st', hst', rfl⟩ := Option.map_eq_some_iff.1 hentry
    obtain ⟨r, hloop, hst'⟩ := Option.map_eq_some_iff.1 hst'
    obtain ⟨hsame, new, hcalls, hnew⟩ := readLoop_sameTable hloop
    have hgone := readLoop_gone hloop
    rw [List.nil_append] at hcalls
    have hown := h.congr hsame
    dsimp only at hst'
    split at hst'
    · rename_i hclosed
      subst hst'
      refine .gone ⟨hpollin, hgone ▸ hclosed⟩ ⟨hown.sock, ?_, hown.nb, rfl, ?_⟩ (hnew : OnlyMsgs new) ?_
      · simp only [TcpConnection.close, hown.poll]
        rfl
      · simp only [TcpConnection.close, hown.kind]
        rcases htype with rfl | rfl <;> simp
      · simp only [hcalls, hfd]
    · rename_i hopen
      subst hst'
      refine .stays (fun hpeer => hopen (hgone.trans hpeer.2)) hown ?_
      rw [hcalls]
      exact hnew

/-- The standard input is read, and the table stays. -/
theorem OwnTurn.dispatch_one {r r' : LoopState σ × Bool} (h : OwnTurn type sockfd ready r.1.con r.1.calls)
    (hsock : 0 < sockfd) (hrun : dispatch on ready r 1 = some r') : OwnTurn type sockfd ready r'.1.con r'.1.calls := by
  cases dispatch_dispatched hrun with
  | skipped _ => exact h
  | error _ _ _ => exact h.congr ⟨rfl, rfl, rfl, rfl, rfl⟩ fun _ => rfl
  | handled hi _ _ hentry =>
    have hfd : r.1.con.poll[1].fd = stdinFd := by
      cases h with
      | stays _ hown _ => rw [hown.poll]; rfl
      | gone _ hend _ _ => rw [hend.poll]; rfl
    have hne : stdinFd ≠ r.1.con.sockfd := by
      have heq : r.1.con.sockfd = sockfd := by
        cases h with
        | stays _ hown _ => exact hown.sock
        | gone _ hend _ _ => exact hend.sock
      rw [heq]
      exact show (0 : Int) ≠ sockfd by omega
    have hstdin : r.1.con.handling 1 = .stdin := by
      rw [TcpConnection.handling, dif_pos hi, TcpConnection.handlingOf, hfd, if_neg fun hand => hne hand.2,
        if_neg fun hand => hne hand.2, if_pos rfl]
    rw [hstdin, handleEntry] at hentry
    split at hentry
    · cases hentry
      exact h
    · obtain ⟨st', hst', rfl⟩ := Option.map_eq_some_iff.1 hentry
      obtain ⟨hsame, hcalls⟩ := readStdin_sameTable hst'
      rw [hcalls]
      refine h.congr hsame fun hended => ?_
      unfold readStdin at hst'
      split at hst'
      · cases hst'
        exact hended
      · obtain ⟨_, -, rfl⟩ := Option.map_eq_some_iff.1 hst'
        simp only [hended, Bool.true_or]

theorem Own.handleSockets (h : Own type sockfd con) (htype : type = .client ∨ type = .proxyServerSide)
    (hsock : 0 < sockfd) {args : σ} {st : LoopState σ}
    (hrun : handleSockets on ready con args = some st) : OwnTurn type sockfd ready st.con st.calls := by
  obtain ⟨r, hfold, rfl⟩ := Option.map_eq_some_iff.1 hrun
  have hrange : List.range con.nbPollFds = [0, 1] := by rw [h.nb]; rfl
  rw [hrange, List.foldlM_cons] at hfold
  obtain ⟨r₀, hzero, hfold⟩ := Option.bind_eq_some_iff.1 hfold
  rw [List.foldlM_cons] at hfold
  obtain ⟨r₁, hone, hfold⟩ := Option.bind_eq_some_iff.1 hfold
  cases hfold
  exact (h.dispatch_zero htype hzero).dispatch_one hsock hone

/-- The end of the turn: a closed entry is filled with a never used one, which looks like the standard input. -/
theorem OwnTurn.compressIfNeeded {calls : List Call} (h : OwnTurn type sockfd ready con calls)
    (hrun : compressIfNeeded con 2 = some con') :
    con'.endConnection = con.endConnection ∧ tcpConnectionClose con' = [.closed sockfd] ∧
      (¬ PeerGone ready → Own type sockfd con') := by
  -- a table without other sockets
  have hclose : con'.sockfd = sockfd → con'.nbPollFds = 2 → (con'.poll[0].fd = sockfd ∨ con'.poll[0].fd = 0) →
      con'.poll[1].fd = 0 → tcpConnectionClose con' = [.closed sockfd] := by
    intro hsockfd hnb h0 h1
    have hnil : tableFds con' = [] := by
      rw [List.eq_nil_iff_forall_not_mem]
      intro fd hmem
      obtain ⟨j, hj, p, hp, rfl, -, hne, hstdin⟩ := mem_tableFds.1 hmem
      obtain ⟨hlt, rfl, -⟩ := peerAt_eq_some hp
      have hj : j = 0 ∨ j = 1 := by omega
      rcases hj with rfl | rfl
      · rcases h0 with h0 | h0
        · exact hne (h0.trans hsockfd.symm)
        · exact hstdin h0
      · exact hstdin h1
    rw [tcpConnectionClose_eq, hnil, hsockfd]
    rfl
  cases h with
  | stays hgone hown _ =>
    rw [NyanChat.compressIfNeeded, hown.need, if_neg Bool.false_ne_true] at hrun
    cases hrun
    refine ⟨rfl, hclose hown.sock hown.nb (Or.inl ?_) ?_, fun _ => hown⟩ <;> rw [hown.poll] <;> rfl
  | gone hgone hend _ _ =>
    rw [NyanChat.compressIfNeeded, hend.need, if_pos rfl] at hrun
    have hcompress : ∃ con', compressPollSocketArray { con with needCompressPollArr := false } 2 = some con' ∧
        con'.endConnection = con.endConnection ∧ con'.sockfd = con.sockfd ∧ con'.nbPollFds = 2 ∧
        con'.poll[0].fd = 0 ∧ con'.poll[1].fd = 0 := by
      obtain ⟨sock, poll, nb, msg, kind, ended, need⟩ := con
      obtain rfl : poll = (ownPoll sockfd).set 0 { ownPeer (-1) with events := POLLIN } := hend.poll
      exact ⟨_, rfl, rfl, rfl, rfl, rfl, rfl⟩
    obtain ⟨con₁, hrun₁, hendc, hsockc, hnb, h0, h1⟩ := hcompress
    obtain rfl := Option.some.inj (hrun₁.symm.trans hrun)
    exact ⟨hendc, hclose (hsockc.trans hend.sock) hnb (Or.inr h0) h1, fun hno => absurd hgone hno⟩

/-- A turn of an own connection. -/
theorem Own.turn {st st' : LoopState σ} (h : Own type sockfd st.con)
    (htype : type = .client ∨ type = .proxyServerSide) (hsock : 0 < sockfd)
    (hrun : mainloopTurn on ready st = some st') :
    ∃ new, st'.calls = st.calls ++ new ∧ tcpConnectionClose st'.con = [.closed sockfd] ∧
      (PeerGone ready → st'.con.endConnection = true ∧ ∃ msgs, OnlyMsgs msgs ∧ new = msgs ++ [.closed sockfd]) ∧
      (¬ PeerGone ready → Own type sockfd st'.con ∧ OnlyMsgs new) := by
  obtain ⟨st₁, hsockets, hrun⟩ := Option.bind_eq_some_iff.1 hrun
  obtain ⟨con, hcompress, rfl⟩ := Option.map_eq_some_iff.1 hrun
  have hturn := h.handleSockets htype hsock hsockets
  rw [h.nb] at hcompress
  obtain ⟨hend, hclose, hopen⟩ := hturn.compressIfNeeded hcompress
  refine ⟨st₁.calls, rfl, hclose, fun hgone => ?_, fun hno => ?_⟩
  · cases hturn with
    | stays hno _ _ => exact absurd hgone hno
    | gone _ hended hmsgs hcalls => exact ⟨hend.trans hended.ended, _, hmsgs, hcalls⟩
  · cases hturn with
    | stays _ _ hmsgs => exact ⟨hopen hno, hmsgs⟩
    | gone hgone _ _ _ => exact absurd hgone hno

/-- A loop that still waits has an open connection. -/
theorem Own.mainloop {polls : List PollAnswer} {st st' : LoopState σ} (h : Own type sockfd st.con)
    (htype : type = .client ∨ type = .proxyServerSide) (hsock : 0 < sockfd)
    (hmsgs : OnlyMsgs st.calls) (hrun : tcpConnectionMainloop on polls st = some (st', false)) :
    Own type sockfd st'.con ∧ OnlyMsgs st'.calls := by
  induction polls generalizing st with
  | nil =>
    cases hrun
    exact ⟨h, hmsgs⟩
  | cons answer polls ih =>
    cases answer with
    | failed => cases hrun
    | ready ready =>
      obtain ⟨st₁, hturn, hrun⟩ := Option.bind_eq_some_iff.1 hrun
      obtain ⟨new, hcalls, -, hgone, hopen⟩ := h.turn htype hsock hturn
      split at hrun
      · cases hrun
      · rename_i hwaits
        obtain ⟨hown, hnew⟩ := hopen fun hpeer => hwaits (hgone hpeer).1
        refine ih hown ?_ hrun
        rw [hcalls]
        exact fun c hc => (List.mem_append.1 hc).elim (hmsgs c) (hnew c)

/-- In every run, the turn in which the other side closes the own connection of a client or of the proxy is its last
one, and then the closing of the connection exits, since its socket is closed already.  After every other turn the
closing closes the socket of the connection, and nothing else. -/
theorem ownConnection_closesOpen_iff (htype : type = .client ∨ type = .proxyServerSide) (hsock : 0 < sockfd)
    {msg : Message} {args : σ} {polls : List PollAnswer} {st st' : LoopState σ}
    (hrun : tcpConnectionMainloop on polls ⟨tcpConnectionClientInit type sockfd msg, args, []⟩ = some (st, false))
    (hturn : mainloopTurn on ready st = some st') :
    tcpConnectionClose st'.con = [.closed sockfd] ∧ (PeerGone ready → st'.con.endConnection = true) ∧
      (ClosesOpen [ownPeer sockfd, ownPeer stdinFd] (st'.calls ++ tcpConnectionClose st'.con) ↔ ¬ PeerGone ready) := by
  have hstart : Own type sockfd (tcpConnectionClientInit type sockfd msg) := ⟨rfl, rfl, rfl, rfl, rfl⟩
  obtain ⟨hown, hmsgs⟩ := hstart.mainloop htype hsock (fun c hc => absurd hc List.not_mem_nil) hrun
  obtain ⟨new, hcalls, hclose, hgone, hopen⟩ := hown.turn htype hsock hturn
  refine ⟨hclose, fun hpeer => (hgone hpeer).1, ?_⟩
  rw [hclose, hcalls, closesOpen_append, closesOpen_closed]
  by_cases hpeer : PeerGone ready
  · refine iff_of_false ?_ (not_not.2 hpeer)
    rintro ⟨-, p, hp, hfd⟩
    obtain ⟨-, msgs, hmsgs', rfl⟩ := hgone hpeer
    rw [opened_append, opened_append, opened_of_onMsg hmsgs, opened_of_onMsg hmsgs'] at hp
    have hne := (List.mem_filter.1 hp).2
    rw [decide_eq_true_iff] at hne
    exact hne hfd
  · refine iff_of_true ?_ hpeer
    have hall : OnlyMsgs (st.calls ++ new) := fun c hc => (List.mem_append.1 hc).elim (hmsgs c) ((hopen hpeer).2 c)
    rw [opened_of_onMsg hall]
    refine ⟨closesOpen_of_not_closed fun fd hmem => ?_, _, List.mem_cons_self, rfl⟩
    obtain ⟨_, _, _, hc⟩ := hall _ hmem
    cases hc

/-- The proxy or the server has closed the connection. -/
def peerCloses : ℕ → Ready := onlyReady 0 { quiet with recvs := [.closed] }

theorem ownConnection_closesOpen_iff_closed : ∃ st',
    mainloopTurn silentHandlers peerCloses ⟨tcpConnectionClientInit .client 3 Message.zero, (), []⟩ = some st' ∧
      ¬ ClosesOpen [ownPeer 3, ownPeer stdinFd] (st'.calls ++ tcpConnectionClose st'.con) := by
  have hturn : ∃ st', mainloopTurn silentHandlers peerCloses
      ⟨tcpConnectionClientInit .client 3 Message.zero, (), []⟩ = some st' := ⟨_, rfl⟩
  obtain ⟨st', hturn⟩ := hturn
  have hrun : tcpConnectionMainloop silentHandlers [] ⟨tcpConnectionClientInit .client 3 Message.zero, (), []⟩ =
      some (⟨tcpConnectionClientInit .client 3 Message.zero, (), []⟩, false) := rfl
  have hiff := (ownConnection_closesOpen_iff (Or.inl rfl) (by decide) hrun hturn).2.2
  exact ⟨st', hturn, fun hcloses => hiff.1 hcloses ⟨rfl, rfl⟩⟩

end NyanChat
