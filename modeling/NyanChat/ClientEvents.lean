import NyanChat.MainLoop
import NyanChat.Proxy

/-!
# The events of one client

The main loop of the server and of the clients' side of the proxy, one socket after the other, while the other thread
of the proxy sends replies.  What `poll` reports for the socket of a single client ends the connection when it is not
exactly `POLLIN`, and so does a `send` that fails; nothing else that a client does (`clientEvent_ends_iff`).
-/

namespace NyanChat

/-! ### Sending -/

/-- `tcp_connection_message_send`, with the answer of `send`. -/
def tcpConnectionMessageSend (con : TcpConnection) (bytesSent : Int) : TcpConnection :=
  { con with endConnection := con.endConnection || bytesSent = -1 }

/-- `m` messages sent one after the other.  `rc k` is the answer of the `k`-th `send` of the connection, and `n` were
sent before. -/
def sendAll (rc : ℕ → Int) (n m : ℕ) (con : TcpConnection) : TcpConnection :=
  (List.range m).foldl (fun con j => tcpConnectionMessageSend con (rc (n + j))) con

/-- One of these `send`s failed. -/
def failedSend (rc : ℕ → Int) (n m : ℕ) : Bool := (List.range m).any fun j => rc (n + j) = -1

variable {rc : ℕ → Int} {n m : ℕ} {con con' : TcpConnection}

theorem failedSend_add (rc : ℕ → Int) (n m k : ℕ) :
    failedSend rc n (m + k) = (failedSend rc n m || failedSend rc (n + m) k) := by
  rw [failedSend, List.range_add, List.any_append, List.any_map]
  simp only [failedSend, Function.comp_def, Nat.add_assoc]

theorem failedSend_eq_false : failedSend rc n m = false ↔ ∀ k, n ≤ k → k < n + m → rc k ≠ -1 := by
  simp only [failedSend, List.any_eq_false, List.mem_range, decide_eq_true_iff]
  refine ⟨fun h k hle hlt => ?_, fun h j hj => h (n + j) (by omega) (by omega)⟩
  have := h (k - n) (by omega)
  rwa [Nat.add_sub_cancel' hle] at this

theorem sendAll_eq (rc : ℕ → Int) (n m : ℕ) (con : TcpConnection) :
    sendAll rc n m con = { con with endConnection := con.endConnection || failedSend rc n m } := by
  induction m with
  | zero => rw [sendAll, failedSend]; simp
  | succ m ih =>
    rw [sendAll, List.range_succ, List.foldl_append, failedSend_add]
    rw [sendAll] at ih
    rw [ih]
    simp [tcpConnectionMessageSend, failedSend, Bool.or_assoc]

/-! ### Programs -/

/-- A program that listens for clients: what its `on_msg` does in its `k`-th call, with the messages that it sends on
this connection. -/
structure Program (σ : Type) where
  type : ConnectionType
  listens : type = .server ∨ type = .proxyClientsSide
  onMsg : ℕ → Int → Message → ℕ → σ → Option (Message × List Sent × σ)

/-- The state of a program, with the numbers of the calls of `on_msg` and of `send`. -/
structure Progress (σ : Type) where
  state : σ
  calls : ℕ
  sends : ℕ

variable {σ : Type}

def Program.handlers (P : Program σ) (rc : ℕ → Int) : Handlers (Progress σ) where
  onMsg sock msg len p := (P.onMsg p.calls sock msg len p.state).map fun r =>
    (r.1, failedSend rc p.sends r.2.1.length, ⟨r.2.2, p.calls + 1, p.sends + r.2.1.length⟩)
  onStdin := none

/-- What a call of `on_msg_received` finds outside the state of the server. -/
structure Surroundings where
  fuel : ℕ
  clock : Clock
  locals : Locals

def serverProgram (S : Syndromes) (env : ℕ → Surroundings) : Program ServerState where
  type := .server
  listens := Or.inl rfl
  onMsg k sock msg _ s :=
    (onMsgReceived S (env k).fuel (env k).clock (env k).locals sock msg s).map fun r => (r.msg, r.sent, r.state)

/-- The clients' side of the proxy.  What `on_client_received` sends is sent on the other connection. -/
def proxyProgram (rands : ℕ → ℕ → ℕ) (serverFd : Int) : Program Unit where
  type := .proxyClientsSide
  listens := Or.inr rfl
  onMsg k _ msg _ s := (onClientReceived (rands k) serverFd msg).map fun r => (r.1, [], s)

/-! ### The main loop, one socket after the other -/

/-- The main loop between two of its steps: in a turn that began with `current` entries the socket `next` is handled
next.  Between two turns `current` is zero. -/
structure Turn (σ : Type) where
  loop : LoopState (Progress σ)
  broke : Bool
  ready : ℕ → Ready
  next : ℕ
  current : ℕ

def Turn.start (P : Program σ) (sockfd : Int) (msg : Message) (s : σ) : Turn σ where
  loop := ⟨tcpConnectionServerInit P.type sockfd msg, ⟨s, 0, 0⟩, []⟩
  broke := false
  ready _ := { revents := 0, accepts := [], recvs := [], stdin := none }
  next := 0
  current := 0

/-- The steps of the loop, and `on_server_received` in the other thread of the proxy. -/
inductive LoopEvent
  | poll (ready : ℕ → Ready)
  | socket
  | compress
  | reply (msg : Message)

def Turn.step (P : Program σ) (rc : ℕ → Int) (t : Turn σ) : LoopEvent → Option (Turn σ)
  | .poll ready =>
    if t.current = 0 ∧ t.loop.con.endConnection = false then
      some { loop := { t.loop with calls := [] }, broke := false, ready := ready, next := 0,
             current := t.loop.con.nbPollFds }
    else none
  | .socket =>
    if t.next < t.current then
      (dispatch (P.handlers rc) t.ready (t.loop, t.broke) t.next).map fun r =>
        { t with loop := r.1, broke := r.2, next := t.next + 1 }
    else none
  | .compress =>
    if 0 < t.current ∧ t.current ≤ t.next then
      (compressIfNeeded t.loop.con t.current).map fun con =>
        { t with loop := { t.loop with con := con }, current := 0 }
    else none
  | .reply msg =>
    if P.type = .proxyClientsSide then
      (onServerReceived t.loop.con msg).map fun sent =>
        { t with loop := { t.loop with
            con := sendAll rc t.loop.args.sends sent.length t.loop.con
            args := { t.loop.args with sends := t.loop.args.sends + sent.length } } }
    else none

/-- The states of the main loop of a program that listens on `sockfd`. -/
inductive Serving (P : Program σ) (rc : ℕ → Int) (sockfd : Int) : Turn σ → Prop
  | start (msg : Message) (s : σ) : 0 < sockfd → Serving P rc sockfd (Turn.start P sockfd msg s)
  | step {t t' : Turn σ} (e : LoopEvent) : Serving P rc sockfd t → t.step P rc e = some t' → Serving P rc sockfd t'

/-- The event concerns the socket of a client, its removal from the table or a reply to it. -/
def ConcernsClient (t : Turn σ) : LoopEvent → Prop
  | .poll _ => False
  | .socket => t.broke = false ∧ ∃ h : t.next < MAX_POLL_SOCKETS,
      t.loop.con.poll[t.next].fd ≠ t.loop.con.sockfd ∧ t.loop.con.poll[t.next].fd ≠ stdinFd
  | .compress => True
  | .reply _ => True

/-- `poll` reported nothing but `POLLIN`. -/
def Regular (t : Turn σ) : LoopEvent → Prop
  | .socket => (t.ready t.next).revents = 0 ∨ (t.ready t.next).revents = POLLIN
  | _ => True

/-- No `send` between two states failed. -/
def Sends (rc : ℕ → Int) (t t' : Turn σ) : Prop :=
  ∀ k, t.loop.args.sends ≤ k → k < t'.loop.args.sends → rc k ≠ -1

variable {P : Program σ} {sockfd : Int} {t t' : Turn σ} {e : LoopEvent}

/-- A turn of the main loop is made of these steps. -/
theorem Serving.handleSockets (h : Serving P rc sockfd t) (hidle : t.current = 0)
    (hopen : t.loop.con.endConnection = false) {ready : ℕ → Ready} {st : LoopState (Progress σ)}
    (hturn : handleSockets (P.handlers rc) ready t.loop.con t.loop.args = some st) :
    ∃ broke, Serving P rc sockfd ⟨st, broke, ready, t.loop.con.nbPollFds, t.loop.con.nbPollFds⟩ := by
  have hpolled := Serving.step (.poll ready) h (by rw [Turn.step, if_pos ⟨hidle, hopen⟩])
  obtain ⟨⟨st, broke⟩, hfold, rfl⟩ := Option.map_eq_some_iff.1 hturn
  refine ⟨broke, ?_⟩
  refine Loop.foldlM_range_of_some (fun i (r : LoopState (Progress σ) × Bool) =>
    Serving P rc sockfd ⟨r.1, r.2, ready, i, t.loop.con.nbPollFds⟩) hfold hpolled fun i hi r r' hserving hstep => ?_
  refine Serving.step .socket hserving ?_
  rw [Turn.step, if_pos hi, hstep]
  rfl

/-! ### The listener stays at the first index -/

/-- The first index holds the listener. -/
structure Listens (P : Program σ) (sockfd : Int) (con : TcpConnection) : Prop where
  type : con.typeConnection = P.type
  sock : con.sockfd = sockfd
  first : ∃ p, peerAt con.poll 0 = some p ∧ p.fd = sockfd
  pos : 0 < con.nbPollFds

namespace Listens

theorem congr (h : Listens P sockfd con) (hs : SameTable con con') : Listens P sockfd con' := by
  refine ⟨hs.type.trans h.type, hs.sockfd.trans h.sock, ?_, ?_⟩
  · rw [hs.poll]
    exact h.first
  · rw [hs.nbPollFds]
    exact h.pos

theorem register (h : Listens P sockfd con) {peer : Peer} (hfd : peer.fd ≠ -1)
    (hnb : con.nbPollFds < MAX_POLL_SOCKETS) : Listens P sockfd (con.register peer hnb) := by
  refine ⟨h.type, h.sock, ?_, Nat.succ_pos _⟩
  have hpos := h.pos
  rw [peerAt_register hnb hfd, if_neg (by omega)]
  exact h.first

theorem close (h : Listens P sockfd con) {i : ℕ} (hi : i < MAX_POLL_SOCKETS) (hfd : con.poll[i].fd ≠ con.sockfd) :
    Listens P sockfd (con.close i hi) := by
  refine ⟨h.type, h.sock, ?_, h.pos⟩
  obtain ⟨p, hp, hsock⟩ := h.first
  have hne : (0 : ℕ) ≠ i := by
    rintro rfl
    obtain ⟨_, hpeer, -⟩ := peerAt_eq_some hp
    exact hfd (by rw [h.sock, ← hsock, ← hpeer])
  rw [peerAt_close, if_neg hne]
  exact ⟨p, hp, hsock⟩

theorem acceptLoop {newSock : Int} {accepts : List Accept} {calls : List Call} (h : Listens P sockfd con)
    (hrun : acceptLoop newSock con accepts = some (con', calls)) : Listens P sockfd con' :=
  acceptLoop_rule (Q := fun con con' _ => Listens P sockfd con → Listens P sockfd con')
    (fun _ _ hs h => h.congr hs) (fun _ _ _ hnb _ hfd ih h => ih (h.register hfd hnb)) hrun h

/-- The compression moves sockets to the front only, and leaves the listener. -/
theorem compressIfNeeded (h : Listens P sockfd con) {current : ℕ}
    (hrun : compressIfNeeded con current = some con') :
    Listens P sockfd con' ∧ con'.endConnection = con.endConnection := by
  unfold NyanChat.compressIfNeeded at hrun
  split at hrun
  · obtain ⟨p, hp, hsock⟩ := h.first
    have hzero : peerAt con.poll 0 ≠ none := by rw [hp]; exact Option.some_ne_none p
    obtain ⟨con₁, hrun₁, hc⟩ := compressPollSocketArray_spec { con with needCompressPollArr := false }
      (compressPollSocketArray_lt hrun) hzero
    obtain rfl := Option.some.inj (hrun₁.symm.trans hrun)
    have hfirst : peerAt con₁.poll 0 = peerAt con.poll 0 := by
      refine hc.stays 0 fun k hk => ?_
      rw [Nat.le_zero.1 hk]
      exact hzero
    refine ⟨⟨?_, ?_, ⟨p, hfirst.trans hp, hsock⟩, hc.nb_pos⟩, ?_⟩
    · rw [hc.rest]
      exact h.type
    · rw [hc.rest]
      exact h.sock
    · rw [hc.rest]
  · obtain rfl := Option.some.inj hrun
    exact ⟨h, rfl⟩

end Listens

/-! ### Reading a socket -/

/-- What reading does: it makes some `send`s, and ends the connection when one of them fails. -/
structure ReadsOn (P : Program σ) (rc : ℕ → Int) (sockfd : Int) (st st' : LoopState (Progress σ)) : Prop where
  listens : Listens P sockfd st'.con
  ended : ∃ m, st'.args.sends = st.args.sends + m ∧
    st'.con.endConnection = (st.con.endConnection || failedSend rc st.args.sends m)

theorem ReadsOn.refl {st : LoopState (Progress σ)} (h : Listens P sockfd st.con) : ReadsOn P rc sockfd st st :=
  ⟨h, 0, rfl, (Bool.or_false _).symm⟩

theorem readLoop_reads {i : ℕ} {fd : Int} {recvs : List Recv} {st : LoopState (Progress σ)}
    {r : LoopState (Progress σ) × Bool} (h : Listens P sockfd st.con)
    (hrun : readLoop (P.handlers rc) i fd recvs st = some r) : ReadsOn P rc sockfd st r.1 := by
  refine readLoop_rule (Q := fun _ st st' => Listens P sockfd st.con → ReadsOn P rc sockfd st st') ?_ ?_ hrun h
  · exact fun _ _ _ h => ReadsOn.refl h
  · intro bytes rest st msg' ended args st' hmsg ih h
    obtain ⟨⟨msg'', sent, s⟩, -, heq⟩ := Option.map_eq_some_iff.1 hmsg
    cases heq
    obtain ⟨hlistens, m, hsends, hend⟩ := ih (h.congr ⟨rfl, rfl, rfl, rfl, rfl⟩)
    refine ⟨hlistens, sent.length + m, ?_, ?_⟩
    · rw [hsends]
      exact Nat.add_assoc ..
    · rw [hend, failedSend_add, ← Bool.or_assoc]

theorem readPollSocket_reads {i : ℕ} (hi : i < MAX_POLL_SOCKETS) {recvs : List Recv}
    {st st' : LoopState (Progress σ)} (h : Listens P sockfd st.con) (hfd : st.con.poll[i].fd ≠ st.con.sockfd)
    (hrun : readPollSocket (P.handlers rc) i hi recvs st = some st') : ReadsOn P rc sockfd st st' := by
  obtain ⟨r, hread, hst'⟩ := Option.map_eq_some_iff.1 hrun
  have hreads := readLoop_reads h hread
  obtain ⟨hsame, -⟩ := readLoop_sameTable hread
  split at hst'
  · subst hst'
    obtain ⟨hlistens, m, hsends, hend⟩ := hreads
    refine ⟨hlistens.close hi ?_, m, hsends, ?_⟩
    · simp only [hsame.poll, hsame.sockfd]
      exact hfd
    · -- a listening connection outlives its clients
      have hclient : ¬ (r.1.con.typeConnection = .client) := by
        rw [hlistens.type]
        rcases P.listens with hP | hP <;> rw [hP] <;> decide
      have hserverSide : ¬ (r.1.con.typeConnection = .proxyServerSide) := by
        rw [hlistens.type]
        rcases P.listens with hP | hP <;> rw [hP] <;> decide
      simp [TcpConnection.close, hclient, hserverSide, hend]
  · subst hst'
    exact hreads

/-! ### Steps -/

theorem dispatch_listens {ready : ℕ → Ready} {i : ℕ} {r r' : LoopState (Progress σ) × Bool}
    (h : Listens P sockfd r.1.con) (hrun : dispatch (P.handlers rc) ready r i = some r') :
    Listens P sockfd r'.1.con := by
  unfold dispatch at hrun
  split at hrun
  · cases hrun
    exact h
  split at hrun
  · cases hrun
    exact h.congr ⟨rfl, rfl, rfl, rfl, rfl⟩
  split at hrun
  · rename_i hi
    dsimp only at hrun
    split at hrun
    · obtain ⟨a, haccept, rfl⟩ := Option.map_eq_some_iff.1 hrun
      exact h.acceptLoop haccept
    · rename_i hlistener
      -- only the listener has its descriptor
      have htype : r.1.con.typeConnection = .server ∨ r.1.con.typeConnection = .proxyClientsSide := by
        rw [h.type]
        exact P.listens
      have hfd : r.1.con.poll[i].fd ≠ r.1.con.sockfd := fun heq => hlistener ⟨htype, heq⟩
      split at hrun
      · rename_i hclient
        exact absurd hclient.2 hfd
      split at hrun
      · split at hrun
        · cases hrun
          exact h
        · obtain ⟨a, hstdin, rfl⟩ := Option.map_eq_some_iff.1 hrun
          cases hstdin
          exact h
      · obtain ⟨st, hread, rfl⟩ := Option.map_eq_some_iff.1 hrun
        exact (readPollSocket_reads hi h hfd hread).listens
  · cases hrun

/-- What `poll` reports for the socket of a client ends the connection unless it is `POLLIN`. -/
theorem dispatch_client {ready : ℕ → Ready} {i : ℕ} (hi : i < MAX_POLL_SOCKETS)
    {st : LoopState (Progress σ)} {r' : LoopState (Progress σ) × Bool} (h : Listens P sockfd st.con)
    (hsock : st.con.poll[i].fd ≠ st.con.sockfd) (hstdin : st.con.poll[i].fd ≠ stdinFd)
    (hrun : dispatch (P.handlers rc) ready (st, false) i = some r') :
    ∃ m, r'.1.args.sends = st.args.sends + m ∧
      (r'.1.con.endConnection = false ↔ st.con.endConnection = false ∧
        ((ready i).revents = 0 ∨ (ready i).revents = POLLIN) ∧ failedSend rc st.args.sends m = false) := by
  unfold dispatch at hrun
  split at hrun
  · rename_i hzero
    obtain hzero := hzero.resolve_left Bool.false_ne_true
    cases hrun
    exact ⟨0, rfl, fun hopen => ⟨hopen, Or.inl hzero, rfl⟩, fun hend => hend.1⟩
  rename_i hzero
  split at hrun
  · rename_i hother
    cases hrun
    refine ⟨0, rfl, fun hopen => Bool.noConfusion hopen, fun hend => ?_⟩
    exact absurd hend.2.1 (not_or.2 ⟨fun h0 => hzero (Or.inr h0), hother⟩)
  rename_i hpollin
  rw [not_not] at hpollin
  dsimp only at hrun
  rw [if_neg fun hand => hsock hand.2, if_neg fun hand => hsock hand.2, if_neg hstdin] at hrun
  obtain ⟨st', hread, rfl⟩ := Option.map_eq_some_iff.1 hrun
  obtain ⟨-, m, hsends, hend⟩ := readPollSocket_reads hi h hsock hread
  refine ⟨m, hsends, ?_⟩
  rw [hend, Bool.or_eq_false_iff]
  exact ⟨fun hand => ⟨hand.1, Or.inr hpollin, hand.2⟩, fun hand => ⟨hand.1, hand.2.2⟩⟩

/-- What an event does to the main loop. -/
inductive Stepped (P : Program σ) (rc : ℕ → Int) (t : Turn σ) : LoopEvent → Turn σ → Prop
  | poll (ready : ℕ → Ready) : t.current = 0 → t.loop.con.endConnection = false →
      Stepped P rc t (.poll ready) { loop := { t.loop with calls := [] }, broke := false, ready := ready, next := 0,
                                     current := t.loop.con.nbPollFds }
  | socket {r : LoopState (Progress σ) × Bool} : t.next < t.current →
      dispatch (P.handlers rc) t.ready (t.loop, t.broke) t.next = some r →
      Stepped P rc t .socket { t with loop := r.1, broke := r.2, next := t.next + 1 }
  | compress {con : TcpConnection} : 0 < t.current → t.current ≤ t.next →
      compressIfNeeded t.loop.con t.current = some con →
      Stepped P rc t .compress { t with loop := { t.loop with con := con }, current := 0 }
  | reply {msg : Message} {sent : List Sent} : P.type = .proxyClientsSide →
      onServerReceived t.loop.con msg = some sent →
      Stepped P rc t (.reply msg) { t with loop := { t.loop with
        con := sendAll rc t.loop.args.sends sent.length t.loop.con
        args := { t.loop.args with sends := t.loop.args.sends + sent.length } } }

theorem stepped_of_step (hstep : t.step P rc e = some t') : Stepped P rc t e t' := by
  cases e with
  | poll ready =>
    rw [Turn.step] at hstep
    split at hstep
    · rename_i hready
      cases hstep
      exact .poll ready hready.1 hready.2
    · cases hstep
  | socket =>
    rw [Turn.step] at hstep
    split at hstep
    · rename_i hnext
      obtain ⟨r, hr, rfl⟩ := Option.map_eq_some_iff.1 hstep
      exact .socket hnext hr
    · cases hstep
  | compress =>
    rw [Turn.step] at hstep
    split at hstep
    · rename_i hall
      obtain ⟨con, hcon, rfl⟩ := Option.map_eq_some_iff.1 hstep
      exact .compress hall.1 hall.2 hcon
    · cases hstep
  | reply msg =>
    rw [Turn.step] at hstep
    split at hstep
    · rename_i htype
      obtain ⟨sent, hsent, rfl⟩ := Option.map_eq_some_iff.1 hstep
      exact .reply htype hsent
    · cases hstep

theorem step_listens (h : Listens P sockfd t.loop.con) (hstep : t.step P rc e = some t') :
    Listens P sockfd t'.loop.con := by
  cases stepped_of_step hstep with
  | poll _ _ _ => exact h
  | @socket r _ hr => exact dispatch_listens (r := (t.loop, t.broke)) h hr
  | compress _ _ hcon => exact (h.compressIfNeeded hcon).1
  | reply _ _ =>
    dsimp only
    rw [sendAll_eq]
    exact h.congr ⟨rfl, rfl, rfl, rfl, rfl⟩

theorem serving_listens (h : Serving P rc sockfd t) : Listens P sockfd t.loop.con := by
  induction h with
  | start msg s hsock =>
    refine ⟨rfl, rfl, ⟨ownPeer sockfd, ?_, rfl⟩, Nat.succ_pos 1⟩
    rw [Turn.start, peerAt_serverInit P.type (by omega) msg, if_neg (by decide), if_pos rfl]
  | step e _ hstep ih => exact step_listens ih hstep

/-- In every run, an event that concerns one client leaves the connection open exactly when `poll` reported nothing
but `POLLIN` for its socket and no `send` failed. -/
theorem clientEvent_ends_iff (h : Serving P rc sockfd t) (hclient : ConcernsClient t e)
    (hopen : t.loop.con.endConnection = false) (hstep : t.step P rc e = some t') :
    t'.loop.con.endConnection = false ↔ Regular t e ∧ Sends rc t t' := by
  have hlistens := serving_listens h
  -- the number of the messages that were sent
  have hsends {m : ℕ} (hm : t'.loop.args.sends = t.loop.args.sends + m) :
      Sends rc t t' ↔ failedSend rc t.loop.args.sends m = false := by
    rw [failedSend_eq_false, Sends, hm]
  cases stepped_of_step hstep with
  | poll _ _ _ => exact absurd hclient id
  | socket _ hr =>
    obtain ⟨hbroke, hi, hsock, hstdin⟩ := hclient
    rw [hbroke] at hr
    obtain ⟨m, hm, hend⟩ := dispatch_client hi hlistens hsock hstdin hr
    rw [hsends hm, Regular, hend, and_iff_right hopen]
  | compress _ _ hcon =>
    refine iff_of_true ((hlistens.compressIfNeeded hcon).2.trans hopen) ⟨trivial, ?_⟩
    exact (hsends (m := 0) rfl).2 rfl
  | @reply msg sent _ _ =>
    have hregular : Regular t (.reply msg) := trivial
    rw [hsends rfl, and_iff_right hregular]
    dsimp only
    rw [sendAll_eq, hopen, Bool.false_or]

/-! ### A client that leaves, and one that hangs up -/

instance (t : Turn σ) (e : LoopEvent) : Decidable (ConcernsClient t e) :=
  match e with
  | .poll _ => isFalse id
  | .socket => inferInstanceAs (Decidable (_ ∧ ∃ _ : t.next < MAX_POLL_SOCKETS, _))
  | .compress => isTrue trivial
  | .reply _ => isTrue trivial

/-- The state after some events. -/
def Turn.play (P : Program σ) (rc : ℕ → Int) (events : List LoopEvent) (t : Turn σ) : Option (Turn σ) :=
  events.foldlM (Turn.step P rc) t

theorem Serving.play (h : Serving P rc sockfd t) {events : List LoopEvent} (hplay : t.play P rc events = some t') :
    Serving P rc sockfd t' :=
  Loop.foldlM_of_some (Serving P rc sockfd) (fun e _ _ hs hstep => Serving.step e hs hstep) events h hplay

/-- `revents` of a client that has closed its connection. -/
abbrev POLLHUP : Int := 16

/-- A proxy on the descriptor `3`, with the clients `4` and `5`, when `poll` reports `revents` for the first of them,
of whom nothing is left to read. -/
def twoClients (revents : Int) : Option (Turn Unit) :=
  let idle : Ready := { revents := 0, accepts := [], recvs := [], stdin := none }
  let connect := { idle with revents := POLLIN, accepts := [.socket 4 ⟨2, 5000, 0⟩ 16, .socket 5 ⟨2, 5001, 0⟩ 16] }
  (Turn.start (proxyProgram (fun _ _ => 0) 9) 3 Message.zero ()).play (proxyProgram (fun _ _ => 0) 9) (fun _ => 0)
    [.poll fun i => if i = 0 then connect else idle, .socket, .socket, .compress,
      .poll fun i => if i = 2 then { idle with revents := revents, recvs := [.closed] } else idle, .socket, .socket]

theorem twoClients_serving {revents : Int} {t : Turn Unit} (h : twoClients revents = some t) :
    Serving (proxyProgram (fun _ _ => 0) 9) (fun _ => 0) 3 t :=
  (Serving.start Message.zero () (by decide)).play h

private theorem zero_ne_neg_one : (0 : Int) ≠ -1 := by decide

private theorem leaves :
    (twoClients POLLIN).map (fun t => (decide (ConcernsClient t .socket), t.loop.con.endConnection,
      (t.ready t.next).revents, (t.step (proxyProgram (fun _ _ => 0) 9) (fun _ => 0) .socket).isSome)) =
        some (true, false, POLLIN, true) := by
  decide +kernel

theorem clientEvent_ends_iff_leaves : ∃ t t' : Turn Unit,
    Serving (proxyProgram (fun _ _ => 0) 9) (fun _ => 0) 3 t ∧
      t.step (proxyProgram (fun _ _ => 0) 9) (fun _ => 0) .socket = some t' ∧ t'.loop.con.endConnection = false := by
  obtain ⟨t, ht, heq⟩ := Option.map_eq_some_iff.1 leaves
  simp only [Prod.mk.injEq, decide_eq_true_iff] at heq
  obtain ⟨hclient, hopen, hrevents, hsome⟩ := heq
  obtain ⟨t', ht'⟩ := Option.isSome_iff_exists.1 hsome
  have hserving := twoClients_serving ht
  exact ⟨t, t', hserving, ht', (clientEvent_ends_iff hserving hclient hopen ht').2
    ⟨Or.inr hrevents, fun _ _ _ => zero_ne_neg_one⟩⟩

private theorem hangs_up :
    (twoClients (POLLIN + POLLHUP)).map (fun t => (decide (ConcernsClient t .socket), t.loop.con.endConnection,
      (t.step (proxyProgram (fun _ _ => 0) 9) (fun _ => 0) .socket).map fun t' =>
        (t'.loop.con.endConnection, (peerAt t'.loop.con.poll 3).map Peer.fd))) =
          some (true, false, some (true, some 5)) := by
  decide +kernel

/-- One client hangs up, and the proxy stops serving the other one. -/
theorem hangUp_ends : ∃ t t' : Turn Unit,
    Serving (proxyProgram (fun _ _ => 0) 9) (fun _ => 0) 3 t ∧ ConcernsClient t .socket ∧
      t.step (proxyProgram (fun _ _ => 0) 9) (fun _ => 0) .socket = some t' ∧ t.loop.con.endConnection = false ∧
      t'.loop.con.endConnection = true ∧ (peerAt t'.loop.con.poll 3).map Peer.fd = some 5 := by
  obtain ⟨t, ht, heq⟩ := Option.map_eq_some_iff.1 hangs_up
  simp only [Prod.mk.injEq, decide_eq_true_iff] at heq
  obtain ⟨hclient, hopen, hstep⟩ := heq
  obtain ⟨t', ht', heq'⟩ := Option.map_eq_some_iff.1 hstep
  obtain ⟨hend, hpeer⟩ := Prod.mk.inj heq'
  exact ⟨t, t', twoClients_serving ht, hclient, ht', hopen, hend, hpeer⟩

end NyanChat
