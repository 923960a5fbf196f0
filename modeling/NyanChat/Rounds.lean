import NyanChat.MainLoop

/-!
# The rounds of the main loop

What the loop through the sockets does with each entry that `poll` reports as ready.  An entry is handled by its
descriptor: the listener accepts, the standard input is read once, and another socket is read until it has no more
data.  A read of the standard input that gives nothing breaks out of the loop, and the entries behind it are left
(`each_ready_handled_iff`).
-/

namespace NyanChat

variable {σ : Type} {on : Handlers σ} {ready : ℕ → Ready} {con con' : TcpConnection}

/-! ### The handling of an entry -/

inductive Handling
  | accept
  | stdin
  | read
deriving DecidableEq

/-- The branch of the loop for the descriptor of an entry. -/
def TcpConnection.handlingOf (con : TcpConnection) (fd : Int) : Handling :=
  if (con.typeConnection = .server ∨ con.typeConnection = .proxyClientsSide) ∧ fd = con.sockfd then .accept
  else if (con.typeConnection = .client ∨ con.typeConnection = .proxyServerSide) ∧ fd = con.sockfd then .read
  else if fd = stdinFd then .stdin
  else .read

def TcpConnection.handling (con : TcpConnection) (i : ℕ) : Handling :=
  if h : i < MAX_POLL_SOCKETS then con.handlingOf con.poll[i].fd else .read

/-- The loop through the sockets with a log of the entries that it handles. -/
def loggedDispatch (on : Handlers σ) (ready : ℕ → Ready) (st : (LoopState σ × Bool) × List (ℕ × Handling)) (i : ℕ) :
    Option ((LoopState σ × Bool) × List (ℕ × Handling)) :=
  (dispatch on ready st.1 i).map fun r =>
    (r, if st.1.2 = false ∧ (ready i).revents = POLLIN then st.2 ++ [(i, st.1.1.con.handling i)] else st.2)

/-- The state after the loop and the entries that it handled. -/
def loggedSockets (on : Handlers σ) (ready : ℕ → Ready) (con : TcpConnection) (args : σ) :
    Option (LoopState σ × List (ℕ × Handling)) :=
  ((List.range con.nbPollFds).foldlM (loggedDispatch on ready) ((⟨con, args, []⟩, false), [])).map fun r =>
    (r.1.1, r.2)

/-- The ready entries, in the order of the table. -/
def readyEntries (ready : ℕ → Ready) (nb : ℕ) : List ℕ := (List.range nb).filter fun i => (ready i).revents = POLLIN

/-- The round comes back, and it has handled each ready entry once, by the descriptor that the entry had. -/
def HandlesEach (on : Handlers σ) (ready : ℕ → Ready) (con : TcpConnection) (args : σ) : Prop :=
  ∃ st, loggedSockets on ready con args =
    some (st, (readyEntries ready con.nbPollFds).map fun i => (i, con.handling i))

/-- What a ready entry does by its branch. -/
def handleEntry (on : Handlers σ) (r : Ready) (i : ℕ) (h : i < MAX_POLL_SOCKETS) (st : LoopState σ) :
    Handling → Option (LoopState σ × Bool)
  | .accept =>
    (newClientsAcceptation st.con r.accepts).map fun x => ({ st with con := x.1, calls := st.calls ++ x.2 }, false)
  | .stdin =>
    match r.stdin with
    | none => some (st, true)
    | some bytes => (readStdin on bytes st).map (·, false)
  | .read => (readPollSocket on i h r.recvs st).map (·, false)

theorem dispatch_ready {i : ℕ} (h : i < MAX_POLL_SOCKETS) (hready : (ready i).revents = POLLIN) (st : LoopState σ) :
    dispatch on ready (st, false) i = handleEntry on (ready i) i h st (st.con.handling i) := by
  have hrevents : ¬ ((st, false).2 = true ∨ (ready i).revents = 0) := by
    simp [hready]
  rw [dispatch, if_neg hrevents, if_neg (not_not.2 hready), dif_pos h, TcpConnection.handling, dif_pos h,
    TcpConnection.handlingOf]
  dsimp only
  split_ifs <;> rfl

theorem dispatch_broke (st : LoopState σ) (i : ℕ) : dispatch on ready (st, true) i = some (st, true) := by
  rw [dispatch, if_pos (Or.inl rfl)]

/-- Without its log the loop is the one of the main loop. -/
theorem loggedSockets_fst (con : TcpConnection) (args : σ) :
    (loggedSockets on ready con args).map Prod.fst = handleSockets on ready con args := by
  have hfold : ∀ (L : List ℕ) (st : (LoopState σ × Bool) × List (ℕ × Handling)),
      (L.foldlM (loggedDispatch on ready) st).map Prod.fst = L.foldlM (dispatch on ready) st.1 := by
    intro L
    induction L with
    | nil => exact fun _ => rfl
    | cons i L ih =>
      intro st
      rw [List.foldlM_cons, List.foldlM_cons, loggedDispatch]
      cases hstep : dispatch on ready st.1 i with
      | none => rfl
      | some r => exact ih _
  rw [loggedSockets, handleSockets, ← hfold _ ((⟨con, args, []⟩, false), []), Option.map_map, Option.map_map]
  rfl

/-! ### What handling an entry does to the table -/

/-- The table after the handling of the entry `i`: the entries behind it are the same, and a descriptor is new only
when it was accepted. -/
structure EntryHandled (i : ℕ) (con con' : TcpConnection) (calls : List Call) : Prop where
  sockfd : con'.sockfd = con.sockfd
  type : con'.typeConnection = con.typeConnection
  nb_le : con.nbPollFds ≤ con'.nbPollFds
  bound : con.nbPollFds ≤ MAX_POLL_SOCKETS → con'.nbPollFds ≤ MAX_POLL_SOCKETS
  later : ∀ j (h : j < MAX_POLL_SOCKETS), i < j → j < con.nbPollFds → con'.poll[j].fd = con.poll[j].fd
  fd : ∀ j (h : j < MAX_POLL_SOCKETS), con'.poll[j].fd = con.poll[j].fd ∨ con'.poll[j].fd = -1 ∨
    ∃ peer, .accepted peer ∈ calls ∧ con'.poll[j].fd = peer.fd

theorem EntryHandled.of_sameTable {i : ℕ} {calls : List Call} (hs : SameTable con con') :
    EntryHandled i con con' calls := by
  refine ⟨hs.sockfd, hs.type, hs.nbPollFds.ge, fun h => hs.nbPollFds.le.trans h, fun j h _ _ => ?_, fun j h => ?_⟩
  · simp only [hs.poll]
  · simp only [hs.poll, true_or]

/-- A registration writes only the entry behind the last one. -/
theorem EntryHandled.register {i : ℕ} {peer : Peer} {calls : List Call} (hnb : con.nbPollFds < MAX_POLL_SOCKETS)
    (h : EntryHandled i (con.register peer hnb) con' calls) : EntryHandled i con con' (.accepted peer :: calls) := by
  have hnew : (con.register peer hnb).nbPollFds = con.nbPollFds + 1 := rfl
  have hget : ∀ j (hj : j < MAX_POLL_SOCKETS), j ≠ con.nbPollFds → (con.register peer hnb).poll[j] = con.poll[j] :=
    fun j hj hne => Vector.getElem_set_ne hnb hj (Ne.symm hne)
  refine ⟨h.sockfd, h.type, ?_, fun _ => h.bound (by omega), fun j hj hlt hin => ?_, fun j hj => ?_⟩
  · have := h.nb_le
    omega
  · rw [h.later j hj hlt (by omega), hget j hj (by omega)]
  · rcases h.fd j hj with hsame | hclosed | ⟨peer', hpeer, hfd⟩
    · by_cases hne : j = con.nbPollFds
      · subst hne
        refine Or.inr (Or.inr ⟨peer, List.mem_cons_self, ?_⟩)
        rw [hsame]
        exact congrArg (fun e : PollSocket => e.fd) (Vector.getElem_set_self hnb)
      · rw [hget j hj hne] at hsame
        exact Or.inl hsame
    · exact Or.inr (Or.inl hclosed)
    · exact Or.inr (Or.inr ⟨peer', List.mem_cons_of_mem _ hpeer, hfd⟩)

theorem acceptLoop_handled {i : ℕ} {newSock : Int} {accepts : List Accept} {calls : List Call}
    (hrun : acceptLoop newSock con accepts = some (con', calls)) : EntryHandled i con con' calls :=
  acceptLoop_rule (fun _ _ hs => .of_sameTable hs) (fun _ _ _ hnb _ _ h => h.register hnb) hrun

theorem EntryHandled.congr {i : ℕ} {con₀ : TcpConnection} {calls : List Call} (hs : SameTable con₀ con)
    (h : EntryHandled i con con' calls) : EntryHandled i con₀ con' calls := by
  obtain ⟨hsockfd, htype, hle, hbound, hlater, hfd⟩ := h
  rw [hs.nbPollFds] at hle hbound hlater
  simp only [hs.poll] at hlater hfd
  exact ⟨hsockfd.trans hs.sockfd, htype.trans hs.type, hle, hbound, hlater, hfd⟩

theorem close_handled {i : ℕ} (hi : i < MAX_POLL_SOCKETS) (calls : List Call) :
    EntryHandled i con (con.close i hi) calls := by
  refine ⟨rfl, rfl, Nat.le_refl _, id, fun j hj hlt _ => ?_, fun j hj => ?_⟩
  · exact congrArg (fun e : PollSocket => e.fd) (Vector.getElem_set_ne hi hj (Nat.ne_of_lt hlt))
  · by_cases hij : i = j
    · subst hij
      exact Or.inr (Or.inl (congrArg (fun e : PollSocket => e.fd) (Vector.getElem_set_self hi)))
    · exact Or.inl (congrArg (fun e : PollSocket => e.fd) (Vector.getElem_set_ne hi hj hij))

theorem readPollSocket_handled {i : ℕ} (hi : i < MAX_POLL_SOCKETS) {recvs : List Recv} {st st' : LoopState σ}
    (hrun : readPollSocket on i hi recvs st = some st') :
    ∃ new, st'.calls = st.calls ++ new ∧ EntryHandled i st.con st'.con new := by
  obtain ⟨r, hread, hst'⟩ := Option.map_eq_some_iff.1 hrun
  obtain ⟨hs, new, hcalls, -⟩ := readLoop_sameTable hread
  split at hst'
  · subst hst'
    exact ⟨new ++ [.closed st.con.poll[i].fd], by simp only [hcalls, List.append_assoc], (close_handled hi _).congr hs⟩
  · subst hst'
    exact ⟨new, hcalls, .of_sameTable hs⟩

theorem handleEntry_handled {i : ℕ} (hi : i < MAX_POLL_SOCKETS) {r : Ready} {handling : Handling} {st : LoopState σ}
    {st' : LoopState σ × Bool} (hrun : handleEntry on r i hi st handling = some st') :
    ∃ new, st'.1.calls = st.calls ++ new ∧ EntryHandled i st.con st'.1.con new := by
  have hsame : ∀ con, SameTable st.con con → ∃ new, st.calls = st.calls ++ new ∧ EntryHandled i st.con con new :=
    fun con hcon => ⟨[], (List.append_nil _).symm, .of_sameTable hcon⟩
  unfold handleEntry at hrun
  cases handling with
  | accept =>
    obtain ⟨⟨con', new⟩, haccept, rfl⟩ := Option.map_eq_some_iff.1 hrun
    exact ⟨new, rfl, acceptLoop_handled haccept⟩
  | stdin =>
    cases hstdin : r.stdin with
    | none =>
      rw [hstdin] at hrun
      cases hrun
      exact hsame _ (SameTable.refl _)
    | some bytes =>
      rw [hstdin] at hrun
      obtain ⟨st₁, hread, rfl⟩ := Option.map_eq_some_iff.1 hrun
      obtain ⟨htable, hcalls⟩ := readStdin_sameTable hread
      rw [hcalls]
      exact hsame _ htable
  | read =>
    obtain ⟨st₁, hread, rfl⟩ := Option.map_eq_some_iff.1 hrun
    exact readPollSocket_handled hi hread

theorem dispatch_handled {i : ℕ} {st st' : LoopState σ × Bool} (hrun : dispatch on ready st i = some st') :
    ∃ new, st'.1.calls = st.1.calls ++ new ∧ EntryHandled i st.1.con st'.1.con new := by
  have hsame : ∀ con, SameTable st.1.con con → ∃ new, st.1.calls = st.1.calls ++ new ∧
      EntryHandled i st.1.con con new :=
    fun con hcon => ⟨[], (List.append_nil _).symm, .of_sameTable hcon⟩
  obtain ⟨st, broke⟩ := st
  cases broke with
  | true =>
    rw [dispatch_broke] at hrun
    cases hrun
    exact hsame _ (SameTable.refl _)
  | false =>
    by_cases hready : (ready i).revents = POLLIN
    · by_cases hi : i < MAX_POLL_SOCKETS
      · rw [dispatch_ready hi hready] at hrun
        exact handleEntry_handled hi hrun
      · have hrevents : ¬ ((st, false).2 = true ∨ (ready i).revents = 0) := by
          simp [hready]
        rw [dispatch, if_neg hrevents, if_neg (not_not.2 hready), dif_neg hi] at hrun
        cases hrun
    · rw [dispatch] at hrun
      split at hrun
      · cases hrun
        exact hsame _ (SameTable.refl _)
      · cases hrun
        exact hsame _ ⟨rfl, rfl, rfl, rfl, rfl⟩

/-! ### The tables of a main loop -/

/-- A table whose only entry for the listening or connected socket is the first one. -/
structure Polls (con : TcpConnection) : Prop where
  nb_le : con.nbPollFds ≤ MAX_POLL_SOCKETS
  open_sock : con.sockfd ≠ -1
  first : ∀ j (h : j < MAX_POLL_SOCKETS), con.poll[j].fd = con.sockfd → j = 0

/-- The tables between the rounds of a main loop.  The initializations of a listening and of a connected connection
differ in its type only.  `accept` gives no descriptor that is open. -/
inductive InLoop (on : Handlers σ) (sockfd : Int) : TcpConnection → σ → Prop
  | start (type : ConnectionType) (msg : Message) (args : σ) :
      0 < sockfd → InLoop on sockfd (tcpConnectionServerInit type sockfd msg) args
  | round {con con' : TcpConnection} {args : σ} (ready : ℕ → Ready) {st : LoopState σ} :
      InLoop on sockfd con args → handleSockets on ready con args = some st →
      (∀ peer, .accepted peer ∈ st.calls → peer.fd ≠ sockfd) →
      compressIfNeeded st.con con.nbPollFds = some con' → InLoop on sockfd con' st.args

theorem Polls.accept_first (h : Polls con) {i : ℕ} (hi : i < MAX_POLL_SOCKETS) (hacc : con.handling i = .accept) :
    i = 0 := by
  rw [TcpConnection.handling, dif_pos hi, TcpConnection.handlingOf] at hacc
  split_ifs at hacc with hlistens
  exact h.first i hi hlistens.2

theorem EntryHandled.polls {i : ℕ} {calls : List Call} (hh : EntryHandled i con con' calls) (h : Polls con)
    (hnew : ∀ peer, .accepted peer ∈ calls → peer.fd ≠ con.sockfd) : Polls con' := by
  refine ⟨hh.bound h.nb_le, by rw [hh.sockfd]; exact h.open_sock, fun j hj hfd => ?_⟩
  rw [hh.sockfd] at hfd
  rcases hh.fd j hj with hsame | hclosed | ⟨peer, hpeer, hsame⟩
  · exact h.first j hj (hsame.symm.trans hfd)
  · exact absurd (hfd.symm.trans hclosed) h.open_sock
  · exact absurd (hsame.symm.trans hfd) (hnew peer hpeer)

theorem handleSockets_polls {args : σ} {st : LoopState σ} (h : Polls con)
    (hrun : handleSockets on ready con args = some st)
    (hnew : ∀ peer, .accepted peer ∈ st.calls → peer.fd ≠ con.sockfd) : Polls st.con ∧ st.con.sockfd = con.sockfd := by
  obtain ⟨⟨st', broke⟩, hfold, rfl⟩ := Option.map_eq_some_iff.1 hrun
  -- the calls of a turn stay in the log to the end of the round
  have hinv := Loop.foldlM_range_of_some (fun _ (r : LoopState σ × Bool) => r.1.con.sockfd = con.sockfd ∧
    ((∀ peer, .accepted peer ∈ r.1.calls → peer.fd ≠ con.sockfd) → Polls r.1.con)) hfold ⟨rfl, fun _ => h⟩
    fun i _ r r' hr hstep => by
      obtain ⟨new, hcalls, hhandled⟩ := dispatch_handled hstep
      refine ⟨hhandled.sockfd.trans hr.1, fun hfresh => ?_⟩
      rw [hcalls] at hfresh
      refine hhandled.polls (hr.2 fun peer hpeer => hfresh peer (List.mem_append_left _ hpeer)) fun peer hpeer => ?_
      rw [hr.1]
      exact hfresh peer (List.mem_append_right _ hpeer)
  exact ⟨hinv.2 hnew, hinv.1⟩

theorem lastOkSock_le {poll : PollTable} {n last : ℕ} (h : lastOkSock poll n = some last) : last ≤ n := by
  induction n with
  | zero =>
    cases h
    exact Nat.le_refl _
  | succ n ih =>
    rw [lastOkSock] at h
    split at h
    · split at h
      · exact Nat.le_succ_of_le (ih h)
      · cases h
        exact Nat.le_refl _
    · cases h

private theorem compressStep_first {poll poll' : PollTable} {i last last' n : ℕ} {fd : Int} (hopen : fd ≠ -1)
    (hrun : compressStep (poll, last) i = some (poll', last')) (hle : last ≤ n)
    (h : ∀ j (h : j < MAX_POLL_SOCKETS), poll[j].fd = fd → j = 0) :
    last' ≤ n ∧ ∀ j (h : j < MAX_POLL_SOCKETS), poll'[j].fd = fd → j = 0 := by
  rw [compressStep] at hrun
  split at hrun
  · rename_i hlt
    split at hrun
    · rename_i hin
      split at hrun
      · obtain ⟨last₁, hlast, hpair⟩ := Option.map_eq_some_iff.1 hrun
        obtain ⟨rfl, rfl⟩ := Prod.mk.inj hpair
        refine ⟨(lastOkSock_le hlast).trans hle, fun j hj hfd => ?_⟩
        -- the moved entry is behind the first one
        simp only [moveSocket, Vector.getElem_set] at hfd
        split at hfd
        · exact absurd hfd.symm hopen
        · split at hfd
          · exact absurd (h last hin.2 hfd) (by omega)
          · exact h j hj hfd
      · cases hrun
        exact ⟨hle, h⟩
    · cases hrun
  · cases hrun
    exact ⟨hle, h⟩

theorem compressIfNeeded_polls {n : ℕ} (h : Polls con) (hrun : compressIfNeeded con n = some con') :
    Polls con' ∧ con'.sockfd = con.sockfd := by
  rw [compressIfNeeded] at hrun
  split at hrun
  · have hn := compressPollSocketArray_lt hrun
    obtain ⟨last, hlast, hrun⟩ := Option.bind_eq_some_iff.1 hrun
    obtain ⟨⟨poll', last'⟩, hfold, hrun⟩ := Option.bind_eq_some_iff.1 hrun
    obtain ⟨hle, hfirst⟩ := Loop.foldlM_range_of_some (fun _ (st : PollTable × ℕ) => st.2 ≤ n ∧
      ∀ j (h : j < MAX_POLL_SOCKETS), st.1[j].fd = con.sockfd → j = 0) hfold ⟨lastOkSock_le hlast, h.first⟩
      fun i _ st st' hst hstep => compressStep_first h.open_sock hstep hst.1 hst.2
    dsimp only at hrun
    split at hrun
    · cases hrun
      exact ⟨⟨Nat.zero_le _, h.open_sock, hfirst⟩, rfl⟩
    · cases hrun
      exact ⟨⟨by dsimp only; omega, h.open_sock, hfirst⟩, rfl⟩
  · cases hrun
    exact ⟨h, rfl⟩

theorem inLoop_polls {sockfd : Int} {args : σ} (h : InLoop on sockfd con args) :
    Polls con ∧ con.sockfd = sockfd := by
  induction h with
  | start type msg args hsock =>
    refine ⟨⟨show 2 ≤ MAX_POLL_SOCKETS by decide, show sockfd ≠ -1 by omega, fun j hj hfd => ?_⟩, rfl⟩
    simp only [tcpConnectionServerInit, Vector.getElem_set, Vector.getElem_replicate, PollSocket.zero, stdinFd] at hfd
    split at hfd
    · exact absurd hfd (by dsimp only; omega)
    · split at hfd
      · omega
      · exact absurd hfd (by dsimp only; omega)
  | round ready _ hrun hnew hcompress ih =>
    rw [← ih.2] at hnew
    obtain ⟨hpolls, hsock⟩ := handleSockets_polls ih.1 hrun hnew
    obtain ⟨hpolls', hsock'⟩ := compressIfNeeded_polls hpolls hcompress
    exact ⟨hpolls', hsock'.trans (hsock.trans ih.2)⟩

/-! ### One round -/

/-- The functions of the program come back from every state with `inv`, to such a state. -/
structure ComesBack (on : Handlers σ) (inv : σ → Prop) : Prop where
  onMsg : ∀ sock msg len s, inv s → ∃ msg' ended s', on.onMsg sock msg len s = some (msg', ended, s') ∧ inv s'
  onStdin : ∀ f, on.onStdin = some f → ∀ buffer len s, inv s →
    ∃ ended s', f buffer len s = some (ended, s') ∧ inv s'

/-- The entry is the standard input, and its read gives nothing: the input has ended, or there is an error. -/
def Breaks (con : TcpConnection) (ready : ℕ → Ready) (i : ℕ) : Prop :=
  (ready i).revents = POLLIN ∧ con.handling i = .stdin ∧ (ready i).stdin = none

instance (con : TcpConnection) (ready : ℕ → Ready) (i : ℕ) : Decidable (Breaks con ready i) := by
  unfold Breaks; infer_instance

/-- The sockets that `accept` gives until it fails or would block. -/
def newSockets : List Accept → ℕ
  | .socket _ _ _ :: rest => newSockets rest + 1
  | _ => 0

/-- The table is full before the acceptance, or it is not full after it. -/
def AcceptReturns (con : TcpConnection) (accepts : List Accept) : Prop :=
  MAX_POLL_SOCKETS ≤ con.nbPollFds ∨ con.nbPollFds + newSockets accepts < MAX_POLL_SOCKETS

private theorem acceptLoop_isSome (newSock : Int) (con : TcpConnection) (accepts : List Accept) :
    (acceptLoop newSock con accepts).isSome = true ↔
      MAX_POLL_SOCKETS ≤ con.nbPollFds ∧ newSock = -1 ∨ con.nbPollFds + newSockets accepts < MAX_POLL_SOCKETS := by
  have hsome : ∀ {r : TcpConnection × List Call} {p : Prop}, p → ((some r).isSome = true ↔ p) :=
    fun hp => iff_of_true rfl hp
  have hnone : ∀ {p : Prop}, ¬ p → ((none : Option (TcpConnection × List Call)).isSome = true ↔ p) :=
    fun hp => iff_of_false Bool.false_ne_true hp
  induction accepts generalizing newSock con with
  | nil =>
    have hnew : newSockets [] = 0 := rfl
    rw [acceptLoop, hnew]
    split_ifs
    · exact hsome (by omega)
    · exact hnone (by omega)
  | cons a accepts ih =>
    cases a with
    | failed =>
      have hnew : newSockets (.failed :: accepts) = 0 := rfl
      rw [acceptLoop, hnew]
      split_ifs
      · exact hsome (by omega)
      · exact hsome (by omega)
      · exact hnone (by omega)
    | socket fd addr adLen =>
      rw [acceptLoop, newSockets]
      split_ifs with hnb hsock
      · have hnew : (con.register ⟨fd, addr, adLen⟩ hnb).nbPollFds = con.nbPollFds + 1 := rfl
        rw [Option.isSome_map]
        refine (ih fd _).trans ?_
        rw [hnew]
        omega
      · exact hsome (by omega)
      · exact hnone (by omega)

theorem newClientsAcceptation_isSome (con : TcpConnection) (accepts : List Accept) :
    (newClientsAcceptation con accepts).isSome = true ↔ AcceptReturns con accepts := by
  rw [newClientsAcceptation, acceptLoop_isSome, and_iff_left rfl, AcceptReturns]

variable {inv : σ → Prop}

theorem readLoop_comesBack (hon : ComesBack on inv) (idPoll : ℕ) (fd : Int) (recvs : List Recv) {st : LoopState σ}
    (hargs : inv st.args) : ∃ r, readLoop on idPoll fd recvs st = some r ∧ inv r.1.args := by
  induction recvs generalizing st with
  | nil => exact ⟨_, rfl, hargs⟩
  | cons a recvs ih =>
    cases a with
    | closed => exact ⟨_, rfl, hargs⟩
    | failed => exact ⟨_, rfl, hargs⟩
    | data bytes =>
      obtain ⟨msg', ended, s', hmsg, hargs'⟩ := hon.onMsg fd (st.con.fill idPoll bytes) bytes.length st.args hargs
      rw [readLoop, hmsg]
      exact ih hargs'

/-- A ready entry is handled and the loop goes on, except after a read of the standard input without bytes. -/
theorem handleEntry_comesBack (hon : ComesBack on inv) (r : Ready) {i : ℕ} (h : i < MAX_POLL_SOCKETS)
    {st : LoopState σ} (hargs : inv st.args) {w : Handling} (haccept : w = .accept → AcceptReturns st.con r.accepts) :
    ∃ st', handleEntry on r i h st w = some (st', decide (w = .stdin ∧ r.stdin = none)) ∧ inv st'.args := by
  cases w with
  | accept =>
    obtain ⟨x, hx⟩ := Option.isSome_iff_exists.1 ((newClientsAcceptation_isSome _ _).2 (haccept rfl))
    exact ⟨{ st with con := x.1, calls := st.calls ++ x.2 }, by rw [handleEntry, hx]; rfl, hargs⟩
  | stdin =>
    rw [handleEntry]
    cases hstdin : r.stdin with
    | none => exact ⟨st, rfl, hargs⟩
    | some bytes =>
      dsimp only
      rw [readStdin]
      cases hon' : on.onStdin with
      | none => exact ⟨st, rfl, hargs⟩
      | some f =>
        obtain ⟨ended, s', hf, hargs'⟩ := hon.onStdin f hon' (stdinBuffer bytes) bytes.length st.args hargs
        simp only [hf, Option.map_some]
        exact ⟨_, rfl, hargs'⟩
  | read =>
    obtain ⟨x, hx, hargs'⟩ := readLoop_comesBack hon i st.con.poll[i].fd r.recvs hargs
    refine ⟨_, by rw [handleEntry, readPollSocket, hx]; rfl, ?_⟩
    dsimp only
    split <;> exact hargs'

/-- The ready entries before which no read of the standard input gives nothing. -/
def handledEntries (con : TcpConnection) (ready : ℕ → Ready) (n : ℕ) : List ℕ :=
  (List.range n).filter fun i => (ready i).revents = POLLIN ∧ ∀ k < i, ¬ Breaks con ready k

theorem handledEntries_succ (con : TcpConnection) (ready : ℕ → Ready) (n : ℕ) :
    handledEntries con ready (n + 1) = handledEntries con ready n ++
      if (ready n).revents = POLLIN ∧ ∀ k < n, ¬ Breaks con ready k then [n] else [] := by
  rw [handledEntries, List.range_succ, List.filter_append, List.filter_singleton, handledEntries]
  by_cases hn : (ready n).revents = POLLIN ∧ ∀ k < n, ¬ Breaks con ready k
  · rw [if_pos hn, decide_eq_true hn, cond_true]
  · rw [if_neg hn, decide_eq_false hn, cond_false]

/-- The loop before its turn `i`, in a round that began with the table `con`. -/
structure Midway (con : TcpConnection) (ready : ℕ → Ready) (inv : σ → Prop) (i : ℕ)
    (r : (LoopState σ × Bool) × List (ℕ × Handling)) : Prop where
  args : inv r.1.1.args
  sockfd : r.1.1.con.sockfd = con.sockfd
  type : r.1.1.con.typeConnection = con.typeConnection
  first : i = 0 → r.1.1.con = con
  nb_le : con.nbPollFds ≤ r.1.1.con.nbPollFds
  later : ∀ j (h : j < MAX_POLL_SOCKETS), i ≤ j → j < con.nbPollFds → r.1.1.con.poll[j].fd = con.poll[j].fd
  broke : r.1.2 = true ↔ ∃ k < i, Breaks con ready k
  log : r.2 = (handledEntries con ready i).map fun k => (k, con.handling k)

namespace Midway

variable {i : ℕ} {r : (LoopState σ × Bool) × List (ℕ × Handling)}

theorem handling (h : Midway con ready inv i r) (hi : i < MAX_POLL_SOCKETS) (hnb : i < con.nbPollFds) :
    r.1.1.con.handling i = con.handling i := by
  rw [TcpConnection.handling, dif_pos hi, TcpConnection.handling, dif_pos hi, h.later i hi (Nat.le_refl i) hnb,
    TcpConnection.handlingOf, TcpConnection.handlingOf, h.type, h.sockfd]

theorem start (con : TcpConnection) (ready : ℕ → Ready) {args : σ} (hargs : inv args) :
    Midway con ready inv 0 ((⟨con, args, []⟩, false), []) := by
  refine ⟨hargs, rfl, rfl, fun _ => rfl, Nat.le_refl _, fun _ _ _ _ => rfl, ?_, rfl⟩
  exact iff_of_false Bool.false_ne_true fun ⟨_, hk, _⟩ => Nat.not_lt_zero _ hk

/-- A turn after the loop was left, or for an entry that is not ready. -/
theorem skip (h : Midway con ready inv i r) (hpast : r.1.2 = true ∨ (ready i).revents = 0) :
    loggedDispatch on ready r i = some r ∧ Midway con ready inv (i + 1) r := by
  have hnot : ¬ (r.1.2 = false ∧ (ready i).revents = POLLIN) := by
    rintro ⟨hbroke, hready⟩
    rcases hpast with h' | h'
    · rw [hbroke] at h'
      cases h'
    · rw [hready] at h'
      cases h'
  refine ⟨by rw [loggedDispatch, dispatch, if_pos hpast, if_neg hnot]; rfl, h.args, h.sockfd, h.type,
    fun hi => absurd hi (Nat.succ_ne_zero i), h.nb_le, fun j hj hle => h.later j hj (by omega), ?_, ?_⟩
  · rw [h.broke]
    refine ⟨fun ⟨k, hk, hbreaks⟩ => ⟨k, Nat.lt_succ_of_lt hk, hbreaks⟩, fun ⟨k, hk, hbreaks⟩ => ?_⟩
    rcases Nat.lt_succ_iff_lt_or_eq.1 hk with hlt | rfl
    · exact ⟨k, hlt, hbreaks⟩
    · exact h.broke.1 (hpast.resolve_right fun hidle => by rw [hbreaks.1] at hidle; cases hidle)
  · rw [h.log, handledEntries_succ, if_neg, List.append_nil]
    rintro ⟨hready, hbefore⟩
    refine hnot ⟨Bool.eq_false_iff.2 fun hbroke => ?_, hready⟩
    obtain ⟨k, hk, hbreaks⟩ := h.broke.1 hbroke
    exact hbefore k hk hbreaks

/-- A turn that handles its entry. -/
theorem handle (hon : ComesBack on inv) (h : Midway con ready inv i r) (hi : i < MAX_POLL_SOCKETS)
    (hnb : i < con.nbPollFds) (hready : (ready i).revents = POLLIN) (hbroke : r.1.2 = false)
    (haccept : con.handling i = .accept → i = 0 ∧ AcceptReturns con (ready i).accepts) :
    ∃ r', loggedDispatch on ready r i = some r' ∧ Midway con ready inv (i + 1) r' := by
  obtain ⟨⟨st, broke⟩, log⟩ := r
  obtain rfl : broke = false := hbroke
  have hhandling := h.handling hi hnb
  dsimp only at hhandling
  obtain ⟨st', hstep, hargs⟩ := handleEntry_comesBack hon (ready i) hi h.args fun hacc => by
    obtain ⟨hzero, hreturns⟩ := haccept hacc
    rw [h.first hzero]
    exact hreturns
  rw [← hhandling] at hstep
  have hdispatch := (dispatch_ready hi hready st).trans hstep
  obtain ⟨new, -, hh⟩ := dispatch_handled hdispatch
  refine ⟨((st', decide (st.con.handling i = .stdin ∧ (ready i).stdin = none)), log ++ [(i, st.con.handling i)]),
    ?_, hargs, hh.sockfd.trans h.sockfd, hh.type.trans h.type, fun hi => absurd hi (Nat.succ_ne_zero i),
    h.nb_le.trans hh.nb_le, fun j hj hle hlt => ?_, ?_, ?_⟩
  · rw [loggedDispatch, hdispatch, Option.map_some, if_pos ⟨rfl, hready⟩]
  · exact (hh.later j hj (by omega) (hlt.trans_le h.nb_le)).trans (h.later j hj (by omega) hlt)
  · rw [decide_eq_true_iff, hhandling]
    refine ⟨fun hstdin => ⟨i, Nat.lt_succ_self i, hready, hstdin⟩, fun ⟨k, hk, hbreaks⟩ => ?_⟩
    rcases Nat.lt_succ_iff_lt_or_eq.1 hk with hlt | rfl
    · exact absurd (h.broke.2 ⟨k, hlt, hbreaks⟩) Bool.false_ne_true
    · exact hbreaks.2
  · have hbefore : ∀ k < i, ¬ Breaks con ready k := fun k hk hbreaks =>
      absurd (h.broke.2 ⟨k, hk, hbreaks⟩) Bool.false_ne_true
    rw [handledEntries_succ, if_pos ⟨hready, hbefore⟩, List.map_append, hhandling, ← h.log]
    rfl

end Midway

/-- A round comes back when its acceptance does, and it has handled the ready entries up to the one that breaks. -/
theorem loggedSockets_eq (h : Polls con) (hready : ∀ i < con.nbPollFds, (ready i).revents = 0 ∨
    (ready i).revents = POLLIN) (hon : ComesBack on inv) {args : σ} (hargs : inv args)
    (haccept : ∀ i < con.nbPollFds, (ready i).revents = POLLIN → con.handling i = .accept →
      AcceptReturns con (ready i).accepts) :
    ∃ st, loggedSockets on ready con args =
      some (st, (handledEntries con ready con.nbPollFds).map fun i => (i, con.handling i)) := by
  obtain ⟨r, hfold, hend⟩ := Loop.foldlM_range (f := loggedDispatch on ready) (Midway con ready inv)
    (Midway.start con ready hargs) fun i hi r hr => by
      have hlt : i < MAX_POLL_SOCKETS := hi.trans_le h.nb_le
      rcases hready i hi with hidle | hpollin
      · exact ⟨r, hr.skip (Or.inr hidle)⟩
      · cases hbroke : r.1.2 with
        | true => exact ⟨r, hr.skip (Or.inl hbroke)⟩
        | false => exact hr.handle hon hlt hi hpollin hbroke fun hacc =>
            ⟨h.accept_first hlt hacc, haccept i hi hpollin hacc⟩
  exact ⟨r.1.1, by rw [loggedSockets, hfold, Option.map_some, hend.log]⟩

/-- The acceptance is the first call of a round. -/
theorem loggedSockets_none (h : Polls con) {i : ℕ} (hi : i < con.nbPollFds) (hready : (ready i).revents = POLLIN)
    (hacc : con.handling i = .accept) (hstuck : ¬ AcceptReturns con (ready i).accepts) (args : σ) :
    loggedSockets on ready con args = none := by
  have hlt : i < MAX_POLL_SOCKETS := hi.trans_le h.nb_le
  obtain rfl := h.accept_first hlt hacc
  obtain ⟨n, hn⟩ := Nat.exists_eq_succ_of_ne_zero (Nat.ne_of_gt hi)
  have hnone : newClientsAcceptation con (ready 0).accepts = none :=
    Option.not_isSome_iff_eq_none.1 fun hsome => hstuck ((newClientsAcceptation_isSome _ _).1 hsome)
  have hfirst : loggedDispatch on ready ((⟨con, args, []⟩, false), []) 0 = none := by
    rw [loggedDispatch, dispatch_ready hlt hready]
    dsimp only
    rw [hacc, handleEntry, hnone]
    rfl
  rw [loggedSockets, hn, List.range_succ_eq_map, List.foldlM_cons, hfirst]
  rfl

theorem handledEntries_eq_iff (con : TcpConnection) (ready : ℕ → Ready) (n : ℕ) :
    handledEntries con ready n = readyEntries ready n ↔
      ∀ i j, i < j → j < n → (ready j).revents = POLLIN → ¬ Breaks con ready i := by
  constructor
  · intro heq i j hij hj hready
    have hmem : j ∈ readyEntries ready n :=
      List.mem_filter.2 ⟨List.mem_range.2 hj, decide_eq_true hready⟩
    rw [← heq] at hmem
    exact (of_decide_eq_true (List.mem_filter.1 hmem).2).2 i hij
  · intro h
    refine List.filter_congr fun j hj => ?_
    have hj := List.mem_range.1 hj
    exact decide_eq_decide.2 ⟨fun hj' => hj'.1, fun hready => ⟨hready, fun i hij => h i j hij hj hready⟩⟩

/-- A round comes back with every ready entry handled once exactly when no read of the standard input that gives
nothing comes before a ready entry, and the acceptance comes back. -/
theorem each_ready_handled_iff {sockfd : Int} {args : σ} (h : InLoop on sockfd con args)
    (hready : ∀ i < con.nbPollFds, (ready i).revents = 0 ∨ (ready i).revents = POLLIN) (hon : ComesBack on inv)
    (hargs : inv args) :
    HandlesEach on ready con args ↔
      (∀ i j, i < j → j < con.nbPollFds → (ready j).revents = POLLIN → ¬ Breaks con ready i) ∧
      ∀ i < con.nbPollFds, (ready i).revents = POLLIN → con.handling i = .accept →
        AcceptReturns con (ready i).accepts := by
  obtain ⟨hpolls, -⟩ := inLoop_polls h
  constructor
  · rintro ⟨st, hst⟩
    have haccept : ∀ i < con.nbPollFds, (ready i).revents = POLLIN → con.handling i = .accept →
        AcceptReturns con (ready i).accepts := by
      intro i hi hpollin hacc
      by_contra hstuck
      rw [loggedSockets_none hpolls hi hpollin hacc hstuck] at hst
      cases hst
    refine ⟨?_, haccept⟩
    obtain ⟨st', hst'⟩ := loggedSockets_eq hpolls hready hon hargs haccept
    have hlog := (Prod.mk.inj (Option.some.inj (hst'.symm.trans hst))).2
    have hinj : Function.Injective fun i => (i, con.handling i) := fun i j hij => (Prod.mk.inj hij).1
    exact (handledEntries_eq_iff _ _ _).1 (List.map_injective_iff.2 hinj hlog)
  · rintro ⟨hbefore, haccept⟩
    obtain ⟨st, hst⟩ := loggedSockets_eq hpolls hready hon hargs haccept
    exact ⟨st, by rw [hst, (handledEntries_eq_iff _ _ _).2 hbefore]⟩

theorem silentHandlers_comesBack : ComesBack silentHandlers fun _ => True :=
  ⟨fun _ msg _ _ _ => ⟨msg, false, (), rfl, trivial⟩, fun _ h => by cases h⟩

private theorem oneConnects_revents (i : ℕ) : (oneConnects i).revents = 0 ∨ (oneConnects i).revents = POLLIN := by
  rw [oneConnects]
  split
  · exact Or.inr rfl
  · exact Or.inl rfl

theorem each_ready_handled_iff_connects :
    InLoop silentHandlers 3 (tcpConnectionServerInit .server 3 Message.zero) () ∧
      HandlesEach silentHandlers oneConnects (tcpConnectionServerInit .server 3 Message.zero) () := by
  have hstart : InLoop silentHandlers 3 (tcpConnectionServerInit .server 3 Message.zero) () :=
    InLoop.start .server Message.zero () (by decide)
  refine ⟨hstart, (each_ready_handled_iff hstart (fun i _ => oneConnects_revents i) silentHandlers_comesBack
    trivial).2 ⟨fun i j _ _ _ hbreaks => ?_, fun i _ _ _ => ?_⟩⟩
  · -- only the listener is ready
    obtain ⟨hready, hstdin, -⟩ := hbreaks
    rw [oneConnects] at hready
    split at hready
    · rename_i hi
      subst hi
      cases hstdin
    · cases hready
  · rw [oneConnects]
    split
    · exact Or.inr (by decide)
    · exact Or.inr (by decide)

/-- The standard input has ended, and the client at index `2` has sent two bytes. -/
def stdinEnded (i : ℕ) : Ready :=
  if i = 1 then { quiet with revents := POLLIN }
  else if i = 2 then { quiet with revents := POLLIN, recvs := [.data [104, 105]] }
  else quiet

/-- A server with one client whose standard input has ended does not read the client. -/
theorem ended_stdin_silences_client :
    ∃ con, InLoop silentHandlers 3 con () ∧ con.handling 2 = .read ∧ (stdinEnded 2).revents = POLLIN ∧
      (∃ st, loggedSockets silentHandlers stdinEnded con () = some (st, [(1, .stdin)])) ∧
      ¬ HandlesEach silentHandlers stdinEnded con () := by
  have hstart : InLoop silentHandlers 3 (tcpConnectionServerInit .server 3 Message.zero) () :=
    InLoop.start .server Message.zero () (by decide)
  have hconnects : handleSockets silentHandlers oneConnects (tcpConnectionServerInit .server 3 Message.zero) () =
      some ⟨(tcpConnectionServerInit .server 3 Message.zero).register ⟨4, ⟨2, 5000, 0⟩, 16⟩ (by decide), (),
        [.accepted ⟨4, ⟨2, 5000, 0⟩, 16⟩]⟩ := rfl
  have hclient := InLoop.round oneConnects hstart hconnects
    (fun peer hpeer => by cases List.mem_singleton.1 hpeer; decide) rfl
  have hlog : ∃ st, loggedSockets silentHandlers stdinEnded
      ((tcpConnectionServerInit .server 3 Message.zero).register ⟨4, ⟨2, 5000, 0⟩, 16⟩ (by decide)) () =
        some (st, [(1, .stdin)]) := ⟨_, rfl⟩
  refine ⟨_, hclient, rfl, rfl, hlog, ?_⟩
  rintro ⟨st, hst⟩
  obtain ⟨st', hst'⟩ := hlog
  have hentries := congrArg (List.map Prod.fst) (Prod.mk.inj (Option.some.inj (hst'.symm.trans hst))).2
  exact absurd hentries (by decide)

end NyanChat
