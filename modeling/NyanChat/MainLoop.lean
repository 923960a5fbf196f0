import NyanChat.Listening

/-!
# Runs of the main loop

What the calls of one turn do to the table of a listening connection (`handleSockets_listening`), and the run
theorem: the table is exact after every turn whose compression starts at the last entry in use, and after no other
(`table_exact_iff`).
-/

namespace NyanChat

variable {σ : Type} {on : Handlers σ} {current : ℕ} {reg : List Peer}

/-! ### The calls of a turn -/

/-- What holds of a table that stays, and is kept by the registration of an accepted socket, holds of the loop. -/
theorem acceptLoop_rule {Q : TcpConnection → TcpConnection → List Call → Prop}
    (stays : ∀ con con', SameTable con con' → Q con con' [])
    (next : ∀ (con con' : TcpConnection) (peer : Peer) (h : con.nbPollFds < MAX_POLL_SOCKETS) (calls : List Call),
      peer.fd ≠ -1 → Q (con.register peer h) con' calls → Q con con' (.accepted peer :: calls))
    {newSock : Int} {con con' : TcpConnection} {accepts : List Accept} {calls : List Call}
    (hrun : acceptLoop newSock con accepts = some (con', calls)) : Q con con' calls := by
  induction accepts generalizing newSock con calls with
  | nil =>
    rw [acceptLoop] at hrun
    split at hrun
    · cases hrun
      exact stays _ _ (SameTable.refl _)
    · cases hrun
  | cons a accepts ih =>
    cases a with
    | failed =>
      rw [acceptLoop] at hrun
      split at hrun
      · cases hrun
        exact stays _ _ ⟨rfl, rfl, rfl, rfl, rfl⟩
      · split at hrun
        · cases hrun
          exact stays _ _ (SameTable.refl _)
        · cases hrun
    | socket fd addr adLen =>
      rw [acceptLoop] at hrun
      split at hrun
      · rename_i hnb
        obtain ⟨⟨con₁, rest⟩, hrest, hpair⟩ := Option.map_eq_some_iff.1 hrun
        obtain ⟨rfl, rfl⟩ := Prod.mk.inj hpair
        exact next _ _ _ hnb _ (by simp) (ih hrest)
      · split at hrun
        · cases hrun
          exact stays _ _ (SameTable.refl _)
        · cases hrun

theorem acceptLoop_listening {newSock : Int} {con con' : TcpConnection} {accepts : List Accept} {calls : List Call}
    (h : Listening current con reg) (hrun : acceptLoop newSock con accepts = some (con', calls))
    (hfresh : Fresh reg calls) : Listening current con' (opened reg calls) := by
  revert reg
  refine acceptLoop_rule (Q := fun con con' calls =>
    ∀ {reg}, Listening current con reg → Fresh reg calls → Listening current con' (opened reg calls)) ?_ ?_ hrun
  · exact fun con con' hs reg h _ => h.congr hs
  · intro con con' peer hnb calls hfd ih reg h hfresh
    have hnew := h.register hfd (hfresh [] _ _ rfl) hnb
    exact ih hnew (Fresh.right (l := [.accepted peer]) hfresh)

/-- What holds when no data comes, and is kept by handing one chunk to `on_msg`, holds of the loop that reads. -/
theorem readLoop_rule {idPoll : ℕ} {fd : Int} {Q : List Recv → LoopState σ → LoopState σ → Prop}
    (stays : ∀ recvs st, (∀ bytes rest, recvs ≠ .data bytes :: rest) → Q recvs st st)
    (data : ∀ bytes rest (st : LoopState σ) msg' ended args st',
      on.onMsg fd (st.con.fill idPoll bytes) bytes.length st.args = some (msg', ended, args) →
      Q rest ⟨{ st.con with msg := msg', endConnection := st.con.endConnection || ended }, args,
        st.calls ++ [.onMsg fd (st.con.fill idPoll bytes) bytes.length]⟩ st' →
      Q (.data bytes :: rest) st st')
    {recvs : List Recv} {st : LoopState σ} {r : LoopState σ × Bool}
    (hrun : readLoop on idPoll fd recvs st = some r) : Q recvs st r.1 := by
  induction recvs generalizing st with
  | nil =>
    cases hrun
    exact stays _ _ nofun
  | cons a recvs ih =>
    cases a with
    | closed =>
      cases hrun
      exact stays _ _ nofun
    | failed =>
      cases hrun
      exact stays _ _ nofun
    | data bytes =>
      rw [readLoop] at hrun
      dsimp only at hrun
      split at hrun
      · cases hrun
      · rename_i msg' ended args hmsg
        exact data _ _ _ _ _ _ _ hmsg (ih hrun)

theorem readLoop_sameTable {idPoll : ℕ} {fd : Int} {recvs : List Recv} {st : LoopState σ} {r : LoopState σ × Bool}
    (hrun : readLoop on idPoll fd recvs st = some r) :
    SameTable st.con r.1.con ∧ ∃ new, r.1.calls = st.calls ++ new ∧ ∀ c ∈ new, ∃ s m l, c = .onMsg s m l := by
  refine readLoop_rule (Q := fun _ st st' => SameTable st.con st'.con ∧ ∃ new, st'.calls = st.calls ++ new ∧
    ∀ c ∈ new, ∃ s m l, c = Call.onMsg s m l) ?_ ?_ hrun
  · exact fun _ st _ => ⟨SameTable.refl _, [], (List.append_nil _).symm, fun c hc => absurd hc List.not_mem_nil⟩
  · rintro bytes rest st msg' ended args st' - ⟨hsame, new, hcalls, hnew⟩
    refine ⟨SameTable.trans ?_ hsame, _ :: new, by rw [hcalls, List.append_assoc]; rfl, ?_⟩
    · exact ⟨rfl, rfl, rfl, rfl, rfl⟩
    · rw [List.forall_mem_cons]
      exact ⟨⟨_, _, _, rfl⟩, hnew⟩

theorem readPollSocket_calls (current : ℕ) {i : ℕ} (hi' : i < MAX_POLL_SOCKETS) {recvs : List Recv}
    {st st' : LoopState σ}
    (hrun : readPollSocket on i hi' recvs st = some st') :
    ∃ new, st'.calls = st.calls ++ new ∧ ∀ reg, Listening current st.con reg → i < current →
      st.con.poll[i].fd ≠ st.con.sockfd → st.con.poll[i].fd ≠ stdinFd →
      Listening current st'.con (opened reg new) := by
  obtain ⟨r, hread, hst'⟩ := Option.map_eq_some_iff.1 hrun
  obtain ⟨hsame, new, hcalls, hnew⟩ := readLoop_sameTable hread
  have hget : r.1.con.poll[i] = st.con.poll[i] := by simp only [hsame.poll]
  split at hst'
  · subst hst'
    refine ⟨new ++ [.closed st.con.poll[i].fd], by simp only [hcalls, List.append_assoc], ?_⟩
    intro reg h hi hsock hstdin
    have hclosed := (h.congr hsame).close hi hi' (by rwa [hget, hsame.sockfd]) (by rwa [hget])
    rw [opened_append, opened_of_onMsg hnew]
    rw [hget] at hclosed
    exact hclosed
  · subst hst'
    exact ⟨new, hcalls, fun reg h _ _ _ => by rw [opened_of_onMsg hnew]; exact h.congr hsame⟩

theorem readStdin_sameTable {bytes : List UInt8} {st st' : LoopState σ} (hrun : readStdin on bytes st = some st') :
    SameTable st.con st'.con ∧ st'.calls = st.calls := by
  unfold readStdin at hrun
  split at hrun
  · cases hrun
    exact ⟨SameTable.refl _, rfl⟩
  · obtain ⟨r, -, hr⟩ := Option.map_eq_some_iff.1 hrun
    cases hr
    exact ⟨⟨rfl, rfl, rfl, rfl, rfl⟩, rfl⟩

theorem dispatch_calls {ready : ℕ → Ready} {i : ℕ} (hi : i < current) {st st' : LoopState σ × Bool}
    (hrun : dispatch on ready st i = some st') :
    ∃ new, st'.1.calls = st.1.calls ++ new ∧ ∀ reg, Listening current st.1.con reg → Fresh reg new →
      Listening current st'.1.con (opened reg new) := by
  have hsame : ∀ con, SameTable st.1.con con → ∃ new, st.1.calls = st.1.calls ++ new ∧
      ∀ reg, Listening current st.1.con reg → Fresh reg new → Listening current con (opened reg new) :=
    fun con hcon => ⟨[], (List.append_nil _).symm, fun _ h _ => h.congr hcon⟩
  unfold dispatch at hrun
  split at hrun
  · cases hrun
    exact hsame _ (SameTable.refl _)
  · split at hrun
    · cases hrun
      exact hsame _ ⟨rfl, rfl, rfl, rfl, rfl⟩
    · split at hrun
      · rename_i hi'
        dsimp only at hrun
        split at hrun
        · -- the listener
          obtain ⟨r, haccept, hr⟩ := Option.map_eq_some_iff.1 hrun
          cases hr
          exact ⟨r.2, rfl, fun reg h hfresh => acceptLoop_listening h haccept hfresh⟩
        · rename_i hlistener
          have hread : ∀ {r}, readPollSocket on i hi' (ready i).recvs st.1 = some r →
              st.1.con.poll[i].fd ≠ stdinFd → ∃ new, r.calls = st.1.calls ++ new ∧
              ∀ reg, Listening current st.1.con reg → Fresh reg new → Listening current r.con (opened reg new) := by
            intro r hr hstdin
            obtain ⟨new, hcalls, hnew⟩ := readPollSocket_calls current hi' hr
            exact ⟨new, hcalls, fun reg h _ => hnew reg h hi (fun hfd => hlistener ⟨h.type, hfd⟩) hstdin⟩
          split at hrun
          · -- the socket of a client's or proxy's own connection
            rename_i hclient
            obtain ⟨r, hr, heq⟩ := Option.map_eq_some_iff.1 hrun
            cases heq
            obtain ⟨new, hcalls, -⟩ := readPollSocket_calls current hi' hr
            exact ⟨new, hcalls, fun reg h _ => absurd ⟨h.type, hclient.2⟩ hlistener⟩
          · split at hrun
            · -- `stdin`
              split at hrun
              · cases hrun
                exact hsame _ (SameTable.refl _)
              · obtain ⟨r, hstdin, hr⟩ := Option.map_eq_some_iff.1 hrun
                cases hr
                obtain ⟨htable, hcalls⟩ := readStdin_sameTable hstdin
                rw [hcalls]
                exact hsame _ htable
            · -- a client
              rename_i hstdin
              obtain ⟨r, hr, heq⟩ := Option.map_eq_some_iff.1 hrun
              cases heq
              exact hread hr hstdin
      · cases hrun

/-- The table before the compression of a turn. -/
theorem handleSockets_listening {ready : ℕ → Ready} {con : TcpConnection} {args : σ} {st : LoopState σ}
    (h : Listening con.nbPollFds con reg) (hrun : handleSockets on ready con args = some st)
    (hfresh : Fresh reg st.calls) : Listening con.nbPollFds st.con (opened reg st.calls) := by
  obtain ⟨r, hfold, rfl⟩ := Option.map_eq_some_iff.1 hrun
  refine Loop.foldlM_range_of_some (f := dispatch on ready)
    (fun _ (st : LoopState σ × Bool) =>
      Fresh reg st.1.calls → Listening con.nbPollFds st.1.con (opened reg st.1.calls))
    hfold (fun _ => h) ?_ hfresh
  intro i hi st st' hinv hstep hfresh'
  obtain ⟨new, hcalls, hnew⟩ := dispatch_calls hi hstep
  rw [hcalls] at hfresh' ⊢
  rw [opened_append]
  exact hnew _ (hinv hfresh'.left) hfresh'.right

/-! ### Compressing at the end of a turn -/

variable {con con' : TcpConnection}

private theorem listening_of_compressed (hc : Compressed current { con with needCompressPollArr := false } con')
    (h : Listening current con reg) (hcur : current < MAX_POLL_SOCKETS)
    (hlast : con.nbPollFds = current + 1 ∨ con.nbPollFds = current ∧ peerAt con.poll current = none) :
    Listening con'.nbPollFds con' reg ∧ con'.needCompressPollArr = false := by
  obtain ⟨π, hπ, hperm⟩ := hc.perm
  have hperm : ∀ j, peerAt con'.poll j = peerAt con.poll (π j) := hperm
  have hstays : ∀ j, (∀ k ≤ j, peerAt con.poll k ≠ none) → peerAt con'.poll j = peerAt con.poll j := hc.stays
  have hneed : con'.needCompressPollArr = false := by rw [hc.rest]
  have hle := Compaction.perm_le_iff hπ
  have htwo := h.two_le
  have hnb := hc.nb_le
  have hcurle := h.current_le
  -- up to `current` stand all entries in use, and behind it none
  have hused : ∀ j p, peerAt con.poll j = some p → (j < con.nbPollFds ↔ j ≤ current) := by
    intro j p hp
    rcases hlast with hlast | ⟨hlast, hnone⟩
    · omega
    · have hne : j ≠ current := by
        rintro rfl
        rw [hnone] at hp
        cases hp
      omega
  have hopen : ∀ j < con'.nbPollFds, peerAt con'.poll j ≠ none := fun j hj => (hc.open_iff j (by omega)).2 hj
  have hown : ∀ k ≤ 1, peerAt con.poll k ≠ none := by
    intro k hk
    rcases Nat.le_one_iff_eq_zero_or_eq_one.1 hk with rfl | rfl
    · rw [h.listener]; exact Option.some_ne_none _
    · rw [h.stdin]; exact Option.some_ne_none _
  have hone : peerAt con'.poll 1 = peerAt con.poll 1 := hstays 1 hown
  refine ⟨?_, hneed⟩
  constructor
  case type => rw [hc.rest]; exact h.type
  case two_le => exact (hc.open_iff 1 (by omega)).1 (hone ▸ hown 1 (Nat.le_refl 1))
  case current_le => exact Nat.le_refl _
  case nb_le => omega
  case listener => rw [hstays 0 fun k hk => hown k (by omega), hc.rest]; exact h.listener
  case stdin => rw [hone]; exact h.stdin
  case mem_iff =>
    intro p
    rw [h.mem_iff]
    constructor
    · rintro ⟨j, hj, hp⟩
      exact ⟨π.symm j, hc.moved hπ hperm ((hused j p hp).1 hj) hp⟩
    · rintro ⟨k, hk, hp⟩
      rw [hperm] at hp
      exact ⟨π k, (hused _ p hp).2 ((hle k).2 (by omega)), hp⟩
  case once =>
    intro j k p q hj hk hp hq hpq
    rw [hperm] at hp hq
    have hj' := (hused _ p hp).2 ((hle j).2 (by omega))
    have hk' := (hused _ q hq).2 ((hle k).2 (by omega))
    exact π.injective (h.once _ _ p q hj' hk' hp hq hpq)
  case accepted => exact fun j hj hlt => absurd hj (Nat.not_le.2 hlt)
  case unused =>
    intro j p hj hp
    have hbehind : current < j := by
      by_contra hle'
      exact absurd ((hc.open_iff j (by omega)).1 (hp ▸ Option.some_ne_none p)) (Nat.not_lt.2 hj)
    rw [hperm, hπ j hbehind] at hp
    exact h.unused j p (by omega) hp
  case closed_iff =>
    rw [hneed]
    refine ⟨fun h' => absurd h' (by decide), ?_⟩
    rintro ⟨j, hj, hnone⟩
    exact absurd hnone (hopen j hj)
  case events =>
    intro j hj hlt
    rw [hc.events j hj]
    refine h.events j hj ?_
    rcases hlast with hlast | ⟨hlast, hnone⟩
    · omega
    · -- the closed entry `current` is not in use after the compression
      have hshrunk := hc.nb_le_of_hole (Nat.le_refl current) hnone
      omega

/-- The compression of an incompressible turn loses a peer or shows one twice. -/
private theorem not_exact_of_compressed (hc : Compressed current { con with needCompressPollArr := false } con')
    (h : Listening current con reg)
    (hlast : ¬ (con.nbPollFds = current + 1 ∨ con.nbPollFds = current ∧ peerAt con.poll current = none)) :
    ¬ Exact con' reg := by
  intro hexact
  obtain ⟨π, hπ, hperm⟩ := hc.perm
  have hperm : ∀ j, peerAt con'.poll j = peerAt con.poll (π j) := hperm
  have hle := Compaction.perm_le_iff hπ
  have htwo := h.two_le
  have hcurle := h.current_le
  have hnb := hc.nb_le
  have hmoved : ∀ j p, j ≤ current → peerAt con.poll j = some p →
      π.symm j < con'.nbPollFds ∧ peerAt con'.poll (π.symm j) = some p := fun j p hj hp => hc.moved hπ hperm hj hp
  rcases Nat.eq_or_lt_of_le hcurle with hnbeq | hlt
  · -- nothing was accepted: the entry behind the last one looks like `stdin`
    cases hat : peerAt con.poll current with
    | none => exact hlast (Or.inr ⟨hnbeq.symm, hat⟩)
    | some p =>
      obtain ⟨hlt₁, hat₁⟩ := hmoved 1 _ (by omega) h.stdin
      obtain ⟨hlt₂, hat₂⟩ := hmoved current p (Nat.le_refl _) hat
      have heq := hexact.once _ _ _ p hlt₁ hlt₂ hat₁ hat₂ (h.unused current p (by omega) hat).symm
      have := π.symm.injective heq
      omega
  · -- the second accepted peer is behind the entries that the compression keeps
    have hsecond : current + 1 < con.nbPollFds := by omega
    obtain ⟨p, hp⟩ := Option.ne_none_iff_exists'.1 (h.accepted (current + 1) (by omega) hsecond)
    obtain ⟨j, hj, hpj⟩ := (hexact.mem_iff p).1 ((h.mem_iff p).2 ⟨_, hsecond, hp⟩)
    rw [hperm] at hpj
    have hle' := (hle j).2 (by omega)
    have heq := h.once _ _ p p (by omega) hsecond hpj hp rfl
    omega

theorem Listening.zero_open (h : Listening current con reg) : peerAt con.poll 0 ≠ none := by
  rw [h.listener]
  exact Option.some_ne_none _

/-- The end of a turn, from the table that the loop through the sockets leaves. -/
theorem compressIfNeeded_listening (h : Listening current con reg) (hok : Compressible con current) :
    ∃ con', compressIfNeeded con current = some con' ∧ Listening con'.nbPollFds con' reg ∧
      con'.needCompressPollArr = false := by
  unfold compressIfNeeded
  by_cases hneed : con.needCompressPollArr = true
  · rw [if_pos hneed]
    obtain ⟨hcur, hlast⟩ := hok.resolve_left (by rw [hneed]; decide)
    obtain ⟨con', hrun, hc⟩ :=
      compressPollSocketArray_spec { con with needCompressPollArr := false } hcur h.zero_open
    exact ⟨con', hrun, listening_of_compressed hc h hcur hlast⟩
  · rw [if_neg hneed]
    have hopen : ∀ j < con.nbPollFds, peerAt con.poll j ≠ none := by
      intro j hj hnone
      rcases Nat.lt_or_ge j current with hlt | hge
      · exact hneed (h.closed_iff.2 ⟨j, hlt, hnone⟩)
      · exact h.accepted j hge hj hnone
    have hclosed : con.needCompressPollArr = true ↔ ∃ j < con.nbPollFds, peerAt con.poll j = none :=
      ⟨fun h' => absurd h' hneed, fun ⟨j, hj, hnone⟩ => absurd hnone (hopen j hj)⟩
    exact ⟨con, rfl, ⟨h.type, Nat.le_trans h.two_le h.current_le, Nat.le_refl _, h.nb_le, h.listener, h.stdin,
      h.mem_iff, h.once, fun j hj hlt => absurd hj (Nat.not_le.2 hlt), h.unused, hclosed, h.events⟩,
      Bool.eq_false_iff.2 hneed⟩

theorem not_exact_of_not_compressible (h : Listening current con reg) (hbad : ¬ Compressible con current) :
    ¬ ∃ con', compressIfNeeded con current = some con' ∧ Exact con' reg := by
  rintro ⟨con', hrun, hexact⟩
  unfold compressIfNeeded at hrun
  split at hrun
  · by_cases hcur : current < MAX_POLL_SOCKETS
    · obtain ⟨con₁, hrun₁, hc⟩ :=
        compressPollSocketArray_spec { con with needCompressPollArr := false } hcur h.zero_open
      obtain rfl := Option.some.inj (hrun₁.symm.trans hrun)
      exact not_exact_of_compressed hc h (fun hlast => hbad (Or.inr ⟨hcur, hlast⟩)) hexact
    · have hfull : current = MAX_POLL_SOCKETS := by
        have := h.current_le
        have := h.nb_le
        omega
      rw [hfull, compressPollSocketArray_full] at hrun
      cases hrun
  · rename_i hneed
    exact hbad (Or.inl (Bool.eq_false_iff.2 hneed))

/-! ### Runs -/

/-- The connections of a listening program between the turns of its main loop, with the state of its handlers and the
open peers.  Every turn so far was compressible. -/
inductive Running (on : Handlers σ) (type : ConnectionType) (sockfd : Int) :
    TcpConnection → σ → List Peer → Prop
  | start (msg : Message) (args : σ) :
      Running on type sockfd (tcpConnectionServerInit type sockfd msg) args [ownPeer sockfd, ownPeer stdinFd]
  | turn {con con' : TcpConnection} {args : σ} {reg : List Peer} (ready : ℕ → Ready) {st : LoopState σ} :
      Running on type sockfd con args reg → handleSockets on ready con args = some st → Fresh reg st.calls →
      Compressible st.con con.nbPollFds → compressIfNeeded st.con con.nbPollFds = some con' →
      Running on type sockfd con' st.args (opened reg st.calls)

theorem serverInit_listening {type : ConnectionType} (htype : type = .server ∨ type = .proxyClientsSide)
    {sockfd : Int}
    (hsock : 0 < sockfd) (msg : Message) :
    Listening 2 (tcpConnectionServerInit type sockfd msg) [ownPeer sockfd, ownPeer stdinFd] := by
  have hat := peerAt_serverInit type (show sockfd ≠ -1 by omega) msg
  have hnb : (tcpConnectionServerInit type sockfd msg).nbPollFds = 2 := rfl
  have h0 : peerAt (tcpConnectionServerInit type sockfd msg).poll 0 = some (ownPeer sockfd) := by
    rw [hat, if_neg (by decide), if_pos rfl]
  have h1 : peerAt (tcpConnectionServerInit type sockfd msg).poll 1 = some (ownPeer stdinFd) := by
    rw [hat, if_pos rfl]
  have htwo : ∀ j < 2, j = 0 ∨ j = 1 := fun j hj => by omega
  constructor
  case type => exact htype
  case two_le => exact Nat.le_refl 2
  case current_le => exact Nat.le_refl 2
  case nb_le => rw [hnb]; decide
  case listener => exact h0
  case stdin => exact h1
  case mem_iff =>
    intro p
    rw [List.mem_cons, List.mem_singleton, hnb]
    constructor
    · rintro (rfl | rfl)
      · exact ⟨0, by decide, h0⟩
      · exact ⟨1, by decide, h1⟩
    · rintro ⟨j, hj, hp⟩
      rcases htwo j hj with rfl | rfl
      · exact Or.inl (Option.some.inj (hp.symm.trans h0))
      · exact Or.inr (Option.some.inj (hp.symm.trans h1))
  case once =>
    intro j k p q hj hk hp hq hpq
    rcases htwo j hj with rfl | rfl <;> rcases htwo k hk with rfl | rfl
    · rfl
    · obtain rfl := Option.some.inj (hp.symm.trans h0)
      obtain rfl := Option.some.inj (hq.symm.trans h1)
      exact absurd hpq (by simp only [ownPeer, stdinFd]; omega)
    · obtain rfl := Option.some.inj (hp.symm.trans h1)
      obtain rfl := Option.some.inj (hq.symm.trans h0)
      exact absurd hpq (by simp only [ownPeer, stdinFd]; omega)
    · rfl
  case accepted =>
    intro j hj hlt
    rw [hnb] at hlt
    omega
  case unused =>
    intro j p hj hp
    rw [hnb] at hj
    rw [hat, if_neg (by omega), if_neg (by omega)] at hp
    split at hp
    · cases hp
      rfl
    · cases hp
  case closed_iff =>
    refine ⟨fun h => absurd h (by simp [tcpConnectionServerInit]), ?_⟩
    rintro ⟨j, hj, hnone⟩
    rcases htwo j hj with rfl | rfl
    · rw [h0] at hnone; cases hnone
    · rw [h1] at hnone; cases hnone
  case events =>
    intro j hj hlt
    rw [hnb] at hlt
    rcases htwo j hlt with rfl | rfl <;> simp [tcpConnectionServerInit]

theorem running_listening {type : ConnectionType} (htype : type = .server ∨ type = .proxyClientsSide) {sockfd : Int}
    (hsock : 0 < sockfd) {args : σ} (h : Running on type sockfd con args reg) :
    Listening con.nbPollFds con reg ∧ con.needCompressPollArr = false := by
  induction h with
  | start msg args => exact ⟨serverInit_listening htype hsock msg, rfl⟩
  | turn ready hrun hturn hfresh hok hcompress ih =>
    have hst := handleSockets_listening ih.1 hturn hfresh
    obtain ⟨con₁, hrun₁, hlistening⟩ := compressIfNeeded_listening hst hok
    obtain rfl := Option.some.inj (hrun₁.symm.trans hcompress)
    exact hlistening

/-- In every run of compressible turns the table is exact between the turns, and the next turn leaves an exact table
exactly when it is compressible as well. -/
theorem table_exact_iff {type : ConnectionType} (htype : type = .server ∨ type = .proxyClientsSide) {sockfd : Int}
    (hsock : 0 < sockfd) {args : σ} (h : Running on type sockfd con args reg) :
    Exact con reg ∧ ∀ ready st, handleSockets on ready con args = some st → Fresh reg st.calls →
      ((∃ con', compressIfNeeded st.con con.nbPollFds = some con' ∧ Exact con' (opened reg st.calls)) ↔
        Compressible st.con con.nbPollFds) := by
  obtain ⟨hlistening, hneed⟩ := running_listening htype hsock h
  have hexact : ∀ {con : TcpConnection} {reg : List Peer}, Listening con.nbPollFds con reg →
      con.needCompressPollArr = false → Exact con reg := by
    intro con reg h hneed
    refine ⟨h.nb_le, fun j hj hnone => ?_, h.mem_iff, h.once, h.events⟩
    have := h.closed_iff.2 ⟨j, hj, hnone⟩
    rw [hneed] at this
    cases this
  refine ⟨hexact hlistening hneed, fun ready st hturn hfresh => ?_⟩
  have hst := handleSockets_listening hlistening hturn hfresh
  constructor
  · intro hgood
    by_contra hbad
    exact not_exact_of_not_compressible hst hbad hgood
  · intro hok
    obtain ⟨con', hrun, hlist', hneed'⟩ := compressIfNeeded_listening hst hok
    exact ⟨con', hrun, hexact hlist' hneed'⟩

/-- A program that does nothing with its messages. -/
def silentHandlers : Handlers Unit where
  onMsg _ msg _ args := some (msg, false, args)
  onStdin := none

def quiet : Ready := { revents := 0, accepts := [], recvs := [], stdin := none }

/-- One client connects. -/
def oneConnects (i : ℕ) : Ready :=
  if i = 0 then { quiet with revents := POLLIN, accepts := [.socket 4 ⟨2, 5000, 0⟩ 16] } else quiet

/-- The client at index `2` leaves. -/
def oneLeaves (i : ℕ) : Ready := if i = 2 then { quiet with revents := POLLIN, recvs := [.closed] } else quiet

private def listeningOnThree : TcpConnection := tcpConnectionServerInit .server 3 Message.zero

private def clientFour : Peer := ⟨4, ⟨2, 5000, 0⟩, 16⟩

private def withClientFour : TcpConnection := listeningOnThree.register clientFour (by decide)

private theorem handleSockets_oneConnects :
    handleSockets silentHandlers oneConnects listeningOnThree () =
      some ⟨withClientFour, (), [.accepted clientFour]⟩ := rfl

private theorem fresh_clientFour : Fresh [ownPeer 3, ownPeer stdinFd] [.accepted clientFour] := by
  intro before peer after heq
  cases before with
  | nil =>
    cases heq
    decide
  | cons c before => cases before <;> cases heq

private theorem running_clientFour :
    Running silentHandlers .server 3 withClientFour () [clientFour, ownPeer 3, ownPeer stdinFd] :=
  Running.turn oneConnects (Running.start Message.zero ()) handleSockets_oneConnects fresh_clientFour (Or.inl rfl) rfl

/-- The client at index `2` leaves in the turn in which another one connects. -/
private def oneReplaces (i : ℕ) : Ready :=
  if i = 0 then { quiet with revents := POLLIN, accepts := [.socket 5 ⟨2, 5001, 0⟩ 16] } else oneLeaves i

private def newcomerFive : Peer := ⟨5, ⟨2, 5001, 0⟩, 16⟩

private def replacedByFive : TcpConnection :=
  (withClientFour.register newcomerFive (by decide)).close 2 (by decide)

private theorem handleSockets_oneReplaces :
    handleSockets silentHandlers oneReplaces withClientFour () =
      some ⟨replacedByFive, (), [.accepted newcomerFive, .closed 4]⟩ := rfl

private theorem fresh_newcomerFive :
    Fresh [clientFour, ownPeer 3, ownPeer stdinFd] [.accepted newcomerFive, .closed 4] := by
  intro before peer after heq
  cases before with
  | nil =>
    cases heq
    decide
  | cons c before =>
    cases before with
    | nil => cases heq
    | cons c before => cases before <;> cases heq

theorem table_exact_iff_newcomer :
    Exact withClientFour [clientFour, ownPeer 3, ownPeer stdinFd] ∧
      ∃ con', compressIfNeeded replacedByFive 3 = some con' ∧
        Exact con' [newcomerFive, ownPeer 3, ownPeer stdinFd] := by
  obtain ⟨hexact, hturn⟩ := table_exact_iff (Or.inl rfl) (by decide) running_clientFour
  exact ⟨hexact, (hturn oneReplaces _ handleSockets_oneReplaces fresh_newcomerFive).2
    (Or.inr ⟨by decide, Or.inl rfl⟩)⟩

private theorem handleSockets_oneLeaves :
    handleSockets silentHandlers oneLeaves withClientFour () =
      some ⟨withClientFour.close 2 (by decide), (), [.closed 4]⟩ := rfl

private theorem fresh_closed (reg : List Peer) (fd : Int) : Fresh reg [.closed fd] := by
  intro before peer after heq
  cases before with
  | nil => cases heq
  | cons c before => cases before <;> cases heq

/-- The only client of a server leaves: the entry behind it was never used and is moved into its place. -/
theorem leaving_client_doubles_stdin :
    ∃ con reg, Running silentHandlers .server 3 con () reg ∧
      ∃ st, handleSockets silentHandlers oneLeaves con () = some st ∧ Fresh reg st.calls ∧
        ¬ ∃ con', compressIfNeeded st.con con.nbPollFds = some con' ∧ Exact con' (opened reg st.calls) := by
  refine ⟨_, _, running_clientFour, _, handleSockets_oneLeaves, fresh_closed _ 4, ?_⟩
  have hst := handleSockets_listening (running_listening (Or.inl rfl) (by decide) running_clientFour).1
    handleSockets_oneLeaves (fresh_closed _ 4)
  refine not_exact_of_not_compressible hst ?_
  rintro (hneed | ⟨-, hnb | ⟨-, hnone⟩⟩)
  · cases hneed
  · cases hnb
  · cases hnone

end NyanChat
