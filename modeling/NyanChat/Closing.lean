import NyanChat.Programs

/-!
# Closing sockets

A program exits when it closes a socket that is not open.  A listening program never does, also after turns whose
compression loses clients (`listening_closesOpen`): it closes each socket that it accepted at most once, and what it
leaves open at its end are the clients that a compression lost.  A turn loses one exactly when it closes a socket and
accepts more than one (`leaks_iff`).
-/

namespace NyanChat

variable {σ : Type} {on : Handlers σ} {ready : ℕ → Ready} {con con' : TcpConnection} {reg : List Peer} {current : ℕ}

/-! ### The calls of a program -/

/-- Every socket is open when it is closed. -/
def ClosesOpen (reg : List Peer) (calls : List Call) : Prop :=
  ∀ before fd after, calls = before ++ .closed fd :: after → ∃ p ∈ opened reg before, p.fd = fd

theorem closesOpen_append {calls new : List Call} :
    ClosesOpen reg (calls ++ new) ↔ ClosesOpen reg calls ∧ ClosesOpen (opened reg calls) new := by
  constructor
  · intro h
    constructor
    · intro before fd after hcalls
      exact h before fd (after ++ new) (by rw [hcalls, List.append_assoc, List.cons_append])
    · intro before fd after hnew
      rw [← opened_append]
      exact h (calls ++ before) fd after (by rw [hnew, List.append_assoc])
  · rintro ⟨h, h'⟩ before fd after heq
    rcases List.append_eq_append_iff.1 heq with ⟨mid, rfl, hnew⟩ | ⟨mid, hcalls, hafter⟩
    · rw [opened_append]
      exact h' mid fd after hnew
    · cases mid with
      | nil =>
        rw [List.append_nil] at hcalls
        subst hcalls
        exact h' [] fd after hafter.symm
      | cons c mid =>
        rw [List.cons_append] at hafter
        obtain ⟨rfl, -⟩ := List.cons.inj hafter
        exact h before fd mid hcalls

theorem closesOpen_of_not_closed {calls : List Call} (h : ∀ fd, .closed fd ∉ calls) : ClosesOpen reg calls := by
  intro before fd after hcalls
  exact absurd (by rw [hcalls]; exact List.mem_append_right _ List.mem_cons_self) (h fd)

theorem closesOpen_closed {fd : Int} : ClosesOpen reg [.closed fd] ↔ ∃ p ∈ reg, p.fd = fd := by
  constructor
  · exact fun h => h [] fd [] rfl
  · intro h before fd' after hcalls
    cases before with
    | nil =>
      cases hcalls
      exact h
    | cons c before => cases before <;> cases hcalls

/-- The peers that stay open when some descriptors are closed. -/
theorem opened_closed (reg : List Peer) (fds : List Int) :
    opened reg (fds.map .closed) = reg.filter fun p => p.fd ∉ fds := by
  induction fds generalizing reg with
  | nil =>
    have htrue : ∀ p ∈ reg, decide (p.fd ∉ ([] : List Int)) = true := fun p _ => decide_eq_true List.not_mem_nil
    exact (List.filter_eq_self.2 htrue).symm
  | cons fd fds ih =>
    rw [List.map_cons, opened, List.foldl_cons, Call.apply]
    refine (ih _).trans ?_
    rw [List.filter_filter]
    refine List.filter_congr fun p _ => ?_
    rw [← Bool.decide_and]
    refine decide_eq_decide.2 ?_
    rw [List.mem_cons, not_or, and_comm]

/-- Different open sockets can all be closed. -/
theorem closesOpen_of_nodup {fds : List Int} (hopen : ∀ fd ∈ fds, ∃ p ∈ reg, p.fd = fd) (hnodup : fds.Nodup) :
    ClosesOpen reg (fds.map .closed) := by
  intro before fd after hcalls
  obtain ⟨l, l', rfl, hl, hl'⟩ := List.map_eq_append_iff.1 hcalls
  cases l' with
  | nil => cases hl'
  | cons fd' l' =>
    rw [List.map_cons] at hl'
    obtain ⟨hfd, -⟩ := List.cons.inj hl'
    cases hfd
    obtain ⟨p, hp, rfl⟩ := hopen fd (List.mem_append_right l List.mem_cons_self)
    rw [← hl, opened_closed]
    refine ⟨p, List.mem_filter.2 ⟨hp, decide_eq_true fun hmem => ?_⟩, rfl⟩
    exact (List.nodup_append.1 hnodup).2.2 _ hmem _ List.mem_cons_self rfl

/-! ### The table of a listening program -/

/-- The table in a turn that began with `current` entries, `reg` being open.  Also the entries that are not in use hold
open descriptors, and only that of the standard input is there twice. -/
structure Held (current : ℕ) (con : TcpConnection) (reg : List Peer) : Prop where
  type : con.typeConnection = .server ∨ con.typeConnection = .proxyClientsSide
  sock : con.sockfd ≠ stdinFd
  pos : 0 < current
  current_le : current ≤ con.nbPollFds
  listener : peerAt con.poll 0 = some (ownPeer con.sockfd)
  stdin : ownPeer stdinFd ∈ reg
  nonneg : ∀ p ∈ reg, 0 ≤ p.fd
  known : ∀ j p, peerAt con.poll j = some p → p.fd = stdinFd ∨ p ∈ reg
  once : ∀ j k p q, peerAt con.poll j = some p → peerAt con.poll k = some q → p.fd = q.fd → p.fd ≠ stdinFd → j = k
  whole : con.needCompressPollArr = false → ∀ j < con.nbPollFds, peerAt con.poll j ≠ none

namespace Held

theorem congr (h : Held current con reg) (hs : SameTable con con') : Held current con' reg := by
  obtain ⟨hsock, hpoll, hnb, htype, hneed⟩ := hs
  constructor
  case type => rw [htype]; exact h.type
  case sock => rw [hsock]; exact h.sock
  case pos => exact h.pos
  case current_le => rw [hnb]; exact h.current_le
  case listener => rw [hpoll, hsock]; exact h.listener
  case stdin => exact h.stdin
  case nonneg => exact h.nonneg
  case known => rw [hpoll]; exact h.known
  case once => rw [hpoll]; exact h.once
  case whole => rw [hpoll, hnb, hneed]; exact h.whole

theorem register (h : Held current con reg) {peer : Peer} (hfd : 0 ≤ peer.fd) (hfresh : ∀ p ∈ reg, p.fd ≠ peer.fd)
    (hnb : con.nbPollFds < MAX_POLL_SOCKETS) : Held current (con.register peer hnb) (peer :: reg) := by
  have hat : ∀ j, peerAt (con.register peer hnb).poll j =
      if j = con.nbPollFds then some peer else peerAt con.poll j := peerAt_register hnb (by omega)
  have hpos := h.pos
  have hcurrent := h.current_le
  -- the peers at the other indices have other descriptors
  have hother : ∀ j p, peerAt con.poll j = some p → p.fd ≠ stdinFd → p.fd ≠ peer.fd :=
    fun j p hp hne => hfresh p ((h.known j p hp).resolve_left hne)
  constructor
  case type => exact h.type
  case sock => exact h.sock
  case pos => exact hpos
  case current_le => exact Nat.le_succ_of_le hcurrent
  case listener => rw [hat, if_neg (by omega)]; exact h.listener
  case stdin => exact List.mem_cons_of_mem _ h.stdin
  case nonneg => exact List.forall_mem_cons.2 ⟨hfd, h.nonneg⟩
  case known =>
    intro j p hp
    rw [hat] at hp
    split at hp
    · cases hp
      exact Or.inr List.mem_cons_self
    · exact (h.known j p hp).imp_right (List.mem_cons_of_mem _)
  case once =>
    intro j k p q hp hq hpq hne
    rw [hat] at hp hq
    split at hp <;> split at hq
    · omega
    · cases hp
      exact absurd hpq.symm (hother k q hq (hpq ▸ hne))
    · cases hq
      exact absurd hpq (hother j p hp hne)
    · exact h.once j k p q hp hq hpq hne
  case whole =>
    intro hneed j hj
    rw [hat]
    split
    · exact Option.some_ne_none _
    · exact h.whole hneed j (by have : j < con.nbPollFds + 1 := hj; omega)

theorem close (h : Held current con reg) {i : ℕ} (hi : i < MAX_POLL_SOCKETS) (hsock : con.poll[i].fd ≠ con.sockfd)
    (hstdin : con.poll[i].fd ≠ stdinFd) (hopen : peerAt con.poll i ≠ none) :
    Held current (con.close i hi) (reg.filter fun p => p.fd ≠ con.poll[i].fd) ∧ ∃ p ∈ reg, p.fd = con.poll[i].fd := by
  have hat : ∀ j, peerAt (con.close i hi).poll j = if j = i then none else peerAt con.poll j := peerAt_close hi
  obtain ⟨p, hp⟩ := Option.ne_none_iff_exists'.1 hopen
  have hpfd : p.fd = con.poll[i].fd := by
    obtain ⟨_, hpeer, -⟩ := peerAt_eq_some hp
    rw [← hpeer]
  have hpne : p.fd ≠ stdinFd := by rwa [hpfd]
  refine ⟨?_, p, (h.known i p hp).resolve_left hpne, hpfd⟩
  constructor
  case type => exact h.type
  case sock => exact h.sock
  case pos => exact h.pos
  case current_le => exact h.current_le
  case listener =>
    rw [hat, if_neg, h.listener]
    · rfl
    · rintro rfl
      rw [h.listener] at hp
      cases hp
      exact hsock hpfd.symm
  case stdin => exact List.mem_filter.2 ⟨h.stdin, decide_eq_true hstdin.symm⟩
  case nonneg => exact fun q hq => h.nonneg q (List.mem_filter.1 hq).1
  case known =>
    intro j q hq
    rw [hat] at hq
    split at hq
    · cases hq
    · rename_i hji
      by_cases hq0 : q.fd = stdinFd
      · exact Or.inl hq0
      · refine Or.inr (List.mem_filter.2 ⟨(h.known j q hq).resolve_left hq0, decide_eq_true fun heq => ?_⟩)
        exact hji (h.once j i q p hq hp (heq.trans hpfd.symm) hq0)
  case once =>
    intro j k q r hq hr hqr hne
    rw [hat] at hq hr
    split at hq
    · cases hq
    · split at hr
      · cases hr
      · exact h.once j k q r hq hr hqr hne
  case whole => exact fun hneed => absurd hneed (by simp [TcpConnection.close])

/-- The compression keeps the descriptors of the table, whatever it does to their number. -/
theorem compressIfNeeded (h : Held current con reg) (hrun : compressIfNeeded con current = some con') :
    Held con'.nbPollFds con' reg ∧ con'.needCompressPollArr = false := by
  unfold NyanChat.compressIfNeeded at hrun
  split at hrun
  · have hzero : peerAt con.poll 0 ≠ none := by rw [h.listener]; exact Option.some_ne_none _
    obtain ⟨con₁, hrun₁, hc⟩ := compressPollSocketArray_spec { con with needCompressPollArr := false }
      (compressPollSocketArray_lt hrun) hzero
    obtain rfl := Option.some.inj (hrun₁.symm.trans hrun)
    obtain ⟨π, -, hperm⟩ := hc.perm
    have hperm : ∀ j, peerAt con₁.poll j = peerAt con.poll (π j) := hperm
    have hstays : peerAt con₁.poll 0 = peerAt con.poll 0 := hc.stays 0 fun k hk => by rwa [Nat.le_zero.1 hk]
    refine ⟨?_, by rw [hc.rest]⟩
    constructor
    case type => rw [hc.rest]; exact h.type
    case sock => rw [hc.rest]; exact h.sock
    case pos => exact hc.nb_pos
    case current_le => exact Nat.le_refl _
    case listener => rw [hstays, hc.rest]; exact h.listener
    case stdin => exact h.stdin
    case nonneg => exact h.nonneg
    case known =>
      intro j p hp
      rw [hperm] at hp
      exact h.known _ p hp
    case once =>
      intro j k p q hp hq hpq hne
      rw [hperm] at hp hq
      exact π.injective (h.once _ _ p q hp hq hpq hne)
    case whole =>
      intro _ j hj
      have hle := hc.nb_le
      exact (hc.open_iff j (by omega)).2 hj
  · rename_i hneed
    rw [Bool.not_eq_true] at hneed
    obtain rfl := Option.some.inj hrun
    exact ⟨⟨h.type, h.sock, Nat.lt_of_lt_of_le h.pos h.current_le, Nat.le_refl _, h.listener, h.stdin, h.nonneg,
      h.known, h.once, h.whole⟩, hneed⟩

end Held

/-! ### Runs of a listening program -/

theorem acceptLoop_nonneg {newSock : Int} {accepts : List Accept} {new : List Call}
    (hrun : acceptLoop newSock con accepts = some (con', new)) : ∀ peer, .accepted peer ∈ new → 0 ≤ peer.fd := by
  have hstop : ∀ {x : TcpConnection}, some (x, ([] : List Call)) = some (con', new) →
      ∀ peer, .accepted peer ∈ new → 0 ≤ peer.fd := by
    intro x heq peer hmem
    cases heq
    exact absurd hmem List.not_mem_nil
  induction accepts generalizing newSock con new with
  | nil =>
    rw [acceptLoop] at hrun
    split at hrun
    · exact hstop hrun
    · cases hrun
  | cons a accepts ih =>
    cases a with
    | failed =>
      rw [acceptLoop] at hrun
      split at hrun
      · exact hstop hrun
      · split at hrun
        · exact hstop hrun
        · cases hrun
    | socket fd addr adLen =>
      rw [acceptLoop] at hrun
      split at hrun
      · obtain ⟨⟨con₁, rest⟩, hrest, heq⟩ := Option.map_eq_some_iff.1 hrun
        cases heq
        intro peer hmem
        rcases List.mem_cons.1 hmem with heq | hmem
        · cases heq
          exact Int.natCast_nonneg fd
        · exact ih hrest (fun heq peer hmem => by cases heq; exact absurd hmem List.not_mem_nil) peer hmem
      · split at hrun
        · exact hstop hrun
        · cases hrun

theorem acceptLoop_held {newSock : Int} {accepts : List Accept} {new : List Call}
    (hrun : acceptLoop newSock con accepts = some (con', new)) (h : Held current con reg) (hfresh : Fresh reg new) :
    ClosesOpen reg new ∧ Held current con' (opened reg new) := by
  have hnonneg := acceptLoop_nonneg hrun
  revert reg hnonneg
  refine acceptLoop_rule (Q := fun con con' new => ∀ {reg}, Held current con reg → Fresh reg new →
    (∀ peer, .accepted peer ∈ new → 0 ≤ peer.fd) → ClosesOpen reg new ∧ Held current con' (opened reg new)) ?_ ?_ hrun
  · exact fun con con' hs reg h _ _ => ⟨closesOpen_of_not_closed fun _ => List.not_mem_nil, h.congr hs⟩
  · intro con con' peer hnb new _ ih reg h hfresh hnonneg
    obtain ⟨hcloses, hheld⟩ := ih
      (h.register (hnonneg peer List.mem_cons_self) (hfresh [] _ _ rfl) hnb)
      (Fresh.right (l := [.accepted peer]) hfresh) fun p hp => hnonneg p (List.mem_cons_of_mem _ hp)
    refine ⟨?_, hheld⟩
    rw [← List.singleton_append, closesOpen_append]
    refine ⟨closesOpen_of_not_closed fun fd hmem => ?_, hcloses⟩
    cases List.mem_singleton.1 hmem

/-- The loop through the sockets before the index `i`: the entries to come are open. -/
def HeldFrom (current i : ℕ) (con : TcpConnection) (reg : List Peer) : Prop :=
  Held current con reg ∧ ∀ j, i ≤ j → j < current → peerAt con.poll j ≠ none

theorem handlingOf_read (htype : con.typeConnection = .server ∨ con.typeConnection = .proxyClientsSide) {fd : Int}
    (h : con.handlingOf fd = .read) : fd ≠ con.sockfd ∧ fd ≠ stdinFd := by
  unfold TcpConnection.handlingOf at h
  split at h
  · cases h
  · rename_i hlistener
    have hsock : fd ≠ con.sockfd := fun heq => hlistener ⟨htype, heq⟩
    rw [if_neg fun hand => hsock hand.2] at h
    split at h
    · cases h
    · exact ⟨hsock, by assumption⟩

theorem readPollSocket_held (current : ℕ) {i : ℕ} (hi : i < MAX_POLL_SOCKETS) {recvs : List Recv} {st st' : LoopState σ}
    (hrun : readPollSocket on i hi recvs st = some st') :
    ∃ new, st'.calls = st.calls ++ new ∧ ∀ reg, Held current st.con reg → peerAt st.con.poll i ≠ none →
      st.con.poll[i].fd ≠ st.con.sockfd → st.con.poll[i].fd ≠ stdinFd →
      ClosesOpen reg new ∧ Held current st'.con (opened reg new) := by
  obtain ⟨r, hread, hst'⟩ := Option.map_eq_some_iff.1 hrun
  obtain ⟨hsame, new, hcalls, hnew⟩ := readLoop_sameTable hread
  have hget : r.1.con.poll[i] = st.con.poll[i] := by simp only [hsame.poll]
  have hmsgs : ∀ reg, ClosesOpen reg new := by
    refine fun reg => closesOpen_of_not_closed fun fd hmem => ?_
    obtain ⟨_, _, _, hc⟩ := hnew _ hmem
    cases hc
  split at hst'
  · subst hst'
    refine ⟨new ++ [.closed st.con.poll[i].fd], by simp only [hcalls, List.append_assoc], ?_⟩
    intro reg h hopen hsock hstdin
    obtain ⟨hclosed, hmem⟩ := (h.congr hsame).close hi (by rwa [hget, hsame.sockfd]) (by rwa [hget])
      (by rwa [hsame.poll])
    rw [hget] at hclosed hmem
    rw [opened_append, opened_of_onMsg hnew, closesOpen_append, opened_of_onMsg hnew]
    exact ⟨⟨hmsgs reg, closesOpen_closed.2 hmem⟩, hclosed⟩
  · subst hst'
    refine ⟨new, hcalls, fun reg h _ _ _ => ⟨hmsgs reg, ?_⟩⟩
    rw [opened_of_onMsg hnew]
    exact h.congr hsame

theorem dispatch_held {i : ℕ} (hi : i < current) {r r' : LoopState σ × Bool}
    (hrun : dispatch on ready r i = some r') :
    ∃ new, r'.1.calls = r.1.calls ++ new ∧ ∀ reg, HeldFrom current i r.1.con reg → Fresh reg new →
      ClosesOpen reg new ∧ HeldFrom current (i + 1) r'.1.con (opened reg new) := by
  obtain ⟨_, -, hentry⟩ := dispatch_handled hrun
  have hahead : ∀ {reg}, HeldFrom current i r.1.con reg →
      ∀ j, i + 1 ≤ j → j < current → peerAt r'.1.con.poll j ≠ none := by
    intro reg h j hij hj
    have hopen := h.2 j (by omega) hj
    obtain ⟨p, hp⟩ := Option.ne_none_iff_exists'.1 hopen
    obtain ⟨hlt, -, -⟩ := peerAt_eq_some hp
    rw [ne_eq, peerAt_eq_none hlt] at hopen ⊢
    rwa [hentry.later j hlt hij (hj.trans_le h.1.current_le)]
  -- steps without calls that leave the table
  have hsame : SameTable r.1.con r'.1.con → r'.1.calls = r.1.calls → ∃ new, r'.1.calls = r.1.calls ++ new ∧
      ∀ reg, HeldFrom current i r.1.con reg → Fresh reg new →
        ClosesOpen reg new ∧ HeldFrom current (i + 1) r'.1.con (opened reg new) :=
    fun hs hcalls => ⟨[], by rw [hcalls, List.append_nil], fun reg h _ =>
      ⟨closesOpen_of_not_closed fun _ => List.not_mem_nil, h.1.congr hs, hahead h⟩⟩
  cases dispatch_dispatched hrun with
  | skipped _ => exact hsame (SameTable.refl _) rfl
  | error _ _ _ => exact hsame ⟨rfl, rfl, rfl, rfl, rfl⟩ rfl
  | handled hi' _ _ hhandle =>
    cases hhandling : r.1.con.handling i with
    | accept =>
      rw [hhandling] at hhandle
      obtain ⟨x, haccept, rfl⟩ := Option.map_eq_some_iff.1 hhandle
      refine ⟨x.2, rfl, fun reg h hfresh => ?_⟩
      obtain ⟨hcloses, hheld⟩ := acceptLoop_held haccept h.1 hfresh
      exact ⟨hcloses, hheld, hahead h⟩
    | stdin =>
      rw [hhandling, handleEntry] at hhandle
      split at hhandle
      · cases hhandle
        exact hsame (SameTable.refl _) rfl
      · obtain ⟨st', hst', rfl⟩ := Option.map_eq_some_iff.1 hhandle
        obtain ⟨htable, hcalls⟩ := readStdin_sameTable hst'
        exact hsame htable hcalls
    | read =>
      have hread := hhandling
      rw [hhandling] at hhandle
      obtain ⟨st', hst', rfl⟩ := Option.map_eq_some_iff.1 hhandle
      obtain ⟨new, hcalls, hnew⟩ := readPollSocket_held current hi' hst'
      refine ⟨new, hcalls, fun reg h _ => ?_⟩
      rw [TcpConnection.handling, dif_pos hi'] at hread
      obtain ⟨hsock, hstdin⟩ := handlingOf_read h.1.type hread
      obtain ⟨hcloses, hheld⟩ := hnew reg h.1 (h.2 i (Nat.le_refl i) hi) hsock hstdin
      exact ⟨hcloses, hheld, hahead h⟩

theorem handleSockets_held {args : σ} {st : LoopState σ} (h : Held con.nbPollFds con reg)
    (hneed : con.needCompressPollArr = false) (hrun : handleSockets on ready con args = some st)
    (hfresh : Fresh reg st.calls) : ClosesOpen reg st.calls ∧ Held con.nbPollFds st.con (opened reg st.calls) := by
  obtain ⟨r, hfold, rfl⟩ := Option.map_eq_some_iff.1 hrun
  obtain ⟨hcloses, hheld, -⟩ := Loop.foldlM_range_of_some (f := dispatch on ready)
    (fun i (r : LoopState σ × Bool) => Fresh reg r.1.calls →
      ClosesOpen reg r.1.calls ∧ HeldFrom con.nbPollFds i r.1.con (opened reg r.1.calls))
    hfold (fun _ => ⟨closesOpen_of_not_closed fun _ => List.not_mem_nil, h, fun j _ hj => h.whole hneed j hj⟩)
    (fun i hi r r' ih hstep hfresh' => by
      obtain ⟨new, hcalls, hnew⟩ := dispatch_held hi hstep
      rw [hcalls] at hfresh' ⊢
      obtain ⟨hcloses, hheld⟩ := ih hfresh'.left
      obtain ⟨hcloses', hheld'⟩ := hnew _ hheld hfresh'.right
      rw [opened_append, closesOpen_append]
      exact ⟨⟨hcloses, hcloses'⟩, hheld'⟩) hfresh
  exact ⟨hcloses, hheld⟩

theorem mainloop_held {polls : List PollAnswer} {st : LoopState σ} {r : LoopState σ × Bool}
    (hrun : tcpConnectionMainloop on polls st = some r) {reg₀ : List Peer} (hcalls : st.calls = [])
    (h : Held st.con.nbPollFds st.con reg₀) (hneed : st.con.needCompressPollArr = false)
    (hfresh : Fresh reg₀ r.1.calls) :
    ClosesOpen reg₀ r.1.calls ∧ Held r.1.con.nbPollFds r.1.con (opened reg₀ r.1.calls) ∧
      r.1.con.needCompressPollArr = false := by
  refine mainloop_rule (Q := fun st => Fresh reg₀ st.calls → ClosesOpen reg₀ st.calls ∧
    Held st.con.nbPollFds st.con (opened reg₀ st.calls) ∧ st.con.needCompressPollArr = false) ?_ hrun ?_ hfresh
  · rintro ready - st st' ih hturn hfresh
    obtain ⟨st₁, hsockets, hturn⟩ := Option.bind_eq_some_iff.1 hturn
    obtain ⟨con, hcompress, rfl⟩ := Option.map_eq_some_iff.1 hturn
    obtain ⟨hcloses, hheld, hneed⟩ := ih hfresh.left
    obtain ⟨hcloses', hheld'⟩ := handleSockets_held hheld hneed hsockets hfresh.right
    rw [opened_append, closesOpen_append]
    exact ⟨⟨hcloses, hcloses'⟩, hheld'.compressIfNeeded hcompress⟩
  · rw [hcalls]
    exact fun _ => ⟨closesOpen_of_not_closed fun _ => List.not_mem_nil, h, hneed⟩

theorem serverInit_held {type : ConnectionType} (htype : type = .server ∨ type = .proxyClientsSide) {sockfd : Int}
    (hsock : 0 < sockfd) (msg : Message) :
    Held 2 (tcpConnectionServerInit type sockfd msg) [ownPeer sockfd, ownPeer stdinFd] := by
  have hat := peerAt_serverInit type (show sockfd ≠ -1 by omega) msg
  have hstdin : ∀ fd : Int, (ownPeer fd).fd = fd := fun _ => rfl
  -- an entry is the listener or looks like the standard input
  have hcases : ∀ j p, peerAt (tcpConnectionServerInit type sockfd msg).poll j = some p →
      p.fd = stdinFd ∨ j = 0 ∧ p = ownPeer sockfd := by
    intro j p hp
    rw [hat] at hp
    split at hp
    · cases hp
      exact Or.inl rfl
    · split at hp
      · cases hp
        exact Or.inr ⟨by assumption, rfl⟩
      · split at hp
        · cases hp
          exact Or.inl rfl
        · cases hp
  constructor
  case type => exact htype
  case sock => exact show sockfd ≠ 0 by omega
  case pos => exact Nat.zero_lt_two
  case current_le => exact Nat.le_refl 2
  case listener => rw [hat, if_neg (by decide), if_pos rfl]; rfl
  case stdin => exact List.mem_cons_of_mem _ List.mem_cons_self
  case nonneg =>
    intro p hp
    rcases List.mem_cons.1 hp with rfl | hp
    · exact Int.le_of_lt hsock
    · rw [List.mem_singleton.1 hp]
      exact Int.le_refl 0
  case known =>
    intro j p hp
    rcases hcases j p hp with hp0 | ⟨-, rfl⟩
    · exact Or.inl hp0
    · exact Or.inr List.mem_cons_self
  case once =>
    intro j k p q hp hq hpq hne
    rcases hcases j p hp with hp0 | ⟨rfl, -⟩
    · exact absurd hp0 hne
    · rcases hcases k q hq with hq0 | ⟨rfl, -⟩
      · exact absurd (hpq.trans hq0) hne
      · rfl
  case whole =>
    intro _ j hj
    have hj : j < 2 := hj
    rw [hat]
    split
    · exact Option.some_ne_none _
    · rw [if_pos (by omega)]
      exact Option.some_ne_none _

/-! ### The end of a listening program -/

/-- The descriptors of the table that `tcp_connection_close` closes after the own one. -/
def tableFds (con : TcpConnection) : List Int :=
  ((con.poll.toList.take con.nbPollFds).filter fun s => 0 ≤ s.fd ∧ s.fd ≠ con.sockfd ∧ s.fd ≠ stdinFd).map
    fun s => s.fd

theorem tcpConnectionClose_eq (con : TcpConnection) :
    tcpConnectionClose con = (con.sockfd :: tableFds con).map .closed := by
  rw [tcpConnectionClose, tableFds, List.map_cons, List.map_map]
  rfl

/-- The entry of the table holds the peer. -/
theorem mem_tableFds {fd : Int} : fd ∈ tableFds con ↔
    ∃ j < con.nbPollFds, ∃ p, peerAt con.poll j = some p ∧ p.fd = fd ∧ 0 ≤ fd ∧ fd ≠ con.sockfd ∧ fd ≠ stdinFd := by
  simp only [tableFds, List.mem_map, List.mem_filter, decide_eq_true_iff]
  constructor
  · rintro ⟨s, ⟨hs, hfd⟩, rfl⟩
    obtain ⟨j, hj, rfl⟩ := List.getElem_of_mem hs
    rw [List.length_take, Vector.length_toList] at hj
    rw [List.getElem_take, Vector.getElem_toList] at hfd ⊢
    have hlt : j < MAX_POLL_SOCKETS := by omega
    refine ⟨j, by omega, con.poll[j].toPeer, ?_, rfl, hfd⟩
    rw [peerAt, dif_pos hlt, if_neg (by omega)]
  · rintro ⟨j, hj, p, hp, rfl, hfd⟩
    obtain ⟨hlt, hpeer, -⟩ := peerAt_eq_some hp
    have hget : con.poll[j].fd = p.fd := by rw [← hpeer]
    have hlen : j < (con.poll.toList.take con.nbPollFds).length := by
      rw [List.length_take, Vector.length_toList]
      omega
    refine ⟨con.poll[j], ⟨?_, by rwa [hget]⟩, hget⟩
    have hmem := List.getElem_mem hlen
    rwa [List.getElem_take, Vector.getElem_toList] at hmem

theorem Held.nodup_tableFds (h : Held current con reg) : (tableFds con).Nodup := by
  rw [tableFds, List.Nodup, List.pairwise_map, List.pairwise_filter]
  refine List.Pairwise.take (List.pairwise_iff_getElem.2 ?_)
  intro j k hj hk hjk hfdj hfdk heq
  rw [Vector.length_toList] at hj hk
  rw [Vector.getElem_toList, decide_eq_true_iff] at hfdj hfdk
  rw [Vector.getElem_toList, Vector.getElem_toList] at heq
  have hat : ∀ i (hi : i < MAX_POLL_SOCKETS), 0 ≤ con.poll[i].fd → peerAt con.poll i = some con.poll[i].toPeer :=
    fun i hi hfd => by rw [peerAt, dif_pos hi, if_neg (by omega)]
  exact absurd (h.once j k _ _ (hat j hj hfdj.1) (hat k hk hfdk.1) heq hfdj.2.2) (Nat.ne_of_lt hjk)

theorem Held.listener_mem (h : Held current con reg) : ownPeer con.sockfd ∈ reg :=
  (h.known 0 _ h.listener).resolve_left h.sock

/-- The closing closes open sockets only. -/
theorem Held.closesOpen (h : Held current con reg) : ClosesOpen reg (tcpConnectionClose con) := by
  rw [tcpConnectionClose_eq]
  refine closesOpen_of_nodup ?_ (List.nodup_cons.2 ⟨fun hmem => ?_, h.nodup_tableFds⟩)
  · rw [List.forall_mem_cons]
    refine ⟨⟨_, h.listener_mem, rfl⟩, fun fd hmem => ?_⟩
    obtain ⟨j, -, p, hp, hpfd, -, -, hstdin⟩ := mem_tableFds.1 hmem
    exact ⟨p, (h.known j p hp).resolve_left (by rwa [hpfd]), hpfd⟩
  · obtain ⟨j, -, p, -, -, -, hne, -⟩ := mem_tableFds.1 hmem
    exact hne rfl

/-- What stays open is the standard input, and what is not in the table. -/
theorem Held.mem_opened_close (h : Held current con reg) {p : Peer} :
    p ∈ opened reg (tcpConnectionClose con) ↔ p ∈ reg ∧
      (p.fd = stdinFd ∨ ∀ j < con.nbPollFds, ∀ q, peerAt con.poll j = some q → q.fd ≠ p.fd) := by
  rw [tcpConnectionClose_eq, opened_closed, List.mem_filter, decide_eq_true_iff, List.mem_cons, not_or]
  refine and_congr_right fun hp => ?_
  have hlistener := h.listener
  have hpos := Nat.lt_of_lt_of_le h.pos h.current_le
  constructor
  · rintro ⟨hsock, hmem⟩
    by_cases hstdin : p.fd = stdinFd
    · exact Or.inl hstdin
    · refine Or.inr fun j hj q hq heq => hmem (mem_tableFds.2 ⟨j, hj, q, hq, heq, h.nonneg p hp, hsock, hstdin⟩)
  · rintro (hstdin | hlost)
    · refine ⟨fun heq => h.sock (heq.symm.trans hstdin), fun hmem => ?_⟩
      obtain ⟨-, -, -, -, -, -, -, hne⟩ := mem_tableFds.1 hmem
      exact hne hstdin
    · refine ⟨fun heq => hlost 0 hpos _ hlistener heq.symm, fun hmem => ?_⟩
      obtain ⟨j, hj, q, hq, heq, -⟩ := mem_tableFds.1 hmem
      exact hlost j hj q hq heq

/-- A listening program never closes a socket that is not open, whatever its compressions did to the table.  After its
end the standard input is open, and the clients that are not in the table any more. -/
theorem listening_closesOpen {type : ConnectionType} (htype : type = .server ∨ type = .proxyClientsSide) {sockfd : Int}
    (hsock : 0 < sockfd) {msg : Message} {args : σ} {polls : List PollAnswer} {r : LoopState σ × Bool}
    (hrun : tcpConnectionMainloop on polls ⟨tcpConnectionServerInit type sockfd msg, args, []⟩ = some r)
    (hfresh : Fresh [ownPeer sockfd, ownPeer stdinFd] r.1.calls) :
    ClosesOpen [ownPeer sockfd, ownPeer stdinFd] (r.1.calls ++ tcpConnectionClose r.1.con) ∧
      ∀ p, p ∈ opened [ownPeer sockfd, ownPeer stdinFd] (r.1.calls ++ tcpConnectionClose r.1.con) ↔
        p ∈ opened [ownPeer sockfd, ownPeer stdinFd] r.1.calls ∧
          (p.fd = stdinFd ∨ ∀ j < r.1.con.nbPollFds, ∀ q, peerAt r.1.con.poll j = some q → q.fd ≠ p.fd) := by
  obtain ⟨hcloses, hheld, -⟩ := mainloop_held hrun rfl (serverInit_held htype hsock msg) rfl hfresh
  rw [closesOpen_append, opened_append]
  exact ⟨⟨hcloses, hheld.closesOpen⟩, fun p => hheld.mem_opened_close⟩

private def peerFour : Peer := ⟨4, ⟨2, 5000, 0⟩, 16⟩

private theorem mainloop_connects_leaves :
    (tcpConnectionMainloop silentHandlers [.ready oneConnects, .ready oneLeaves]
      ⟨tcpConnectionServerInit .server 3 Message.zero, (), []⟩).map (fun r => r.1.calls) =
        some [.accepted peerFour, .closed 4] := rfl

private theorem fresh_connects_leaves : Fresh [ownPeer 3, ownPeer stdinFd] [.accepted peerFour, .closed 4] := by
  intro before peer after heq
  cases before with
  | nil =>
    cases heq
    decide
  | cons c before =>
    cases before with
    | nil => cases heq
    | cons c before => cases before <;> cases heq

/-- The program of which `leaving_client_doubles_stdin` is about a turn. -/
theorem listening_closesOpen_leaves : ∃ r,
    tcpConnectionMainloop silentHandlers [.ready oneConnects, .ready oneLeaves]
      ⟨tcpConnectionServerInit .server 3 Message.zero, (), []⟩ = some r ∧
      ClosesOpen [ownPeer 3, ownPeer stdinFd]
        ([.accepted peerFour, .closed 4] ++ tcpConnectionClose r.1.con) := by
  obtain ⟨r, hr, hcalls⟩ := Option.map_eq_some_iff.1 mainloop_connects_leaves
  have hcloses := (listening_closesOpen (Or.inl rfl) (by decide) hr (by rw [hcalls]; exact fresh_connects_leaves)).1
  rw [hcalls] at hcloses
  exact ⟨r, hr, hcloses⟩

/-! ### Lost clients -/

/-- The client is still open when a program ends after a turn that left the table `con`. -/
def Leaks (con : TcpConnection) (reg : List Peer) : Prop :=
  ∃ p ∈ opened reg (tcpConnectionClose con), p.fd ≠ stdinFd

theorem running_held {type : ConnectionType} (htype : type = .server ∨ type = .proxyClientsSide) {sockfd : Int}
    (hsock : 0 < sockfd) {args : σ} (h : Running on type sockfd con args reg) :
    Held con.nbPollFds con reg ∧ con.needCompressPollArr = false := by
  induction h with
  | start msg args => exact ⟨serverInit_held htype hsock msg, rfl⟩
  | turn ready _ hturn hfresh _ hcompress ih =>
    exact (handleSockets_held ih.1 ih.2 hturn hfresh).2.compressIfNeeded hcompress

/-- After a run of compressible turns, the next turn loses a client exactly when it closes a socket and accepts more
than one. -/
theorem leaks_iff {type : ConnectionType} (htype : type = .server ∨ type = .proxyClientsSide) {sockfd : Int}
    (hsock : 0 < sockfd) {args : σ} (h : Running on type sockfd con args reg) {st : LoopState σ}
    (hturn : handleSockets on ready con args = some st) (hfresh : Fresh reg st.calls)
    (hcompress : compressIfNeeded st.con con.nbPollFds = some con') :
    Leaks con' (opened reg st.calls) ↔
      st.con.needCompressPollArr = true ∧ con.nbPollFds + 2 ≤ st.con.nbPollFds := by
  obtain ⟨hheld, hneed⟩ := running_held htype hsock h
  have hheld' := ((handleSockets_held hheld hneed hturn hfresh).2.compressIfNeeded hcompress).1
  have hst := handleSockets_listening (running_listening htype hsock h).1 hturn hfresh
  have hlost : Leaks con' (opened reg st.calls) ↔ ∃ p ∈ opened reg st.calls, p.fd ≠ stdinFd ∧
      ∀ k < con'.nbPollFds, ∀ q, peerAt con'.poll k = some q → q.fd ≠ p.fd := by
    constructor
    · rintro ⟨p, hp, hne⟩
      obtain ⟨hmem, hstays⟩ := hheld'.mem_opened_close.1 hp
      exact ⟨p, hmem, hne, hstays.resolve_left hne⟩
    · rintro ⟨p, hmem, hne, habsent⟩
      exact ⟨p, hheld'.mem_opened_close.2 ⟨hmem, Or.inr habsent⟩, hne⟩
  rw [hlost]
  have htwo := hst.two_le
  unfold compressIfNeeded at hcompress
  split at hcompress
  · rename_i hcloses
    obtain ⟨con₁, hrun₁, hc⟩ := compressPollSocketArray_spec { st.con with needCompressPollArr := false }
      (compressPollSocketArray_lt hcompress) hst.zero_open
    obtain rfl := Option.some.inj (hrun₁.symm.trans hcompress)
    obtain ⟨π, hπ, hperm⟩ := hc.perm
    have hperm : ∀ j, peerAt con₁.poll j = peerAt st.con.poll (π j) := hperm
    have hnb := hc.nb_le
    have hcurrent := hst.current_le
    rw [and_iff_right hcloses]
    constructor
    · rintro ⟨p, hmem, -, habsent⟩
      obtain ⟨j, hj, hp⟩ := (hst.mem_iff p).1 hmem
      by_contra hfew
      -- all entries in use are compressed
      obtain ⟨hlt, hat⟩ := hc.moved hπ hperm (by omega : j ≤ con.nbPollFds) hp
      exact habsent _ hlt p hat rfl
    · intro hmany
      -- the second accepted client stands behind what is compressed
      obtain ⟨p, hp⟩ := Option.ne_none_iff_exists'.1 (hst.accepted (con.nbPollFds + 1) (by omega) (by omega))
      refine ⟨p, (hst.mem_iff p).2 ⟨_, by omega, hp⟩, fun hstdin => ?_, fun k hk q hq heq => ?_⟩
      · have heq := hst.once _ 1 p _ (by omega) (by omega) hp hst.stdin hstdin
        omega
      · rw [hperm] at hq
        have hle := (Compaction.perm_le_iff hπ k).2 (by omega)
        have heq := hst.once _ _ q p (by omega) (by omega) hq hp heq
        omega
  · rename_i hno
    cases hcompress
    refine iff_of_false ?_ fun hand => hno hand.1
    rintro ⟨p, hmem, -, habsent⟩
    obtain ⟨j, hj, hp⟩ := (hst.mem_iff p).1 hmem
    exact habsent j hj p hp rfl

/-- In the same turn the client at index `2` leaves and two others connect. -/
def leavesAndConnect (i : ℕ) : Ready :=
  if i = 0 then { quiet with
    revents := POLLIN, accepts := [.socket 5 ⟨2, 5001, 0⟩ 16, .socket 6 ⟨2, 5002, 0⟩ 16] }
  else oneLeaves i

private theorem running_one : Running silentHandlers .server 3
    ((tcpConnectionServerInit .server 3 Message.zero).register peerFour (by decide)) ()
    [peerFour, ownPeer 3, ownPeer stdinFd] := by
  have hturn : handleSockets silentHandlers oneConnects (tcpConnectionServerInit .server 3 Message.zero) () =
      some ⟨(tcpConnectionServerInit .server 3 Message.zero).register peerFour (by decide), (),
        [.accepted peerFour]⟩ := rfl
  refine Running.turn oneConnects (Running.start Message.zero ()) hturn ?_ (Or.inl rfl) rfl
  intro before peer after heq
  cases before with
  | nil =>
    cases heq
    decide
  | cons c before => cases before <;> cases heq

private def clientFive : Peer := ⟨5, ⟨2, 5001, 0⟩, 16⟩

private def clientSix : Peer := ⟨6, ⟨2, 5002, 0⟩, 16⟩

private def withOne : TcpConnection :=
  (tcpConnectionServerInit .server 3 Message.zero).register peerFour (by decide)

private theorem fresh_two :
    Fresh [peerFour, ownPeer 3, ownPeer stdinFd] [.accepted clientFive, .accepted clientSix, .closed 4] := by
  intro before peer after heq
  cases before with
  | nil =>
    cases heq
    decide
  | cons c before =>
    cases before with
    | nil =>
      cases heq
      decide
    | cons c before =>
      cases before with
      | nil => cases heq
      | cons c before => cases before <;> cases heq

theorem leaks_iff_two :
    ∃ con args st reg con', Running silentHandlers .server 3 con args reg ∧
      handleSockets silentHandlers leavesAndConnect con args = some st ∧
      compressIfNeeded st.con con.nbPollFds = some con' ∧ Leaks con' (opened reg st.calls) := by
  have hturn : handleSockets silentHandlers leavesAndConnect withOne () =
      some ⟨((withOne.register clientFive (by decide)).register clientSix (by decide)).close 2 (by decide), (),
        [.accepted clientFive, .accepted clientSix, .closed 4]⟩ := rfl
  have hcompress : ∃ con', compressIfNeeded
      (((withOne.register clientFive (by decide)).register clientSix (by decide)).close 2 (by decide)) 3 = some con' :=
    ⟨_, rfl⟩
  obtain ⟨con', hcompress⟩ := hcompress
  refine ⟨_, _, _, _, con', running_one, hturn, hcompress, ?_⟩
  exact (leaks_iff (Or.inl rfl) (by decide) running_one hturn fresh_two hcompress).2 ⟨rfl, by decide⟩

end NyanChat
