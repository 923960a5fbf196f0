import NyanChat.PollTable

/-!
# The table of a listening connection

A listening connection keeps its listener, `stdin` and its clients in the poll table.  What is open is read from the
calls it made (`opened`): a table is exact when it holds every open peer once, and nothing else (`Exact`).  A turn of
the main loop that closed sockets leaves an exact table when the compression starts at the last entry in use
(`Compressible`): with more clients accepted in the same turn, or a never used entry behind the last one, it does
not.
-/

namespace NyanChat

/-! ### The open peers -/

/-- The open peers after a call. -/
def Call.apply (reg : List Peer) : Call → List Peer
  | .accepted peer => peer :: reg
  | .closed fd => reg.filter fun p => p.fd ≠ fd
  | .onMsg _ _ _ => reg

def opened (reg : List Peer) (calls : List Call) : List Peer := calls.foldl Call.apply reg

/-- `accept` gives a descriptor that is not open. -/
def Fresh (reg : List Peer) (calls : List Call) : Prop :=
  ∀ before peer after, calls = before ++ .accepted peer :: after → ∀ p ∈ opened reg before, p.fd ≠ peer.fd

theorem opened_append (reg : List Peer) (l l' : List Call) : opened reg (l ++ l') = opened (opened reg l) l' :=
  List.foldl_append

theorem Fresh.left {reg : List Peer} {l l' : List Call} (h : Fresh reg (l ++ l')) : Fresh reg l :=
  fun before peer after hl => h before peer (after ++ l') (by rw [hl, List.append_assoc, List.cons_append])

theorem Fresh.right {reg : List Peer} {l l' : List Call} (h : Fresh reg (l ++ l')) : Fresh (opened reg l) l' := by
  intro before peer after hl p hp
  rw [← opened_append] at hp
  exact h (l ++ before) peer after (by rw [hl, List.append_assoc]) p hp

theorem opened_of_onMsg {reg : List Peer} {calls : List Call} (h : ∀ c ∈ calls, ∃ s m l, c = .onMsg s m l) :
    opened reg calls = reg := by
  induction calls with
  | nil => rfl
  | cons c calls ih =>
    rw [List.forall_mem_cons] at h
    obtain ⟨s, m, l, rfl⟩ := h.1
    exact ih h.2

/-! ### Exact tables -/

/-- Every open peer stands at one index of the table, and every index in use holds one that is polled. -/
structure Exact (con : TcpConnection) (reg : List Peer) : Prop where
  nb_le : con.nbPollFds ≤ MAX_POLL_SOCKETS
  open_lt : ∀ j < con.nbPollFds, peerAt con.poll j ≠ none
  mem_iff : ∀ p, p ∈ reg ↔ ∃ j < con.nbPollFds, peerAt con.poll j = some p
  once : ∀ j k p q, j < con.nbPollFds → k < con.nbPollFds → peerAt con.poll j = some p →
    peerAt con.poll k = some q → p.fd = q.fd → j = k
  events : ∀ j (h : j < MAX_POLL_SOCKETS), j < con.nbPollFds → con.poll[j].events = POLLIN

/-- At most one socket was accepted in a turn that closed some, and the entry where the compression starts is in
use or closed. -/
def Compressible (con : TcpConnection) (currentNbPollSocks : ℕ) : Prop :=
  con.needCompressPollArr = false ∨
    currentNbPollSocks < MAX_POLL_SOCKETS ∧
      (con.nbPollFds = currentNbPollSocks + 1 ∨
        con.nbPollFds = currentNbPollSocks ∧ peerAt con.poll currentNbPollSocks = none)

/-- The peer at index `0` or `1` of a listening connection. -/
def ownPeer (fd : Int) : Peer := ⟨fd, ⟨0, 0, 0⟩, 0⟩

theorem peerAt_serverInit (type : ConnectionType) {sockfd : Int} (hsock : sockfd ≠ -1) (msg : Message) (j : ℕ) :
    peerAt (tcpConnectionServerInit type sockfd msg).poll j =
      if j = 1 then some (ownPeer stdinFd) else if j = 0 then some (ownPeer sockfd)
      else if j < MAX_POLL_SOCKETS then some (ownPeer 0) else none := by
  rw [tcpConnectionServerInit, peerAt_set, peerAt_set]
  by_cases h1 : j = 1
  · rw [if_pos h1, if_pos h1]
    rfl
  · rw [if_neg h1, if_neg h1, if_neg hsock]
    by_cases h0 : j = 0
    · rw [if_pos h0, if_pos h0]
      rfl
    · rw [if_neg h0, if_neg h0, peerAt]
      split
      · simp [PollSocket.zero, ownPeer]
      · rfl

/-- The table in a turn that began with `current` entries, `reg` being open.  Entries that were never used are
zero, so they look like `stdin`. -/
structure Listening (current : ℕ) (con : TcpConnection) (reg : List Peer) : Prop where
  type : con.typeConnection = .server ∨ con.typeConnection = .proxyClientsSide
  two_le : 2 ≤ current
  current_le : current ≤ con.nbPollFds
  nb_le : con.nbPollFds ≤ MAX_POLL_SOCKETS
  listener : peerAt con.poll 0 = some (ownPeer con.sockfd)
  stdin : peerAt con.poll 1 = some (ownPeer stdinFd)
  mem_iff : ∀ p, p ∈ reg ↔ ∃ j < con.nbPollFds, peerAt con.poll j = some p
  once : ∀ j k p q, j < con.nbPollFds → k < con.nbPollFds → peerAt con.poll j = some p →
    peerAt con.poll k = some q → p.fd = q.fd → j = k
  accepted : ∀ j, current ≤ j → j < con.nbPollFds → peerAt con.poll j ≠ none
  unused : ∀ j p, con.nbPollFds ≤ j → peerAt con.poll j = some p → p.fd = stdinFd
  closed_iff : con.needCompressPollArr = true ↔ ∃ j < current, peerAt con.poll j = none
  events : ∀ j (h : j < MAX_POLL_SOCKETS), j < con.nbPollFds → con.poll[j].events = POLLIN

variable {current : ℕ} {con con' : TcpConnection} {reg : List Peer}

/-- The parts of a connection that handlers leave alone. -/
structure SameTable (con con' : TcpConnection) : Prop where
  sockfd : con'.sockfd = con.sockfd
  poll : con'.poll = con.poll
  nbPollFds : con'.nbPollFds = con.nbPollFds
  type : con'.typeConnection = con.typeConnection
  need : con'.needCompressPollArr = con.needCompressPollArr

theorem SameTable.refl (con : TcpConnection) : SameTable con con := ⟨rfl, rfl, rfl, rfl, rfl⟩

theorem SameTable.trans {con'' : TcpConnection} (h : SameTable con con') (h' : SameTable con' con'') :
    SameTable con con'' :=
  ⟨h'.sockfd.trans h.sockfd, h'.poll.trans h.poll, h'.nbPollFds.trans h.nbPollFds, h'.type.trans h.type,
    h'.need.trans h.need⟩

namespace Listening

theorem congr (h : Listening current con reg) (hs : SameTable con con') : Listening current con' reg := by
  obtain ⟨hsock, hpoll, hnb, htype, hneed⟩ := hs
  constructor
  case type => rw [htype]; exact h.type
  case two_le => exact h.two_le
  case current_le => rw [hnb]; exact h.current_le
  case nb_le => rw [hnb]; exact h.nb_le
  case listener => rw [hpoll, hsock]; exact h.listener
  case stdin => rw [hpoll]; exact h.stdin
  case mem_iff => rw [hpoll, hnb]; exact h.mem_iff
  case once => rw [hpoll, hnb]; exact h.once
  case accepted => rw [hpoll, hnb]; exact h.accepted
  case unused => rw [hpoll, hnb]; exact h.unused
  case closed_iff => rw [hpoll, hneed]; exact h.closed_iff
  case events =>
    intro j hj hlt
    have hget : con'.poll[j] = con.poll[j] := by simp only [hpoll]
    rw [hget]
    exact h.events j hj (hnb ▸ hlt)

theorem register (h : Listening current con reg) {peer : Peer} (hfd : peer.fd ≠ -1)
    (hfresh : ∀ p ∈ reg, p.fd ≠ peer.fd) (hnb : con.nbPollFds < MAX_POLL_SOCKETS) :
    Listening current (con.register peer hnb) (peer :: reg) := by
  have hat := peerAt_register hnb hfd
  have hcur := h.current_le
  have htwo := h.two_le
  have hold : ∀ j < con.nbPollFds, peerAt (con.register peer hnb).poll j = peerAt con.poll j := fun j hj => by
    rw [hat, if_neg (by omega)]
  have hnew : peerAt (con.register peer hnb).poll con.nbPollFds = some peer := by rw [hat, if_pos rfl]
  have hsucc : (con.register peer hnb).nbPollFds = con.nbPollFds + 1 := rfl
  -- a peer at an old index is one of `reg`, so its descriptor is not the new one
  have hother : ∀ j p, j < con.nbPollFds → peerAt (con.register peer hnb).poll j = some p → p.fd ≠ peer.fd :=
    fun j p hj hp => hfresh p ((h.mem_iff p).2 ⟨j, hj, (hold j hj).symm.trans hp⟩)
  constructor
  case type => exact h.type
  case two_le => exact htwo
  case current_le => rw [hsucc]; omega
  case nb_le => rw [hsucc]; omega
  case listener => rw [hold 0 (by omega)]; exact h.listener
  case stdin => rw [hold 1 (by omega)]; exact h.stdin
  case mem_iff =>
    intro p
    rw [List.mem_cons, h.mem_iff, hsucc]
    constructor
    · rintro (rfl | ⟨j, hj, hp⟩)
      · exact ⟨con.nbPollFds, Nat.lt_succ_self _, hnew⟩
      · exact ⟨j, Nat.lt_succ_of_lt hj, (hold j hj).trans hp⟩
    · rintro ⟨j, hj, hp⟩
      rcases Nat.lt_succ_iff_lt_or_eq.1 hj with hlt | rfl
      · exact Or.inr ⟨j, hlt, (hold j hlt).symm.trans hp⟩
      · exact Or.inl (Option.some.inj (hp.symm.trans hnew))
  case once =>
    intro j k p q hj hk hp hq hpq
    rw [hsucc] at hj hk
    rcases Nat.lt_succ_iff_lt_or_eq.1 hj with hj | rfl <;> rcases Nat.lt_succ_iff_lt_or_eq.1 hk with hk | rfl
    · rw [hold j hj] at hp
      rw [hold k hk] at hq
      exact h.once j k p q hj hk hp hq hpq
    · obtain rfl := Option.some.inj (hq.symm.trans hnew)
      exact absurd hpq (hother j p hj hp)
    · obtain rfl := Option.some.inj (hp.symm.trans hnew)
      exact absurd hpq.symm (hother k q hk hq)
    · rfl
  case accepted =>
    intro j hcj hj
    rw [hsucc] at hj
    rcases Nat.lt_succ_iff_lt_or_eq.1 hj with hlt | rfl
    · rw [hold j hlt]
      exact h.accepted j hcj hlt
    · rw [hnew]
      exact Option.some_ne_none peer
  case unused =>
    intro j p hj hp
    rw [hsucc] at hj
    rw [hat, if_neg (by omega)] at hp
    exact h.unused j p (by omega) hp
  case closed_iff =>
    refine h.closed_iff.trans ⟨?_, ?_⟩
    · rintro ⟨j, hj, hnone⟩
      exact ⟨j, hj, by rw [hold j (by omega)]; exact hnone⟩
    · rintro ⟨j, hj, hnone⟩
      exact ⟨j, hj, by rw [← hold j (by omega)]; exact hnone⟩
  case events =>
    intro j hj hlt
    rw [hsucc] at hlt
    simp only [TcpConnection.register, Vector.getElem_set]
    split
    · rfl
    · exact h.events j hj (by omega)

theorem close (h : Listening current con reg) {i : ℕ} (hi : i < current) (hi' : i < MAX_POLL_SOCKETS)
    (hsock : con.poll[i].fd ≠ con.sockfd) (hstdin : con.poll[i].fd ≠ stdinFd) :
    Listening current (con.close i hi') (reg.filter fun p => p.fd ≠ con.poll[i].fd) := by
  have hat : ∀ j, peerAt (con.close i hi').poll j = if j = i then none else peerAt con.poll j := peerAt_close hi'
  have hcur := h.current_le
  have hnb : (con.close i hi').nbPollFds = con.nbPollFds := rfl
  have hself : peerAt (con.close i hi').poll i = none := by rw [hat, if_pos rfl]
  have hold : ∀ j, j ≠ i → peerAt (con.close i hi').poll j = peerAt con.poll j := fun j hj => by rw [hat, if_neg hj]
  have hother : ∀ j p, peerAt (con.close i hi').poll j = some p → j ≠ i := by
    rintro j p hp rfl
    rw [hself] at hp
    cases hp
  -- the listener and `stdin` have other descriptors
  have hown : ∀ j fd, peerAt con.poll j = some (ownPeer fd) → con.poll[i].fd ≠ fd → j ≠ i := by
    rintro j fd hp hne rfl
    obtain ⟨_, hpeer, _⟩ := peerAt_eq_some hp
    exact hne (congrArg Peer.fd hpeer)
  constructor
  case type => exact h.type
  case two_le => exact h.two_le
  case current_le => exact hcur
  case nb_le => exact h.nb_le
  case listener => rw [hold 0 (hown 0 _ h.listener hsock)]; exact h.listener
  case stdin => rw [hold 1 (hown 1 _ h.stdin hstdin)]; exact h.stdin
  case mem_iff =>
    intro p
    rw [List.mem_filter, h.mem_iff, hnb, decide_eq_true_iff]
    constructor
    · rintro ⟨⟨j, hj, hp⟩, hfd⟩
      refine ⟨j, hj, ?_⟩
      rw [hold j, hp]
      rintro rfl
      obtain ⟨_, hpeer, _⟩ := peerAt_eq_some hp
      exact hfd (congrArg Peer.fd hpeer).symm
    · rintro ⟨j, hj, hp⟩
      have hji := hother j p hp
      rw [hold j hji] at hp
      refine ⟨⟨j, hj, hp⟩, fun hfd => ?_⟩
      obtain ⟨_, _, hopen⟩ := peerAt_eq_some hp
      have hpi : peerAt con.poll i = some con.poll[i].toPeer := by
        rw [peerAt, dif_pos hi', if_neg (by rw [← hfd]; exact hopen)]
      exact hji (h.once j i p _ hj (by omega) hp hpi hfd)
  case once =>
    intro j k p q hj hk hp hq hpq
    rw [hold j (hother j p hp)] at hp
    rw [hold k (hother k q hq)] at hq
    exact h.once j k p q hj hk hp hq hpq
  case accepted =>
    intro j hcj hj
    rw [hold j (by omega)]
    exact h.accepted j hcj hj
  case unused =>
    intro j p hj hp
    rw [hold j (hother j p hp)] at hp
    exact h.unused j p hj hp
  case closed_iff => exact ⟨fun _ => ⟨i, hi, hself⟩, fun _ => rfl⟩
  case events =>
    intro j hj hlt
    simp only [TcpConnection.close, Vector.getElem_set]
    split
    · rename_i hij
      subst hij
      exact h.events i hj hlt
    · exact h.events j hj hlt

end Listening

end NyanChat
