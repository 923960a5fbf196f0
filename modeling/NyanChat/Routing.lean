import NyanChat.Network
import NyanChat.Broadcast
import NyanChat.Listening
import NyanChat.Library.Leases

/-!
# Whom a reply reaches

An index of the proxy's table is used again when its client leaves, while the server and the messages on the way
still refer to it.  In a run that puts no connection at an index to which another one still refers (`Reserved`),
every message of the server is sent to the connection that it is for (`delivered_to_requester`).  In other runs it
may reach somebody else (`reply_reaches_another`).
-/

namespace NyanChat

open Leases

namespace Network

/-! ### The table -/

/-- The entries of clients have an owner, and each of them is at one index. -/
structure Owned (con : TcpConnection) (owner : Int → Option ℕ) : Prop where
  listener : ∃ p, peerAt con.poll 0 = some p ∧ p.fd = con.sockfd
  nb_pos : 0 < con.nbPollFds
  nobody : ∀ fd, fd = con.sockfd ∨ fd = -1 ∨ fd = stdinFd → owner fd = none
  known : ∀ j p, peerAt con.poll j = some p → p.fd = con.sockfd ∨ p.fd = stdinFd ∨ owner p.fd ≠ none
  once : ∀ j k p q, peerAt con.poll j = some p → peerAt con.poll k = some q → p.fd = q.fd → owner p.fd ≠ none → j = k

variable {con con' : TcpConnection} {owner : Int → Option ℕ} {j X : ℕ}

theorem clientAt_eq_some :
    clientAt con owner j = some X ↔ ∃ p, peerAt con.poll j = some p ∧ owner p.fd = some X := Option.bind_eq_some_iff

theorem owned_start {sockfd : Int} (hsock : sockfd ≠ -1) (msg : Message) :
    Owned (tcpConnectionServerInit .proxyClientsSide sockfd msg) fun _ => none := by
  have hat := peerAt_serverInit .proxyClientsSide hsock msg
  refine ⟨⟨ownPeer sockfd, hat 0, rfl⟩, Nat.zero_lt_two, fun _ _ => rfl, fun j p hp => ?_,
    fun j k p q _ _ _ h => absurd rfl h⟩
  rw [hat] at hp
  split at hp
  · cases hp
    exact Or.inr (Or.inl rfl)
  · split at hp
    · cases hp
      exact Or.inl rfl
    · split at hp
      · cases hp
        exact Or.inr (Or.inl rfl)
      · cases hp

namespace Owned

/-- A descriptor that is not open is not in the table. -/
theorem fresh (h : Owned con owner) {fd : Int} (hfree : owner fd = none) (hsock : fd ≠ con.sockfd)
    (hstdin : fd ≠ stdinFd) {p : Peer} (hp : peerAt con.poll j = some p) : p.fd ≠ fd := by
  rintro rfl
  rcases h.known j p hp with h' | h' | h'
  · exact hsock h'
  · exact hstdin h'
  · exact h' hfree

theorem register (h : Owned con owner) {peer : Peer} (hnb : con.nbPollFds < MAX_POLL_SOCKETS)
    (hfree : owner peer.fd = none) (hopen : peer.fd ≠ -1) (hsock : peer.fd ≠ con.sockfd) (hstdin : peer.fd ≠ stdinFd)
    (X : ℕ) : Owned (con.register peer hnb) (Function.update owner peer.fd (some X)) := by
  have hat : ∀ j, peerAt (con.register peer hnb).poll j =
      if j = con.nbPollFds then some peer else peerAt con.poll j := peerAt_register hnb hopen
  have hnew : ∀ j p, peerAt con.poll j = some p → p.fd ≠ peer.fd := fun j p hp => h.fresh hfree hsock hstdin hp
  constructor
  case listener =>
    obtain ⟨p, hp, hpfd⟩ := h.listener
    refine ⟨p, ?_, hpfd⟩
    rw [hat, if_neg (Nat.ne_of_lt h.nb_pos)]
    exact hp
  case nb_pos => exact Nat.succ_pos _
  case nobody =>
    intro fd hfd
    rw [Function.update_of_ne]
    · exact h.nobody fd hfd
    · rintro rfl
      rcases hfd with hfd | hfd | hfd
      · exact hsock hfd
      · exact hopen hfd
      · exact hstdin hfd
  case known =>
    intro j p hp
    rw [hat] at hp
    split at hp
    · cases hp
      exact Or.inr (Or.inr (by simp))
    · rw [Function.update_of_ne (hnew j p hp)]
      exact h.known j p hp
  case once =>
    intro j k p q hp hq hpq howner
    rw [hat] at hp hq
    split at hp <;> split at hq
    · omega
    · cases hp
      exact absurd hpq.symm (hnew k q hq)
    · cases hq
      exact absurd hpq (hnew j p hp)
    · rw [Function.update_of_ne (hnew j p hp)] at howner
      exact h.once j k p q hp hq hpq howner

theorem close (h : Owned con owner) {i : ℕ} (hi : i < MAX_POLL_SOCKETS) (hclient : owner con.poll[i].fd ≠ none) :
    Owned (con.close i hi) (Function.update owner con.poll[i].fd none) := by
  have hat : ∀ j, peerAt (con.close i hi).poll j = if j = i then none else peerAt con.poll j := peerAt_close hi
  have hopen : con.poll[i].fd ≠ -1 := fun heq => hclient (h.nobody _ (Or.inr (Or.inl heq)))
  have hself : peerAt con.poll i = some con.poll[i].toPeer := by rw [peerAt, dif_pos hi, if_neg hopen]
  -- the other peers have other descriptors, so they keep their owners
  have hother : ∀ j p, j ≠ i → peerAt con.poll j = some p → p.fd ≠ con.poll[i].fd := by
    intro j p hj hp heq
    exact hj (h.once j i p _ hp hself heq (heq ▸ hclient))
  constructor
  case listener =>
    obtain ⟨p, hp, hpfd⟩ := h.listener
    refine ⟨p, ?_, hpfd⟩
    rw [hat, if_neg, hp]
    rintro rfl
    rw [hself] at hp
    exact hclient (h.nobody _ (Or.inl (Option.some.inj hp ▸ hpfd)))
  case nb_pos => exact h.nb_pos
  case nobody =>
    intro fd hfd
    rcases eq_or_ne fd con.poll[i].fd with rfl | hne
    · exact Function.update_self ..
    · rw [Function.update_of_ne hne]
      exact h.nobody fd hfd
  case known =>
    intro j p hp
    rw [hat] at hp
    split at hp
    · cases hp
    · rename_i hj
      rw [Function.update_of_ne (hother j p hj hp)]
      exact h.known j p hp
  case once =>
    intro j k p q hp hq hpq howner
    rw [hat] at hp hq
    split at hp
    · cases hp
    split at hq
    · cases hq
    rename_i hj _
    rw [Function.update_of_ne (hother j p hj hp)] at howner
    exact h.once j k p q hp hq hpq howner

theorem compressed (h : Owned con owner) {n : ℕ} (hc : Compressed n con con') : Owned con' owner := by
  obtain ⟨π, -, hperm⟩ := hc.perm
  have hsock : con'.sockfd = con.sockfd := by rw [hc.rest]
  obtain ⟨p, hp, hpfd⟩ := h.listener
  constructor
  case listener =>
    refine ⟨p, ?_, hpfd.trans hsock.symm⟩
    rw [hc.stays 0 fun k hk => by rw [Nat.le_zero.1 hk, hp]; exact Option.some_ne_none p]
    exact hp
  case nb_pos => exact hc.nb_pos
  case nobody =>
    intro fd hfd
    rw [hsock] at hfd
    exact h.nobody fd hfd
  case known =>
    intro j p hp
    rw [hsock]
    rw [hperm] at hp
    exact h.known _ p hp
  case once =>
    intro j k p q hp hq hpq howner
    rw [hperm] at hp hq
    exact π.injective (h.once _ _ p q hp hq hpq howner)

end Owned

/-! ### Who stands at an index -/

theorem clientAt_register (h : Owned con owner) {peer : Peer} (hnb : con.nbPollFds < MAX_POLL_SOCKETS)
    (hfree : owner peer.fd = none) (hopen : peer.fd ≠ -1) (hsock : peer.fd ≠ con.sockfd) (hstdin : peer.fd ≠ stdinFd)
    {Y : ℕ} (hj : j ≠ con.nbPollFds)
    (hX : clientAt (con.register peer hnb) (Function.update owner peer.fd (some Y)) j = some X) :
    clientAt con owner j = some X := by
  obtain ⟨p, hp, howner⟩ := clientAt_eq_some.1 hX
  rw [peerAt_register hnb hopen, if_neg hj] at hp
  rw [Function.update_of_ne (h.fresh hfree hsock hstdin hp)] at howner
  exact clientAt_eq_some.2 ⟨p, hp, howner⟩

theorem clientAt_close {i : ℕ} (hi : i < MAX_POLL_SOCKETS)
    (hX : clientAt (con.close i hi) (Function.update owner con.poll[i].fd none) j = some X) :
    clientAt con owner j = some X := by
  obtain ⟨p, hp, howner⟩ := clientAt_eq_some.1 hX
  rw [peerAt_close] at hp
  split at hp
  · cases hp
  · rw [Function.update_apply] at howner
    split at howner
    · cases howner
    · exact clientAt_eq_some.2 ⟨p, hp, howner⟩

/-- The compression only puts sockets at closed indices before the number of open ones. -/
theorem clientAt_compressed {n : ℕ} (hc : Compressed n con con')
    (hj : peerAt con.poll j = none → openCount con.poll n ≤ j) (hX : clientAt con' owner j = some X) :
    clientAt con owner j = some X := by
  obtain ⟨p, hp, howner⟩ := clientAt_eq_some.1 hX
  have hopen : peerAt con'.poll j ≠ none := by rw [hp]; exact Option.some_ne_none p
  have hsame : peerAt con'.poll j = peerAt con.poll j := by
    -- behind `n` nothing moves, and before it only closed entries below the number of open ones are filled
    rcases Nat.lt_or_ge n j with hnj | hjn
    · obtain ⟨π, hfix, hperm⟩ := hc.perm
      rw [hperm, hfix j hnj]
    · refine hc.kept j (fun hnone => ?_) hopen
      have hlt := (hc.open_iff j hjn).1 hopen
      have hle := hj hnone
      rw [hc.nb_eq] at hlt
      omega
  exact clientAt_eq_some.2 ⟨p, hsame ▸ hp, howner⟩

/-! ### References to an index -/

/-- The index that a message names, with the connection that it belongs to. -/
def reference (x : ℕ × Message) : ℕ × ℕ := (x.2.proxyClientSocket.toNatClampNeg, x.1)

/-- The index that a client of the server has, with the connection that it comes from. -/
def sessionReference (net : Network) (i : Fin NB_MAX_CONNECTED_CLIENTS) : Option (ℕ × ℕ) :=
  (net.server.clients.get i).map fun c => (c.idPollSocketProxy.toNatClampNeg, net.registrant i)

/-- The references of the messages on the way and of the sessions of the server. -/
def references (net : Network) : List (ℕ × ℕ) :=
  net.toServer.map reference ++ net.toProxy.map reference ++
    (List.finRange NB_MAX_CONNECTED_CLIENTS).filterMap net.sessionReference

/-- No connection is put at an index to which another one refers: the next connection goes to the first index that
is not in use, and the compression fills the closed indices before the number of open sockets. -/
def Reserved (net : Network) : Action → Prop
  | .accept _ => ∀ r ∈ net.references, r.1 ≠ net.conClients.nbPollFds
  | .endTurn => net.conClients.needCompressPollArr = true → ∀ r ∈ net.references,
      peerAt net.conClients.poll r.1 = none → openCount net.conClients.poll net.current ≤ r.1
  | _ => True

instance (net : Network) (a : Action) : Decidable (Reserved net a) :=
  match a with
  | .accept _ => inferInstanceAs (Decidable (∀ r ∈ net.references, r.1 ≠ net.conClients.nbPollFds))
  | .endTurn => inferInstanceAs (Decidable (net.conClients.needCompressPollArr = true → ∀ r ∈ net.references,
      peerAt net.conClients.poll r.1 = none → openCount net.conClients.poll net.current ≤ r.1))
  | .request .. | .close _ | .serve .. | .deliver => inferInstanceAs (Decidable True)

variable {net net' : Network} {r : ℕ × ℕ}

theorem mem_references : r ∈ net.references ↔
    (∃ x ∈ net.toServer, reference x = r) ∨ (∃ x ∈ net.toProxy, reference x = r) ∨
      ∃ i, net.sessionReference i = some r := by
  simp [references, List.mem_filterMap]

/-! ### What an answer refers to -/

theorem mem_zip_filterMap {α β γ : Type*} {f : α → Option β} {g : α → Option γ}
    (h : ∀ a, (f a).isSome = (g a).isSome) {l : List α} {x : β × γ} (hx : x ∈ (l.filterMap f).zip (l.filterMap g)) :
    ∃ a, f a = some x.1 ∧ g a = some x.2 := by
  induction l with
  | nil => exact absurd hx List.not_mem_nil
  | cons a l ih =>
    have hsome := h a
    cases hf : f a with
    | none =>
      rw [hf, Option.isSome_none, eq_comm, Option.isSome_eq_false_iff, Option.isNone_iff_eq_none] at hsome
      rw [List.filterMap_cons_none hf, List.filterMap_cons_none hsome] at hx
      exact ih hx
    | some b =>
      rw [hf, Option.isSome_some, eq_comm, Option.isSome_iff_exists] at hsome
      obtain ⟨c, hg⟩ := hsome
      rw [List.filterMap_cons_some hf, List.filterMap_cons_some hg, List.zip_cons_cons, List.mem_cons] at hx
      rcases hx with rfl | hx
      · exact ⟨a, hf, hg⟩
      · exact ih hx

variable {accounts : Key → Option Account} {e : Event} {answer : Handled}

/-- The index of the message that is answered. -/
def asked (e : Event) (X : ℕ) : ℕ × ℕ := (e.msg.proxyClientSocket.toNatClampNeg, X)

private theorem reference_single {m : Message} {sock : Int} (hm : m.proxyClientSocket = e.msg.proxyClientSocket)
    {x : ℕ × Message} (hx : x ∈ (net.origins X).zip ([⟨sock, m⟩].map Sent.msg)) : reference x = asked e X := by
  rw [origins, List.map_singleton, List.zip_cons_cons, List.zip_nil_right, List.mem_singleton] at hx
  rw [hx, reference, asked, hm]

theorem origin_isSome (i : Fin NB_MAX_CONNECTED_CLIENTS) (copy : Message) {sock : Int} :
    (if (net.server.clients.get i).any Client.connected then some (net.registrant i) else none).isSome =
      ((copyFor sock copy (net.server.clients.get i)).map Sent.msg).isSome := by
  cases net.server.clients.get i with
  | none => rfl
  | some c =>
    rw [Option.any_some, copyFor]
    split <;> rfl

private theorem reference_relayed (hr : Relays e net.server answer.sent) {x : ℕ × Message}
    (hx : x ∈ (net.origins X).zip (answer.sent.map Sent.msg)) :
    reference x = asked e X ∨ ∃ i, net.sessionReference i = some (reference x) := by
  obtain ⟨ack, copies, hsent, hack, hcopies⟩ := hr
  rw [hsent, origins, List.map_cons, List.zip_cons_cons, List.mem_cons] at hx
  rcases hx with rfl | hx
  · refine Or.inl ?_
    rw [reference, asked, hack.socket]
  · split at hcopies
    · obtain ⟨copy, -, rfl⟩ := hcopies
      rw [copiesFor_eq, List.map_filterMap] at hx
      refine Or.inr ?_
      obtain ⟨i, horigin, hmsg⟩ := mem_zip_filterMap (fun i => origin_isSome i copy) hx
      obtain ⟨m, hm, hx₂⟩ := Option.map_eq_some_iff.1 hmsg
      obtain ⟨c, hc, hconn, rfl⟩ := copyFor_eq_some.1 hm
      rw [hc, Option.any_some, if_pos hconn] at horigin
      refine ⟨i, ?_⟩
      rw [sessionReference, hc, reference, ← Option.some.inj horigin, ← hx₂]
      rfl
    · rw [hcopies, List.map_nil, List.zip_nil_right] at hx
      exact absurd hx List.not_mem_nil

/-- The messages of an answer refer to the index of the request, or to one of a session. -/
theorem reference_answer {x : ℕ × Message} (hx : x ∈ (net.origins X).zip (answer.sent.map Sent.msg))
    (hs : Serves net.server accounts) (hstep : Step e net.server answer) :
    reference x = asked e X ∨ ∃ i, net.sessionReference i = some (reference x) := by
  obtain ⟨fuel, hrun⟩ := hstep
  cases onMsgReceived_branch hrun with
  | noPseudo => exact absurd hx (by rw [List.map_nil, List.zip_nil_right]; exact List.not_mem_nil)
  | connection hp hvalid htype hconn =>
    rcases onConnection_cases hs hvalid hconn with ⟨-, text, rfl⟩ | ⟨rfl, -⟩
    · exact Or.inl (reference_single (by rw [errorReply]) hx)
    · exact Or.inl (reference_single (by rw [connectedReply]) hx)
  | text hp hvalid htype htext => exact reference_relayed (onText_relays hs hvalid htext) hx
  | other => exact absurd hx (by rw [List.map_nil, List.zip_nil_right]; exact List.not_mem_nil)

theorem toNatClampNeg_index {i : ℕ} (hX : clientAt con owner i = some X) :
    (Int32.ofNat i).toNatClampNeg = i := by
  obtain ⟨p, hp, -⟩ := clientAt_eq_some.1 hX
  obtain ⟨hi, -⟩ := peerAt_eq_some hp
  have hmax : MAX_POLL_SOCKETS = 200 := rfl
  exact Int32.toNatClampNeg_ofNat_of_lt (by omega)

theorem step_serves (hs : Serves net.server accounts) (hstep : Step e net.server answer) :
    ∃ accounts', Serves answer.state accounts' := by
  rcases step_cases hs hstep with ⟨hstate, -⟩ | ⟨p, i, c, -, -, -, hacc⟩
  · exact ⟨accounts, hstate ▸ hs⟩
  · exact ⟨_, hacc.serves⟩

private theorem registers_eq {x : Exchange} {c : Client} {p : Key} (hp : cstr c.pseudo = some p) :
    registers x c = NyanChat.accepted p x := by
  rw [registers, hp]

/-- A session after an answer is one from before, or comes from the request. -/
theorem sessionReference_answered {i : Fin NB_MAX_CONNECTED_CLIENTS}
    (hr : (net.answered X e answer).sessionReference i = some r) (hs : Serves net.server accounts)
    (hstep : Step e net.server answer) :
    r = asked e X ∨ net.sessionReference i = some r := by
  obtain ⟨c, hc, rfl⟩ := Option.map_eq_some_iff.1 hr
  change answer.state.clients.get i = some c at hc
  simp only [answered, hc, Option.any_some]
  rcases step_cases hs hstep with ⟨hstate, hno, -⟩ | ⟨p, i', c', hreq, -, hsent, hacc⟩
  · refine Or.inr ?_
    rw [hstate] at hc
    obtain ⟨p, hp⟩ := (hs.clients i c).1 hc
    rw [registers_eq (hs.pseudo p i c hp).2.1, hno p, if_neg Bool.false_ne_true, sessionReference, hc]
    rfl
  · obtain ⟨q, hq⟩ := (hacc.serves.clients i c).1 hc
    rw [registers_eq (hacc.serves.pseudo q i c hq).2.1, hsent, accepted_connectedReply hreq]
    rcases eq_or_ne q p with rfl | hqp
    · rw [Function.update_self] at hq
      cases hq
      refine Or.inl ?_
      rw [decide_eq_true rfl, if_pos rfl, hacc.socket, asked]
    · refine Or.inr ?_
      rw [Function.update_of_ne hqp] at hq
      rw [decide_eq_false hqp, if_neg Bool.false_ne_true, sessionReference, (hs.clients i c).2 ⟨q, hq⟩]
      rfl

/-! ### What a step refers to -/

/-- A request refers to the index that it is read at. -/
theorem references_request {i : ℕ} {msg : Message} {rands : ℕ → ℕ}
    (hact : net.act (.request i msg rands) = some net') (hr : r ∈ net'.references) :
    r ∈ net.references ∨ r.1 < net.current ∧ clientAt net.conClients net.owner r.1 = some r.2 := by
  dsimp only [act] at hact
  split at hact
  · rename_i hi
    obtain ⟨X, hX, hact⟩ := Option.bind_eq_some_iff.1 hact
    obtain ⟨⟨msg', sent⟩, hproxy, hact⟩ := Option.bind_eq_some_iff.1 hact
    obtain rfl := Option.some.inj hact
    rcases mem_references.1 hr with ⟨x, hx, rfl⟩ | hold | hold
    · rcases List.mem_append.1 hx with hx | hx
      · exact Or.inl (mem_references.2 (Or.inl ⟨x, hx, rfl⟩))
      · obtain ⟨m, hm, rfl⟩ := List.mem_map.1 hx
        rcases onClientReceived_sent hproxy with rfl | rfl
        · exact absurd hm List.not_mem_nil
        · rw [List.mem_singleton] at hm
          subst hm
          refine Or.inr ?_
          rw [reference, throughNoise, disturbed_proxyClientSocket, toNatClampNeg_index hX]
          exact ⟨hi, hX⟩
    · exact Or.inl (mem_references.2 (Or.inr (Or.inl hold)))
    · exact Or.inl (mem_references.2 (Or.inr (Or.inr hold)))
  · cases hact

/-- The answer and the new session copy the reference of the request, the copies of a text those of the sessions. -/
theorem references_serve {fuel : ℕ} {clock : Clock} {locals : Locals} (hs : Serves net.server accounts)
    (hact : net.act (.serve fuel clock locals) = some net') (hr : r ∈ net'.references) : r ∈ net.references := by
  dsimp only [act] at hact
  split at hact
  · cases hact
  · rename_i X msg rest hserver
    obtain ⟨answer, hanswer, rfl⟩ := Option.map_eq_some_iff.1 hact
    have hstep : Step ⟨clock, locals, net.proxySock, msg⟩ net.server answer := ⟨fuel, hanswer⟩
    have hasked : asked ⟨clock, locals, net.proxySock, msg⟩ X ∈ net.references :=
      mem_references.2 (Or.inl ⟨(X, msg), by rw [hserver]; exact List.mem_cons_self, rfl⟩)
    rcases mem_references.1 hr with ⟨x, hx, rfl⟩ | ⟨x, hx, rfl⟩ | ⟨i, hi⟩
    · exact mem_references.2 (Or.inl ⟨x, by rw [hserver]; exact List.mem_cons_of_mem _ hx, rfl⟩)
    · rcases List.mem_append.1 hx with hx | hx
      · exact mem_references.2 (Or.inr (Or.inl ⟨x, hx, rfl⟩))
      · rcases reference_answer hx hs hstep with heq | hsession
        · rw [heq]
          exact hasked
        · exact mem_references.2 (Or.inr (Or.inr hsession))
    · rcases sessionReference_answered hi hs hstep with rfl | hsession
      · exact hasked
      · exact mem_references.2 (Or.inr (Or.inr ⟨i, hsession⟩))

theorem references_deliver (hact : net.act .deliver = some net') (hr : r ∈ net'.references) :
    r ∈ net.references := by
  dsimp only [act] at hact
  split at hact
  · cases hact
  · rename_i X msg rest hproxy
    obtain ⟨sent, hsent, rfl⟩ := Option.map_eq_some_iff.1 hact
    rcases mem_references.1 hr with hold | ⟨x, hx, hxr⟩ | hold
    · exact mem_references.2 (Or.inl hold)
    · exact mem_references.2 (Or.inr (Or.inl ⟨x, by rw [hproxy]; exact List.mem_cons_of_mem _ hx, hxr⟩))
    · exact mem_references.2 (Or.inr (Or.inr hold))

/-! ### Runs -/

/-- What the runs keep. -/
structure Routed (net : Network) : Prop where
  owned : Owned net.conClients net.owner
  serves : ∃ accounts, Serves net.server accounts
  honest : Honest (clientAt net.conClients net.owner) net.references
  delivered : ∀ d ∈ net.delivered, d.1 = d.2

theorem routed_start {sockfd serverFd proxySock : Int} (hsock : sockfd ≠ -1) (msg : Message) {server : ServerState}
    {codes : List UInt8 → Option (List UInt8)} (hserver : initServerState codes = some server) :
    Routed (start sockfd serverFd proxySock msg server) := by
  have hserves := initServerState_serves hserver
  refine ⟨owned_start hsock msg, ⟨_, hserves⟩, fun r hr => ?_, fun d hd => absurd hd List.not_mem_nil⟩
  rcases mem_references.1 hr with ⟨x, hx, -⟩ | ⟨x, hx, -⟩ | ⟨i, hi⟩
  · exact absurd hx List.not_mem_nil
  · exact absurd hx List.not_mem_nil
  · obtain ⟨c, hc, -⟩ := Option.map_eq_some_iff.1 hi
    obtain ⟨p, hp⟩ := (hserves.clients i c).1 hc
    cases hp

namespace Routed

theorem accept (h : Routed net) {peer : Peer} (hreserved : Reserved net (.accept peer))
    (hact : net.act (.accept peer) = some net') : Routed net' := by
  dsimp only [act] at hact
  split at hact
  · rename_i hnb
    split at hact
    · rename_i hpeer
      obtain ⟨hfree, hopen, hsock, hstdin⟩ := hpeer
      obtain rfl := Option.some.inj hact
      refine ⟨h.owned.register hnb hfree hopen hsock hstdin _, h.serves, ?_, h.delivered⟩
      exact h.honest.reassign fun r hr x hx =>
        clientAt_register h.owned hnb hfree hopen hsock hstdin (hreserved r hr) hx
    · cases hact
  · cases hact

theorem request (h : Routed net) {i : ℕ} {msg : Message} {rands : ℕ → ℕ}
    (hact : net.act (.request i msg rands) = some net') : Routed net' := by
  have hrefs : ∀ r ∈ net'.references, Issued (clientAt net.conClients net.owner) net.references r :=
    fun r hr => (references_request hact hr).imp_right And.right
  dsimp only [act] at hact
  split at hact
  · obtain ⟨X, hX, hact⟩ := Option.bind_eq_some_iff.1 hact
    obtain ⟨⟨msg', sent⟩, hproxy, hact⟩ := Option.bind_eq_some_iff.1 hact
    obtain rfl := Option.some.inj hact
    have howned := h.owned
    exact ⟨⟨howned.1, howned.2, howned.3, howned.4, howned.5⟩, h.serves, h.honest.issue hrefs, h.delivered⟩
  · cases hact

theorem close (h : Routed net) {i : ℕ} (hact : net.act (.close i) = some net') : Routed net' := by
  dsimp only [act] at hact
  split at hact
  · rename_i hi
    obtain ⟨X, hX, rfl⟩ := Option.map_eq_some_iff.1 hact
    obtain ⟨p, hp, howner⟩ := clientAt_eq_some.1 hX
    obtain ⟨hlt, hpeer, -⟩ := peerAt_eq_some hp
    have hclient : net.owner net.conClients.poll[i].fd ≠ none := by
      have hfd : net.conClients.poll[i].fd = p.fd := congrArg Peer.fd hpeer
      rw [hfd, howner]
      exact Option.some_ne_none X
    refine ⟨h.owned.close hi.2 hclient, h.serves, ?_, h.delivered⟩
    exact h.honest.reassign fun r hr x hx => clientAt_close hi.2 hx
  · cases hact

theorem endTurn (h : Routed net) (hreserved : Reserved net .endTurn) (hact : net.act .endTurn = some net') :
    Routed net' := by
  obtain ⟨con, hcon, rfl⟩ := Option.map_eq_some_iff.1 hact
  unfold compressIfNeeded at hcon
  split at hcon
  · rename_i hneed
    obtain ⟨p, hp, -⟩ := h.owned.listener
    have hzero : peerAt net.conClients.poll 0 ≠ none := by
      rw [hp]
      exact Option.some_ne_none p
    obtain ⟨con', hcon', hc⟩ := compressPollSocketArray_spec { net.conClients with needCompressPollArr := false }
      (compressPollSocketArray_lt hcon) hzero
    obtain rfl := Option.some.inj (hcon.symm.trans hcon')
    have howned : Owned { net.conClients with needCompressPollArr := false } net.owner :=
      ⟨h.owned.1, h.owned.2, h.owned.3, h.owned.4, h.owned.5⟩
    refine ⟨howned.compressed hc, h.serves, ?_, h.delivered⟩
    refine h.honest.reassign fun r hr x hx => ?_
    have hbefore : clientAt { net.conClients with needCompressPollArr := false } net.owner r.1 = some x :=
      clientAt_compressed hc (hreserved hneed r hr) hx
    exact hbefore
  · obtain rfl := Option.some.inj hcon
    exact ⟨h.owned, h.serves, h.honest, h.delivered⟩

theorem serve (h : Routed net) {fuel : ℕ} {clock : Clock} {locals : Locals}
    (hact : net.act (.serve fuel clock locals) = some net') : Routed net' := by
  obtain ⟨accounts, hserves⟩ := h.serves
  have hrefs : ∀ r ∈ net'.references, Issued (clientAt net.conClients net.owner) net.references r :=
    fun r hr => Or.inl (references_serve hserves hact hr)
  dsimp only [act] at hact
  split at hact
  · cases hact
  · rename_i X msg rest hserver
    obtain ⟨answer, hanswer, rfl⟩ := Option.map_eq_some_iff.1 hact
    have hstep : Step ⟨clock, locals, net.proxySock, msg⟩ net.server answer := ⟨fuel, hanswer⟩
    exact ⟨h.owned, step_serves hserves hstep, h.honest.issue hrefs, h.delivered⟩

theorem deliver (h : Routed net) (hact : net.act .deliver = some net') : Routed net' := by
  have hrefs : ∀ r ∈ net'.references, Issued (clientAt net.conClients net.owner) net.references r :=
    fun r hr => Or.inl (references_deliver hact hr)
  dsimp only [act] at hact
  split at hact
  · cases hact
  · rename_i X msg rest hproxy
    obtain ⟨sent, hsent, rfl⟩ := Option.map_eq_some_iff.1 hact
    refine ⟨h.owned, h.serves, h.honest.issue hrefs, fun d hd => ?_⟩
    rcases List.mem_append.1 hd with hd | hd
    · exact h.delivered d hd
    · obtain ⟨m, hm, hpair⟩ := List.mem_filterMap.1 hd
      obtain ⟨Y, hY, rfl⟩ := Option.map_eq_some_iff.1 hpair
      obtain ⟨-, -, -, hlt, hsock⟩ := onServerReceived_sent hsent hm
      rw [hsock] at hY
      -- whoever gets the message stands at the index that it names
      have hhere : clientAt net.conClients net.owner msg.proxyClientSocket.toNatClampNeg = some Y := by
        refine clientAt_eq_some.2 ⟨_, ?_, hY⟩
        rw [peerAt, dif_pos hlt, if_neg]
        intro hclosed
        rw [h.owned.nobody _ (Or.inr (Or.inl hclosed))] at hY
        cases hY
      have hrefers : reference (X, msg) ∈ net.references :=
        mem_references.2 (Or.inr (Or.inl ⟨(X, msg), by rw [hproxy]; exact List.mem_cons_self, rfl⟩))
      exact (h.honest _ hrefers Y hhere).symm

/-- A step that puts nobody at an index with references of another one. -/
theorem step (h : Routed net) {a : Action} (hreserved : Reserved net a) (hact : net.act a = some net') :
    Routed net' := by
  cases a with
  | accept peer => exact h.accept hreserved hact
  | request i msg rands => exact h.request hact
  | close i => exact h.close hact
  | endTurn => exact h.endTurn hreserved hact
  | serve fuel clock locals => exact h.serve hact
  | deliver => exact h.deliver hact

end Routed

/-- The networks that a run with allowed steps reaches. -/
inductive Reachable (allowed : Network → Action → Prop) : Network → Prop
  | start {sockfd serverFd proxySock : Int} {msg : Message} {codes : List UInt8 → Option (List UInt8)}
      {server : ServerState} : sockfd ≠ -1 → initServerState codes = some server →
      Reachable allowed (start sockfd serverFd proxySock msg server)
  | step {net net' : Network} {a : Action} : Reachable allowed net → allowed net a → net.act a = some net' →
      Reachable allowed net'

/-- When every step of a run is reserved, the messages of the server go to the connections that they are for. -/
theorem delivered_to_requester (h : Reachable Reserved net) : ∀ d ∈ net.delivered, d.1 = d.2 := by
  suffices hrouted : Routed net from hrouted.delivered
  induction h with
  | start hsock hserver => exact routed_start hsock _ hserver
  | step _ hreserved hact ih => exact ih.step hreserved hact

/-! ### Examples -/

/-- The actions in their order, as far as they are allowed. -/
private def performs (allowed : Network → Action → Prop) [∀ net a, Decidable (allowed net a)] (as : List Action)
    (net : Network) : Option Network :=
  as.foldlM (fun net a => if allowed net a then net.act a else none) net

private theorem Reachable.performs {allowed : Network → Action → Prop} [∀ net a, Decidable (allowed net a)]
    {as : List Action} (h : Reachable allowed net) (hacts : performs allowed as net = some net') :
    Reachable allowed net' := by
  induction as generalizing net with
  | nil =>
    cases hacts
    exact h
  | cons a as ih =>
    obtain ⟨next, hact, hacts⟩ := Option.bind_eq_some_iff.1 hacts
    dsimp only at hact
    split at hact
    · rename_i hallowed
      exact ih (h.step hallowed hact) hacts
    · cases hact

/-- A proxy with the listening socket 3 and the server at 4. -/
private def quiet : Network := start 3 4 5 Message.zero freshServer

private theorem quiet_reachable (allowed : Network → Action → Prop) : Reachable allowed quiet :=
  .start (by decide) freshServer_eq

/-- A client is accepted on the descriptor `fd`. -/
private def arrives (fd : Int) : Action := .accept ⟨fd, ⟨0, 0, 0⟩, 0⟩

/-- Alice, who is at the index 2, asks for a connection. -/
private def asks : Action := .request 2 (connectionRequest "alice" "secret" 0) fun _ => 0

private def serves : Action := .serve 20 ⟨0, 0⟩ ⟨Message.zero, Message.zero, Message.zero, Message.zero⟩

private theorem alice_gets_answer :
    (performs Reserved [arrives 6, .endTurn, asks, serves, .deliver] quiet).map delivered = some [(0, 0)] := by
  decide +kernel

theorem delivered_to_requester_alice :
    ∃ net, Reachable Reserved net ∧ net.delivered ≠ [] ∧ ∀ d ∈ net.delivered, d.1 = d.2 := by
  obtain ⟨net, hacts, hdelivered⟩ := Option.map_eq_some_iff.1 alice_gets_answer
  have hreached := (quiet_reachable Reserved).performs hacts
  exact ⟨net, hreached, by rw [hdelivered]; exact List.cons_ne_nil _ _, delivered_to_requester hreached⟩

private theorem bobby_gets_answer :
    (performs (fun _ _ => True) [arrives 6, .endTurn, arrives 7, asks, .close 2, .endTurn, serves, .deliver]
      quiet).map delivered = some [(0, 1)] := by
  decide +kernel

/-- Bobby arrives in the turn in which alice asks and leaves.  The compression puts him at her index, where he gets
the answer to her. -/
theorem reply_reaches_another :
    ∃ net, Reachable (fun _ _ => True) net ∧ ∃ d ∈ net.delivered, d.1 ≠ d.2 := by
  obtain ⟨net, hacts, hdelivered⟩ := Option.map_eq_some_iff.1 bobby_gets_answer
  refine ⟨net, (quiet_reachable _).performs hacts, (0, 1), ?_, by decide⟩
  rw [hdelivered]
  exact List.mem_singleton_self _

end Network

end NyanChat
