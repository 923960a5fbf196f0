import NyanChat.Routing

/-!
# What the clients hear

A text is posted when the server handles it, and it is for every connection with a session, once for each of them.
While nobody leaves, every connection hears all texts that are posted for it, in the order of the server
(`heard_in_order`): two connections with one session each hear the same texts in the same order.
-/

namespace NyanChat

namespace Network

variable {net net' : Network} {X Y : ℕ}

/-! ### Posting and hearing -/

/-- The text that a message posts to the default channel. -/
def posted (msg : Message) : Option (List UInt8) :=
  if (cstr msg.srcPseudo).any (fun p => MIN_NAME_LENGTH ≤ p.length) ∧ msg.msgType = MSG_STD_CLIENT_SERVER ∧
      msg.dstFlag = MSG_FLAG_DEFAULT_CHANNEL ∧ msg.msgLength ≠ 0 then cstr msg.msg
  else none

/-- The connections of the sessions of the server. -/
def members (net : Network) : List ℕ :=
  (List.finRange NB_MAX_CONNECTED_CLIENTS).filterMap fun i =>
    if (net.server.clients.get i).any Client.connected then some (net.registrant i) else none

/-- The text of a message for a client. -/
def copyText (msg : Message) : Option (List UInt8) :=
  if msg.msgType = MSG_SERVER_CLIENT ∧ msg.msgLength ≠ 0 then cstr msg.msg else none

/-- The text that a step posts, with the connections that it is for. -/
def posts (net : Network) : Action → List (List ℕ × List UInt8)
  | .serve .. =>
    match net.toServer with
    | [] => []
    | (_, msg) :: _ => ((posted msg).map fun text => (net.members, text)).toList
  | _ => []

/-- The texts that a step sends to clients, with their connections. -/
def hears (net : Network) : Action → List (ℕ × List UInt8)
  | .deliver =>
    match net.toProxy with
    | [] => []
    | (_, msg) :: _ => ((onServerReceived net.conClients msg).getD []).filterMap fun m =>
        (net.owner m.sock).bind fun Y => (copyText m.msg).map fun text => (Y, text)
  | _ => []

/-- The networks of the runs in which nobody leaves, with the texts posted and heard so far. -/
inductive Chats : Network → List (List ℕ × List UInt8) → List (ℕ × List UInt8) → Prop
  | start {sockfd serverFd proxySock : Int} {msg : Message} {codes : List UInt8 → Option (List UInt8)}
      {server : ServerState} : sockfd ≠ -1 → initServerState codes = some server →
      Chats (start sockfd serverFd proxySock msg server) [] []
  | step {net net' : Network} {said : List (List ℕ × List UInt8)} {heard : List (ℕ × List UInt8)} {a : Action} :
      Chats net said heard → (∀ i, a ≠ .close i) → net.act a = some net' →
      Chats net' (said ++ net.posts a) (heard ++ net.hears a)

/-- The texts that a connection hears. -/
def heardBy (Y : ℕ) (heard : List (ℕ × List UInt8)) : List (List UInt8) :=
  heard.filterMap fun x => if x.1 = Y then some x.2 else none

/-- The texts on their way to a connection. -/
def underway (Y : ℕ) (toProxy : List (ℕ × Message)) : List (List UInt8) :=
  toProxy.filterMap fun x => if x.1 = Y then copyText x.2 else none

/-- The texts posted for a connection, once for each of its sessions. -/
def postedFor (Y : ℕ) (said : List (List ℕ × List UInt8)) : List (List UInt8) :=
  said.flatMap fun x => List.replicate (x.1.count Y) x.2

/-! ### The places of the clients -/

/-- Every reference is to the index where its connection stands. -/
structure Placed (net : Network) : Prop where
  routed : Routed net
  need : net.conClients.needCompressPollArr = false
  unused : ∀ j, net.conClients.nbPollFds ≤ j → clientAt net.conClients net.owner j = none
  placed : ∀ r ∈ net.references, clientAt net.conClients net.owner r.1 = some r.2

theorem Placed.lt (h : Placed net) {r : ℕ × ℕ} (hr : r ∈ net.references) : r.1 < net.conClients.nbPollFds := by
  by_contra hge
  have hnone := h.unused r.1 (Nat.not_lt.1 hge)
  rw [h.placed r hr] at hnone
  cases hnone

theorem Placed.reserved (h : Placed net) {a : Action} : Reserved net a := by
  cases a with
  | accept peer => exact fun r hr => Nat.ne_of_lt (h.lt hr)
  | endTurn =>
    intro hneed
    rw [h.need] at hneed
    cases hneed
  | request _ _ _ => trivial
  | close _ => trivial
  | serve _ _ _ => trivial
  | deliver => trivial

theorem placed_start {sockfd serverFd proxySock : Int} (hsock : sockfd ≠ -1) (msg : Message) {server : ServerState}
    {codes : List UInt8 → Option (List UInt8)} (hserver : initServerState codes = some server) :
    Placed (start sockfd serverFd proxySock msg server) := by
  have hserves := initServerState_serves hserver
  refine ⟨routed_start hsock msg hserver, rfl, fun j _ => ?_, fun r hr => ?_⟩
  · cases hat : clientAt (start sockfd serverFd proxySock msg server).conClients
        (start sockfd serverFd proxySock msg server).owner j with
    | none => rfl
    | some X =>
      obtain ⟨p, -, howner⟩ := clientAt_eq_some.1 hat
      cases howner
  · rcases mem_references.1 hr with ⟨x, hx, -⟩ | ⟨x, hx, -⟩ | ⟨i, hi⟩
    · exact absurd hx List.not_mem_nil
    · exact absurd hx List.not_mem_nil
    · obtain ⟨c, hc, -⟩ := Option.map_eq_some_iff.1 hi
      obtain ⟨p, hp⟩ := (hserves.clients i c).1 hc
      cases hp

namespace Placed

theorem accept (h : Placed net) {peer : Peer} (hact : net.act (.accept peer) = some net') : Placed net' := by
  have hrouted := h.routed.step h.reserved hact
  dsimp only [act] at hact
  split at hact
  · rename_i hnb
    split at hact
    · rename_i hpeer
      obtain ⟨hfree, hopen, hsock, hstdin⟩ := hpeer
      obtain rfl := Option.some.inj hact
      have hat : ∀ j, peerAt (net.conClients.register peer hnb).poll j =
          if j = net.conClients.nbPollFds then some peer else peerAt net.conClients.poll j := peerAt_register hnb hopen
      -- the other indices keep their connections
      have hother : ∀ j ≠ net.conClients.nbPollFds, clientAt (net.conClients.register peer hnb)
          (Function.update net.owner peer.fd (some net.accepted)) j = clientAt net.conClients net.owner j := by
        intro j hj
        rw [clientAt, clientAt, hat, if_neg hj]
        cases hp : peerAt net.conClients.poll j with
        | none => rfl
        | some p =>
          simp only [Option.bind_some]
          rw [Function.update_of_ne (h.routed.owned.fresh hfree hsock hstdin hp)]
      refine ⟨hrouted, h.need, fun j hj => ?_, fun r hr => ?_⟩
      · have hj : net.conClients.nbPollFds + 1 ≤ j := hj
        dsimp only
        rw [hother j (by omega)]
        exact h.unused j (by omega)
      · exact (hother r.1 (Nat.ne_of_lt (h.lt hr))).trans (h.placed r hr)
    · cases hact
  · cases hact

theorem request (h : Placed net) {i : ℕ} {msg : Message} {rands : ℕ → ℕ}
    (hact : net.act (.request i msg rands) = some net') : Placed net' := by
  have hrouted := h.routed.step h.reserved hact
  have hplaced : ∀ r ∈ net'.references, clientAt net.conClients net.owner r.1 = some r.2 :=
    fun r hr => (references_request hact hr).elim (h.placed r) And.right
  dsimp only [act] at hact
  split at hact
  · obtain ⟨X, -, hact⟩ := Option.bind_eq_some_iff.1 hact
    obtain ⟨⟨msg', sent⟩, -, hact⟩ := Option.bind_eq_some_iff.1 hact
    obtain rfl := Option.some.inj hact
    exact ⟨hrouted, h.need, h.unused, hplaced⟩
  · cases hact

theorem endTurn (h : Placed net) (hact : net.act .endTurn = some net') : Placed net' := by
  have hrouted := h.routed.step h.reserved hact
  obtain ⟨con, hcon, rfl⟩ := Option.map_eq_some_iff.1 hact
  rw [compressIfNeeded, h.need, if_neg Bool.false_ne_true] at hcon
  obtain rfl := Option.some.inj hcon
  exact ⟨hrouted, h.need, h.unused, h.placed⟩

theorem serve (h : Placed net) {fuel : ℕ} {clock : Clock} {locals : Locals}
    (hact : net.act (.serve fuel clock locals) = some net') : Placed net' := by
  have hrouted := h.routed.step h.reserved hact
  obtain ⟨accounts, hserves⟩ := h.routed.serves
  have hplaced : ∀ r ∈ net'.references, clientAt net.conClients net.owner r.1 = some r.2 :=
    fun r hr => h.placed r (references_serve hserves hact hr)
  dsimp only [act] at hact
  split at hact
  · cases hact
  · obtain ⟨answer, -, rfl⟩ := Option.map_eq_some_iff.1 hact
    exact ⟨hrouted, h.need, h.unused, hplaced⟩

theorem deliver (h : Placed net) (hact : net.act .deliver = some net') : Placed net' := by
  have hrouted := h.routed.step h.reserved hact
  have hplaced : ∀ r ∈ net'.references, clientAt net.conClients net.owner r.1 = some r.2 :=
    fun r hr => h.placed r (references_deliver hact hr)
  dsimp only [act] at hact
  split at hact
  · cases hact
  · obtain ⟨sent, -, rfl⟩ := Option.map_eq_some_iff.1 hact
    exact ⟨hrouted, h.need, h.unused, hplaced⟩

theorem step (h : Placed net) {a : Action} (hstays : ∀ i, a ≠ .close i) (hact : net.act a = some net') :
    Placed net' := by
  cases a with
  | accept peer => exact h.accept hact
  | request i msg rands => exact h.request hact
  | close i => exact absurd rfl (hstays i)
  | endTurn => exact h.endTurn hact
  | serve fuel clock locals => exact h.serve hact
  | deliver => exact h.deliver hact

end Placed

/-! ### What an answer brings on its way -/

theorem underway_append (Y : ℕ) (l l' : List (ℕ × Message)) : underway Y (l ++ l') = underway Y l ++ underway Y l' :=
  List.filterMap_append

/-- Messages of other types bring no text. -/
theorem underway_eq_nil {l : List (ℕ × Message)} (h : ∀ x ∈ l, x.2.msgType ≠ MSG_SERVER_CLIENT) :
    underway Y l = [] := by
  refine List.filterMap_eq_nil_iff.2 fun x hx => ?_
  have hnone : copyText x.2 = none := if_neg fun hand => h x hx hand.1
  rw [hnone, ite_self]

/-- Copies of one text for some connections bring it to a connection as often as it is one of them. -/
theorem underway_zip {text : List UInt8} {ws : List ℕ} {ms : List Message} (hlen : ws.length = ms.length)
    (htext : ∀ m ∈ ms, copyText m = some text) : underway Y (ws.zip ms) = List.replicate (ws.count Y) text := by
  induction ws generalizing ms with
  | nil => rfl
  | cons w ws ih =>
    cases ms with
    | nil => cases hlen
    | cons m ms =>
      rw [List.forall_mem_cons] at htext
      have hrest := ih (Nat.succ.inj hlen) htext.2
      rw [List.zip_cons_cons, underway, List.filterMap_cons, List.count_cons]
      rw [underway] at hrest
      by_cases hw : w = Y
      · rw [if_pos hw, htext.1, hrest, if_pos (beq_iff_eq.2 hw), List.replicate_succ]
      · rw [if_neg hw, hrest, if_neg (mt beq_iff_eq.1 hw), Nat.add_zero]

variable {accounts : Key → Option Account} {e : Event} {answer : Handled}

theorem copyText_copyFor {sock : Int} {copy : Message} {o : Option Client} {m : Sent}
    (h : copyFor sock copy o = some m) : copyText m.msg = copyText copy := by
  obtain ⟨c, -, -, rfl⟩ := copyFor_eq_some.1 h
  rfl

/-- The copies of a text are for the members. -/
theorem underway_copies (net : Network) (Y : ℕ) (sock : Int) (copy : Message) :
    underway Y (net.members.zip ((copiesFor net.server sock copy).map Sent.msg)) =
      postedFor Y ((copyText copy).map fun text => (net.members, text)).toList := by
  rw [copiesFor_eq, List.map_filterMap]
  have htext : ∀ m ∈ (List.finRange NB_MAX_CONNECTED_CLIENTS).filterMap (fun i =>
      (copyFor sock copy (net.server.clients.get i)).map Sent.msg), copyText m = copyText copy := by
    intro m hm
    obtain ⟨i, -, hm⟩ := List.mem_filterMap.1 hm
    obtain ⟨m', hm', rfl⟩ := Option.map_eq_some_iff.1 hm
    exact copyText_copyFor hm'
  cases hcopy : copyText copy with
  | some text =>
    rw [hcopy] at htext
    refine (underway_zip ?_ htext).trans (List.append_nil _).symm
    rw [members, List.length_filterMap_eq_countP, List.length_filterMap_eq_countP]
    exact List.countP_congr fun i _ => by rw [origin_isSome]
  | none =>
    rw [hcopy] at htext
    refine List.filterMap_eq_nil_iff.2 fun x hx => ?_
    rw [htext x.2 (List.of_mem_zip hx).2, ite_self]

theorem copyText_broadcast {msg newMsg copy : Message} {p : Key} (h : broadcastCopy msg newMsg = some copy)
    (hp : cstr msg.srcPseudo = some p) (hlong : MIN_NAME_LENGTH ≤ p.length)
    (htype : msg.msgType = MSG_STD_CLIENT_SERVER) (hdst : msg.dstFlag = MSG_FLAG_DEFAULT_CHANNEL) :
    copyText copy = posted msg := by
  obtain ⟨text, htext, hcopy⟩ := broadcastCopy_text h
  have hlen : copy.msgLength = msg.msgLength := by
    obtain ⟨_, -, h⟩ := Option.bind_eq_some_iff.1 h
    obtain ⟨_, -, h⟩ := Option.bind_eq_some_iff.1 h
    rw [← Option.some.inj h]
  rw [copyText, posted, broadcastCopy_msgType h, hcopy, htext, hlen, hp, Option.any_some]
  simp [htype, hdst, hlong]

theorem posted_error (msg : Message) (error : Vector UInt8 MAX_MSG_LENGTH) :
    posted { msg with error := error } = posted msg := by
  rw [posted, posted]

/-- A message that is no text is not posted. -/
theorem posted_eq_none {msg : Message} (h : msg.msgType = MSG_STD_CLIENT_SERVER →
    msg.dstFlag = MSG_FLAG_DEFAULT_CHANNEL → ∀ p, cstr msg.srcPseudo = some p → p.length < MIN_NAME_LENGTH) :
    posted msg = none := by
  refine if_neg ?_
  rintro ⟨hany, htype, hdst, -⟩
  obtain ⟨p, hp, hlong⟩ := (Option.any_eq_true _ _).1 hany
  exact absurd (h htype hdst p hp) (Nat.not_lt.2 (of_decide_eq_true hlong))

/-- An answer of the server brings what the message posts on its way. -/
theorem underway_answer (hs : Serves net.server accounts) (hstep : Step e net.server answer) (X Y : ℕ) :
    underway Y ((net.origins X).zip (answer.sent.map Sent.msg)) =
      postedFor Y ((posted e.msg).map fun text => (net.members, text)).toList := by
  obtain ⟨fuel, hrun⟩ := hstep
  cases onMsgReceived_branch hrun with
  | noPseudo hp hshort =>
    rw [posted_eq_none fun _ _ q hq => Option.some.inj (hp.symm.trans hq) ▸ hshort]
    rfl
  | connection hp hvalid htype hconn =>
    rw [posted_eq_none fun h _ _ _ => absurd (htype.symm.trans h) (by decide)]
    refine underway_eq_nil fun x hx => ?_
    obtain ⟨m, hm, hmx⟩ := List.mem_map.1 (List.of_mem_zip hx).2
    rcases onConnection_cases hs hvalid hconn with ⟨-, text, rfl⟩ | ⟨rfl, -⟩
    · rw [← hmx, List.mem_singleton.1 hm, errorReply_msgType]
      decide
    · rw [← hmx, List.mem_singleton.1 hm, connectedReply_msgType]
      decide
  | text hp hvalid htype htext =>
    obtain ⟨ack, copies, hsent, hack, hcopies⟩ := onText_relays hs hvalid htext
    rw [hsent, List.map_cons, origins, List.zip_cons_cons]
    have hfirst : ∀ l, underway Y ((X, ack) :: l) = underway Y l := fun l => by
      rw [← List.singleton_append, underway_append, underway_eq_nil, List.nil_append]
      rintro x hx
      rw [List.mem_singleton.1 hx, hack.msgType]
      decide
    rw [hfirst]
    split at hcopies
    · rename_i hdst
      obtain ⟨copy, hcopy, rfl⟩ := hcopies
      rw [← posted_error, ← copyText_broadcast hcopy hp hvalid.1 htype hdst]
      exact underway_copies net Y e.sock copy
    · rename_i hdst
      rw [hcopies, posted_eq_none fun _ h => absurd h hdst, List.map_nil, List.zip_nil_right]
      rfl
  | other hp hvalid hno htext =>
    rw [posted_eq_none fun h => absurd h htext]
    rfl

/-! ### What the proxy hands on -/

/-- A message on its way names the entry of its connection. -/
theorem Placed.addressee (h : Placed net) {msg : Message} {rest : List (ℕ × Message)}
    (hproxy : net.toProxy = (X, msg) :: rest) :
    ∃ p, NyanChat.addressee net.conClients msg = some p ∧ net.owner p.fd = some X := by
  have hmem : (msg.proxyClientSocket.toNatClampNeg, X) ∈ net.references :=
    mem_references.2 (Or.inr (Or.inl ⟨(X, msg), by rw [hproxy]; exact List.mem_cons_self, rfl⟩))
  obtain ⟨p, hp, howner⟩ := clientAt_eq_some.1 (h.placed _ hmem)
  -- the index 0 is the one of the listening socket, which belongs to nobody
  have hindex : ¬ (msg.proxyClientSocket < 0 ∨
      net.conClients.nbPollFds ≤ msg.proxyClientSocket.toNatClampNeg) := by
    rintro (hneg | hbehind)
    · have hzero : msg.proxyClientSocket.toNatClampNeg = 0 :=
        Int.toNat_of_nonpos (Int.le_of_lt (Int32.lt_iff_toInt_lt.1 hneg))
      obtain ⟨q, hq, hqfd⟩ := h.routed.owned.listener
      rw [hzero, hq] at hp
      rw [← Option.some.inj hp, h.routed.owned.nobody q.fd (Or.inl hqfd)] at howner
      cases howner
    · exact absurd (h.lt hmem) (Nat.not_lt.2 hbehind)
  exact ⟨p, by rw [NyanChat.addressee, if_neg hindex, hp], howner⟩

/-- A text on its way reaches its connection, and no other one. -/
theorem Placed.heard (h : Placed net) {msg : Message} {rest : List (ℕ × Message)}
    (hproxy : net.toProxy = (X, msg) :: rest) {sent : List Sent}
    (hsent : onServerReceived net.conClients msg = some sent) :
    (sent.filterMap fun m => (net.owner m.sock).bind fun Y => (copyText m.msg).map fun text => (Y, text)) =
      ((copyText msg).map fun text => (X, text)).toList := by
  cases htext : copyText msg with
  | none =>
    refine List.filterMap_eq_nil_iff.2 fun m hm => ?_
    rw [(onServerReceived_sent hsent hm).1, htext]
    cases net.owner m.sock <;> rfl
  | some text =>
    obtain ⟨p, haddr, howner⟩ := h.addressee hproxy
    obtain ⟨htype, hlen⟩ : msg.msgType = MSG_SERVER_CLIENT ∧ msg.msgLength ≠ 0 := by
      by_contra hnot
      rw [copyText, if_neg hnot] at htext
      cases htext
    have hpass : PassesLength msg := fun hzero => absurd hzero hlen
    rw [onServerReceived_eq (by rw [htype]; decide) haddr, if_pos hpass] at hsent
    rw [← Option.some.inj hsent, List.filterMap_cons_some, List.filterMap_nil]
    · rfl
    · rw [howner, htext]
      rfl

/-! ### Runs -/

theorem Chats.placed {said : List (List ℕ × List UInt8)} {heard : List (ℕ × List UInt8)} (h : Chats net said heard) :
    Placed net := by
  induction h with
  | start hsock hserver => exact placed_start hsock _ hserver
  | step _ hstays hact ih => exact ih.step hstays hact

theorem postedFor_append (Y : ℕ) (l l' : List (List ℕ × List UInt8)) :
    postedFor Y (l ++ l') = postedFor Y l ++ postedFor Y l' := List.flatMap_append

theorem heardBy_append (Y : ℕ) (l l' : List (ℕ × List UInt8)) : heardBy Y (l ++ l') = heardBy Y l ++ heardBy Y l' :=
  List.filterMap_append

/-- A step moves texts from the posted ones to those on their way, and from those to the heard ones. -/
theorem Placed.step_heard (h : Placed net) {a : Action} (hact : net.act a = some net') (Y : ℕ) :
    heardBy Y (net.hears a) ++ underway Y net'.toProxy = underway Y net.toProxy ++ postedFor Y (net.posts a) := by
  cases a with
  | accept peer =>
    dsimp only [act] at hact
    split at hact
    · split at hact
      · cases hact
        exact (List.append_nil _).symm
      · cases hact
    · cases hact
  | request i msg rands =>
    dsimp only [act] at hact
    split at hact
    · obtain ⟨X, -, hact⟩ := Option.bind_eq_some_iff.1 hact
      obtain ⟨⟨msg', sent⟩, -, hact⟩ := Option.bind_eq_some_iff.1 hact
      cases hact
      exact (List.append_nil _).symm
    · cases hact
  | close i =>
    dsimp only [act] at hact
    split at hact
    · obtain ⟨X, -, rfl⟩ := Option.map_eq_some_iff.1 hact
      exact (List.append_nil _).symm
    · cases hact
  | endTurn =>
    obtain ⟨con, -, rfl⟩ := Option.map_eq_some_iff.1 hact
    exact (List.append_nil _).symm
  | serve fuel clock locals =>
    obtain ⟨accounts, hserves⟩ := h.routed.serves
    dsimp only [act] at hact
    split at hact
    · cases hact
    · rename_i X msg rest hserver
      obtain ⟨answer, hanswer, rfl⟩ := Option.map_eq_some_iff.1 hact
      have hstep : Step ⟨clock, locals, net.proxySock, msg⟩ net.server answer := ⟨fuel, hanswer⟩
      have hbrought := underway_answer hserves hstep X Y
      rw [posts, hserver]
      exact (underway_append Y _ _).trans (congrArg (underway Y net.toProxy ++ ·) hbrought)
  | deliver =>
    dsimp only [act] at hact
    split at hact
    · cases hact
    · rename_i X msg rest hproxy
      obtain ⟨sent, hsent, rfl⟩ := Option.map_eq_some_iff.1 hact
      rw [hears, hproxy]
      dsimp only
      rw [hsent, Option.getD_some, h.heard hproxy hsent]
      have hposts : postedFor Y (net.posts .deliver) = [] := rfl
      rw [hposts, List.append_nil, ← List.singleton_append, underway_append]
      congr 1
      cases htext : copyText msg with
      | none => simp [heardBy, underway, htext]
      | some text => simp [heardBy, underway, htext, List.filterMap_cons]

variable {said : List (List ℕ × List UInt8)} {heard : List (ℕ × List UInt8)}

theorem Chats.heard_underway (h : Chats net said heard) (Y : ℕ) :
    heardBy Y heard ++ underway Y net.toProxy = postedFor Y said := by
  induction h with
  | start _ _ => rfl
  | step hrun _ hact ih =>
    rw [heardBy_append, postedFor_append, List.append_assoc, hrun.placed.step_heard hact, ← List.append_assoc, ih]

/-- The proxy takes every message of the server. -/
theorem Placed.delivers (h : Placed net) {x : ℕ × Message} {rest : List (ℕ × Message)}
    (hproxy : net.toProxy = x :: rest) : ∃ net', net.act .deliver = some net' ∧ net'.toProxy = rest := by
  have hmem : reference x ∈ net.references :=
    mem_references.2 (Or.inr (Or.inl ⟨x, by rw [hproxy]; exact List.mem_cons_self, rfl⟩))
  obtain ⟨p, hp, -⟩ := clientAt_eq_some.1 (h.placed _ hmem)
  obtain ⟨hlt, -⟩ := peerAt_eq_some hp
  have hlt : x.2.proxyClientSocket.toNatClampNeg < MAX_POLL_SOCKETS := hlt
  obtain ⟨sent, hsent⟩ : ∃ sent, onServerReceived net.conClients x.2 = some sent := by
    unfold onServerReceived
    rw [dif_pos hlt]
    split_ifs <;> exact ⟨_, rfl⟩
  rw [act, hproxy]
  dsimp only
  rw [hsent]
  exact ⟨_, rfl, rfl⟩

/-- Deliveries, one after the other, and the texts that they bring. -/
inductive Delivers : Network → List (ℕ × List UInt8) → Network → Prop
  | refl (net : Network) : Delivers net [] net
  | head {net next net' : Network} {brought : List (ℕ × List UInt8)} : net.act .deliver = some next →
      Delivers next brought net' → Delivers net (net.hears .deliver ++ brought) net'

/-- The messages on their way can all be delivered, one after the other. -/
theorem Chats.deliverAll (h : Chats net said heard) :
    ∃ net' brought, Delivers net brought net' ∧ net'.toProxy = [] ∧ Chats net' said (heard ++ brought) := by
  generalize hrest : net.toProxy = rest
  induction rest generalizing net heard with
  | nil => exact ⟨net, [], .refl net, hrest, by rwa [List.append_nil]⟩
  | cons x rest ih =>
    obtain ⟨next, hact, hnext⟩ := h.placed.delivers hrest
    have hstep := h.step (fun _ => Action.noConfusion) hact
    have hposts : said ++ net.posts .deliver = said := List.append_nil said
    rw [hposts] at hstep
    obtain ⟨net', brought, hdelivers, hnone, hrun⟩ := ih hstep hnext
    exact ⟨net', _, .head hact hdelivers, hnone, by rwa [← List.append_assoc]⟩

/-- While nobody leaves, what a connection has heard and what is on its way to it are the texts that were posted for
it, in the order of the server; and from every state deliveries alone bring all of it. -/
theorem heard_in_order (h : Chats net said heard) :
    (∀ Y, heardBy Y heard ++ underway Y net.toProxy = postedFor Y said) ∧
      ∃ net' brought, Delivers net brought net' ∧ net'.toProxy = [] ∧ Chats net' said (heard ++ brought) ∧
        ∀ Y, heardBy Y (heard ++ brought) = postedFor Y said := by
  refine ⟨h.heard_underway, ?_⟩
  obtain ⟨net', brought, hdelivers, hnone, hrun⟩ := h.deliverAll
  refine ⟨net', brought, hdelivers, hnone, hrun, fun Y => ?_⟩
  have hall := hrun.heard_underway Y
  rw [hnone] at hall
  exact (List.append_nil _).symm.trans hall

/-! ### Examples -/

/-- The steps in their order, with the texts that they post and bring. -/
private def chats : List Action → Network → Option (Network × List (List ℕ × List UInt8) × List (ℕ × List UInt8))
  | [], net => some (net, [], [])
  | a :: as, net => do
    let next ← net.act a
    let (last, said, heard) ← chats as next
    return (last, net.posts a ++ said, net.hears a ++ heard)

private theorem Chats.chats {as : List Action} (h : Chats net said heard) (hstays : ∀ a ∈ as, ∀ i, a ≠ .close i)
    {said' : List (List ℕ × List UInt8)} {heard' : List (ℕ × List UInt8)}
    (hchats : chats as net = some (net', said', heard')) : Chats net' (said ++ said') (heard ++ heard') := by
  induction as generalizing net said heard said' heard' with
  | nil =>
    cases hchats
    rw [List.append_nil, List.append_nil]
    exact h
  | cons a as ih =>
    obtain ⟨next, hact, hchats⟩ := Option.bind_eq_some_iff.1 hchats
    obtain ⟨⟨last, said₁, heard₁⟩, hrest, hchats⟩ := Option.bind_eq_some_iff.1 hchats
    cases hchats
    rw [List.forall_mem_cons] at hstays
    rw [← List.append_assoc, ← List.append_assoc]
    exact ih (h.step hstays.1 hact) hstays.2 hrest

private def arrivesOn (fd : Int) : Action := .accept ⟨fd, ⟨0, 0, 0⟩, 0⟩

private def answers : Action := .serve 20 ⟨0, 0⟩ ⟨Message.zero, Message.zero, Message.zero, Message.zero⟩

/-- Alice, at the index 2, and bobby, at the index 3, get a session, and each of them sends a text. -/
private def twoTalk : List Action :=
  [arrivesOn 6, arrivesOn 7, .endTurn, .request 2 (connectionRequest "alice" "secret" 0) fun _ => 0, answers, .deliver,
    .request 3 (connectionRequest "bobby" "hidden" 0) fun _ => 0, answers, .deliver,
    .request 2 (textMessage "alice" "hi" 0) fun _ => 0, .request 3 (textMessage "bobby" "yo" 0) fun _ => 0,
    answers, answers, .deliver, .deliver, .deliver, .deliver, .deliver]

private theorem twoTalk_stay : ∀ a ∈ twoTalk, ∀ i, a ≠ .close i := by
  simp [twoTalk, arrivesOn, answers]

private theorem twoTalk_chats :
    (chats twoTalk (start 3 4 5 Message.zero freshServer)).map (fun r => (r.2.1, r.2.2, r.1.toProxy.length)) =
      some ([([0, 1], ascii "hi"), ([0, 1], ascii "yo")], [(0, ascii "hi"), (1, ascii "hi"), (0, ascii "yo")], 1) := by
  decide +kernel

theorem heard_in_order_alice : ∃ net said heard, Chats net said heard ∧ heard ≠ [] ∧
    (∀ Y, heardBy Y heard ++ underway Y net.toProxy = postedFor Y said) ∧
      ∃ net' brought, Delivers net brought net' ∧ net'.toProxy = [] ∧ Chats net' said (heard ++ brought) ∧
        ∀ Y, heardBy Y (heard ++ brought) = postedFor Y said := by
  obtain ⟨⟨net, said, heard⟩, hchats, hlogs⟩ := Option.map_eq_some_iff.1 twoTalk_chats
  have hrun : Chats net said heard :=
    Chats.chats (.start (by decide) freshServer_eq) twoTalk_stay hchats
  have hheard : heard = [(0, ascii "hi"), (1, ascii "hi"), (0, ascii "yo")] := (Prod.mk.inj (Prod.mk.inj hlogs).2).1
  refine ⟨net, said, heard, hrun, ?_, heard_in_order hrun⟩
  rw [hheard]
  exact List.cons_ne_nil _ _

end Network

end NyanChat
