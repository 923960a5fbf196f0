import NyanChat.Broadcast
import NyanChat.ClientRuns
import NyanChat.Proxy

/-!
# What the proxy lets through

The proxy decides by the type and the length of a message.  Of the messages that clients and server send in the
states they reach, it sends on every connection request, every text with a length and every answer to them
(`forwarded_once`).  A text of length zero is dropped, and so is an error reply, whose length is never set
(`empty_text_dropped`).
-/

namespace NyanChat

/-- A text, or a copy of one, of length zero. -/
def EmptyText (msg : Message) : Prop :=
  msg.msgLength = 0 ∧ (msg.msgType = MSG_STD_CLIENT_SERVER ∨ msg.msgType = MSG_SERVER_CLIENT)

/-- It stops at the test of the length. -/
theorem EmptyText.not_passesLength {m : Message} (h : EmptyText m) : ¬ PassesLength m := by
  intro hpass
  have hmem : m.msgType ∈ emptyTypes := hpass h.1
  rcases h.2 with htype | htype
  · rw [htype] at hmem
    exact absurd hmem (by decide)
  · rw [htype] at hmem
    exact absurd hmem (by decide)

theorem Outgoing.passesLength {m : Message} (h : Outgoing m) (hempty : ¬ EmptyText m) : PassesLength m := by
  intro hzero
  rcases h.2 with ⟨-, hlen⟩ | ⟨htype, -⟩
  · exact absurd hzero hlen
  · exact absurd ⟨hzero, Or.inl htype⟩ hempty

theorem Outgoing.msgType_ne_null {m : Message} (h : Outgoing m) : m.msgType ≠ MSG_NULL := by
  rcases h.2 with ⟨htype, -⟩ | ⟨htype, -⟩ <;> rw [htype] <;> decide

/-! ### What the server sends -/

variable {s : ServerState} {accounts : Key → Option Account} {hist : List Exchange} {e : Event} {r : Handled}
  {m : Sent}

/-- The messages of the server: acknowledgments, connection replies, error replies and copies of a text. -/
inductive Reply (e : Event) : Message → Prop
  | ack {m : Message} : m.msgType = MSG_ACK_POS → Reply e m
  | connected {m : Message} : m.msgType = MSG_WELL_CONNECTED → Reply e m
  | error {m : Message} : m.msgType = MSG_ERROR → m.msgLength = 0 → Reply e m
  | copy {m : Message} : m.msgType = MSG_SERVER_CLIENT → m.msgLength = e.msg.msgLength → Reply e m

private theorem errorReply_msgLength (text : List UInt8) (msg errorMsg : Message) :
    (errorReply text msg errorMsg).msgLength = 0 := by
  rw [errorReply, initEmptyMessage]

private theorem broadcastCopy_msgLength {msg newMsg copy : Message} (h : broadcastCopy msg newMsg = some copy) :
    copy.msgLength = msg.msgLength := by
  obtain ⟨text, -, h⟩ := Option.bind_eq_some_iff.1 h
  obtain ⟨pseudo, -, h⟩ := Option.bind_eq_some_iff.1 h
  rw [← Option.some.inj h]

private theorem Relays.reply (h : Relays e s r.sent) (hm : m ∈ r.sent) : Reply e m.msg := by
  obtain ⟨ack, copies, hsent, hack, hcopies⟩ := h
  rw [hsent, List.mem_cons] at hm
  rcases hm with rfl | hm
  · exact .ack hack.msgType
  · split at hcopies
    · obtain ⟨copy, hcopy, rfl⟩ := hcopies
      obtain ⟨i, c, -, -, rfl⟩ := mem_copiesFor.1 hm
      have htype := broadcastCopy_msgType hcopy
      have hlen := broadcastCopy_msgLength hcopy
      refine .copy ?_ ?_
      · exact htype
      · exact hlen
    · rw [hcopies] at hm
      exact absurd hm List.not_mem_nil

theorem step_reply (h : Serves s accounts) (hstep : Step e s r) (hm : m ∈ r.sent) : Reply e m.msg := by
  obtain ⟨fuel, hrun⟩ := hstep
  cases onMsgReceived_branch hrun with
  | noPseudo hp hshort => exact absurd hm List.not_mem_nil
  | connection hp hvalid htype hconn =>
    rcases onConnection_cases h hvalid hconn with ⟨-, text, hsent⟩ | ⟨hsent, -⟩
    · rw [hsent] at hm
      rw [List.mem_singleton.1 hm]
      exact .error (errorReply_msgType _ _ _) (errorReply_msgLength _ _ _)
    · rw [hsent] at hm
      rw [List.mem_singleton.1 hm]
      exact .connected (connectedReply_msgType _ _)
  | text hp hvalid htype htext => exact (onText_relays h hvalid htext).reply hm
  | other hp hvalid hconn htext => exact absurd hm List.not_mem_nil

theorem Reply.passesLength {m : Message} (h : Reply e m) (herror : m.msgType ≠ MSG_ERROR) (hempty : ¬ EmptyText m) :
    PassesLength m := by
  intro hzero
  cases h with
  | ack htype => rw [htype]; decide
  | connected htype => rw [htype]; decide
  | error htype _ => exact absurd htype herror
  | copy htype _ => exact absurd ⟨hzero, Or.inr htype⟩ hempty

theorem Reply.msgType_ne_null {m : Message} (h : Reply e m) : m.msgType ≠ MSG_NULL := by
  cases h with
  | ack htype => rw [htype]; decide
  | connected htype => rw [htype]; decide
  | error htype _ => rw [htype]; decide
  | copy htype _ => rw [htype]; decide

/-! ### What the proxy does with it -/

theorem onClientReceived_sends {out : List Message} {c : ClientState} {m : Message} (hrun : ClientRun out c)
    (hm : m ∈ out) (rands : ℕ → ℕ) (serverFd : Int) (idPoll : Int32) :
    onClientReceived rands serverFd { m with proxyClientSocket := idPoll } =
      some (throughNoise rands { m with proxyClientSocket := idPoll },
        if PassesLength m then [⟨serverFd, throughNoise rands { m with proxyClientSocket := idPoll }⟩] else []) := by
  have hout := clientRun_outgoing hrun m hm
  have hnull : { m with proxyClientSocket := idPoll }.msgType ≠ MSG_NULL := hout.msgType_ne_null
  have hlen : { m with proxyClientSocket := idPoll }.msgLength.toNat ≤ MAX_MSG_LENGTH := hout.1
  exact onClientReceived_eq hnull hlen rands serverFd

theorem onServerReceived_sends (hrun : Run hist s) (hstep : Step e s r) (hm : m ∈ r.sent) {conClients : TcpConnection}
    {peer : Peer} (hpeer : addressee conClients m.msg = some peer) :
    Reply e m.msg ∧
      onServerReceived conClients m.msg = some (if PassesLength m.msg then [⟨peer.fd, m.msg⟩] else []) := by
  obtain ⟨accounts, htracked⟩ := run_tracked hrun
  have hreply := step_reply htracked.serves hstep hm
  exact ⟨hreply, onServerReceived_eq hreply.msgType_ne_null hpeer⟩

/-- A message that a client sends is sent once to the server, unless it is an empty text, which is not sent; one that
the server sends for a live client is sent once to that client, unless it is an error reply, or an empty text, which is
not sent. -/
theorem forwarded_once :
    (∀ out c m, ClientRun out c → m ∈ out → ¬ EmptyText m → ∀ rands serverFd idPoll,
      let msg := { m with proxyClientSocket := idPoll }
      onClientReceived rands serverFd msg =
        some (throughNoise rands msg, [⟨serverFd, throughNoise rands msg⟩])) ∧
    (∀ hist s e r m, Run hist s → Step e s r → m ∈ r.sent → m.msg.msgType ≠ MSG_ERROR → ¬ EmptyText m.msg →
      ∀ conClients peer, addressee conClients m.msg = some peer →
        onServerReceived conClients m.msg = some [⟨peer.fd, m.msg⟩]) ∧
    (∀ out c m, ClientRun out c → m ∈ out → EmptyText m → ∀ rands serverFd idPoll,
      let msg := { m with proxyClientSocket := idPoll }
      onClientReceived rands serverFd msg = some (throughNoise rands msg, [])) ∧
    ∀ hist s e r m, Run hist s → Step e s r → m ∈ r.sent → EmptyText m.msg →
      ∀ conClients peer, addressee conClients m.msg = some peer → onServerReceived conClients m.msg = some [] := by
  refine ⟨fun out c m hrun hm hempty rands serverFd idPoll => ?_,
    fun hist s e r m hrun hstep hm herror hempty conClients peer hpeer => ?_,
    fun out c m hrun hm hempty rands serverFd idPoll => ?_,
    fun hist s e r m hrun hstep hm hempty conClients peer hpeer => ?_⟩
  · have hsent := onClientReceived_sends hrun hm rands serverFd idPoll
    rw [if_pos ((clientRun_outgoing hrun m hm).passesLength hempty)] at hsent
    exact hsent
  · obtain ⟨hreply, hsent⟩ := onServerReceived_sends hrun hstep hm hpeer
    rw [hsent, if_pos (hreply.passesLength herror hempty)]
  · have hsent := onClientReceived_sends hrun hm rands serverFd idPoll
    rw [if_neg hempty.not_passesLength] at hsent
    exact hsent
  · obtain ⟨-, hsent⟩ := onServerReceived_sends hrun hstep hm hpeer
    rw [hsent, if_neg hempty.not_passesLength]

/-- The clients' side of a proxy with the listener `3` and one client, on the socket `6`. -/
def proxyOfOne : TcpConnection :=
  (tcpConnectionServerInit .proxyClientsSide 3 Message.zero).register ⟨6, ⟨2, 5000, 0⟩, 16⟩ (by decide)

private theorem addressee_proxyOfOne {msg : Message} (h : msg.proxyClientSocket = 2) :
    addressee proxyOfOne msg = some ⟨6, ⟨2, 5000, 0⟩, 16⟩ := by
  rw [addressee, h]
  rfl

private theorem alice_asks :
    (enter "alice" (initClientState fun _ => none)).map (fun r => r.2.map fun m => (m.msgType, m.msgLength)) =
      some [(MSG_CONNECTION_CLIENT, 256)] := by
  decide +kernel

private theorem alice_is_welcomed :
    (handle (eventOn 5 (connectionRequest "alice" "secret" 2)) freshServer).map
      (fun r => r.sent.map fun m => (m.msg.msgType, m.msg.proxyClientSocket)) = some [(MSG_WELL_CONNECTED, 2)] := by
  decide +kernel

/-- The request of alice reaches the server, and the answer reaches her. -/
theorem forwarded_once_alice :
    (∃ out c m, ClientRun out c ∧ m ∈ out ∧ ∀ rands,
      onClientReceived rands 4 { m with proxyClientSocket := 2 } =
        some (throughNoise rands { m with proxyClientSocket := 2 },
          [⟨4, throughNoise rands { m with proxyClientSocket := 2 }⟩])) ∧
    ∃ hist s e r m, Run hist s ∧ Step e s r ∧ m ∈ r.sent ∧
      onServerReceived proxyOfOne m.msg = some [⟨6, m.msg⟩] := by
  constructor
  · obtain ⟨⟨c, sent⟩, henter, hsent⟩ := Option.map_eq_some_iff.1 alice_asks
    obtain ⟨m, rfl, hm⟩ := List.map_eq_singleton_iff.1 hsent
    have hrun : ClientRun ([] ++ [m]) c := (ClientRun.start _).typed (.input (by decide)) henter
    have hnot : ¬ EmptyText m := fun h => absurd (h.1.symm.trans (Prod.mk.inj hm).2) (by decide)
    exact ⟨_, c, m, hrun, List.mem_singleton_self m,
      fun rands => forwarded_once.1 _ c m hrun (List.mem_singleton_self m) hnot rands 4 2⟩
  · obtain ⟨r, hr, hsent⟩ := Option.map_eq_some_iff.1 alice_is_welcomed
    obtain ⟨m, hm, heq⟩ := List.map_eq_singleton_iff.1 hsent
    obtain ⟨htype, hsocket⟩ := Prod.mk.inj heq
    have hmem : m ∈ r.sent := by rw [hm]; exact List.mem_singleton_self m
    have herror : m.msg.msgType ≠ MSG_ERROR := by rw [htype]; decide
    have hnot : ¬ EmptyText m.msg := by
      rintro ⟨-, hstd | hcopy⟩
      · exact absurd (htype.symm.trans hstd) (by decide)
      · exact absurd (htype.symm.trans hcopy) (by decide)
    have hstep : Step (eventOn 5 (connectionRequest "alice" "secret" 2)) freshServer r := ⟨20, hr⟩
    exact ⟨_, _, _, r, m, run_freshServer, hstep, hmem,
      forwarded_once.2.1 _ _ _ r m run_freshServer hstep hmem herror hnot proxyOfOne _ (addressee_proxyOfOne hsocket)⟩

private theorem alice_says_nothing :
    ((joined "alice").bind (enter "")).map (fun r => r.2.map fun m => (m.msgType, m.msgLength)) =
      some [(MSG_STD_CLIENT_SERVER, 0)] := by
  decide +kernel

private theorem alice_is_refused :
    ((handle (eventOn 5 (connectionRequest "alice" "secret" 2)) freshServer).bind fun r =>
      (handle (eventOn 5 (connectionRequest "alice" "other" 2)) r.state).map
        fun r => r.sent.map fun m => (m.msg.msgType, m.msg.msgLength, m.msg.proxyClientSocket)) =
      some [(MSG_ERROR, 0, 2)] := by
  decide +kernel

/-- An empty text is dropped on its way to the server, and the refusal of a request on its way back. -/
theorem empty_text_dropped :
    (∃ out c m, ClientRun out c ∧ m ∈ out ∧ m.msgType = MSG_STD_CLIENT_SERVER ∧ ∀ rands serverFd idPoll,
      onClientReceived rands serverFd { m with proxyClientSocket := idPoll } =
        some (throughNoise rands { m with proxyClientSocket := idPoll }, [])) ∧
    ∃ hist s e r m, Run hist s ∧ Step e s r ∧ e.msg.msgType = MSG_CONNECTION_CLIENT ∧ m ∈ r.sent ∧
      addressee proxyOfOne m.msg = some ⟨6, ⟨2, 5000, 0⟩, 16⟩ ∧ onServerReceived proxyOfOne m.msg = some [] := by
  constructor
  · obtain ⟨⟨c, sent⟩, hbind, hsent⟩ := Option.map_eq_some_iff.1 alice_says_nothing
    obtain ⟨c₀, hjoined, henter⟩ := Option.bind_eq_some_iff.1 hbind
    obtain ⟨out, hout⟩ := joined_clientRun (by decide) hjoined
    obtain ⟨m, rfl, hm⟩ := List.map_eq_singleton_iff.1 hsent
    obtain ⟨htype, hlen⟩ := Prod.mk.inj hm
    refine ⟨_, c, m, hout.typed (.input (by decide)) henter, List.mem_append_right _ (List.mem_singleton_self m),
      htype, fun rands serverFd idPoll => ?_⟩
    have hnull : { m with proxyClientSocket := idPoll }.msgType ≠ MSG_NULL := by rw [htype]; decide
    have hle : { m with proxyClientSocket := idPoll }.msgLength.toNat ≤ MAX_MSG_LENGTH := by rw [hlen]; decide
    have hdropped : ¬ PassesLength { m with proxyClientSocket := idPoll } := fun hpass => by
      have hmem : m.msgType ∈ emptyTypes := hpass hlen
      rw [htype] at hmem
      exact absurd hmem (by decide)
    rw [onClientReceived_eq hnull hle, if_neg hdropped]
  · obtain ⟨r₁, h₁, h⟩ := Option.bind_eq_some_iff.1 alice_is_refused
    obtain ⟨r₂, h₂, hsent⟩ := Option.map_eq_some_iff.1 h
    obtain ⟨m, hm, heq⟩ := List.map_eq_singleton_iff.1 hsent
    obtain ⟨htype, heq⟩ := Prod.mk.inj heq
    obtain ⟨hlen, hsocket⟩ := Prod.mk.inj heq
    have hpeer := addressee_proxyOfOne hsocket
    have hnull : m.msg.msgType ≠ MSG_NULL := by rw [htype]; decide
    have hdropped : ¬ PassesLength m.msg := fun hpass => by
      have hmem := hpass hlen
      rw [htype] at hmem
      exact absurd hmem (by decide)
    refine ⟨_, r₁.state, eventOn 5 (connectionRequest "alice" "other" 2), r₂, m,
      Run.step (e := eventOn 5 (connectionRequest "alice" "secret" 2)) run_freshServer ⟨20, h₁⟩,
      ⟨20, h₂⟩, rfl, by rw [hm]; exact List.mem_singleton_self m, hpeer, ?_⟩
    rw [onServerReceived_eq hnull hpeer, if_neg hdropped]

end NyanChat
