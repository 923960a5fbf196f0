import NyanChat.ServerRuns
import NyanChat.ErrorCorrection

/-!
# The broadcast of texts

The server copies a text to every connected client, whoever sent it (`relayed_legitimately_iff`), and sends all
copies to the proxy that the text came from, each with the index that the client had when it connected
(`copies_exact_iff`).
-/

namespace NyanChat

variable {s : ServerState} {accounts : Key → Option Account} {hist : List Exchange} {e : Event} {r : Handled}

/-! ### What the server does with a text -/

theorem broadcastCopy_msgType {msg newMsg copy : Message} (h : broadcastCopy msg newMsg = some copy) :
    copy.msgType = MSG_SERVER_CLIENT := by
  obtain ⟨text, -, h⟩ := Option.bind_eq_some_iff.1 h
  obtain ⟨pseudo, -, h⟩ := Option.bind_eq_some_iff.1 h
  rw [← Option.some.inj h]

theorem broadcastCopy_text {msg newMsg copy : Message} (h : broadcastCopy msg newMsg = some copy) :
    ∃ text, cstr msg.msg = some text ∧ cstr copy.msg = some text := by
  obtain ⟨text, htext, h⟩ := Option.bind_eq_some_iff.1 h
  obtain ⟨pseudo, -, h⟩ := Option.bind_eq_some_iff.1 h
  obtain ⟨hzero, hlen, -⟩ := cstr_spec htext
  refine ⟨text, htext, ?_⟩
  rw [← Option.some.inj h]
  exact cstr_overlay _ hzero hlen

/-- The copies for the clients of a table. -/
def copiesFor (s : ServerState) (sock : Int) (copy : Message) : List Sent :=
  s.clients.toList.filterMap (copyFor sock copy)

theorem copyFor_eq_some {sock : Int} {copy : Message} {o : Option Client} {m : Sent} :
    copyFor sock copy o = some m ↔
      ∃ c, o = some c ∧ c.connected = true ∧ m = ⟨sock, { copy with proxyClientSocket := c.idPollSocketProxy }⟩ := by
  constructor
  · intro h
    cases o with
    | none => cases h
    | some c =>
      rw [copyFor] at h
      split at h
      · rename_i hconn
        exact ⟨c, rfl, hconn, (Option.some.inj h).symm⟩
      · cases h
  · rintro ⟨c, rfl, hconn, rfl⟩
    rw [copyFor, if_pos hconn]

theorem copiesFor_eq (s : ServerState) (sock : Int) (copy : Message) :
    copiesFor s sock copy =
      (List.finRange NB_MAX_CONNECTED_CLIENTS).filterMap fun i => copyFor sock copy (s.clients.get i) := by
  have htable : s.clients.toList = (List.finRange NB_MAX_CONNECTED_CLIENTS).map fun i => s.clients.get i := by
    apply List.ext_getElem
    · simp
    · intro i h₁ h₂
      simp [Vector.get]
  rw [copiesFor, htable, List.filterMap_map]
  rfl

/-- A positive acknowledgment of a message. -/
structure Acknowledges (ack msg : Message) : Prop where
  msgType : ack.msgType = MSG_ACK_POS
  msgId : ack.msgId = msg.msgId
  socket : ack.proxyClientSocket = msg.proxyClientSocket

/-- The messages for a text: an acknowledgment, and the copies when it is for the default channel. -/
def Relays (e : Event) (s : ServerState) (sent : List Sent) : Prop :=
  ∃ ack copies, sent = ⟨e.sock, ack⟩ :: copies ∧ Acknowledges ack e.msg ∧
    (if e.msg.dstFlag = MSG_FLAG_DEFAULT_CHANNEL then
      ∃ copy, broadcastCopy { e.msg with error := Loop.written (fun _ => 0) e.msg.error e.msg.msgLength.toNat }
        e.locals.newMsg = some copy ∧ copies = copiesFor s e.sock copy
    else copies = [])

private theorem acknowledges_written (msg ack : Message) (error : Vector UInt8 MAX_MSG_LENGTH) :
    Acknowledges (genPositiveAckFromMsg { msg with error := error } ack) msg := by
  constructor <;> rw [genPositiveAckFromMsg]

theorem onText_relays (h : Serves s accounts) {p : Key} (hp : ValidPseudo p) {fuel : ℕ}
    (hrun : onText zeroSyndromes fuel e.locals e.sock p e.msg s = some r) : Relays e s r.sent := by
  unfold onText at hrun
  obtain ⟨found, hfind, hrun⟩ := Option.bind_eq_some_iff.1 hrun
  obtain rfl := Option.some.inj (hfind.symm.trans (h.findClient_eq hp.validKey fuel))
  obtain ⟨fixed, hfixed, hrun⟩ := Option.bind_eq_some_iff.1 hrun
  obtain rfl := codeCorrectError_zero hfixed
  dsimp only at hrun
  rw [if_pos (Or.inl rfl)] at hrun
  split at hrun
  · rename_i hdst
    obtain ⟨copies, hcopies, hrun⟩ := Option.bind_eq_some_iff.1 hrun
    obtain ⟨copy, hcopy, rfl⟩ := Option.map_eq_some_iff.1 hcopies
    cases hrun
    exact ⟨_, _, rfl, acknowledges_written .., by rw [if_pos hdst]; exact ⟨copy, hcopy, rfl⟩⟩
  · rename_i hdst
    cases hrun
    exact ⟨_, _, rfl, acknowledges_written .., by rw [if_neg hdst]⟩

/-- A text of a sender without pseudo is dropped, every other one is relayed. -/
theorem step_text (h : Serves s accounts) (htype : e.msg.msgType = MSG_STD_CLIENT_SERVER) (hstep : Step e s r) :
    ∃ p, cstr e.msg.srcPseudo = some p ∧
      if p.length < MIN_NAME_LENGTH then r.sent = [] else Relays e s r.sent := by
  obtain ⟨fuel, hrun⟩ := hstep
  have hlong : ∀ {p : Key}, ValidPseudo p → ¬ p.length < MIN_NAME_LENGTH := fun hp => Nat.not_lt.2 hp.1
  cases onMsgReceived_branch hrun with
  | noPseudo hp hshort => exact ⟨_, hp, by rw [if_pos hshort]⟩
  | connection hp hvalid hconn _ =>
    rw [htype] at hconn
    exact absurd hconn (by decide)
  | text hp hvalid _ htext => exact ⟨_, hp, by rw [if_neg (hlong hvalid)]; exact onText_relays h hvalid htext⟩
  | other hp hvalid _ hno => exact absurd htype hno

/-! ### Whose texts are relayed -/

/-- The message was copied to some client. -/
def Relayed (r : Handled) : Prop := ∃ m ∈ r.sent, m.msg.msgType = MSG_SERVER_CLIENT

/-- The pseudo of the message is connected, through the index that the message comes from. -/
def FromSession (s : ServerState) (msg : Message) : Prop :=
  ∃ p c, cstr msg.srcPseudo = some p ∧ session s p = some c ∧ c.connected = true ∧
    c.idPollSocketProxy = msg.proxyClientSocket

/-- Some client is connected. -/
def SomeoneConnected (s : ServerState) : Prop :=
  ∃ (i : Fin NB_MAX_CONNECTED_CLIENTS) (c : Client), s.clients.get i = some c ∧ c.connected = true

theorem mem_copiesFor {sock : Int} {copy : Message} {m : Sent} :
    m ∈ copiesFor s sock copy ↔ ∃ (i : Fin NB_MAX_CONNECTED_CLIENTS) (c : Client), s.clients.get i = some c ∧
      c.connected = true ∧ m = ⟨sock, { copy with proxyClientSocket := c.idPollSocketProxy }⟩ := by
  rw [copiesFor_eq, List.mem_filterMap]
  constructor
  · rintro ⟨i, -, hm⟩
    exact ⟨i, copyFor_eq_some.1 hm⟩
  · rintro ⟨i, hm⟩
    exact ⟨i, List.mem_finRange i, copyFor_eq_some.2 hm⟩

private theorem relayed_iff (h : Relays e s r.sent) :
    Relayed r ↔ e.msg.dstFlag = MSG_FLAG_DEFAULT_CHANNEL ∧ SomeoneConnected s := by
  obtain ⟨ack, copies, hsent, hack, hcopies⟩ := h
  rw [Relayed, hsent]
  have hnot : ack.msgType ≠ MSG_SERVER_CLIENT := by rw [hack.msgType]; decide
  split at hcopies
  · rename_i hdst
    obtain ⟨copy, hcopy, rfl⟩ := hcopies
    have htype := broadcastCopy_msgType hcopy
    constructor
    · rintro ⟨m, hm, hmtype⟩
      rcases List.mem_cons.1 hm with rfl | hm
      · exact absurd hmtype hnot
      · obtain ⟨i, c, hc, hconn, -⟩ := mem_copiesFor.1 hm
        exact ⟨hdst, i, c, hc, hconn⟩
    · rintro ⟨-, i, c, hc, hconn⟩
      exact ⟨_, List.mem_cons_of_mem _ (mem_copiesFor.2 ⟨i, c, hc, hconn, rfl⟩), htype⟩
  · rename_i hdst
    subst hcopies
    refine ⟨fun ⟨m, hm, hmtype⟩ => ?_, fun hd => absurd hd.1 hdst⟩
    rw [List.mem_singleton] at hm
    subst hm
    exact absurd hmtype hnot

/-- The sender of a relayed text is the session of its pseudo exactly when the text is of that session, or cannot be
relayed at all. -/
theorem relayed_legitimately_iff (hrun : Run hist s) (htype : e.msg.msgType = MSG_STD_CLIENT_SERVER)
    (hstep : Step e s r) :
    (Relayed r → FromSession s e.msg) ↔
      FromSession s e.msg ∨ (∃ p, cstr e.msg.srcPseudo = some p ∧ p.length < MIN_NAME_LENGTH) ∨
        e.msg.dstFlag ≠ MSG_FLAG_DEFAULT_CHANNEL ∨ ¬ SomeoneConnected s := by
  obtain ⟨accounts, ht⟩ := run_tracked hrun
  obtain ⟨p, hp, hsent⟩ := step_text ht.serves htype hstep
  split at hsent
  · rename_i hshort
    refine ⟨fun _ => Or.inr (Or.inl ⟨p, hp, hshort⟩), fun _ ⟨m, hm, _⟩ => ?_⟩
    rw [hsent] at hm
    cases hm
  · rename_i hlong
    have hrelayed := relayed_iff hsent
    constructor
    · intro h
      by_cases hdst : e.msg.dstFlag = MSG_FLAG_DEFAULT_CHANNEL
      · by_cases hconn : SomeoneConnected s
        · exact Or.inl (h (hrelayed.2 ⟨hdst, hconn⟩))
        · exact Or.inr (Or.inr (Or.inr hconn))
      · exact Or.inr (Or.inr (Or.inl hdst))
    · rintro (h | ⟨q, hq, hshort⟩ | hdst | hconn) hr
      · exact h
      · obtain rfl := Option.some.inj (hp.symm.trans hq)
        exact absurd hshort hlong
      · exact absurd (hrelayed.1 hr).1 hdst
      · exact absurd (hrelayed.1 hr).2 hconn

/-- The server answers alice's request; then what it does with a text, and the client it has for the pseudo. -/
private def afterAlice (e : Event) (pseudo : String) : Option (List Int32 × Option (Bool × Int32)) :=
  (handle (eventOn 5 (connectionRequest "alice" "secret" 2)) freshServer).bind fun r₁ =>
    (handle e r₁.state).map fun r₂ =>
      (r₂.sent.map fun m => m.msg.msgType,
        (session r₁.state (ascii pseudo)).map fun c => (c.connected, c.idPollSocketProxy))

private theorem afterAlice_spec {e : Event} {pseudo : String} {a : List Int32 × Option (Bool × Int32)}
    (h : afterAlice e pseudo = some a) :
    ∃ hist s r, Run hist s ∧ Step e s r ∧ (MSG_SERVER_CLIENT ∈ a.1 → Relayed r) ∧
      (session s (ascii pseudo)).map (fun c => (c.connected, c.idPollSocketProxy)) = a.2 := by
  obtain ⟨r₁, h₁, h⟩ := Option.bind_eq_some_iff.1 h
  obtain ⟨r₂, h₂, rfl⟩ := Option.map_eq_some_iff.1 h
  refine ⟨_, r₁.state, r₂, Run.step run_freshServer ⟨20, h₁⟩, ⟨20, h₂⟩, fun hmem => ?_, rfl⟩
  obtain ⟨m, hm, htype⟩ := List.mem_map.1 hmem
  exact ⟨m, hm, htype⟩

private theorem alice_speaks :
    afterAlice (eventOn 5 (textMessage "alice" "hello" 2)) "alice" =
      some ([MSG_ACK_POS, MSG_SERVER_CLIENT], some (true, 2)) := by
  decide +kernel

private theorem mallory_speaks :
    afterAlice (eventOn 5 (textMessage "mallory" "hello" 3)) "mallory" =
      some ([MSG_ACK_POS, MSG_SERVER_CLIENT], none) := by
  decide +kernel

theorem relayed_legitimately_iff_alice :
    ∃ hist s r, Run hist s ∧ Step (eventOn 5 (textMessage "alice" "hello" 2)) s r ∧ Relayed r ∧
      (Relayed r → FromSession s (textMessage "alice" "hello" 2)) := by
  obtain ⟨hist, s, r, hrun, hstep, hrelayed, hsession⟩ := afterAlice_spec alice_speaks
  obtain ⟨c, hc, hpair⟩ := Option.map_eq_some_iff.1 hsession
  obtain ⟨hconn, hsocket⟩ := Prod.mk.inj hpair
  have hpseudo : cstr (textMessage "alice" "hello" 2).srcPseudo = some (ascii "alice") := by decide +kernel
  exact ⟨hist, s, r, hrun, hstep, hrelayed (by decide),
    (relayed_legitimately_iff hrun rfl hstep).2 (Or.inl ⟨_, c, hpseudo, hc, hconn, hsocket⟩)⟩

/-- A text with a pseudo that nobody registered is copied to alice. -/
theorem unknown_pseudo_relayed :
    ∃ hist s e r, Run hist s ∧ e.msg.msgType = MSG_STD_CLIENT_SERVER ∧ Step e s r ∧ Relayed r ∧
      ¬ FromSession s e.msg := by
  obtain ⟨hist, s, r, hrun, hstep, hrelayed, hsession⟩ := afterAlice_spec mallory_speaks
  refine ⟨hist, s, _, r, hrun, rfl, hstep, hrelayed (by decide), ?_⟩
  rintro ⟨p, c, hp, hc, -⟩
  have hpseudo : cstr (textMessage "mallory" "hello" 3).srcPseudo = some (ascii "mallory") := by decide +kernel
  obtain rfl := Option.some.inj (hpseudo.symm.trans hp)
  rw [hc] at hsession
  cases hsession

/-! ### Where the copies go -/

/-- The socket and the index that the copies of a text are addressed to. -/
def copies (r : Handled) : List (Int × Int32) :=
  (r.sent.filter fun m => m.msg.msgType = MSG_SERVER_CLIENT).map fun m => (m.sock, m.msg.proxyClientSocket)

/-- The proxy connection and the index through which a pseudo connected last. -/
def registration (p : Key) (hist : List Exchange) : Option (Int × Int32) :=
  (lastAccepted p hist).map fun e => (e.sock, e.msg.proxyClientSocket)

/-- Each registered address gets one copy, and no other address gets any. -/
def CopiesExact (hist : List Exchange) (r : Handled) : Prop :=
  (copies r).Nodup ∧ ∀ a, a ∈ copies r ↔ ∃ p, registration p hist = some a

private theorem nodup_filterMap_iff {α β : Type*} {f : α → Option β} {l : List α} (hl : l.Nodup) :
    (l.filterMap f).Nodup ↔ ∀ a ∈ l, ∀ b ∈ l, ∀ c, f a = some c → f b = some c → a = b := by
  rw [List.Nodup, List.pairwise_filterMap]
  constructor
  · intro h a ha b hb c hac hbc
    by_contra hab
    have hsymm : Std.Symm fun a a' => ∀ b, f a = some b → ∀ b', f a' = some b' → b ≠ b' :=
      ⟨fun a a' h b hb b' hb' heq => h b' hb' b hb heq.symm⟩
    exact h.forall ha hb hab c hac c hbc rfl
  · intro h
    refine hl.imp_of_mem fun {a b} ha hb hab c hc d hd hcd => ?_
    subst hcd
    exact hab (h a ha b hb c hc hd)

/-- The address of the copy for one index of the table. -/
def addressAt (s : ServerState) (sock : Int) (i : Fin NB_MAX_CONNECTED_CLIENTS) : Option (Int × Int32) :=
  (s.clients.get i).map fun c => (sock, c.idPollSocketProxy)

private theorem copies_eq (h : Serves s accounts) (hr : Relays e s r.sent)
    (hdst : e.msg.dstFlag = MSG_FLAG_DEFAULT_CHANNEL) :
    copies r = (List.finRange NB_MAX_CONNECTED_CLIENTS).filterMap (addressAt s e.sock) := by
  obtain ⟨ack, sent, hsent, hack, hcopies⟩ := hr
  rw [if_pos hdst] at hcopies
  obtain ⟨copy, hcopy, rfl⟩ := hcopies
  have htype := broadcastCopy_msgType hcopy
  have hall : ∀ m ∈ copiesFor s e.sock copy, decide (m.msg.msgType = MSG_SERVER_CLIENT) = true := by
    intro m hm
    obtain ⟨i, c, -, -, rfl⟩ := mem_copiesFor.1 hm
    exact decide_eq_true htype
  have hnot : ¬ decide (ack.msgType = MSG_SERVER_CLIENT) = true := by
    rw [decide_eq_true_iff, hack.msgType]
    decide
  have hfilter : r.sent.filter (fun m => m.msg.msgType = MSG_SERVER_CLIENT) = copiesFor s e.sock copy := by
    rw [hsent, List.filter_cons, if_neg hnot, List.filter_eq_self.2 hall]
  rw [copies, hfilter, copiesFor_eq, List.map_filterMap]
  refine List.filterMap_congr fun i _ => ?_
  rw [addressAt]
  cases hc : s.clients.get i with
  | none => rfl
  | some c =>
    obtain ⟨p, hp⟩ := (h.clients i c).1 hc
    rw [copyFor, if_pos (h.pseudo p i c hp).2.2]
    rfl

/-- A pseudo is registered with an index exactly when the client of its account has it. -/
private theorem Tracked.registration_iff (h : Tracked hist s accounts) {p : Key} {i : Fin NB_MAX_CONNECTED_CLIENTS}
    {c : Client} (hp : accounts p = some (i, c)) :
    ∃ sock, registration p hist = some (sock, c.idPollSocketProxy) := by
  obtain ⟨last, hlast, -, hsocket⟩ := h.session p i c hp
  exact ⟨last.sock, by rw [registration, hlast, hsocket]; rfl⟩

private theorem Tracked.account_of_registration (h : Tracked hist s accounts) {p : Key} {a : Int × Int32}
    (ha : registration p hist = some a) : ∃ i c, accounts p = some (i, c) ∧ c.idPollSocketProxy = a.2 := by
  obtain ⟨last, hlast, rfl⟩ := Option.map_eq_some_iff.1 ha
  cases hacc : accounts p with
  | none =>
    rw [h.absent p hacc] at hlast
    cases hlast
  | some b =>
    obtain ⟨i, c⟩ := b
    obtain ⟨last', hlast', -, hsocket⟩ := h.session p i c hacc
    obtain rfl := Option.some.inj (hlast.symm.trans hlast')
    exact ⟨i, c, rfl, hsocket⟩

theorem addressAt_account (h : Serves s accounts) {q : Key} {i : Fin NB_MAX_CONNECTED_CLIENTS} {c : Client}
    (hq : accounts q = some (i, c)) (sock : Int) : addressAt s sock i = some (sock, c.idPollSocketProxy) := by
  rw [addressAt, (h.clients i c).2 ⟨q, hq⟩]
  rfl

/-- The copies go to the accounts. -/
theorem mem_copies_iff (h : Serves s accounts) (hrelays : Relays e s r.sent)
    (hdst : e.msg.dstFlag = MSG_FLAG_DEFAULT_CHANNEL) (a : Int × Int32) :
    a ∈ copies r ↔ ∃ q i c, accounts q = some (i, c) ∧ a = (e.sock, c.idPollSocketProxy) := by
  rw [copies_eq h hrelays hdst, List.mem_filterMap]
  constructor
  · rintro ⟨i, -, ha⟩
    obtain ⟨c, hc, rfl⟩ := Option.map_eq_some_iff.1 ha
    obtain ⟨q, hq⟩ := (h.clients i c).1 hc
    exact ⟨q, i, c, hq, rfl⟩
  · rintro ⟨q, i, c, hq, rfl⟩
    exact ⟨i, List.mem_finRange i, addressAt_account h hq e.sock⟩

/-- The copies of a text go to the registered addresses, one to each, exactly when all of them are addresses of the
proxy that the text came from and different pseudos have different ones. -/
theorem copies_exact_iff (hrun : Run hist s) (htype : e.msg.msgType = MSG_STD_CLIENT_SERVER)
    (hdst : e.msg.dstFlag = MSG_FLAG_DEFAULT_CHANNEL) {p : Key} (hp : cstr e.msg.srcPseudo = some p)
    (hlong : MIN_NAME_LENGTH ≤ p.length) (hstep : Step e s r) :
    CopiesExact hist r ↔ (∀ q a, registration q hist = some a → a.1 = e.sock) ∧
      ∀ q q' a, registration q hist = some a → registration q' hist = some a → q = q' := by
  obtain ⟨accounts, ht⟩ := run_tracked hrun
  have hs := ht.serves
  have hrelays : Relays e s r.sent := by
    obtain ⟨q, hq, hsent⟩ := step_text hs htype hstep
    obtain rfl := Option.some.inj (hp.symm.trans hq)
    rwa [if_neg (Nat.not_lt.2 hlong)] at hsent
  have hcopies := copies_eq hs hrelays hdst
  have hat : ∀ {q i c}, accounts q = some (i, c) → addressAt s e.sock i = some (e.sock, c.idPollSocketProxy) :=
    fun hq => addressAt_account hs hq e.sock
  have hmem := mem_copies_iff hs hrelays hdst
  -- two sessions with one address are two indices of the table with one copy each
  rw [CopiesExact, hcopies, nodup_filterMap_iff (List.nodup_finRange _), ← hcopies]
  constructor
  · rintro ⟨hnodup, hset⟩
    have hsock : ∀ q a, registration q hist = some a → a.1 = e.sock := by
      intro q a ha
      obtain ⟨q', i, c, -, rfl⟩ := (hmem a).1 ((hset a).2 ⟨q, ha⟩)
      rfl
    refine ⟨hsock, fun q q' a ha ha' => ?_⟩
    obtain ⟨i, c, hc, hidx⟩ := ht.account_of_registration ha
    obtain ⟨i', c', hc', hidx'⟩ := ht.account_of_registration ha'
    have hsame := hnodup i (List.mem_finRange i) i' (List.mem_finRange i') _ (hat hc) (by rw [hat hc', hidx, hidx'])
    subst hsame
    exact hs.unique hc hc'
  · rintro ⟨hsock, hdistinct⟩
    have hreg : ∀ {q i c}, accounts q = some (i, c) → registration q hist = some (e.sock, c.idPollSocketProxy) := by
      intro q i c hq
      obtain ⟨sock, hq'⟩ := ht.registration_iff hq
      rw [hq', ← hsock q _ hq']
    refine ⟨fun i _ i' _ a ha ha' => ?_, fun a => ?_⟩
    · obtain ⟨c, hc, rfl⟩ := Option.map_eq_some_iff.1 ha
      obtain ⟨c', hc', heq⟩ := Option.map_eq_some_iff.1 ha'
      obtain ⟨q, hq⟩ := (hs.clients i c).1 hc
      obtain ⟨q', hq'⟩ := (hs.clients i' c').1 hc'
      have hreg' := hreg hq'
      rw [heq] at hreg'
      obtain rfl := hdistinct q q' _ (hreg hq) hreg'
      rw [hq] at hq'
      cases hq'
      rfl
    · rw [hmem]
      constructor
      · rintro ⟨q, i, c, hq, rfl⟩
        exact ⟨q, hreg hq⟩
      · rintro ⟨q, hq⟩
        obtain ⟨i, c, hc, hidx⟩ := ht.account_of_registration hq
        exact ⟨q, i, c, hc, Prod.ext (hsock q a hq) hidx.symm⟩

private theorem registration_single {e : Event} {sent : List Sent} {p q : Key} {a : Int × Int32}
    (hp : cstr e.msg.srcPseudo = some p) (h : registration q [(e, sent)] = some a) :
    q = p ∧ a = (e.sock, e.msg.proxyClientSocket) := by
  rw [registration, lastAccepted_cons] at h
  split at h
  · rename_i hacc
    cases h
    exact ⟨Option.some.inj ((accepted_iff.1 hacc).1.2.symm.trans hp), rfl⟩
  · cases h

theorem copies_exact_iff_alice :
    ∃ hist s r, Run hist s ∧ Step (eventOn 5 (textMessage "alice" "hello" 2)) s r ∧ CopiesExact hist r := by
  obtain ⟨r₁, h₁, h⟩ := Option.bind_eq_some_iff.1 alice_speaks
  obtain ⟨r₂, h₂, -⟩ := Option.map_eq_some_iff.1 h
  have hrun := Run.step (e := eventOn 5 (connectionRequest "alice" "secret" 2)) run_freshServer
    ⟨20, h₁⟩
  have hpseudo : cstr (connectionRequest "alice" "secret" 2).srcPseudo = some (ascii "alice") := by decide +kernel
  have hsender : cstr (textMessage "alice" "hello" 2).srcPseudo = some (ascii "alice") := by decide +kernel
  refine ⟨_, r₁.state, r₂, hrun, ⟨20, h₂⟩, ?_⟩
  refine (copies_exact_iff hrun rfl rfl hsender (by decide) ⟨20, h₂⟩).2 ⟨fun q a ha => ?_, fun q q' a ha ha' => ?_⟩
  · rw [(registration_single hpseudo ha).2]
    rfl
  · rw [(registration_single hpseudo ha).1, (registration_single hpseudo ha').1]

/-- Alice leaves and bobby gets her index of the poll table: he receives every text twice. -/
private theorem bobby_takes_index :
    ((handle (eventOn 5 (connectionRequest "alice" "secret" 2)) freshServer).bind fun r₁ =>
      (handle (eventOn 5 (connectionRequest "bobby" "secret" 2)) r₁.state).bind fun r₂ =>
      (handle (eventOn 5 (textMessage "bobby" "hello" 2)) r₂.state).map copies) = some [(5, 2), (5, 2)] := by
  decide +kernel

/-- Two pseudos with one index: the address gets two copies. -/
theorem shared_index_copied_twice :
    ∃ hist s e r, Run hist s ∧ e.msg.msgType = MSG_STD_CLIENT_SERVER ∧ e.msg.dstFlag = MSG_FLAG_DEFAULT_CHANNEL ∧
      (∃ p, cstr e.msg.srcPseudo = some p ∧ MIN_NAME_LENGTH ≤ p.length) ∧ Step e s r ∧ ¬ CopiesExact hist r := by
  obtain ⟨r₁, h₁, h⟩ := Option.bind_eq_some_iff.1 bobby_takes_index
  obtain ⟨r₂, h₂, h⟩ := Option.bind_eq_some_iff.1 h
  obtain ⟨r₃, h₃, hcopies⟩ := Option.map_eq_some_iff.1 h
  have hrun := Run.step (e := eventOn 5 (connectionRequest "bobby" "secret" 2))
    (Run.step (e := eventOn 5 (connectionRequest "alice" "secret" 2)) run_freshServer ⟨20, h₁⟩)
    ⟨20, h₂⟩
  have hsender : cstr (textMessage "bobby" "hello" 2).srcPseudo = some (ascii "bobby") := by decide +kernel
  refine ⟨_, r₂.state, eventOn 5 (textMessage "bobby" "hello" 2), r₃, hrun, rfl, rfl, ⟨_, hsender, by decide⟩,
    ⟨20, h₃⟩, ?_⟩
  rintro ⟨hnodup, -⟩
  rw [hcopies] at hnodup
  exact absurd hnodup (by decide)

end NyanChat
