import NyanChat.ClientAnswers

/-!
# The acknowledgments a client reads

`on_msg_client` compares the identifier in a message with the number of the messages sent, not with the size of the
table.  Its accesses stay in the table, and every waiting text can be acknowledged, in the states with `InRange`
(`acknowledgments_inRange_iff`).
-/

namespace NyanChat

/-- The two acknowledgments of each waiting text do what they are for. -/
def AcceptsAcks (c : ClientState) : Prop :=
  ∀ i m, c.Waits i m → m.msgType = MSG_STD_CLIENT_SERVER → ∀ msg : Message, msg.msgId = m.msgId →
    (msg.msgType = MSG_ACK_POS → onMsgClient c msg = some (c.clean i m, [])) ∧
    (msg.msgType = MSG_ACK_NEG → onMsgClient c msg =
      some ({ c with msgWaitingAck := c.msgWaitingAck.set i { m with nbRetransmission := msg.nbRetransmission } },
        [{ m with nbRetransmission := msg.nbRetransmission }]))

/-- The counter is below the size of the table where a message is acknowledged, and at most that size where a
connection request is refused, unless every `int` is an index; and no text waits in a slot without an `int` index, or
while a connection request waits. -/
structure InRange (c : ClientState) : Prop where
  requesting : c.waitingPseudoConfirmation = true →
    c.nbMsgWaitingAck ≤ c.msgWaitingAck.length ∨ 2 ^ 31 ≤ c.msgWaitingAck.length
  talking : c.waitingPseudoConfirmation = false → c.connected = true →
    c.nbMsgWaitingAck < c.msgWaitingAck.length ∨ 2 ^ 31 ≤ c.msgWaitingAck.length
  texts : ∀ i m, c.Waits i m → m.msgType = MSG_STD_CLIENT_SERVER → c.waitingPseudoConfirmation = false ∧ i < 2 ^ 31

variable {c c' : ClientState} {m msg slot : Message} {sent : List Message} {id : ℕ} {out : List Message}

/-! ### Accesses -/

/-- The bound `n` keeps the identifiers of a message in a table. -/
private theorem ids_below_iff {n size : ℕ} :
    (∀ x : Int32, 0 ≤ x → x.toNatClampNeg < n → x.toNatClampNeg < size) ↔ n ≤ size ∨ 2 ^ 31 ≤ size := by
  constructor
  · intro h
    by_contra hno
    rw [not_or, Nat.not_le, Nat.not_le] at hno
    -- the size of the table is itself an identifier
    have hsize : (Int32.ofNat size).toNatClampNeg = size := Int32.toNatClampNeg_ofNat_of_lt hno.2
    have := h (Int32.ofNat size) (by rw [Int32.le_iff_toInt_le, Int32.toInt_ofNat_of_lt hno.2]; simp) (by omega)
    omega
  · intro h x hx hlt
    have := x.toNatClampNeg_lt
    omega

private theorem onConnectionError_none_iff {p : List UInt8} (hp : cstr c.pseudo = some p) :
    onConnectionError c msg = none ↔ 0 ≤ msg.msgId ∧ msg.msgId.toNatClampNeg < c.nbMsgWaitingAck ∧
      c.msgWaitingAck.length ≤ msg.msgId.toNatClampNeg := by
  unfold onConnectionError
  rw [hp]
  simp only [Option.bind_eq_bind, Option.bind_some]
  split
  · rename_i hguard
    rw [Option.map_eq_none_iff, List.getElem?_eq_none_iff]
    exact ⟨fun h => ⟨hguard.1, hguard.2, h⟩, fun h => h.2.2⟩
  · rename_i hguard
    exact iff_of_false nofun fun h => hguard ⟨h.1, h.2.1⟩

private theorem acknowledged_none_iff :
    acknowledged c msg = none ↔ 0 ≤ msg.msgId ∧ msg.msgId.toNatClampNeg < c.nbMsgWaitingAck + 1 ∧
      c.msgWaitingAck.length ≤ msg.msgId.toNatClampNeg := by
  unfold acknowledged
  split
  · rename_i hbad
    refine iff_of_false nofun fun hgood => ?_
    rcases hbad with hneg | hlarge
    · exact absurd hgood.1 (Int32.not_le.2 hneg)
    · omega
  · rename_i hgood
    rw [not_or, Int32.not_lt] at hgood
    rw [Option.map_eq_none_iff, List.getElem?_eq_none_iff]
    exact ⟨fun h => ⟨hgood.1, by omega, h⟩, fun h => h.2.2⟩

private theorem requesting_iff {p : List UInt8} (hp : cstr c.pseudo = some p)
    (hwait : c.waitingPseudoConfirmation = true) :
    (∀ msg, onMsgClient c msg ≠ none) ↔
      c.nbMsgWaitingAck ≤ c.msgWaitingAck.length ∨ 2 ^ 31 ≤ c.msgWaitingAck.length := by
  rw [← ids_below_iff]
  constructor
  · intro h x hx hlt
    by_contra hge
    refine h { Message.zero with msgType := MSG_ERROR, msgId := x } ?_
    rw [onMsgClient, if_pos hwait, if_pos rfl, Option.map_eq_none_iff, onConnectionError_none_iff hp]
    exact ⟨hx, hlt, Nat.not_lt.1 hge⟩
  · intro h msg hnone
    unfold onMsgClient at hnone
    rw [if_pos hwait] at hnone
    split at hnone
    · rw [Option.map_eq_none_iff, onConnectionError_none_iff hp] at hnone
      exact absurd (h _ hnone.1 hnone.2.1) (Nat.not_lt.2 hnone.2.2)
    · split at hnone <;> cases hnone

private theorem talking_iff (hidle : c.waitingPseudoConfirmation = false) (hconn : c.connected = true) :
    (∀ msg, onMsgClient c msg ≠ none) ↔
      c.nbMsgWaitingAck < c.msgWaitingAck.length ∨ 2 ^ 31 ≤ c.msgWaitingAck.length := by
  have hwait : ¬ c.waitingPseudoConfirmation = true := by rw [hidle]; exact Bool.false_ne_true
  have hids := @ids_below_iff (c.nbMsgWaitingAck + 1) c.msgWaitingAck.length
  rw [Nat.add_one_le_iff] at hids
  rw [← hids]
  have hsafe {msg : Message} (h : ∀ x : Int32, 0 ≤ x → x.toNatClampNeg < c.nbMsgWaitingAck + 1 →
      x.toNatClampNeg < c.msgWaitingAck.length) : acknowledged c msg ≠ none := by
    rw [ne_eq, acknowledged_none_iff]
    rintro ⟨hpos, hlt, hge⟩
    exact absurd (h _ hpos hlt) (Nat.not_lt.2 hge)
  constructor
  · intro h x hx hlt
    by_contra hge
    refine h { Message.zero with msgType := MSG_ACK_NEG, msgId := x } ?_
    rw [onMsgClient, if_neg hwait, if_pos hconn, if_pos rfl, Option.map_eq_none_iff, acknowledged_none_iff]
    exact ⟨hx, hlt, Nat.not_lt.1 hge⟩
  · intro h msg hnone
    unfold onMsgClient at hnone
    rw [if_neg hwait, if_pos hconn] at hnone
    split at hnone
    · exact hsafe h (Option.map_eq_none_iff.1 hnone)
    · split at hnone
      · exact hsafe h (Option.map_eq_none_iff.1 hnone)
      · cases hnone

private theorem accesses_iff {p : List UInt8} (hp : cstr c.pseudo = some p) :
    (∀ msg, onMsgClient c msg ≠ none) ↔
      (c.waitingPseudoConfirmation = true →
        c.nbMsgWaitingAck ≤ c.msgWaitingAck.length ∨ 2 ^ 31 ≤ c.msgWaitingAck.length) ∧
      (c.waitingPseudoConfirmation = false → c.connected = true →
        c.nbMsgWaitingAck < c.msgWaitingAck.length ∨ 2 ^ 31 ≤ c.msgWaitingAck.length) := by
  cases hwait : c.waitingPseudoConfirmation with
  | true =>
    rw [requesting_iff hp hwait]
    exact ⟨fun h => ⟨fun _ => h, nofun⟩, fun h => h.1 rfl⟩
  | false =>
    cases hconn : c.connected with
    | true =>
      rw [talking_iff hwait hconn]
      exact ⟨fun h => ⟨nofun, fun _ _ => h⟩, fun h => h.2 rfl rfl⟩
    | false =>
      refine iff_of_true (fun msg hnone => ?_) ⟨nofun, nofun⟩
      rw [onMsgClient, if_neg (by rw [hwait]; exact Bool.false_ne_true),
        if_neg (by rw [hconn]; exact Bool.false_ne_true)] at hnone
      cases hnone

/-! ### Acknowledgments of waiting texts -/

private theorem acknowledged_text (hc : Counted c) (hid : c.Waits id m) (htype : m.msgType = MSG_STD_CLIENT_SERVER)
    (hfits : id < 2 ^ 31) (hmsgId : msg.msgId = m.msgId) : acknowledged c msg = some (some (id, m)) := by
  rcases hc.kind id m hid with ⟨-, hconn⟩ | ⟨-, hslot, -⟩
  · rw [htype] at hconn
    cases hconn
  · have hindex : msg.msgId.toNatClampNeg = id := by
      rw [hmsgId, hslot, Int32.toNatClampNeg_ofNat_of_lt hfits]
    have hpos : ¬ msg.msgId < 0 := by
      rw [hmsgId, hslot, Int32.lt_iff_toInt_lt, Int32.toInt_ofNat_of_lt hfits]
      simp
    have hbelow := hc.below id m hid
    rw [acknowledged, hindex, if_neg (by rw [not_or]; exact ⟨hpos, by omega⟩), hid.1]
    simp only [Option.map_some, if_neg hid.2]

/-- An acknowledgment that frees the slot of a text names this slot. -/
private theorem freed_slot (hid : c.Waits id m) (htype : msg.msgType = MSG_ACK_POS)
    (hrun : onMsgClient c msg = some (c.clean id m, [])) : c.waitingPseudoConfirmation = false ∧ id < 2 ^ 31 := by
  have hfreed : ∀ m', ¬ (c.clean id m).Waits id m' := fun m' hi => by
    rcases waits_set rfl hi with ⟨-, rfl⟩ | ⟨hne, -⟩
    · exact hi.2 (by rw [initEmptyMessage])
    · exact hne rfl
  generalize hc' : c.clean id m = c' at hrun hfreed
  cases onMsgClient_step hrun with
  | ignored => exact absurd hid (hfreed m)
  | accepted _ h' => rw [htype] at h'; cases h'
  | refused _ h' => rw [htype] at h'; cases h'
  | refusedClean _ h' => rw [htype] at h'; cases h'
  | @done id' slot hidle _ _ hnames =>
    rcases eq_or_ne id id' with rfl | hne
    · exact ⟨hidle, hnames.msgId.2 ▸ msg.msgId.toNatClampNeg_lt⟩
    · exact absurd (waits_set_of_ne rfl hne hid) (hfreed m)

/-- A client that waits for no answer takes the acknowledgments of a text whose slot is an `int`. -/
theorem Counted.accepts (hc : Counted c) (hidle : c.waitingPseudoConfirmation = false) (hid : c.Waits id m)
    (htype : m.msgType = MSG_STD_CLIENT_SERVER) (hfits : id < 2 ^ 31) (hmsgId : msg.msgId = m.msgId) :
    (msg.msgType = MSG_ACK_POS → onMsgClient c msg = some (c.clean id m, [])) ∧
    (msg.msgType = MSG_ACK_NEG → onMsgClient c msg =
      some ({ c with msgWaitingAck := c.msgWaitingAck.set id { m with nbRetransmission := msg.nbRetransmission } },
        [{ m with nbRetransmission := msg.nbRetransmission }])) := by
  have hack := acknowledged_text hc hid htype hfits hmsgId
  have hwait : ¬ c.waitingPseudoConfirmation = true := by rw [hidle]; exact Bool.false_ne_true
  have hconn : c.connected = true := by
    rcases hc.kind id m hid with ⟨-, hconn⟩ | ⟨-, -, hconn⟩
    · rw [htype] at hconn
      cases hconn
    · exact hconn
  refine ⟨fun hpos => ?_, fun hneg => ?_⟩
  · have hne : ¬ msg.msgType = MSG_ACK_NEG := by rw [hpos]; decide
    rw [onMsgClient, if_neg hwait, if_pos hconn, if_neg hne, if_pos hpos, hack]
    rfl
  · rw [onMsgClient, if_neg hwait, if_pos hconn, if_pos hneg, hack]
    rfl

private theorem acceptsAcks_iff (hc : Counted c) :
    AcceptsAcks c ↔ ∀ i m, c.Waits i m → m.msgType = MSG_STD_CLIENT_SERVER →
      c.waitingPseudoConfirmation = false ∧ i < 2 ^ 31 := by
  constructor
  · intro h i m hi htype
    exact freed_slot hi rfl ((h i m hi htype { Message.zero with msgType := MSG_ACK_POS, msgId := m.msgId } rfl).1 rfl)
  · intro h i m hi htype msg hmsgId
    obtain ⟨hidle, hfits⟩ := h i m hi htype
    exact hc.accepts hidle hi htype hfits hmsgId

/-! ### Runs -/

theorem clientRun_pseudo (h : ClientRun out c) : ∃ p, cstr c.pseudo = some p := by
  induction h with
  | start codes =>
    have hempty : cstr (Vector.replicate MAX_NAME_LENGTH 0) = some [] := by decide
    exact ⟨[], hempty⟩
  | typed _ _ hrun ih =>
    cases onStdinClient_step hrun with
    | quiet => exact ih
    | request hreq => exact Option.ne_none_iff_exists'.1 hreq.pseudo
    | text _ _ hfind =>
      rw [ClientState.wait, (findNextMsgId_slot hfind).pseudo_eq]
      exact ih
  | received _ hrun ih =>
    cases onMsgClient_step hrun with
    | ignored => exact ih
    | accepted => exact ih
    | refused _ _ hempty => exact ⟨[], hempty⟩
    | refusedClean _ _ hempty => exact ⟨[], hempty⟩
    | again => exact ih
    | done => exact ih

/-- The messages that a client accepts without leaving its table, and the acknowledgments of its texts. -/
theorem acknowledgments_inRange_iff (h : ClientRun out c) :
    ((∀ msg, onMsgClient c msg ≠ none) ∧ AcceptsAcks c) ↔ InRange c := by
  obtain ⟨p, hp⟩ := clientRun_pseudo h
  rw [accesses_iff hp, acceptsAcks_iff (clientRun_counted h)]
  exact ⟨fun h => ⟨h.1.1, h.1.2, h.2⟩, fun h => ⟨⟨h.requesting, h.talking⟩, h.texts⟩⟩

private theorem text_sent :
    (play (fun _ _ => True) [.enters "alice", .receives wellConnected, .enters "hello"]).map
      (fun s => (s.2.waitingPseudoConfirmation, s.2.nbMsgWaitingAck, s.2.msgWaitingAck.length)) =
        some (false, 2, 10) := by
  decide +kernel

theorem acknowledgments_inRange_hello :
    ∃ out c, ClientRun out c ∧ (∀ msg, onMsgClient c msg ≠ none) ∧ AcceptsAcks c := by
  obtain ⟨⟨a, c⟩, hplay, heq⟩ := Option.map_eq_some_iff.1 text_sent
  simp only [Prod.mk.injEq] at heq
  obtain ⟨hidle, hnb, hlength⟩ := heq
  obtain ⟨out, hrun⟩ := (play_answerRun hplay).clientRun
  have hrange : InRange c := by
    refine ⟨fun hw => ?_, fun _ _ => Or.inl (by omega), fun i m hi _ => ⟨hidle, ?_⟩⟩
    · rw [hidle] at hw
      cases hw
    · have := (clientRun_counted hrun).below i m hi
      omega
  exact ⟨out, c, hrun, (acknowledgments_inRange_iff hrun).2 hrange⟩

private theorem nine_texts :
    (play (fun _ _ => True) ([.enters "alice", .receives wellConnected] ++ List.replicate 9 (.enters "hello"))).map
      (fun s => (s.2.connected, s.2.msgWaitingAck.length, (onMsgClient s.2 (acknowledges 10)).isSome)) =
        some (true, 10, false) := by
  decide +kernel

/-- With ten messages in ten slots, an acknowledgment of the message 10 reads past the table. -/
theorem acknowledgment_past_table :
    ∃ out c, ClientRun out c ∧ c.msgWaitingAck.length = 10 ∧ onMsgClient c (acknowledges 10) = none := by
  obtain ⟨⟨a, c⟩, hplay, heq⟩ := Option.map_eq_some_iff.1 nine_texts
  simp only [Prod.mk.injEq] at heq
  obtain ⟨-, hlength, hnone⟩ := heq
  obtain ⟨out, hrun⟩ := (play_answerRun hplay).clientRun
  exact ⟨out, c, hrun, hlength, Option.not_isSome_iff_eq_none.1 (by rw [hnone]; exact Bool.false_ne_true)⟩

end NyanChat
