import NyanChat.Acknowledgments
import NyanChat.TextHandling

/-!
# Conversations

A connected client and the server, with a channel in each direction, from the moment of the connection.  The texts are
numbered as they are typed, and the messages on their way carry the number of their text.  Each text is on its way
once, as a message or as its acknowledgment, until it is accepted (`Stage`).
-/

namespace NyanChat

/-- What happened to a text so far. -/
structure TextRecord where
  /-- The message that was sent first. -/
  first : Message
  /-- The messages that were sent later. -/
  again : List Message
  /-- The copies of each broadcast. -/
  broadcasts : List (List Sent)
  /-- The types of the acknowledgments that the client received. -/
  answers : List Int32

/-- The text was sent again `n` times, each time the same but for the number of retransmissions. -/
structure TextRecord.Tried (t : TextRecord) (n : ℕ) : Prop where
  length : t.again.length = n
  same : ∀ m ∈ t.again, ∃ nb, m = { t.first with nbRetransmission := nb }
  limit : t.first.nbRetransmission = 0 → n ≤ 6

structure Conversation where
  client : ClientState
  /-- The index of the client in the poll table of the proxy. -/
  index : Int32
  server : ServerState
  /-- The messages to the server, with the numbers of their texts. -/
  up : List (ℕ × Message)
  /-- The messages to the client, with the numbers of the texts that they acknowledge. -/
  down : List (Option ℕ × Message)
  count : ℕ
  text : ℕ → TextRecord
  /-- The last text that was written into a slot. -/
  holder : ℕ → ℕ

/-- A message as the proxy forwards it to the server. -/
def Message.via (m : Message) (index : Int32) : Message := { m with proxyClientSocket := index }

namespace Conversation

/-- A new text is sent from the slot `id`. -/
def starts (d : Conversation) (id : ℕ) : List Message → Conversation
  | [] => d
  | m :: _ => { d with
      up := d.up ++ [(d.count, m.via d.index)]
      count := d.count + 1
      text := Function.update d.text d.count ⟨m, [], [], []⟩
      holder := Function.update d.holder id d.count }

/-- The text in a slot is sent again. -/
def repeats (d : Conversation) : List Message → Conversation
  | [] => d
  | m :: _ =>
    let k := d.holder m.msgId.toNatClampNeg
    { d with
      up := d.up ++ [(k, m.via d.index)]
      text := Function.update d.text k { d.text k with again := (d.text k).again ++ [m] } }

def answered (d : Conversation) (msg : Message) : Option ℕ → Conversation
  | none => d
  | some k => { d with
      text := Function.update d.text k { d.text k with answers := (d.text k).answers ++ [msg.msgType] } }

/-- What the client gets of the messages for its text `k`. -/
def replies (d : Conversation) (k : ℕ) (sent : List Sent) : List (Option ℕ × Message) :=
  (repliesTo d.index sent).map fun m => (if isAck m then some k else none, m)

/-- A step: the client reads a line or a message, or the server handles a message of this client or of another one,
with any outcome of the correction.  The slot of a text is an `int`. -/
inductive Next (d : Conversation) : Conversation → Prop
  | typed {rands : ℕ → ℕ} {memory : ℕ → Message} {buffer : List UInt8} {len : ℕ} {c : ClientState}
      {sent : List Message} : Typed buffer len → sentSlot memory d.client < 2 ^ 31 →
      onStdinClient rands memory d.client buffer len = some (c, sent) →
      Next d (starts { d with client := c } (sentSlot memory d.client) sent)
  | received {tag : Option ℕ} {msg : Message} {rest : List (Option ℕ × Message)} {c : ClientState}
      {sent : List Message} : d.down = (tag, msg) :: rest → onMsgClient d.client msg = some (c, sent) →
      Next d ((answered { d with client := c, down := rest } msg tag).repeats sent)
  | served {correct : Correction} {clock : Clock} {locals : Locals} {sock : Int} {k : ℕ} {m : Message}
      {rest : List (ℕ × Message)} {r : Handled} {relayed : Option (List Sent)} : KeepsHeader correct →
      d.up = (k, m) :: rest → Serve correct ⟨clock, locals, sock, m⟩ d.server r relayed →
      Next d { d with
        server := r.state
        up := rest
        down := d.down ++ d.replies k r.sent
        text := Function.update d.text k
          { d.text k with broadcasts := (d.text k).broadcasts ++ relayed.toList } }
  | others {correct : Correction} {e : Event} {r : Handled} {relayed : Option (List Sent)} : KeepsHeader correct →
      e.msg.proxyClientSocket ≠ d.index → Serve correct e d.server r relayed →
      Next d { d with server := r.state, down := d.down ++ (repliesTo d.index r.sent).map fun m => (none, m) }

/-- The client has just read that the server has accepted it. -/
inductive Begins : Conversation → Prop
  | intro {out : List Message} {c c' : ClientState} {msg : Message} {hist : List Exchange} {s : ServerState} {p : Key}
      {record : ℕ → TextRecord} {holder : ℕ → ℕ} {index : Int32} : ClientRun out c → c.connected = false →
      onMsgClient c msg = some (c', []) → c'.connected = true → cstr c.pseudo = some p → Run hist s →
      lastAccepted p hist ≠ none → Begins ⟨c', index, s, [], [], 0, record, holder⟩

variable {d d' : Conversation} {k i n : ℕ} {m msg : Message}

/-! ### Where a text is -/

/-- The messages of a text to the server. -/
def ups (d : Conversation) (k : ℕ) : List Message := (d.up.filter fun x => x.1 = k).map Prod.snd

/-- The acknowledgments of a text to the client. -/
def downs (d : Conversation) (k : ℕ) : List Message := (d.down.filter fun x => x.1 = some k).map Prod.snd

/-- The text `k` waits as the message `m` in the slot `i`. -/
structure Holds (d : Conversation) (k i : ℕ) (m : Message) : Prop where
  holder : d.holder i = k
  waits : d.client.Waits i m
  fits : i < 2 ^ 31
  msgId : m.msgId = Int32.ofNat i
  msgType : m.msgType = MSG_STD_CLIENT_SERVER
  dstFlag : m.dstFlag = MSG_FLAG_DEFAULT_CHANNEL
  srcPseudo : ∃ p, cstr m.srcPseudo = some p ∧ MIN_NAME_LENGTH ≤ p.length

/-- A text is on its way to the server, or its acknowledgment is on its way back, or it was accepted. -/
inductive Stage (d : Conversation) (k : ℕ) : Prop
  | sent {i n : ℕ} {m : Message} : d.Holds k i m → (d.text k).Tried n →
      (∃ nb, m = { (d.text k).first with nbRetransmission := nb }) →
      ((d.text k).first.nbRetransmission = 0 → m.nbRetransmission = Int32.ofNat n) → d.ups k = [m.via d.index] →
      d.downs k = [] → (d.text k).answers = List.replicate n MSG_ACK_NEG → (d.text k).broadcasts = [] → Stage d k
  | rejected {i n : ℕ} {m ack : Message} : d.Holds k i m → (d.text k).Tried n →
      (∃ nb, m = { (d.text k).first with nbRetransmission := nb }) →
      ((d.text k).first.nbRetransmission = 0 → n < 6 ∧ ack.nbRetransmission = Int32.ofNat (n + 1)) → d.ups k = [] →
      d.downs k = [ack] → ack.msgType = MSG_ACK_NEG → ack.msgId = m.msgId →
      (d.text k).answers = List.replicate n MSG_ACK_NEG → (d.text k).broadcasts = [] → Stage d k
  | accepted {i n : ℕ} {m ack : Message} {copies : List Sent} : d.Holds k i m → (d.text k).Tried n →
      (∃ nb, m = { (d.text k).first with nbRetransmission := nb }) → d.ups k = [] → d.downs k = [ack] →
      ack.msgType = MSG_ACK_POS → ack.msgId = m.msgId → (d.text k).answers = List.replicate n MSG_ACK_NEG →
      (d.text k).broadcasts = [copies] → Stage d k
  | done {n : ℕ} {copies : List Sent} : (d.text k).Tried n → d.ups k = [] → d.downs k = [] →
      (d.text k).answers = List.replicate n MSG_ACK_NEG ++ [MSG_ACK_POS] → (d.text k).broadcasts = [copies] →
      Stage d k

structure Orderly (d : Conversation) : Prop where
  serves : ∃ accounts, Serves d.server accounts
  counted : Counted d.client
  idle : d.client.waitingPseudoConfirmation = false
  connected : d.client.connected = true
  pseudo : ∃ p, cstr d.client.pseudo = some p ∧ MIN_NAME_LENGTH ≤ p.length
  dest : d.client.typeCurrentDest = MSG_FLAG_DEFAULT_CHANNEL
  up_lt : ∀ x ∈ d.up, x.1 < d.count
  down_lt : ∀ x ∈ d.down, ∀ k, x.1 = some k → k < d.count
  quiet : ∀ x ∈ d.down, x.1 = none → ¬ isAck x.2
  stage : ∀ k < d.count, Stage d k

/-- A step that keeps the slot of a text. -/
theorem Holds.keep (h : d.Holds k i m) (hholder : d'.holder i = d.holder i) (hwaits : d'.client.Waits i m) :
    d'.Holds k i m :=
  ⟨hholder.trans h.holder, hwaits, h.fits, h.msgId, h.msgType, h.dstFlag, h.srcPseudo⟩

/-- A text that a step does not concern. -/
theorem Stage.keep (h : Stage d k) (hholds : ∀ i m, d.Holds k i m → d'.Holds k i m) (hindex : d'.index = d.index)
    (hups : d'.ups k = d.ups k) (hdowns : d'.downs k = d.downs k) (htext : d'.text k = d.text k) : Stage d' k := by
  cases h with
  | sent hm htried hsame hnb hu hd hans hbroad =>
    rw [← htext] at htried hsame hnb hans hbroad
    exact .sent (hholds _ _ hm) htried hsame hnb (by rw [hups, hindex, hu]) (hdowns.trans hd) hans hbroad
  | rejected hm htried hsame hnb hu hd htype hid hans hbroad =>
    rw [← htext] at htried hsame hnb hans hbroad
    exact .rejected (hholds _ _ hm) htried hsame hnb (hups.trans hu) (hdowns.trans hd) htype hid hans hbroad
  | accepted hm htried hsame hu hd htype hid hans hbroad =>
    rw [← htext] at htried hsame hans hbroad
    exact .accepted (hholds _ _ hm) htried hsame (hups.trans hu) (hdowns.trans hd) htype hid hans hbroad
  | done htried hu hd hans hbroad =>
    rw [← htext] at htried hans hbroad
    exact .done htried (hups.trans hu) (hdowns.trans hd) hans hbroad

theorem ups_append {j : ℕ} (h : d'.up = d.up ++ [(j, m)]) : d'.ups j = d.ups j ++ [m] := by
  rw [ups, h, List.filter_append, List.map_append, List.filter_singleton, decide_eq_true rfl]
  rfl

theorem ups_append_of_ne {j : ℕ} (h : d'.up = d.up ++ [(j, m)]) (hne : k ≠ j) : d'.ups k = d.ups k := by
  rw [ups, h, List.filter_append, List.map_append, List.filter_singleton, decide_eq_false hne.symm]
  exact List.append_nil _

theorem downs_append {new : List (Option ℕ × Message)} (h : d'.down = d.down ++ new) (k : ℕ) :
    d'.downs k = d.downs k ++ (new.filter fun x => x.1 = some k).map Prod.snd := by
  rw [downs, h, List.filter_append, List.map_append, downs]

theorem ups_eq_nil (h : ∀ x ∈ d.up, x.1 < d.count) : d.ups d.count = [] := by
  rw [ups, List.map_eq_nil_iff, List.filter_eq_nil_iff]
  intro x hx hcount
  have := h x hx
  rw [of_decide_eq_true hcount] at this
  exact Nat.lt_irrefl _ this

theorem downs_eq_nil (h : ∀ x ∈ d.down, ∀ k, x.1 = some k → k < d.count) : d.downs d.count = [] := by
  rw [downs, List.map_eq_nil_iff, List.filter_eq_nil_iff]
  intro x hx hcount
  exact Nat.lt_irrefl _ (h x hx _ (of_decide_eq_true hcount))

/-! ### Typed texts -/

private theorem allocates_dest {memory : ℕ → Message} {c c₁ : ClientState} (h : Allocates memory c c₁ i) :
    c₁.typeCurrentDest = c.typeCurrentDest := by
  cases h <;> rfl

/-- A text is written into a free slot. -/
theorem Orderly.text (h : d.Orderly) {memory : ℕ → Message} {c₁ : ClientState} {slot : Message} {buffer : List UInt8}
    {len : ℕ} (halloc : Allocates memory d.client c₁ i) (hm : textSlot c₁ i slot buffer len = some m)
    (hcounted : Counted (c₁.wait i m)) (hfits : i < 2 ^ 31) :
    Orderly (starts { d with client := c₁.wait i m } i [m]) := by
  obtain ⟨p, hp, hlen⟩ := h.pseudo
  obtain ⟨hwait, hconn⟩ := halloc.waiting_eq
  obtain ⟨free, hfree, -⟩ := halloc.getElem?
  obtain ⟨text, -, htext⟩ := textSlot_spec hm
  have hdest := (allocates_dest halloc).trans h.dest
  have hwaits : (c₁.wait i m).Waits i m :=
    waits_set_self rfl (List.getElem?_eq_some_iff.1 hfree).1 (by rw [htext.msgType]; decide)
  have hmsgId : m.msgId = Int32.ofNat i := by
    rcases hcounted.kind i m hwaits with ⟨-, hrequest⟩ | ⟨-, hmsgId, -⟩
    · rw [htext.msgType] at hrequest
      cases hrequest
    · exact hmsgId
  have hpseudo : cstr c₁.pseudo = some p := by
    rw [halloc.pseudo_eq]
    exact hp
  refine ⟨h.serves, hcounted, hwait.trans h.idle, hconn.trans h.connected, ⟨p, hpseudo, hlen⟩, hdest, fun x hx => ?_,
    fun x hx k hk => Nat.lt_succ_of_lt (h.down_lt x hx k hk), h.quiet, fun k hk => ?_⟩
  · rcases List.mem_append.1 hx with hold | hnew
    · exact Nat.lt_succ_of_lt (h.up_lt x hold)
    · rw [List.mem_singleton.1 hnew]
      exact Nat.lt_succ_self _
  · have hup : (starts { d with client := c₁.wait i m } i [m]).up = d.up ++ [(d.count, m.via d.index)] := rfl
    rcases Nat.lt_succ_iff_lt_or_eq.1 hk with hlt | rfl
    · have hne := Nat.ne_of_lt hlt
      refine (h.stage k hlt).keep (fun j m' hj => ?_) rfl (ups_append_of_ne hup hne) rfl (Function.update_of_ne hne ..)
      -- the new text gets a slot of its own
      exact hj.keep (Function.update_of_ne (halloc.ne_of_waits hj.waits) ..) (halloc.waits_wait hj.waits m)
    · have hrecord : (starts { d with client := c₁.wait i m } i [m]).text d.count = ⟨m, [], [], []⟩ :=
        Function.update_self ..
      have hsrc : ∃ p, cstr m.srcPseudo = some p ∧ MIN_NAME_LENGTH ≤ p.length :=
        ⟨p, htext.srcPseudo.trans hpseudo, hlen⟩
      refine .sent (i := i) (n := 0) (m := m) ⟨Function.update_self .., hwaits, hfits, hmsgId, htext.msgType,
        htext.dstFlag.trans hdest, hsrc⟩ ?_ ?_ ?_ ?_ (downs_eq_nil h.down_lt) ?_ ?_
      · rw [hrecord]
        exact ⟨rfl, nofun, fun _ => Nat.zero_le 6⟩
      · rw [hrecord]
        exact ⟨m.nbRetransmission, rfl⟩
      · rw [hrecord]
        exact fun hzero => hzero
      · exact (ups_append hup).trans (by rw [ups_eq_nil h.up_lt]; rfl)
      · rw [hrecord]
        rfl
      · rw [hrecord]

theorem Orderly.typed (h : d.Orderly) {rands : ℕ → ℕ} {memory : ℕ → Message} {buffer : List UInt8} {len : ℕ}
    {c : ClientState} {sent : List Message} (hfits : sentSlot memory d.client < 2 ^ 31)
    (hrun : onStdinClient rands memory d.client buffer len = some (c, sent)) :
    Orderly (starts { d with client := c } (sentSlot memory d.client) sent) := by
  have hstep := onStdinClient_step hrun
  have hcounted := h.counted.stdin hstep
  obtain ⟨p, hp, hlen⟩ := h.pseudo
  cases hstep with
  | quiet => exact h
  | request hreq =>
    rw [hreq.noPseudo] at hp
    obtain rfl := Option.some.inj hp
    exact absurd hlen (by decide)
  | @text c₁ id slot m hconn hpseudo hfind hslot hm =>
    have hid : sentSlot memory d.client = id := by
      rw [sentSlot, if_neg hpseudo, hfind]
      rfl
    rw [hid] at hfits ⊢
    exact h.text (findNextMsgId_slot hfind) hm hcounted hfits

/-! ### Received messages -/

theorem downs_cons {rest : List (Option ℕ × Message)} (h : d.down = (some k, msg) :: rest) (hrest : d'.down = rest) :
    d.downs k = msg :: d'.downs k := by
  rw [downs, h, List.filter_cons, if_pos (decide_eq_true rfl), List.map_cons, downs, hrest]

theorem downs_cons_of_ne {tag : Option ℕ} {rest : List (Option ℕ × Message)} (h : d.down = (tag, msg) :: rest)
    (hrest : d'.down = rest) (hne : tag ≠ some k) : d'.downs k = d.downs k := by
  rw [downs, downs, h, List.filter_cons, if_neg (by rw [decide_eq_true_iff]; exact hne), hrest]

/-- The client reads a message that acknowledges nothing. -/
theorem Orderly.ignored (h : d.Orderly) {rest : List (Option ℕ × Message)} (hdown : d.down = (none, msg) :: rest) :
    onMsgClient d.client msg = some (d.client, []) ∧ Orderly { d with down := rest } := by
  have hmem : (none, msg) ∈ d.down := hdown ▸ List.mem_cons_self
  have hrest : ∀ x ∈ rest, x ∈ d.down := fun x hx => hdown ▸ List.mem_cons_of_mem _ hx
  have hno := not_or.1 (h.quiet _ hmem rfl)
  refine ⟨?_, h.serves, h.counted, h.idle, h.connected, h.pseudo, h.dest, h.up_lt,
    fun x hx => h.down_lt x (hrest x hx), fun x hx => h.quiet x (hrest x hx), fun k hk => ?_⟩
  · rw [onMsgClient, if_neg (by rw [h.idle]; exact Bool.false_ne_true), if_pos h.connected, if_neg hno.2, if_neg hno.1]
  · exact (h.stage k hk).keep (fun i m hm => hm.keep rfl hm.waits) rfl rfl
      (downs_cons_of_ne hdown rfl (Option.some_ne_none k).symm) rfl

/-- The client rewrites or cleans the slot of an acknowledged text. -/
theorem Orderly.rewrite (h : d.Orderly) (hm : d.Holds k i m) {rest : List (Option ℕ × Message)}
    (hdown : d.down = (some k, msg) :: rest) {m₁ : Message}
    (hm₁ : m₁.msgType = MSG_NULL ∨ m₁.msgType = m.msgType ∧ m₁.msgId = m.msgId)
    {up : List (ℕ × Message)} (hup : ∀ x ∈ up, x ∈ d.up ∨ x.1 = k)
    (hups : ∀ j ≠ k, (up.filter fun x => x.1 = j).map Prod.snd = d.ups j) {t : TextRecord}
    (hstage : Stage { d with
      client := { d.client with msgWaitingAck := d.client.msgWaitingAck.set i m₁ }
      up := up
      down := rest
      text := Function.update d.text k t } k) :
    Orderly { d with
      client := { d.client with msgWaitingAck := d.client.msgWaitingAck.set i m₁ }
      up := up
      down := rest
      text := Function.update d.text k t } := by
  have hmem : (some k, msg) ∈ d.down := hdown ▸ List.mem_cons_self
  have hk : k < d.count := h.down_lt _ hmem k rfl
  have hrest : ∀ x ∈ rest, x ∈ d.down := fun x hx => hdown ▸ List.mem_cons_of_mem _ hx
  refine ⟨h.serves, h.counted.rewrite hm.waits hm₁ h.idle, h.idle, h.connected, h.pseudo, h.dest, fun x hx => ?_,
    fun x hx => h.down_lt x (hrest x hx), fun x hx => h.quiet x (hrest x hx), fun j hj => ?_⟩
  · rcases hup x hx with hold | hnew
    · exact h.up_lt x hold
    · rw [hnew]
      exact hk
  · rcases eq_or_ne j k with rfl | hne
    · exact hstage
    · refine (h.stage j hj).keep (fun i' m' hm' => ?_) rfl (hups j hne)
        (downs_cons_of_ne hdown rfl fun heq => hne (Option.some.inj heq).symm) (Function.update_of_ne hne ..)
      -- another text waits in another slot
      have hi : i' ≠ i := by
        rintro rfl
        exact hne (hm'.holder.symm.trans hm.holder)
      exact hm'.keep rfl (waits_set_of_ne rfl hi hm'.waits)

/-- The stages of a text whose acknowledgment is the next message, and how the client takes it. -/
inductive Acked (d : Conversation) (k : ℕ) (msg : Message) (rest : List (Option ℕ × Message)) : Prop
  | rejected {i n : ℕ} {m : Message} : d.Holds k i m → (d.text k).Tried n →
      (∃ nb, m = { (d.text k).first with nbRetransmission := nb }) →
      ((d.text k).first.nbRetransmission = 0 → n < 6 ∧ msg.nbRetransmission = Int32.ofNat (n + 1)) → d.ups k = [] →
      downs { d with down := rest } k = [] → msg.msgType = MSG_ACK_NEG →
      (d.text k).answers = List.replicate n MSG_ACK_NEG → (d.text k).broadcasts = [] →
      onMsgClient d.client msg = some ({ d.client with
        msgWaitingAck := d.client.msgWaitingAck.set i { m with nbRetransmission := msg.nbRetransmission } },
        [{ m with nbRetransmission := msg.nbRetransmission }]) → Acked d k msg rest
  | accepted {i n : ℕ} {m : Message} {copies : List Sent} : d.Holds k i m → (d.text k).Tried n →
      (∃ nb, m = { (d.text k).first with nbRetransmission := nb }) → d.ups k = [] →
      downs { d with down := rest } k = [] → msg.msgType = MSG_ACK_POS →
      (d.text k).answers = List.replicate n MSG_ACK_NEG → (d.text k).broadcasts = [copies] →
      onMsgClient d.client msg = some (d.client.clean i m, []) → Acked d k msg rest

theorem Orderly.acked (h : d.Orderly) {rest : List (Option ℕ × Message)} (hdown : d.down = (some k, msg) :: rest) :
    Acked d k msg rest := by
  have hmem : (some k, msg) ∈ d.down := hdown ▸ List.mem_cons_self
  have hdowns : d.downs k = msg :: downs { d with down := rest } k := downs_cons hdown rfl
  cases h.stage k (h.down_lt _ hmem k rfl) with
  | sent _ _ _ _ _ hd => exact absurd (hdowns.symm.trans hd) (List.cons_ne_nil _ _)
  | done _ _ hd => exact absurd (hdowns.symm.trans hd) (List.cons_ne_nil _ _)
  | rejected hm htried hsame hnb hu hd htype hid hans hbroad =>
    obtain ⟨rfl, hnil⟩ := List.cons.inj (hdowns.symm.trans hd)
    exact .rejected hm htried hsame hnb hu hnil htype hans hbroad
      ((h.counted.accepts h.idle hm.waits hm.msgType hm.fits hid).2 htype)
  | accepted hm htried hsame hu hd htype hid hans hbroad =>
    obtain ⟨rfl, hnil⟩ := List.cons.inj (hdowns.symm.trans hd)
    exact .accepted hm htried hsame hu hnil htype hans hbroad
      ((h.counted.accepts h.idle hm.waits hm.msgType hm.fits hid).1 htype)

private theorem repeats_answered (hk : d.holder m.msgId.toNatClampNeg = k) :
    (answered d msg (some k)).repeats [m] = { d with
      up := d.up ++ [(k, m.via d.index)]
      text := Function.update d.text k { d.text k with
        again := (d.text k).again ++ [m]
        answers := (d.text k).answers ++ [msg.msgType] } } := by
  simp only [answered, repeats, hk, Function.update_self, Function.update_idem]

/-- The client sends a rejected text again. -/
theorem Orderly.again (h : d.Orderly) {rest : List (Option ℕ × Message)} (hdown : d.down = (some k, msg) :: rest)
    (hm : d.Holds k i m) (htried : (d.text k).Tried n)
    (hnb : (d.text k).first.nbRetransmission = 0 → n < 6 ∧ msg.nbRetransmission = Int32.ofNat (n + 1))
    (hups : d.ups k = []) (hdowns : downs { d with down := rest } k = []) (htype : msg.msgType = MSG_ACK_NEG)
    (hans : (d.text k).answers = List.replicate n MSG_ACK_NEG) (hbroad : (d.text k).broadcasts = []) {m' : Message}
    (hm' : m' = { m with nbRetransmission := msg.nbRetransmission })
    (hcopy : m' = { (d.text k).first with nbRetransmission := msg.nbRetransmission }) :
    Orderly { d with
      client := { d.client with msgWaitingAck := d.client.msgWaitingAck.set i m' }
      up := d.up ++ [(k, m'.via d.index)]
      down := rest
      text := Function.update d.text k { d.text k with
        again := (d.text k).again ++ [m']
        answers := (d.text k).answers ++ [msg.msgType] } } := by
  have hlt : i < d.client.msgWaitingAck.length := (List.getElem?_eq_some_iff.1 hm.waits.1).1
  have hsame : m'.msgType = m.msgType ∧ m'.msgId = m.msgId ∧ m'.dstFlag = m.dstFlag ∧ m'.srcPseudo = m.srcPseudo := by
    rw [hm']
    exact ⟨rfl, rfl, rfl, rfl⟩
  have hnb' : m'.nbRetransmission = msg.nbRetransmission := by rw [hm']
  refine h.rewrite hm hdown (Or.inr ⟨hsame.1, hsame.2.1⟩) (fun x hx => ?_) (fun j hj => ?_) ?_
  · exact (List.mem_append.1 hx).imp id fun hnew => by rw [List.mem_singleton.1 hnew]
  · have hrest : ups { d with up := d.up ++ [(k, m'.via d.index)] } j = d.ups j := ups_append_of_ne rfl hj
    exact hrest
  · refine .sent (i := i) (n := n + 1) (m := m') ⟨hm.holder, waits_set_self rfl hlt ?_, hm.fits,
      hsame.2.1.trans hm.msgId, hsame.1.trans hm.msgType, hsame.2.2.1.trans hm.dstFlag, ?_⟩ ?_ ?_ ?_ ?_ hdowns ?_ ?_
    · rw [hsame.1]
      exact hm.waits.2
    · rw [hsame.2.2.2]
      exact hm.srcPseudo
    · dsimp only
      rw [Function.update_self]
      refine ⟨?_, fun a ha => ?_, fun hzero => (hnb hzero).1⟩
      · rw [List.length_append, htried.length]
        rfl
      · rcases List.mem_append.1 ha with hold | hnew
        · exact htried.same a hold
        · exact ⟨_, (List.mem_singleton.1 hnew).trans hcopy⟩
    · dsimp only
      rw [Function.update_self]
      exact ⟨_, hcopy⟩
    · dsimp only
      rw [Function.update_self]
      exact fun hzero => hnb'.trans (hnb hzero).2
    · exact (ups_append rfl).trans (by rw [hups]; rfl)
    · dsimp only
      rw [Function.update_self, hans, htype, List.replicate_succ']
    · dsimp only
      rw [Function.update_self]
      exact hbroad

theorem Orderly.received (h : d.Orderly) {tag : Option ℕ} {rest : List (Option ℕ × Message)} {c : ClientState}
    {sent : List Message} (hdown : d.down = (tag, msg) :: rest) (hrun : onMsgClient d.client msg = some (c, sent)) :
    Orderly ((answered { d with client := c, down := rest } msg tag).repeats sent) := by
  cases tag with
  | none =>
    obtain ⟨hsame, hkeep⟩ := h.ignored hdown
    obtain ⟨rfl, rfl⟩ := Prod.mk.inj (Option.some.inj (hsame.symm.trans hrun))
    exact hkeep
  | some k =>
    cases h.acked hdown with
    | @rejected i n m hm htried hsame hnb hu hd htype hans hbroad hagain =>
      obtain ⟨rfl, rfl⟩ := Prod.mk.inj (Option.some.inj (hagain.symm.trans hrun))
      have hid : m.msgId.toNatClampNeg = i := by rw [hm.msgId, Int32.toNatClampNeg_ofNat_of_lt hm.fits]
      rw [repeats_answered (by rw [hid]; exact hm.holder)]
      obtain ⟨nb, hfirst⟩ := hsame
      exact h.again hdown hm htried hnb hu hd htype hans hbroad rfl (by rw [hfirst])
    | @accepted i n m copies hm htried hsame hu hd htype hans hbroad hdone =>
      obtain ⟨rfl, rfl⟩ := Prod.mk.inj (Option.some.inj (hdone.symm.trans hrun))
      refine h.rewrite hm hdown (Or.inl (by rw [initEmptyMessage])) (fun x hx => Or.inl hx) (fun j _ => rfl) ?_
      refine @Stage.done _ _ n copies ?_ hu hd ?_ ?_
      · dsimp only
        rw [Function.update_self]
        exact ⟨htried.length, htried.same, htried.limit⟩
      · dsimp only
        rw [Function.update_self, hans, htype]
      · dsimp only
        rw [Function.update_self]
        exact hbroad

/-! ### The server -/

theorem ups_cons {rest : List (ℕ × Message)} (h : d.up = (k, m) :: rest) (hrest : d'.up = rest) :
    d.ups k = m :: d'.ups k := by
  rw [ups, h, List.filter_cons, if_pos (decide_eq_true rfl), List.map_cons, ups, hrest]

theorem ups_cons_of_ne {j : ℕ} {rest : List (ℕ × Message)} (h : d.up = (j, m) :: rest) (hrest : d'.up = rest)
    (hne : k ≠ j) : d'.ups k = d.ups k := by
  rw [ups, ups, h, List.filter_cons, if_neg (by rw [decide_eq_true_iff]; exact hne.symm), hrest]

/-- Messages that acknowledge no text. -/
private theorem filter_untagged (k : ℕ) (l : List Message) :
    ((l.map fun m => ((none : Option ℕ), m)).filter fun x => x.1 = some k) = [] := by
  rw [List.filter_eq_nil_iff]
  intro x hx
  obtain ⟨m, -, rfl⟩ := List.mem_map.1 hx
  rw [decide_eq_true_iff]
  exact (Option.some_ne_none k).symm

private theorem replies_cons {sock : Int} {ack : Message} {copies : List Sent} (hack : isAck ack)
    (hsocket : ack.proxyClientSocket = d.index) (hcopies : ∀ x ∈ copies, ¬ isAck x.msg) :
    d.replies k (⟨sock, ack⟩ :: copies) = (some k, ack) :: (repliesTo d.index copies).map fun m => (none, m) := by
  have hlist : repliesTo d.index (⟨sock, ack⟩ :: copies) = ack :: repliesTo d.index copies := by
    rw [repliesTo, List.filter_cons, if_pos (decide_eq_true hsocket), List.map_cons, repliesTo]
  rw [replies, hlist, List.map_cons, if_pos hack]
  congr 1
  refine List.map_congr_left fun m hm => ?_
  obtain ⟨x, hx, rfl, -⟩ := mem_repliesTo hm
  rw [if_neg (hcopies x hx)]

/-- The server answers the next message. -/
theorem Orderly.answer (h : d.Orderly) {rest : List (ℕ × Message)} (hup : d.up = (k, m) :: rest) {s : ServerState}
    (hserves : ∃ accounts, Serves s accounts) {ack : Message} {others : List Message}
    (hothers : ∀ m ∈ others, ¬ isAck m) {t : TextRecord}
    (hstage : Stage { d with
      server := s
      up := rest
      down := d.down ++ (some k, ack) :: others.map fun m => (none, m)
      text := Function.update d.text k t } k) :
    Orderly { d with
      server := s
      up := rest
      down := d.down ++ (some k, ack) :: others.map fun m => (none, m)
      text := Function.update d.text k t } := by
  have hk : k < d.count := h.up_lt (k, m) (hup ▸ List.mem_cons_self)
  refine ⟨hserves, h.counted, h.idle, h.connected, h.pseudo, h.dest,
    fun x hx => h.up_lt x (hup ▸ List.mem_cons_of_mem _ hx), fun x hx j hj => ?_, fun x hx hnone => ?_, fun j hj => ?_⟩
  · rcases List.mem_append.1 hx with hold | hnew
    · exact h.down_lt x hold j hj
    · rcases List.mem_cons.1 hnew with rfl | hother
      · exact Option.some.inj hj ▸ hk
      · obtain ⟨m', -, rfl⟩ := List.mem_map.1 hother
        cases hj
  · rcases List.mem_append.1 hx with hold | hnew
    · exact h.quiet x hold hnone
    · rcases List.mem_cons.1 hnew with rfl | hother
      · cases hnone
      · obtain ⟨m', hm', rfl⟩ := List.mem_map.1 hother
        exact hothers m' hm'
  · rcases eq_or_ne j k with rfl | hne
    · exact hstage
    · refine (h.stage j hj).keep (fun i m hm => hm.keep rfl hm.waits) rfl (ups_cons_of_ne hup rfl hne) ?_
        (Function.update_of_ne hne ..)
      refine (downs_append rfl j).trans ?_
      rw [List.filter_cons_of_neg (by rw [decide_eq_true_iff]; exact fun heq => hne (Option.some.inj heq).symm),
        filter_untagged]
      exact List.append_nil _

theorem Orderly.served (h : d.Orderly) {correct : Correction} (hcorrect : KeepsHeader correct) {clock : Clock}
    {locals : Locals} {sock : Int} {rest : List (ℕ × Message)} {r : Handled} {relayed : Option (List Sent)}
    (hup : d.up = (k, m) :: rest) (hserve : Serve correct ⟨clock, locals, sock, m⟩ d.server r relayed) :
    Orderly { d with
      server := r.state
      up := rest
      down := d.down ++ d.replies k r.sent
      text := Function.update d.text k { d.text k with
        broadcasts := (d.text k).broadcasts ++ relayed.toList } } := by
  obtain ⟨accounts, hserves⟩ := h.serves
  have hups : d.ups k = m :: ups { d with up := rest } k := ups_cons hup rfl
  cases h.stage k (h.up_lt (k, m) (hup ▸ List.mem_cons_self)) with
  | rejected _ _ _ _ hu => exact absurd (hups.symm.trans hu) (List.cons_ne_nil _ _)
  | accepted _ _ _ hu => exact absurd (hups.symm.trans hu) (List.cons_ne_nil _ _)
  | done _ hu => exact absurd (hups.symm.trans hu) (List.cons_ne_nil _ _)
  | @sent i n m₁ hm htried hsame hnb hu hd hans hbroad =>
    obtain ⟨rfl, hnil⟩ := List.cons.inj (hups.symm.trans hu)
    obtain ⟨p, hp, hlen⟩ := hm.srcPseudo
    obtain ⟨hstate, hserved⟩ := hserve.text hserves hcorrect hm.msgType hp hlen
    have hacct : ∃ accounts, Serves r.state accounts := ⟨accounts, hstate.symm ▸ hserves⟩
    have hdowns : ∀ (ack : Message) (others : List Message),
        d.downs k ++ (((some k, ack) :: others.map fun m => ((none : Option ℕ), m)).filter
          fun x => x.1 = some k).map Prod.snd = [ack] := by
      intro ack others
      rw [hd, List.filter_cons, if_pos (decide_eq_true rfl), filter_untagged]
      rfl
    cases hserved with
    | @accepted ack copies hack hsent hcopies hrelayed =>
      have hdst : (m₁.via d.index).dstFlag = MSG_FLAG_DEFAULT_CHANNEL := hm.dstFlag
      dsimp only at hrelayed
      rw [if_pos hdst] at hrelayed
      subst hrelayed
      have hquiet : ∀ x ∈ copies, ¬ isAck x.msg := by
        intro x hx
        rw [isAck, hcopies x hx]
        decide
      rw [hsent, replies_cons (Or.inl hack.msgType) hack.socket hquiet]
      refine h.answer hup hacct (fun m hm => ?_) ?_
      · obtain ⟨x, hx, rfl, -⟩ := mem_repliesTo hm
        exact hquiet x hx
      · refine @Stage.accepted _ _ i n m₁ ack copies (hm.keep rfl hm.waits) ?_ ?_ hnil
          ((downs_append rfl k).trans (hdowns _ _)) hack.msgType hack.msgId ?_ ?_
        all_goals
          dsimp only
          rw [Function.update_self]
        · exact ⟨htried.length, htried.same, htried.limit⟩
        · exact hsame
        · exact hans
        · rw [hbroad]
          rfl
    | @again ack hfew hack hsent hrelayed =>
      subst hrelayed
      rw [hsent, replies_cons (Or.inr hack.msgType) hack.socket fun x hx => absurd hx List.not_mem_nil]
      refine h.answer hup hacct (fun m hm => absurd hm List.not_mem_nil) ?_
      refine @Stage.rejected _ _ i n m₁ ack (hm.keep rfl hm.waits) ?_ ?_ ?_ hnil
        ((downs_append rfl k).trans (hdowns _ _)) hack.msgType hack.msgId ?_ ?_
      all_goals
        dsimp only
        rw [Function.update_self]
      · exact ⟨htried.length, htried.same, htried.limit⟩
      · exact hsame
      · intro hzero
        have hnow := hnb hzero
        refine ⟨Nat.lt_of_le_of_ne (htried.limit hzero) ?_, ?_⟩
        · -- the seventh message is accepted
          rintro rfl
          refine hfew ?_
          show m₁.nbRetransmission > 5
          rw [hnow]
          decide
        · rw [Int32.ofNat_add, ← hnow]
          exact hack.nbRetransmission
      · exact hans
      · rw [hbroad]
        rfl

/-- The server handles a message of another client. -/
theorem Orderly.others (h : d.Orderly) {correct : Correction} (hcorrect : KeepsHeader correct) {e : Event} {r : Handled}
    {relayed : Option (List Sent)} (hindex : e.msg.proxyClientSocket ≠ d.index)
    (hserve : Serve correct e d.server r relayed) :
    Orderly { d with server := r.state, down := d.down ++ (repliesTo d.index r.sent).map fun m => (none, m) } := by
  obtain ⟨accounts, hserves⟩ := h.serves
  obtain ⟨hacct, hacks⟩ := hserve.acks hserves hcorrect
  refine ⟨hacct, h.counted, h.idle, h.connected, h.pseudo, h.dest, h.up_lt, fun x hx j hj => ?_, fun x hx hnone => ?_,
    fun k hk => ?_⟩
  · rcases List.mem_append.1 hx with hold | hnew
    · exact h.down_lt x hold j hj
    · obtain ⟨m, -, rfl⟩ := List.mem_map.1 hnew
      cases hj
  · rcases List.mem_append.1 hx with hold | hnew
    · exact h.quiet x hold hnone
    · -- its acknowledgments go to another index
      obtain ⟨m, hm, rfl⟩ := List.mem_map.1 hnew
      obtain ⟨x, hsent, rfl, hsocket⟩ := mem_repliesTo hm
      exact fun hack => hindex ((hacks x hsent hack).symm.trans hsocket)
  · refine (h.stage k hk).keep (fun i m hm => hm.keep rfl hm.waits) rfl rfl ?_ rfl
    refine (downs_append rfl k).trans ?_
    rw [filter_untagged]
    exact List.append_nil _

/-! ### Runs -/

theorem Orderly.next (h : d.Orderly) (hnext : d.Next d') : d'.Orderly := by
  cases hnext with
  | typed _ hfits hrun => exact h.typed hfits hrun
  | received hdown hrun => exact h.received hdown hrun
  | served hcorrect hup hserve => exact h.served hcorrect hup hserve
  | others hcorrect hindex hserve => exact h.others hcorrect hindex hserve

/-- What the answer to its connection request does to a client. -/
private theorem connects {c c' : ClientState} {sent : List Message} (hoff : c.connected = false)
    (hrun : onMsgClient c msg = some (c', sent)) (hon : c'.connected = true) :
    c' = { c with connected := true, waitingPseudoConfirmation := false } := by
  cases onMsgClient_step hrun with
  | ignored =>
    rw [hoff] at hon
    cases hon
  | accepted => rfl
  | refused =>
    dsimp only at hon
    rw [hoff] at hon
    cases hon
  | refusedClean =>
    rw [ClientState.clean] at hon
    dsimp only at hon
    rw [hoff] at hon
    cases hon
  | again _ hconn =>
    rw [hoff] at hconn
    cases hconn
  | done _ hconn =>
    rw [hoff] at hconn
    cases hconn

theorem begins_orderly (h : Begins d) : d.Orderly := by
  obtain @⟨out, c, c', msg, hist, s, p, record, holder, index, hclient, hoff, hrun, hon, hp, hserver, hacc⟩ := h
  have hcounted := (clientRun_counted hclient).received (onMsgClient_step hrun)
  obtain rfl := connects hoff hrun hon
  obtain ⟨accounts, ht⟩ := run_tracked hserver
  have hlen : MIN_NAME_LENGTH ≤ p.length := by
    have hsome : accounts p ≠ none := fun hnone => hacc (ht.absent p hnone)
    obtain ⟨a, ha⟩ := Option.ne_none_iff_exists'.1 hsome
    exact (ht.serves.pseudo p a.1 a.2 ha).1.1
  exact ⟨⟨accounts, ht.serves⟩, hcounted, rfl, rfl, ⟨p, hp, hlen⟩, (clientRun_waiting hclient).dest, nofun, nofun,
    nofun, nofun⟩

end Conversation

end NyanChat
