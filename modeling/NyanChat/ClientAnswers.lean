import NyanChat.ClientSlots
import NyanChat.Library.Loop

/-!
# The answers to a client

A run with the answers that the server gave.  A connection request stays in the first slot when it is accepted or
refused, and no acknowledgment reduces `nb_msg_waiting_ack`: the slots and that number agree with what the server
has still to answer only until the first answer to a connection request (`settled_iff_unanswered`).  Connection
requests increase the number without doubling a full table; when they spare the slots, every text finds a free one
(`findNextMsgId_free`).
-/

namespace NyanChat

open Slots

/-- Whether a connection request was answered, and which slots hold a message that was answered. -/
structure Answers where
  connection : Bool
  slot : ℕ → Bool

/-- No message was sent. -/
def noAnswers : Answers := ⟨false, fun _ => false⟩

/-- The slot of the message that a line sends, if it sends one. -/
def sentSlot (memory : ℕ → Message) (c : ClientState) : ℕ :=
  if cstr c.pseudo = some [] then 0 else ((findNextMsgId memory c).map Prod.snd).getD 0

/-- A message just sent is not answered. -/
def Answers.sending (a : Answers) (id : ℕ) : List Message → Answers
  | [] => a
  | _ => { a with slot := Function.update a.slot id false }

/-- An error or `MSG_WELL_CONNECTED` answers the connection request, then a positive acknowledgment or an error the
message that it names. -/
def Answers.receiving (a : Answers) (c : ClientState) (msg : Message) : Answers :=
  if c.waitingPseudoConfirmation then
    if msg.msgType = MSG_ERROR ∨ msg.msgType = MSG_WELL_CONNECTED then ⟨true, Function.update a.slot 0 true⟩ else a
  else if c.connected ∧ (msg.msgType = MSG_ACK_POS ∨ msg.msgType = MSG_ERROR) ∧ 0 ≤ msg.msgId then
    { a with slot := Function.update a.slot msg.msgId.toNatClampNeg true }
  else a

/-- The states a client reaches with the answers it received, when each line is typed in a state with `guard`. -/
inductive AnswerRun (guard : ClientState → ℕ → Prop) : Answers → ClientState → Prop
  | start (codes : List UInt8 → Option (List UInt8)) : AnswerRun guard noAnswers (initClientState codes)
  | typed {a : Answers} {sent : List Message} {c c' : ClientState} {buffer : List UInt8} {len : ℕ} {rands : ℕ → ℕ}
      {memory : ℕ → Message} : AnswerRun guard a c → Typed buffer len → guard c len →
      onStdinClient rands memory c buffer len = some (c', sent) →
      AnswerRun guard (a.sending (sentSlot memory c) sent) c'
  | received {a : Answers} {sent : List Message} {c c' : ClientState} {msg : Message} : AnswerRun guard a c →
      onMsgClient c msg = some (c', sent) → AnswerRun guard (a.receiving c msg) c'

/-- The counter is the number of the taken slots, of which none holds an answered message. -/
structure Settled (a : Answers) (c : ClientState) : Prop where
  count : c.nbMsgWaitingAck = c.taken
  le : c.nbMsgWaitingAck ≤ c.msgWaitingAck.length
  unanswered : ∀ i m, c.Waits i m → a.slot i = false

variable {guard : ClientState → ℕ → Prop} {a : Answers} {c c' c₁ : ClientState} {m msg slot : Message}
  {sent : List Message} {buffer : List UInt8} {len id : ℕ} {memory : ℕ → Message}

theorem AnswerRun.clientRun (h : AnswerRun guard a c) : ∃ out, ClientRun out c := by
  induction h with
  | start codes => exact ⟨[], .start codes⟩
  | typed _ htyped _ hrun ih =>
    obtain ⟨out, hout⟩ := ih
    exact ⟨_, hout.typed htyped hrun⟩
  | received _ hrun ih =>
    obtain ⟨out, hout⟩ := ih
    exact ⟨_, hout.received hrun⟩

theorem AnswerRun.counted (h : AnswerRun guard a c) : Counted c := by
  obtain ⟨out, hout⟩ := h.clientRun
  exact clientRun_counted hout

/-! ### Runs of given moves -/

/-- A text entered in `client_ansi.c`, or a received message. -/
inductive Move
  | enters (text : String)
  | receives (msg : Message)

/-- One move, if `guard` holds where it has to. -/
def Move.play (guard : ClientState → ℕ → Prop) [∀ c len, Decidable (guard c len)] (s : Answers × ClientState) :
    Move → Option (Answers × ClientState)
  | .enters text =>
    if (ascii text).length < MAX_MSG_LENGTH ∧ guard s.2 (ascii text).length then
      (enter text s.2).map fun r => (s.1.sending (sentSlot (fun _ => Message.zero) s.2) r.2, r.1)
    else none
  | .receives msg => (onMsgClient s.2 msg).map fun r => (s.1.receiving s.2 msg, r.1)

def play (guard : ClientState → ℕ → Prop) [∀ c len, Decidable (guard c len)] (moves : List Move) :
    Option (Answers × ClientState) :=
  moves.foldlM (Move.play guard) (noAnswers, initClientState fun _ => none)

theorem play_answerRun [∀ c len, Decidable (guard c len)] {moves : List Move}
    (h : play guard moves = some (a, c)) : AnswerRun guard a c := by
  refine Loop.foldlM_of_some (fun s : Answers × ClientState => AnswerRun guard s.1 s.2) (fun move s s' hs hmove => ?_)
    moves ?_ h
  · cases move with
    | enters text =>
      dsimp only [Move.play] at hmove
      split at hmove
      · rename_i hguard
        obtain ⟨r, hr, rfl⟩ := Option.map_eq_some_iff.1 hmove
        exact hs.typed (.input hguard.1) hguard.2 hr
      · cases hmove
    | receives msg =>
      obtain ⟨r, hr, rfl⟩ := Option.map_eq_some_iff.1 hmove
      exact hs.received hr
  · exact AnswerRun.start _

/-- The refusal that the server sends. -/
def refused : Message := { Message.zero with msgType := MSG_ERROR, msgId := -1 }

/-- An acknowledgment of the message `id`. -/
def acknowledges (id : Int32) : Message := { Message.zero with msgType := MSG_ACK_POS, msgId := id }

/-! ### Before and after the first answer to a connection request -/

/-- Nothing but one connection request was sent, and it was not answered. -/
structure Early (a : Answers) (c : ClientState) : Prop where
  settled : Settled a c
  disconnected : c.connected = false
  idle : c.waitingPseudoConfirmation = false → c.nbMsgWaitingAck = 0

/-- The counter counts too much, or the first slot is taken by an answered message. -/
def Late (a : Answers) (c : ClientState) : Prop :=
  c.taken < c.nbMsgWaitingAck ∨ ∃ m, c.Waits 0 m ∧ a.slot 0 = true

theorem Late.not_settled (h : Late a c) : ¬ Settled a c := by
  intro hsettled
  rcases h with hlt | ⟨m, hm, hans⟩
  · rw [hsettled.count] at hlt
    exact Nat.lt_irrefl _ hlt
  · rw [hsettled.unanswered 0 m hm] at hans
    cases hans

/-- Early until a connection request is answered, then late. -/
def Dated (a : Answers) (c : ClientState) : Prop := if a.connection then Late a c else Early a c

private theorem not_waits (h : Counted c) (hnb : c.nbMsgWaitingAck = 0) (i : ℕ) (m : Message) : ¬ c.Waits i m := by
  intro hi
  have := h.below i m hi
  omega

theorem Early.request (h : Early a c) (hc : Counted c) (hreq : Requests c len c' m) :
    Early { a with slot := Function.update a.slot 0 false } c' := by
  have hnb := h.idle hreq.idle
  have hs : c.msgWaitingAck[0]? = some (c.msgWaitingAck.get ⟨0, hreq.room⟩) := List.getElem?_eq_getElem hreq.room
  have hfree : isFree (c.msgWaitingAck.get ⟨0, hreq.room⟩) = true := by
    rw [isFree_iff]
    by_contra htype
    exact not_waits hc hnb 0 _ ⟨hs, htype⟩
  have hset := taken_set hs hreq.slots
  have htype : m.msgType ≠ MSG_NULL := by rw [hreq.msgType]; decide
  rw [hfree, isFree_eq_false htype, if_pos rfl, if_neg Bool.false_ne_true, Nat.add_zero] at hset
  refine ⟨⟨?_, ?_, fun i m' hi => ?_⟩, hreq.connected.trans h.disconnected, fun hw => ?_⟩
  · rw [hreq.count, hset, h.settled.count]
  · rw [hreq.count, hreq.slots, List.length_set, hnb]
    exact hreq.room
  · rcases waits_set hreq.slots hi with ⟨rfl, -⟩ | ⟨-, hold⟩
    · exact Function.update_self 0 false a.slot
    · exact absurd hold (not_waits hc hnb i m')
  · rw [hreq.waiting] at hw
    cases hw

theorem Late.request (h : Late a c) (hc : Counted c) (hreq : Requests c len c' m) (slot : ℕ → Bool) :
    Late { a with slot := slot } c' := by
  left
  rw [hreq.count]
  rcases h with hlt | ⟨m₀, hm₀, -⟩
  · have := hreq.taken_le
    omega
  · -- the new request takes the place of the old message
    have htype : m.msgType ≠ MSG_NULL := by rw [hreq.msgType]; decide
    rw [taken_again hm₀ hreq.slots htype]
    exact Nat.lt_succ_of_le hc.count

theorem Late.text (h : Late a c) (halloc : Allocates memory c c₁ id) (hm : m.msgType ≠ MSG_NULL) :
    Late { a with slot := Function.update a.slot id false } (c₁.wait id m) := by
  rcases h with hlt | ⟨m₀, hm₀, hans⟩
  · left
    have hnb : (c₁.wait id m).nbMsgWaitingAck = c.nbMsgWaitingAck + 1 := by rw [ClientState.wait, halloc.nb_eq]
    rw [hnb, halloc.taken_wait hm]
    exact Nat.succ_lt_succ hlt
  · -- the text gets another slot than the first one
    right
    exact ⟨m₀, halloc.waits_wait hm₀ m, (Function.update_of_ne (halloc.ne_of_waits hm₀) ..).trans hans⟩

theorem Dated.typed (h : Dated a c) (hc : Counted c) (hstep : StdinStep memory c buffer len c' sent) :
    Dated (a.sending (sentSlot memory c) sent) c' := by
  cases hstep with
  | quiet => exact h
  | request hreq =>
    unfold Dated at h ⊢
    rw [sentSlot, if_pos hreq.noPseudo]
    split at h
    · rename_i hconn
      rw [if_pos (by exact hconn)]
      exact h.request hc hreq _
    · rename_i hconn
      rw [if_neg (by exact hconn)]
      exact h.request hc hreq
  | text hconn hpseudo hfind _ hm =>
    unfold Dated at h ⊢
    rw [sentSlot, if_neg hpseudo, hfind]
    split at h
    · rename_i hans
      rw [if_pos (by exact hans)]
      obtain ⟨text, -, htext⟩ := textSlot_spec hm
      exact h.text (findNextMsgId_slot hfind) (by rw [htext.msgType]; decide)
    · rw [h.disconnected] at hconn
      cases hconn

/-- The answer to a connection request ends the early part of a run. -/
private theorem late_of_answer (hc : Counted c) (hwait : c.waitingPseudoConfirmation = true)
    (hans : a.slot 0 = true) (hstep : ReceivedStep c msg c' sent) : Late a c' := by
  obtain ⟨m, hm⟩ := hc.first hwait
  cases hstep with
  | ignored => exact Or.inr ⟨m, hm, hans⟩
  | accepted => exact Or.inr ⟨m, hm, hans⟩
  | refused => exact Or.inr ⟨m, hm, hans⟩
  | @refusedClean codes pseudo id slot _ _ _ hid =>
    left
    have htaken : ({ c with
        codes := codes, pseudo := pseudo, waitingPseudoConfirmation := false }.clean id slot).taken + 1 = c.taken :=
      taken_free hid rfl rfl
    have hcount := hc.count
    show _ < c.nbMsgWaitingAck
    omega
  | again hidle => rw [hidle] at hwait; cases hwait
  | done hidle => rw [hidle] at hwait; cases hwait

theorem Late.received (h : Late a c) (hc : Counted c) (hidle : c.waitingPseudoConfirmation = false) {slot : ℕ → Bool}
    (hslot : a.slot 0 = true → slot 0 = true) (hstep : ReceivedStep c msg c' sent) :
    Late { a with slot := slot } c' := by
  cases hstep with
  | ignored => exact h.imp_right fun ⟨m, hm, hans⟩ => ⟨m, hm, hslot hans⟩
  | accepted hwait => rw [hidle] at hwait; cases hwait
  | refused hwait => rw [hidle] at hwait; cases hwait
  | refusedClean hwait => rw [hidle] at hwait; cases hwait
  | @again id old _ _ _ hnames =>
    have hkept : ({ old with nbRetransmission := msg.nbRetransmission } : Message).msgType ≠ MSG_NULL := hnames.waits.2
    rcases h with hlt | ⟨m, hm, hans⟩
    · left
      exact (taken_again hnames.waits rfl hkept).trans_lt hlt
    · right
      rcases Nat.eq_zero_or_pos id with rfl | hpos
      · exact ⟨_, waits_set_self rfl (List.getElem?_eq_some_iff.1 hm.1).1 hkept, hslot hans⟩
      · exact ⟨m, waits_set_of_ne rfl (Nat.ne_of_lt hpos) hm, hslot hans⟩
  | @done id old _ _ _ hnames =>
    left
    have htaken : (c.clean id old).taken + 1 = c.taken := taken_free hnames.waits rfl rfl
    have hcount := hc.count
    show _ < c.nbMsgWaitingAck
    omega

theorem Dated.received (h : Dated a c) (hc : Counted c) (hstep : ReceivedStep c msg c' sent) :
    Dated (a.receiving c msg) c' := by
  unfold Answers.receiving
  split
  · rename_i hwait
    split
    · exact late_of_answer hc hwait (Function.update_self 0 true a.slot) hstep
    · -- the client goes on waiting
      rename_i htype
      rw [not_or] at htype
      cases hstep with
      | ignored => exact h
      | accepted _ h' => exact absurd h' htype.2
      | refused _ h' => exact absurd h' htype.1
      | refusedClean _ h' => exact absurd h' htype.1
      | again hidle => rw [hidle] at hwait; cases hwait
      | done hidle => rw [hidle] at hwait; cases hwait
  · rename_i hidle
    rw [Bool.not_eq_true] at hidle
    unfold Dated at h
    split at h
    · rename_i hconn
      split
      · unfold Dated
        rw [if_pos (by exact hconn)]
        refine h.received hc hidle (fun hans => ?_) hstep
        rw [Function.update_apply, hans, ite_self]
      · unfold Dated
        rw [if_pos hconn]
        exact h.received hc hidle id hstep
    · rename_i hconn
      rw [if_neg (by rw [h.disconnected]; exact fun hand => Bool.false_ne_true hand.1), Dated, if_neg hconn]
      cases hstep with
      | ignored => exact h
      | accepted hwait => rw [hidle] at hwait; cases hwait
      | refused hwait => rw [hidle] at hwait; cases hwait
      | refusedClean hwait => rw [hidle] at hwait; cases hwait
      | again _ hconn' => rw [h.disconnected] at hconn'; cases hconn'
      | done _ hconn' => rw [h.disconnected] at hconn'; cases hconn'

theorem initClientState_early (codes : List UInt8 → Option (List UInt8)) : Early noAnswers (initClientState codes) := by
  have hcounted := initClientState_counted codes
  refine ⟨⟨?_, Nat.zero_le _, fun _ _ _ => rfl⟩, rfl, fun _ => rfl⟩
  exact (Nat.le_zero.1 hcounted.count).symm

theorem AnswerRun.dated (h : AnswerRun guard a c) : Dated a c := by
  induction h with
  | start codes => exact initClientState_early codes
  | typed hprev _ _ hrun ih => exact ih.typed hprev.counted (onStdinClient_step hrun)
  | received hprev hrun ih => exact ih.received hprev.counted (onMsgClient_step hrun)

/-- The counter and the slots are right in exactly the states before the first answer to a connection request. -/
theorem settled_iff_unanswered (h : AnswerRun guard a c) : Settled a c ↔ a.connection = false := by
  have hdated := h.dated
  unfold Dated at hdated
  split at hdated
  · rename_i hconn
    rw [hconn]
    exact iff_of_false hdated.not_settled nofun
  · rename_i hconn
    exact iff_of_true hdated.settled (Bool.not_eq_true _ ▸ hconn)

private theorem requested :
    (play (fun _ _ => True) [.enters "alice"]).map (fun s => (s.1.connection, s.2.nbMsgWaitingAck)) =
      some (false, 1) := by
  decide +kernel

theorem settled_iff_unanswered_requested :
    ∃ a c, AnswerRun (fun _ _ => True) a c ∧ c.nbMsgWaitingAck = 1 ∧ Settled a c := by
  obtain ⟨⟨a, c⟩, hplay, heq⟩ := Option.map_eq_some_iff.1 requested
  obtain ⟨hconn, hnb⟩ := Prod.mk.inj heq
  have hrun := play_answerRun hplay
  exact ⟨a, c, hrun, hnb, (settled_iff_unanswered hrun).2 hconn⟩

private theorem one_text :
    (play (fun _ _ => True) [.enters "alice", .receives wellConnected, .enters "hello", .receives (acknowledges 1)]).map
      (fun s => (s.2.connected, s.2.nbMsgWaitingAck, s.2.taken, (s.2.msgWaitingAck[0]?).map isFree, s.1.slot 0)) =
        some (true, 2, 1, some false, true) := by
  decide +kernel

/-- After the first text is acknowledged the accepted connection request still takes the first slot, and the counter
counts both. -/
theorem acknowledged_text_counted :
    ∃ a c m, AnswerRun (fun _ _ => True) a c ∧ c.connected = true ∧ c.nbMsgWaitingAck = 2 ∧ c.taken = 1 ∧
      c.Waits 0 m ∧ a.slot 0 = true ∧ ¬ Settled a c := by
  obtain ⟨⟨a, c⟩, hplay, heq⟩ := Option.map_eq_some_iff.1 one_text
  simp only [Prod.mk.injEq] at heq
  obtain ⟨hconn, hnb, htaken, hfirst, hslot⟩ := heq
  obtain ⟨m, hm, hfree⟩ := Option.map_eq_some_iff.1 hfirst
  refine ⟨a, c, m, play_answerRun hplay, hconn, hnb, htaken, ⟨hm, fun hnull => ?_⟩, hslot, fun hsettled => ?_⟩
  · rw [isFree_iff.2 hnull] at hfree
    cases hfree
  · have := hsettled.count
    omega

/-! ### The next slot -/

/-- A connection request is typed while the table has more slots than the counter says. -/
def SparesSlots (c : ClientState) (len : ℕ) : Prop :=
  cstr c.pseudo = some [] → c.waitingPseudoConfirmation = false → MIN_NAME_LENGTH ≤ len →
    c.nbMsgWaitingAck < c.msgWaitingAck.length

/-- `find_next_msg_id` comes back with the index, as an `int`, of a free slot that no waiting text names. -/
structure FindsFree (memory : ℕ → Message) (c c₁ : ClientState) (id : ℕ) : Prop where
  found : findNextMsgId memory c = some (c₁, id)
  below : id < c₁.msgWaitingAck.length
  free : ∀ slot, c₁.msgWaitingAck[id]? = some slot → slot.msgType = MSG_NULL
  fits : (Int32.ofNat id).toInt = id
  fresh : ∀ i m, c.Waits i m → m.msgType = MSG_STD_CLIENT_SERVER → m.msgId ≠ Int32.ofNat id

theorem ReceivedStep.room (hstep : ReceivedStep c msg c' sent) :
    c'.nbMsgWaitingAck = c.nbMsgWaitingAck ∧ c'.msgWaitingAck.length = c.msgWaitingAck.length := by
  cases hstep with
  | ignored => exact ⟨rfl, rfl⟩
  | accepted => exact ⟨rfl, rfl⟩
  | refused => exact ⟨rfl, rfl⟩
  | refusedClean => exact ⟨rfl, List.length_set⟩
  | again => exact ⟨rfl, List.length_set⟩
  | done => exact ⟨rfl, List.length_set⟩

/-- The counter stays within the table when the connection requests spare its slots. -/
theorem AnswerRun.le_length (h : AnswerRun SparesSlots a c) : c.nbMsgWaitingAck ≤ c.msgWaitingAck.length := by
  induction h with
  | start codes => exact Nat.zero_le _
  | @typed a sent c c' buffer len rands memory hprev _ hguard hrun ih =>
    cases onStdinClient_step hrun with
    | quiet => exact ih
    | request hreq =>
      rw [hreq.count, hreq.slots, List.length_set]
      exact hguard hreq.noPseudo hreq.idle hreq.long
    | @text c₁ id slot m hconn hpseudo hfind hslot hm =>
      have halloc := findNextMsgId_slot hfind
      have hnb : (c₁.wait id m).nbMsgWaitingAck = c.nbMsgWaitingAck + 1 := by rw [ClientState.wait, halloc.nb_eq]
      have hlength : (c₁.wait id m).msgWaitingAck.length = c₁.msgWaitingAck.length := List.length_set
      rw [hnb, hlength]
      cases halloc with
      | free hne => exact Nat.lt_of_le_of_ne ih hne
      | grown heq hpos =>
        rw [growWaiting_length]
        omega
  | received hprev hrun ih =>
    obtain ⟨hnb, hlength⟩ := (onMsgClient_step hrun).room
    rwa [hnb, hlength]

/-- When the connection requests spare the slots, each text finds a free slot in a table that an `int` indexes. -/
theorem findNextMsgId_free (h : AnswerRun SparesSlots a c) (hlen : c.msgWaitingAck.length < 2 ^ 31)
    (memory : ℕ → Message) : ∃ c₁ id, FindsFree memory c c₁ id := by
  have hc := h.counted
  have hroom := h.le_length
  have hreturns : c.nbMsgWaitingAck = c.msgWaitingAck.length ∨ c.taken ≠ c.msgWaitingAck.length := by
    have := hc.count
    omega
  obtain ⟨⟨c₁, id⟩, hfind⟩ := (findNextMsgId_returns_iff hc.pos memory).2 hreturns
  have halloc := findNextMsgId_slot hfind
  obtain ⟨s, hs, hfree⟩ := halloc.getElem?
  have hid := halloc.id_le hc.count
  refine ⟨c₁, id, hfind, (List.getElem?_eq_some_iff.1 hs).1, fun slot hslot => ?_,
    Int32.toInt_ofNat_of_lt (by omega), fun i m hi htype heq => ?_⟩
  · rw [hs] at hslot
    obtain rfl := Option.some.inj hslot
    exact isFree_iff.1 hfree
  · -- a waiting text names its slot, which is not free
    rcases hc.kind i m hi with ⟨-, hconn⟩ | ⟨-, hmsgId, -⟩
    · rw [htype] at hconn
      cases hconn
    · have hi' := hc.below i m hi
      have hsame : (i : Int) = id := by
        rw [← Int32.toInt_ofNat_of_lt (show i < 2 ^ 31 by omega),
          ← Int32.toInt_ofNat_of_lt (show id < 2 ^ 31 by omega), ← hmsgId, heq]
      exact halloc.ne_of_waits hi (by omega)

instance (c : ClientState) (len : ℕ) : Decidable (SparesSlots c len) :=
  inferInstanceAs (Decidable (_ → _ → _ → _))

private theorem spares :
    (play SparesSlots [.enters "alice", .receives wellConnected, .enters "hello"]).map
      (fun s => (s.2.connected, s.2.msgWaitingAck.length)) = some (true, 10) := by
  decide +kernel

theorem findNextMsgId_free_hello : ∃ a c c₁ id, AnswerRun SparesSlots a c ∧ c.connected = true ∧
    FindsFree (fun _ => Message.zero) c c₁ id := by
  obtain ⟨⟨a, c⟩, hplay, heq⟩ := Option.map_eq_some_iff.1 spares
  obtain ⟨hconn, hlength⟩ := Prod.mk.inj heq
  have hrun := play_answerRun hplay
  obtain ⟨c₁, id, hfind⟩ := findNextMsgId_free hrun (by rw [hlength]; decide) fun _ => Message.zero
  exact ⟨a, c, c₁, id, hrun, hconn, hfind⟩

private theorem eleven_requests :
    (play (fun _ _ => True) ((List.replicate 10 [.enters "alice", .receives refused]).flatten ++
        [.enters "alice", .receives wellConnected] ++ List.replicate 9 (.enters "hello"))).map
      (fun s => (s.2.connected, s.2.nbMsgWaitingAck, s.2.taken, s.2.msgWaitingAck.length)) =
        some (true, 20, 10, 10) := by
  decide +kernel

/-- After ten refusals the counter has passed the size of the table, which is then filled and not doubled. -/
theorem refusals_panic : ∃ a c, AnswerRun (fun _ _ => True) a c ∧ c.connected = true ∧
    ∀ memory, findNextMsgId memory c = none := by
  obtain ⟨⟨a, c⟩, hplay, heq⟩ := Option.map_eq_some_iff.1 eleven_requests
  simp only [Prod.mk.injEq] at heq
  obtain ⟨hconn, hnb, htaken, hlength⟩ := heq
  have hrun := play_answerRun hplay
  refine ⟨a, c, hrun, hconn, fun memory => Option.eq_none_iff_forall_ne_some.2 fun r hr => ?_⟩
  have := (findNextMsgId_returns_iff hrun.counted.pos memory).1 ⟨r, hr⟩
  omega

end NyanChat
