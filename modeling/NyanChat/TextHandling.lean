import NyanChat.Broadcast

/-!
# Texts with any outcome of the correction

`on_msg_received` with any function in the place of `code_correct_error`, which changes no more of a message than its
text and its error bits.  Besides what the handler leaves it tells the copies of a broadcast.  With
`code_correct_error` itself it is the handler of the server (`onMsgReceivedWith_fst`).
-/

namespace NyanChat

open OpenAddressing

abbrev Correction : Type := Message → Option (Message × Int)

/-- The message differs in its text, its control bits and its error bits only. -/
def SameHeader (m m' : Message) : Prop :=
  ∃ msg control error, m' = { m with msg := msg, control := control, error := error }

/-- The correction, also of a message that noise has changed on its way, keeps the header. -/
def KeepsHeader (correct : Correction) : Prop := ∀ m m' rc, correct m = some (m', rc) → SameHeader m m'

def onTextWith (correct : Correction) (fuel : ℕ) (locals : Locals) (sock : Int) (pseudo : List UInt8) (msg : Message)
    (s : ServerState) : Option (Handled × Option (List Sent)) := do
  let (s, _) ← findClient fuel s pseudo
  let (msg, rc) ← correct msg
  if rc = 0 ∨ msg.nbRetransmission > 5 then
    let ack := ⟨sock, genPositiveAckFromMsg msg locals.ack⟩
    if msg.dstFlag = MSG_FLAG_DEFAULT_CHANNEL then
      let copies ← broadcastMsgToAllConnectedClients s sock msg locals.newMsg
      return (⟨s, ack :: copies, msg⟩, some copies)
    else return (⟨s, [ack], msg⟩, none)
  else return (⟨s, [⟨sock, genNegativeAckFromMsg msg locals.ack⟩], msg⟩, none)

def onMsgReceivedWith (correct : Correction) (fuel : ℕ) (clock : Clock) (locals : Locals) (sock : Int) (msg : Message)
    (s : ServerState) : Option (Handled × Option (List Sent)) := do
  let pseudo ← cstr msg.srcPseudo
  if pseudo.length < MIN_NAME_LENGTH then return (⟨s, [], msg⟩, none)
  else if msg.msgType = MSG_CONNECTION_CLIENT then
    let (s, sent) ← onConnection fuel clock locals sock pseudo msg s
    return (⟨s, sent, msg⟩, none)
  else if msg.msgType = MSG_STD_CLIENT_SERVER then onTextWith correct fuel locals sock pseudo msg s
  else return (⟨s, [], msg⟩, none)

/-- The server handles the message, and broadcasts the given copies if there are any. -/
def Serve (correct : Correction) (e : Event) (s : ServerState) (r : Handled) (relayed : Option (List Sent)) : Prop :=
  ∃ fuel, onMsgReceivedWith correct fuel e.clock e.locals e.sock e.msg s = some (r, relayed)

variable {correct : Correction} {s : ServerState} {accounts : Key → Option Account} {e : Event} {r : Handled}
  {relayed : Option (List Sent)} {m m' : Message} {p : Key}

/-! ### The handler of the server -/

private theorem onTextWith_fst (S : Syndromes) (fuel : ℕ) (locals : Locals) (sock : Int) (pseudo : List UInt8)
    (msg : Message) (s : ServerState) :
    (onTextWith (codeCorrectError S) fuel locals sock pseudo msg s).map Prod.fst =
      onText S fuel locals sock pseudo msg s := by
  unfold onTextWith onText
  cases findClient fuel s pseudo with
  | none => rfl
  | some found =>
    simp only [Option.bind_eq_bind, Option.bind_some]
    cases codeCorrectError S msg with
    | none => rfl
    | some fixed =>
      simp only [Option.bind_some]
      split
      · split
        · cases broadcastMsgToAllConnectedClients found.1 sock fixed.1 locals.newMsg <;> rfl
        · rfl
      · rfl

theorem onMsgReceivedWith_fst (S : Syndromes) (fuel : ℕ) (clock : Clock) (locals : Locals) (sock : Int)
    (msg : Message) (s : ServerState) :
    (onMsgReceivedWith (codeCorrectError S) fuel clock locals sock msg s).map Prod.fst =
      onMsgReceived S fuel clock locals sock msg s := by
  unfold onMsgReceivedWith onMsgReceived
  cases cstr msg.srcPseudo with
  | none => rfl
  | some pseudo =>
    simp only [Option.bind_eq_bind, Option.bind_some]
    split
    · rfl
    · split
      · cases onConnection fuel clock locals sock pseudo msg s <;> rfl
      · split
        · exact onTextWith_fst S fuel locals sock pseudo msg s
        · rfl

theorem codeCorrectError_keepsHeader (S : Syndromes) : KeepsHeader (codeCorrectError S) := by
  intro m m' rc h
  have hinv : ∀ (l : List ℕ) (st st' : Message × Int), SameHeader m st.1 → l.foldlM (correctByte S) st = some st' →
      SameHeader m st'.1 := by
    intro l st st' hst
    refine Loop.foldlM_of_some (fun st : Message × Int => SameHeader m st.1) (fun i st st' hst hstep => ?_) l hst
    obtain ⟨msg, control, error, heq⟩ := hst
    unfold correctByte at hstep
    split at hstep
    · dsimp only at hstep
      split at hstep <;>
      · obtain rfl := Option.some.inj hstep
        rw [heq]
        exact ⟨_, _, _, rfl⟩
    · cases hstep
  exact hinv _ (m, 0) (m', rc) ⟨m.msg, m.control, m.error, rfl⟩ h

/-- So does the correction of a message that `code_insert_error` has changed before. -/
theorem noisy_keepsHeader (S : Syndromes) (rands : ℕ → ℕ) :
    KeepsHeader fun m => (codeInsertError rands m).bind (codeCorrectError S) := by
  intro m m' rc h
  obtain ⟨m₁, hinsert, hcorrect⟩ := Option.bind_eq_some_iff.1 h
  have hnoise : SameHeader m m₁ := by
    refine Loop.foldlM_of_some (SameHeader m) (fun i m₁ m₂ hm hstep => ?_) _ ⟨m.msg, m.control, m.error, rfl⟩ hinsert
    obtain ⟨msg, control, error, rfl⟩ := hm
    unfold insertErrorByte at hstep
    split at hstep
    · obtain rfl := Option.some.inj hstep
      exact ⟨_, _, _, rfl⟩
    · cases hstep
  obtain ⟨msg, control, error, rfl⟩ := hnoise
  obtain ⟨msg', control', error', rfl⟩ := codeCorrectError_keepsHeader S _ _ _ hcorrect
  exact ⟨msg', control', error', rfl⟩

/-- The steps of the server are among those with some correction. -/
theorem Step.serve (h : Step e s r) : ∃ relayed, Serve (codeCorrectError zeroSyndromes) e s r relayed := by
  obtain ⟨fuel, hrun⟩ := h
  rw [← onMsgReceivedWith_fst] at hrun
  obtain ⟨⟨r', relayed⟩, hwith, rfl⟩ := Option.map_eq_some_iff.1 hrun
  exact ⟨relayed, fuel, hwith⟩

/-! ### What it does -/

def isAck (m : Message) : Prop := m.msgType = MSG_ACK_POS ∨ m.msgType = MSG_ACK_NEG

instance (m : Message) : Decidable (isAck m) := inferInstanceAs (Decidable (_ ∨ _))

/-- A negative acknowledgment, with the next number of retransmissions. -/
structure Rejects (ack msg : Message) : Prop where
  msgType : ack.msgType = MSG_ACK_NEG
  msgId : ack.msgId = msg.msgId
  socket : ack.proxyClientSocket = msg.proxyClientSocket
  nbRetransmission : ack.nbRetransmission = msg.nbRetransmission + 1

/-- What a text of a valid pseudo is answered: it is accepted and, for the default channel, broadcast, or it has to be
sent again. -/
inductive TextServed (e : Event) (r : Handled) (relayed : Option (List Sent)) : Prop
  | accepted {ack : Message} {copies : List Sent} : Acknowledges ack e.msg → r.sent = ⟨e.sock, ack⟩ :: copies →
      (∀ m ∈ copies, m.msg.msgType = MSG_SERVER_CLIENT) →
      relayed = (if e.msg.dstFlag = MSG_FLAG_DEFAULT_CHANNEL then some copies else none) → TextServed e r relayed
  | again {ack : Message} : ¬ e.msg.nbRetransmission > 5 → Rejects ack e.msg → r.sent = [⟨e.sock, ack⟩] →
      relayed = none → TextServed e r relayed

private theorem onTextWith_served (h : Serves s accounts) (hp : ValidPseudo p) (hcorrect : KeepsHeader correct)
    {fuel : ℕ} (hrun : onTextWith correct fuel e.locals e.sock p e.msg s = some (r, relayed)) :
    r.state = s ∧ TextServed e r relayed := by
  obtain ⟨found, hfind, hrun⟩ := Option.bind_eq_some_iff.1 hrun
  obtain rfl := Option.some.inj (hfind.symm.trans (h.findClient_eq hp.validKey fuel))
  obtain ⟨⟨m, rc⟩, hfixed, hrun⟩ := Option.bind_eq_some_iff.1 hrun
  obtain ⟨msg, control, error, rfl⟩ := hcorrect _ _ _ hfixed
  dsimp only at hrun
  split at hrun
  · have hack : Acknowledges (genPositiveAckFromMsg { e.msg with msg := msg, control := control, error := error }
        e.locals.ack) e.msg := by
      constructor <;> rw [genPositiveAckFromMsg]
    split at hrun
    · rename_i hdst
      obtain ⟨copies, hcopies, hrun⟩ := Option.bind_eq_some_iff.1 hrun
      obtain ⟨hr, hrelayed⟩ := Prod.mk.inj (Option.some.inj hrun)
      obtain ⟨copy, hcopy, rfl⟩ := Option.map_eq_some_iff.1 hcopies
      subst hr
      refine ⟨rfl, .accepted hack rfl (fun m hm => ?_) (by rw [if_pos hdst, hrelayed])⟩
      obtain ⟨i, c, -, -, rfl⟩ := mem_copiesFor.1 hm
      have htype := broadcastCopy_msgType hcopy
      exact htype
    · rename_i hdst
      obtain ⟨hr, hrelayed⟩ := Prod.mk.inj (Option.some.inj hrun)
      subst hr
      exact ⟨rfl, .accepted hack rfl (fun m hm => absurd hm List.not_mem_nil) (by rw [if_neg hdst, hrelayed])⟩
  · rename_i hno
    obtain ⟨hr, hrelayed⟩ := Prod.mk.inj (Option.some.inj hrun)
    subst hr
    refine ⟨rfl, .again (fun hmany => hno (Or.inr hmany)) ?_ rfl hrelayed.symm⟩
    constructor <;> rw [genNegativeAckFromMsg]

theorem Serve.text (h : Serves s accounts) (hcorrect : KeepsHeader correct)
    (htype : e.msg.msgType = MSG_STD_CLIENT_SERVER) (hp : cstr e.msg.srcPseudo = some p)
    (hlen : MIN_NAME_LENGTH ≤ p.length) (hserve : Serve correct e s r relayed) :
    r.state = s ∧ TextServed e r relayed := by
  obtain ⟨fuel, hrun⟩ := hserve
  have hconn : ¬ e.msg.msgType = MSG_CONNECTION_CLIENT := by
    rw [htype]
    decide
  rw [onMsgReceivedWith, hp, Option.bind_eq_bind, Option.bind_some, if_neg (Nat.not_lt.2 hlen), if_neg hconn,
    if_pos htype] at hrun
  exact onTextWith_served h (validPseudo_of_cstr hp hlen) hcorrect hrun

/-- The acknowledgments of any message go to its sender. -/
theorem Serve.acks (h : Serves s accounts) (hcorrect : KeepsHeader correct) (hserve : Serve correct e s r relayed) :
    (∃ accounts', Serves r.state accounts') ∧
      ∀ m ∈ r.sent, isAck m.msg → m.msg.proxyClientSocket = e.msg.proxyClientSocket := by
  obtain ⟨fuel, hrun⟩ := id hserve
  obtain ⟨p, hp, hrun⟩ := Option.bind_eq_some_iff.1 hrun
  split at hrun
  · obtain rfl := (Prod.mk.inj (Option.some.inj hrun)).1
    exact ⟨⟨accounts, h⟩, nofun⟩
  · rename_i hlen
    have hvalid := validPseudo_of_cstr hp (Nat.not_lt.1 hlen)
    split at hrun
    · obtain ⟨⟨s', sent⟩, hconn, hrun⟩ := Option.bind_eq_some_iff.1 hrun
      obtain rfl := (Prod.mk.inj (Option.some.inj hrun)).1
      rcases onConnection_cases h hvalid hconn with ⟨rfl, text, rfl⟩ | ⟨rfl, i, c, hacc⟩
      · refine ⟨⟨accounts, h⟩, fun m hm hack => ?_⟩
        rw [List.mem_singleton.1 hm, isAck, errorReply_msgType] at hack
        exact absurd hack (by decide)
      · refine ⟨⟨_, hacc.serves⟩, fun m hm hack => ?_⟩
        rw [List.mem_singleton.1 hm, isAck, connectedReply_msgType] at hack
        exact absurd hack (by decide)
    · split at hrun
      · rename_i htype
        obtain ⟨hstate, hserved⟩ := hserve.text h hcorrect htype hp hvalid.1
        refine ⟨⟨accounts, hstate ▸ h⟩, fun m hm hack => ?_⟩
        cases hserved with
        | accepted hacks hsent hcopies =>
          rw [hsent, List.mem_cons] at hm
          rcases hm with rfl | hm
          · exact hacks.socket
          · rw [isAck, hcopies m hm] at hack
            exact absurd hack (by decide)
        | again _ hrejects hsent =>
          rw [hsent, List.mem_singleton] at hm
          subst hm
          exact hrejects.socket
      · obtain rfl := (Prod.mk.inj (Option.some.inj hrun)).1
        exact ⟨⟨accounts, h⟩, nofun⟩

/-- A text that is still a string after the correction is answered. -/
theorem serve_returns (h : Serves s accounts) (hcorrect : KeepsHeader correct)
    (htype : e.msg.msgType = MSG_STD_CLIENT_SERVER) (hp : cstr e.msg.srcPseudo = some p)
    (hlen : MIN_NAME_LENGTH ≤ p.length) {rc : Int} (hfixed : correct e.msg = some (m', rc))
    (htext : cstr m'.msg ≠ none) : ∃ r relayed, Serve correct e s r relayed := by
  have hvalid := validPseudo_of_cstr hp hlen
  have hconn : ¬ e.msg.msgType = MSG_CONNECTION_CLIENT := by
    rw [htype]
    decide
  obtain ⟨text, htext⟩ := Option.ne_none_iff_exists'.1 htext
  have hpseudo : cstr m'.srcPseudo = some p := by
    obtain ⟨msg, control, error, rfl⟩ := hcorrect _ _ _ hfixed
    exact hp
  have hcopies : ∃ copies, broadcastMsgToAllConnectedClients s e.sock m' e.locals.newMsg = some copies := by
    rw [broadcastMsgToAllConnectedClients, broadcastCopy, htext, hpseudo]
    exact ⟨_, rfl⟩
  obtain ⟨copies, hcopies⟩ := hcopies
  have hrun : ∃ x, onTextWith correct 0 e.locals e.sock p e.msg s = some x := by
    unfold onTextWith
    simp only [h.findClient_eq hvalid.validKey, Option.bind_eq_bind, Option.bind_some, hfixed, hcopies]
    split
    · split <;> exact ⟨_, rfl⟩
    · exact ⟨_, rfl⟩
  obtain ⟨⟨r, relayed⟩, hrun⟩ := hrun
  refine ⟨r, relayed, 0, ?_⟩
  rw [onMsgReceivedWith, hp, Option.bind_eq_bind, Option.bind_some, if_neg (Nat.not_lt.2 hlen), if_neg hconn,
    if_pos htype]
  exact hrun

end NyanChat
