import NyanChat.Client

/-!
# Runs of a client

The messages that a client sends in any run are connection requests of the length of a code, and texts for the
default channel (`clientRun_outgoing`), whatever it receives and however often a text is sent again.
-/

namespace NyanChat

/-- What is handed to `on_stdin_client`: a line that `client.c` read from `stdin`, or the text in the line editor of
`client_ansi.c`. -/
inductive Typed : List UInt8 → ℕ → Prop
  | line {bytes : List UInt8} : bytes ≠ [] → bytes.length ≤ MAX_MSG_LENGTH → Typed (stdinBuffer bytes) bytes.length
  | input {text : List UInt8} : text.length < MAX_MSG_LENGTH → Typed (text ++ [0]) text.length

/-- The states a client reaches, with the messages it sent. -/
inductive ClientRun : List Message → ClientState → Prop
  | start (codes : List UInt8 → Option (List UInt8)) : ClientRun [] (initClientState codes)
  | typed {out sent : List Message} {c c' : ClientState} {buffer : List UInt8} {len : ℕ} {rands : ℕ → ℕ}
      {memory : ℕ → Message} : ClientRun out c → Typed buffer len →
      onStdinClient rands memory c buffer len = some (c', sent) → ClientRun (out ++ sent) c'
  | received {out sent : List Message} {c c' : ClientState} {msg : Message} : ClientRun out c →
      onMsgClient c msg = some (c', sent) → ClientRun (out ++ sent) c'

/-- A connection request or a text for the default channel. -/
def Outgoing (m : Message) : Prop :=
  m.msgLength.toNat ≤ MAX_MSG_LENGTH ∧
    (m.msgType = MSG_CONNECTION_CLIENT ∧ m.msgLength ≠ 0 ∨
      m.msgType = MSG_STD_CLIENT_SERVER ∧ m.dstFlag = MSG_FLAG_DEFAULT_CHANNEL)

/-- Each slot is free or holds a message to send. -/
structure Waiting (c : ClientState) : Prop where
  dest : c.typeCurrentDest = MSG_FLAG_DEFAULT_CHANNEL
  slots : ∀ m ∈ c.msgWaitingAck, m.msgType = MSG_NULL ∨ Outgoing m

variable {c c' : ClientState} {m msg : Message} {sent : List Message} {buffer : List UInt8} {len : ℕ}

theorem Typed.length_le (h : Typed buffer len) : len ≤ MAX_MSG_LENGTH := by
  cases h with
  | line _ hle => exact hle
  | input hlt => exact Nat.le_of_lt hlt

theorem toNat_ofNat_length (h : len ≤ MAX_MSG_LENGTH) : (UInt32.ofNat len).toNat = len := by
  have hmax : MAX_MSG_LENGTH = 512 := rfl
  rw [UInt32.toNat_ofNat']
  omega

/-! ### One message -/

theorem Waiting.set (h : Waiting c) (id : ℕ) (hm : m.msgType = MSG_NULL ∨ Outgoing m) (n : ℕ) :
    Waiting { c with msgWaitingAck := c.msgWaitingAck.set id m, nbMsgWaitingAck := n } := by
  refine ⟨h.dest, fun m' hm' => ?_⟩
  rcases List.mem_or_eq_of_mem_set hm' with hold | rfl
  · exact h.slots m' hold
  · exact hm

private theorem growWaiting_waiting (h : Waiting c) (memory : ℕ → Message) : Waiting (growWaiting memory c) := by
  refine ⟨h.dest, fun m hm => ?_⟩
  rcases List.mem_append.1 hm with hold | hnew
  · exact h.slots m hold
  · obtain ⟨i, -, rfl⟩ := List.mem_map.1 hnew
    exact Or.inl rfl

private theorem findNextMsgId_waiting {memory : ℕ → Message} {id : ℕ} (h : Waiting c)
    (hrun : findNextMsgId memory c = some (c', id)) : Waiting c' := by
  unfold findNextMsgId at hrun
  split at hrun
  · obtain ⟨i, -, heq⟩ := Option.map_eq_some_iff.1 hrun
    cases heq
    exact growWaiting_waiting h memory
  · obtain ⟨i, -, heq⟩ := Option.map_eq_some_iff.1 hrun
    cases heq
    exact h

/-- The text that a client sends. -/
structure TextOf (c : ClientState) (text : List UInt8) (len : ℕ) (m : Message) : Prop where
  msgType : m.msgType = MSG_STD_CLIENT_SERVER
  msgLength : m.msgLength = UInt32.ofNat len
  dstFlag : m.dstFlag = c.typeCurrentDest
  msg : cstr m.msg = some text
  srcPseudo : cstr m.srcPseudo = cstr c.pseudo

theorem strcpy_cstr {n : ℕ} {a b : Vector UInt8 n} {s : List UInt8} (hs : 0 ∉ s)
    (h : strcpy a s = some b) : cstr b = some s := by
  unfold strcpy at h
  split at h
  · cases h
    exact cstr_overlay a hs (by assumption)
  · cases h

theorem textSlot_spec {id : ℕ} {slot : Message} (h : textSlot c id slot buffer len = some m) :
    ∃ text, stringIn buffer = some text ∧ TextOf c text len m := by
  obtain ⟨pseudo, hpseudo, h⟩ := Option.bind_eq_some_iff.1 h
  obtain ⟨srcPseudo, hsrc, h⟩ := Option.bind_eq_some_iff.1 h
  obtain ⟨dest, -, h⟩ := Option.bind_eq_some_iff.1 h
  obtain ⟨dst, -, h⟩ := Option.bind_eq_some_iff.1 h
  obtain ⟨text, htext, h⟩ := Option.bind_eq_some_iff.1 h
  obtain ⟨msg, hmsg, h⟩ := Option.bind_eq_some_iff.1 h
  obtain rfl := Option.some.inj h
  refine ⟨text, htext, ?_, ?_, ?_, ?_, ?_⟩
  · rfl
  · rfl
  · rfl
  · exact strcpy_cstr (stringIn_eq_some htext).1 hmsg
  · rw [hpseudo]
    exact strcpy_cstr (cstr_spec hpseudo).1 hsrc

/-- A sent text is the line, from the pseudo of the client. -/
theorem clientSendMessage_spec {memory : ℕ → Message}
    (hrun : clientSendMessage memory c buffer len = some (c', sent)) :
    ∃ text m, stringIn buffer = some text ∧ sent = [m] ∧ TextOf c text len m := by
  obtain ⟨⟨c₁, id⟩, hfind, hrun⟩ := Option.bind_eq_some_iff.1 hrun
  obtain ⟨slot, -, hrun⟩ := Option.bind_eq_some_iff.1 hrun
  obtain ⟨m, hslot, hrun⟩ := Option.bind_eq_some_iff.1 hrun
  obtain ⟨text, htext, hm⟩ := textSlot_spec hslot
  have hsame : c₁.typeCurrentDest = c.typeCurrentDest ∧ c₁.pseudo = c.pseudo := by
    unfold findNextMsgId at hfind
    split at hfind <;> obtain ⟨i, -, heq⟩ := Option.map_eq_some_iff.1 hfind <;> cases heq <;> exact ⟨rfl, rfl⟩
  cases hrun
  exact ⟨text, m, htext, rfl, hm.msgType, hm.msgLength, hm.dstFlag.trans hsame.1, hm.msg,
    hm.srcPseudo.trans (congrArg cstr hsame.2)⟩

theorem TextOf.outgoing {text : List UInt8} (h : TextOf c text len m) (hc : Waiting c) (hlen : len ≤ MAX_MSG_LENGTH) :
    Outgoing m := by
  refine ⟨?_, Or.inr ⟨h.msgType, h.dstFlag.trans hc.dest⟩⟩
  rw [h.msgLength, toNat_ofNat_length hlen]
  exact hlen

private theorem clientSendMessage_waiting (h : Waiting c) (hlen : len ≤ MAX_MSG_LENGTH) {memory : ℕ → Message}
    (hrun : clientSendMessage memory c buffer len = some (c', sent)) : Waiting c' ∧ ∀ m ∈ sent, Outgoing m := by
  obtain ⟨text, m', -, rfl, htext⟩ := clientSendMessage_spec hrun
  have hm := htext.outgoing h hlen
  obtain ⟨⟨c₁, id⟩, hfind, hrun⟩ := Option.bind_eq_some_iff.1 hrun
  obtain ⟨slot, -, hrun⟩ := Option.bind_eq_some_iff.1 hrun
  obtain ⟨m, -, hrun⟩ := Option.bind_eq_some_iff.1 hrun
  cases hrun
  refine ⟨(findNextMsgId_waiting h hfind).set id (Or.inr hm) _, fun m hmem => ?_⟩
  rw [List.mem_singleton.1 hmem]
  exact hm

private theorem connectionSlot_outgoing {slot : Message} {pseudo code : List UInt8}
    (h : connectionSlot slot pseudo code = some m) : Outgoing m := by
  obtain ⟨srcPseudo, -, h⟩ := Option.bind_eq_some_iff.1 h
  obtain ⟨text, -, h⟩ := Option.bind_eq_some_iff.1 h
  obtain ⟨msg, -, h⟩ := Option.bind_eq_some_iff.1 h
  obtain rfl := Option.some.inj h
  have hlength : (UInt32.ofNat CODE_LENGTH).toNat ≤ MAX_MSG_LENGTH := by decide
  have hnonzero : UInt32.ofNat CODE_LENGTH ≠ 0 := by decide
  exact ⟨hlength, Or.inl ⟨rfl, hnonzero⟩⟩

private theorem connectionCode_waiting (h : Waiting c) {rands : ℕ → ℕ} {path code : List UInt8}
    (hrun : connectionCode rands c path = some (c', code)) : Waiting c' := by
  unfold connectionCode at hrun
  split at hrun
  · cases hrun
    exact ⟨h.dest, h.slots⟩
  · split at hrun
    · cases hrun
      exact h
    · cases hrun

private theorem requestConnection_waiting (h : Waiting c) {rands : ℕ → ℕ}
    (hrun : requestConnection rands c buffer = some (c', sent)) : Waiting c' ∧ ∀ m ∈ sent, Outgoing m := by
  obtain ⟨text, -, hrun⟩ := Option.bind_eq_some_iff.1 hrun
  obtain ⟨pseudo, -, hrun⟩ := Option.bind_eq_some_iff.1 hrun
  obtain ⟨⟨c₁, code⟩, hcode, hrun⟩ := Option.bind_eq_some_iff.1 hrun
  obtain ⟨slot, -, hrun⟩ := Option.bind_eq_some_iff.1 hrun
  obtain ⟨m, hm, hrun⟩ := Option.bind_eq_some_iff.1 hrun
  cases hrun
  have hc₁ : Waiting c₁ := connectionCode_waiting (c := { c with pseudo := pseudo }) ⟨h.dest, h.slots⟩ hcode
  have hout := connectionSlot_outgoing hm
  have hset := hc₁.set 0 (Or.inr hout) (c₁.nbMsgWaitingAck + 1)
  refine ⟨⟨hset.dest, hset.slots⟩, fun m' hm' => ?_⟩
  rw [List.mem_singleton.1 hm']
  exact hout

theorem onStdinClient_waiting (h : Waiting c) (htyped : Typed buffer len) {rands : ℕ → ℕ} {memory : ℕ → Message}
    (hrun : onStdinClient rands memory c buffer len = some (c', sent)) : Waiting c' ∧ ∀ m ∈ sent, Outgoing m := by
  have hquiet : some (c, []) = some (c', sent) → Waiting c' ∧ ∀ m ∈ sent, Outgoing m := by
    intro heq
    cases heq
    exact ⟨h, fun m hm => absurd hm List.not_mem_nil⟩
  unfold onStdinClient at hrun
  split at hrun
  · cases hrun
  · split at hrun
    · exact hquiet hrun
    · exact requestConnection_waiting h hrun
  · split at hrun
    · exact clientSendMessage_waiting h htyped.length_le hrun
    · exact hquiet hrun

private theorem clean_waiting (h : Waiting c) (id : ℕ) (slot : Message) : Waiting (c.clean id slot) :=
  h.set id (Or.inl (by rw [initEmptyMessage])) c.nbMsgWaitingAck

private theorem onConnectionError_waiting (h : Waiting c) (hrun : onConnectionError c msg = some c') :
    Waiting c' := by
  obtain ⟨pseudo, -, hrun⟩ := Option.bind_eq_some_iff.1 hrun
  have hc : Waiting { c with
      codes := Function.update c.codes (PATH_CLI_CODES ++ pseudo) none
      pseudo := overlay c.pseudo [0]
      waitingPseudoConfirmation := false } := ⟨h.dest, h.slots⟩
  dsimp only at hrun
  split at hrun
  · obtain ⟨slot, -, rfl⟩ := Option.map_eq_some_iff.1 hrun
    split
    · exact hc
    · exact clean_waiting hc _ slot
  · rw [← Option.some.inj hrun]
    exact hc

/-- An acknowledgment is about a message that was sent. -/
private theorem acknowledged_outgoing (h : Waiting c) {id : ℕ} {slot : Message}
    (hack : acknowledged c msg = some (some (id, slot))) : Outgoing slot := by
  unfold acknowledged at hack
  split at hack
  · cases hack
  · obtain ⟨m, hm, heq⟩ := Option.map_eq_some_iff.1 hack
    split at heq
    · cases heq
    · rename_i hnull
      obtain ⟨-, rfl⟩ := Prod.mk.inj (Option.some.inj heq)
      exact (h.slots m (List.mem_of_getElem? hm)).resolve_left hnull

theorem onMsgClient_waiting (h : Waiting c) (hrun : onMsgClient c msg = some (c', sent)) :
    Waiting c' ∧ ∀ m ∈ sent, Outgoing m := by
  have hquiet : ∀ {d : ClientState}, Waiting d → some (d, []) = some (c', sent) →
      Waiting c' ∧ ∀ m ∈ sent, Outgoing m := by
    intro d hd heq
    cases heq
    exact ⟨hd, fun m hm => absurd hm List.not_mem_nil⟩
  unfold onMsgClient at hrun
  split at hrun
  · split at hrun
    · obtain ⟨d, hd, heq⟩ := Option.map_eq_some_iff.1 hrun
      exact hquiet (onConnectionError_waiting h hd) (congrArg some heq)
    · have hconn : Waiting { c with connected := true, waitingPseudoConfirmation := false } := ⟨h.dest, h.slots⟩
      split at hrun
      · exact hquiet hconn hrun
      · exact hquiet h hrun
  · split at hrun
    · split at hrun
      · obtain ⟨a, hack, heq⟩ := Option.map_eq_some_iff.1 hrun
        cases a with
        | none => exact hquiet h (congrArg some heq)
        | some a =>
          -- the slot is sent again, with the number of its retransmissions
          obtain ⟨id, slot⟩ := a
          have hout := acknowledged_outgoing h hack
          have hslot : Outgoing { slot with nbRetransmission := msg.nbRetransmission } := hout
          cases heq
          refine ⟨h.set id (Or.inr hslot) c.nbMsgWaitingAck, fun m hm => ?_⟩
          rw [List.mem_singleton.1 hm]
          exact hslot
      · split at hrun
        · obtain ⟨a, hack, heq⟩ := Option.map_eq_some_iff.1 hrun
          cases a with
          | none => exact hquiet h (congrArg some heq)
          | some a => exact hquiet (clean_waiting h a.1 a.2) (congrArg some heq)
        · exact hquiet h hrun
    · exact hquiet h hrun

/-! ### Runs -/

theorem initClientState_waiting (codes : List UInt8 → Option (List UInt8)) : Waiting (initClientState codes) := by
  refine ⟨rfl, fun m hm => Or.inl ?_⟩
  rw [List.eq_of_mem_replicate hm]

theorem clientRun_waiting {out : List Message} (h : ClientRun out c) : Waiting c := by
  induction h with
  | start codes => exact initClientState_waiting codes
  | typed _ htyped hrun ih => exact (onStdinClient_waiting ih htyped hrun).1
  | received _ hrun ih => exact (onMsgClient_waiting ih hrun).1

/-- Whatever a client sends is a connection request or a text for the default channel. -/
theorem clientRun_outgoing {out : List Message} (h : ClientRun out c) : ∀ m ∈ out, Outgoing m := by
  induction h with
  | start codes => exact fun m hm => absurd hm List.not_mem_nil
  | typed hprev htyped hrun ih =>
    intro m hm
    rcases List.mem_append.1 hm with hold | hnew
    · exact ih m hold
    · exact (onStdinClient_waiting (clientRun_waiting hprev) htyped hrun).2 m hnew
  | received hprev hrun ih =>
    intro m hm
    rcases List.mem_append.1 hm with hold | hnew
    · exact ih m hold
    · exact (onMsgClient_waiting (clientRun_waiting hprev) hrun).2 m hnew

/-! ### Small runs -/

/-- A text entered in `client_ansi.c`, with memory and `rand()` giving zeros. -/
def enter (text : String) (c : ClientState) : Option (ClientState × List Message) :=
  onStdinClient (fun _ => 0) (fun _ => Message.zero) c (ascii text ++ [0]) (ascii text).length

def wellConnected : Message := { Message.zero with msgType := MSG_WELL_CONNECTED }

/-- A client without code files asks for a pseudo and is accepted. -/
def joined (pseudo : String) : Option ClientState :=
  (enter pseudo (initClientState fun _ => none)).bind fun r => (onMsgClient r.1 wellConnected).map Prod.fst

theorem joined_clientRun {pseudo : String} (hlen : (ascii pseudo).length < MAX_MSG_LENGTH)
    (h : joined pseudo = some c) : ∃ out, ClientRun out c := by
  obtain ⟨⟨c₁, sent₁⟩, h₁, h⟩ := Option.bind_eq_some_iff.1 h
  obtain ⟨⟨c₂, sent₂⟩, h₂, rfl⟩ := Option.map_eq_some_iff.1 h
  exact ⟨_, ((ClientRun.start _).typed (.input hlen) h₁).received h₂⟩

end NyanChat
