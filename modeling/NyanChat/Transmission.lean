import NyanChat.Broadcast
import NyanChat.ClientRuns
import NyanChat.Proxy

/-!
# A text on its way

A text goes from a client through the noise of the proxy to the server.  The clients never add control bits and the
server never creates its syndrome table, so every disturbed text is accepted as it is: the text arrives exactly when
the noise spares all its bytes (`text_kept_iff`).
-/

namespace NyanChat

variable {s : ServerState} {accounts : Key → Option Account} {hist : List Exchange} {r : Handled} {text : List UInt8}

/-! ### Through the proxy -/

/-- The string of a disturbed message is the one before when the noise spares its bytes. -/
theorem cstr_disturbed_iff {m : Message} (htext : cstr m.msg = some text) (rands : ℕ → ℕ) (k : ℕ) :
    cstr (disturbed rands m k).msg = some text ↔ ∀ i ≤ text.length, i < k → TextSpared rands i := by
  have hlen : text.length < MAX_MSG_LENGTH := (cstr_spec htext).2.1
  rw [cstr_eq_iff htext]
  have hbyte : ∀ i (hi : i < MAX_MSG_LENGTH),
      (disturbed rands m k).msg[i] = m.msg[i] ↔ (i < k → TextSpared rands i) := by
    intro i hi
    rw [disturbed, Loop.getElem_written]
    split
    · rename_i hik
      exact (noisyByte_eq_iff rands m ⟨i, hi⟩).trans ⟨fun h _ => h, fun h => h hik⟩
    · rename_i hik
      exact ⟨fun _ h => absurd h hik, fun _ => rfl⟩
  constructor
  · intro h i hi
    exact (hbyte i (Nat.lt_of_le_of_lt hi hlen)).1 (h i (Nat.lt_of_le_of_lt hi hlen) hi)
  · intro h i hi his
    exact (hbyte i hi).2 (h i his)

/-- The noise that the proxy adds to a text of this length flips no bit of the text and of its NUL. -/
def Undisturbed (rands : ℕ → ℕ) (len : ℕ) (text : List UInt8) : Prop :=
  10 ≤ len → ∀ i ≤ text.length, i < len → TextSpared rands i

/-! ### At the server -/

/-- The server refuses the text, or acknowledges it and sends copies of it to its clients. -/
def AnsweredRight (text : List UInt8) (s : ServerState) (sock : Int) (r : Handled) : Prop :=
  (∃ ack, r.sent = [⟨sock, ack⟩] ∧ ack.msgType = MSG_ACK_NEG) ∨
    ∃ ack copy, r.sent = ⟨sock, ack⟩ :: copiesFor s sock copy ∧ ack.msgType = MSG_ACK_POS ∧ cstr copy.msg = some text

/-- Copies for a table with a connected client tell their text. -/
private theorem copiesFor_text {sock : Int} {copy copy' : Message} (hsome : SomeoneConnected s)
    (h : copiesFor s sock copy = copiesFor s sock copy') : copy.msg = copy'.msg := by
  obtain ⟨i, c, hc, hconn⟩ := hsome
  have hmem : (⟨sock, { copy with proxyClientSocket := c.idPollSocketProxy }⟩ : Sent) ∈ copiesFor s sock copy :=
    mem_copiesFor.2 ⟨i, c, hc, hconn, rfl⟩
  rw [h, mem_copiesFor] at hmem
  obtain ⟨j, d, -, -, heq⟩ := hmem
  exact congrArg (fun m : Sent => m.msg.msg) heq

private theorem onText_returns (h : Serves s accounts) {p : Key} (hp : ValidPseudo p) {msg : Message}
    (hlen : msg.msgLength.toNat ≤ MAX_MSG_LENGTH) (htext : cstr msg.msg = some text)
    (hsrc : cstr msg.srcPseudo = some p) (fuel : ℕ) (locals : Locals) (sock : Int) :
    ∃ r, onText zeroSyndromes fuel locals sock p msg s = some r := by
  have hcorrect := codeCorrectError_eq zeroSyndromes hlen
  have hfixed := codeCorrectError_zero hcorrect
  rw [hfixed] at hcorrect
  unfold onText
  simp only [h.findClient_eq hp.validKey, hcorrect, Option.bind_eq_bind, Option.bind_some, true_or, if_true]
  split
  · simp only [broadcastMsgToAllConnectedClients, broadcastCopy, htext, hsrc, Option.bind_eq_bind, Option.bind_some]
    exact ⟨_, rfl⟩
  · exact ⟨_, rfl⟩

/-- A text for the default channel is answered right when it is the one that was sent. -/
theorem answeredRight_iff (h : Tracked hist s accounts) {p : Key} (hp : lastAccepted p hist ≠ none) {msg : Message}
    (htype : msg.msgType = MSG_STD_CLIENT_SERVER) (hdst : msg.dstFlag = MSG_FLAG_DEFAULT_CHANNEL)
    (hlen : msg.msgLength.toNat ≤ MAX_MSG_LENGTH) (hsrc : cstr msg.srcPseudo = some p) (fuel : ℕ) (clock : Clock)
    (locals : Locals) (sock : Int) :
    (∃ r, onMsgReceived zeroSyndromes fuel clock locals sock msg s = some r ∧ AnsweredRight text s sock r) ↔
      cstr msg.msg = some text := by
  obtain ⟨i, c, hc⟩ : ∃ i c, accounts p = some (i, c) := by
    cases hacc : accounts p with
    | none => exact absurd (h.absent p hacc) hp
    | some a => exact ⟨a.1, a.2, rfl⟩
  obtain ⟨hvalid, -, hconn⟩ := h.serves.pseudo p i c hc
  have hsome : SomeoneConnected s := ⟨i, c, (h.serves.clients i c).2 ⟨p, hc⟩, hconn⟩
  have hhandler : onMsgReceived zeroSyndromes fuel clock locals sock msg s =
      onText zeroSyndromes fuel locals sock p msg s := by
    have hnot : ¬ p.length < MIN_NAME_LENGTH := Nat.not_lt.2 hvalid.1
    have hother : ¬ MSG_STD_CLIENT_SERVER = MSG_CONNECTION_CLIENT := by decide
    simp [onMsgReceived, hsrc, hnot, htype, hother]
  have hrelays : ∀ {r}, onText zeroSyndromes fuel locals sock p msg s = some r →
      Relays ⟨clock, locals, sock, msg⟩ s r.sent := fun hrun =>
    onText_relays (e := ⟨clock, locals, sock, msg⟩) h.serves hvalid hrun
  rw [hhandler]
  constructor
  · rintro ⟨r, hrun, hright⟩
    obtain ⟨ack, copies, hsent, hack, hcopies⟩ := hrelays hrun
    rw [if_pos hdst] at hcopies
    obtain ⟨copy, hcopy, rfl⟩ := hcopies
    obtain ⟨text', htext', hcopytext⟩ := broadcastCopy_text hcopy
    rcases hright with ⟨ack', hsent', hack'⟩ | ⟨ack', copy', hsent', hack', htext⟩
    · -- the table without patterns never refuses
      rw [hsent] at hsent'
      have hsame : ack = ack' := congrArg Sent.msg (List.cons.inj hsent').1
      have htype := hack.msgType
      rw [hsame, hack'] at htype
      exact absurd htype (by decide)
    · rw [hsent] at hsent'
      have hcopy := copiesFor_text hsome (List.cons.inj hsent').2
      rw [hcopy, htext] at hcopytext
      rw [Option.some.inj hcopytext]
      exact htext'
  · intro htext
    obtain ⟨r, hrun⟩ := onText_returns h.serves hvalid hlen htext hsrc fuel locals sock
    refine ⟨r, hrun, Or.inr ?_⟩
    obtain ⟨ack, copies, hsent, hack, hcopies⟩ := hrelays hrun
    rw [if_pos hdst] at hcopies
    obtain ⟨copy, hcopy, rfl⟩ := hcopies
    obtain ⟨text', htext', hcopytext⟩ := broadcastCopy_text hcopy
    have hsame : text' = text := Option.some.inj (htext'.symm.trans htext)
    exact ⟨ack, copy, hsent, hack.msgType, hsame ▸ hcopytext⟩

/-! ### From a client -/

/-- A text that a connected client sends is answered right exactly when the noise spares it. -/
theorem text_kept_iff {out : List Message} {c c' : ClientState} {p : Key} (hclient : ClientRun out c)
    (hpseudo : cstr c.pseudo = some p) {buffer : List UInt8} {len : ℕ} (htyped : Typed buffer len)
    (htext : stringIn buffer = some text) {memory : ℕ → Message} {m : Message}
    (hsend : clientSendMessage memory c buffer len = some (c', [m])) {rands : ℕ → ℕ} {serverFd : Int} {idPoll : Int32}
    {read msg : Message}
    (hproxy : onClientReceived rands serverFd { m with proxyClientSocket := idPoll } = some (read, [⟨serverFd, msg⟩]))
    (hserver : Run hist s) (hconnected : lastAccepted p hist ≠ none) (fuel : ℕ) (clock : Clock) (locals : Locals)
    (sock : Int) :
    (∃ r, onMsgReceived zeroSyndromes fuel clock locals sock msg s = some r ∧ AnsweredRight text s sock r) ↔
      Undisturbed rands len text := by
  obtain ⟨accounts, htracked⟩ := run_tracked hserver
  obtain ⟨text', m', htext', heq, hm⟩ := clientSendMessage_spec hsend
  obtain rfl := (List.cons.inj heq).1
  obtain rfl := Option.some.inj (htext.symm.trans htext')
  have hmsg : msg = throughNoise rands { m with proxyClientSocket := idPoll } := by
    have hsent := (onClientReceived_sent hproxy).resolve_left (List.cons_ne_nil _ _)
    exact congrArg Sent.msg (List.cons.inj hsent).1
  have hlength : m.msgLength.toNat = len := by rw [hm.msgLength, toNat_ofNat_length htyped.length_le]
  have hlong : 10 ≤ m.msgLength ↔ 10 ≤ len := by
    rw [UInt32.le_iff_toNat_le, hlength]
    rfl
  have hnoisy : noisyLength { m with proxyClientSocket := idPoll } = if 10 ≤ len then len else 0 := by
    rw [noisyLength]
    simp only [hm.msgType, hlong, hlength, true_and]
  have hsrc : cstr (throughNoise rands { m with proxyClientSocket := idPoll }).srcPseudo = some p := by
    rw [throughNoise, disturbed_srcPseudo]
    exact hm.srcPseudo.trans hpseudo
  have hdst : (throughNoise rands { m with proxyClientSocket := idPoll }).dstFlag = MSG_FLAG_DEFAULT_CHANNEL := by
    rw [throughNoise, disturbed_dstFlag]
    exact hm.dstFlag.trans (clientRun_waiting hclient).dest
  have hlen : (throughNoise rands { m with proxyClientSocket := idPoll }).msgLength.toNat ≤ MAX_MSG_LENGTH := by
    rw [throughNoise, disturbed_msgLength]
    exact hlength.trans_le htyped.length_le
  have htype : (throughNoise rands { m with proxyClientSocket := idPoll }).msgType = MSG_STD_CLIENT_SERVER := by
    rw [throughNoise, disturbed_msgType]
    exact hm.msgType
  -- the noise is all that can change the string of the message
  rw [hmsg, answeredRight_iff htracked hconnected htype hdst hlen hsrc fuel clock locals sock, throughNoise, hnoisy,
    cstr_disturbed_iff (m := { m with proxyClientSocket := idPoll }) hm.msg, Undisturbed]
  split
  · rename_i h10
    exact ⟨fun h _ => h, fun h => h h10⟩
  · rename_i h10
    exact ⟨fun _ h => absurd h h10, fun _ i _ hi => absurd hi (Nat.not_lt_zero i)⟩

/-! ### A run -/

/-- What the server makes of a line that alice types, after she connected. -/
def aliceSays (rands : ℕ → ℕ) (line : List UInt8) : Option (List (Int32 × Option (List UInt8))) :=
  (joined "alice").bind fun c =>
    (clientSendMessage (fun _ => Message.zero) c (stdinBuffer line) line.length).bind fun sent =>
      sent.2.head?.bind fun m =>
        (onClientReceived rands 4 { m with proxyClientSocket := 2 }).bind fun read =>
          read.2.head?.bind fun x =>
            (handle (eventOn 5 (connectionRequest "alice" "secret" 2)) freshServer).bind fun r =>
              (handle (eventOn 5 x.msg) r.state).map fun r => r.sent.map fun m => (m.msg.msgType, cstr m.msg.msg)

/-- A call of `rand()` that flips the first bit of the first codeword, and no others that flip one. -/
def oneFlip (n : ℕ) : ℕ := if n = 0 then 0 else RAND_MAX

private theorem alice_joined : (joined "alice").map (fun c => cstr c.pseudo) = some (some (ascii "alice")) := by
  decide +kernel

/-- The parts of such a run. -/
private theorem aliceSays_spec {rands : ℕ → ℕ} {line : List UInt8} {sent : List (Int32 × Option (List UInt8))}
    (h : aliceSays rands line = some sent) :
    ∃ out c c' m read msg hist s r, ClientRun out c ∧ cstr c.pseudo = some (ascii "alice") ∧
      clientSendMessage (fun _ => Message.zero) c (stdinBuffer line) line.length = some (c', [m]) ∧
      onClientReceived rands 4 { m with proxyClientSocket := 2 } = some (read, [⟨4, msg⟩]) ∧
      Run hist s ∧ lastAccepted (ascii "alice") hist ≠ none ∧ handle (eventOn 5 msg) s = some r ∧
      r.sent.map (fun m => (m.msg.msgType, cstr m.msg.msg)) = sent := by
  obtain ⟨c, hjoined, h⟩ := Option.bind_eq_some_iff.1 h
  obtain ⟨⟨c', out⟩, hsend, h⟩ := Option.bind_eq_some_iff.1 h
  obtain ⟨m, hm, h⟩ := Option.bind_eq_some_iff.1 h
  obtain ⟨⟨read, out'⟩, hproxy, h⟩ := Option.bind_eq_some_iff.1 h
  obtain ⟨x, hx, h⟩ := Option.bind_eq_some_iff.1 h
  obtain ⟨r, hr, h⟩ := Option.bind_eq_some_iff.1 h
  obtain ⟨r', hr', hsent⟩ := Option.map_eq_some_iff.1 h
  obtain ⟨out₀, hclient⟩ := joined_clientRun (by decide) hjoined
  obtain ⟨c₀, hc₀, hpseudo⟩ := Option.map_eq_some_iff.1 alice_joined
  obtain rfl := Option.some.inj (hjoined.symm.trans hc₀)
  obtain ⟨text, m', -, rfl, htext⟩ := clientSendMessage_spec hsend
  obtain rfl := Option.some.inj hm
  obtain ⟨r₁, hr₁, hacc⟩ := alice_accepted
  obtain rfl := Option.some.inj (hr.symm.trans hr₁)
  have hlast : lastAccepted (ascii "alice") [(eventOn 5 (connectionRequest "alice" "secret" 2), r.sent)] ≠ none := by
    rw [lastAccepted_cons, if_pos hacc]
    exact Option.some_ne_none _
  have hout : out' = [⟨4, x.msg⟩] := by
    rcases onClientReceived_sent hproxy with rfl | rfl
    · cases hx
    · rw [← Option.some.inj hx]
  rw [hout] at hproxy
  exact ⟨out₀, c, c', m', read, x.msg, _, _, r', hclient, hpseudo, hsend, hproxy,
    Run.step run_freshServer ⟨20, hr⟩, hlast, hr', hsent⟩

private theorem hello_is_disturbed :
    aliceSays oneFlip (ascii "hello cat\n") =
      some [(MSG_ACK_POS, some []), (MSG_SERVER_CLIENT, some (0xe8 :: ascii "ello cat"))] := by
  decide +kernel

/-- A call of `rand()` that flips the first control bit of the first codeword, and no others that flip one. -/
def controlFlip (n : ℕ) : ℕ := if n = 8 then 0 else RAND_MAX

private theorem controlFlip_spares (i : ℕ) : TextSpared controlFlip i := by
  intro b hb
  rw [controlFlip, if_neg (by omega)]
  decide

private theorem hello_is_kept :
    aliceSays controlFlip (ascii "hello cat\n") =
      some [(MSG_ACK_POS, some []), (MSG_SERVER_CLIENT, some (ascii "hello cat"))] := by
  decide +kernel

theorem text_kept_iff_alice :
    ∃ out c c' m read msg hist s r, ClientRun out c ∧
      clientSendMessage (fun _ => Message.zero) c (stdinBuffer (ascii "hello cat\n")) 10 = some (c', [m]) ∧
      onClientReceived controlFlip 4 { m with proxyClientSocket := 2 } = some (read, [⟨4, msg⟩]) ∧ Run hist s ∧
      handle (eventOn 5 msg) s = some r ∧ AnsweredRight (ascii "hello cat") s 5 r := by
  obtain ⟨out, c, c', m, read, msg, hist, s, r, hclient, hpseudo, hsend, hproxy, hserver, hlast, hr, -⟩ :=
    aliceSays_spec hello_is_kept
  have hline : ascii "hello cat\n" ≠ [] := List.cons_ne_nil _ _
  have htyped : Typed (stdinBuffer (ascii "hello cat\n")) 10 := .line hline (by decide)
  have htext : stringIn (stdinBuffer (ascii "hello cat\n")) = some (ascii "hello cat") := by decide
  obtain ⟨r', hr', hright⟩ := (text_kept_iff hclient hpseudo htyped htext hsend hproxy hserver hlast 20 ⟨0, 0⟩
    (eventOn 5 msg).locals 5).2 fun _ i _ _ => controlFlip_spares i
  obtain rfl := Option.some.inj (hr.symm.trans hr')
  exact ⟨out, c, c', m, read, msg, hist, s, r, hclient, hsend, hproxy, hserver, hr, hright⟩

private theorem oneFlip_le_two (i : ℕ) : ((List.range 16).countP fun b => isNoise (oneFlip (16 * i + b))) ≤ 2 := by
  have hfirst : ∀ b ∈ List.range 16, isNoise (oneFlip (16 * i + b)) = true → decide (b = 0) = true := by
    intro b _ hb
    rw [decide_eq_true_iff]
    by_contra hne
    rw [oneFlip, if_neg (by omega)] at hb
    exact absurd hb (by decide)
  exact (List.countP_mono_left hfirst).trans (by decide)

/-- One flipped bit in the first letter: the server acknowledges another text and sends copies of that. -/
theorem disturbed_text_acknowledged :
    ∃ out c c' m read msg hist s r, ClientRun out c ∧ Typed (stdinBuffer (ascii "hello cat\n")) 10 ∧
      clientSendMessage (fun _ => Message.zero) c (stdinBuffer (ascii "hello cat\n")) 10 = some (c', [m]) ∧
      (∀ i, ((List.range 16).countP fun b => isNoise (oneFlip (16 * i + b))) ≤ 2) ∧
      onClientReceived oneFlip 4 { m with proxyClientSocket := 2 } = some (read, [⟨4, msg⟩]) ∧ Run hist s ∧
      lastAccepted (ascii "alice") hist ≠ none ∧ handle (eventOn 5 msg) s = some r ∧
      (∃ ack ∈ r.sent, ack.msg.msgType = MSG_ACK_POS) ∧ ¬ AnsweredRight (ascii "hello cat") s 5 r := by
  obtain ⟨out, c, c', m, read, msg, hist, s, r, hclient, -, hsend, hproxy, hserver, hlast, hr, hsent⟩ :=
    aliceSays_spec hello_is_disturbed
  obtain ⟨ack, rest, hr₁, hack, hrest⟩ := List.map_eq_cons_iff.1 hsent
  obtain ⟨copy, others, hr₂, hcopy, -⟩ := List.map_eq_cons_iff.1 hrest
  obtain ⟨htype, -⟩ := Prod.mk.inj hack
  obtain ⟨-, hnoisy⟩ := Prod.mk.inj hcopy
  have hline : ascii "hello cat\n" ≠ [] := List.cons_ne_nil _ _
  have htyped : Typed (stdinBuffer (ascii "hello cat\n")) 10 := .line hline (by decide)
  refine ⟨out, c, c', m, read, msg, hist, s, r, hclient, htyped, hsend, oneFlip_le_two, hproxy, hserver, hlast, hr,
    ⟨ack, by rw [hr₁]; exact List.mem_cons_self, htype⟩, ?_⟩
  · rintro (⟨ack', hone, -⟩ | ⟨ack', copy', hcopies, -, htext⟩)
    · rw [hr₁, hr₂] at hone
      exact absurd (List.cons.inj hone).2 (List.cons_ne_nil _ _)
    · rw [hr₁] at hcopies
      have hmem : copy ∈ copiesFor s 5 copy' := by
        rw [← (List.cons.inj hcopies).2, hr₂]
        exact List.mem_cons_self
      obtain ⟨i, d, -, -, rfl⟩ := mem_copiesFor.1 hmem
      exact absurd (hnoisy.symm.trans htext) (by decide)

end NyanChat
