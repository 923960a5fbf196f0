import NyanChat.Broadcast
import NyanChat.ClientAnsi

/-!
# Copies of messages

A text travels with its length as a number, but the server and `copy_message` copy it with `strcpy`, up to its first
NUL.  Behind the NUL the bytes of the destination stay (`getElem_overlay_cstr`), so a copy has the bytes of the text
when the destination already held the ones behind the NUL (`copies_kept_iff`).  `copy_message` treats the control
bytes in the same way and leaves out `error` and `nb_retransmission`.
-/

namespace NyanChat

open Ansi

/-- The text of `m'`, of the length it gives, is the one of `m`. -/
def SameText (m m' : Message) : Prop :=
  m'.msgLength = m.msgLength ∧ ∀ i (h : i < MAX_MSG_LENGTH), i < m.msgLength.toNat → m'.msg[i] = m.msg[i]

/-- All copies of the text `m` that the server sends, and what the client `c` makes of them, have the text of `m`. -/
def TextKept (s : ServerState) (sock : Int) (m newMsg : Message) (memory : ℕ → Message) (c : AnsiState) : Prop :=
  ∃ sent, broadcastMsgToAllConnectedClients s sock m newMsg = some sent ∧ ∀ x ∈ sent, SameText m x.msg ∧
    ∃ fuel c' stored, onReceivedMessageDefaultChannel fuel memory c x.msg = some c' ∧
      c'.msgsDefaultChannel[c.nbMsgsDefaultChannel]? = some stored ∧ SameText m stored

/-- `copy_message` makes `dest` equal to `src`: the strings and, over the length of the text, the arrays. -/
structure SameFields (src d : Message) : Prop where
  text : SameText src d
  msgType : d.msgType = src.msgType
  msgId : d.msgId = src.msgId
  srcPseudo : cstr d.srcPseudo = cstr src.srcPseudo
  proxyClientSocket : d.proxyClientSocket = src.proxyClientSocket
  dstFlag : d.dstFlag = src.dstFlag
  dst : cstr d.dst = cstr src.dst
  control : ∀ i (h : i < MAX_MSG_LENGTH), i < src.msgLength.toNat → d.control[i] = src.control[i]
  error : ∀ i (h : i < MAX_MSG_LENGTH), i < src.msgLength.toNat → d.error[i] = src.error[i]
  nbRetransmission : d.nbRetransmission = src.nbRetransmission

/-- `src` holds a string, and behind its NUL, up to `len`, the bytes of `dst` are those of `src`. -/
def AgreeBehind (len : ℕ) (src dst : Vector UInt8 MAX_MSG_LENGTH) : Prop :=
  ∃ s, cstr src = some s ∧ ∀ i (h : i < MAX_MSG_LENGTH), s.length < i → i < len → dst[i] = src[i]

/-! ### Copying a string -/

/-- Copying the string of an array copies its bytes up to the NUL. -/
theorem getElem_overlay_cstr {n : ℕ} {a : Vector UInt8 n} {s : List UInt8} (hs : cstr a = some s) (b : Vector UInt8 n)
    {i : ℕ} (hi : i < n) : (overlay b (s ++ [0]))[i] = if i ≤ s.length then a[i] else b[i] := by
  obtain ⟨hzero, hlen, -⟩ := cstr_spec hs
  rw [getElem_overlay, List.getD_eq_getElem?_getD]
  split
  · rename_i hle
    have hcopied := (cstr_eq_iff hs).1 (cstr_overlay a hzero hlen) i hi hle
    have hlt : i < (s ++ [0]).length := by
      rw [List.length_append, List.length_singleton]
      omega
    rw [getElem_overlay, List.getD_eq_getElem?_getD, List.getElem?_eq_getElem hlt] at hcopied
    rwa [List.getElem?_eq_getElem hlt]
  · rename_i hgt
    have hle : (s ++ [0]).length ≤ i := by
      rw [List.length_append, List.length_singleton]
      omega
    rw [List.getElem?_eq_none hle]
    rfl

theorem strcpy_of_cstr {n : ℕ} {a : Vector UInt8 n} {s : List UInt8} (hs : cstr a = some s) (b : Vector UInt8 n) :
    strcpy b s = some (overlay b (s ++ [0])) := if_pos (cstr_spec hs).2.1

theorem cstr_overlay_cstr {n : ℕ} {a : Vector UInt8 n} {s : List UInt8} (hs : cstr a = some s) (b : Vector UInt8 n) :
    cstr (overlay b (s ++ [0])) = some s := cstr_overlay b (cstr_spec hs).1 (cstr_spec hs).2.1

/-- The copy of a string has the first `len` bytes of its array when the destination had those behind the NUL. -/
theorem overlay_cstr_agrees {src : Vector UInt8 MAX_MSG_LENGTH} {s : List UInt8} (hs : cstr src = some s)
    (dst : Vector UInt8 MAX_MSG_LENGTH) (len : ℕ) :
    (∀ i (h : i < MAX_MSG_LENGTH), i < len → (overlay dst (s ++ [0]))[i] = src[i]) ↔ AgreeBehind len src dst := by
  constructor
  · intro hall
    refine ⟨s, hs, fun i hi hlt hlen => ?_⟩
    have h := hall i hi hlen
    rwa [getElem_overlay_cstr hs, if_neg (Nat.not_le.2 hlt)] at h
  · rintro ⟨s', hs', hall⟩ i hi hlen
    obtain rfl := Option.some.inj (hs.symm.trans hs')
    rw [getElem_overlay_cstr hs]
    split
    · rfl
    · rename_i hgt
      exact hall i hi (Nat.not_le.1 hgt) hlen

/-! ### `copy_message` -/

variable {s : ServerState} {sock : Int} {m newMsg src dest : Message} {memory : ℕ → Message} {c : AnsiState}

/-- `copy_message` on messages with strings. -/
theorem copyMessage_eq {pseudo dst text control : List UInt8} (hpseudo : cstr src.srcPseudo = some pseudo)
    (hdst : cstr src.dst = some dst) (htext : cstr src.msg = some text) (hcontrol : cstr src.control = some control)
    (dest : Message) :
    copyMessage dest src = some { dest with
      msgType := src.msgType
      msgId := src.msgId
      srcPseudo := overlay dest.srcPseudo (pseudo ++ [0])
      proxyClientSocket := src.proxyClientSocket
      dstFlag := src.dstFlag
      dst := overlay dest.dst (dst ++ [0])
      msgLength := src.msgLength
      msg := overlay dest.msg (text ++ [0])
      control := overlay dest.control (control ++ [0]) } := by
  simp only [copyMessage, hpseudo, hdst, htext, hcontrol, Option.bind_eq_bind, Option.bind_some, strcpy_of_cstr hpseudo,
    strcpy_of_cstr hdst, strcpy_of_cstr htext, strcpy_of_cstr hcontrol]
  rfl

/-- `copy_message` comes back only when the four arrays it copies hold strings. -/
theorem strings_of_copyMessage {d : Message} (h : copyMessage dest src = some d) :
    ∃ pseudo dst text control, cstr src.srcPseudo = some pseudo ∧ cstr src.dst = some dst ∧
      cstr src.msg = some text ∧ cstr src.control = some control := by
  obtain ⟨pseudo, hpseudo, h⟩ := Option.bind_eq_some_iff.1 h
  obtain ⟨_, -, h⟩ := Option.bind_eq_some_iff.1 h
  obtain ⟨dst, hdst, h⟩ := Option.bind_eq_some_iff.1 h
  obtain ⟨_, -, h⟩ := Option.bind_eq_some_iff.1 h
  obtain ⟨text, htext, h⟩ := Option.bind_eq_some_iff.1 h
  obtain ⟨_, -, h⟩ := Option.bind_eq_some_iff.1 h
  obtain ⟨control, hcontrol, -⟩ := Option.bind_eq_some_iff.1 h
  exact ⟨pseudo, dst, text, control, hpseudo, hdst, htext, hcontrol⟩

/-- The copy of a message has its text when the destination has the bytes behind the NUL. -/
theorem copyMessage_text :
    (∃ d, copyMessage dest src = some d ∧ SameText src d) ↔
      cstr src.srcPseudo ≠ none ∧ cstr src.dst ≠ none ∧ cstr src.control ≠ none ∧
        AgreeBehind src.msgLength.toNat src.msg dest.msg := by
  constructor
  · rintro ⟨d, hd, -, hsame⟩
    obtain ⟨pseudo, dst, text, control, hpseudo, hdst, htext, hcontrol⟩ := strings_of_copyMessage hd
    obtain rfl := Option.some.inj ((copyMessage_eq hpseudo hdst htext hcontrol dest).symm.trans hd)
    exact ⟨by simp [hpseudo], by simp [hdst], by simp [hcontrol], (overlay_cstr_agrees htext dest.msg _).1 hsame⟩
  · rintro ⟨hpseudo, hdst, hcontrol, hagree⟩
    obtain ⟨pseudo, hpseudo⟩ := Option.ne_none_iff_exists'.1 hpseudo
    obtain ⟨dst, hdst⟩ := Option.ne_none_iff_exists'.1 hdst
    obtain ⟨control, hcontrol⟩ := Option.ne_none_iff_exists'.1 hcontrol
    obtain ⟨text, htext, -⟩ := id hagree
    exact ⟨_, copyMessage_eq hpseudo hdst htext hcontrol dest, rfl, (overlay_cstr_agrees htext dest.msg _).2 hagree⟩

/-- `copy_message` makes all fields equal when the destination had the bytes behind the NULs and the fields it leaves
out. -/
theorem copyMessage_fields :
    (∃ d, copyMessage dest src = some d ∧ SameFields src d) ↔
      (cstr src.srcPseudo ≠ none ∧ cstr src.dst ≠ none ∧ AgreeBehind src.msgLength.toNat src.msg dest.msg ∧
        AgreeBehind src.msgLength.toNat src.control dest.control) ∧
      (∀ i (h : i < MAX_MSG_LENGTH), i < src.msgLength.toNat → dest.error[i] = src.error[i]) ∧
      dest.nbRetransmission = src.nbRetransmission := by
  constructor
  · rintro ⟨d, hd, hsame⟩
    obtain ⟨pseudo, dst, text, control, hpseudo, hdst, htext, hcontrol⟩ := strings_of_copyMessage hd
    obtain rfl := Option.some.inj ((copyMessage_eq hpseudo hdst htext hcontrol dest).symm.trans hd)
    exact ⟨⟨by simp [hpseudo], by simp [hdst], (overlay_cstr_agrees htext dest.msg _).1 hsame.text.2,
      (overlay_cstr_agrees hcontrol dest.control _).1 hsame.control⟩, hsame.error, hsame.nbRetransmission⟩
  · rintro ⟨⟨hpseudo, hdst, hmsg, hcontrols⟩, herror, hnb⟩
    obtain ⟨pseudo, hpseudo⟩ := Option.ne_none_iff_exists'.1 hpseudo
    obtain ⟨dst, hdst⟩ := Option.ne_none_iff_exists'.1 hdst
    obtain ⟨text, htext, -⟩ := id hmsg
    obtain ⟨control, hcontrol, -⟩ := id hcontrols
    refine ⟨_, copyMessage_eq hpseudo hdst htext hcontrol dest, ?_⟩
    exact ⟨⟨rfl, (overlay_cstr_agrees htext dest.msg _).2 hmsg⟩, rfl, rfl,
      (cstr_overlay_cstr hpseudo _).trans hpseudo.symm, rfl, rfl, (cstr_overlay_cstr hdst _).trans hdst.symm,
      (overlay_cstr_agrees hcontrol dest.control _).2 hcontrols, herror, hnb⟩

/-! ### From the server to the client -/

/-- The array has room for a message after one doubling at most, and its next slot is then `dest`. -/
theorem room_spec (hslot : (growDefaultChannel memory c).msgsDefaultChannel[c.nbMsgsDefaultChannel]? = some dest)
    {fuel : ℕ} {c' : AnsiState} (h : roomDefaultChannel memory fuel c = some c') :
    c'.nbMsgsDefaultChannel = c.nbMsgsDefaultChannel ∧ c'.msgsDefaultChannel[c.nbMsgsDefaultChannel]? = some dest := by
  have hlt := (List.getElem?_eq_some_iff.1 hslot).1
  cases fuel with
  | zero => cases h
  | succ fuel =>
    rw [roomDefaultChannel] at h
    split at h
    · cases fuel with
      | zero => cases h
      | succ fuel =>
        rw [roomDefaultChannel, growDefaultChannel_nb, if_neg (Nat.not_le.2 hlt)] at h
        cases h
        exact ⟨rfl, hslot⟩
    · rename_i hroom
      cases h
      rw [growDefaultChannel, List.getElem?_append_left (Nat.not_le.1 hroom)] at hslot
      exact ⟨rfl, hslot⟩

theorem room_returns
    (hslot : (growDefaultChannel memory c).msgsDefaultChannel[c.nbMsgsDefaultChannel]? = some dest) :
    ∃ c', roomDefaultChannel memory 2 c = some c' := by
  have hlt := (List.getElem?_eq_some_iff.1 hslot).1
  by_cases hroom : c.nbMsgsDefaultChannel ≥ c.msgsDefaultChannel.length
  · exact ⟨growDefaultChannel memory c, by
      rw [roomDefaultChannel, if_pos hroom, roomDefaultChannel, growDefaultChannel_nb, if_neg (Nat.not_le.2 hlt)]⟩
  · exact ⟨c, by rw [roomDefaultChannel, if_neg hroom]⟩

/-- A message of the default channel is copied into the next slot. -/
theorem onReceived_iff (hslot : (growDefaultChannel memory c).msgsDefaultChannel[c.nbMsgsDefaultChannel]? = some dest)
    {p : Message → Prop} :
    (∃ fuel c' stored, onReceivedMessageDefaultChannel fuel memory c m = some c' ∧
        c'.msgsDefaultChannel[c.nbMsgsDefaultChannel]? = some stored ∧ p stored) ↔
      ∃ d, copyMessage dest m = some d ∧ p d := by
  constructor
  · rintro ⟨fuel, c', stored, hrun, hstored, hp⟩
    obtain ⟨c₁, hroom, hrun⟩ := Option.bind_eq_some_iff.1 hrun
    obtain ⟨hnb, hdest⟩ := room_spec hslot hroom
    obtain ⟨slot, hfound, hrun⟩ := Option.bind_eq_some_iff.1 hrun
    rw [hnb, hdest] at hfound
    cases hfound
    obtain ⟨d, hcopy, hrun⟩ := Option.bind_eq_some_iff.1 hrun
    cases hrun
    rw [← hnb] at hstored hdest
    rw [AnsiState.store, List.getElem?_set_self (List.getElem?_eq_some_iff.1 hdest).1] at hstored
    cases hstored
    exact ⟨_, hcopy, hp⟩
  · rintro ⟨d, hcopy, hp⟩
    obtain ⟨c₁, hroom⟩ := room_returns hslot
    obtain ⟨hnb, hdest⟩ := room_spec hslot hroom
    have hdest' : c₁.msgsDefaultChannel[c₁.nbMsgsDefaultChannel]? = some dest := by rw [hnb, hdest]
    refine ⟨2, c₁.store d, d, ?_, ?_, hp⟩
    · simp only [onReceivedMessageDefaultChannel, hroom, hdest', hcopy, Option.bind_eq_bind, Option.bind_some]
      rfl
    · rw [AnsiState.store, ← hnb]
      exact List.getElem?_set_self (List.getElem?_eq_some_iff.1 hdest').1

/-- The copy that the server makes of a message with these strings. -/
def copyOf (m newMsg : Message) (text pseudo : List UInt8) : Message :=
  { initEmptyMessage newMsg with
    msg := overlay newMsg.msg (text ++ [0])
    msgLength := m.msgLength
    msgType := MSG_SERVER_CLIENT
    srcPseudo := overlay (initEmptyMessage newMsg).srcPseudo (pseudo ++ [0]) }

theorem broadcastCopy_eq {text pseudo : List UInt8} (htext : cstr m.msg = some text)
    (hpseudo : cstr m.srcPseudo = some pseudo) (newMsg : Message) :
    broadcastCopy m newMsg = some (copyOf m newMsg text pseudo) := by
  simp only [broadcastCopy, htext, hpseudo, Option.bind_eq_bind, Option.bind_some]
  rfl

theorem strings_of_broadcastCopy {copy : Message} (h : broadcastCopy m newMsg = some copy) :
    ∃ text pseudo, cstr m.msg = some text ∧ cstr m.srcPseudo = some pseudo := by
  obtain ⟨text, htext, h⟩ := Option.bind_eq_some_iff.1 h
  obtain ⟨pseudo, hpseudo, -⟩ := Option.bind_eq_some_iff.1 h
  exact ⟨text, pseudo, htext, hpseudo⟩

/-- Two copies one after the other have the text when both destinations have the bytes behind the NUL. -/
theorem agreeBehind_overlay {src first : Vector UInt8 MAX_MSG_LENGTH} {text : List UInt8} (htext : cstr src = some text)
    {len : ℕ} (hfirst : AgreeBehind len src first) (second : Vector UInt8 MAX_MSG_LENGTH) :
    AgreeBehind len (overlay first (text ++ [0])) second ↔ AgreeBehind len src second := by
  have hsame := (overlay_cstr_agrees htext first len).2 hfirst
  have hstring := cstr_overlay_cstr htext first
  constructor
  · rintro ⟨s, hs, hall⟩
    obtain rfl := Option.some.inj (hstring.symm.trans hs)
    exact ⟨_, htext, fun i hi hlt hlen => (hall i hi hlt hlen).trans (hsame i hi hlen)⟩
  · rintro ⟨s, hs, hall⟩
    obtain rfl := Option.some.inj (htext.symm.trans hs)
    exact ⟨_, hstring, fun i hi hlt hlen => (hall i hi hlt hlen).trans (hsame i hi hlen).symm⟩

/-- A text and a copy of it: what has the text of the one has the text of the other. -/
theorem SameText.trans_iff {copy d : Message} (h : SameText m copy) : SameText copy d ↔ SameText m d := by
  obtain ⟨hlen, hbytes⟩ := h
  constructor
  · rintro ⟨hlen', hbytes'⟩
    rw [hlen] at hlen' hbytes'
    exact ⟨hlen', fun i hi hlt => (hbytes' i hi hlt).trans (hbytes i hi hlt)⟩
  · rintro ⟨hlen', hbytes'⟩
    rw [← hlen] at hlen' hbytes hbytes'
    exact ⟨hlen', fun i hi hlt => (hbytes' i hi hlt).trans (hbytes i hi hlt).symm⟩

theorem sameText_copyOf {text : List UInt8} (htext : cstr m.msg = some text) (pseudo : List UInt8) :
    SameText m (copyOf m newMsg text pseudo) ↔ AgreeBehind m.msgLength.toNat m.msg newMsg.msg := by
  rw [← overlay_cstr_agrees htext]
  exact ⟨fun h => h.2, fun h => ⟨rfl, h⟩⟩

/-- One copy, sent to the client `index`, and what the client makes of it in the slot `dest`. -/
private theorem copy_kept_iff {text pseudo : List UInt8} (htext : cstr m.msg = some text)
    (hpseudo : cstr m.srcPseudo = some pseudo) (index : Int32) :
    (SameText m { copyOf m newMsg text pseudo with proxyClientSocket := index } ∧
        ∃ d, copyMessage dest { copyOf m newMsg text pseudo with proxyClientSocket := index } = some d ∧
          SameText m d) ↔
      cstr newMsg.control ≠ none ∧ AgreeBehind m.msgLength.toNat m.msg newMsg.msg ∧
        AgreeBehind m.msgLength.toNat m.msg dest.msg := by
  generalize hx : ({ copyOf m newMsg text pseudo with proxyClientSocket := index } : Message) = x
  have hmsg : x.msg = overlay newMsg.msg (text ++ [0]) := by rw [← hx, copyOf]
  have hlen : x.msgLength = m.msgLength := by rw [← hx, copyOf]
  have hcontrol : x.control = newMsg.control := by rw [← hx, copyOf, initEmptyMessage]
  have hdst : cstr x.dst ≠ none := by
    have hempty : cstr (overlay newMsg.dst ([] ++ [0])) = some [] := cstr_overlay _ List.not_mem_nil (by decide)
    rw [← hx, copyOf, initEmptyMessage]
    exact fun h => nomatch hempty.symm.trans h
  have hsrc : cstr x.srcPseudo ≠ none := by
    have hname := cstr_overlay_cstr hpseudo (initEmptyMessage newMsg).srcPseudo
    rw [← hx, copyOf]
    exact fun h => nomatch hname.symm.trans h
  have hfirst : SameText m x ↔ AgreeBehind m.msgLength.toNat m.msg newMsg.msg := by
    rw [← sameText_copyOf htext pseudo, ← hx]
    exact Iff.rfl
  have hstored : (∃ d, copyMessage dest x = some d ∧ SameText x d) ↔
      cstr newMsg.control ≠ none ∧ AgreeBehind m.msgLength.toNat (overlay newMsg.msg (text ++ [0])) dest.msg := by
    rw [copyMessage_text, hmsg, hlen, hcontrol]
    exact ⟨fun h => h.2.2, fun h => ⟨hsrc, hdst, h⟩⟩
  constructor
  · rintro ⟨hsame, d, hd, hsame'⟩
    have hagree := hfirst.1 hsame
    obtain ⟨hcontrol, hbehind⟩ := hstored.1 ⟨d, hd, hsame.trans_iff.2 hsame'⟩
    exact ⟨hcontrol, hagree, (agreeBehind_overlay htext hagree dest.msg).1 hbehind⟩
  · rintro ⟨hcontrol, hagree, hbehind⟩
    have hsame := hfirst.2 hagree
    obtain ⟨d, hd, hsame'⟩ := hstored.2 ⟨hcontrol, (agreeBehind_overlay htext hagree dest.msg).2 hbehind⟩
    exact ⟨hsame, d, hd, hsame.trans_iff.1 hsame'⟩

theorem textKept_iff (hsome : SomeoneConnected s)
    (hslot : (growDefaultChannel memory c).msgsDefaultChannel[c.nbMsgsDefaultChannel]? = some dest) :
    TextKept s sock m newMsg memory c ↔
      cstr m.srcPseudo ≠ none ∧ cstr newMsg.control ≠ none ∧ AgreeBehind m.msgLength.toNat m.msg newMsg.msg ∧
        AgreeBehind m.msgLength.toNat m.msg dest.msg := by
  constructor
  · rintro ⟨sent, hsent, hall⟩
    obtain ⟨copy, hcopy, rfl⟩ := Option.map_eq_some_iff.1 hsent
    obtain ⟨text, pseudo, htext, hpseudo⟩ := strings_of_broadcastCopy hcopy
    obtain rfl := Option.some.inj ((broadcastCopy_eq htext hpseudo newMsg).symm.trans hcopy)
    obtain ⟨i, cli, hcli, hconn⟩ := hsome
    obtain ⟨hsame, hstored⟩ := hall _ (mem_copiesFor.2 ⟨i, cli, hcli, hconn, rfl⟩)
    have hkept := (copy_kept_iff htext hpseudo cli.idPollSocketProxy).1 ⟨hsame, (onReceived_iff hslot).1 hstored⟩
    exact ⟨by simp [hpseudo], hkept⟩
  · rintro ⟨hpseudo, hcontrol, hagree, hbehind⟩
    obtain ⟨pseudo, hpseudo⟩ := Option.ne_none_iff_exists'.1 hpseudo
    obtain ⟨text, htext, -⟩ := id hagree
    refine ⟨_, congrArg (Option.map _) (broadcastCopy_eq htext hpseudo newMsg), fun x hx => ?_⟩
    obtain ⟨i, cli, -, -, rfl⟩ := mem_copiesFor.1 hx
    obtain ⟨hsame, hstored⟩ :=
      (copy_kept_iff htext hpseudo cli.idPollSocketProxy).2 ⟨hcontrol, hagree, hbehind⟩
    exact ⟨hsame, (onReceived_iff hslot).2 hstored⟩

/-- The copies of a text have it when it has no NUL before its end, or when the bytes behind the NUL were already
there.  `copy_message` makes all fields equal when that is also so for the control bytes and when the fields it leaves
out were already equal. -/
theorem copies_kept_iff (hsome : SomeoneConnected s)
    (hslot : (growDefaultChannel memory c).msgsDefaultChannel[c.nbMsgsDefaultChannel]? = some dest) :
    (TextKept s sock m newMsg memory c ↔
      cstr m.srcPseudo ≠ none ∧ cstr newMsg.control ≠ none ∧ AgreeBehind m.msgLength.toNat m.msg newMsg.msg ∧
        AgreeBehind m.msgLength.toNat m.msg dest.msg) ∧
    ∀ src dest : Message, (∃ d, copyMessage dest src = some d ∧ SameFields src d) ↔
      (cstr src.srcPseudo ≠ none ∧ cstr src.dst ≠ none ∧ AgreeBehind src.msgLength.toNat src.msg dest.msg ∧
        AgreeBehind src.msgLength.toNat src.control dest.control) ∧
      (∀ i (h : i < MAX_MSG_LENGTH), i < src.msgLength.toNat → dest.error[i] = src.error[i]) ∧
      dest.nbRetransmission = src.nbRetransmission :=
  ⟨textKept_iff hsome hslot, fun _ _ => copyMessage_fields⟩

/-! ### A text to alice -/

private theorem alice_connected :
    (handle (eventOn 5 (connectionRequest "alice" "secret" 2)) freshServer).map
      (fun r => (r.state.clients.get 0).map fun c => c.connected) = some (some true) := by
  decide +kernel

/-- Alice is connected, after a run. -/
theorem alice_is_connected : ∃ hist s, Run hist s ∧ SomeoneConnected s := by
  obtain ⟨r, hr, hcli⟩ := Option.map_eq_some_iff.1 alice_connected
  obtain ⟨c, hc, hconn⟩ := Option.map_eq_some_iff.1 hcli
  exact ⟨_, r.state, Run.step run_freshServer ⟨20, hr⟩, 0, c, hc, hconn⟩

/-- The first slot of a client that has received no message. -/
def firstSlot : Message := initEmptyMessage Message.zero

private theorem firstSlot_eq (codes : List UInt8 → Option (List UInt8)) :
    (growDefaultChannel (fun _ => Message.zero) (initCstate codes)).msgsDefaultChannel[
      (initCstate codes).nbMsgsDefaultChannel]? = some firstSlot := rfl

theorem copies_kept_iff_hello :
    ∃ hist s, Run hist s ∧ TextKept s 5 (textMessage "alice" "hello" 2) Message.zero (fun _ => Message.zero)
      (initCstate fun _ => none) := by
  obtain ⟨hist, s, hrun, hsome⟩ := alice_is_connected
  -- the text has no byte behind its NUL
  have hagree : ∀ dst, AgreeBehind (textMessage "alice" "hello" 2).msgLength.toNat
      (textMessage "alice" "hello" 2).msg dst := by
    intro dst
    have hlength : (textMessage "alice" "hello" 2).msgLength.toNat = (ascii "hello").length + 1 := by decide
    exact ⟨ascii "hello", by decide +kernel, fun i hi hlt hlen => absurd hlen (by omega)⟩
  exact ⟨hist, s, hrun, (copies_kept_iff hsome (firstSlot_eq _)).1.2
    ⟨by decide +kernel, by decide +kernel, hagree _, hagree _⟩⟩

/-- A byte of a text has become a NUL: the copies lose the byte behind it.  And `copy_message` leaves out the number of
retransmissions. -/
theorem text_behind_nul_lost :
    (∃ hist s, Run hist s ∧ ¬ TextKept s 5 (textMessage "alice" "a\x00b" 2) Message.zero (fun _ => Message.zero)
      (initCstate fun _ => none)) ∧
    ¬ ∃ d, copyMessage Message.zero { Message.zero with nbRetransmission := 1 } = some d ∧
      SameFields { Message.zero with nbRetransmission := 1 } d := by
  constructor
  · obtain ⟨hist, s, hrun, hsome⟩ := alice_is_connected
    refine ⟨hist, s, hrun, fun hkept => ?_⟩
    obtain ⟨-, -, ⟨text, htext, hagree⟩, -⟩ := (textKept_iff hsome (firstSlot_eq _)).1 hkept
    have htext' : cstr (textMessage "alice" "a\x00b" 2).msg = some (ascii "a") := by decide +kernel
    obtain rfl := Option.some.inj (htext.symm.trans htext')
    exact absurd (hagree 2 (by decide) (by decide) (by decide)) (by decide +kernel)
  · intro hcopied
    exact absurd (copyMessage_fields.1 hcopied).2.2 (by decide)

end NyanChat
