import NyanChat.ClientSlots
import NyanChat.LineEditor

/-!
# The pseudo of a connection request

Both clients test the length of an input before they take it for a pseudo: `client.c` the bytes of the line with its
end, `client_ansi.c` the length of the text in the editor.  The server tests the string, and so do the arrays that the
pseudo is copied into.  The tests agree exactly for the inputs whose string has a length between the two limits
(`pseudo_fits_iff`).
-/

namespace NyanChat

variable {c c' : ClientState} {sent : List Message} {buffer text : List UInt8} {msgLen : ℕ} {rands : ℕ → ℕ}
  {memory : ℕ → Message}

/-- An input that the client turns into a connection request: it has no pseudo, waits for none, and the test of the
length is passed. -/
def TakesPseudo (c : ClientState) (msgLen : ℕ) : Prop :=
  cstr c.pseudo = some [] ∧ c.waitingPseudoConfirmation = false ∧ MIN_NAME_LENGTH ≤ msgLen

instance (c : ClientState) (msgLen : ℕ) : Decidable (TakesPseudo c msgLen) :=
  inferInstanceAs (Decidable (_ ∧ _ ∧ _))

/-- An input that the client sends as a text: it has a pseudo and is connected. -/
def TakesText (c : ClientState) : Prop := cstr c.pseudo ≠ some [] ∧ c.connected = true

/-- A string that the server takes for a pseudo and that fits into its array. -/
def PseudoLength (p : List UInt8) : Prop := MIN_NAME_LENGTH ≤ p.length ∧ p.length ≤ MAX_NAME_LENGTH - 1

/-- The input changes neither the pseudo nor what the client waits for. -/
def ChangesNothing (rands : ℕ → ℕ) (memory : ℕ → Message) (c : ClientState) (buffer : List UInt8) (msgLen : ℕ) : Prop :=
  ∃ c' sent, onStdinClient rands memory c buffer msgLen = some (c', sent) ∧ c'.pseudo = c.pseudo ∧
    c'.waitingPseudoConfirmation = c.waitingPseudoConfirmation ∧ c'.msgWaitingAck = c.msgWaitingAck

/-- The input goes with a right pseudo into the state and into the request; an input that is neither a pseudo nor a text
changes nothing. -/
structure PseudoRight (rands : ℕ → ℕ) (memory : ℕ → Message) (c : ClientState) (buffer : List UInt8) (msgLen : ℕ) :
    Prop where
  stored : TakesPseudo c msgLen → ∃ a p, (stringIn buffer).bind (strcpy c.pseudo) = some a ∧ cstr a = some p ∧
    PseudoLength p
  sent : TakesPseudo c msgLen → ∀ c' sent, onStdinClient rands memory c buffer msgLen = some (c', sent) →
    ∃ m p, sent = [m] ∧ m.msgType = MSG_CONNECTION_CLIENT ∧ cstr c'.pseudo = some p ∧ cstr m.srcPseudo = some p ∧
      PseudoLength p
  kept : ¬ TakesPseudo c msgLen → ¬ TakesText c → ChangesNothing rands memory c buffer msgLen

/-- The string of a pseudo has a length between the limits. -/
def PseudoFits (c : ClientState) (text : List UInt8) (msgLen : ℕ) : Prop := TakesPseudo c msgLen → PseudoLength text

/-! ### Requests -/

/-- The pseudo of a request is the string of the input. -/
theorem requestConnection_pseudo (htext : stringIn buffer = some text)
    (hrun : requestConnection rands c buffer = some (c', sent)) :
    ∃ m, sent = [m] ∧ m.msgType = MSG_CONNECTION_CLIENT ∧ cstr c'.pseudo = some text ∧
      cstr m.srcPseudo = some text := by
  have hzero := (stringIn_eq_some htext).1
  obtain ⟨text', htext', hrun⟩ := Option.bind_eq_some_iff.1 hrun
  obtain rfl := Option.some.inj (htext.symm.trans htext')
  obtain ⟨pseudo, hcopy, hrun⟩ := Option.bind_eq_some_iff.1 hrun
  obtain ⟨⟨c₁, code⟩, hcode, hrun⟩ := Option.bind_eq_some_iff.1 hrun
  obtain ⟨slot, -, hrun⟩ := Option.bind_eq_some_iff.1 hrun
  obtain ⟨m, hm, hrun⟩ := Option.bind_eq_some_iff.1 hrun
  have hpseudo : c₁.pseudo = pseudo := by
    unfold connectionCode at hcode
    split at hcode
    · cases hcode
      rfl
    · split at hcode <;> cases hcode
      rfl
  obtain ⟨srcPseudo, hsrc, hm⟩ := Option.bind_eq_some_iff.1 hm
  obtain ⟨codeText, -, hm⟩ := Option.bind_eq_some_iff.1 hm
  obtain ⟨msg, -, hm⟩ := Option.bind_eq_some_iff.1 hm
  obtain rfl := Option.some.inj hm
  cases hrun
  exact ⟨_, rfl, rfl, by rw [ClientState.wait, hpseudo, strcpy_cstr hzero hcopy], strcpy_cstr hzero hsrc⟩

theorem onStdinClient_takes (h : TakesPseudo c msgLen) :
    onStdinClient rands memory c buffer msgLen = requestConnection rands c buffer := by
  obtain ⟨hpseudo, hidle, hlong⟩ := h
  have hnot : ¬ (c.waitingPseudoConfirmation = true ∨ msgLen < MIN_NAME_LENGTH) := by
    rw [hidle]
    simp only [Bool.false_eq_true, false_or]
    omega
  rw [onStdinClient, hpseudo]
  exact if_neg hnot

/-- Without a request and without a text nothing happens. -/
private theorem onStdinClient_ignores {p : List UInt8} (hpseudo : cstr c.pseudo = some p)
    (hnot : ¬ TakesPseudo c msgLen) (hquiet : ¬ TakesText c) :
    onStdinClient rands memory c buffer msgLen = some (c, []) := by
  rw [onStdinClient, hpseudo]
  cases p with
  | nil =>
    refine if_pos ?_
    by_contra hasks
    rw [not_or, Bool.not_eq_true, Nat.not_lt] at hasks
    exact hnot ⟨hpseudo, hasks⟩
  | cons b p =>
    have hconn : c.connected = false := by
      rw [← Bool.not_eq_true]
      intro hconn
      refine hquiet ⟨?_, hconn⟩
      rw [hpseudo, ne_eq, Option.some_inj]
      exact List.cons_ne_nil b p
    rw [hconn]
    rfl

/-- A text of a connected client goes into a slot that was free. -/
private theorem text_changes_slots {c₁ : ClientState} {id : ℕ} {slot m : Message}
    (hfind : findNextMsgId memory c = some (c₁, id)) (hm : textSlot c₁ id slot buffer msgLen = some m) :
    (c₁.wait id m).msgWaitingAck ≠ c.msgWaitingAck := by
  intro heq
  obtain ⟨_, _, htext⟩ := textSlot_spec hm
  have hlen := congrArg List.length heq
  rw [ClientState.wait, List.length_set] at hlen
  have halloc := findNextMsgId_slot hfind
  obtain ⟨s, hs, hfree⟩ := halloc.getElem?
  cases halloc with
  | free =>
    have hlt := (List.getElem?_eq_some_iff.1 hs).1
    rw [← heq, ClientState.wait, List.getElem?_set_self hlt] at hs
    obtain rfl := Option.some.inj hs
    rw [isFree_iff, htext.msgType] at hfree
    exact absurd hfree (by decide)
  | grown hfull hpos =>
    rw [growWaiting_length] at hlen
    omega

/-- A text of a connected client is waiting for its answer. -/
private theorem text_changes {p : List UInt8} (hpseudo : cstr c.pseudo = some p) (htakes : TakesText c) :
    ¬ ChangesNothing rands memory c buffer msgLen := by
  rintro ⟨c', sent, hrun, -, -, hslots⟩
  cases p with
  | nil => exact htakes.1 hpseudo
  | cons b p =>
    rw [onStdinClient, hpseudo] at hrun
    dsimp only at hrun
    rw [if_pos htakes.2] at hrun
    obtain ⟨⟨c₁, id⟩, hfind, hrun⟩ := Option.bind_eq_some_iff.1 hrun
    obtain ⟨slot, -, hrun⟩ := Option.bind_eq_some_iff.1 hrun
    obtain ⟨m, hm, hrun⟩ := Option.bind_eq_some_iff.1 hrun
    cases hrun
    exact text_changes_slots hfind hm hslots

/-- The inputs for which the tests of the lengths agree. -/
theorem pseudoRight_iff {p : List UInt8} (hpseudo : cstr c.pseudo = some p) (htext : stringIn buffer = some text)
    (rands : ℕ → ℕ) (memory : ℕ → Message) (msgLen : ℕ) :
    PseudoRight rands memory c buffer msgLen ↔ PseudoFits c text msgLen := by
  have hzero := (stringIn_eq_some htext).1
  constructor
  · rintro ⟨hstored, -, -⟩ htakes
    obtain ⟨a, q, hcopy, hq, hlength⟩ := hstored htakes
    rw [htext] at hcopy
    rw [strcpy_cstr hzero hcopy] at hq
    obtain rfl := Option.some.inj hq
    exact hlength
  · intro hlength
    refine ⟨fun htakes => ?_, fun htakes c' sent hrun => ?_, fun hnot hquiet => ?_⟩
    · have hfits : text.length < MAX_NAME_LENGTH := by
        have hle := (hlength htakes).2
        have hmax : MAX_NAME_LENGTH = 64 := rfl
        omega
      have hcopy : strcpy c.pseudo text = some (overlay c.pseudo (text ++ [0])) := if_pos hfits
      exact ⟨_, text, by rw [htext]; exact hcopy, strcpy_cstr hzero hcopy, hlength htakes⟩
    · rw [onStdinClient_takes htakes] at hrun
      obtain ⟨m, hsent, htype, hpseudo', hsrc⟩ := requestConnection_pseudo htext hrun
      exact ⟨m, text, hsent, htype, hpseudo', hsrc, hlength htakes⟩
    · exact ⟨c, [], onStdinClient_ignores hpseudo hnot hquiet, rfl, rfl, rfl⟩

/-- The texts of a connected client are the only other inputs that change something. -/
theorem pseudoRight_kept_iff {p : List UInt8} (hpseudo : cstr c.pseudo = some p) (htext : stringIn buffer = some text)
    (rands : ℕ → ℕ) (memory : ℕ → Message) (msgLen : ℕ) :
    PseudoRight rands memory c buffer msgLen ∧ (¬ TakesPseudo c msgLen → ChangesNothing rands memory c buffer msgLen) ↔
      PseudoFits c text msgLen ∧ ¬ TakesText c := by
  rw [pseudoRight_iff hpseudo htext]
  refine and_congr_right fun _ => ⟨fun hkept htakes => ?_, fun hquiet hnot => ?_⟩
  · exact text_changes hpseudo htakes (hkept fun hasks => htakes.1 hasks.1)
  · exact ⟨c, [], onStdinClient_ignores hpseudo hnot hquiet, rfl, rfl, rfl⟩

/-! ### Lines and buffers -/

/-- The string of a line: its end, or its last byte, is replaced. -/
def lineText (bytes : List UInt8) : List UInt8 := bytes.dropLast.takeWhile (· ≠ 0)

/-- The string in the editor. -/
def inputText (a : Ansi.AnsiState) : List UInt8 := a.input.toList.takeWhile (· ≠ 0)

private theorem stringIn_line (bytes : List UInt8) : stringIn (stdinBuffer bytes) = some (lineText bytes) :=
  stringIn_append_zero bytes.dropLast []

private theorem stringIn_input {a : Ansi.AnsiState} {k n : ℕ} (h : Ansi.EditorAt a k n) :
    stringIn a.input.toList = some (inputText a) := by
  have hzero : 0 ∈ a.input.toList := by
    rw [Vector.mem_toList_iff]
    exact Vector.mem_of_getElem? h.terminated
  rw [stringIn, if_pos hzero, inputText]

/-- For every line of `client.c` and every input of `client_ansi.c`: the pseudo that is stored and sent has a length
between the limits, and an input that is neither a pseudo nor a text changes nothing, exactly when the string of a
pseudo has such a length.  Every input that is no pseudo changes nothing exactly when it is also no text. -/
theorem pseudo_fits_iff (rands : ℕ → ℕ) (memory : ℕ → Message) :
    (∀ (c : ClientState) (p : List UInt8), cstr c.pseudo = some p → ∀ bytes,
      (PseudoRight rands memory c (stdinBuffer bytes) bytes.length ↔ PseudoFits c (lineText bytes) bytes.length) ∧
      (PseudoRight rands memory c (stdinBuffer bytes) bytes.length ∧
          (¬ TakesPseudo c bytes.length → ChangesNothing rands memory c (stdinBuffer bytes) bytes.length) ↔
        PseudoFits c (lineText bytes) bytes.length ∧ ¬ TakesText c)) ∧
    ∀ (a : Ansi.AnsiState) (p : List UInt8) (k n : ℕ), cstr a.client.pseudo = some p → Ansi.EditorAt a k n →
      (PseudoRight rands memory a.client a.input.toList a.inputLength.toNat ↔ PseudoFits a.client (inputText a) n) ∧
      (PseudoRight rands memory a.client a.input.toList a.inputLength.toNat ∧
          (¬ TakesPseudo a.client n → ChangesNothing rands memory a.client a.input.toList a.inputLength.toNat) ↔
        PseudoFits a.client (inputText a) n ∧ ¬ TakesText a.client) := by
  refine ⟨fun c p hpseudo bytes => ?_, fun a p k n hpseudo h => ?_⟩
  · have htext := stringIn_line bytes
    exact ⟨pseudoRight_iff hpseudo htext rands memory _, pseudoRight_kept_iff hpseudo htext rands memory _⟩
  · have htext := stringIn_input h
    rw [h.length, Int.toNat_natCast]
    exact ⟨pseudoRight_iff hpseudo htext rands memory n, pseudoRight_kept_iff hpseudo htext rands memory n⟩

private theorem initClientState_pseudo : cstr (initClientState fun _ => none).pseudo = some [] := by decide

theorem pseudo_fits_iff_alice :
    PseudoRight (fun _ => 0) (fun _ => Message.zero) (initClientState fun _ => none)
      (stdinBuffer (ascii "alice\n")) 6 :=
  ((pseudo_fits_iff (fun _ => 0) fun _ => Message.zero).1 _ _ initClientState_pseudo (ascii "alice\n")).1.2
    fun _ => ⟨by decide, by decide⟩

private theorem short_request :
    (onStdinClient (fun _ => 0) (fun _ => Message.zero) (initClientState fun _ => none)
      (stdinBuffer (ascii "bob\n")) 4).map (fun r => r.2.map fun m => (m.msgType, cstr m.srcPseudo)) =
        some [(MSG_CONNECTION_CLIENT, some (ascii "bob"))] := by
  decide +kernel

/-- A pseudo of three letters is asked for, and one of 64 leaves its array. -/
theorem short_and_long_pseudos_taken :
    (∃ c' m, onStdinClient (fun _ => 0) (fun _ => Message.zero) (initClientState fun _ => none)
        (stdinBuffer (ascii "bob\n")) 4 = some (c', [m]) ∧ m.msgType = MSG_CONNECTION_CLIENT ∧
        cstr m.srcPseudo = some (ascii "bob")) ∧
      ¬ PseudoRight (fun _ => 0) (fun _ => Message.zero) (initClientState fun _ => none)
        (stdinBuffer (ascii "bob\n")) 4 ∧
      ¬ PseudoRight (fun _ => 0) (fun _ => Message.zero) (initClientState fun _ => none)
        (stdinBuffer (List.replicate 64 97 ++ [10])) 65 := by
  refine ⟨?_, fun hright => ?_, fun hright => ?_⟩
  · obtain ⟨⟨c', sent⟩, hrun, hsent⟩ := Option.map_eq_some_iff.1 short_request
    obtain ⟨m, rfl, hm⟩ := List.map_eq_singleton_iff.1 hsent
    obtain ⟨htype, hsrc⟩ := Prod.mk.inj hm
    exact ⟨c', m, hrun, htype, hsrc⟩
  · have hfits := (pseudoRight_iff initClientState_pseudo (stringIn_line _) _ _ _).1 hright
    exact absurd (hfits ⟨initClientState_pseudo, rfl, by decide⟩).1 (by decide)
  · have hfits := (pseudoRight_iff initClientState_pseudo (stringIn_line _) _ _ _).1 hright
    exact absurd (hfits ⟨initClientState_pseudo, rfl, by decide⟩).2 (by decide)

end NyanChat
