import NyanChat.ClientRuns
import NyanChat.MessageCopies
import NyanChat.Redraw

/-!
# Runs of the client in the terminal

A redraw ends the slices that it prints by NULs and takes these away again, so one that comes back leaves the client
as it was (`displayClient_state`).  The line editor hands on its line as `client.c` does with a line of `stdin`
(`onStdinClient_line`).  The first slots of the array of the received messages hold the messages of the default channel
that came while the client was connected, in their order (`ansiRun_received`).
-/

namespace NyanChat.Ansi

open Faults

variable {c c' : AnsiState} {k n : ℕ}

/-! ### A redraw changes nothing -/

/-- A byte that was written over is put back. -/
private theorem setAt_back {m : ℕ} {a ended restored : Vector UInt8 m} {i : Int} {tmp b : UInt8}
    (hget : getAt a i = some tmp) (hset : setAt a i b = some ended) (hback : setAt ended i tmp = some restored) :
    restored = a := by
  unfold setAt at hset
  split at hset
  · rename_i hi
    obtain ⟨j, rfl⟩ := Int.eq_ofNat_of_zero_le hi.1
    have hj : j < m := by simpa using hi.2
    rw [getAt_of_lt a hj] at hget
    obtain rfl := Option.some.inj hget
    obtain rfl := Option.some.inj hset
    simp only [Int.toNat_natCast] at hback
    exact (Option.some.inj ((setAt_restore a hj b).symm.trans hback)).symm
  · cases hset

theorem displayInputText_input {x y maxX : Int} {d : InputDisplay} (h : displayInputText c x y maxX = some d) :
    d.input = c.input := by
  rw [displayInputText] at h
  split at h
  · obtain ⟨text, -, h⟩ := Option.bind_eq_some_iff.1 h
    cases h
    rfl
  · obtain ⟨tmp, htmp, h⟩ := Option.bind_eq_some_iff.1 h
    obtain ⟨ended, hended, h⟩ := Option.bind_eq_some_iff.1 h
    obtain ⟨text, -, h⟩ := Option.bind_eq_some_iff.1 h
    obtain ⟨input, hinput, h⟩ := Option.bind_eq_some_iff.1 h
    cases h
    exact setAt_back htmp hended hinput

namespace PrintedMessage

variable {call : PrintedMessage} {msg : Message}

theorem printLine_msg {i pEnd cy : Int} {r : Message × List Written} (h : call.printLine msg i pEnd cy = .ok r) :
    r.1 = msg := by
  rw [printLine] at h
  obtain ⟨tmp, htmp, h⟩ := bind_eq_ok.1 h
  obtain ⟨ended, hended, h⟩ := bind_eq_ok.1 h
  obtain ⟨line, -, h⟩ := bind_eq_ok.1 h
  obtain ⟨restored, hrestored, h⟩ := bind_eq_ok.1 h
  cases h
  obtain rfl := setAt_back (orFail_eq_ok.1 htmp) (orFail_eq_ok.1 hended) (orFail_eq_ok.1 hrestored)
  rfl

theorem printLines_msg {fuel : ℕ} {i cy : Int} {l : Lines} (h : call.printLines fuel msg i cy = .ok l) :
    l.msg = msg := by
  induction fuel generalizing msg i cy l with
  | zero => cases h
  | succ fuel ih =>
    rw [printLines] at h
    split at h
    · have hrest : ∀ r : Message × List Written, (do
          let rest ← call.printLines fuel r.1 (i + call.maxTextLineLength) (cy + 1)
          return { rest with written := r.2 ++ rest.written }) = Except.ok l → l.msg = r.1 := by
        intro r h
        obtain ⟨rest, hrest, h⟩ := bind_eq_ok.1 h
        cases h
        exact (ih hrest : rest.msg = r.1)
      dsimp only at h
      split at h
      · obtain ⟨r, hr, h⟩ := bind_eq_ok.1 h
        exact (hrest r h).trans (printLine_msg hr)
      · exact hrest (msg, []) h
    · cases h
      rfl

end PrintedMessage

theorem printMessage_msg {fuel : ℕ} {own : Vector UInt8 MAX_NAME_LENGTH} {call : PrintedMessage} {r : MessagePrinted}
    (h : printMessage fuel own call = .ok r) : r.msg = call.msg := by
  have hrest : ∀ first : Message × List Written, (do
      let lines ← call.printLines fuel first.1 0 (call.y + 3)
      let last ← call.printLast lines
      return (⟨lines.msg, .cursorPosition call.x call.y :: call.headerBorders ++ first.2 ++ lines.written ++ last,
        lines.cy - 1⟩ : MessagePrinted)) = Except.ok r → r.msg = first.1 := by
    intro first h
    obtain ⟨lines, hlines, h⟩ := bind_eq_ok.1 h
    obtain ⟨last, -, h⟩ := bind_eq_ok.1 h
    cases h
    exact PrintedMessage.printLines_msg hlines
  rw [printMessage] at h
  split at h
  · obtain ⟨first, hfirst, h⟩ := bind_eq_ok.1 h
    exact (hrest first h).trans (PrintedMessage.headerPseudo_msg hfirst)
  · exact hrest (call.msg, []) h

variable {s : Screen} {p p' : PanelState}

/-- A message is printed from its slot. -/
theorem printMessages_slots {w : MsgWindow} {calls : List PrintedMessage} (h : printMessages s p w = some calls) :
    ∀ call ∈ calls, p.state.msgsDefaultChannel[call.id]? = some call.msg := by
  rw [printMessages] at h
  obtain ⟨⟨cy, printed⟩, hrun, h⟩ := Option.bind_eq_some_iff.1 h
  cases h
  refine Loop.foldlM_of_some (fun st : Int × List PrintedMessage => ∀ call ∈ st.2,
    p.state.msgsDefaultChannel[call.id]? = some call.msg) ?_ _ (fun call hcall => absurd hcall List.not_mem_nil) hrun
  intro i st st' hst hstep
  obtain ⟨height, -, hstep⟩ := Option.bind_eq_some_iff.1 hstep
  obtain ⟨msg, hmsg, hstep⟩ := Option.bind_eq_some_iff.1 hstep
  cases hstep
  intro call hcall
  rcases List.mem_append.1 hcall with hcall | hcall
  · exact hst call hcall
  · rw [List.mem_singleton] at hcall
    subst hcall
    exact hmsg

/-- The messages that a redraw prints stay as they are in their slots. -/
theorem printCalls_state {fuel : ℕ} {calls : List PrintedMessage} {st st' : PanelState × List Written}
    (hslots : ∀ call ∈ calls, st.1.state.msgsDefaultChannel[call.id]? = some call.msg)
    (h : calls.foldlM (printCall fuel) st = .ok st') : st'.1.state = st.1.state := by
  induction calls generalizing st with
  | nil =>
    cases h
    rfl
  | cons call calls ih =>
    rw [List.forall_mem_cons] at hslots
    rw [List.foldlM_cons] at h
    obtain ⟨st₁, hcall, h⟩ := bind_eq_ok.1 h
    obtain ⟨r, hr, hcall⟩ := bind_eq_ok.1 hcall
    cases hcall
    have hsame : st.1.state.msgsDefaultChannel.set call.id r.msg = st.1.state.msgsDefaultChannel := by
      obtain ⟨hlt, hmsg⟩ := List.getElem?_eq_some_iff.1 hslots.1
      rw [printMessage_msg hr, ← hmsg, List.set_getElem_self]
    have hstate : ({ st.1.state with msgsDefaultChannel := st.1.state.msgsDefaultChannel.set call.id r.msg } :
        AnsiState) = st.1.state := by
      rw [hsame]
    rw [ih (by dsimp only; rw [hsame]; exact hslots.2) h]
    exact hstate

theorem checkedLeftPanel_state {fuel : ℕ} {r : PanelState × List Written}
    (h : checkedLeftPanel fuel s p = .ok r) : r.1.state = p.state := by
  rw [checkedLeftPanel] at h
  split at h
  · split at h
    · cases h
      rfl
    · obtain ⟨p₁, hheights, h⟩ := bind_eq_ok.1 h
      obtain ⟨w, -, h⟩ := bind_eq_ok.1 h
      obtain ⟨calls, hcalls, h⟩ := bind_eq_ok.1 h
      exact (printCalls_state (printMessages_slots (orFail_eq_ok.1 hcalls)) h).trans (checkedHeights_state hheights)
  · cases h
    rfl

/-- A redraw that comes back leaves the client as it was. -/
theorem displayClient_state {fuel : ℕ} {ty : Int} {r : Redrawn} (h : displayClient fuel s ty p = .ok r) :
    r.panel.state = p.state := by
  rw [displayClient] at h
  split at h
  · obtain ⟨⟨p₁, messages⟩, hpanel, h⟩ := bind_eq_ok.1 h
    obtain ⟨d, hd, h⟩ := bind_eq_ok.1 h
    cases h
    have hinput := displayInputText_input (orFail_eq_ok.1 hd)
    have hstate := checkedLeftPanel_state hpanel
    dsimp only at hinput hstate ⊢
    rw [hinput, ← hstate]
  · obtain ⟨line, -, h⟩ := bind_eq_ok.1 h
    cases h
    rfl

/-! ### The line that is handed on -/

variable {rands : ℕ → ℕ} {memory : ℕ → Message} {buffer : Input} {bufLen fuel : ℕ} {msg : Message}

/-- The characters before the end of the line, and its NUL. -/
theorem EditorAt.stringIn_input (h : EditorAt c k n) :
    stringIn c.input.toList = stringIn (c.input.toList.take n ++ [0]) := by
  have hlt : n < c.input.toList.length := by
    rw [Vector.length_toList]
    exact h.length_lt
  have hzero : c.input.toList[n] = 0 := by
    have hget := h.terminated
    rw [← Vector.getElem?_toList, List.getElem?_eq_getElem hlt] at hget
    exact Option.some.inj hget
  have hsplit : c.input.toList = c.input.toList.take n ++ 0 :: c.input.toList.drop (n + 1) := by
    rw [← hzero, ← List.drop_eq_getElem_cons hlt, List.take_append_drop]
  rw [stringIn_append_zero, hsplit, stringIn_append_zero, List.take_append_of_le_length, List.take_take, Nat.min_self]
  rw [List.length_take]
  omega

/-- A client looks only at the string in its buffer. -/
theorem onStdinClient_congr {cl : ClientState} {b b' : List UInt8} {len : ℕ} (h : stringIn b = stringIn b') :
    NyanChat.onStdinClient rands memory cl b len = NyanChat.onStdinClient rands memory cl b' len := by
  simp only [NyanChat.onStdinClient, requestConnection, clientSendMessage, textSlot, h]

private theorem onBackspace_client (hrun : onBackspace c = some c') : c'.client = c.client := by
  unfold onBackspace at hrun
  split at hrun
  · obtain ⟨a, -, hrun⟩ := Option.bind_eq_some_iff.1 hrun
    obtain ⟨b, -, hrun⟩ := Option.bind_eq_some_iff.1 hrun
    cases hrun
    rfl
  · cases hrun
    rfl

private theorem onDelete_client (hrun : onDelete c = some c') : c'.client = c.client := by
  unfold onDelete at hrun
  split at hrun
  · obtain ⟨a, -, hrun⟩ := Option.bind_eq_some_iff.1 hrun
    obtain ⟨b, -, hrun⟩ := Option.bind_eq_some_iff.1 hrun
    cases hrun
    rfl
  · cases hrun
    rfl

private theorem onCharacter_client {b : UInt8} (hrun : onCharacter c b = some c') : c'.client = c.client := by
  unfold onCharacter at hrun
  split at hrun
  · cases hrun
    rfl
  · dsimp only at hrun
    split at hrun
    all_goals
      obtain ⟨a₁, -, hrun⟩ := Option.bind_eq_some_iff.1 hrun
      obtain ⟨a₂, -, hrun⟩ := Option.bind_eq_some_iff.1 hrun
      obtain ⟨a₃, -, hrun⟩ := Option.bind_eq_some_iff.1 hrun
      cases hrun
      rfl

/-- The line that a key hands on to the client: the text of the editor, when it is `K_ENTER` in the focus of the
input. -/
def handed (c : AnsiState) (buffer : Input) (bufLen : ℕ) : Option (List UInt8) :=
  if bufLen ≠ 0 ∧ c.userFocus = FOCUS_INPUT ∧ buffer.get ⟨0, zero_lt_length⟩ = ESCAPE ∧
      buffer.get ⟨1, one_lt_length⟩ = SPECIAL_CHAR_KEYS ∧ buffer.get ⟨2, two_lt_length⟩ = K_ENTER then
    some (c.input.toList.take c.inputLength.toNat)
  else none

theorem handed_line {line : List UInt8} (h : handed c buffer bufLen = some line) :
    line = c.input.toList.take c.inputLength.toNat := by
  unfold handed at h
  split at h
  · exact (Option.some.inj h).symm
  · cases h

/-- The key that hands a line on calls the client with it. -/
theorem onStdinClient_enter {line : List UInt8} (h : handed c buffer bufLen = some line) :
    onStdinClient rands memory c buffer bufLen =
      (NyanChat.onStdinClient rands memory c.client c.input.toList c.inputLength.toNat).map fun r =>
        ⟨AnsiState.clearInput { c with client := r.1 }, r.2, buffer[0] = CTRL_KEY_Q⟩ := by
  unfold handed at h
  split at h
  · rename_i henter
    obtain ⟨hlen, hfocus, (h₀ : buffer[0] = ESCAPE), (h₁ : buffer[1] = SPECIAL_CHAR_KEYS),
      (h₂ : buffer[2] = K_ENTER)⟩ := henter
    have hkeys : SPECIAL_CHAR_KEYS ≠ SPECIAL_CHAR_ARROW := by decide
    rw [onStdinClient, if_neg hlen]
    dsimp only
    rw [if_pos hfocus, onInput, if_pos h₀, h₁, if_neg hkeys, if_pos rfl, if_pos h₂, onEnter, Option.map_map]
    rfl
  · cases h

/-- Every other key leaves the client as it was. -/
theorem onStdinClient_edit (h : handed c buffer bufLen = none) {r : Pressed}
    (hrun : onStdinClient rands memory c buffer bufLen = some r) : r.state.client = c.client ∧ r.sent = [] := by
  have henter : ¬ (bufLen ≠ 0 ∧ c.userFocus = FOCUS_INPUT ∧ buffer[0] = ESCAPE ∧ buffer[1] = SPECIAL_CHAR_KEYS ∧
      buffer[2] = K_ENTER) := by
    intro henter
    have hsome : handed c buffer bufLen = some (c.input.toList.take c.inputLength.toNat) := if_pos henter
    rw [hsome] at h
    cases h
  unfold onStdinClient at hrun
  split at hrun
  · cases hrun
    exact ⟨rfl, rfl⟩
  · rename_i hlen
    obtain ⟨⟨c', sent⟩, hinput, rfl⟩ := Option.map_eq_some_iff.1 hrun
    dsimp only
    split at hinput
    · rename_i hfocus
      unfold onInput at hinput
      split_ifs at hinput with h₀ harrow h₁ h₂
      · cases hinput
        refine ⟨?_, rfl⟩
        unfold onArrow
        split_ifs <;> rfl
      · exact absurd ⟨hlen, hfocus, h₀, h₁, h₂⟩ henter
      · obtain ⟨c'', hkey, heq⟩ := Option.map_eq_some_iff.1 hinput
        cases heq
        exact ⟨onBackspace_client hkey, rfl⟩
      · obtain ⟨c'', hkey, heq⟩ := Option.map_eq_some_iff.1 hinput
        cases heq
        exact ⟨onDelete_client hkey, rfl⟩
      · cases hinput
        exact ⟨rfl, rfl⟩
      · cases hinput
        exact ⟨rfl, rfl⟩
      · obtain ⟨c'', hkey, heq⟩ := Option.map_eq_some_iff.1 hinput
        cases heq
        exact ⟨onCharacter_client hkey, rfl⟩
    · cases hinput
      exact ⟨rfl, rfl⟩

/-- A key leaves the client as it was, or hands the line on to it. -/
theorem onStdinClient_client {r : Pressed} (hrun : onStdinClient rands memory c buffer bufLen = some r) :
    (r.state.client = c.client ∧ r.sent = []) ∨
      NyanChat.onStdinClient rands memory c.client c.input.toList c.inputLength.toNat =
        some (r.state.client, r.sent) := by
  cases h : handed c buffer bufLen with
  | none => exact Or.inl (onStdinClient_edit h hrun)
  | some line =>
    rw [onStdinClient_enter h] at hrun
    obtain ⟨x, hx, rfl⟩ := Option.map_eq_some_iff.1 hrun
    exact Or.inr hx

/-! ### The messages that are stored -/

/-- A client stores a message of the default channel once it is connected. -/
def Stores (cl : ClientState) (msg : Message) : Prop :=
  cl.waitingPseudoConfirmation = false ∧ cl.connected = true ∧ msg.msgType = MSG_SERVER_CLIENT ∧
    msg.dstFlag = MSG_FLAG_DEFAULT_CHANNEL

instance (cl : ClientState) (msg : Message) : Decidable (Stores cl msg) := inferInstanceAs (Decidable (_ ∧ _))

/-- The messages of the default channel that the client has received. -/
def received (c : AnsiState) : List Message := c.msgsDefaultChannel.take c.nbMsgsDefaultChannel

theorem roomDefaultChannel_spec (hrun : roomDefaultChannel memory fuel c = some c') :
    c'.client = c.client ∧ c'.nbMsgsDefaultChannel = c.nbMsgsDefaultChannel ∧
      (∃ new, c'.msgsDefaultChannel = c.msgsDefaultChannel ++ new) ∧
      c'.nbMsgsDefaultChannel < c'.msgsDefaultChannel.length := by
  induction fuel generalizing c with
  | zero => cases hrun
  | succ fuel ih =>
    rw [roomDefaultChannel] at hrun
    split at hrun
    · obtain ⟨hclient, hnb, ⟨new, hnew⟩, hlt⟩ := ih hrun
      refine ⟨hclient, hnb, ?_, hlt⟩
      rw [hnew, growDefaultChannel, List.append_assoc]
      exact ⟨_, rfl⟩
    · rename_i hroom
      cases hrun
      exact ⟨rfl, rfl, ⟨[], (List.append_nil _).symm⟩, by omega⟩

/-- A message that is stored is copied behind the received ones. -/
theorem onReceived_spec (hslots : c.nbMsgsDefaultChannel ≤ c.msgsDefaultChannel.length)
    (hrun : onReceivedMessageDefaultChannel fuel memory c msg = some c') :
    c'.client = c.client ∧ c'.nbMsgsDefaultChannel ≤ c'.msgsDefaultChannel.length ∧
      ∃ slot copy, copyMessage slot msg = some copy ∧ received c' = received c ++ [copy] := by
  obtain ⟨c₁, hroom, hrun⟩ := Option.bind_eq_some_iff.1 hrun
  obtain ⟨slot, -, hrun⟩ := Option.bind_eq_some_iff.1 hrun
  obtain ⟨copy, hcopy, hrun⟩ := Option.bind_eq_some_iff.1 hrun
  cases hrun
  obtain ⟨hclient, hnb, ⟨new, hnew⟩, hlt⟩ := roomDefaultChannel_spec hroom
  refine ⟨hclient, ?_, slot, copy, hcopy, ?_⟩
  · simp only [AnsiState.store, List.length_set]
    omega
  · simp only [received, AnsiState.store]
    rw [List.take_succ_eq_append_getElem (by rw [List.length_set]; exact hlt), List.getElem_set_self,
      List.take_set_of_le (Nat.le_refl _), hnew, hnb, List.take_append_of_le_length hslots]

/-- What a message does to the client without the terminal, and to the received messages. -/
theorem onMsgClient_spec (hslots : c.nbMsgsDefaultChannel ≤ c.msgsDefaultChannel.length)
    {r : AnsiState × List Message} (hrun : onMsgClient fuel memory c msg = some r) :
    NyanChat.onMsgClient c.client msg = some (r.1.client, r.2) ∧
      r.1.nbMsgsDefaultChannel ≤ r.1.msgsDefaultChannel.length ∧
      if Stores c.client msg then
        ∃ slot copy, copyMessage slot msg = some copy ∧ received r.1 = received c ++ [copy]
      else received r.1 = received c := by
  obtain ⟨⟨client, sent⟩, hclient, hrun⟩ := Option.bind_eq_some_iff.1 hrun
  dsimp only at hrun
  by_cases hwaiting : c.client.waitingPseudoConfirmation = true
  · rw [if_pos hwaiting] at hrun
    have hno : ¬ Stores c.client msg := fun h => by
      rw [h.1] at hwaiting
      cases hwaiting
    cases hrun
    rw [if_neg hno]
    dsimp only
    split <;> exact ⟨hclient, hslots, rfl⟩
  · rw [if_neg hwaiting] at hrun
    rw [Bool.not_eq_true] at hwaiting
    by_cases hstores : c.client.connected = true ∧ msg.msgType = MSG_SERVER_CLIENT ∧
        msg.dstFlag = MSG_FLAG_DEFAULT_CHANNEL
    · rw [if_pos hstores] at hrun
      obtain ⟨c₁, hstored, hrun⟩ := Option.bind_eq_some_iff.1 hrun
      cases hrun
      obtain ⟨hsame, hslots', hcopy⟩ := onReceived_spec (c := { c with client := client }) hslots hstored
      have hyes : Stores c.client msg := ⟨hwaiting, hstores⟩
      rw [if_pos hyes, hsame]
      exact ⟨hclient, hslots', hcopy⟩
    · rw [if_neg hstores] at hrun
      cases hrun
      rw [if_neg fun h : Stores c.client msg => hstores h.2]
      exact ⟨hclient, hslots, rfl⟩

theorem onMsgPanel_run {r : PanelState × List Message} (hrun : onMsgPanel fuel memory p msg = some r) :
    onMsgClient fuel memory p.state msg = some (r.1.state, r.2) := by
  rw [← onMsgPanel_state, hrun]
  rfl

/-! ### Runs -/

/-- The states that the client in the terminal reaches, with the messages it sent and those that it stored. -/
inductive AnsiRun (codes : List UInt8 → Option (List UInt8)) : List Message → List Message → PanelState → Prop
  | start : AnsiRun codes [] [] (initPanel codes)
  | key {out heard : List Message} {p : PanelState} {rands : ℕ → ℕ} {memory : ℕ → Message} {buffer : Input}
      {bufLen : ℕ} {r : Pressed} : AnsiRun codes out heard p →
      onStdinClient rands memory p.state buffer bufLen = some r →
      AnsiRun codes (out ++ r.sent) heard { p with state := r.state }
  | message {out heard : List Message} {p : PanelState} {fuel : ℕ} {memory : ℕ → Message} {msg : Message}
      {r : PanelState × List Message} : AnsiRun codes out heard p → onMsgPanel fuel memory p msg = some r →
      AnsiRun codes (out ++ r.2) (heard ++ if Stores p.state.client msg then [msg] else []) r.1
  | redraw {out heard : List Message} {p : PanelState} {fuel : ℕ} {s : Screen} {ty : Int} {r : Redrawn} :
      AnsiRun codes out heard p → displayClient fuel s ty p = .ok r → AnsiRun codes out heard r.panel

variable {codes : List UInt8 → Option (List UInt8)} {out heard : List Message}

theorem ansiRun_slots (h : AnsiRun codes out heard p) :
    p.state.nbMsgsDefaultChannel ≤ p.state.msgsDefaultChannel.length := by
  induction h with
  | start => exact Nat.zero_le _
  | key _ hrun ih =>
    obtain ⟨hmsgs, hnb, -⟩ := onStdinClient_cursor hrun
    rw [hmsgs, hnb]
    exact ih
  | message _ hrun ih => exact (onMsgClient_spec ih (onMsgPanel_run hrun)).2.1
  | redraw _ hrun ih =>
    rw [displayClient_state hrun]
    exact ih

theorem ansiRun_at (h : AnsiRun codes out heard p) : ∃ k n, EditorAt p.state k n := by
  induction h with
  | start => exact ⟨0, 0, initCstate_at codes⟩
  | key _ hrun ih =>
    obtain ⟨k, n, hat⟩ := ih
    exact (onStdinClient_edits hat hrun).1
  | message _ hrun ih =>
    obtain ⟨k, n, hat⟩ := ih
    exact (onMsgClient_edits hat (onMsgPanel_run hrun)).1
  | redraw _ hrun ih =>
    rw [displayClient_state hrun]
    exact ih

/-- The line that is handed on is read as one of `stdin`. -/
theorem onStdinClient_line (hat : EditorAt c k n) {line : List UInt8} (hline : handed c buffer bufLen = some line)
    {r : Pressed} (hrun : onStdinClient rands memory c buffer bufLen = some r) :
    line.length < MAX_MSG_LENGTH ∧
      NyanChat.onStdinClient rands memory c.client (line ++ [0]) line.length = some (r.state.client, r.sent) := by
  obtain rfl := handed_line hline
  rw [onStdinClient_enter hline] at hrun
  obtain ⟨x, hx, rfl⟩ := Option.map_eq_some_iff.1 hrun
  have hlength : (c.input.toList.take n).length = n := by
    rw [List.length_take, Vector.length_toList]
    have := hat.length_lt
    omega
  rw [onStdinClient_congr hat.stringIn_input, hat.length, Int.toNat_natCast] at hx
  rw [hat.length, Int.toNat_natCast, hlength]
  exact ⟨hat.length_lt, hx⟩

/-- A key is a line of input for the client without the terminal, or nothing. -/
theorem clientRun_key (h : ClientRun out c.client) (hat : EditorAt c k n) {r : Pressed}
    (hrun : onStdinClient rands memory c buffer bufLen = some r) : ClientRun (out ++ r.sent) r.state.client := by
  cases hline : handed c buffer bufLen with
  | none =>
    obtain ⟨hclient, hsent⟩ := onStdinClient_edit hline hrun
    rw [hclient, hsent, List.append_nil]
    exact h
  | some line =>
    obtain ⟨hshort, htyped⟩ := onStdinClient_line hat hline hrun
    exact h.typed (.input hshort) htyped

theorem clientRun_message (h : ClientRun out p.state.client)
    (hslots : p.state.nbMsgsDefaultChannel ≤ p.state.msgsDefaultChannel.length) {r : PanelState × List Message}
    (hrun : onMsgPanel fuel memory p msg = some r) : ClientRun (out ++ r.2) r.1.state.client :=
  h.received (onMsgClient_spec hslots (onMsgPanel_run hrun)).1

/-- What the user sees of a message: the pseudo, the text and its length. -/
def seen (m : Message) : Option (List UInt8) × Option (List UInt8) × UInt32 :=
  (cstr m.srcPseudo, cstr m.msg, m.msgLength)

theorem seen_copyMessage {slot copy : Message} (h : copyMessage slot msg = some copy) : seen copy = seen msg := by
  obtain ⟨pseudo, dst, text, control, hpseudo, hdst, htext, hcontrol⟩ := strings_of_copyMessage h
  obtain rfl := Option.some.inj ((copyMessage_eq hpseudo hdst htext hcontrol slot).symm.trans h)
  simp only [seen, cstr_overlay_cstr hpseudo, cstr_overlay_cstr htext, hpseudo, htext]

/-- In every run, whatever keys are pressed, messages come and windows are drawn, the received messages are those that
were stored, each once and in their order. -/
theorem ansiRun_received (h : AnsiRun codes out heard p) : (received p.state).map seen = heard.map seen := by
  induction h with
  | start => rfl
  | key _ hrun ih =>
    obtain ⟨hmsgs, hnb, -⟩ := onStdinClient_cursor hrun
    rw [received, hmsgs, hnb]
    exact ih
  | message hprev hrun ih =>
    have hspec := (onMsgClient_spec (ansiRun_slots hprev) (onMsgPanel_run hrun)).2.2
    split at hspec
    · rename_i hstores
      obtain ⟨slot, copy, hcopy, hreceived⟩ := hspec
      rw [hreceived, if_pos hstores, List.map_append, List.map_append, ih, List.map_singleton, List.map_singleton,
        seen_copyMessage hcopy]
    · rename_i hno
      rw [hspec, if_neg hno, List.append_nil, ih]
  | redraw _ hrun ih =>
    rw [displayClient_state hrun]
    exact ih

/-! ### Alice in the terminal -/

/-- Keys and messages in their order: the sent messages, the stored ones and the client. -/
private def plays : List (Input ⊕ Message) → PanelState → Option (List Message × List Message × PanelState)
  | [], p => some ([], [], p)
  | .inl buffer :: steps, p => do
    let r ← onStdinClient (fun _ => 0) (fun _ => Message.zero) p.state buffer 1
    let (out, heard, last) ← plays steps { p with state := r.state }
    return (r.sent ++ out, heard, last)
  | .inr msg :: steps, p => do
    let r ← onMsgPanel 2 (fun _ => Message.zero) p msg
    let (out, heard, last) ← plays steps r.1
    return (r.2 ++ out, (if Stores p.state.client msg then [msg] else []) ++ heard, last)

private theorem AnsiRun.plays {steps : List (Input ⊕ Message)} (h : AnsiRun codes out heard p)
    {out' heard' : List Message} (hplays : plays steps p = some (out', heard', p')) :
    AnsiRun codes (out ++ out') (heard ++ heard') p' := by
  induction steps generalizing p out heard out' heard' with
  | nil =>
    cases hplays
    rw [List.append_nil, List.append_nil]
    exact h
  | cons step steps ih =>
    cases step with
    | inl buffer =>
      obtain ⟨r, hr, hplays⟩ := Option.bind_eq_some_iff.1 hplays
      obtain ⟨⟨out₁, heard₁, last⟩, hrest, hplays⟩ := Option.bind_eq_some_iff.1 hplays
      cases hplays
      rw [← List.append_assoc]
      exact ih (h.key hr) hrest
    | inr msg =>
      obtain ⟨r, hr, hplays⟩ := Option.bind_eq_some_iff.1 hplays
      obtain ⟨⟨out₁, heard₁, last⟩, hrest, hplays⟩ := Option.bind_eq_some_iff.1 hplays
      cases hplays
      rw [← List.append_assoc, ← List.append_assoc]
      exact ih (h.message hr) hrest

/-- A text of bobby for all users. -/
private def fromBobby : Message :=
  { textMessage "bobby" "hi" 0 with msgType := MSG_SERVER_CLIENT, dstFlag := MSG_FLAG_DEFAULT_CHANNEL }

/-- Alice types her name, gets a session and receives a text. -/
private def aliceHears : List (Input ⊕ Message) :=
  ((ascii "alice").map fun b => .inl (character b)) ++ [.inl enterKey, .inr wellConnected, .inr fromBobby]

private theorem aliceHears_plays :
    (plays aliceHears (initPanel fun _ => none)).map (fun r => (r.1.length, r.2.1.length)) = some (1, 1) := by
  decide +kernel

/-- The client after a request and a text that was stored. -/
theorem aliceHears_run : ∃ out heard p, AnsiRun (fun _ => none) out heard p ∧ out ≠ [] ∧ heard ≠ [] := by
  obtain ⟨⟨out, heard, p⟩, hplays, hlengths⟩ := Option.map_eq_some_iff.1 aliceHears_plays
  obtain ⟨hout, hheard⟩ := Prod.mk.inj hlengths
  refine ⟨out, heard, p, AnsiRun.start.plays hplays, ?_, ?_⟩
  · exact List.ne_nil_of_length_pos (by simp only at hout; omega)
  · exact List.ne_nil_of_length_pos (by simp only at hheard; omega)

theorem ansiRun_received_alice : ∃ heard p, heard ≠ [] ∧ (received (PanelState.state p)).map seen = heard.map seen := by
  obtain ⟨out, heard, p, hrun, -, hheard⟩ := aliceHears_run
  exact ⟨heard, p, hheard, ansiRun_received hrun⟩

end NyanChat.Ansi
