import NyanChat.ClientRuns
import NyanChat.LeftPanel
import NyanChat.LineEditor

/-!
# The cursor on the messages

The cursor on the received messages is moved by the keys up and down, and by a message that comes while it is on the
newest one.  It stays on a received message in every run in which the key down is not pressed before the first message
(`cursor_on_message`): the number of messages less one is unsigned.  The panel then reads only heights of received
messages, unless the messages above the focused one leave room at its top.
-/

namespace NyanChat.Ansi

variable {c c' : AnsiState} {p p' : PanelState} {memory : ℕ → Message} {rands : ℕ → ℕ} {buffer : Input} {bufLen : ℕ}
  {fuel : ℕ} {msg : Message}

/-- `on_msg_client`, with both arrays of the received messages. -/
def onMsgPanel (fuel : ℕ) (memory : ℕ → Message) (p : PanelState) (msg : Message) :
    Option (PanelState × List Message) := do
  let (client, sent) ← NyanChat.onMsgClient p.state.client msg
  let p' := { p with state := { p.state with client := client } }
  if p.state.client.waitingPseudoConfirmation then
    return (if msg.msgType = MSG_WELL_CONNECTED then { p' with state := p'.state.clearInput } else p', sent)
  else if p.state.client.connected ∧ msg.msgType = MSG_SERVER_CLIENT ∧ msg.dstFlag = MSG_FLAG_DEFAULT_CHANNEL then
    let p' ← onReceivedMessagePanel fuel memory p' msg
    return (p', sent)
  else return (p', sent)

/-- The key that moves the cursor to the next message. -/
def DownKey (buffer : Input) (bufLen : ℕ) : Prop :=
  bufLen ≠ 0 ∧ buffer.get ⟨0, zero_lt_length⟩ = ESCAPE ∧ buffer.get ⟨1, one_lt_length⟩ = SPECIAL_CHAR_ARROW ∧
    buffer.get ⟨2, two_lt_length⟩ = ARROW_BOTTOM

instance (buffer : Input) (bufLen : ℕ) : Decidable (DownKey buffer bufLen) := inferInstanceAs (Decidable (_ ∧ _))

/-- The client in every run of keys, messages and drawings.  Every key satisfies `C` in the state in which it is
typed. -/
inductive PanelRun (codes : List UInt8 → Option (List UInt8)) (C : AnsiState → Input → ℕ → Prop) : PanelState → Prop
  | start : PanelRun codes C (initPanel codes)
  | key {p : PanelState} (rands : ℕ → ℕ) (memory : ℕ → Message) (buffer : Input) (bufLen : ℕ) {r : Pressed} :
      PanelRun codes C p → C p.state buffer bufLen → onStdinClient rands memory p.state buffer bufLen = some r →
      PanelRun codes C { p with state := r.state }
  | message {p : PanelState} (fuel : ℕ) (memory : ℕ → Message) (msg : Message) {r : PanelState × List Message} :
      PanelRun codes C p → onMsgPanel fuel memory p msg = some r → PanelRun codes C r.1
  | display {p : PanelState} (fuel : ℕ) (s : Screen) {r : PanelDisplay} :
      PanelRun codes C p → displayLeftPanel fuel s p = some r → PanelRun codes C r.panel

/-! ### The two arrays -/

private theorem roomPanel_state (fuel : ℕ) :
    ∀ p : PanelState, (roomPanel memory fuel p).map PanelState.state = roomDefaultChannel memory fuel p.state := by
  induction fuel with
  | zero => exact fun _ => rfl
  | succ fuel ih =>
    intro p
    rw [roomPanel, roomDefaultChannel]
    split
    · exact ih (growPanel memory p)
    · rfl

theorem onReceivedMessagePanel_state (fuel : ℕ) (memory : ℕ → Message) (p : PanelState) (msg : Message) :
    (onReceivedMessagePanel fuel memory p msg).map PanelState.state =
      onReceivedMessageDefaultChannel fuel memory p.state msg := by
  rw [onReceivedMessagePanel, onReceivedMessageDefaultChannel, ← roomPanel_state]
  cases roomPanel memory fuel p with
  | none => rfl
  | some p' =>
    simp only [Option.bind_eq_bind, Option.map_some, Option.bind_some]
    cases p'.state.msgsDefaultChannel[p'.state.nbMsgsDefaultChannel]? with
    | none => rfl
    | some slot =>
      simp only [Option.bind_some]
      cases copyMessage slot msg <;> rfl

/-- The second array changes nothing for the first one. -/
theorem onMsgPanel_state (fuel : ℕ) (memory : ℕ → Message) (p : PanelState) (msg : Message) :
    (onMsgPanel fuel memory p msg).map (fun r => (r.1.state, r.2)) = onMsgClient fuel memory p.state msg := by
  rw [onMsgPanel, onMsgClient]
  cases NyanChat.onMsgClient p.state.client msg with
  | none => rfl
  | some r =>
    show Option.map _ (if _ then _ else _) = if _ then _ else _
    split
    · split <;> rfl
    · split
      · rw [← onReceivedMessagePanel_state fuel memory { p with state := { p.state with client := r.1 } }]
        cases onReceivedMessagePanel fuel memory { p with state := { p.state with client := r.1 } } msg <;> rfl
      · rfl

/-! ### Steps -/

/-- The received messages and the cursor on them are the same. -/
structure SameMessages (c c' : AnsiState) : Prop where
  msgs : c'.msgsDefaultChannel = c.msgsDefaultChannel
  nb : c'.nbMsgsDefaultChannel = c.nbMsgsDefaultChannel
  cursor : c'.dispMsgsCursor = c.dispMsgsCursor

/-- What a key does to the cursor. -/
inductive CursorStep (c : AnsiState) (buffer : Input) (bufLen : ℕ) : Int → Prop
  | stay : CursorStep c buffer bufLen c.dispMsgsCursor
  | down : DownKey buffer bufLen → sizeT c.dispMsgsCursor < sizeT (c.nbMsgsDefaultChannel - 1) →
      CursorStep c buffer bufLen (c.dispMsgsCursor + 1)
  | up : 0 < c.dispMsgsCursor → CursorStep c buffer bufLen (c.dispMsgsCursor - 1)

private theorem onArrow_same (c : AnsiState) (key : UInt8) :
    (onArrow c key).msgsDefaultChannel = c.msgsDefaultChannel ∧
      (onArrow c key).nbMsgsDefaultChannel = c.nbMsgsDefaultChannel := by
  unfold onArrow
  split
  · split <;> exact ⟨rfl, rfl⟩
  · split
    · split <;> exact ⟨rfl, rfl⟩
    · split
      · split <;> exact ⟨rfl, rfl⟩
      · split
        · split <;> exact ⟨rfl, rfl⟩
        · exact ⟨rfl, rfl⟩

private theorem onArrow_cursor (hlen : bufLen ≠ 0) (h₀ : buffer.get 0 = ESCAPE)
    (h₁ : buffer.get 1 = SPECIAL_CHAR_ARROW) :
    CursorStep c buffer bufLen (onArrow c (buffer.get 2)).dispMsgsCursor := by
  unfold onArrow
  split
  · split <;> exact CursorStep.stay
  · split
    · split <;> exact CursorStep.stay
    · split
      · rename_i hkey
        split
        · rename_i hlt
          exact CursorStep.down ⟨hlen, h₀, h₁, hkey⟩ hlt
        · exact CursorStep.stay
      · split
        · split
          · rename_i hpos
            exact CursorStep.up hpos
          · exact CursorStep.stay
        · exact CursorStep.stay

private theorem onBackspace_same (hrun : onBackspace c = some c') : SameMessages c c' := by
  rw [onBackspace] at hrun
  split at hrun
  · obtain ⟨a, -, hrun⟩ := Option.bind_eq_some_iff.1 hrun
    obtain ⟨b, -, hrun⟩ := Option.bind_eq_some_iff.1 hrun
    cases hrun
    exact ⟨rfl, rfl, rfl⟩
  · cases hrun
    exact ⟨rfl, rfl, rfl⟩

private theorem onDelete_same (hrun : onDelete c = some c') : SameMessages c c' := by
  rw [onDelete] at hrun
  split at hrun
  · obtain ⟨a, -, hrun⟩ := Option.bind_eq_some_iff.1 hrun
    obtain ⟨b, -, hrun⟩ := Option.bind_eq_some_iff.1 hrun
    cases hrun
    exact ⟨rfl, rfl, rfl⟩
  · cases hrun
    exact ⟨rfl, rfl, rfl⟩

private theorem onCharacter_same {b : UInt8} (hrun : onCharacter c b = some c') : SameMessages c c' := by
  rw [onCharacter] at hrun
  split at hrun
  · cases hrun
    exact ⟨rfl, rfl, rfl⟩
  · dsimp only at hrun
    split at hrun
    all_goals
      obtain ⟨a₁, -, hrun⟩ := Option.bind_eq_some_iff.1 hrun
      obtain ⟨a₂, -, hrun⟩ := Option.bind_eq_some_iff.1 hrun
      obtain ⟨a₃, -, hrun⟩ := Option.bind_eq_some_iff.1 hrun
      cases hrun
      exact ⟨rfl, rfl, rfl⟩

private theorem onInput_cursor {r : AnsiState × List Message} (hlen : bufLen ≠ 0)
    (hrun : onInput rands memory c (buffer.get 0) (buffer.get 1) (buffer.get 2) = some r) :
    r.1.msgsDefaultChannel = c.msgsDefaultChannel ∧ r.1.nbMsgsDefaultChannel = c.nbMsgsDefaultChannel ∧
      CursorStep c buffer bufLen r.1.dispMsgsCursor := by
  have hsame : ∀ c', SameMessages c c' → c'.msgsDefaultChannel = c.msgsDefaultChannel ∧
      c'.nbMsgsDefaultChannel = c.nbMsgsDefaultChannel ∧ CursorStep c buffer bufLen c'.dispMsgsCursor := by
    intro c' hs
    rw [hs.cursor]
    exact ⟨hs.msgs, hs.nb, CursorStep.stay⟩
  rw [onInput] at hrun
  split at hrun
  · rename_i h₀
    split at hrun
    · rename_i h₁
      cases hrun
      exact ⟨(onArrow_same c _).1, (onArrow_same c _).2, onArrow_cursor hlen h₀ h₁⟩
    · split at hrun
      · split at hrun
        · obtain ⟨⟨client, sent⟩, -, rfl⟩ := Option.map_eq_some_iff.1 hrun
          exact hsame _ ⟨rfl, rfl, rfl⟩
        · split at hrun
          · obtain ⟨c', hkey, rfl⟩ := Option.map_eq_some_iff.1 hrun
            exact hsame c' (onBackspace_same hkey)
          · split at hrun
            · obtain ⟨c', hkey, rfl⟩ := Option.map_eq_some_iff.1 hrun
              exact hsame c' (onDelete_same hkey)
            · cases hrun
              exact hsame c ⟨rfl, rfl, rfl⟩
      · cases hrun
        exact hsame c ⟨rfl, rfl, rfl⟩
  · obtain ⟨c', hkey, rfl⟩ := Option.map_eq_some_iff.1 hrun
    exact hsame c' (onCharacter_same hkey)

/-- A key changes no message, and moves the cursor by at most one. -/
theorem onStdinClient_cursor {r : Pressed} (hrun : onStdinClient rands memory c buffer bufLen = some r) :
    r.state.msgsDefaultChannel = c.msgsDefaultChannel ∧ r.state.nbMsgsDefaultChannel = c.nbMsgsDefaultChannel ∧
      CursorStep c buffer bufLen r.state.dispMsgsCursor := by
  rw [onStdinClient] at hrun
  split at hrun
  · cases hrun
    exact ⟨rfl, rfl, CursorStep.stay⟩
  · rename_i hlen
    obtain ⟨r', hinput, rfl⟩ := Option.map_eq_some_iff.1 hrun
    split at hinput
    · exact onInput_cursor hlen hinput
    · cases hinput
      exact ⟨rfl, rfl, CursorStep.stay⟩

private theorem roomPanel_spec {fuel : ℕ} {p p' : PanelState} (hrun : roomPanel memory fuel p = some p')
    (hheights : p.heightsMsgsDefaultChannel.length = p.state.msgsDefaultChannel.length) :
    p'.heightsMsgsDefaultChannel.length = p'.state.msgsDefaultChannel.length ∧
      p'.state.nbMsgsDefaultChannel < p'.state.msgsDefaultChannel.length ∧
      p'.state.nbMsgsDefaultChannel = p.state.nbMsgsDefaultChannel ∧
      p'.state.dispMsgsCursor = p.state.dispMsgsCursor := by
  induction fuel generalizing p with
  | zero => cases hrun
  | succ fuel ih =>
    rw [roomPanel] at hrun
    split at hrun
    · have hgrown : (growPanel memory p).heightsMsgsDefaultChannel.length =
          (growPanel memory p).state.msgsDefaultChannel.length := by
        rw [growPanel, growDefaultChannel, List.length_append, List.length_append, List.length_replicate,
          List.length_map, List.length_range, hheights]
      have hspec := ih hrun hgrown
      exact hspec
    · rename_i hroom
      cases hrun
      exact ⟨hheights, Nat.not_le.1 hroom, rfl, rfl⟩

/-- A stored message comes after the others, and the cursor goes to it from the newest one. -/
private theorem onReceivedMessagePanel_spec {p p' : PanelState}
    (hrun : onReceivedMessagePanel fuel memory p msg = some p')
    (hheights : p.heightsMsgsDefaultChannel.length = p.state.msgsDefaultChannel.length) :
    p'.heightsMsgsDefaultChannel.length = p'.state.msgsDefaultChannel.length ∧
      p.state.nbMsgsDefaultChannel < p'.state.msgsDefaultChannel.length ∧
      p'.state.nbMsgsDefaultChannel = p.state.nbMsgsDefaultChannel + 1 ∧
      p'.state.dispMsgsCursor =
        if sizeT p.state.dispMsgsCursor = sizeT (p.state.nbMsgsDefaultChannel - 1) then p.state.dispMsgsCursor + 1
        else p.state.dispMsgsCursor := by
  obtain ⟨p₁, hroom, hrun⟩ := Option.bind_eq_some_iff.1 hrun
  obtain ⟨slot, -, hrun⟩ := Option.bind_eq_some_iff.1 hrun
  obtain ⟨copy, -, hrun⟩ := Option.bind_eq_some_iff.1 hrun
  cases hrun
  obtain ⟨hlen, hlt, hnb, hcursor⟩ := roomPanel_spec hroom hheights
  refine ⟨by rw [AnsiState.store, List.length_set]; exact hlen, ?_, ?_, ?_⟩
  · rw [AnsiState.store, List.length_set, ← hnb]
    exact hlt
  · rw [AnsiState.store, hnb]
  · rw [AnsiState.store, hnb, hcursor]

/-- A message leaves the received ones as they are, or comes after them. -/
theorem onMsgPanel_cases {r : PanelState × List Message} (hrun : onMsgPanel fuel memory p msg = some r)
    (hheights : p.heightsMsgsDefaultChannel.length = p.state.msgsDefaultChannel.length) :
    (r.1.heightsMsgsDefaultChannel = p.heightsMsgsDefaultChannel ∧ SameMessages p.state r.1.state) ∨
    (r.1.heightsMsgsDefaultChannel.length = r.1.state.msgsDefaultChannel.length ∧
      p.state.nbMsgsDefaultChannel < r.1.state.msgsDefaultChannel.length ∧
      r.1.state.nbMsgsDefaultChannel = p.state.nbMsgsDefaultChannel + 1 ∧
      r.1.state.dispMsgsCursor =
        if sizeT p.state.dispMsgsCursor = sizeT (p.state.nbMsgsDefaultChannel - 1) then p.state.dispMsgsCursor + 1
        else p.state.dispMsgsCursor) := by
  obtain ⟨⟨client, sent⟩, -, hrun⟩ := Option.bind_eq_some_iff.1 hrun
  dsimp only at hrun
  split at hrun
  · cases hrun
    refine Or.inl ?_
    dsimp only
    split <;> exact ⟨rfl, rfl, rfl, rfl⟩
  · split at hrun
    · obtain ⟨p', hstored, hrun⟩ := Option.bind_eq_some_iff.1 hrun
      cases hrun
      have hspec := onReceivedMessagePanel_spec hstored hheights
      exact Or.inr hspec
    · cases hrun
      exact Or.inl ⟨rfl, rfl, rfl, rfl⟩

/-! ### Runs -/

/-- The arrays of the messages and of their heights have room for what was received. -/
structure Roomy (p : PanelState) : Prop where
  slots : p.state.nbMsgsDefaultChannel ≤ p.state.msgsDefaultChannel.length
  heights : p.heightsMsgsDefaultChannel.length = p.state.msgsDefaultChannel.length

theorem initPanel_roomy (codes : List UInt8 → Option (List UInt8)) : Roomy (initPanel codes) where
  slots := Nat.zero_le _
  heights := by rw [initPanel, initCstate, List.length_replicate, List.length_replicate]

theorem Roomy.key (h : Roomy p) {r : Pressed}
    (hrun : onStdinClient rands memory p.state buffer bufLen = some r) : Roomy { p with state := r.state } := by
  obtain ⟨hmsgs, hnb, -⟩ := onStdinClient_cursor hrun
  exact ⟨by rw [hmsgs, hnb]; exact h.slots, by rw [hmsgs]; exact h.heights⟩

theorem Roomy.message (h : Roomy p) {r : PanelState × List Message}
    (hrun : onMsgPanel fuel memory p msg = some r) : Roomy r.1 := by
  rcases onMsgPanel_cases hrun h.heights with ⟨hheights, hs⟩ | ⟨hheights, hslots, hnb, -⟩
  · exact ⟨by rw [hs.nb, hs.msgs]; exact h.slots, by rw [hheights, hs.msgs]; exact h.heights⟩
  · exact ⟨by rw [hnb]; exact hslots, hheights⟩

/-- The cursor is on a received message, or is `0` when there is none. -/
structure CursorValid (p : PanelState) : Prop where
  empty : p.state.nbMsgsDefaultChannel = 0 → p.state.dispMsgsCursor = 0
  nonneg : 0 ≤ p.state.dispMsgsCursor
  valid : p.state.nbMsgsDefaultChannel ≠ 0 → p.state.dispMsgsCursor < p.state.nbMsgsDefaultChannel
  slots : p.state.nbMsgsDefaultChannel ≤ p.state.msgsDefaultChannel.length
  heights : p.heightsMsgsDefaultChannel.length = p.state.msgsDefaultChannel.length

theorem CursorValid.roomy (h : CursorValid p) : Roomy p := ⟨h.slots, h.heights⟩

theorem initPanel_valid (codes : List UInt8 → Option (List UInt8)) : CursorValid (initPanel codes) where
  empty := fun _ => rfl
  nonneg := Int.le_refl 0
  valid := fun h => absurd rfl h
  slots := (initPanel_roomy codes).slots
  heights := (initPanel_roomy codes).heights

theorem cursorValid_key (h : CursorValid p) {r : Pressed}
    (hkey : DownKey buffer bufLen → p.state.nbMsgsDefaultChannel ≠ 0)
    (hrun : onStdinClient rands memory p.state buffer bufLen = some r) : CursorValid { p with state := r.state } := by
  obtain ⟨-, hnb, hstep⟩ := onStdinClient_cursor hrun
  have hroom := h.roomy.key hrun
  have hcursor : (p.state.nbMsgsDefaultChannel = 0 → r.state.dispMsgsCursor = 0) ∧ 0 ≤ r.state.dispMsgsCursor ∧
      (p.state.nbMsgsDefaultChannel ≠ 0 → r.state.dispMsgsCursor < p.state.nbMsgsDefaultChannel) := by
    have hempty := h.empty
    have hnonneg := h.nonneg
    have hvalid := h.valid
    generalize r.state.dispMsgsCursor = cursor at hstep ⊢
    cases hstep with
    | stay => exact ⟨hempty, hnonneg, hvalid⟩
    | down hdown hlt =>
      -- the cursor is not on the newest message, and there is one
      have hne : p.state.dispMsgsCursor ≠ p.state.nbMsgsDefaultChannel - 1 := by
        intro heq
        rw [heq] at hlt
        exact Nat.lt_irrefl _ hlt
      have hlast := hvalid (hkey hdown)
      exact ⟨fun h0 => absurd h0 (hkey hdown), by omega, fun _ => by omega⟩
    | up hpos => exact ⟨fun h0 => by have := hempty h0; omega, by omega, fun h0 => by have := hvalid h0; omega⟩
  exact
    { empty := fun h0 => hcursor.1 (hnb.symm.trans h0)
      nonneg := hcursor.2.1
      valid := fun h0 => by
        rw [hnb] at h0 ⊢
        exact hcursor.2.2 h0
      slots := hroom.slots
      heights := hroom.heights }

theorem cursorValid_message (h : CursorValid p) {r : PanelState × List Message}
    (hrun : onMsgPanel fuel memory p msg = some r) : CursorValid r.1 := by
  have hroom := h.roomy.message hrun
  rcases onMsgPanel_cases hrun h.heights with ⟨-, hs⟩ | ⟨-, -, hnb, hcursor⟩
  · exact
      { empty := by rw [hs.nb, hs.cursor]; exact h.empty
        nonneg := by rw [hs.cursor]; exact h.nonneg
        valid := by rw [hs.nb, hs.cursor]; exact h.valid
        slots := hroom.slots
        heights := hroom.heights }
  · have hempty := h.empty
    have hnonneg := h.nonneg
    have hvalid := h.valid
    have hbounds : 0 ≤ r.1.state.dispMsgsCursor ∧ r.1.state.dispMsgsCursor < p.state.nbMsgsDefaultChannel + 1 := by
      rw [hcursor]
      rcases Nat.eq_zero_or_pos p.state.nbMsgsDefaultChannel with h0 | hpos
      · -- before the first message the number less one is no index
        rw [hempty h0, h0, if_neg (by decide)]
        exact ⟨Int.le_refl 0, by decide⟩
      · have hlt := hvalid (by omega)
        split <;> omega
    exact
      { empty := fun h0 => by omega
        nonneg := hbounds.1
        valid := fun _ => by rw [hnb]; exact hbounds.2
        slots := hroom.slots
        heights := hroom.heights }

/-! ### Drawing -/

private theorem turns_height {x len : Int} (fuel : ℕ) :
    ∀ {t t' : Int × Int}, Loop.turns (lineTurn x len) fuel t = some t' → t.2 ≤ t'.2 := by
  induction fuel with
  | zero =>
    intro t t' hrun
    cases hrun
  | succ fuel ih =>
    intro t t' hrun
    rw [Loop.turns, lineTurn] at hrun
    by_cases hlong : x - t.1 > len
    · rw [if_pos hlong, if_neg Bool.false_ne_true] at hrun
      have hle := ih hrun
      dsimp only at hle
      omega
    · rw [if_neg hlong, if_pos rfl] at hrun
      cases hrun
      exact Int.le_refl _

theorem calcOneMsgTotHeight_ge {m : Message} {len height : Int} (hrun : calcOneMsgTotHeight fuel m len = some height) :
    3 ≤ height := by
  obtain ⟨t, hturns, hrun⟩ := Option.bind_eq_some_iff.1 hrun
  have hle := turns_height fuel hturns
  cases hrun
  split
  · exact Int.le_trans hle (by omega)
  · exact hle

/-- The heights that are written belong to received messages. -/
theorem calcMsgsTotHeight_spec {width : Int} (hrun : calcMsgsTotHeight fuel p width = some p') :
    p'.state = p.state ∧ p'.heightsMsgsDefaultChannel.length = p.heightsMsgsDefaultChannel.length ∧
      ∀ j < p.state.nbMsgsDefaultChannel, ∃ height, p'.heightsMsgsDefaultChannel[j]? = some height ∧ 3 ≤ height := by
  obtain ⟨heights, hfold, hrun⟩ := Option.bind_eq_some_iff.1 hrun
  cases hrun
  refine ⟨rfl, Loop.foldlM_range_of_some (fun i heights =>
    heights.length = p.heightsMsgsDefaultChannel.length ∧ ∀ j < i, ∃ height, heights[j]? = some height ∧ 3 ≤ height)
    hfold ⟨rfl, fun j hj => absurd hj (Nat.not_lt_zero j)⟩ ?_⟩
  rintro i - heights heights' ⟨hlen, hall⟩ hturn
  obtain ⟨m, -, hturn⟩ := Option.bind_eq_some_iff.1 hturn
  obtain ⟨height, hheight, hturn⟩ := Option.bind_eq_some_iff.1 hturn
  split at hturn
  · rename_i hlt
    cases hturn
    refine ⟨by rw [List.length_set, hlen], fun j hj => ?_⟩
    rw [List.getElem?_set]
    rcases Nat.eq_or_lt_of_le (Nat.lt_succ_iff.1 hj) with rfl | hlt'
    · rw [if_pos rfl, if_pos hlt]
      exact ⟨height, rfl, calcOneMsgTotHeight_ge hheight⟩
    · rw [if_neg hlt'.ne']
      exact hall j hlt'
  · cases hturn

theorem displayLeftPanel_panel {s : Screen} {r : PanelDisplay} (hrun : displayLeftPanel fuel s p = some r) :
    r.panel.state = p.state ∧ r.panel.heightsMsgsDefaultChannel.length = p.heightsMsgsDefaultChannel.length := by
  rw [displayLeftPanel] at hrun
  split at hrun
  · split at hrun
    · cases hrun
      exact ⟨rfl, rfl⟩
    · obtain ⟨p', hcalc, hrun⟩ := Option.bind_eq_some_iff.1 hrun
      obtain ⟨w, -, hrun⟩ := Option.bind_eq_some_iff.1 hrun
      obtain ⟨printed, -, hrun⟩ := Option.bind_eq_some_iff.1 hrun
      cases hrun
      obtain ⟨hstate, hlen, -⟩ := calcMsgsTotHeight_spec hcalc
      exact ⟨hstate, hlen⟩
  · cases hrun
    exact ⟨rfl, rfl⟩

theorem Roomy.display (h : Roomy p) {s : Screen} {r : PanelDisplay} (hrun : displayLeftPanel fuel s p = some r) :
    Roomy r.panel := by
  obtain ⟨hstate, hlen⟩ := displayLeftPanel_panel hrun
  exact ⟨by rw [hstate]; exact h.slots, by rw [hstate, hlen]; exact h.heights⟩

/-- The focused message is in the middle of the panel, and the messages above it leave room at the top. -/
def TopGap (s : Screen) (rows : List Int) (k : ℕ) : Prop :=
  s.panelHeight.tdiv 2 ≤ (rows.take k).sum + rows.getD k 0 ∧
  s.panelHeight.tdiv 2 ≤ (rows.drop (k + 1)).sum + rows.getD k 0 ∧
  (k = 0 ∨ (rows.take k).sum + k < s.panelHeight.tdiv 2 - (rows.getD k 0).tdiv 2)

/-- The layout reads the heights of received messages only, and goes over their ends only with a gap at the top. -/
theorem msgWindow_inRange {s : Screen} {heights rows : List Int} {k : ℕ} (h : Holds heights rows)
    (hk : k < rows.length) (hint : k < 2 ^ 31) :
    ∃ w, msgWindow s heights rows.length k = some w ∧ w.idLastMsgDisp < rows.length ∧
      (¬ TopGap s rows k → 0 ≤ w.idFirstMsgDisp) := by
  have hall : ∀ i ∈ List.range rows.length, i < rows.length := fun i hi => List.mem_range.1 hi
  have hlast : ∀ r : Int × Option ℕ, (∀ i, r.2 = some i → i < rows.length) →
      idOr r.2 (rows.length - 1) < rows.length := fun r hr =>
    (idOr_bounds 0 rows.length (rows.length - 1) (fun i hi => ⟨Nat.zero_le i, hr i hi⟩) (by omega)).2
  rw [msgWindow_eq h hk hint]
  split
  · obtain ⟨r, hr, hmem⟩ := h.lastDisplayed_returns s.panelWidth (List.range rows.length) hall 0
    exact ⟨_, by rw [hr]; rfl, hlast r fun i hi => hall i (hmem i hi), fun _ => Int.le_refl 0⟩
  · rename_i htop
    split
    · obtain ⟨r, hr, hmem⟩ := h.firstDisplayed_returns (List.range rows.length).reverse
        (fun i hi => hall i (List.mem_reverse.1 hi)) s.panelHeight
      have hbounds := idOr_bounds 0 rows.length 0
        (fun i hi => ⟨Nat.zero_le i, hall i (List.mem_reverse.1 (hmem i hi))⟩) (by omega)
      exact ⟨_, by rw [hr]; rfl, show (rows.length : Int) - 1 < rows.length by omega, fun _ => hbounds.1⟩
    · rename_i hbottom
      have habove : ∀ i ∈ (List.range k).reverse, i < rows.length := fun i hi =>
        (List.mem_range.1 (List.mem_reverse.1 hi)).trans hk
      have hbehind : ∀ i ∈ List.range' (k + 1) (rows.length - (k + 1)), i < rows.length := by
        intro i hi
        rw [List.mem_range'_1] at hi
        omega
      obtain ⟨r', hr', hmem'⟩ := h.lastDisplayed_returns s.panelWidth _ hbehind
        (s.panelHeight.tdiv 2 - (rows.getD k 0).tdiv 2 + rows.getD k 0)
      obtain ⟨r, hr, -⟩ := h.firstDisplayed_returns _ habove (s.panelHeight.tdiv 2 - (rows.getD k 0).tdiv 2)
      refine ⟨⟨r.1, idOr r.2 (-1), idOr r'.2 (rows.length - 1)⟩, by rw [hr, Option.bind_some, hr']; rfl,
        hlast r' fun i hi => hbehind i (hmem' i hi), fun hgap => ?_⟩
      rw [TopGap, and_iff_right (Int.not_lt.1 htop), and_iff_right (Int.not_lt.1 hbottom), not_or] at hgap
      obtain ⟨y', i, -, hstops⟩ := h.firstDisplayed_stops habove (fun hnil => hgap.1 (by simpa using hnil))
        (y := s.panelHeight.tdiv 2 - (rows.getD k 0).tdiv 2)
        (by rw [taken_reverse, taken_range hk.le]; omega)
      rw [hstops] at hr
      cases hr
      exact Int.natCast_nonneg i

/-- The first rows of an array that was written up to `nb`. -/
private theorem holds_take {heights : List Int} {nb : ℕ}
    (h : ∀ j < nb, ∃ height, heights[j]? = some height ∧ 3 ≤ height) :
    Holds heights (heights.take nb) ∧ (heights.take nb).length = nb := by
  have hlen : (heights.take nb).length = nb := by
    rw [List.length_take]
    rcases Nat.eq_zero_or_pos nb with rfl | hpos
    · exact Nat.zero_min _
    · obtain ⟨height, hget, -⟩ := h (nb - 1) (by omega)
      have hlt := (List.getElem?_eq_some_iff.1 hget).1
      omega
  refine ⟨⟨fun i hi => ?_, fun row hrow => ?_⟩, hlen⟩
  · rw [List.getElem?_take_of_lt (by omega)]
  · obtain ⟨i, hi, rfl⟩ := List.mem_iff_getElem.1 hrow
    obtain ⟨height, hget, hge⟩ := h i (by omega)
    rw [List.getElem_take, (List.getElem?_eq_some_iff.1 hget).2]
    omega

variable {codes : List UInt8 → Option (List UInt8)} {C : AnsiState → Input → ℕ → Prop}

/-- In every run the arrays have room: they grow together, before a message is stored. -/
theorem panelRun_roomy (h : PanelRun codes C p) : Roomy p := by
  induction h with
  | start => exact initPanel_roomy codes
  | key rands memory buffer bufLen _ _ hrun ih => exact ih.key hrun
  | message fuel memory msg _ hrun ih => exact ih.message hrun
  | display fuel s _ hrun ih => exact ih.display hrun

theorem panelRun_valid (h : PanelRun codes C p) (hC : ∀ c buffer bufLen, C c buffer bufLen →
    DownKey buffer bufLen → c.nbMsgsDefaultChannel ≠ 0) : CursorValid p := by
  induction h with
  | start => exact initPanel_valid codes
  | key rands memory buffer bufLen _ hgood hrun ih => exact cursorValid_key ih (hC _ _ _ hgood) hrun
  | message fuel memory msg _ hrun ih => exact cursorValid_message ih hrun
  | display fuel s _ hrun ih =>
    obtain ⟨hstate, -⟩ := displayLeftPanel_panel hrun
    have hroom := ih.roomy.display hrun
    exact
      { empty := by rw [hstate]; exact ih.empty
        nonneg := by rw [hstate]; exact ih.nonneg
        valid := by rw [hstate]; exact ih.valid
        slots := hroom.slots
        heights := hroom.heights }

/-- In every run in which the key down is pressed only after the first message: the cursor is on a received message, it
follows a new message from the newest one, and the panel reads the heights of received messages only, unless there is a
gap at its top. -/
theorem cursor_on_message (h : PanelRun codes C p) (hC : ∀ c buffer bufLen, C c buffer bufLen →
    DownKey buffer bufLen → c.nbMsgsDefaultChannel ≠ 0) :
    CursorValid p ∧
    (∀ fuel memory msg r, onMsgPanel fuel memory p msg = some r →
      p.state.dispMsgsCursor = p.state.nbMsgsDefaultChannel - 1 →
      r.1.state.dispMsgsCursor = r.1.state.nbMsgsDefaultChannel - 1) ∧
    (∀ fuel s p', calcMsgsTotHeight fuel p s.panelWidth = some p' → p.state.nbMsgsDefaultChannel ≠ 0 →
      p.state.dispMsgsCursor < 2 ^ 31 →
      ∃ w, msgWindow s p'.heightsMsgsDefaultChannel p.state.nbMsgsDefaultChannel p.state.dispMsgsCursor = some w ∧
        (¬ TopGap s (p'.heightsMsgsDefaultChannel.take p.state.nbMsgsDefaultChannel) p.state.dispMsgsCursor.toNat →
          ∃ printed, printMessages s p' w = some printed)) := by
  have hv := panelRun_valid h hC
  refine ⟨hv, fun fuel memory msg r hrun hnewest => ?_, fun fuel s p' hrun hne hint => ?_⟩
  · rcases onMsgPanel_cases hrun hv.heights with ⟨-, hs⟩ | ⟨-, -, hnb, hcursor⟩
    · rw [hs.nb, hs.cursor]
      exact hnewest
    · rw [hcursor, hnb, hnewest, if_pos rfl]
      omega
  · obtain ⟨k, hk⟩ := Int.eq_ofNat_of_zero_le hv.nonneg
    have hlt := hv.valid hne
    have hslots := hv.slots
    obtain ⟨hstate, -, hall⟩ := calcMsgsTotHeight_spec hrun
    obtain ⟨hholds, hlen⟩ := holds_take hall
    obtain ⟨w, hw, hlast, hfirst⟩ := msgWindow_inRange (s := s) (k := k) hholds (by omega) (by omega)
    rw [hlen] at hw
    refine ⟨w, by rw [hk]; exact hw, fun hgap => ?_⟩
    rw [hk, Int.toNat_natCast] at hgap
    obtain ⟨printed, hprinted, -⟩ := printMessages_spec (s := s) hholds (c := p'.state)
      (by rw [hstate, hlen]; exact hslots) (hfirst hgap) hlast
    exact ⟨printed, hprinted⟩

def enterKey : Input := keyBytes ESCAPE SPECIAL_CHAR_KEYS K_ENTER

def downKey : Input := keyBytes ESCAPE SPECIAL_CHAR_ARROW ARROW_BOTTOM

def upKey : Input := keyBytes ESCAPE SPECIAL_CHAR_ARROW ARROW_TOP

/-- The key down is pressed after the first message. -/
private def DownAfterMessage (c : AnsiState) (buffer : Input) (bufLen : ℕ) : Prop :=
  DownKey buffer bufLen → c.nbMsgsDefaultChannel ≠ 0

private instance (c : AnsiState) (buffer : Input) (bufLen : ℕ) : Decidable (DownAfterMessage c buffer bufLen) :=
  inferInstanceAs (Decidable (_ → _))

/-- The client after a key or a message. -/
private def panelStep (p : PanelState) : Input ⊕ Message → Option PanelState
  | .inl buffer =>
    if DownAfterMessage p.state buffer 3 then
      (onStdinClient (fun _ => 0) (fun _ => Message.zero) p.state buffer 3).map fun r => { p with state := r.state }
    else none
  | .inr msg => (onMsgPanel 2 (fun _ => Message.zero) p msg).map Prod.fst

private theorem PanelRun.step {step : Input ⊕ Message} (h : PanelRun codes DownAfterMessage p)
    (hstep : panelStep p step = some p') : PanelRun codes DownAfterMessage p' := by
  cases step with
  | inl buffer =>
    rw [panelStep] at hstep
    split at hstep
    · rename_i hdown
      obtain ⟨r, hr, rfl⟩ := Option.map_eq_some_iff.1 hstep
      exact h.key _ _ buffer 3 hdown hr
    · cases hstep
  | inr msg =>
    obtain ⟨r, hr, rfl⟩ := Option.map_eq_some_iff.1 hstep
    exact h.message _ _ msg hr

/-- Alice types her name, gets a session and receives two texts; she moves the cursor up, down and up again. -/
private def aliceReads : List (Input ⊕ Message) :=
  let text := { Message.zero with msgType := MSG_SERVER_CLIENT, dstFlag := MSG_FLAG_DEFAULT_CHANNEL, msgLength := 3 }
  ((ascii "alice").map fun b => .inl (character b)) ++
    [.inl enterKey, .inr wellConnected, .inr text, .inr text, .inl upKey, .inl downKey, .inl upKey]

private theorem aliceReads_cursor :
    (aliceReads.foldlM panelStep (initPanel fun _ => none)).map
      (fun p => (p.state.nbMsgsDefaultChannel, p.state.dispMsgsCursor)) = some (2, 0) := by
  decide +kernel

theorem cursor_on_message_reads :
    ∃ p, PanelRun (fun _ => none) (fun c buffer bufLen => DownKey buffer bufLen → c.nbMsgsDefaultChannel ≠ 0) p ∧
      p.state.nbMsgsDefaultChannel = 2 ∧ CursorValid p := by
  obtain ⟨p, hp, hcursor⟩ := Option.map_eq_some_iff.1 aliceReads_cursor
  have hrun : PanelRun (fun _ => none) DownAfterMessage p :=
    Loop.foldlM_of_some (PanelRun (fun _ => none) DownAfterMessage) (fun _ _ _ h hstep => h.step hstep) _
      PanelRun.start hp
  exact ⟨p, hrun, (Prod.mk.inj hcursor).1, (cursor_on_message hrun fun _ _ _ h => h).1⟩

/-- The key down before the first message moves the cursor to a message that does not exist. -/
theorem down_before_first_message :
    ∃ p, PanelRun (fun _ => none) (fun _ _ _ => True) p ∧ p.state.nbMsgsDefaultChannel = 0 ∧
      p.state.dispMsgsCursor = 1 ∧ ¬ CursorValid p := by
  have hstart : PanelRun (fun _ => none) (fun _ _ _ => True) (initPanel fun _ => none) := .start
  have hrun := hstart.key (fun _ => 0) (fun _ => Message.zero) downKey 3 trivial rfl
  refine ⟨_, hrun, rfl, rfl, fun hvalid => ?_⟩
  have hzero := hvalid.empty rfl
  exact absurd hzero (by decide)

end NyanChat.Ansi
