import NyanChat.MessageCursor
import NyanChat.PrintMessage

/-!
# Redrawing the client

`displayClient` draws the window of the program again, also in a terminal that is too small.  The loops over the lines
of a text are the only ones of it without a bound: they go on for ever when the width of a line is not positive and
the text is longer than it.  So a redraw ends when no received message is (`displayClient_terminates_iff`).
-/

namespace NyanChat.Ansi

open Faults

/-! ### The left panel -/

/-- `calc_msgs_tot_height` with its faults. -/
def checkedHeights (fuel : ℕ) (p : PanelState) (totWidth : Int) : Drawing PanelState := do
  let heights ← (List.range p.state.nbMsgsDefaultChannel).foldlM (fun (heights : List Int) j => do
    let msg ← orFail .outOfBounds p.state.msgsDefaultChannel[j]?
    let height ← orFail .endless (calcOneMsgTotHeight fuel msg (totWidth - 3))
    orFail .outOfBounds (if j < heights.length then some (heights.set j height) else none))
    p.heightsMsgsDefaultChannel
  return { p with heightsMsgsDefaultChannel := heights }

/-- A call of `print_message`, which leaves the message in its slot. -/
def printCall (fuel : ℕ) (st : PanelState × List Written) (call : PrintedMessage) :
    Drawing (PanelState × List Written) := do
  let r ← printMessage fuel st.1.state.client.pseudo call
  let msgs := st.1.state.msgsDefaultChannel.set call.id r.msg
  return ({ st.1 with state := { st.1.state with msgsDefaultChannel := msgs } }, st.2 ++ r.written)

/-- `display_left_panel` with its faults and with the messages that it prints. -/
def checkedLeftPanel (fuel : ℕ) (s : Screen) (p : PanelState) : Drawing (PanelState × List Written) :=
  if p.state.client.typeCurrentDest = MSG_FLAG_DEFAULT_CHANNEL then
    if p.state.nbMsgsDefaultChannel = 0 then .ok (p, [])
    else do
      let p ← checkedHeights fuel p s.panelWidth
      let w ← orFail .outOfBounds
        (msgWindow s p.heightsMsgsDefaultChannel p.state.nbMsgsDefaultChannel p.state.dispMsgsCursor)
      let calls ← orFail .outOfBounds (printMessages s p w)
      calls.foldlM (printCall fuel) (p, [])
  else .ok (p, [])

/-! ### The window -/

/-- What `display_client` leaves and writes; the borders, logos and titles are left out. -/
structure Redrawn where
  panel : PanelState
  /-- The error about the size of the terminal is written first. -/
  tooSmall : Bool
  messages : List Written
  line : List Drawn

def isTooSmall (s : Screen) : Bool := s.winWidth < MIN_TERMINAL_WIDTH || s.winHeight < MIN_TERMINAL_HEIGHT

def displayClientMainWindow (fuel : ℕ) (s : Screen) (p : PanelState) : Drawing Redrawn := do
  let (p, messages) ← checkedLeftPanel fuel s p
  let d ← orFail .outOfBounds (displayInputText p.state 5 (s.winHeight - 2) (s.winWidth - 4))
  return ⟨{ p with state := { p.state with input := d.input } }, isTooSmall s, messages, d.drawn⟩

/-- The typed line of the connection window, which is not written when it is empty. -/
def typedLine (c : AnsiState) : Drawing (List Drawn) :=
  if c.inputLength > 0 then do
    let text ← orFail .outOfBounds (stringFrom c.input 0)
    return [.text text]
  else .ok []

/-- `ty` is the height of `logo_connection`. -/
def displayClientConnectionWindow (s : Screen) (ty : Int) (p : PanelState) : Drawing Redrawn := do
  let yLogo := 3
  let yFinLogo := yLogo + ty - 3
  let xInp := (s.winWidth - MAX_NAME_LENGTH - 6).tdiv 2
  let line ← typedLine p.state
  return ⟨p, isTooSmall s, [], .cursorPosition (xInp + 2) (yFinLogo + 9) :: line ++
    [.cursorPosition (xInp + 2 + p.state.inputCursor) (yFinLogo + 9), .showCursor]⟩

/-- The size of the terminal is checked, but the drawing goes on. -/
def displayClient (fuel : ℕ) (s : Screen) (ty : Int) (p : PanelState) : Drawing Redrawn :=
  if p.state.client.connected then displayClientMainWindow fuel s p
  else displayClientConnectionWindow s ty p

variable {s : Screen} {p : PanelState} {fuel : ℕ}

/-! ### The panel without its faults -/

theorem checkedHeights_toOption (fuel : ℕ) (p : PanelState) (totWidth : Int) :
    (checkedHeights fuel p totWidth).toOption = calcMsgsTotHeight fuel p totWidth := by
  rw [checkedHeights, toOption_bind, toOption_foldlM]
  simp only [toOption_bind, toOption_orFail]
  rfl

/-- The messages that are printed are those that `displayLeftPanel` chooses. -/
theorem checkedLeftPanel_toOption (fuel : ℕ) (s : Screen) (p : PanelState) :
    (checkedLeftPanel fuel s p).toOption =
      (displayLeftPanel fuel s p).bind fun d => (d.printed.foldlM (printCall fuel) (d.panel, [])).toOption := by
  rw [checkedLeftPanel, displayLeftPanel]
  split
  · split
    · rfl
    · simp only [toOption_bind, toOption_orFail, checkedHeights_toOption, Option.bind_eq_bind, Option.bind_assoc,
        Option.pure_def, Option.bind_some]
  · rfl

/-! ### The loops over the lines -/

def DrawFault.IsEndless : DrawFault → Prop
  | .outOfBounds => False
  | .endless => True

/-- The loop over the lines of a text ends when its lines have a width, or one line is enough. -/
def LinesEnd (maxTextLineLength : Int) (m : Message) : Prop :=
  0 < maxTextLineLength ∨ m.msgLength.toInt32.toInt ≤ maxTextLineLength

theorem calcOneMsgTotHeight_returns {len : Int} {m : Message} (h : LinesEnd len m)
    (hfuel : m.msgLength.toInt32.toInt.toNat < fuel) : ∃ height, calcOneMsgTotHeight fuel m len = some height := by
  have hturns : ∃ t, Loop.turns (lineTurn m.msgLength.toInt32.toInt len) fuel (0, 3) = some t := by
    refine Loop.turns_returns (fun t => 0 < len ∨ m.msgLength.toInt32.toInt - t.1 ≤ len)
      (fun t => (m.msgLength.toInt32.toInt - t.1).toNat) (fun t ht => ?_) fuel (by rwa [Int.sub_zero])
      (by rwa [Int.sub_zero])
    rw [lineTurn]
    split
    · right
      dsimp only
      omega
    · exact Or.inl rfl
  obtain ⟨t, ht⟩ := hturns
  exact ⟨_, congrArg (Option.bind · _) ht⟩

/-- With lines without a width the index never goes up. -/
theorem calcOneMsgTotHeight_endless {len : Int} {m : Message} (h : ¬ LinesEnd len m) (fuel : ℕ) :
    calcOneMsgTotHeight fuel m len = none := by
  rw [LinesEnd, not_or] at h
  have hturns : Loop.turns (lineTurn m.msgLength.toInt32.toInt len) fuel (0, 3) = none := by
    refine Loop.turns_eq_none (fun t => t.1 ≤ 0) (fun t ht => ?_) fuel (Int.le_refl 0)
    rw [lineTurn, if_pos (by omega)]
    exact ⟨rfl, by dsimp only; omega⟩
  exact congrArg (Option.bind · _) hturns

/-- The heights are only counted to the end when no received message makes the loop endless. -/
theorem linesEnd_of_checkedHeights (hroom : Roomy p) {totWidth : Int}
    (h : Avoids DrawFault.IsEndless (checkedHeights fuel p totWidth)) :
    ∀ m ∈ p.state.msgsDefaultChannel.take p.state.nbMsgsDefaultChannel, LinesEnd (totWidth - 3) m := by
  have hslots := hroom.slots
  have hheights := hroom.heights
  rw [checkedHeights, avoids_bind] at h
  intro m hm
  obtain ⟨j, hj, rfl⟩ := List.mem_take_iff_getElem.1 hm
  have hreached := avoids_foldlM_mem (fun heights : List Int => heights.length = p.heightsMsgsDefaultChannel.length)
    (fun heights hlen i hi hend => by
      rw [List.mem_range] at hi
      rw [List.getElem?_eq_getElem (show i < p.state.msgsDefaultChannel.length by omega), orFail_some, ok_bind,
        avoids_orFail_bind trivial] at hend
      obtain ⟨height, hheight, -⟩ := hend
      refine ⟨heights.set i height, ?_, by rw [List.length_set, hlen]⟩
      rw [List.getElem?_eq_getElem (show i < p.state.msgsDefaultChannel.length by omega), orFail_some, ok_bind, hheight,
        orFail_some, ok_bind, if_pos (by omega), orFail_some]) rfl h.1 j (List.mem_range.2 (by omega))
  obtain ⟨heights, -, hend⟩ := hreached
  rw [List.getElem?_eq_getElem (by omega), orFail_some, ok_bind, avoids_orFail_bind trivial] at hend
  obtain ⟨height, hheight, -⟩ := hend
  refine by_contra fun hlines => ?_
  rw [calcOneMsgTotHeight_endless hlines] at hheight
  cases hheight

theorem avoids_outOfBounds {α : Type} (o : Option α) :
    Avoids DrawFault.IsEndless (orFail DrawFault.outOfBounds o) := by
  cases o with
  | none =>
    intro e he
    cases he
    exact id
  | some a => exact avoids_ok _ a

theorem avoids_outOfBounds_bind {α β : Type} {o : Option α} {f : α → Drawing β} :
    Avoids DrawFault.IsEndless (orFail .outOfBounds o >>= f) ↔ ∀ a, o = some a → Avoids DrawFault.IsEndless (f a) :=
  avoids_orFail_bind_of_not id

theorem toNat_length_lt (m : Message) : m.msgLength.toInt32.toInt.toNat < 2 ^ 31 := by
  have hlt := m.msgLength.toInt32.toInt_lt
  omega

theorem checkedHeights_avoids {totWidth : Int}
    (h : ∀ m ∈ p.state.msgsDefaultChannel.take p.state.nbMsgsDefaultChannel, LinesEnd (totWidth - 3) m)
    (hfuel : 2 ^ 31 ≤ fuel) : Avoids DrawFault.IsEndless (checkedHeights fuel p totWidth) := by
  rw [checkedHeights, avoids_bind]
  refine ⟨avoids_foldlM (fun _ => True) (fun heights _ j hj => ?_) (fun _ _ _ _ _ _ => trivial) trivial,
    fun heights _ => avoids_ok _ _⟩
  rw [avoids_outOfBounds_bind]
  intro m hm
  have hmem : m ∈ p.state.msgsDefaultChannel.take p.state.nbMsgsDefaultChannel := by
    obtain ⟨hlt, rfl⟩ := List.getElem?_eq_some_iff.1 hm
    rw [List.mem_range] at hj
    exact List.mem_take_iff_getElem.2 ⟨j, by omega, rfl⟩
  obtain ⟨height, hheight⟩ := calcOneMsgTotHeight_returns (h m hmem) ((toNat_length_lt m).trans_le hfuel)
  rw [hheight, orFail_some, ok_bind]
  exact avoids_outOfBounds _

/-! ### The loop that prints -/

namespace PrintedMessage

variable {call : PrintedMessage} {own : Vector UInt8 MAX_NAME_LENGTH} {msg : Message}

theorem headerPseudo_avoids : Avoids DrawFault.IsEndless (call.headerPseudo own msg) := by
  rw [headerPseudo, avoids_outOfBounds_bind]
  intro pseudo _
  split
  · rw [avoids_outOfBounds_bind]
    intro mine _
    split
    · exact avoids_ok _ _
    · dsimp only
      split
      · simp only [avoids_outOfBounds_bind]
        exact fun _ _ _ _ _ _ _ _ => avoids_ok _ _
      · exact avoids_ok _ _
  · exact avoids_ok _ _

theorem printLine_avoids {i pEnd cy : Int} : Avoids DrawFault.IsEndless (call.printLine msg i pEnd cy) := by
  rw [printLine]
  simp only [avoids_outOfBounds_bind]
  exact fun _ _ _ _ _ _ _ _ => avoids_ok _ _

theorem printLine_length {i pEnd cy : Int} {r : Message × List Written} (h : call.printLine msg i pEnd cy = .ok r) :
    r.1.msgLength = msg.msgLength := by
  rw [printLine] at h
  obtain ⟨tmp, -, h⟩ := bind_eq_ok.1 h
  obtain ⟨ended, -, h⟩ := bind_eq_ok.1 h
  obtain ⟨line, -, h⟩ := bind_eq_ok.1 h
  obtain ⟨restored, -, h⟩ := bind_eq_ok.1 h
  cases h
  rfl

/-- The loop that prints the lines ends where the loop that counts them does. -/
theorem printLines_avoids (fuel : ℕ) :
    ∀ {msg : Message} {i cy : Int},
      (0 < call.maxTextLineLength ∨ msg.msgLength.toInt32.toInt - i ≤ call.maxTextLineLength) →
      (msg.msgLength.toInt32.toInt - i).toNat < fuel → Avoids DrawFault.IsEndless (call.printLines fuel msg i cy) := by
  induction fuel with
  | zero => exact fun _ hfuel => absurd hfuel (Nat.not_lt_zero _)
  | succ fuel ih =>
    intro msg i cy hend hfuel
    rw [printLines]
    split
    · rename_i hlong
      have hrest : ∀ r : Message × List Written, r.1.msgLength = msg.msgLength → Avoids DrawFault.IsEndless (do
          let rest ← call.printLines fuel r.1 (i + call.maxTextLineLength) (cy + 1)
          return { rest with written := r.2 ++ rest.written }) := by
        intro r hr
        rw [avoids_bind]
        refine ⟨ih ?_ ?_, fun _ _ => avoids_ok _ _⟩
        · left
          omega
        · rw [hr]
          omega
      dsimp only
      split
      · rw [avoids_bind]
        exact ⟨printLine_avoids, fun r hr => hrest r (printLine_length hr)⟩
      · exact hrest (msg, []) rfl
    · exact avoids_ok _ _

theorem printLast_avoids (l : Lines) : Avoids DrawFault.IsEndless (call.printLast l) := by
  rw [printLast]
  split
  · rw [avoids_outOfBounds_bind]
    exact fun _ _ => avoids_ok _ _
  · exact avoids_ok _ _

end PrintedMessage

theorem printMessage_avoids {call : PrintedMessage} {own : Vector UInt8 MAX_NAME_LENGTH}
    (h : LinesEnd call.maxTextLineLength call.msg) (hfuel : 2 ^ 31 ≤ fuel) :
    Avoids DrawFault.IsEndless (printMessage fuel own call) := by
  have hrest : ∀ r : Message × List Written, r.1.msgLength = call.msg.msgLength → Avoids DrawFault.IsEndless (do
      let lines ← call.printLines fuel r.1 0 (call.y + 3)
      let last ← call.printLast lines
      return (⟨lines.msg, .cursorPosition call.x call.y :: call.headerBorders ++ r.2 ++ lines.written ++ last,
        lines.cy - 1⟩ : MessagePrinted)) := by
    intro r hr
    rw [avoids_bind]
    refine ⟨PrintedMessage.printLines_avoids fuel ?_ ?_, fun l _ => ?_⟩
    · rw [hr, Int.sub_zero]
      exact h
    · rw [hr, Int.sub_zero]
      exact (toNat_length_lt call.msg).trans_le hfuel
    · rw [avoids_bind]
      exact ⟨PrintedMessage.printLast_avoids l, fun _ _ => avoids_ok _ _⟩
  rw [printMessage]
  split
  · rw [avoids_bind]
    refine ⟨PrintedMessage.headerPseudo_avoids, fun r hr => hrest r ?_⟩
    rw [PrintedMessage.headerPseudo_msg hr]
  · exact hrest (call.msg, []) rfl

/-! ### The messages that are printed -/

theorem idOr_lt {id : Option ℕ} {nb : ℕ} (hid : ∀ i, id = some i → i < nb) : idOr id (nb - 1) < nb := by
  cases id with
  | none => exact Int.sub_one_lt_iff.2 (Int.le_refl _)
  | some i => exact Int.ofNat_lt.2 (hid i rfl)

/-- The last message of the window is a received one. -/
theorem msgWindow_last_lt {heights : List Int} {nb : ℕ} {cursor : Int} {w : MsgWindow}
    (h : msgWindow s heights nb cursor = some w) : w.idLastMsgDisp < nb := by
  rw [msgWindow] at h
  obtain ⟨cmh, -, h⟩ := Option.bind_eq_some_iff.1 h
  obtain ⟨sumPre, -, h⟩ := Option.bind_eq_some_iff.1 h
  obtain ⟨sumPost, -, h⟩ := Option.bind_eq_some_iff.1 h
  split at h
  · obtain ⟨⟨cy, last⟩, hlast, h⟩ := Option.bind_eq_some_iff.1 h
    cases h
    exact idOr_lt fun i hi => List.mem_range.1 (Loop.scan_mem hlast hi)
  · split at h
    · obtain ⟨⟨y₀, first⟩, -, h⟩ := Option.bind_eq_some_iff.1 h
      cases h
      exact Int.sub_one_lt_iff.2 (Int.le_refl _)
    · obtain ⟨⟨y₀, first⟩, -, h⟩ := Option.bind_eq_some_iff.1 h
      obtain ⟨⟨cy, last⟩, hlast, h⟩ := Option.bind_eq_some_iff.1 h
      cases h
      refine idOr_lt fun i hi => ?_
      have hmem := List.mem_range'_1.1 (Loop.scan_mem hlast hi)
      omega

/-- Only received messages are printed, in the width of the panel. -/
theorem printMessages_received {w : MsgWindow} {calls : List PrintedMessage} (h : printMessages s p w = some calls)
    (hlast : w.idLastMsgDisp < p.state.nbMsgsDefaultChannel) :
    ∀ call ∈ calls, call.msg ∈ p.state.msgsDefaultChannel.take p.state.nbMsgsDefaultChannel ∧
      call.maxTextLineLength = s.panelWidth - 3 := by
  rw [printMessages] at h
  obtain ⟨⟨cy, printed⟩, hrun, h⟩ := Option.bind_eq_some_iff.1 h
  cases h
  rw [List.foldlM_map] at hrun
  refine Loop.foldlM_range_of_some (fun _ (st : Int × List PrintedMessage) => ∀ call ∈ st.2,
    call.msg ∈ p.state.msgsDefaultChannel.take p.state.nbMsgsDefaultChannel ∧
      call.maxTextLineLength = s.panelWidth - 3) hrun
    (fun call hcall => absurd hcall List.not_mem_nil) ?_
  rintro i hi ⟨cy, before⟩ st' hbefore hstep
  obtain ⟨height, hheight, hstep⟩ := Option.bind_eq_some_iff.1 hstep
  obtain ⟨msg, hmsg, hstep⟩ := Option.bind_eq_some_iff.1 hstep
  cases hstep
  intro call hcall
  rcases List.mem_append.1 hcall with hcall | hcall
  · exact hbefore call hcall
  · obtain rfl := List.mem_singleton.1 hcall
    have hnonneg : 0 ≤ w.idFirstMsgDisp + i := by
      rw [heightAt] at hheight
      exact by_contra fun hneg => by rw [if_neg hneg] at hheight; cases hheight
    obtain ⟨hlt, rfl⟩ := List.getElem?_eq_some_iff.1 hmsg
    exact ⟨List.mem_take_iff_getElem.2 ⟨_, by omega, rfl⟩, rfl⟩

/-! ### The redraw -/

/-- The received messages are drawn, and their lines end. -/
def RedrawEnds (s : Screen) (p : PanelState) : Prop :=
  p.state.client.connected = true → p.state.client.typeCurrentDest = MSG_FLAG_DEFAULT_CHANNEL →
    ∀ m ∈ p.state.msgsDefaultChannel.take p.state.nbMsgsDefaultChannel, LinesEnd (s.panelWidth - 3) m

/-- The drawing comes back, or accesses an array outside its bounds, with some fuel. -/
def Terminates {α : Type} (drawing : ℕ → Drawing α) : Prop := ∃ fuel, Avoids DrawFault.IsEndless (drawing fuel)

theorem checkedHeights_state {totWidth : Int} {p' : PanelState} (h : checkedHeights fuel p totWidth = .ok p') :
    p'.state = p.state := by
  rw [checkedHeights] at h
  obtain ⟨heights, -, h⟩ := bind_eq_ok.1 h
  cases h
  rfl

theorem checkedLeftPanel_avoids (hfuel : 2 ^ 31 ≤ fuel)
    (h : p.state.client.typeCurrentDest = MSG_FLAG_DEFAULT_CHANNEL →
      ∀ m ∈ p.state.msgsDefaultChannel.take p.state.nbMsgsDefaultChannel, LinesEnd (s.panelWidth - 3) m) :
    Avoids DrawFault.IsEndless (checkedLeftPanel fuel s p) := by
  rw [checkedLeftPanel]
  split
  · rename_i hdest
    split
    · exact avoids_ok _ _
    · rw [avoids_bind]
      refine ⟨checkedHeights_avoids (h hdest) hfuel, fun p' hp' => ?_⟩
      have hstate := checkedHeights_state hp'
      rw [avoids_outOfBounds_bind]
      intro w hw
      rw [avoids_outOfBounds_bind]
      intro calls hcalls
      have hreceived := printMessages_received hcalls (msgWindow_last_lt hw)
      rw [hstate] at hreceived
      refine avoids_foldlM (fun _ => True) (fun st _ call hcall => ?_) (fun _ _ _ _ _ _ => trivial) trivial
      obtain ⟨hmem, hwidth⟩ := hreceived call hcall
      rw [printCall, avoids_bind]
      exact ⟨printMessage_avoids (by rw [hwidth]; exact h hdest _ hmem) hfuel, fun _ _ => avoids_ok _ _⟩
  · exact avoids_ok _ _

theorem displayClient_terminates {ty : Int} (h : RedrawEnds s p) :
    Terminates fun fuel => displayClient fuel s ty p := by
  refine ⟨2 ^ 31, ?_⟩
  dsimp only
  rw [displayClient]
  split
  · rename_i hconnected
    rw [displayClientMainWindow, avoids_bind]
    refine ⟨checkedLeftPanel_avoids (Nat.le_refl _) (h hconnected), fun r _ => ?_⟩
    rw [avoids_outOfBounds_bind]
    exact fun _ _ => avoids_ok _ _
  · rw [displayClientConnectionWindow, avoids_bind, typedLine]
    refine ⟨?_, fun _ _ => avoids_ok _ _⟩
    split
    · rw [avoids_outOfBounds_bind]
      exact fun _ _ => avoids_ok _ _
    · exact avoids_ok _ _

theorem redrawEnds_of_terminates {ty : Int} (hroom : Roomy p)
    (h : Terminates fun fuel => displayClient fuel s ty p) : RedrawEnds s p := by
  obtain ⟨fuel, h⟩ := h
  dsimp only at h
  intro hconnected hdest m hm
  have hsome : p.state.nbMsgsDefaultChannel ≠ 0 := by
    intro hzero
    rw [hzero, List.take_zero] at hm
    cases hm
  rw [displayClient, if_pos hconnected, displayClientMainWindow, avoids_bind, checkedLeftPanel, if_pos hdest,
    if_neg hsome, avoids_bind] at h
  exact linesEnd_of_checkedHeights hroom h.1.1 m hm

/-- For every size of the terminal and every list of received messages, with room in the arrays as in every run
(`panelRun_roomy`), a redraw ends exactly when their lines have a width, or each of them fits into one line. -/
theorem displayClient_terminates_iff {ty : Int} (hroom : Roomy p) :
    (Terminates fun fuel => displayClient fuel s ty p) ↔ RedrawEnds s p :=
  ⟨redrawEnds_of_terminates hroom, displayClient_terminates⟩

/-- The message `a` for all users. -/
private def letterForAll : Message :=
  { oneLetter with msgType := MSG_SERVER_CLIENT, dstFlag := MSG_FLAG_DEFAULT_CHANNEL }

/-- A connected client that received the message `a`. -/
private def withOneLetter : PanelState :=
  let c := initCstate fun _ => none
  ⟨{ c with
      client := { c.client with connected := true }
      msgsDefaultChannel := letterForAll :: c.msgsDefaultChannel.tail
      nbMsgsDefaultChannel := 1 }, List.replicate 10 0⟩

private theorem roomy_withOneLetter : Roomy withOneLetter := ⟨by decide, rfl⟩

/-- In the narrowest terminal that is not too small the message is drawn. -/
theorem displayClient_terminates_narrowest :
    Terminates fun fuel =>
      displayClient fuel ⟨MIN_TERMINAL_WIDTH, MIN_TERMINAL_HEIGHT, LOGO_MAIN_TX⟩ 20 withOneLetter :=
  (displayClient_terminates_iff roomy_withOneLetter).2 fun _ _ m _ => Or.inl (by decide)

/-- In a terminal of 60 columns the lines of the message have the width zero. -/
theorem displayClient_endless :
    isTooSmall ⟨60, 55, LOGO_MAIN_TX⟩ = true ∧
      ¬ Terminates fun fuel => displayClient fuel ⟨60, 55, LOGO_MAIN_TX⟩ 20 withOneLetter := by
  refine ⟨by decide, fun h => ?_⟩
  have hends := redrawEnds_of_terminates roomy_withOneLetter h rfl rfl letterForAll List.mem_cons_self
  rcases hends with hwidth | hshort
  · exact absurd hwidth (by decide)
  · exact absurd hshort (by decide)

end NyanChat.Ansi
