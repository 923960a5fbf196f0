import NyanChat.ChatRoom
import NyanChat.CodeFiles

/-!
# The phases of the clients

How far each client of a chat room has come: it has not asked for a pseudo, its request is on the way, it waits, its
welcome is on the way, or it is connected (`Phase`).  Every step of the room keeps the phases (`Reached.coherent`): a
client sends one request at most, a refusal never reaches it, and whatever it gets after its welcome is for a
connected client.
-/

namespace NyanChat

namespace ChatRoom

open Network

variable {net net' : Network} {X Y : ℕ} {c c' : ClientState} {m msg : Message} {up down sent new : List Message}

/-! ### The phases of a client -/

/-- A message that a connected client gets: an acknowledgment or a copy of a text. -/
def ForConnected (m : Message) : Prop :=
  m.msgType = MSG_ACK_POS ∨
    m.msgType = MSG_SERVER_CLIENT ∧ m.dstFlag = MSG_FLAG_DEFAULT_CHANNEL ∧ cstr m.msg ≠ none

theorem ForConnected.type (h : ForConnected m) : m.msgType = MSG_ACK_POS ∨ m.msgType = MSG_SERVER_CLIENT := by
  rcases h with h | h
  · exact Or.inl h
  · exact Or.inr h.1

/-- A connection without session gets no copies. -/
theorem toward_copies {copies : List (ℕ × Message)} (hcopies : ∀ x ∈ copies, x.1 ∈ net.members ∧ Copies msg x.2)
    (ha : Apart net Y) : toward Y copies = [] := by
  refine List.eq_nil_iff_forall_not_mem.2 fun m hm => ?_
  obtain ⟨i, hi⟩ := mem_members.1 (hcopies _ (mem_toward.1 hm)).1
  exact ha i hi

theorem forConnected_copies {copies : List (ℕ × Message)}
    (hcopies : ∀ x ∈ copies, x.1 ∈ net.members ∧ Copies msg x.2) : ∀ m ∈ toward Y copies, ForConnected m := by
  intro m hm
  obtain ⟨htype, hdst, htext, hdefined, -⟩ := (hcopies _ (mem_toward.1 hm)).2
  exact Or.inr ⟨htype, hdst, htext ▸ hdefined⟩

/-- A text from the pseudo of a client. -/
def TextFrom (c : ClientState) (m : Message) : Prop :=
  m.msgType = MSG_STD_CLIENT_SERVER ∧ cstr m.srcPseudo = cstr c.pseudo

/-- The pseudo of a client is long enough for the server. -/
def Named (c : ClientState) : Prop := ∃ p, cstr c.pseudo = some p ∧ MIN_NAME_LENGTH ≤ p.length

theorem Named.ne (h : Named c) : cstr c.pseudo ≠ some [] := by
  obtain ⟨p, hp, hlong⟩ := h
  intro hempty
  obtain rfl := Option.some.inj (hp.symm.trans hempty)
  exact absurd hlong (by decide)

theorem Named.congr (h : Named c) (hpseudo : c'.pseudo = c.pseudo) : Named c' := by
  rw [Named, hpseudo]
  exact h

/-- How far the client of the connection `Y` has come, with the messages on the way from it and to it. -/
inductive Phase (net : Network) (Y : ℕ) (c : ClientState) (up down : List Message) : Prop
  | idle : c.waitingPseudoConfirmation = false → c.connected = false → up = [] → down = [] → Apart net Y →
      Phase net Y c up down
  | asked {m : Message} : c.waitingPseudoConfirmation = true → c.connected = false → up = [m] → down = [] →
      m.msgType = MSG_CONNECTION_CLIENT → cstr m.srcPseudo = cstr c.pseudo → Apart net Y → Phase net Y c up down
  | unanswered : c.waitingPseudoConfirmation = true → c.connected = false → up = [] →
      (∀ m ∈ down, m.msgType = MSG_ERROR ∧ m.msgLength = 0) → Apart net Y → Phase net Y c up down
  | welcomed {m : Message} {rest : List Message} : c.waitingPseudoConfirmation = true → c.connected = false →
      Named c → up = [] → down = m :: rest → m.msgType = MSG_WELL_CONNECTED →
      (∀ m ∈ rest, ForConnected m) → Phase net Y c up down
  | settled : c.waitingPseudoConfirmation = false → c.connected = true → Named c →
      (∀ m ∈ up, TextFrom c m) → (∀ m ∈ down, ForConnected m) → Phase net Y c up down

namespace Phase

theorem keep (h : Phase net Y c up down) (hapart : Apart net Y → Apart net' Y) : Phase net' Y c up down := by
  cases h with
  | idle hw hc hup hdown ha => exact .idle hw hc hup hdown (hapart ha)
  | asked hw hc hup hdown htype hp ha => exact .asked hw hc hup hdown htype hp (hapart ha)
  | unanswered hw hc hup hdown ha => exact .unanswered hw hc hup hdown (hapart ha)
  | welcomed hw hc hp hup hdown htype hrest => exact .welcomed hw hc hp hup hdown htype hrest
  | settled hw hc hp hup hdown => exact .settled hw hc hp hup hdown

theorem same (h : Phase net Y c up down) (hsame : SameFiles c c') : Phase net Y c' up down := by
  obtain ⟨-, hpseudo, hwaiting, hconnected⟩ := hsame
  cases h with
  | idle hw hc hup hdown ha => exact .idle (hwaiting.trans hw) (hconnected.trans hc) hup hdown ha
  | asked hw hc hup hdown htype hp ha =>
    exact .asked (hwaiting.trans hw) (hconnected.trans hc) hup hdown htype (hpseudo ▸ hp) ha
  | unanswered hw hc hup hdown ha => exact .unanswered (hwaiting.trans hw) (hconnected.trans hc) hup hdown ha
  | welcomed hw hc hp hup hdown htype hrest =>
    exact .welcomed (hwaiting.trans hw) (hconnected.trans hc) (hp.congr hpseudo) hup hdown htype hrest
  | settled hw hc hp hup hdown =>
    refine .settled (hwaiting.trans hw) (hconnected.trans hc) (hp.congr hpseudo) (fun m hm => ?_) hdown
    exact ⟨(hup m hm).1, hpseudo ▸ (hup m hm).2⟩

/-- A connected client sends its texts. -/
theorem sent_text {rands : ℕ → ℕ} {memory : ℕ → Message} {buffer : List UInt8} {len : ℕ}
    (hrun : onStdinClient rands memory c buffer len = some (c', sent)) (hpseudo : cstr c.pseudo ≠ some []) :
    ∀ m ∈ sent, TextFrom c m := by
  cases onStdinClient_step hrun with
  | quiet => exact nofun
  | request hreq => exact absurd hreq.noPseudo hpseudo
  | text _ _ hfind _ hslot =>
    obtain ⟨text, -, htext⟩ := textSlot_spec hslot
    intro m hm
    rw [List.mem_singleton.1 hm]
    exact ⟨htext.msgType, htext.srcPseudo.trans (congrArg cstr (findNextMsgId_slot hfind).pseudo_eq)⟩

/-- A line is a request of an idle client, a text of a connected one, or brings nothing. -/
theorem typed (h : Phase net Y c up down) {rands : ℕ → ℕ} {memory : ℕ → Message} {buffer : List UInt8} {len : ℕ}
    (hrun : onStdinClient rands memory c buffer len = some (c', sent)) : Phase net Y c' (up ++ sent) down := by
  cases onStdinClient_files hrun with
  | @request m p code hidle hempty hwaiting hconnected hsent hasks =>
    cases h with
    | idle hw hc hup hdown ha =>
      refine .asked hwaiting (hconnected.trans hc) ?_ hdown hasks.msgType ?_ ha
      · rw [hup, hsent, List.nil_append]
      · exact hasks.srcPseudo.trans hasks.pseudo.symm
    | settled _ _ hp => exact absurd hempty hp.ne
    | asked hw => exact absurd (hw.symm.trans hidle) (by decide)
    | unanswered hw => exact absurd (hw.symm.trans hidle) (by decide)
    | welcomed hw => exact absurd (hw.symm.trans hidle) (by decide)
  | text hsame hconn _ =>
    by_cases hsent : sent = []
    · rw [hsent, List.append_nil]
      exact h.same hsame
    · have htrue := hconn hsent
      cases h with
      | settled hw hc hp hup hdown =>
        have hall : Phase net Y c (up ++ sent) down := by
          refine .settled hw hc hp (fun m hm => ?_) hdown
          rcases List.mem_append.1 hm with hm | hm
          · exact hup m hm
          · exact sent_text hrun hp.ne m hm
        exact hall.same hsame
      | idle _ hc => exact absurd (hc.symm.trans htrue) (by decide)
      | asked _ hc => exact absurd (hc.symm.trans htrue) (by decide)
      | unanswered _ hc => exact absurd (hc.symm.trans htrue) (by decide)
      | welcomed _ hc => exact absurd (hc.symm.trans htrue) (by decide)

/-- A message that a client reads is its welcome, or one for a connected client. -/
theorem received (h : Phase net Y c up (msg :: down)) (hpass : PassesLength msg)
    (hrun : onMsgClient c msg = some (c', sent)) : sent = [] ∧ Phase net Y c' up down := by
  cases h with
  | idle _ _ _ hdown => cases hdown
  | asked _ _ _ hdown => cases hdown
  | unanswered _ _ _ hdown _ =>
    obtain ⟨htype, hlen⟩ := hdown msg List.mem_cons_self
    have hmem := hpass hlen
    rw [htype] at hmem
    exact absurd hmem (by decide)
  | @welcomed w rest hw hc hp hup hdown htype hrest =>
    obtain ⟨rfl, rfl⟩ := List.cons.inj hdown
    cases onMsgClient_files hrun with
    | refused _ herror => exact absurd (htype.symm.trans herror) (by decide)
    | accepted _ _ _ hpseudo hwaiting hconnected hsent =>
      refine ⟨hsent, .settled hwaiting hconnected (hp.congr hpseudo) (fun m hm => ?_) hrest⟩
      rw [hup] at hm
      cases hm
    | other _ hno => exact absurd htype (hno hw).2
  | settled hw hc hp hup hdown =>
    rw [List.forall_mem_cons] at hdown
    have hsent : sent = [] := by
      cases onMsgClient_step hrun with
      | again _ _ htype =>
        rcases hdown.1.type with h | h
        · exact absurd (htype.symm.trans h) (by decide)
        · exact absurd (htype.symm.trans h) (by decide)
      | _ => rfl
    refine ⟨hsent, ?_⟩
    cases onMsgClient_files hrun with
    | refused hwait => exact absurd (hw.symm.trans hwait) (by decide)
    | accepted hwait => exact absurd (hw.symm.trans hwait) (by decide)
    | other hsame =>
      have hrest : Phase net Y c up down := .settled hw hc hp hup hdown.2
      exact hrest.same hsame

/-- The proxy reads a message, disturbs it or drops it. -/
theorem requested {A B : List Message} (h : Phase net Y c (A ++ m :: B) down)
    (hnew : new = [] ∨ ∃ m', new = [m'] ∧ m'.msgType = m.msgType ∧ m'.srcPseudo = m.srcPseudo) :
    Phase net Y c (A ++ new ++ B) down := by
  cases h with
  | idle _ _ hup => exact absurd hup (by simp)
  | unanswered _ _ hup => exact absurd hup (by simp)
  | welcomed _ _ _ hup => exact absurd hup (by simp)
  | @asked m₀ hw hc hup hdown htype hp ha =>
    obtain ⟨rfl, rfl, rfl⟩ : A = [] ∧ m = m₀ ∧ B = [] := by
      cases A with
      | nil => simpa using hup
      | cons a A => simp at hup
    rcases hnew with rfl | ⟨m', rfl, htype', hpseudo⟩
    · refine .unanswered hw hc rfl (fun m hm => ?_) ha
      rw [hdown] at hm
      cases hm
    · exact .asked hw hc rfl hdown (htype'.trans htype) (by rw [hpseudo, hp]) ha
  | settled hw hc hp hup hdown =>
    refine .settled hw hc hp (fun m₁ hm₁ => ?_) hdown
    have hm := hup m (List.mem_append_right _ List.mem_cons_self)
    rcases List.mem_append.1 hm₁ with hm₁ | hm₁
    · rcases List.mem_append.1 hm₁ with hm₁ | hm₁
      · exact hup m₁ (List.mem_append_left _ hm₁)
      · rcases hnew with rfl | ⟨m', rfl, htype', hpseudo⟩
        · cases hm₁
        · rw [List.mem_singleton.1 hm₁]
          exact ⟨htype'.trans hm.1, (congrArg cstr hpseudo).trans hm.2⟩
    · exact hup m₁ (List.mem_append_right _ (List.mem_cons_of_mem _ hm₁))

/-- The proxy drops a message of the server. -/
theorem dropped {A B : List Message} (h : Phase net Y c up (A ++ msg :: B))
    (hdrop : msg.msgType ≠ MSG_NULL → ¬ PassesLength msg) : Phase net Y c up (A ++ B) := by
  have hsub : ∀ A : List Message, A ++ B ⊆ A ++ msg :: B := fun A =>
    ((List.sublist_cons_self msg B).append_left A).subset
  cases h with
  | idle _ _ _ hdown => exact absurd hdown (by simp)
  | asked _ _ _ hdown => exact absurd hdown (by simp)
  | unanswered hw hc hup hdown ha => exact .unanswered hw hc hup (fun m hm => hdown m (hsub A hm)) ha
  | @welcomed w rest hw hc hp hup hdown htype hrest =>
    cases A with
    | nil =>
      -- a welcome has the length zero and passes
      obtain ⟨rfl, -⟩ := List.cons.inj hdown
      refine absurd (fun _ => ?_) (hdrop (by rw [htype]; decide))
      rw [htype]
      decide
    | cons a A =>
      obtain ⟨rfl, rfl⟩ := List.cons.inj hdown
      refine .welcomed hw hc hp hup rfl htype fun m hm => hrest m (hsub A hm)
  | settled hw hc hp hup hdown => exact .settled hw hc hp hup fun m hm => hdown m (hsub A hm)

/-- New messages for a connected client, of which there are none for a connection without session. -/
theorem extended (h : Phase net Y c up down) (hnew : ∀ m ∈ new, ForConnected m) (hnone : Apart net Y → new = [])
    (hapart : Apart net Y → Apart net' Y) : Phase net' Y c up (down ++ new) := by
  have hsame : Apart net Y → Phase net' Y c up (down ++ new) := by
    intro ha
    rw [hnone ha, List.append_nil]
    exact h.keep hapart
  cases h with
  | idle _ _ _ _ ha => exact hsame ha
  | asked _ _ _ _ _ _ ha => exact hsame ha
  | unanswered _ _ _ _ ha => exact hsame ha
  | @welcomed w rest hw hc hp hup hdown htype hrest =>
    have hmore : down ++ new = w :: (rest ++ new) := by rw [hdown, List.cons_append]
    exact .welcomed hw hc hp hup hmore htype fun m hm => (List.mem_append.1 hm).elim (hrest m) (hnew m)
  | settled hw hc hp hup hdown =>
    exact .settled hw hc hp hup fun m hm => (List.mem_append.1 hm).elim (hdown m) (hnew m)

/-- The server handles a message of another connection. -/
theorem others {l : List (ℕ × Message)} (h : Phase net Y c up down) (hne : X ≠ Y) (hs : Served net net' X msg l) :
    Phase net' Y c up (down ++ toward Y l) := by
  cases hs with
  | silent _ hholder =>
    rw [toward_nil, List.append_nil]
    exact h.keep fun ha i => by rw [hholder]; exact ha i
  | refused _ _ _ hholder =>
    rw [toward_cons_of_ne hne, toward_nil, List.append_nil]
    exact h.keep fun ha i => by rw [hholder]; exact ha i
  | @welcomed m p i _ _ _ _ hX hothers =>
    rw [toward_cons_of_ne hne, toward_nil, List.append_nil]
    refine h.keep fun ha j hj => ?_
    by_cases hji : j = i
    · subst hji
      exact hne (Option.some.inj (hX.symm.trans hj))
    · exact ha j (hothers j hji Y hj)
  | relayed _ _ _ hcopies hholder =>
    rw [toward_cons_of_ne hne]
    exact h.extended (forConnected_copies hcopies) (toward_copies hcopies) fun ha i => by rw [hholder]; exact ha i

/-- The server handles a message of the connection. -/
theorem answered {l : List (ℕ × Message)} (h : Phase net X c (msg :: up) down) (hs : Served net net' X msg l) :
    Phase net' X c up (down ++ toward X l) := by
  cases h with
  | idle _ _ hup => cases hup
  | unanswered _ _ hup => cases hup
  | welcomed _ _ _ hup => cases hup
  | asked hw hc hup hdown htype hp ha =>
    obtain ⟨rfl, rfl⟩ := List.cons.inj hup
    rw [hdown, List.nil_append]
    cases hs with
    | silent _ hholder =>
      exact .unanswered hw hc rfl (fun m hm => absurd hm List.not_mem_nil) fun i => by rw [hholder]; exact ha i
    | refused _ herror hlen hholder =>
      rw [toward_cons_self, toward_nil]
      refine .unanswered hw hc rfl (fun m hm => ?_) fun i => by rw [hholder]; exact ha i
      rw [List.mem_singleton.1 hm]
      exact ⟨herror, hlen⟩
    | welcomed _ hq hlong hwell _ _ =>
      rw [toward_cons_self, toward_nil]
      have hnamed : Named c := ⟨_, hp.symm.trans hq, hlong⟩
      exact .welcomed hw hc hnamed rfl rfl hwell fun m hm => absurd hm List.not_mem_nil
    | relayed htext => exact absurd (htype.symm.trans htext) (by decide)
  | settled hw hc hp hup hdown =>
    rw [List.forall_mem_cons] at hup
    have hrest : Phase net X c up down := .settled hw hc hp hup.2 hdown
    have htype := hup.1.1
    cases hs with
    | silent _ hholder =>
      rw [toward_nil, List.append_nil]
      exact hrest.keep fun ha i => by rw [hholder]; exact ha i
    | refused hconn => exact absurd (hconn.symm.trans htype) (by decide)
    | welcomed hconn => exact absurd (hconn.symm.trans htype) (by decide)
    | relayed _ _ hack hcopies _ =>
      rw [toward_cons_self]
      refine .settled hw hc hp hup.2 fun m hm => ?_
      rcases List.mem_append.1 hm with hm | hm
      · exact hdown m hm
      · rcases List.mem_cons.1 hm with rfl | hm
        · exact Or.inl hack
        · exact forConnected_copies hcopies m hm

theorem apart_of_request (h : Phase net X c (msg :: up) down) (htype : msg.msgType = MSG_CONNECTION_CLIENT) :
    Apart net X := by
  cases h with
  | idle _ _ hup => cases hup
  | asked _ _ _ _ _ _ ha => exact ha
  | unanswered _ _ hup => cases hup
  | welcomed _ _ _ hup => cases hup
  | settled _ _ _ hup => exact absurd (htype.symm.trans (hup msg List.mem_cons_self).1) (by decide)

theorem msgType_ne_null (h : Phase net Y c up down) (hm : m ∈ up) : m.msgType ≠ MSG_NULL := by
  cases h with
  | idle _ _ hup =>
    rw [hup] at hm
    cases hm
  | unanswered _ _ hup =>
    rw [hup] at hm
    cases hm
  | welcomed _ _ _ hup =>
    rw [hup] at hm
    cases hm
  | asked _ _ hup _ htype =>
    rw [hup, List.mem_singleton] at hm
    rw [hm, htype]
    decide
  | settled _ _ _ hup =>
    rw [(hup m hm).1]
    decide

end Phase

/-! ### Runs -/

/-- What the runs keep. -/
structure Coherent (r : ChatRoom) : Prop where
  placed : Placed r.net
  one : OneSession r.net
  passed : ∀ Y, ∀ m ∈ r.down Y, PassesLength m
  phase : ∀ Y, Phase r.net Y (r.client Y).state.client (r.upward Y) (r.downward Y)

variable {r r' : ChatRoom}

theorem coherent_start {codes : ℕ → List UInt8 → Option (List UInt8)} {sockfd serverFd proxySock : Int}
    {files : List UInt8 → Option (List UInt8)} {server : ServerState} (hsock : sockfd ≠ -1)
    (hserver : initServerState files = some server) :
    Coherent (start codes (Network.start sockfd serverFd proxySock msg server)) := by
  have hserves := initServerState_serves hserver
  have hnone : ∀ i, (Network.start sockfd serverFd proxySock msg server).holder i = none := by
    intro i
    refine holder_none ?_
    cases hc : server.clients.get i with
    | none => exact hc
    | some c =>
      obtain ⟨p, hp⟩ := (hserves.clients i c).1 hc
      cases hp
  refine ⟨placed_start hsock msg hserver, fun i j Y hi => ?_, fun _ _ hm => absurd hm List.not_mem_nil, fun Y => ?_⟩
  · rw [ChatRoom.start, hnone] at hi
    cases hi
  · refine .idle rfl rfl rfl rfl fun i hi => ?_
    rw [ChatRoom.start, hnone] at hi
    cases hi

/-- A client has sent messages and comes to its next phase. -/
theorem Coherent.clientActs (h : Coherent r) {Z : ℕ} {p : Ansi.PanelState}
    (hphase : Phase r.net Z p.state.client (r.upward Z ++ sent) (r.downward Z)) : Coherent (r.clientActs Z p sent) := by
  refine ⟨h.placed, h.one, h.passed, fun Y => ?_⟩
  by_cases hY : Y = Z
  · subst hY
    simpa [upward, downward] using hphase
  · simpa [upward, downward, hY] using h.phase Y

/-- A client has read a message. -/
theorem Coherent.receive (h : Coherent r) {Z : ℕ} {p : Ansi.PanelState} {rest : List Message}
    (hdown : r.down Z = msg :: rest) (hrun : onMsgClient (r.client Z).state.client msg = some (p.state.client, sent)) :
    sent = [] ∧ Coherent { r.clientActs Z p sent with down := Function.update r.down Z rest } := by
  have hphase := h.phase Z
  rw [downward, hdown, List.cons_append] at hphase
  obtain ⟨rfl, hphase⟩ := hphase.received (h.passed Z msg (by rw [hdown]; exact List.mem_cons_self)) hrun
  refine ⟨rfl, h.placed, h.one, fun Y m hm => ?_, fun Y => ?_⟩
  · by_cases hY : Y = Z
    · subst hY
      simp only [Function.update_self] at hm
      exact h.passed Y m (by rw [hdown]; exact List.mem_cons_of_mem _ hm)
    · simp only [Function.update_of_ne hY] at hm
      exact h.passed Y m hm
  · by_cases hY : Y = Z
    · subst hY
      simpa [upward, downward] using hphase
    · simpa [upward, downward, hY] using h.phase Y

/-- The proxy has read a message of a client. -/
theorem Coherent.request (h : Coherent r) {Z i : ℕ} {rands : ℕ → ℕ} {rest : List Message}
    (hZ : clientAt r.net.conClients r.net.owner i = some Z) (hup : r.up Z = msg :: rest)
    (hact : r.net.act (.request i msg rands) = some net') :
    Coherent { r.networkActs (.request i msg rands) net' with up := Function.update r.up Z rest } := by
  have hphase := h.phase Z
  rw [upward, hup] at hphase
  have hnull : msg.msgType ≠ MSG_NULL := hphase.msgType_ne_null (by simp)
  obtain ⟨hserver, hproxy, hholder⟩ := request_toServer hZ hnull hact
  have hdown : ∀ Y, (r.networkActs (.request i msg rands) net').down Y = r.down Y := fun Y => List.append_nil _
  refine ⟨h.placed.request hact, ?_, fun Y m hm => ?_, fun Y => ?_⟩
  · intro j k Y hj hk
    exact h.one j k Y (hholder ▸ hj) (hholder ▸ hk)
  · exact h.passed Y m (hdown Y ▸ hm)
  · have hkeep : Apart r.net Y → Apart net' Y := fun ha j => by rw [hholder]; exact ha j
    show Phase net' Y _ (toward Y net'.toServer ++ Function.update r.up Z rest Y)
      ((r.networkActs (.request i msg rands) net').down Y ++ toward Y net'.toProxy)
    rw [hdown, hserver, hproxy, toward_append]
    by_cases hY : Y = Z
    · subst hY
      rw [Function.update_self]
      refine (hphase.requested ?_).keep hkeep
      split
      · exact Or.inr ⟨onWay rands i msg, toward_cons_self, disturbed_msgType _ _ _, disturbed_srcPseudo _ _ _⟩
      · exact Or.inl rfl
    · have hnone : toward Y (if PassesLength msg then [(Z, onWay rands i msg)] else []) = [] := by
        split
        · rw [toward_cons_of_ne (Ne.symm hY), toward_nil]
        · rfl
      rw [Function.update_of_ne hY, hnone, List.append_nil]
      exact (h.phase Y).keep hkeep

/-- The proxy accepts a client or ends its turn. -/
theorem Coherent.own (h : Coherent r) {a : Action} (ha : a = .endTurn ∨ ∃ peer, a = .accept peer)
    (hact : r.net.act a = some net') : Coherent (r.networkActs a net') := by
  obtain ⟨hserver, hproxy, hholder⟩ := own_step ha hact
  have hbrings : r.net.brings a = [] := by
    rcases ha with rfl | ⟨peer, rfl⟩ <;> rfl
  have hdown : ∀ Y, (r.networkActs a net').down Y = r.down Y := by
    intro Y
    rw [networkActs, hbrings]
    exact List.append_nil _
  have hstays : ∀ i, a ≠ .close i := by
    rcases ha with rfl | ⟨peer, rfl⟩ <;> exact fun _ => Action.noConfusion
  refine ⟨h.placed.step hstays hact, ?_, fun Y m hm => ?_, fun Y => ?_⟩
  · intro j k Y hj hk
    exact h.one j k Y (hholder ▸ hj) (hholder ▸ hk)
  · exact h.passed Y m (hdown Y ▸ hm)
  · show Phase net' Y _ (toward Y net'.toServer ++ r.up Y) ((r.networkActs a net').down Y ++ toward Y net'.toProxy)
    rw [hdown, hserver, hproxy]
    exact (h.phase Y).keep fun ha j => by rw [hholder]; exact ha j

/-- The server has handled a message. -/
theorem Coherent.serve (h : Coherent r) {fuel : ℕ} {clock : Clock} {locals : Locals}
    (hact : r.net.act (.serve fuel clock locals) = some net') :
    Coherent (r.networkActs (.serve fuel clock locals) net') := by
  obtain ⟨X, msg, rest, hserver⟩ := exists_toServer hact
  obtain ⟨hserver', new, hproxy, hs⟩ := h.placed.serve_served hserver hact
  have hphase := h.phase X
  rw [upward, hserver, toward_cons_self, List.cons_append] at hphase
  have hdown : ∀ Y, (r.networkActs (.serve fuel clock locals) net').down Y = r.down Y := fun Y => List.append_nil _
  refine ⟨h.placed.serve hact, ?_, fun Y m hm => ?_, fun Y => ?_⟩
  · exact h.one.served hs fun htype => hphase.apart_of_request htype
  · exact h.passed Y m (hdown Y ▸ hm)
  · show Phase net' Y _ (toward Y net'.toServer ++ r.up Y)
      ((r.networkActs (.serve fuel clock locals) net').down Y ++ toward Y net'.toProxy)
    rw [hdown, hserver', hproxy, toward_append, ← List.append_assoc]
    by_cases hY : X = Y
    · subst hY
      exact hphase.answered hs
    · have hother := h.phase Y
      rw [upward, hserver, toward_cons_of_ne hY] at hother
      exact hother.others hY hs

/-- The proxy has handled a message of the server. -/
theorem Coherent.deliver (h : Coherent r) (hact : r.net.act .deliver = some net') :
    Coherent (r.networkActs .deliver net') := by
  obtain ⟨X, msg, rest, hproxy⟩ := exists_toProxy hact
  obtain ⟨hproxy', hserver', hholder, hbrings⟩ := h.placed.deliver_brings hproxy hact
  have hkeep : ∀ Y, Apart r.net Y → Apart net' Y := fun Y ha j => by rw [hholder]; exact ha j
  refine ⟨h.placed.deliver hact, ?_, fun Y m hm => ?_, fun Y => ?_⟩
  · intro j k Y hj hk
    exact h.one j k Y (hholder ▸ hj) (hholder ▸ hk)
  · rcases List.mem_append.1 hm with hm | hm
    · exact h.passed Y m hm
    · rcases hbrings with ⟨hbrings, hpass⟩ | ⟨hbrings, -⟩
      · rw [hbrings, mem_toward, List.mem_singleton] at hm
        cases hm
        exact hpass
      · rw [hbrings] at hm
        cases hm
  · have hphase := h.phase Y
    rw [downward, hproxy] at hphase
    show Phase net' Y _ (toward Y net'.toServer ++ r.up Y)
      (r.down Y ++ toward Y (r.net.brings .deliver) ++ toward Y net'.toProxy)
    rw [hserver', hproxy']
    by_cases hY : X = Y
    · subst hY
      rw [toward_cons_self] at hphase
      rcases hbrings with ⟨hbrings, -⟩ | ⟨hbrings, hdrop⟩
      · rw [hbrings, toward_cons_self, toward_nil, List.append_assoc]
        exact hphase.keep (hkeep X)
      · rw [hbrings, toward_nil, List.append_nil]
        exact (hphase.dropped hdrop).keep (hkeep X)
    · have hnone : toward Y (r.net.brings .deliver) = [] := by
        rcases hbrings with ⟨hbrings, -⟩ | ⟨hbrings, -⟩
        · rw [hbrings, toward_cons_of_ne hY, toward_nil]
        · rw [hbrings, toward_nil]
      rw [toward_cons_of_ne hY] at hphase
      rw [hnone, List.append_nil]
      exact hphase.keep (hkeep Y)

theorem Reached.coherent (h : Reached r) : Coherent r := by
  induction h with
  | start hsock hserver => exact coherent_start hsock hserver
  | @next r r' hprev hnext ih =>
    cases hnext with
    | @key Z _ _ _ _ p hrun =>
      refine ih.clientActs ?_
      rcases Ansi.onStdinClient_client hrun with ⟨hclient, hsent⟩ | hline
      · rw [hsent, List.append_nil]
        exact hclient ▸ ih.phase Z
      · exact (ih.phase Z).typed hline
    | @redraw Z _ _ _ d hrun =>
      refine ih.clientActs ?_
      rw [List.append_nil, Ansi.displayClient_state hrun]
      exact ih.phase Z
    | @receive Z _ _ _ _ q hdown hrun =>
      have hspec := Ansi.onMsgClient_spec (hprev.slots Z) (Ansi.onMsgPanel_run hrun)
      exact (ih.receive hdown hspec.1).2
    | request hZ hup hact => exact ih.request hZ hup hact
    | own ha hact => exact ih.own ha hact
    | serve hact => exact ih.serve hact
    | deliver hact => exact ih.deliver hact

end ChatRoom

end NyanChat
