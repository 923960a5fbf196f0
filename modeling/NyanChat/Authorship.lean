import NyanChat.Transcripts
import Mathlib.Data.List.Forall2

/-!
# Who said what

The server handles the messages of each client in the order in which they were sent, disturbed by the proxy and
without the empty texts, and posts every text among them (`spoken_in_order`).  What a client shows was sent by a
connected client with the pseudo that is shown (`shown_authentic`).
-/

namespace NyanChat

namespace ChatRoom

open Network Ansi

variable {net net' : Network} {X Y : ℕ} {c c' : ClientState} {m msg : Message} {up down sent : List Message}
  {l : List (ℕ × Message)} {r r' : ChatRoom}

/-! ### What the server handles -/

/-- A message as the proxy has sent it on. -/
def Carried (m m' : Message) : Prop := ∃ rands i, m' = onWay rands i m

theorem Carried.msgType (h : Carried m msg) : msg.msgType = m.msgType := by
  obtain ⟨rands, i, rfl⟩ := h
  exact disturbed_msgType _ _ _

theorem Carried.srcPseudo (h : Carried m msg) : msg.srcPseudo = m.srcPseudo := by
  obtain ⟨rands, i, rfl⟩ := h
  exact disturbed_srcPseudo _ _ _

theorem Carried.msgLength (h : Carried m msg) : msg.msgLength = m.msgLength := by
  obtain ⟨rands, i, rfl⟩ := h
  exact disturbed_msgLength _ _ _

theorem Carried.dstFlag (h : Carried m msg) : msg.dstFlag = m.dstFlag := by
  obtain ⟨rands, i, rfl⟩ := h
  exact disturbed_dstFlag _ _ _

/-- The messages of a client are on their way, or were handled, in the order in which it sent them. -/
theorem Reached.in_order (h : Reached r) (X : ℕ) : ∃ past, r.sent X = past ++ r.up X ∧
    List.Forall₂ Carried (past.filter fun m => PassesLength m) (toward X (r.served ++ r.net.toServer)) := by
  induction h with
  | start _ _ => exact ⟨[], rfl, .nil⟩
  | @next r r' hprev hnext ih =>
    obtain ⟨past, hsent, hcarried⟩ := ih
    have hclient : ∀ {Z : ℕ} {p : PanelState} {sent : List Message},
        (r.clientActs Z p sent).sent X = past ++ (r.clientActs Z p sent).up X := by
      intro Z p sent
      rw [clientActs_sent, clientActs_up]
      by_cases hX : X = Z
      · subst hX
        rw [Function.update_self, Function.update_self, hsent, List.append_assoc]
      · rw [Function.update_of_ne hX, Function.update_of_ne hX, hsent]
    cases hnext with
    | key _ => exact ⟨past, hclient, hcarried⟩
    | redraw _ => exact ⟨past, hclient, hcarried⟩
    | @receive Z _ _ _ _ q _ _ => exact ⟨past, @hclient Z q.1 q.2, hcarried⟩
    | @request Z i msg rest rands net hZ hup hact =>
      have hphase := hprev.coherent.phase Z
      rw [upward, hup] at hphase
      obtain ⟨hserver, -, -⟩ := request_toServer hZ (hphase.msgType_ne_null (by simp)) hact
      show ∃ past, r.sent X = past ++ Function.update r.up Z rest X ∧ List.Forall₂ Carried
        (past.filter fun m => PassesLength m) (toward X (r.served ++ [] ++ net.toServer))
      rw [hserver, List.append_nil, ← List.append_assoc, toward_append]
      by_cases hX : X = Z
      · subst hX
        refine ⟨past ++ [msg], ?_, ?_⟩
        · rw [hsent, hup, Function.update_self, List.append_assoc, List.singleton_append]
        · rw [List.filter_append]
          refine List.rel_append hcarried ?_
          by_cases hpass : PassesLength msg
          · simpa [hpass] using ⟨rands, i, rfl⟩
          · simp [hpass]
      · refine ⟨past, ?_, ?_⟩
        · rw [hsent, Function.update_of_ne hX]
        · have hnone : toward X (if PassesLength msg then [(Z, onWay rands i msg)] else []) = [] := by
            split
            · rw [toward_cons_of_ne (Ne.symm hX), toward_nil]
            · rfl
          rw [hnone, List.append_nil]
          exact hcarried
    | @own a net ha hact =>
      have hhandles : r.net.handles a = [] := by
        rcases ha with rfl | ⟨peer, rfl⟩ <;> rfl
      refine ⟨past, hsent, ?_⟩
      show List.Forall₂ Carried _ (toward X (r.served ++ r.net.handles a ++ net.toServer))
      rw [hhandles, List.append_nil, (own_step ha hact).1]
      exact hcarried
    | @serve fuel clock locals net hact =>
      obtain ⟨Z, msg, rest, hserver⟩ := exists_toServer hact
      obtain ⟨hrest, -⟩ := hprev.coherent.placed.serve_served hserver hact
      refine ⟨past, hsent, ?_⟩
      show List.Forall₂ Carried _ (toward X (r.served ++ r.net.toServer.take 1 ++ net.toServer))
      rw [hserver] at hcarried
      rw [hserver, hrest, List.append_assoc]
      exact hcarried
    | @deliver net hact =>
      obtain ⟨Z, msg, rest, hproxy⟩ := exists_toProxy hact
      obtain ⟨-, hserver, -⟩ := hprev.coherent.placed.deliver_brings hproxy hact
      refine ⟨past, hsent, ?_⟩
      show List.Forall₂ Carried _ (toward X (r.served ++ [] ++ net.toServer))
      rw [List.append_nil, hserver]
      exact hcarried

theorem exists_of_forall₂ {α β : Type*} {R : α → β → Prop} {l : List α} {l' : List β} (h : List.Forall₂ R l l') {b : β}
    (hb : b ∈ l') : ∃ a ∈ l, R a b := by
  induction h with
  | nil => cases hb
  | @cons a b' l l' hab _ ih =>
    rcases List.mem_cons.1 hb with rfl | hb
    · exact ⟨a, List.mem_cons_self, hab⟩
    · obtain ⟨a', ha', hr⟩ := ih hb
      exact ⟨a', List.mem_cons_of_mem _ ha', hr⟩

/-- A message at the server was sent by its client. -/
theorem Reached.carried (h : Reached r) (hm : (X, msg) ∈ r.served ++ r.net.toServer) :
    ∃ m ∈ r.sent X, PassesLength m ∧ Carried m msg := by
  obtain ⟨past, hsent, hcarried⟩ := h.in_order X
  obtain ⟨m, hm, hc⟩ := exists_of_forall₂ hcarried (mem_toward.2 hm)
  obtain ⟨hpast, hpass⟩ := List.mem_filter.1 hm
  refine ⟨m, ?_, of_decide_eq_true hpass, hc⟩
  rw [hsent]
  exact List.mem_append_left _ hpast

/-! ### What the server posts -/

/-- Texts come from connected clients. -/
theorem Phase.text (h : Phase net X c up down) (hm : m ∈ up) (htype : m.msgType = MSG_STD_CLIENT_SERVER) :
    c.waitingPseudoConfirmation = false ∧ c.connected = true ∧ Named c ∧ TextFrom c m := by
  cases h with
  | settled hw hc hp hup => exact ⟨hw, hc, hp, hup m hm⟩
  | asked _ _ hup _ hconn =>
    rw [hup, List.mem_singleton] at hm
    rw [hm, hconn] at htype
    exact absurd htype (by decide)
  | idle _ _ hup => exact absurd hm (by simp [hup])
  | unanswered _ _ hup => exact absurd hm (by simp [hup])
  | welcomed _ _ _ hup => exact absurd hm (by simp [hup])

/-- Every text that the server handles has a length, and is posted. -/
theorem Reached.posted_eq (h : Reached r) {fuel : ℕ} {clock : Clock} {locals : Locals} {rest : List (ℕ × Message)}
    (hact : r.net.act (.serve fuel clock locals) = some net') (hserver : r.net.toServer = (X, msg) :: rest)
    (htype : msg.msgType = MSG_STD_CLIENT_SERVER) : ∃ text, cstr msg.msg = some text ∧ posted msg = some text := by
  have hphase := h.coherent.phase X
  rw [upward, hserver, toward_cons_self] at hphase
  obtain ⟨-, -, ⟨p, hp, hlong⟩, -, hpseudo⟩ := hphase.text List.mem_cons_self htype
  rw [hp] at hpseudo
  obtain ⟨m, hm, hpass, hcarried⟩ := h.carried (List.mem_append_right _ (hserver ▸ List.mem_cons_self))
  have hmtype : m.msgType = MSG_STD_CLIENT_SERVER := hcarried.msgType.symm.trans htype
  have hdst : msg.dstFlag = MSG_FLAG_DEFAULT_CHANNEL := by
    rcases (h.outgoing hm).2 with ⟨hconn, -⟩ | ⟨-, hdst⟩
    · exact absurd (hmtype.symm.trans hconn) (by decide)
    · exact hcarried.dstFlag.trans hdst
  have hlen : msg.msgLength ≠ 0 := by
    intro hzero
    have hmem := hpass (hcarried.msgLength.symm.trans hzero)
    rw [hmtype] at hmem
    exact absurd hmem (by decide)
  obtain ⟨-, new, -, hs⟩ := h.coherent.placed.serve_served hserver hact
  have hdefined : cstr msg.msg ≠ none := by
    cases hs with
    | silent hshort _ => exact absurd hlong (Nat.not_le.2 (hshort htype p hpseudo))
    | refused hconn => exact absurd (htype.symm.trans hconn) (by decide)
    | welcomed hconn => exact absurd (htype.symm.trans hconn) (by decide)
    | relayed _ hdefined => exact hdefined hdst
  obtain ⟨text, htext⟩ := Option.ne_none_iff_exists'.1 hdefined
  refine ⟨text, htext, ?_⟩
  rw [posted, hpseudo, Option.any_some, if_pos ⟨decide_eq_true hlong, htype, hdst, hlen⟩, htext]

/-- The texts of the messages at the server are the posted ones. -/
theorem Reached.said_eq (h : Reached r) : r.said.map Prod.snd = r.served.filterMap fun x => posted x.2 := by
  induction h with
  | start _ _ => rfl
  | @next r r' hprev hnext ih =>
    cases hnext with
    | key _ => exact ih
    | redraw _ => exact ih
    | receive _ _ => exact ih
    | request _ _ _ => simpa [networkActs, posts, handles] using ih
    | @own a net ha _ =>
      rcases ha with rfl | ⟨peer, rfl⟩
      · simpa [networkActs, posts, handles] using ih
      · simpa [networkActs, posts, handles] using ih
    | deliver _ => simpa [networkActs, posts, handles] using ih
    | @serve fuel clock locals net hact =>
      obtain ⟨Z, msg, rest, hserver⟩ := exists_toServer hact
      rw [networkActs]
      dsimp only
      rw [List.map_append, ih, List.filterMap_append, posts, handles, hserver]
      cases hposted : posted msg with
      | none => simp [hposted]
      | some text => simp [hposted]

/-- The server posts each text that it handles. -/
theorem Reached.served_posted (h : Reached r) :
    ∀ x ∈ r.served, x.2.msgType = MSG_STD_CLIENT_SERVER →
      ∃ text, cstr x.2.msg = some text ∧ posted x.2 = some text := by
  induction h with
  | start _ _ => exact fun x hx => absurd hx List.not_mem_nil
  | @next r r' hprev hnext ih =>
    cases hnext with
    | key _ => exact ih
    | redraw _ => exact ih
    | receive _ _ => exact ih
    | request _ _ _ => simpa [networkActs, handles] using ih
    | @own a net ha _ =>
      rcases ha with rfl | ⟨peer, rfl⟩
      · simpa [networkActs, handles] using ih
      · simpa [networkActs, handles] using ih
    | deliver _ => simpa [networkActs, handles] using ih
    | @serve fuel clock locals net hact =>
      obtain ⟨Z, msg, rest, hserver⟩ := exists_toServer hact
      intro x hx htype
      rcases List.mem_append.1 hx with hx | hx
      · exact ih x hx htype
      · rw [handles, hserver] at hx
        obtain rfl : x = (Z, msg) := by simpa using hx
        exact hprev.posted_eq hact hserver htype

/-- The texts that the server has posted are those of the messages that it has handled.  From each client it has
handled the messages that were sent, in their order, disturbed by the proxy and without those of length zero, as far
as they are not still on their way; and it posts all texts among them. -/
theorem spoken_in_order (h : Reached r) :
    (r.said.map Prod.snd = r.served.filterMap fun x => posted x.2) ∧
      (∀ x ∈ r.served, x.2.msgType = MSG_STD_CLIENT_SERVER →
        ∃ text, cstr x.2.msg = some text ∧ posted x.2 = some text) ∧
      ∀ X, ∃ past, r.sent X = past ++ r.up X ∧
        List.Forall₂ Carried (past.filter fun m => PassesLength m) (toward X r.served ++ toward X r.net.toServer) := by
  refine ⟨h.said_eq, h.served_posted, fun X => ?_⟩
  rw [← toward_append]
  exact h.in_order X

theorem spoken_in_order_alice : ∃ r, Reached r ∧ r.served.length = 3 ∧
    (r.said.map Prod.snd = r.served.filterMap fun x => posted x.2) := by
  obtain ⟨r, h, -, -, hserved⟩ := aliceSpeaks_reached
  exact ⟨r, h, hserved, (spoken_in_order h).1⟩

/-! ### Who is shown -/

/-- A connected client keeps its pseudo. -/
theorem Phase.typed_same (h : Phase net Y c up down) (hconn : c.connected = true) {rands : ℕ → ℕ}
    {memory : ℕ → Message} {buffer : List UInt8} {len : ℕ}
    (hrun : NyanChat.onStdinClient rands memory c buffer len = some (c', sent)) : SameFiles c c' := by
  cases onStdinClient_files hrun with
  | text hsame => exact hsame
  | request _ hempty =>
    cases h with
    | settled _ _ hp => exact absurd hempty hp.ne
    | idle _ hc => exact absurd (hc.symm.trans hconn) (by decide)
    | asked _ hc => exact absurd (hc.symm.trans hconn) (by decide)
    | unanswered _ hc => exact absurd (hc.symm.trans hconn) (by decide)
    | welcomed _ hc => exact absurd (hc.symm.trans hconn) (by decide)

theorem Phase.received_same (h : Phase net Y c up down) (hconn : c.connected = true)
    (hrun : NyanChat.onMsgClient c msg = some (c', sent)) : SameFiles c c' := by
  have hidle : c.waitingPseudoConfirmation = false := by
    cases h with
    | settled hw => exact hw
    | idle hw => exact hw
    | asked _ hc => exact absurd (hc.symm.trans hconn) (by decide)
    | unanswered _ hc => exact absurd (hc.symm.trans hconn) (by decide)
    | welcomed _ hc => exact absurd (hc.symm.trans hconn) (by decide)
  cases onMsgClient_files hrun with
  | other hsame => exact hsame
  | refused hw => exact absurd (hw.symm.trans hidle) (by decide)
  | accepted hw => exact absurd (hw.symm.trans hidle) (by decide)

/-- The author of a message is connected, with the pseudo of the message. -/
def Author (p : PanelState) (m : Message) : Prop :=
  p.state.client.connected = true ∧ cstr m.srcPseudo = cstr p.state.client.pseudo

theorem Author.same {p q : PanelState} (h : Author p m) (hsame : SameFiles p.state.client q.state.client) :
    Author q m := by
  obtain ⟨-, hpseudo, -, hconnected⟩ := hsame
  exact ⟨hconnected.trans h.1, by rw [hpseudo]; exact h.2⟩

/-- The client that sent a text has the pseudo of the text from then on. -/
theorem Reached.authored (h : Reached r) :
    ∀ x ∈ r.served, x.2.msgType = MSG_STD_CLIENT_SERVER → Author (r.client x.1) x.2 := by
  induction h with
  | start _ _ => exact fun x hx => absurd hx List.not_mem_nil
  | @next r r' hprev hnext ih =>
    have hclient : ∀ {Z : ℕ} {p : PanelState} {sent : List Message},
        ((r.client Z).state.client.connected = true → SameFiles (r.client Z).state.client p.state.client) →
        ∀ x ∈ r.served, x.2.msgType = MSG_STD_CLIENT_SERVER → Author ((r.clientActs Z p sent).client x.1) x.2 := by
      intro Z p sent hsame x hx htype
      have hauthor := ih x hx htype
      rw [clientActs_client]
      by_cases hX : x.1 = Z
      · rw [hX, Function.update_self]
        rw [hX] at hauthor
        exact hauthor.same (hsame hauthor.1)
      · rw [Function.update_of_ne hX]
        exact hauthor
    cases hnext with
    | @key Z _ _ _ _ p hrun =>
      refine hclient fun hconn => ?_
      rcases onStdinClient_client hrun with ⟨hclient, -⟩ | hline
      · rw [hclient]
        exact ⟨rfl, rfl, rfl, rfl⟩
      · exact (hprev.coherent.phase Z).typed_same hconn hline
    | redraw hrun =>
      refine hclient fun hconn => ?_
      rw [displayClient_state hrun]
      exact ⟨rfl, rfl, rfl, rfl⟩
    | @receive Z _ _ _ _ q _ hrun =>
      refine @hclient Z q.1 q.2 fun hconn => ?_
      exact (hprev.coherent.phase Z).received_same hconn (onMsgClient_spec (hprev.slots Z) (onMsgPanel_run hrun)).1
    | request _ _ _ => simpa [networkActs, handles] using ih
    | @own a net ha _ =>
      rcases ha with rfl | ⟨peer, rfl⟩
      · simpa [networkActs, handles] using ih
      · simpa [networkActs, handles] using ih
    | deliver _ => simpa [networkActs, handles] using ih
    | @serve fuel clock locals net hact =>
      obtain ⟨Z, msg, rest, hserver⟩ := exists_toServer hact
      intro x hx htype
      rcases List.mem_append.1 hx with hx | hx
      · exact ih x hx htype
      · rw [handles, hserver] at hx
        obtain rfl : x = (Z, msg) := by simpa using hx
        have hphase := hprev.coherent.phase Z
        rw [upward, hserver, toward_cons_self] at hphase
        obtain ⟨-, hconn, -, hfrom⟩ := hphase.text List.mem_cons_self htype
        exact ⟨hconn, hfrom.2⟩

/-- A message shows a text that the server has handled. -/
def Shows (r : ChatRoom) (m : Message) : Prop :=
  ∃ x ∈ r.served, x.2.msgType = MSG_STD_CLIENT_SERVER ∧ cstr m.srcPseudo = cstr x.2.srcPseudo ∧
    cstr m.msg = cstr x.2.msg

theorem Shows.mono (h : Shows r m) (hserved : ∀ x ∈ r.served, x ∈ r'.served) : Shows r' m := by
  obtain ⟨x, hx, hrest⟩ := h
  exact ⟨x, hserved x hx, hrest⟩

/-- A copy on its way was there before, or is one of the message that the server has just handled. -/
theorem Next.downward (h : Coherent r) (hnext : r.Next r') (hm : m ∈ r'.downward Y)
    (htype : m.msgType = MSG_SERVER_CLIENT) :
    m ∈ r.downward Y ∨ ∃ x ∈ r'.served, x.2.msgType = MSG_STD_CLIENT_SERVER ∧ Copies x.2 m := by
  cases hnext with
  | key _ => exact Or.inl hm
  | redraw _ => exact Or.inl hm
  | @receive Z _ _ msg rest _ hdown _ =>
    refine Or.inl ?_
    by_cases hY : Y = Z
    · subst hY
      simp only [ChatRoom.downward, Function.update_self, clientActs_net] at hm ⊢
      rw [hdown, List.cons_append]
      exact List.mem_cons_of_mem _ hm
    · simpa [ChatRoom.downward, hY] using hm
  | @request Z i msg rest rands net hZ hup hact =>
    have hphase := h.phase Z
    rw [upward, hup] at hphase
    obtain ⟨-, hproxy, -⟩ := request_toServer hZ (hphase.msgType_ne_null (by simp)) hact
    refine Or.inl ?_
    simpa [ChatRoom.downward, networkActs, brings, hproxy] using hm
  | @own a net ha hact =>
    obtain ⟨-, hproxy, -⟩ := own_step ha hact
    refine Or.inl ?_
    rcases ha with rfl | ⟨peer, rfl⟩
    · simpa [ChatRoom.downward, networkActs, brings, hproxy] using hm
    · simpa [ChatRoom.downward, networkActs, brings, hproxy] using hm
  | @deliver net hact =>
    obtain ⟨X, msg, rest, hproxy⟩ := exists_toProxy hact
    obtain ⟨hrest, -, -, hbrings⟩ := h.placed.deliver_brings hproxy hact
    refine Or.inl ?_
    rw [ChatRoom.downward, List.mem_append] at hm
    rw [ChatRoom.downward, hproxy, List.mem_append, mem_toward]
    rcases hm with hm | hm
    · rcases List.mem_append.1 hm with hm | hm
      · exact Or.inl hm
      · refine Or.inr ?_
        rcases hbrings with ⟨hbrings, -⟩ | ⟨hbrings, -⟩
        · rw [hbrings, mem_toward, List.mem_singleton] at hm
          rw [hm]
          exact List.mem_cons_self
        · rw [hbrings] at hm
          cases hm
    · have hm : m ∈ toward Y net.toProxy := hm
      rw [hrest, mem_toward] at hm
      exact Or.inr (List.mem_cons_of_mem _ hm)
  | @serve fuel clock locals net hact =>
    obtain ⟨X, msg, rest, hserver⟩ := exists_toServer hact
    obtain ⟨-, new, hproxy, hs⟩ := h.placed.serve_served hserver hact
    have hm : m ∈ r.down Y ++ [] ++ toward Y net.toProxy := hm
    rw [List.append_nil, hproxy, toward_append, ← List.append_assoc, List.mem_append] at hm
    rcases hm with hm | hm
    · exact Or.inl hm
    · obtain ⟨hmsg, hcopies⟩ := hs.copies (mem_toward.1 hm) htype
      refine Or.inr ⟨(X, msg), List.mem_append_right _ ?_, hmsg, hcopies⟩
      rw [handles, hserver]
      exact List.mem_cons_self

/-- A message that a client has received was there before, or was on its way. -/
theorem Next.received (hslots : ∀ Y, (r.client Y).state.nbMsgsDefaultChannel ≤
      (r.client Y).state.msgsDefaultChannel.length) (hnext : r.Next r') (hm : m ∈ Ansi.received (r'.client Y).state) :
    m ∈ Ansi.received (r.client Y).state ∨
      ∃ msg ∈ r.downward Y, msg.msgType = MSG_SERVER_CLIENT ∧ seen m = seen msg := by
  have hclient : ∀ {Z : ℕ} {p : PanelState} {sent : List Message},
      (Y = Z → m ∈ Ansi.received p.state → m ∈ Ansi.received (r.client Z).state) →
      m ∈ Ansi.received ((r.clientActs Z p sent).client Y).state → m ∈ Ansi.received (r.client Y).state := by
    intro Z p sent hback hm
    rw [clientActs_client] at hm
    by_cases hY : Y = Z
    · subst hY
      rw [Function.update_self] at hm
      exact hback rfl hm
    · rwa [Function.update_of_ne hY] at hm
  cases hnext with
  | key hrun =>
    obtain ⟨hmsgs, hnb, -⟩ := onStdinClient_cursor hrun
    refine Or.inl (hclient (fun _ hm => ?_) hm)
    rwa [Ansi.received, hmsgs, hnb] at hm
  | redraw hrun =>
    refine Or.inl (hclient (fun _ hm => ?_) hm)
    rwa [displayClient_state hrun] at hm
  | @receive Z _ _ msg rest q hdown hrun =>
    have hspec := (onMsgClient_spec (hslots Z) (onMsgPanel_run hrun)).2.2
    split at hspec
    · rename_i hstores
      obtain ⟨slot, copy, hcopy, hreceived⟩ := hspec
      by_cases hY : Y = Z
      · subst hY
        have hm : m ∈ Ansi.received (Function.update r.client Y q.1 Y).state := hm
        rw [Function.update_self, hreceived, List.mem_append, List.mem_singleton] at hm
        rcases hm with hm | rfl
        · exact Or.inl hm
        · refine Or.inr ⟨msg, ?_, hstores.2.2.1, seen_copyMessage hcopy⟩
          rw [ChatRoom.downward, hdown]
          exact List.mem_append_left _ List.mem_cons_self
      · exact Or.inl (@hclient Z q.1 q.2 (fun h => absurd h hY) hm)
    · refine Or.inl (@hclient Z q.1 q.2 (fun _ hm => ?_) hm)
      rwa [hspec] at hm
  | request _ _ _ => exact Or.inl hm
  | own _ _ => exact Or.inl hm
  | serve _ => exact Or.inl hm
  | deliver _ => exact Or.inl hm

/-- What a client has received, and the copies on the way to it, show texts that the server has handled. -/
theorem Reached.shows (h : Reached r) :
    (∀ Y, ∀ m ∈ r.downward Y, m.msgType = MSG_SERVER_CLIENT → Shows r m) ∧
      ∀ Y, ∀ m ∈ Ansi.received (r.client Y).state, Shows r m := by
  induction h with
  | start _ _ => exact ⟨fun Y m hm => absurd hm List.not_mem_nil, fun Y m hm => absurd hm List.not_mem_nil⟩
  | @next r r' hprev hnext ih =>
    refine ⟨fun Y m hm htype => ?_, fun Y m hm => ?_⟩
    · rcases hnext.downward hprev.coherent hm htype with hm | ⟨x, hx, hxtype, hcopies⟩
      · exact (ih.1 Y m hm htype).mono hnext.served
      · exact ⟨x, hx, hxtype, hcopies.srcPseudo, hcopies.text⟩
    · rcases hnext.received hprev.slots hm with hm | ⟨msg, hmsg, htype, hseen⟩
      · exact (ih.2 Y m hm).mono hnext.served
      · obtain ⟨x, hx, hxtype, hpseudo, htext⟩ := (ih.1 Y msg hmsg htype).mono hnext.served
        exact ⟨x, hx, hxtype, (Prod.mk.inj hseen).1.trans hpseudo,
          (Prod.mk.inj (Prod.mk.inj hseen).2).1.trans htext⟩

/-- Every message that a client shows has the pseudo of a connected client, which has sent the text of the message as
far as the proxy did not disturb it. -/
theorem shown_authentic (h : Reached r) (hm : m ∈ Ansi.received (r.client Y).state) :
    ∃ X, ∃ m₁ ∈ r.sent X, ∃ m₂, m₁.msgType = MSG_STD_CLIENT_SERVER ∧ Carried m₁ m₂ ∧ cstr m.msg = cstr m₂.msg ∧
      (r.client X).state.client.connected = true ∧
        cstr m.srcPseudo = cstr (r.client X).state.client.pseudo := by
  obtain ⟨⟨X, m₂⟩, hserved, htype, hpseudo, htext⟩ := h.shows.2 Y m hm
  obtain ⟨m₁, hsent, -, hcarried⟩ := h.carried (List.mem_append_left _ hserved)
  obtain ⟨hconn, hauthor⟩ := h.authored _ hserved htype
  exact ⟨X, m₁, hsent, m₂, hcarried.msgType.symm.trans htype, hcarried, htext, hconn, hpseudo.trans hauthor⟩

theorem shown_authentic_alice : ∃ r, ∃ m ∈ Ansi.received (ChatRoom.client r 0).state, Reached r ∧
    ∃ X, ∃ m₁ ∈ r.sent X, ∃ m₂, m₁.msgType = MSG_STD_CLIENT_SERVER ∧ Carried m₁ m₂ ∧ cstr m.msg = cstr m₂.msg ∧
      (r.client X).state.client.connected = true ∧
        cstr m.srcPseudo = cstr (r.client X).state.client.pseudo := by
  obtain ⟨r, h, htranscript, -⟩ := aliceSpeaks_reached
  obtain ⟨m, hm, -⟩ := List.map_eq_singleton_iff.1 htranscript
  have hmem : m ∈ Ansi.received (r.client 0).state := by
    rw [hm]
    exact List.mem_cons_self
  exact ⟨r, m, hmem, h, shown_authentic h hmem⟩

end ChatRoom

end NyanChat
