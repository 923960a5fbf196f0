import NyanChat.ChatPhases

/-!
# Transcripts

What a client shows of the texts of the chat room.  A client stores each text that reaches it (`Phase.copyText_eq`),
so that its transcript, with the texts on the way to it, is what was posted while it had a session
(`transcript_complete`).
-/

namespace NyanChat

namespace ChatRoom

open Network Ansi

variable {net net' : Network} {X Y : ℕ} {c : ClientState} {m msg : Message} {up down : List Message} {r r' : ChatRoom}

/-! ### What a client shows -/

theorem copyText_eq_none (h : msg.msgType ≠ MSG_SERVER_CLIENT) : copyText msg = none := if_neg fun h' => h h'.1

/-- The client stores the messages that bring a text. -/
theorem Phase.copyText_eq (h : Phase net Y c up (msg :: down)) (hpass : PassesLength msg) :
    copyText msg = if Stores c msg then cstr msg.msg else none := by
  cases h with
  | idle _ _ _ hdown => cases hdown
  | asked _ _ _ hdown => cases hdown
  | unanswered hw _ _ hdown =>
    have hno : ¬ Stores c msg := fun h => absurd (hw.symm.trans h.1) (by decide)
    rw [if_neg hno, copyText_eq_none]
    rw [(hdown msg List.mem_cons_self).1]
    decide
  | welcomed hw _ _ _ hdown htype =>
    obtain ⟨rfl, -⟩ := List.cons.inj hdown
    have hno : ¬ Stores c msg := fun h => absurd (hw.symm.trans h.1) (by decide)
    rw [if_neg hno, copyText_eq_none]
    rw [htype]
    decide
  | settled hw hc _ _ hdown =>
    rcases hdown msg List.mem_cons_self with hack | ⟨htype, hdst, -⟩
    · have hno : ¬ Stores c msg := fun h => absurd (hack.symm.trans h.2.2.1) (by decide)
      rw [if_neg hno, copyText_eq_none]
      rw [hack]
      decide
    · have hlen : msg.msgLength ≠ 0 := by
        intro hzero
        have hmem := hpass hzero
        rw [htype] at hmem
        exact absurd hmem (by decide)
      have hyes : Stores c msg := ⟨hw, hc, htype, hdst⟩
      rw [if_pos hyes, copyText, if_pos ⟨htype, hlen⟩]

/-- A stored message has a text. -/
theorem Phase.defined (h : Phase net Y c up (msg :: down)) (hstores : Stores c msg) : cstr msg.msg ≠ none := by
  obtain ⟨hidle, hconn, htype, -⟩ := hstores
  cases h with
  | idle _ hc => exact absurd (hc.symm.trans hconn) (by decide)
  | asked hw => exact absurd (hw.symm.trans hidle) (by decide)
  | unanswered hw => exact absurd (hw.symm.trans hidle) (by decide)
  | welcomed hw => exact absurd (hw.symm.trans hidle) (by decide)
  | settled _ _ _ _ hdown =>
    rcases hdown msg List.mem_cons_self with hack | ⟨-, -, hdefined⟩
    · exact absurd (hack.symm.trans htype) (by decide)
    · exact hdefined

/-- The texts of the messages that a client has received. -/
def transcript (p : PanelState) : List (Option (List UInt8)) := (Ansi.received p.state).map fun m => cstr m.msg

/-- The texts that some messages bring. -/
def texts (l : List Message) : List (Option (List UInt8)) := (l.filterMap copyText).map some

theorem texts_append (l l' : List Message) : texts (l ++ l') = texts l ++ texts l' := by
  simp [texts]

/-- A client that reads a message shows its text. -/
theorem transcript_receive {p : PanelState} (h : Phase net Y p.state.client up (msg :: down)) (hpass : PassesLength msg)
    (hslots : p.state.nbMsgsDefaultChannel ≤ p.state.msgsDefaultChannel.length) {fuel : ℕ} {memory : ℕ → Message}
    {q : PanelState × List Message} (hrun : onMsgPanel fuel memory p msg = some q) :
    transcript q.1 = transcript p ++ texts [msg] := by
  have hspec := (onMsgClient_spec hslots (onMsgPanel_run hrun)).2.2
  rw [transcript, transcript, texts]
  have htext := h.copyText_eq hpass
  split at hspec
  · rename_i hstores
    obtain ⟨slot, copy, hcopy, hreceived⟩ := hspec
    have hsame : cstr copy.msg = cstr msg.msg := (Prod.mk.inj (Prod.mk.inj (seen_copyMessage hcopy)).2).1
    obtain ⟨text, hmsg⟩ := Option.ne_none_iff_exists'.1 (h.defined hstores)
    rw [if_pos hstores, hmsg] at htext
    rw [hreceived, List.map_append, List.map_singleton, hsame, hmsg, List.filterMap_cons_some htext]
    rfl
  · rename_i hno
    rw [if_neg hno] at htext
    rw [hspec, List.filterMap_cons_none htext]
    exact (List.append_nil _).symm

/-- A client has received the texts that the proxy has handed on to it, apart from those that it has not read. -/
theorem Reached.transcript_heard (h : Reached r) (Y : ℕ) :
    transcript (r.client Y) ++ texts (r.down Y) = (heardBy Y r.heard).map some := by
  induction h with
  | start _ _ => rfl
  | @next r r' hprev hnext ih =>
    have hnet : ∀ a net, transcript ((r.networkActs a net).client Y) ++ texts ((r.networkActs a net).down Y) =
        (heardBy Y (r.networkActs a net).heard).map some := by
      intro a net
      rw [networkActs]
      dsimp only
      rw [heardBy_append, heardBy_hears, texts_append, ← List.append_assoc, ih, List.map_append]
      rfl
    have hclient : ∀ {Z : ℕ} {p : PanelState} {sent : List Message}, transcript p = transcript (r.client Z) →
        transcript ((r.clientActs Z p sent).client Y) ++ texts (r.down Y) = (heardBy Y r.heard).map some := by
      intro Z p sent hsame
      rw [← ih, clientActs_client]
      by_cases hY : Y = Z
      · subst hY
        rw [Function.update_self, hsame]
      · rw [Function.update_of_ne hY]
    cases hnext with
    | key hrun =>
      obtain ⟨hmsgs, hnb, -⟩ := onStdinClient_cursor hrun
      exact hclient (by rw [transcript, transcript, Ansi.received, Ansi.received, hmsgs, hnb])
    | redraw hrun => exact hclient (by rw [transcript, transcript, displayClient_state hrun])
    | @receive Z _ _ msg rest q hdown hrun =>
      refine Eq.trans ?_ ih
      rw [clientActs_client]
      dsimp only
      by_cases hY : Y = Z
      · subst hY
        have hphase := hprev.coherent.phase Y
        rw [downward, hdown, List.cons_append] at hphase
        have hpass := hprev.coherent.passed Y msg (by rw [hdown]; exact List.mem_cons_self)
        rw [Function.update_self, Function.update_self, transcript_receive hphase hpass (hprev.slots Y) hrun,
          List.append_assoc, ← texts_append, hdown]
        rfl
      · rw [Function.update_of_ne hY, Function.update_of_ne hY]
    | @request _ i msg _ rands net _ _ _ => exact hnet (.request i msg rands) net
    | own _ _ => exact hnet _ _
    | serve _ => exact hnet _ _
    | deliver _ => exact hnet _ _

/-! ### Texts that are posted -/

theorem posts_members {a : Action} {x : List ℕ × List UInt8} (hx : x ∈ net.posts a) : x.1 = net.members := by
  cases a with
  | serve fuel clock locals =>
    rw [posts] at hx
    split at hx
    · cases hx
    · obtain ⟨text, -, rfl⟩ := Option.map_eq_some_iff.1 (Option.mem_toList.1 hx)
      rfl
  | _ => cases hx

/-- A text is posted once for each connection. -/
theorem Reached.said_nodup (h : Reached r) : ∀ x ∈ r.said, x.1.Nodup := by
  induction h with
  | start _ _ => exact fun x hx => absurd hx List.not_mem_nil
  | @next r r' hprev hnext ih =>
    have hnet : ∀ a net, ∀ x ∈ (r.networkActs a net).said, x.1.Nodup := by
      intro a net x hx
      rcases List.mem_append.1 hx with hx | hx
      · exact ih x hx
      · rw [posts_members hx]
        exact hprev.coherent.one.nodup_members
    cases hnext with
    | key _ => exact ih
    | redraw _ => exact ih
    | receive _ _ => exact ih
    | @request _ i msg _ rands net _ _ _ => exact hnet (.request i msg rands) net
    | own _ _ => exact hnet _ _
    | serve _ => exact hnet _ _
    | deliver _ => exact hnet _ _

theorem postedFor_eq {said : List (List ℕ × List UInt8)} (h : ∀ x ∈ said, x.1.Nodup) (Y : ℕ) :
    postedFor Y said = (said.filter fun x => Y ∈ x.1).map Prod.snd := by
  induction said with
  | nil => rfl
  | cons x said ih =>
    rw [List.forall_mem_cons] at h
    rw [postedFor, List.flatMap_cons, List.filter_cons]
    have hrest := ih h.2
    rw [postedFor] at hrest
    rw [hrest]
    by_cases hY : Y ∈ x.1
    · rw [List.count_eq_one_of_mem h.1 hY, if_pos (decide_eq_true hY)]
      rfl
    · rw [List.count_eq_zero_of_not_mem hY, if_neg (by simp [hY])]
      rfl

/-- What a client shows, and what is on the way to it, are the texts that were posted while it had a session, each
once and in the order of the server. -/
theorem transcript_complete (h : Reached r) (Y : ℕ) :
    transcript (r.client Y) ++ texts (r.downward Y) = (r.said.filter fun x => Y ∈ x.1).map fun x => some x.2 := by
  have hchats := h.chats.heard_underway Y
  rw [downward, texts_append, ← List.append_assoc, h.transcript_heard, texts, ← underway_eq, ← List.map_append, hchats,
    postedFor_eq h.said_nodup, List.map_map]
  rfl

/-! ### Alice and bobby -/

/-- A client presses a key or reads a message, the proxy or the server does something. -/
private inductive Move
  | key (Y : ℕ) (buffer : Input)
  | receive (Y : ℕ)
  | request (i : ℕ)
  | accept (fd : Int)
  | endTurn
  | serve
  | deliver

private def joinsOn (fd : Int) : Action := .accept ⟨fd, ⟨0, 0, 0⟩, 0⟩

private def answersOne : Action := .serve 20 ⟨0, 0⟩ ⟨Message.zero, Message.zero, Message.zero, Message.zero⟩

private def Move.play (r : ChatRoom) : Move → Option ChatRoom
  | .key Y buffer =>
    (Ansi.onStdinClient (fun _ => 0) (fun _ => Message.zero) (r.client Y).state buffer 1).map fun p =>
      r.clientActs Y { r.client Y with state := p.state } p.sent
  | .receive Y =>
    match r.down Y with
    | [] => none
    | msg :: rest => (onMsgPanel 2 (fun _ => Message.zero) (r.client Y) msg).map fun q =>
        { r.clientActs Y q.1 q.2 with down := Function.update r.down Y rest }
  | .request i => do
    let Y ← clientAt r.net.conClients r.net.owner i
    match r.up Y with
    | [] => none
    | msg :: rest => (r.net.act (.request i msg fun _ => 0)).map fun net =>
        { r.networkActs (.request i msg fun _ => 0) net with up := Function.update r.up Y rest }
  | .accept fd => (r.net.act (joinsOn fd)).map (r.networkActs (joinsOn fd))
  | .endTurn => (r.net.act .endTurn).map (r.networkActs .endTurn)
  | .serve => (r.net.act answersOne).map (r.networkActs answersOne)
  | .deliver => (r.net.act .deliver).map (r.networkActs .deliver)

private theorem Move.next {move : Move} (h : move.play r = some r') : r.Next r' := by
  cases move with
  | key Y buffer =>
    obtain ⟨p, hp, rfl⟩ := Option.map_eq_some_iff.1 h
    exact .key hp
  | receive Y =>
    dsimp only [Move.play] at h
    split at h
    · cases h
    · rename_i hdown
      obtain ⟨q, hq, rfl⟩ := Option.map_eq_some_iff.1 h
      exact .receive hdown hq
  | request i =>
    obtain ⟨Y, hY, h⟩ := Option.bind_eq_some_iff.1 h
    dsimp only at h
    split at h
    · cases h
    · rename_i hup
      obtain ⟨net, hact, rfl⟩ := Option.map_eq_some_iff.1 h
      exact .request hY hup hact
  | accept fd =>
    obtain ⟨net, hact, rfl⟩ := Option.map_eq_some_iff.1 h
    exact .own (Or.inr ⟨_, rfl⟩) hact
  | endTurn =>
    obtain ⟨net, hact, rfl⟩ := Option.map_eq_some_iff.1 h
    exact .own (Or.inl rfl) hact
  | serve =>
    obtain ⟨net, hact, rfl⟩ := Option.map_eq_some_iff.1 h
    exact .serve hact
  | deliver =>
    obtain ⟨net, hact, rfl⟩ := Option.map_eq_some_iff.1 h
    exact .deliver hact

/-- A client types a line. -/
private def typesLine (Y : ℕ) (text : String) : List Move :=
  (ascii text).map (fun b => .key Y (character b)) ++ [.key Y enterKey]

/-- Alice and bobby join.  Alice has read a text of hers that bobby has not read yet. -/
private def aliceSpeaks : List Move :=
  typesLine 0 "alice" ++ typesLine 1 "bobby" ++ [.accept 6, .accept 7, .endTurn, .request 2, .request 3, .serve, .serve,
    .deliver, .deliver, .receive 0, .receive 1] ++ typesLine 0 "hi" ++
    [.request 2, .serve, .deliver, .deliver, .receive 0, .receive 0]

private theorem aliceSpeaks_plays :
    (aliceSpeaks.foldlM Move.play (start (fun _ _ => none) (Network.start 3 4 5 Message.zero freshServer))).map
      (fun r => (transcript (r.client 0), texts (r.downward 1), r.served.length)) =
        some ([some (ascii "hi")], [some (ascii "hi")], 3) := by
  decide +kernel

theorem aliceSpeaks_reached : ∃ r, Reached r ∧ transcript (r.client 0) = [some (ascii "hi")] ∧
    texts (r.downward 1) = [some (ascii "hi")] ∧ r.served.length = 3 := by
  obtain ⟨r, hplays, hshown⟩ := Option.map_eq_some_iff.1 aliceSpeaks_plays
  obtain ⟨htranscript, hrest⟩ := Prod.mk.inj hshown
  obtain ⟨htexts, hserved⟩ := Prod.mk.inj hrest
  refine ⟨r, ?_, htranscript, htexts, hserved⟩
  exact Loop.foldlM_of_some Reached (fun _ _ _ h hmove => h.next (Move.next hmove)) _
    (.start (by decide) freshServer_eq) hplays

theorem transcript_complete_alice : ∃ r, Reached r ∧ transcript (r.client 0) = [some (ascii "hi")] ∧
    transcript (r.client 0) ++ texts (r.downward 0) = (r.said.filter fun x => 0 ∈ x.1).map fun x => some x.2 := by
  obtain ⟨r, h, htranscript, -⟩ := aliceSpeaks_reached
  exact ⟨r, h, htranscript, transcript_complete h 0⟩

end ChatRoom

end NyanChat
