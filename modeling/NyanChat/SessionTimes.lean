import NyanChat.ServerRuns

/-!
# Times of sessions

A session is taken over `TIMEOUT_INACTIVE` seconds after its `last_activity`, which only the connection of a client
stores.  A text of the session in a later second is not noticed, so the session may be taken over right after it
(`active_session_taken_over`).  Without such texts a session that is taken over has been silent for that time
(`taken_over_after_silence`).
-/

namespace NyanChat

/-- A run whose steps all meet a condition on the message and the state that receives it. -/
inductive RunWhere (ok : Event → ServerState → Prop) : List Exchange → ServerState → Prop
  | start {codes : List UInt8 → Option (List UInt8)} {s : ServerState} :
      initServerState codes = some s → RunWhere ok [] s
  | step {hist : List Exchange} {s : ServerState} {e : Event} {r : Handled} :
      RunWhere ok hist s → ok e s → Step e s r → RunWhere ok ((e, r.sent) :: hist) r.state

/-- The clock does not go back: not in a call, and not from a call to a later one. -/
def Chronological (hist : List Exchange) : Prop :=
  (∀ x ∈ hist, x.1.clock.check ≤ x.1.clock.store) ∧
    hist.Pairwise fun later earlier => earlier.1.clock.store ≤ later.1.clock.check

/-- A message of the session of `p` with its index: its accepted connection request, or a text. -/
def OfSession (p : Key) (index : Int32) (x : Exchange) : Prop :=
  cstr x.1.msg.srcPseudo = some p ∧ x.1.msg.proxyClientSocket = index ∧
    (accepted p x = true ∨ x.1.msg.msgType = MSG_STD_CLIENT_SERVER)

/-- No text of a session comes in a later second than the connection of its client. -/
def NoLateText (e : Event) (s : ServerState) : Prop :=
  ∀ p c, e.msg.msgType = MSG_STD_CLIENT_SERVER → cstr e.msg.srcPseudo = some p → session s p = some c →
    e.msg.proxyClientSocket = c.idPollSocketProxy → e.clock.store ≤ c.lastActivity

/-- A session that the step takes over got its last message `TIMEOUT_INACTIVE` seconds ago or earlier. -/
def TakenOverSilent (hist : List Exchange) (s : ServerState) (e : Event) (r : Handled) : Prop :=
  ∀ p c, session s p = some c → c.connected = true → accepted p (e, r.sent) = true →
    ∀ x ∈ hist, OfSession p c.idPollSocketProxy x → x.1.clock.store + TIMEOUT_INACTIVE ≤ e.clock.check

variable {ok : Event → ServerState → Prop} {hist : List Exchange} {s : ServerState} {accounts : Key → Option Account}
  {e : Event} {r : Handled} {p : Key}

theorem RunWhere.run (h : RunWhere ok hist s) : Run hist s := by
  induction h with
  | start hs => exact .start hs
  | step _ _ hstep ih => exact .step ih hstep

theorem Chronological.tail {x : Exchange} (h : Chronological (x :: hist)) : Chronological hist :=
  ⟨fun y hy => h.1 y (List.mem_cons_of_mem x hy), (List.pairwise_cons.1 h.2).2⟩

/-! ### The stored activity -/

/-- No message of a session is later than its stored activity. -/
def ActivityKnown (hist : List Exchange) (s : ServerState) : Prop :=
  ∀ p c, ValidPseudo p → session s p = some c → ∀ x ∈ hist, OfSession p c.idPollSocketProxy x →
    x.1.clock.store ≤ c.lastActivity

/-- The session of a pseudo that a step leaves: the one before it, or the one of an accepted request. -/
theorem session_step (h : Serves s accounts) (hp : ValidPseudo p) (hstep : Step e s r) {c : Client}
    (hc : session r.state p = some c) :
    (session s p = some c ∧ accepted p (e, r.sent) = false) ∨ c.lastActivity = e.clock.store := by
  rcases step_cases h hstep with ⟨hs, hnone, -⟩ | ⟨q, i, d, hreq, hq, hsent, hacc⟩
  · exact Or.inl ⟨hs ▸ hc, hnone p⟩
  · rw [hacc.serves.session_eq hp.validKey] at hc
    rcases eq_or_ne p q with rfl | hne
    · rw [Function.update_self] at hc
      cases hc
      exact Or.inr hacc.lastActivity
    · rw [Function.update_of_ne hne, ← h.session_eq hp.validKey] at hc
      exact Or.inl ⟨hc, by rw [hsent, accepted_connectedReply hreq, decide_eq_false hne]⟩

/-- An accepted request is one of a pseudo that the server takes, and finds its session inactive. -/
theorem inactive_of_accepted (h : Serves s accounts) (hstep : Step e s r) (haccepted : accepted p (e, r.sent) = true) :
    ValidPseudo p ∧ ∀ c, session s p = some c → TIMEOUT_INACTIVE ≤ e.clock.check - c.lastActivity := by
  rcases step_cases h hstep with ⟨-, hnone, -⟩ | ⟨q, i, d, hreq, hq, hsent, hacc⟩
  · rw [hnone p] at haccepted
    cases haccepted
  · obtain rfl : p = q := by
      rw [hsent, accepted_connectedReply hreq] at haccepted
      exact of_decide_eq_true haccepted
    refine ⟨hq, fun c hc => ?_⟩
    rw [h.session_eq hq.validKey] at hc
    obtain ⟨a, ha, rfl⟩ := Option.map_eq_some_iff.1 hc
    exact hacc.inactive a ha

theorem ActivityKnown.step (h : ActivityKnown hist s) (hs : Serves s accounts) (hlate : NoLateText e s)
    (hstep : Step e s r) (htimes : Chronological ((e, r.sent) :: hist)) :
    ActivityKnown ((e, r.sent) :: hist) r.state := by
  intro p c hp hc x hx hof
  rcases session_step hs hp hstep hc with ⟨hbefore, hrefused⟩ | hactivity
  · rcases List.mem_cons.1 hx with rfl | hx
    · obtain ⟨hpseudo, hindex, haccepted | htext⟩ := hof
      · rw [hrefused] at haccepted
        cases haccepted
      · exact hlate p c htext hpseudo hbefore hindex
    · exact h p c hp hbefore x hx hof
  · -- the clock has not gone back since the messages before
    rw [hactivity]
    rcases List.mem_cons.1 hx with rfl | hx
    · exact Int.le_refl _
    · have hcheck := (List.pairwise_cons.1 htimes.2).1 x hx
      have hstore := htimes.1 (e, r.sent) List.mem_cons_self
      exact Int.le_trans hcheck hstore

theorem run_activityKnown (hrun : RunWhere NoLateText hist s) (htimes : Chronological hist) :
    ActivityKnown hist s := by
  induction hrun with
  | start _ => exact fun _ _ _ _ x hx => absurd hx List.not_mem_nil
  | step hprev hlate hstep ih =>
    obtain ⟨accounts, htracked⟩ := run_tracked hprev.run
    exact (ih htimes.tail).step htracked.serves hlate hstep htimes

/-- In a run without late texts a session that is taken over has been silent for `TIMEOUT_INACTIVE` seconds. -/
theorem taken_over_after_silence (hrun : RunWhere NoLateText hist s) (hstep : Step e s r)
    (htimes : Chronological ((e, r.sent) :: hist)) : TakenOverSilent hist s e r := by
  obtain ⟨accounts, htracked⟩ := run_tracked hrun.run
  intro p c hc _ haccepted x hx hof
  obtain ⟨hp, hinactive⟩ := inactive_of_accepted htracked.serves hstep haccepted
  have hlast := run_activityKnown hrun htimes.tail p c hp hc x hx hof
  have hsilent := hinactive c hc
  omega

/-! ### Alice speaks and is taken over -/

/-- A message received at the second `t`. -/
def eventAt (t : Int) (msg : Message) : Event := { eventOn 5 msg with clock := ⟨t, t⟩ }

def aliceConnects : Event := eventAt 0 (connectionRequest "alice" "secret" 2)

def aliceSpeaks (t : Int) : Event := eventAt t (textMessage "alice" "hello" 2)

/-- Someone with the code of alice connects from another index. -/
def aliceTakenOver : Event := eventAt 30 (connectionRequest "alice" "secret" 3)

/-- The server on the three messages, the text being received at second `t`. -/
def aliceRun (t : Int) : Option (Handled × Handled × Handled) :=
  (handle aliceConnects freshServer).bind fun r₁ =>
    (handle (aliceSpeaks t) r₁.state).bind fun r₂ => (handle aliceTakenOver r₂.state).map fun r₃ => (r₁, r₂, r₃)

private theorem aliceRun_spec {t : Int} {r₁ r₂ r₃ : Handled} (h : aliceRun t = some (r₁, r₂, r₃)) :
    Step aliceConnects freshServer r₁ ∧ Step (aliceSpeaks t) r₁.state r₂ ∧ Step aliceTakenOver r₂.state r₃ := by
  obtain ⟨r₁', h₁, h⟩ := Option.bind_eq_some_iff.1 h
  obtain ⟨r₂', h₂, h⟩ := Option.bind_eq_some_iff.1 h
  obtain ⟨r₃', h₃, h⟩ := Option.map_eq_some_iff.1 h
  obtain ⟨rfl, rfl, rfl⟩ : r₁' = r₁ ∧ r₂' = r₂ ∧ r₃' = r₃ := by simpa using h
  exact ⟨⟨20, h₁⟩, ⟨20, h₂⟩, ⟨20, h₃⟩⟩

/-- The first and the last message are accepted, and alice is connected before the last one. -/
def aliceSeen (r : Handled × Handled × Handled) : List Int32 × List Int32 × Option (Bool × Int32) :=
  (r.1.sent.map fun m => m.msg.msgType, r.2.2.sent.map fun m => m.msg.msgType,
    (session r.2.1.state (ascii "alice")).map fun c => (c.connected, c.idPollSocketProxy))

private theorem alice_seen :
    (aliceRun 0).map aliceSeen = some ([MSG_WELL_CONNECTED], [MSG_WELL_CONNECTED], some (true, 2)) ∧
      (aliceRun 29).map aliceSeen = some ([MSG_WELL_CONNECTED], [MSG_WELL_CONNECTED], some (true, 2)) := by
  decide +kernel

private theorem alice_chronological {t : Int} (ht : 0 ≤ t ∧ t ≤ 30) (sent₁ sent₂ sent₃ : List Sent) :
    Chronological [(aliceTakenOver, sent₃), (aliceSpeaks t, sent₂), (aliceConnects, sent₁)] := by
  constructor
  · simp [aliceTakenOver, aliceSpeaks, aliceConnects, eventAt]
  · simp [aliceTakenOver, aliceSpeaks, aliceConnects, eventAt, ht]

private theorem alice_accepted_at_last {r : Handled} (h : r.sent.map (fun m => m.msg.msgType) = [MSG_WELL_CONNECTED]) :
    accepted (ascii "alice") (aliceTakenOver, r.sent) = true := by
  obtain ⟨m, hm, htype⟩ := List.map_eq_singleton_iff.1 h
  have hpseudo : cstr aliceTakenOver.msg.srcPseudo = some (ascii "alice") := by decide +kernel
  exact accepted_iff.2 ⟨⟨rfl, hpseudo⟩, m, by rw [hm]; exact List.mem_singleton_self m, htype⟩

/-- Alice speaks in the second in which she connects, and is taken over `30` seconds later. -/
theorem taken_over_after_silence_alice :
    ∃ hist s r, RunWhere NoLateText hist s ∧ Step aliceTakenOver s r ∧
      Chronological ((aliceTakenOver, r.sent) :: hist) ∧ TakenOverSilent hist s aliceTakenOver r := by
  obtain ⟨⟨r₁, r₂, r₃⟩, hrun, -⟩ := Option.map_eq_some_iff.1 alice_seen.1
  obtain ⟨h₁, h₂, h₃⟩ := aliceRun_spec hrun
  have hconnect : NoLateText aliceConnects freshServer := fun p c htype => absurd htype (by decide)
  have hspeak : NoLateText (aliceSpeaks 0) r₁.state := by
    intro p c _ hpseudo hc _
    have hpseudo' : cstr (aliceSpeaks 0).msg.srcPseudo = some (ascii "alice") := by decide +kernel
    obtain rfl := Option.some.inj (hpseudo.symm.trans hpseudo')
    have hvalid : ValidPseudo (ascii "alice") := ⟨by decide, by decide, by decide⟩
    -- the session of alice is the one of her connection
    rcases session_step (initServerState_serves freshServer_eq) hvalid h₁ hc with ⟨hbefore, -⟩ | hactivity
    · rw [(initServerState_serves freshServer_eq).session_eq hvalid.validKey] at hbefore
      cases hbefore
    · rw [hactivity]
      exact Int.le_refl _
  have hrun := RunWhere.step (.step (.start freshServer_eq) hconnect h₁) hspeak h₂
  have htimes := alice_chronological (t := 0) ⟨by decide, by decide⟩ r₁.sent r₂.sent r₃.sent
  exact ⟨_, _, r₃, hrun, h₃, htimes, taken_over_after_silence hrun h₃ htimes⟩

/-- Alice speaks at second `29`, and her session is taken over at second `30`. -/
theorem active_session_taken_over :
    ∃ hist s e r, Run hist s ∧ Step e s r ∧ Chronological ((e, r.sent) :: hist) ∧ ¬ TakenOverSilent hist s e r := by
  obtain ⟨⟨r₁, r₂, r₃⟩, hrun, hseen⟩ := Option.map_eq_some_iff.1 alice_seen.2
  obtain ⟨h₁, h₂, h₃⟩ := aliceRun_spec hrun
  obtain ⟨hsent₁, hseen⟩ := Prod.mk.inj hseen
  obtain ⟨hsent₃, hsession⟩ := Prod.mk.inj hseen
  obtain ⟨c, hc, hpair⟩ := Option.map_eq_some_iff.1 hsession
  obtain ⟨hconn, hindex⟩ := Prod.mk.inj hpair
  have htimes := alice_chronological (t := 29) ⟨by decide, by decide⟩ r₁.sent r₂.sent r₃.sent
  refine ⟨_, r₂.state, aliceTakenOver, r₃, .step (.step run_freshServer h₁) h₂, h₃, htimes, fun hsilent => ?_⟩
  have hpseudo : cstr (aliceSpeaks 29).msg.srcPseudo = some (ascii "alice") := by decide +kernel
  have hbound : (29 : Int) + TIMEOUT_INACTIVE ≤ 30 :=
    hsilent _ c hc hconn (alice_accepted_at_last hsent₃) (aliceSpeaks 29, r₂.sent) List.mem_cons_self
      ⟨hpseudo, hindex.symm, Or.inr rfl⟩
  exact absurd hbound (by decide)

end NyanChat
