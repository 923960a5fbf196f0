import NyanChat.Broadcast

/-!
# The stored codes of the server

A stored code stays (`storedCode_kept`).  A request with the stored code is refused only when the server does not
`Welcome` it: its session is active, or there is no room for one (`step_answered`).  A request with another code
is refused as long as the server runs, and so is one for which there is no room (`Barred`).
-/

namespace NyanChat

open OpenAddressing

variable {s : ServerState} {accounts : Key → Option Account} {p q : Key} {code : List UInt8} {e : Event} {r : Handled}

/-- The session of the pseudo has been inactive for long enough, or there is room for a new one. -/
def Welcome (s : ServerState) (clock : Clock) (p : Key) : Prop :=
  match session s p with
  | some c => TIMEOUT_INACTIVE ≤ clock.check - c.lastActivity
  | none => emptyIndex s.clients ≠ none

instance (s : ServerState) (clock : Clock) (p : Key) : Decidable (Welcome s clock p) :=
  match h : session s p with
  | some c => decidable_of_iff (TIMEOUT_INACTIVE ≤ clock.check - c.lastActivity) (by rw [Welcome, h])
  | none => decidable_of_iff (emptyIndex s.clients ≠ none) (by rw [Welcome, h])

/-- The pseudo has another code, or none and no room for a session. -/
def Barred (s : ServerState) (p : Key) (code : List UInt8) : Prop :=
  (∃ file, s.codes (pathKey p) = some file ∧ stringIn file ≠ some code) ∨
    (s.codes (pathKey p) = none ∧ ∀ i, s.clients.get i ≠ none)

theorem Barred.storedCode_ne (h : Barred s p code) : storedCode s p ≠ some code := by
  rw [storedCode]
  rcases h with ⟨file, hfile, hstring⟩ | ⟨hnone, -⟩
  · rw [hfile]
    exact hstring
  · rw [hnone]
    exact (Option.some_ne_none code).symm

theorem emptyIndex_eq_none {clients : Vector (Option Client) NB_MAX_CONNECTED_CLIENTS}
    (h : emptyIndex clients = none) (i : Fin NB_MAX_CONNECTED_CLIENTS) : clients.get i ≠ none := by
  have := List.find?_eq_none.1 h i (List.mem_finRange i)
  intro hnone
  exact this (Option.isNone_iff_eq_none.2 hnone)

/-- `strcmp` finds equal strings only. -/
theorem stringIn_of_strcmpEqual {a b s : List UInt8} (ha : stringIn a = some s) (h : strcmpEqual a b = some true) :
    stringIn b = some s := by
  have hends : ∀ {a b : List UInt8}, strcmpEqual a b = some true → (0 : UInt8) ∈ b := by
    intro a
    induction a with
    | nil => intro b h; cases h
    | cons x a ih =>
      intro b h
      cases b with
      | nil => cases h
      | cons y b =>
        rw [strcmpEqual] at h
        split at h
        · cases h
        · rename_i hxy
          rw [not_not] at hxy
          subst hxy
          split at h
          · rename_i hzero
            rw [hzero]
            exact List.mem_cons_self
          · exact List.mem_cons_of_mem x (ih h)
  have hb : stringIn b = some (b.takeWhile (· ≠ 0)) := if_pos (hends h)
  rw [strcmpEqual_eq ha hb] at h
  rw [hb, ← of_decide_eq_true (Option.some.inj h)]

theorem Serves.step (h : Serves s accounts) (hstep : Step e s r) : ∃ accounts', Serves r.state accounts' := by
  rcases step_cases h hstep with ⟨hs, -, -⟩ | ⟨q, i, c, -, -, -, hacc⟩
  · exact ⟨accounts, hs.symm ▸ h⟩
  · exact ⟨_, hacc.serves⟩

/-- A stored code stays. -/
theorem storedCode_kept (h : Serves s accounts) (hbuilt : e.Built) (hstep : Step e s r)
    (hcode : storedCode s p = some code) : storedCode r.state p = some code := by
  rcases step_cases h hstep with ⟨hs, -, -⟩ | ⟨q, i, c, hreq, -, -, hacc⟩
  · rw [hs]
    exact hcode
  · rcases eq_or_ne p q with rfl | hpq
    · obtain ⟨code', hcode', hlen⟩ := hbuilt hreq.1
      obtain rfl := hacc.code.eq hcode' hcode
      exact hacc.storedCode_eq hcode' hlen
    · exact (hacc.storedCode_ne hpq).trans hcode

/-- What is refused once is refused as long as the server runs. -/
theorem Barred.step (hbar : Barred s p code) (h : Serves s accounts) (hbuilt : e.Built) (hstep : Step e s r) :
    Barred r.state p code := by
  rcases step_cases h hstep with ⟨hs, -, -⟩ | ⟨q, i, c, hreq, -, -, hacc⟩
  · rw [hs]
    exact hbar
  obtain ⟨code', hcode', hlen⟩ := hbuilt hreq.1
  rcases hbar with ⟨file, hfile, hstring⟩ | ⟨hnone, hfull⟩
  · rcases eq_or_ne p q with rfl | hpq
    · -- an accepted request has the code of the file
      have hsame := stringIn_of_strcmpEqual hcode' (hacc.code file hfile)
      refine Or.inl ⟨_, by rw [hacc.codes, Function.update_self], ?_⟩
      rw [stringIn_take hcode' hlen, ← hsame]
      exact hstring
    · refine Or.inl ⟨file, ?_, hstring⟩
      rw [hacc.codes, Function.update_of_ne (pathKey_injective.ne hpq)]
      exact hfile
  · -- the index of the accepted pseudo belonged to it already
    obtain ⟨d, hd⟩ := Option.ne_none_iff_exists'.1 (hfull i)
    obtain ⟨p', hp'⟩ := (h.clients i d).1 hd
    have hq : p' = q := by
      by_contra hne
      have hold : Function.update accounts q (some (i, c)) p' = some (i, d) := by rw [Function.update_of_ne hne, hp']
      exact hne (hacc.serves.unique hold (Function.update_self ..))
    subst hq
    have hpq : p ≠ p' := by
      rintro rfl
      rw [h.codes p hnone] at hp'
      cases hp'
    refine Or.inr ⟨?_, fun j hempty => ?_⟩
    · rw [hacc.codes, Function.update_of_ne (pathKey_injective.ne hpq)]
      exact hnone
    · obtain ⟨d', hd'⟩ := Option.ne_none_iff_exists'.1 (hfull j)
      obtain ⟨q', hq'⟩ := (h.clients j d').1 hd'
      have hstays : ∃ d'', Function.update accounts p' (some (i, c)) q' = some (j, d'') := by
        rcases eq_or_ne q' p' with rfl | hne
        · rw [hp'] at hq'
          cases hq'
          exact ⟨c, Function.update_self ..⟩
        · exact ⟨d', by rw [Function.update_of_ne hne, hq']⟩
      obtain ⟨d'', hd''⟩ := hstays
      rw [(hacc.serves.clients j d'').2 ⟨q', hd''⟩] at hempty
      cases hempty

/-- What stays as long as the server runs. -/
structure Keeps (s s' : ServerState) : Prop where
  stored : ∀ p code, storedCode s p = some code → storedCode s' p = some code
  barred : ∀ p code, Barred s p code → Barred s' p code

theorem Keeps.refl (s : ServerState) : Keeps s s := ⟨fun _ _ h => h, fun _ _ h => h⟩

theorem Serves.keeps (h : Serves s accounts) (hbuilt : e.Built) (hstep : Step e s r) : Keeps s r.state :=
  ⟨fun _ _ hcode => storedCode_kept h hbuilt hstep hcode, fun _ _ hbar => hbar.step h hbuilt hstep⟩

/-! ### Replies -/

/-- The answers to a connection request with a code. -/
inductive Answered (e : Event) (s : ServerState) (p : Key) (code : List UInt8) (r : Handled) : Prop
  | silent : r.state = s → r.sent = [] → Answered e s p code r
  | accepted : ValidPseudo p → r.sent = [⟨e.sock, connectedReply e.msg e.locals.connectedMsg⟩] →
      storedCode r.state p = some code → Answered e s p code r
  | refused (text : List UInt8) : r.state = s → r.sent = [⟨e.sock, errorReply text e.msg e.locals.errorMsg⟩] →
      (storedCode s p = some code → ¬ Welcome s e.clock p ∧
        (text = ERROR_MSG_STILL_ACTIVE_CLIENT ∨ text = ERROR_ALREADY_MAX_CLIENTS)) →
      (storedCode s p ≠ some code → Barred s p code) → Answered e s p code r

private theorem refusal_some {clock : Clock} {msg : Message} {cli : Option Client} {text : List UInt8}
    (hcode : cstr msg.msg = some code) (h : refusal clock s p msg cli = some (some text)) :
    ∃ file, s.codes (pathKey p) = some file ∧ (stringIn file = some code → text = ERROR_MSG_STILL_ACTIVE_CLIENT ∧
      ∃ c, cli = some c ∧ ¬ TIMEOUT_INACTIVE ≤ clock.check - c.lastActivity) := by
  unfold refusal at h
  split at h
  · cases h
  · rename_i file hfile
    refine ⟨file, hfile, fun hstring => ?_⟩
    rw [strcmpEqual_eq hcode hstring, decide_eq_true rfl] at h
    cases cli with
    | none => cases h
    | some c =>
      dsimp only at h
      split at h
      · rename_i hactive
        exact ⟨(Option.some.inj (Option.some.inj h)).symm, c, rfl, hactive.2⟩
      · cases h

/-- Room is missing only for a pseudo without an account. -/
private theorem takeCare_eq_none {cli : Option (Fin NB_MAX_CONNECTED_CLIENTS × Client)} {fuel : ℕ} {clock : Clock}
    {msg : Message} (hcare : takeCare fuel clock s p msg cli = some none) :
    cli = none ∧ emptyIndex s.clients = none := by
  cases cli with
  | some a => cases hcare
  | none =>
    simp only [takeCare] at hcare
    split at hcare
    · rename_i hfull
      exact ⟨rfl, hfull⟩
    · obtain ⟨r, -, hr⟩ := Option.map_eq_some_iff.1 hcare
      cases hr

private theorem onConnection_answered (h : Serves s accounts) (hp : ValidPseudo p) {fuel : ℕ} {s' : ServerState}
    {sent : List Sent} (hcode : cstr e.msg.msg = some code) (hlen : code.length < e.msg.msgLength.toNat)
    (hrun : onConnection fuel e.clock e.locals e.sock p e.msg s = some (s', sent)) :
    Answered e s p code ⟨s', sent, e.msg⟩ := by
  have hsession := h.session_eq hp.validKey
  cases onConnection_branch h hp hrun with
  | refused hrefusal =>
    obtain ⟨file, hfile, hactive⟩ := refusal_some hcode hrefusal
    have hstored : storedCode s p = stringIn file := by rw [storedCode, hfile, Option.bind_some]
    refine .refused _ rfl rfl (fun hsame => ?_) fun hother => Or.inl ⟨file, hfile, hstored ▸ hother⟩
    obtain ⟨htext, c, hc, hlate⟩ := hactive (hstored ▸ hsame)
    rw [Welcome, hsession, hc]
    exact ⟨hlate, Or.inl htext⟩
  | full hrefusal hcare =>
    obtain ⟨hnone, hfull⟩ := takeCare_eq_none hcare
    rw [hnone] at hsession
    refine .refused _ rfl rfl (fun _ => ?_) fun hother => ?_
    · rw [Welcome, hsession]
      exact ⟨fun hwelcome => hwelcome hfull, Or.inr rfl⟩
    · obtain ⟨hmatch, -⟩ := refusal_eq_none hrefusal
      refine Or.inr ⟨?_, emptyIndex_eq_none hfull⟩
      by_contra hfile
      obtain ⟨file, hfile⟩ := Option.ne_none_iff_exists'.1 hfile
      refine hother ?_
      rw [storedCode, hfile]
      exact stringIn_of_strcmpEqual hcode (hmatch file hfile)
  | accepted hrefusal hcare hstore =>
    have hacc := accepts_of_takeCare h hp hrefusal hcare hstore
    exact .accepted hp rfl (hacc.storedCode_eq hcode hlen)

theorem step_answered (h : Serves s accounts) (hreq : e.Requests p) (hcode : cstr e.msg.msg = some code)
    (hlen : code.length < e.msg.msgLength.toNat) (hstep : Step e s r) : Answered e s p code r := by
  obtain ⟨fuel, hrun⟩ := hstep
  cases onMsgReceived_branch hrun with
  | noPseudo hp hshort => exact .silent rfl rfl
  | connection hp hvalid _ hconn =>
    obtain rfl := Option.some.inj (hp.symm.trans hreq.2)
    exact onConnection_answered h hvalid hcode hlen hconn
  | text _ _ htext _ =>
    rw [hreq.1] at htext
    cases htext
  | other _ _ hconn _ => exact absurd hreq.1 hconn

/-- A request with the stored code is not refused because of a different code. -/
theorem not_different (h : Serves s accounts) (hreq : e.Requests p) (hcode : cstr e.msg.msg = some code)
    (hlen : code.length < e.msg.msgLength.toNat) (hstep : Step e s r) (hstored : storedCode s p = some code) {m : Sent}
    (hm : m ∈ r.sent) (htype : m.msg.msgType = MSG_ERROR) : cstr m.msg.msg ≠ some ERROR_MSG_CON_DIFF_KEYS := by
  cases step_answered h hreq hcode hlen hstep with
  | silent _ hsent =>
    rw [hsent] at hm
    exact absurd hm List.not_mem_nil
  | accepted _ hsent =>
    rw [hsent, List.mem_singleton] at hm
    subst hm
    rw [connectedReply_msgType] at htype
    cases htype
  | refused text _ hsent hsame =>
    rw [hsent, List.mem_singleton] at hm
    subst hm
    have hreply : ∀ t : List UInt8, 0 ∉ t → t.length < MAX_MSG_LENGTH →
        cstr (errorReply t e.msg e.locals.errorMsg).msg = some t := fun t hzero hlen => cstr_overlay _ hzero hlen
    obtain ⟨-, rfl | rfl⟩ := hsame hstored
    · rw [hreply _ (by decide) (by decide)]
      decide
    · rw [hreply _ (by decide) (by decide)]
      decide

/-- A request with the stored code is refused while the session is active. -/
theorem active_refused (h : Serves s accounts) (hreq : e.Requests p) (hlen : MIN_NAME_LENGTH ≤ p.length)
    (hcode : cstr e.msg.msg = some code) (hstored : storedCode s p = some code) {c : Client}
    (hsession : session s p = some c) (hactive : ¬ TIMEOUT_INACTIVE ≤ e.clock.check - c.lastActivity) :
    Step e s ⟨s, [⟨e.sock, errorReply ERROR_MSG_STILL_ACTIVE_CLIENT e.msg e.locals.errorMsg⟩], e.msg⟩ := by
  obtain ⟨htype, hp⟩ := hreq
  have hvalid := validPseudo_of_cstr hp hlen
  rw [h.session_eq hvalid.validKey] at hsession
  obtain ⟨a, ha, rfl⟩ := Option.map_eq_some_iff.1 hsession
  have hconn : a.2.connected = true := (h.pseudo p a.1 a.2 ha).2.2
  obtain ⟨file, hfile, hstring⟩ := Option.bind_eq_some_iff.1 hstored
  have hrefusal : refusal e.clock s p e.msg (some a.2) = some (some ERROR_MSG_STILL_ACTIVE_CLIENT) := by
    rw [refusal, hfile]
    dsimp only
    rw [strcmpEqual_eq hcode hstring, decide_eq_true rfl]
    exact if_pos ⟨hconn, hactive⟩
  have hrun : onConnection 0 e.clock e.locals e.sock p e.msg s =
      some (s, [⟨e.sock, errorReply ERROR_MSG_STILL_ACTIVE_CLIENT e.msg e.locals.errorMsg⟩]) := by
    rw [onConnection, h.findClient_eq hvalid.validKey, ha]
    simp only [Option.bind_eq_bind, Option.bind_some, Option.map_some, hrefusal]
    rfl
  exact ⟨0, by simp [onMsgReceived, hp, Nat.not_lt.2 hlen, htype, hrun]⟩

/-- The replies to other messages do not answer a connection request. -/
theorem step_other (h : Serves s accounts) (htype : e.msg.msgType ≠ MSG_CONNECTION_CLIENT) (hstep : Step e s r)
    {m : Sent} (hm : m ∈ r.sent) : m.msg.msgType ≠ MSG_ERROR ∧ m.msg.msgType ≠ MSG_WELL_CONNECTED := by
  obtain ⟨fuel, hrun⟩ := hstep
  cases onMsgReceived_branch hrun with
  | noPseudo hp hshort => exact absurd hm List.not_mem_nil
  | connection _ _ hconn _ => exact absurd hconn htype
  | text hp hvalid _ htext =>
    obtain ⟨ack, copies, hsent, hack, hcopies⟩ := onText_relays h hvalid htext
    rw [hsent, List.mem_cons] at hm
    rcases hm with rfl | hm
    · rw [hack.msgType]
      decide
    · split at hcopies
      · obtain ⟨copy, hcopy, rfl⟩ := hcopies
        obtain ⟨i, c, -, -, rfl⟩ := mem_copiesFor.1 hm
        have hcopytype := broadcastCopy_msgType hcopy
        dsimp only
        rw [hcopytype]
        decide
      · rw [hcopies] at hm
        exact absurd hm List.not_mem_nil
  | other hp hvalid hconn htext => exact absurd hm List.not_mem_nil

end NyanChat
