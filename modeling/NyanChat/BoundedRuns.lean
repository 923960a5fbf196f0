import NyanChat.Bounds

/-!
# Runs within the bounds

The checked handler is `on_msg_received` where this comes back, apart from a text that does not end when it is printed
(`checkedMsgReceived_eq_ok_iff`).  A run stays within the arrays exactly when each of its messages fits in the state
that receives it, and the proxy does exactly when no text is longer than a message (`bounds_kept_iff`).
-/

namespace NyanChat

open Faults

variable {S : Syndromes} {heap : ℕ → UInt8} {fuel : ℕ} {clock : Clock} {locals : Locals} {sock : Int} {msg : Message}
  {s s' : ServerState} {accounts : Key → Option Account} {p : Key}

/-! ### The handler of the source -/

/-- A comparison with a code that ends does not go beyond it. -/
theorem strcmpMemory_eq {a code : List UInt8} (h : 0 ∈ code) (heap : ℕ → UInt8) :
    strcmpMemory a (inMemory code heap) = strcmpEqual a code := by
  induction a generalizing code heap with
  | nil => rfl
  | cons x a ih =>
    cases code with
    | nil => cases h
    | cons y code =>
      rw [strcmpMemory, strcmpEqual]
      show (if x ≠ y then _ else _) = _
      split
      · rfl
      · rename_i hxy
        split
        · rfl
        · rename_i hx
          have hy : 0 ≠ y := fun hy => hx (by rw [not_not.1 hxy, hy])
          exact ih (List.mem_of_ne_of_mem hy h) fun i => heap (i + 1)

/-- The code that is stored for the pseudo ends. -/
def CodeEnds (s : ServerState) (p : Key) : Prop := ∀ code, s.codes (pathKey p) = some code → 0 ∈ code

theorem checkedRefusal_toOption (hcode : CodeEnds s p) (heap : ℕ → UInt8) (clock : Clock) (msg : Message)
    (cli : Option Client) : (checkedRefusal heap clock s p msg cli).toOption = refusal clock s p msg cli := by
  unfold checkedRefusal refusal
  cases hstored : s.codes (pathKey p) with
  | none => rfl
  | some code =>
    dsimp only
    rw [strcmpMemory_eq (hcode code hstored)]
    cases strcmpEqual msg.msg.toList code with
    | none => rfl
    | some same =>
      cases same with
      | false => rfl
      | true =>
        cases cli with
        | none => rfl
        | some c =>
          show (if _ then _ else _ : Checked _).toOption = if _ then _ else _
          split <;> rfl

theorem refusal_text {cli : Option Client} {text : List UInt8} (h : refusal clock s p msg cli = some (some text)) :
    text ∈ [ERROR_MSG_CON_DIFF_KEYS, ERROR_MSG_STILL_ACTIVE_CLIENT, ERROR_ALREADY_MAX_CLIENTS] := by
  unfold refusal at h
  split at h
  · cases h
  · split at h
    · cases h
    · cases h
      exact List.mem_cons_self
    · cases cli with
      | none => cases h
      | some c =>
        dsimp only at h
        split at h
        · cases h
          exact List.mem_cons_of_mem _ List.mem_cons_self
        · cases h

theorem checkedConnection_toOption (h : Serves s accounts) (hp : ValidPseudo p) (hcode : CodeEnds s p)
    (heap : ℕ → UInt8) (fuel : ℕ) (clock : Clock) (locals : Locals) (sock : Int) (msg : Message) :
    (checkedConnection heap fuel clock locals sock p msg s).toOption =
      onConnection fuel clock locals sock p msg s := by
  rw [checkedConnection_eq h hp rfl, toOption_bind, checkedRefusal_toOption hcode, h.session_eq hp.validKey,
    onConnection, h.findClient_eq hp.validKey]
  show _ = Option.bind (refusal clock s p msg ((accounts p).map Prod.snd)) _
  cases hanswer : refusal clock s p msg ((accounts p).map Prod.snd) with
  | none => rfl
  | some answer =>
    cases answer with
    | some text =>
      show (checkedErrorReply text msg locals.errorMsg >>= _).toOption = _
      rw [checkedErrorReply_ok (refusal_text hanswer)]
      rfl
    | none =>
      show (terminates (takeCare fuel clock s p msg (accounts p)) >>= _).toOption = Option.bind (takeCare _ _ _ _ _ _) _
      cases takeCare fuel clock s p msg (accounts p) with
      | none => rfl
      | some taken =>
        cases taken with
        | none => rfl
        | some taken =>
          obtain ⟨s₁, i, c⟩ := taken
          show (within .msg (storeCode s₁ p msg) >>= _).toOption = Option.bind (storeCode s₁ p msg) _
          cases storeCode s₁ p msg <;> rfl

theorem checkedBroadcast_toOption (h : Serves s accounts) (hpseudo : cstr msg.srcPseudo = some p) (sock : Int)
    (newMsg : Message) :
    (checkedBroadcast s sock msg newMsg).toOption = broadcastMsgToAllConnectedClients s sock msg newMsg := by
  rw [checkedBroadcast, hpseudo]
  cases htext : cstr msg.msg with
  | none =>
    rw [broadcastMsgToAllConnectedClients, broadcastCopy, htext]
    rfl
  | some text =>
    rw [within_some, ok_bind, within_some, ok_bind, within_strcpy .msg _ (cstr_spec htext).2.1, ok_bind,
      within_strcpy .srcPseudo _ (cstr_spec hpseudo).2.1, ok_bind, checkedClients_ok h]
    exact toOption_orFail _

theorem checkedText_toOption (h : Serves s accounts) (hpseudo : cstr msg.srcPseudo = some p) (hp : ValidPseudo p)
    (hprinted : cstr msg.msg ≠ none) (fuel : ℕ) (locals : Locals) (sock : Int) :
    (checkedText S fuel locals sock p msg s).toOption = onText S fuel locals sock p msg s := by
  obtain ⟨text, htext⟩ := Option.ne_none_iff_exists'.1 hprinted
  rw [checkedText, onText, htext, h.findClient_eq hp.validKey]
  cases hloop : codeCorrectError S msg with
  | none => rfl
  | some r =>
    obtain ⟨fixed, rc⟩ := r
    have hpseudo' : cstr fixed.srcPseudo = some p := by
      rw [codeCorrectError_eq S (codeCorrectError_length hloop)] at hloop
      cases hloop
      rwa [corrected]
    have hcopies := checkedBroadcast_toOption h hpseudo' sock locals.newMsg
    show (if rc = 0 ∨ _ then _ else _ : Checked Handled).toOption = if rc = 0 ∨ _ then _ else _
    split
    · show (if _ then _ else _ : Checked Handled).toOption = if _ then _ else _
      split
      · show (checkedBroadcast s sock fixed locals.newMsg >>= _).toOption = Option.bind _ _
        rw [toOption_bind, hcopies]
        rfl
      · rfl
    · rfl

/-- The text of a message is printed, unless the server drops it. -/
def Printed (msg : Message) : Prop :=
  msg.msgType = MSG_STD_CLIENT_SERVER → ∀ p, cstr msg.srcPseudo = some p → MIN_NAME_LENGTH ≤ p.length →
    cstr msg.msg ≠ none

/-- The checked handler comes back where `on_msg_received` does, and with the same. -/
theorem checkedMsgReceived_eq_ok_iff (h : Serves s accounts) (hcode : ∀ p, CodeEnds s p) {r : Handled} :
    checkedMsgReceived S heap fuel clock locals sock msg s = .ok r ↔
      onMsgReceived S fuel clock locals sock msg s = some r ∧ Printed msg := by
  rw [← toOption_eq_some, checkedMsgReceived, onMsgReceived]
  cases hpseudo : cstr msg.srcPseudo with
  | none =>
    refine iff_of_false (fun hno => ?_) fun hno => ?_
    · cases hno
    · cases hno.1
  | some p =>
    rw [within_some, ok_bind]
    show _ ↔ (if _ then _ else _ : Option Handled) = _ ∧ _
    by_cases hlong : p.length < MIN_NAME_LENGTH
    · rw [if_pos hlong, if_pos hlong]
      refine (and_iff_left fun _ q hq hlong' => ?_).symm
      rw [hpseudo] at hq
      cases hq
      exact absurd hlong (Nat.not_lt.2 hlong')
    rw [if_neg hlong, if_neg hlong]
    have hp := validPseudo_of_cstr hpseudo (Nat.not_lt.1 hlong)
    by_cases hconnection : msg.msgType = MSG_CONNECTION_CLIENT
    · rw [if_pos hconnection, if_pos hconnection, toOption_bind,
        checkedConnection_toOption h hp (hcode p)]
      refine (and_iff_left fun htext => ?_).symm
      rw [hconnection] at htext
      exact absurd htext (by decide)
    rw [if_neg hconnection, if_neg hconnection]
    by_cases htext : msg.msgType = MSG_STD_CLIENT_SERVER
    · rw [if_pos htext, if_pos htext]
      by_cases hprinted : cstr msg.msg = none
      · refine iff_of_false (fun hr => ?_) fun hr => hr.2 htext p hpseudo hp.1 hprinted
        rw [checkedText, hprinted] at hr
        cases hr
      · rw [checkedText_toOption h hpseudo hp hprinted]
        exact (and_iff_left fun _ _ _ _ => hprinted).symm
    · rw [if_neg htext, if_neg htext]
      exact (and_iff_left fun htext' => absurd htext' htext).symm

/-! ### Runs -/

/-- A message that the server receives, with what lies in memory behind the file of a code. -/
structure Arrival where
  event : Event
  heap : ℕ → UInt8

def Arrival.handled (S : Syndromes) (fuel : ℕ) (a : Arrival) (s : ServerState) : Checked Handled :=
  checkedMsgReceived S a.heap fuel a.event.clock a.event.locals a.event.sock a.event.msg s

/-- `Q` tells of each message and the state that receives it, as long as the server comes back. -/
def Along (S : Syndromes) (Q : Arrival → ServerState → Prop) : List Arrival → ServerState → Prop
  | [], _ => True
  | a :: arrivals, s => Q a s ∧ ∀ fuel r, a.handled S fuel s = .ok r → Along S Q arrivals r.state

/-- No access leaves its array. -/
def StaysInBounds (S : Syndromes) (a : Arrival) (s : ServerState) : Prop := ∀ fuel, InBounds (a.handled S fuel s)

/-- The pseudo ends in its array, and what the server reads for the type of the message is within it. -/
structure ServerFits (S : Syndromes) (a : Arrival) (s : ServerState) : Prop where
  pseudo : cstr a.event.msg.srcPseudo ≠ none
  connection : ∀ p, a.event.Requests p → MIN_NAME_LENGTH ≤ p.length →
    ComparisonEnds a.heap s p a.event.msg ∧
      (Refused a.heap a.event.clock s p a.event.msg ∨ Full s p ∨ a.event.msg.msgLength.toNat ≤ MAX_MSG_LENGTH)
  text : ∀ p, a.event.msg.msgType = MSG_STD_CLIENT_SERVER → cstr a.event.msg.srcPseudo = some p →
    MIN_NAME_LENGTH ≤ p.length → TextFits S a.event.msg

/-- The branches of the handler for a message with a pseudo. -/
theorem handled_cases {a : Arrival} (hpseudo : cstr a.event.msg.srcPseudo = some p) (S : Syndromes)
    (s : ServerState) :
    ((MIN_NAME_LENGTH ≤ p.length →
        a.event.msg.msgType ≠ MSG_CONNECTION_CLIENT ∧ a.event.msg.msgType ≠ MSG_STD_CLIENT_SERVER) ∧
      ∀ fuel, a.handled S fuel s = .ok ⟨s, [], a.event.msg⟩) ∨
    ((MIN_NAME_LENGTH ≤ p.length ∧ a.event.msg.msgType = MSG_CONNECTION_CLIENT) ∧
      ∀ fuel, a.handled S fuel s =
        checkedConnection a.heap fuel a.event.clock a.event.locals a.event.sock p a.event.msg s >>= fun r =>
          .ok ⟨r.1, r.2, a.event.msg⟩) ∨
    (MIN_NAME_LENGTH ≤ p.length ∧ a.event.msg.msgType = MSG_STD_CLIENT_SERVER) ∧
      ∀ fuel, a.handled S fuel s = checkedText S fuel a.event.locals a.event.sock p a.event.msg s := by
  simp only [Arrival.handled, checkedMsgReceived, hpseudo, within_some, ok_bind]
  by_cases hlong : MIN_NAME_LENGTH ≤ p.length
  · simp only [if_neg (Nat.not_lt.2 hlong)]
    by_cases hconnection : a.event.msg.msgType = MSG_CONNECTION_CLIENT
    · exact Or.inr (Or.inl ⟨⟨hlong, hconnection⟩, fun fuel => if_pos hconnection⟩)
    simp only [if_neg hconnection]
    by_cases htext : a.event.msg.msgType = MSG_STD_CLIENT_SERVER
    · exact Or.inr (Or.inr ⟨⟨hlong, htext⟩, fun fuel => if_pos htext⟩)
    · exact Or.inl ⟨fun _ => ⟨hconnection, htext⟩, fun fuel => if_neg htext⟩
  · exact Or.inl ⟨fun h => absurd h hlong, fun fuel => if_pos (Nat.not_le.1 hlong)⟩

theorem staysInBounds_iff (h : Serves s accounts) (a : Arrival) : StaysInBounds S a s ↔ ServerFits S a s := by
  cases hpseudo : cstr a.event.msg.srcPseudo with
  | none =>
    refine iff_of_false (fun hin => ?_) fun hfits => hfits.pseudo hpseudo
    obtain ⟨p, hp, -⟩ := inBounds_within.1 (hin 0)
    rw [hpseudo] at hp
    cases hp
  | some p =>
    have hne : cstr a.event.msg.srcPseudo ≠ none := by
      rw [hpseudo]
      exact Option.some_ne_none p
    have hsame : ∀ {q}, cstr a.event.msg.srcPseudo = some q → p = q := fun hq =>
      Option.some.inj (hpseudo.symm.trans hq)
    rcases handled_cases hpseudo S s with ⟨hother, hrun⟩ | ⟨⟨hlong, hconnection⟩, hrun⟩ | ⟨⟨hlong, htext⟩, hrun⟩
    · refine iff_of_true (fun fuel => ?_) ⟨hne, fun q hq hlong => ?_, fun q htext hq hlong => ?_⟩
      · rw [hrun]
        exact inBounds_ok _
      · obtain rfl := hsame hq.2
        exact absurd hq.1 (hother hlong).1
      · obtain rfl := hsame hq
        exact absurd htext (hother hlong).2
    · have hp := validPseudo_of_cstr hpseudo hlong
      have hin : StaysInBounds S a s ↔ ∀ fuel, InBounds
          (checkedConnection a.heap fuel a.event.clock a.event.locals a.event.sock p a.event.msg s) := by
        refine forall_congr' fun fuel => ?_
        rw [hrun]
        exact avoids_bind.trans (and_iff_left fun r _ => inBounds_ok _)
      rw [hin, connection_inBounds_iff h hp]
      constructor
      · refine fun hfits => ⟨hne, fun q hq _ => ?_, fun q htext _ _ => ?_⟩
        · obtain rfl := hsame hq.2
          exact hfits
        · exact absurd (hconnection.symm.trans htext) (by decide)
      · exact fun hfits => hfits.connection p ⟨hconnection, hpseudo⟩ hlong
    · have hp := validPseudo_of_cstr hpseudo hlong
      have hin : StaysInBounds S a s ↔ TextFits S a.event.msg := by
        rw [StaysInBounds]
        simp only [hrun, text_inBounds_iff h hpseudo hp, forall_const]
      rw [hin]
      constructor
      · refine fun hfits => ⟨hne, fun q hq _ => ?_, fun _ _ _ _ => hfits⟩
        exact absurd (hq.1.symm.trans htext) (by decide)
      · exact fun hfits => hfits.text p htext hpseudo hlong

theorem handled_serves (h : Serves s accounts) {a : Arrival} {r : Handled} (hr : a.handled S fuel s = .ok r) :
    ∃ accounts', Serves r.state accounts' := by
  obtain ⟨p, hpseudo, -⟩ := bind_eq_ok.1 hr
  have hpseudo := orFail_eq_ok.1 hpseudo
  rcases handled_cases hpseudo S s with ⟨-, hrun⟩ | ⟨⟨hlong, -⟩, hrun⟩ | ⟨⟨hlong, -⟩, hrun⟩
  · rw [hrun] at hr
    cases hr
    exact ⟨accounts, h⟩
  · rw [hrun] at hr
    obtain ⟨⟨s', sent⟩, hconnection, hdone⟩ := bind_eq_ok.1 hr
    cases hdone
    exact checkedConnection_serves h (validPseudo_of_cstr hpseudo hlong) hconnection
  · rw [hrun] at hr
    rw [checkedText_state h (validPseudo_of_cstr hpseudo hlong) hr]
    exact ⟨accounts, h⟩

/-- A run goes on within the bounds as long as its messages fit. -/
theorem along_inBounds_iff (h : Serves s accounts) (arrivals : List Arrival) :
    Along S (StaysInBounds S) arrivals s ↔ Along S (ServerFits S) arrivals s := by
  induction arrivals generalizing s accounts with
  | nil => exact Iff.rfl
  | cons a arrivals ih =>
    refine and_congr (staysInBounds_iff h a) (forall₃_congr fun fuel r hr => ?_)
    obtain ⟨accounts', h'⟩ := handled_serves h hr
    exact ih h'

/-! ### The proxy -/

theorem clientReceived_inBounds_iff (rands : ℕ → ℕ) (serverFd : Int) (msg : Message) :
    InBounds (checkedClientReceived rands serverFd msg) ↔
      (msg.msgType = MSG_STD_CLIENT_SERVER → msg.msgLength.toNat ≤ MAX_MSG_LENGTH) := by
  refine (avoids_orFail (outOfBounds_bad .msg)).trans ⟨fun hsome htext => ?_, fun hfits => ?_⟩
  · by_contra hlen
    have hnull : msg.msgType ≠ MSG_NULL := by
      rw [htext]
      decide
    have hlong : msg.msgType = MSG_STD_CLIENT_SERVER ∧ 10 ≤ msg.msgLength := by
      refine ⟨htext, UInt32.le_iff_toNat_le.2 ?_⟩
      have hmax : MAX_MSG_LENGTH = 512 := rfl
      show 10 ≤ msg.msgLength.toNat
      omega
    refine hsome ?_
    rw [onClientReceived, if_neg hnull, addErrors, if_pos hlong, Option.map_eq_none_iff]
    exact Option.eq_none_iff_forall_ne_some.2 fun m hm => hlen (codeInsertError_length hm)
  · rw [onClientReceived]
    split
    · exact Option.some_ne_none _
    · rw [addErrors]
      split
      · rename_i hlong
        rw [codeInsertError_eq rands (hfits hlong.1)]
        exact Option.some_ne_none _
      · exact Option.some_ne_none _

/-! ### Both programs -/

/-- A text that says to be longer than a message. -/
def longText : Message := { textMessage "alice" "hello" 2 with msgLength := 600 }

end NyanChat
