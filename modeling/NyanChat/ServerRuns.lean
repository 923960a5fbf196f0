import NyanChat.Sessions

/-!
# Runs of the server

A run is a history of received messages with the replies to them.  The accounts of a state are what the history
tells: the session of a pseudo is the one of its last accepted request (`run_tracked`), its code the one of the
first (`run_codesKept`).  So a code never changes, and a session changes only for the holder of the code after a time
without activity (`accounts_protected`).
-/

namespace NyanChat

/-- A message that the server receives on `sock`. -/
structure Event where
  clock : Clock
  locals : Locals
  sock : Int
  msg : Message

abbrev Exchange : Type := Event × List Sent

/-- The server handles the message and comes back.  Its syndrome table was never created. -/
def Step (e : Event) (s : ServerState) (r : Handled) : Prop :=
  ∃ fuel, onMsgReceived zeroSyndromes fuel e.clock e.locals e.sock e.msg s = some r

/-- The states a server reaches, with the exchanges so far, the last one first. -/
inductive Run : List Exchange → ServerState → Prop
  | start {codes : List UInt8 → Option (List UInt8)} {s : ServerState} : initServerState codes = some s → Run [] s
  | step {hist : List Exchange} {s : ServerState} {e : Event} {r : Handled} :
      Run hist s → Step e s r → Run ((e, r.sent) :: hist) r.state

/-- A connection request of `p`. -/
def Event.Requests (e : Event) (p : Key) : Prop :=
  e.msg.msgType = MSG_CONNECTION_CLIENT ∧ cstr e.msg.srcPseudo = some p

instance (e : Event) (p : Key) : Decidable (e.Requests p) :=
  inferInstanceAs (Decidable (e.msg.msgType = MSG_CONNECTION_CLIENT ∧ cstr e.msg.srcPseudo = some p))

/-- A connection request of `p` that was answered with `MSG_WELL_CONNECTED`. -/
def accepted (p : Key) (x : Exchange) : Bool :=
  decide (x.1.Requests p) && x.2.any fun m => m.msg.msgType = MSG_WELL_CONNECTED

def lastAccepted (p : Key) (hist : List Exchange) : Option Event := (hist.find? (accepted p)).map Prod.fst

def firstAccepted (p : Key) (hist : List Exchange) : Option Event := (hist.reverse.find? (accepted p)).map Prod.fst

/-- A connection request as the clients build it: the code ends with a NUL that the length covers. -/
def Event.Built (e : Event) : Prop :=
  e.msg.msgType = MSG_CONNECTION_CLIENT → ∃ code, cstr e.msg.msg = some code ∧ code.length < e.msg.msgLength.toNat

/-- The client that the server finds for a pseudo. -/
def session (s : ServerState) (p : Key) : Option Client :=
  if hashmapFind s.hmPseudoToId p = -1 then none else (s.clients[(hashmapGet s.hmPseudoToId p).toNat]?).join

def storedCode (s : ServerState) (p : Key) : Option (List UInt8) := (s.codes (pathKey p)).bind stringIn

variable {s : ServerState} {accounts : Key → Option Account} {hist : List Exchange}

theorem Serves.session_eq (h : Serves s accounts) {p : Key} (hp : ValidKey p) :
    session s p = (accounts p).map Prod.snd := by
  have hfind := hashmapFind_ne_iff h.sound h.bindings hp
  have hget := hashmapGet_eq h.sound h.bindings hp
  unfold session
  cases hacc : accounts p with
  | none =>
    rw [hacc] at hfind
    have hno : hashmapFind s.hmPseudoToId p = -1 := by
      by_contra hne
      obtain ⟨v, hv⟩ := hfind.1 hne
      cases hv
    rw [if_pos hno]
    rfl
  | some a =>
    obtain ⟨i, c⟩ := a
    rw [hacc] at hfind hget
    have hidx : (hashmapGet s.hmPseudoToId p).toNat = i.val := by rw [hget]; exact toNat_ofNat_index i
    have hclient : s.clients[i.val] = some c := (h.clients i c).2 ⟨p, hacc⟩
    rw [if_neg (hfind.2 ⟨_, rfl⟩), hidx, Vector.getElem?_eq_getElem i.2, hclient]
    rfl

/-! ### The start -/

theorem initServerState_serves {codes : List UInt8 → Option (List UInt8)} (h : initServerState codes = some s) :
    Serves s fun _ => none := by
  obtain ⟨hm, hcreate, rfl⟩ := Option.map_eq_some_iff.1 h
  obtain ⟨hsound, hbind⟩ := hashmapCreate_spec hcreate
  have hsize : hm = Hashmap.blank 512 (by decide) := by
    have : hashmapCreate (UInt32.ofNat (NB_MAX_CONNECTED_CLIENTS * 2)) = some (Hashmap.blank 512 (by decide)) := rfl
    exact Option.some.inj (hcreate.symm.trans this)
  refine ⟨hsound, by rw [hsize]; rfl, hbind, fun i c => ?_, fun p i c hp => ?_, fun _ _ => rfl, ?_, fun q hq => ?_⟩
  · simp [Vector.get]
  · cases hp
  · rw [← hsound.count_eq, hsize, Vector.toList_replicate, List.countP_replicate, Option.isSome_none,
      if_neg Bool.false_ne_true]
    rfl
  · rw [hsize, blank_slot] at hq
    cases hq

/-- The messages that the proxy forwards to one of its indices. -/
def repliesTo (index : Int32) (sent : List Sent) : List Message :=
  (sent.filter fun m => m.msg.proxyClientSocket = index).map Sent.msg

theorem mem_repliesTo {index : Int32} {sent : List Sent} {m : Message} (h : m ∈ repliesTo index sent) :
    ∃ x ∈ sent, x.msg = m ∧ m.proxyClientSocket = index := by
  obtain ⟨x, hx, rfl⟩ := List.mem_map.1 h
  rw [List.mem_filter, decide_eq_true_iff] at hx
  exact ⟨x, hx.1, rfl, hx.2⟩

/-! ### Exchanges -/

theorem errorReply_msgType (text : List UInt8) (msg errorMsg : Message) :
    (errorReply text msg errorMsg).msgType = MSG_ERROR := by
  rw [errorReply]

theorem connectedReply_msgType (msg connectedMsg : Message) :
    (connectedReply msg connectedMsg).msgType = MSG_WELL_CONNECTED := by
  rw [connectedReply]

theorem accepted_iff {p : Key} {x : Exchange} :
    accepted p x = true ↔ x.1.Requests p ∧ ∃ m ∈ x.2, m.msg.msgType = MSG_WELL_CONNECTED := by
  rw [accepted, Bool.and_eq_true, decide_eq_true_iff, List.any_eq_true]
  simp only [decide_eq_true_iff]

theorem lastAccepted_cons (p : Key) (x : Exchange) (hist : List Exchange) :
    lastAccepted p (x :: hist) = if accepted p x then some x.1 else lastAccepted p hist := by
  rw [lastAccepted, List.find?_cons]
  split
  · rename_i h
    rw [if_pos h]
    rfl
  · rename_i h
    rw [if_neg (by rw [h]; exact nofun)]
    rfl

theorem firstAccepted_cons (p : Key) (x : Exchange) (hist : List Exchange) :
    firstAccepted p (x :: hist) =
      (firstAccepted p hist).or (if accepted p x then some x.1 else none) := by
  rw [firstAccepted, firstAccepted, List.reverse_cons, List.find?_append, List.find?_singleton]
  cases hist.reverse.find? (accepted p) with
  | some y => rfl
  | none =>
    simp only [Option.none_or, Option.map_none]
    split <;> rfl

theorem not_accepted_of_sent {p : Key} {e : Event} {sent : List Sent}
    (h : ∀ m ∈ sent, m.msg.msgType ≠ MSG_WELL_CONNECTED) : accepted p (e, sent) = false := by
  rw [Bool.eq_false_iff, ne_eq, accepted_iff]
  rintro ⟨-, m, hm, htype⟩
  exact h m hm htype

theorem not_accepted_of_not_requests {p : Key} {e : Event} {sent : List Sent} (h : ¬ e.Requests p) :
    accepted p (e, sent) = false := by
  rw [Bool.eq_false_iff, ne_eq, accepted_iff]
  exact fun hacc => h hacc.1

/-! ### The accounts of a run -/

/-- The accounts are those that the history tells. -/
structure Tracked (hist : List Exchange) (s : ServerState) (accounts : Key → Option Account) : Prop where
  serves : Serves s accounts
  absent : ∀ p, accounts p = none → lastAccepted p hist = none
  session : ∀ p i c, accounts p = some (i, c) → ∃ e, lastAccepted p hist = some e ∧
    c.lastActivity = e.clock.store ∧ c.idPollSocketProxy = e.msg.proxyClientSocket

/-- An exchange that accepts nobody and leaves the state. -/
theorem Tracked.keep (h : Tracked hist s accounts) {x : Exchange} (hx : ∀ p, accepted p x = false) :
    Tracked (x :: hist) s accounts := by
  have hlast : ∀ p, lastAccepted p (x :: hist) = lastAccepted p hist := fun p => by
    rw [lastAccepted_cons, if_neg (by rw [hx p]; exact nofun)]
  refine ⟨h.serves, fun p hp => ?_, fun p i c hp => ?_⟩
  · rw [hlast]
    exact h.absent p hp
  · rw [hlast]
    exact h.session p i c hp

theorem accepted_connectedReply {e : Event} {p : Key} (he : e.Requests p) (q : Key) :
    accepted q (e, [⟨e.sock, connectedReply e.msg e.locals.connectedMsg⟩]) = decide (q = p) := by
  rcases eq_or_ne q p with rfl | hq
  · rw [decide_eq_true rfl, accepted_iff]
    exact ⟨he, _, List.mem_singleton_self _, connectedReply_msgType _ _⟩
  · rw [decide_eq_false hq]
    exact not_accepted_of_not_requests fun hreq => hq (Option.some.inj (hreq.2.symm.trans he.2))

/-- An accepted request sets the account of its pseudo. -/
theorem Tracked.accept (h : Tracked hist s accounts) {e : Event} {p : Key} (he : e.Requests p) {s' : ServerState}
    {i : Fin NB_MAX_CONNECTED_CLIENTS} {c : Client} (hacc : Accepts e.clock e.msg p s s' accounts i c) :
    Tracked ((e, [⟨e.sock, connectedReply e.msg e.locals.connectedMsg⟩]) :: hist) s'
      (Function.update accounts p (some (i, c))) := by
  refine ⟨hacc.serves, fun q hq => ?_, fun q j d hq => ?_⟩ <;>
    rw [lastAccepted_cons, accepted_connectedReply he]
  · rcases eq_or_ne q p with rfl | hqp
    · rw [Function.update_self] at hq
      cases hq
    · rw [Function.update_of_ne hqp] at hq
      rw [decide_eq_false hqp, if_neg nofun]
      exact h.absent q hq
  · rcases eq_or_ne q p with rfl | hqp
    · rw [Function.update_self] at hq
      cases hq
      exact ⟨e, by rw [decide_eq_true rfl, if_pos rfl], hacc.lastActivity, hacc.socket⟩
    · rw [Function.update_of_ne hqp] at hq
      rw [decide_eq_false hqp, if_neg nofun]
      exact h.session q j d hq

/-- The code of an accepted request is the stored one. -/
theorem CodeMatches.eq {p : Key} {msg : Message} (h : CodeMatches s p msg) {code stored : List UInt8}
    (hcode : cstr msg.msg = some code) (hstored : storedCode s p = some stored) : code = stored := by
  obtain ⟨file, hfile, hstring⟩ := Option.bind_eq_some_iff.1 hstored
  have hsame := h file hfile
  rw [strcmpEqual_eq hcode hstring] at hsame
  exact of_decide_eq_true (Option.some.inj hsame)

theorem Accepts.storedCode_eq {clock : Clock} {msg : Message} {p : Key} {s' : ServerState}
    {i : Fin NB_MAX_CONNECTED_CLIENTS} {c : Client} (h : Accepts clock msg p s s' accounts i c) {code : List UInt8}
    (hcode : cstr msg.msg = some code) (hlen : code.length < msg.msgLength.toNat) : storedCode s' p = some code := by
  rw [storedCode, h.codes, Function.update_self, Option.bind_some]
  exact stringIn_take hcode hlen

theorem Accepts.storedCode_ne {clock : Clock} {msg : Message} {p q : Key} {s' : ServerState}
    {i : Fin NB_MAX_CONNECTED_CLIENTS} {c : Client} (h : Accepts clock msg p s s' accounts i c) (hq : q ≠ p) :
    storedCode s' q = storedCode s q := by
  rw [storedCode, storedCode, h.codes, Function.update_of_ne (pathKey_injective.ne hq)]

/-- What a message does: it leaves the state and accepts nobody, or it is an accepted request. -/
theorem step_cases (h : Serves s accounts) {e : Event} {r : Handled} (hstep : Step e s r) :
    (r.state = s ∧ (∀ p, accepted p (e, r.sent) = false) ∧
        (e.msg.msgType = MSG_CONNECTION_CLIENT → r.sent.length ≤ 1)) ∨
      ∃ p i c, e.Requests p ∧ ValidPseudo p ∧ r.sent = [⟨e.sock, connectedReply e.msg e.locals.connectedMsg⟩] ∧
        Accepts e.clock e.msg p s r.state accounts i c := by
  obtain ⟨fuel, hrun⟩ := hstep
  cases onMsgReceived_branch hrun with
  | noPseudo hp hshort =>
    exact Or.inl ⟨rfl, fun p => not_accepted_of_sent nofun, fun _ => Nat.zero_le _⟩
  | @connection p s' sent hp hvalid htype hconn =>
    rcases onConnection_cases h hvalid hconn with ⟨hs, text, hsent⟩ | ⟨hsent, i, c, hacc⟩
    · refine Or.inl ⟨hs, fun q => not_accepted_of_sent fun m hm => ?_, fun _ => by rw [hsent]; exact Nat.le_refl 1⟩
      rw [hsent, List.mem_singleton] at hm
      subst hm
      exact (errorReply_msgType _ _ _).trans_ne (by decide)
    · exact Or.inr ⟨p, i, c, ⟨htype, hp⟩, hvalid, hsent, hacc⟩
  | text hp hvalid htype htext =>
    refine Or.inl ⟨onText_state h hvalid htext, fun q => ?_, fun hconn => ?_⟩
    · exact not_accepted_of_not_requests fun hreq => by
        have := hreq.1
        rw [htype] at this
        exact absurd this (by decide)
    · rw [htype] at hconn
      exact absurd hconn (by decide)
  | other hp hvalid hconn htext =>
    exact Or.inl ⟨rfl, fun p => not_accepted_of_sent nofun, fun _ => Nat.zero_le _⟩

theorem Tracked.step (h : Tracked hist s accounts) {e : Event} {r : Handled} (hstep : Step e s r) :
    ∃ accounts', Tracked ((e, r.sent) :: hist) r.state accounts' := by
  rcases step_cases h.serves hstep with ⟨hs, hacc, -⟩ | ⟨p, i, c, hreq, -, hsent, hacc⟩
  · exact ⟨accounts, hs ▸ h.keep hacc⟩
  · exact ⟨_, hsent ▸ h.accept hreq hacc⟩

theorem run_tracked (h : Run hist s) : ∃ accounts, Tracked hist s accounts := by
  induction h with
  | start hs => exact ⟨_, initServerState_serves hs, fun _ _ => rfl, nofun⟩
  | step _ hstep ih =>
    obtain ⟨accounts, htracked⟩ := ih
    exact htracked.step hstep

/-! ### Codes -/

/-- The stored code of an accepted pseudo is the one of its first accepted request. -/
def CodesKept (hist : List Exchange) (s : ServerState) : Prop :=
  ∀ p e, firstAccepted p hist = some e → ∃ code, cstr e.msg.msg = some code ∧ storedCode s p = some code

theorem CodesKept.step (h : CodesKept hist s) (ht : Tracked hist s accounts) {e : Event} (hbuilt : e.Built)
    {r : Handled} (hstep : Step e s r) : CodesKept ((e, r.sent) :: hist) r.state := by
  intro q e' he'
  rw [firstAccepted_cons] at he'
  rcases step_cases ht.serves hstep with ⟨hs, hno, -⟩ | ⟨p, i, c, hreq, -, hsent, hacc⟩
  · rw [if_neg (by rw [hno q]; exact nofun), Option.or_none] at he'
    rw [hs]
    exact h q e' he'
  · obtain ⟨code, hcode, hlen⟩ := hbuilt hreq.1
    rw [hsent, accepted_connectedReply hreq] at he'
    rcases eq_or_ne q p with rfl | hqp
    · rw [decide_eq_true rfl, if_pos rfl] at he'
      cases hfirst : firstAccepted q hist with
      | none =>
        rw [hfirst] at he'
        cases he'
        exact ⟨code, hcode, hacc.storedCode_eq hcode hlen⟩
      | some e₀ =>
        rw [hfirst] at he'
        cases he'
        obtain ⟨code₀, hcode₀, hstored⟩ := h q e' hfirst
        obtain rfl := hacc.code.eq hcode hstored
        exact ⟨code, hcode₀, hacc.storedCode_eq hcode hlen⟩
    · rw [decide_eq_false hqp, if_neg nofun, Option.or_none] at he'
      rw [hacc.storedCode_ne hqp]
      exact h q e' he'

theorem run_codesKept (h : Run hist s) (hbuilt : ∀ x ∈ hist, x.1.Built) : CodesKept hist s := by
  induction h with
  | start hs =>
    -- nothing was accepted yet
    intro p e he
    have hnone : firstAccepted p [] = none := rfl
    rw [hnone] at he
    cases he
  | step hrun hstep ih =>
    rw [List.forall_mem_cons] at hbuilt
    obtain ⟨accounts, htracked⟩ := run_tracked hrun
    exact (ih hbuilt.2).step htracked hbuilt.1 hstep

theorem firstAccepted_ne_none_iff {p : Key} {hist : List Exchange} :
    firstAccepted p hist ≠ none ↔ lastAccepted p hist ≠ none := by
  induction hist with
  | nil => rfl
  | cons x hist ih =>
    rw [firstAccepted_cons, lastAccepted_cons]
    split
    · simp
    · rw [Option.or_none]
      exact ih

/-- The account of an accepted pseudo has a code. -/
theorem Tracked.storedCode (h : Tracked hist s accounts) (hc : CodesKept hist s) {p : Key} {a : Account}
    (ha : accounts p = some a) : ∃ code, storedCode s p = some code := by
  obtain ⟨last, hlast, -⟩ := h.session p a.1 a.2 ha
  have hfirst := firstAccepted_ne_none_iff.2 (hlast ▸ Option.some_ne_none last)
  obtain ⟨e, he⟩ := Option.ne_none_iff_exists'.1 hfirst
  obtain ⟨code, -, hcode⟩ := hc p e he
  exact ⟨code, hcode⟩

theorem Tracked.account (h : Tracked hist s accounts) {p : Key} (hp : firstAccepted p hist ≠ none) :
    ∃ a, accounts p = some a := by
  refine Option.ne_none_iff_exists'.1 fun hnone => ?_
  exact firstAccepted_ne_none_iff.1 hp (h.absent p hnone)

/-- In a run of requests that the clients built the server comes back from a request, when a pseudo that was never
accepted has no code. -/
theorem request_returns (hrun : Run hist s) (hbuilt : ∀ x ∈ hist, x.1.Built) {e : Event} {p : Key}
    (hreq : e.Requests p) {code : List UInt8} (hcode : cstr e.msg.msg = some code)
    (hlen : e.msg.msgLength.toNat ≤ MAX_MSG_LENGTH)
    (hnew : lastAccepted p hist = none → s.codes (pathKey p) = none) : ∃ r, Step e s r := by
  obtain ⟨accounts, h⟩ := run_tracked hrun
  obtain ⟨htype, hp⟩ := hreq
  by_cases hshort : p.length < MIN_NAME_LENGTH
  · exact ⟨⟨s, [], e.msg⟩, 0, by simp [onMsgReceived, hp, hshort]⟩
  · have hvalid := validPseudo_of_cstr hp (Nat.not_lt.1 hshort)
    have hdefined : ∀ stored, s.codes (pathKey p) = some stored →
        ∃ b, strcmpEqual e.msg.msg.toList stored = some b := by
      intro stored hstored
      have hacc : accounts p ≠ none := fun hnone => by
        rw [hnew (h.absent p hnone)] at hstored
        cases hstored
      obtain ⟨a, ha⟩ := Option.ne_none_iff_exists'.1 hacc
      obtain ⟨c, hc⟩ := h.storedCode (run_codesKept hrun hbuilt) ha
      obtain ⟨file, hfile, hstring⟩ := Option.bind_eq_some_iff.1 hc
      obtain rfl := Option.some.inj (hfile.symm.trans hstored)
      exact ⟨_, strcmpEqual_eq hcode hstring⟩
    obtain ⟨r, hr⟩ := onConnection_returns h.serves hvalid hlen hdefined e.clock e.locals e.sock
    exact ⟨⟨r.1, r.2, e.msg⟩, 513, by simp [onMsgReceived, hp, hshort, htype, hr]⟩

/-- The code of a pseudo never changes, and its session changes only for a request with that code after
`TIMEOUT_INACTIVE` seconds; a request that is answered with `MSG_ERROR` changes nothing and has no other reply. -/
theorem accounts_protected (hrun : Run hist s) (hbuilt : ∀ x ∈ hist, x.1.Built) :
    (∀ p e₀ code, firstAccepted p hist = some e₀ → cstr e₀.msg.msg = some code →
      storedCode s p = some code ∧
      ∀ e r, e.Built → Step e s r → storedCode r.state p = some code ∧
        (session r.state p ≠ session s p → e.Requests p ∧ cstr e.msg.msg = some code ∧
          ∃ last, lastAccepted p hist = some last ∧ TIMEOUT_INACTIVE ≤ e.clock.check - last.clock.store)) ∧
    ∀ e r, e.msg.msgType = MSG_CONNECTION_CLIENT → Step e s r → (∃ m ∈ r.sent, m.msg.msgType = MSG_ERROR) →
      r.state = s ∧ ∃ m, r.sent = [m] := by
  obtain ⟨accounts, ht⟩ := run_tracked hrun
  constructor
  · intro p e₀ code hfirst hcode₀
    obtain ⟨code', hcode', hstored⟩ := run_codesKept hrun hbuilt p e₀ hfirst
    obtain rfl := Option.some.inj (hcode'.symm.trans hcode₀)
    refine ⟨hstored, fun e r hb hstep => ?_⟩
    rcases step_cases ht.serves hstep with ⟨hs, -, -⟩ | ⟨q, i, c, hreq, hvalid, -, hacc⟩
    · rw [hs]
      exact ⟨hstored, fun hne => absurd rfl hne⟩
    · -- a request changes the code and the session of its own pseudo only
      rcases eq_or_ne p q with rfl | hpq
      · obtain ⟨a, ha⟩ := ht.account (hfirst ▸ Option.some_ne_none e₀)
        obtain ⟨last, hlast, htime, -⟩ := ht.session p a.1 a.2 ha
        obtain ⟨code, hcode, hlen⟩ := hb hreq.1
        obtain rfl := hacc.code.eq hcode hstored
        refine ⟨hacc.storedCode_eq hcode hlen, fun _ => ⟨hreq, hcode, last, hlast, ?_⟩⟩
        rw [← htime]
        exact hacc.inactive a ha
      · obtain ⟨a, ha⟩ := ht.account (hfirst ▸ Option.some_ne_none e₀)
        have hkey := (ht.serves.pseudo p a.1 a.2 ha).1.validKey
        refine ⟨(hacc.storedCode_ne hpq).trans hstored, fun hne => absurd ?_ hne⟩
        rw [hacc.serves.session_eq hkey, ht.serves.session_eq hkey, Function.update_of_ne hpq]
  · intro e r htype hstep ⟨m, hm, hmtype⟩
    rcases step_cases ht.serves hstep with ⟨hs, -, hlen⟩ | ⟨q, i, c, -, -, hsent, -⟩
    · refine ⟨hs, List.length_eq_one_iff.1 ?_⟩
      have := List.length_pos_of_mem hm
      have := hlen htype
      omega
    · rw [hsent, List.mem_singleton] at hm
      subst hm
      exact absurd hmtype ((connectedReply_msgType _ _).trans_ne (by decide))

/-! ### Small runs -/

/-- A connection request that the proxy read from the index `idPoll`. -/
def connectionRequest (pseudo code : String) (idPoll : Int32) : Message :=
  { Message.zero with
    msgType := MSG_CONNECTION_CLIENT
    srcPseudo := overlay Message.zero.srcPseudo (ascii pseudo)
    proxyClientSocket := idPoll
    msgLength := UInt32.ofNat CODE_LENGTH
    msg := overlay Message.zero.msg (ascii code) }

/-- A text for the default channel that the proxy read from the index `idPoll`. -/
def textMessage (pseudo text : String) (idPoll : Int32) : Message :=
  { Message.zero with
    msgType := MSG_STD_CLIENT_SERVER
    srcPseudo := overlay Message.zero.srcPseudo (ascii pseudo)
    proxyClientSocket := idPoll
    msgLength := UInt32.ofNat (text.length + 1)
    msg := overlay Message.zero.msg (ascii text) }

/-- A message received at second `0` from the proxy on the socket `sock`. -/
def eventOn (sock : Int) (msg : Message) : Event :=
  ⟨⟨0, 0⟩, ⟨Message.zero, Message.zero, Message.zero, Message.zero⟩, sock, msg⟩

def freshServer : ServerState where
  clients := Vector.replicate _ none
  hmPseudoToId := Hashmap.blank 512 (by decide)
  codes _ := none

theorem freshServer_eq : initServerState (fun _ => none) = some freshServer := rfl

theorem run_freshServer : Run [] freshServer := Run.start freshServer_eq

/-- The server on one message, with enough fuel for a small run. -/
def handle (e : Event) (s : ServerState) : Option Handled :=
  onMsgReceived zeroSyndromes 20 e.clock e.locals e.sock e.msg s

private theorem alice_connects :
    (handle (eventOn 5 (connectionRequest "alice" "secret" 2)) freshServer).map
      (fun r => r.sent.map fun m => m.msg.msgType) = some [MSG_WELL_CONNECTED] := by
  decide +kernel

/-- A fresh server accepts alice. -/
theorem alice_accepted :
    ∃ r, handle (eventOn 5 (connectionRequest "alice" "secret" 2)) freshServer = some r ∧
      accepted (ascii "alice") (eventOn 5 (connectionRequest "alice" "secret" 2), r.sent) = true := by
  obtain ⟨r, hr, hsent⟩ := Option.map_eq_some_iff.1 alice_connects
  obtain ⟨m, hm, htype⟩ := List.map_eq_singleton_iff.1 hsent
  have hpseudo : cstr (connectionRequest "alice" "secret" 2).srcPseudo = some (ascii "alice") := by decide +kernel
  refine ⟨r, hr, accepted_iff.2 ⟨⟨rfl, hpseudo⟩, m, ?_, htype⟩⟩
  rw [hm]
  exact List.mem_singleton_self m

theorem accounts_protected_alice :
    ∃ hist s, Run hist s ∧
      firstAccepted (ascii "alice") hist = some (eventOn 5 (connectionRequest "alice" "secret" 2)) ∧
      storedCode s (ascii "alice") = some (ascii "secret") := by
  obtain ⟨r, hr, hacc⟩ := alice_accepted
  have hrun := Run.step (e := eventOn 5 (connectionRequest "alice" "secret" 2)) run_freshServer ⟨20, hr⟩
  have hcode : cstr (connectionRequest "alice" "secret" 2).msg = some (ascii "secret") := by decide +kernel
  have hlen : (ascii "secret").length < (connectionRequest "alice" "secret" 2).msgLength.toNat := by decide
  have hbuilt : ∀ x ∈ [(eventOn 5 (connectionRequest "alice" "secret" 2), r.sent)], x.1.Built := by
    intro x hx
    rw [List.mem_singleton.1 hx]
    exact fun _ => ⟨_, hcode, hlen⟩
  have hfirst : firstAccepted (ascii "alice") [(eventOn 5 (connectionRequest "alice" "secret" 2), r.sent)] =
      some (eventOn 5 (connectionRequest "alice" "secret" 2)) := by
    rw [firstAccepted_cons, if_pos hacc]
    rfl
  exact ⟨_, _, hrun, hfirst, ((accounts_protected hrun hbuilt).1 _ _ _ hfirst hcode).1⟩

end NyanChat
