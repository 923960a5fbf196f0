import NyanChat.ServerRuns
import NyanChat.Proxy
import NyanChat.Library.Faults

/-!
# The bounds of the arrays

The message handlers with each access of a fixed-size array checked.  Their loops go to the length that a received
message tells and to the NUL of its strings, and nobody checks these: a connection request and a text stay within the
arrays under the conditions of `connection_inBounds_iff` and `text_inBounds_iff`.
-/

namespace NyanChat

open Faults Loop

/-- The arrays of fixed size.  `msg` stands also for `control` and `error`, which are as long as it: where a loop goes
through two of them, it leaves both in the same turn. -/
inductive FixedArray
  | msg
  | srcPseudo
  | pseudo
  | pathKey

inductive Fault
  | outOfBounds (array : FixedArray)
  | stuck

def Fault.IsOutOfBounds : Fault → Prop
  | .outOfBounds _ => True
  | .stuck => False

abbrev Checked (α : Type) : Type := Except Fault α

/-- A result that is missing when the array is left. -/
def within {α : Type} (array : FixedArray) (o : Option α) : Checked α := orFail (.outOfBounds array) o

/-- A result that is missing when a call of the hash map does not come back. -/
def terminates {α : Type} (o : Option α) : Checked α := orFail .stuck o

/-- All accesses are within the bounds. -/
def InBounds {α : Type} (x : Checked α) : Prop := Avoids Fault.IsOutOfBounds x

/-! ### The handlers -/

/-- The bytes that `read_file` allocates, with the memory behind them. -/
def inMemory (code : List UInt8) (heap : ℕ → UInt8) (i : ℕ) : UInt8 := code.getD i (heap i)

/-- `strcmp(a, b) == 0` for an array `a` and a place `b` in memory. -/
def strcmpMemory : List UInt8 → (ℕ → UInt8) → Option Bool
  | [], _ => none
  | a :: as, b => if a ≠ b 0 then some false else if a = 0 then some true else strcmpMemory as fun i => b (i + 1)

def checkedRefusal (heap : ℕ → UInt8) (clock : Clock) (s : ServerState) (pseudo : List UInt8) (msg : Message)
    (cli : Option Client) : Checked (Option (List UInt8)) :=
  match s.codes (pathKey pseudo) with
  | none => .ok none
  | some foundCode => do
    let same ← within .msg (strcmpMemory msg.msg.toList (inMemory foundCode heap))
    if same then
      match cli with
      | some c =>
        if c.connected ∧ ¬ clock.check - c.lastActivity ≥ TIMEOUT_INACTIVE then
          return some ERROR_MSG_STILL_ACTIVE_CLIENT
        else return none
      | none => return none
    else return some ERROR_MSG_CON_DIFF_KEYS

/-- `path_key` has room for a pseudo and 100 bytes more. -/
def checkedPathKey (pseudo : List UInt8) : Checked (Vector UInt8 (MAX_NAME_LENGTH + 100)) :=
  within .pathKey (strcpy (Vector.replicate _ 0) (pathKey pseudo))

/-- The copy of the pseudo in `create_client`. -/
def checkedPseudo (pseudo : List UInt8) : Checked (Vector UInt8 MAX_NAME_LENGTH) :=
  within .pseudo (strcpy (Vector.replicate _ 0) pseudo)

def checkedTakeCare (fuel : ℕ) (clock : Clock) (s : ServerState) (pseudo : List UInt8) (msg : Message)
    (cli : Option (Fin NB_MAX_CONNECTED_CLIENTS × Client)) :
    Checked (Option (ServerState × Fin NB_MAX_CONNECTED_CLIENTS × Client)) := do
  if cli.isNone ∧ (emptyIndex s.clients).isSome then
    let _ ← checkedPseudo pseudo
    terminates (takeCare fuel clock s pseudo msg cli)
  else terminates (takeCare fuel clock s pseudo msg cli)

/-- `strcpy(error_msg.msg, text)` -/
def checkedErrorReply (text : List UInt8) (msg errorMsg : Message) : Checked Message := do
  let _ ← within .msg (strcpy errorMsg.msg text)
  return errorReply text msg errorMsg

def checkedConnection (heap : ℕ → UInt8) (fuel : ℕ) (clock : Clock) (locals : Locals) (sock : Int)
    (pseudo : List UInt8) (msg : Message) (s : ServerState) : Checked (ServerState × List Sent) := do
  let (s, cli) ← terminates (findClient fuel s pseudo)
  let _ ← checkedPathKey pseudo
  match ← checkedRefusal heap clock s pseudo msg (cli.map Prod.snd) with
  | some text =>
    let reply ← checkedErrorReply text msg locals.errorMsg
    return (s, [⟨sock, reply⟩])
  | none =>
    match ← checkedTakeCare fuel clock s pseudo msg cli with
    | none =>
      let reply ← checkedErrorReply ERROR_ALREADY_MAX_CLIENTS msg locals.errorMsg
      return (s, [⟨sock, reply⟩])
    | some (s, i, c) =>
      let s ← within .msg (storeCode s pseudo msg)
      return (s.setClient i { c with connected := true }, [⟨sock, connectedReply msg locals.connectedMsg⟩])

/-- `printf(" |->Broadcasting to %s\n", c->pseudo)` for a connected client -/
def checkedClient : Option Client → Checked Unit
  | some c => if c.connected then within .pseudo ((cstr c.pseudo).map fun _ => ()) else .ok ()
  | none => .ok ()

def checkedBroadcast (s : ServerState) (proxySock : Int) (msg newMsg : Message) : Checked (List Sent) := do
  let pseudo ← within .srcPseudo (cstr msg.srcPseudo)
  let text ← within .msg (cstr msg.msg)
  let _ ← within .msg (strcpy newMsg.msg text)
  let _ ← within .srcPseudo (strcpy newMsg.srcPseudo pseudo)
  checkAll checkedClient s.clients.toList
  within .msg (broadcastMsgToAllConnectedClients s proxySock msg newMsg)

def checkedText (S : Syndromes) (fuel : ℕ) (locals : Locals) (sock : Int) (pseudo : List UInt8) (msg : Message)
    (s : ServerState) : Checked Handled := do
  -- the text is printed first
  let _ ← within .msg (cstr msg.msg)
  let (s, _) ← terminates (findClient fuel s pseudo)
  let (msg, rc) ← within .msg (codeCorrectError S msg)
  if rc = 0 ∨ msg.nbRetransmission > 5 then
    let ack := ⟨sock, genPositiveAckFromMsg msg locals.ack⟩
    if msg.dstFlag = MSG_FLAG_DEFAULT_CHANNEL then
      let copies ← checkedBroadcast s sock msg locals.newMsg
      return ⟨s, ack :: copies, msg⟩
    else return ⟨s, [ack], msg⟩
  else return ⟨s, [⟨sock, genNegativeAckFromMsg msg locals.ack⟩], msg⟩

/-- `on_msg_received`, with the memory behind the file of a code. -/
def checkedMsgReceived (S : Syndromes) (heap : ℕ → UInt8) (fuel : ℕ) (clock : Clock) (locals : Locals) (sock : Int)
    (msg : Message) (s : ServerState) : Checked Handled := do
  let pseudo ← within .srcPseudo (cstr msg.srcPseudo)
  if pseudo.length < MIN_NAME_LENGTH then return ⟨s, [], msg⟩
  else if msg.msgType = MSG_CONNECTION_CLIENT then
    let (s, sent) ← checkedConnection heap fuel clock locals sock pseudo msg s
    return ⟨s, sent, msg⟩
  else if msg.msgType = MSG_STD_CLIENT_SERVER then checkedText S fuel locals sock pseudo msg s
  else return ⟨s, [], msg⟩

/-- `on_client_received`: only `code_insert_error` goes through the arrays. -/
def checkedClientReceived (rands : ℕ → ℕ) (serverFd : Int) (msg : Message) : Checked (Message × List Sent) :=
  within .msg (onClientReceived rands serverFd msg)

variable {S : Syndromes} {heap : ℕ → UInt8} {fuel : ℕ} {clock : Clock} {locals : Locals} {sock : Int} {msg : Message}
  {s s' : ServerState} {accounts : Key → Option Account} {p : Key} {α β : Type}

/-! ### What always fits -/

theorem outOfBounds_bad (array : FixedArray) : (Fault.outOfBounds array).IsOutOfBounds := trivial

theorem stuck_not_bad : ¬ Fault.stuck.IsOutOfBounds := id

theorem inBounds_within {array : FixedArray} {o : Option α} {f : α → Checked β} :
    InBounds (within array o >>= f) ↔ ∃ a, o = some a ∧ InBounds (f a) := avoids_orFail_bind (outOfBounds_bad array)

theorem inBounds_terminates {o : Option α} {f : α → Checked β} :
    InBounds (terminates o >>= f) ↔ ∀ a, o = some a → InBounds (f a) := avoids_orFail_bind_of_not stuck_not_bad

theorem inBounds_ok (a : α) : InBounds (.ok a) := avoids_ok _ a

theorem within_some (array : FixedArray) (a : α) : within array (some a) = .ok a := rfl

theorem within_strcpy {n : ℕ} (array : FixedArray) (a : Vector UInt8 n) {t : List UInt8} (h : t.length < n) :
    within array (strcpy a t) = .ok (overlay a (t ++ [0])) := by
  rw [strcpy, if_pos h]
  rfl

theorem checkedPathKey_ok (hp : ValidPseudo p) : ∃ path, checkedPathKey p = .ok path := by
  have hdir : PATH_SRV_CODES.length = 19 := by decide
  have hmax := hp.2.1
  have hlen : (pathKey p).length < MAX_NAME_LENGTH + 100 := by
    rw [pathKey, List.length_append, hdir]
    omega
  exact ⟨_, within_strcpy .pathKey _ hlen⟩

theorem checkedPseudo_ok (hp : ValidPseudo p) : ∃ pseudo, checkedPseudo p = .ok pseudo :=
  ⟨_, within_strcpy .pseudo _ hp.2.1⟩

theorem checkedTakeCare_eq (hp : ValidPseudo p) (fuel : ℕ) (clock : Clock) (s : ServerState) (msg : Message)
    (cli : Option (Fin NB_MAX_CONNECTED_CLIENTS × Client)) :
    checkedTakeCare fuel clock s p msg cli = terminates (takeCare fuel clock s p msg cli) := by
  obtain ⟨pseudo, hpseudo⟩ := checkedPseudo_ok hp
  rw [checkedTakeCare]
  split
  · rw [hpseudo]
    rfl
  · rfl

/-- The texts of the refusals fit into a message. -/
theorem checkedErrorReply_ok {text : List UInt8}
    (h : text ∈ [ERROR_MSG_CON_DIFF_KEYS, ERROR_MSG_STILL_ACTIVE_CLIENT, ERROR_ALREADY_MAX_CLIENTS])
    (msg errorMsg : Message) : checkedErrorReply text msg errorMsg = .ok (errorReply text msg errorMsg) := by
  have hall : ∀ text ∈ [ERROR_MSG_CON_DIFF_KEYS, ERROR_MSG_STILL_ACTIVE_CLIENT, ERROR_ALREADY_MAX_CLIENTS],
      text.length < MAX_MSG_LENGTH := by decide
  rw [checkedErrorReply, within_strcpy .msg _ (hall text h)]
  rfl

/-- The pseudos of the connected clients end in their arrays. -/
theorem checkedClients_ok (h : Serves s accounts) : checkAll checkedClient s.clients.toList = .ok () := by
  refine checkAll_eq_ok fun cli hcli => ?_
  cases cli with
  | none => rfl
  | some c =>
    obtain ⟨i, hi, hget⟩ := List.getElem_of_mem hcli
    rw [Vector.length_toList] at hi
    obtain ⟨p, hp⟩ := (h.clients ⟨i, hi⟩ c).1 hget
    obtain ⟨-, hpseudo, hconn⟩ := h.pseudo p _ c hp
    rw [checkedClient, if_pos hconn, hpseudo]
    rfl

/-! ### Connection requests -/

/-- The comparison with the code of the pseudo ends within the text of the request. -/
def ComparisonEnds (heap : ℕ → UInt8) (s : ServerState) (p : Key) (msg : Message) : Prop :=
  ∀ code, s.codes (pathKey p) = some code → strcmpMemory msg.msg.toList (inMemory code heap) ≠ none

/-- The request has another code, or the session of the pseudo is still active. -/
def Refused (heap : ℕ → UInt8) (clock : Clock) (s : ServerState) (p : Key) (msg : Message) : Prop :=
  ∃ code, s.codes (pathKey p) = some code ∧
    (strcmpMemory msg.msg.toList (inMemory code heap) = some false ∨
      strcmpMemory msg.msg.toList (inMemory code heap) = some true ∧
        ∃ c, session s p = some c ∧ c.connected = true ∧ clock.check - c.lastActivity < TIMEOUT_INACTIVE)

/-- There is no session of the pseudo, and no room for one. -/
def Full (s : ServerState) (p : Key) : Prop := session s p = none ∧ emptyIndex s.clients = none

theorem checkedRefusal_outOfBounds (h : ¬ ComparisonEnds heap s p msg) (cli : Option Client) :
    checkedRefusal heap clock s p msg cli = .error (.outOfBounds .msg) := by
  simp only [ComparisonEnds, not_forall, not_not] at h
  obtain ⟨code, hcode, hcmp⟩ := h
  unfold checkedRefusal
  rw [hcode]
  dsimp only
  rw [hcmp]
  rfl

theorem checkedRefusal_cases (h : ComparisonEnds heap s p msg) (clock : Clock) :
    (Refused heap clock s p msg ∧ ∃ text,
      text ∈ [ERROR_MSG_CON_DIFF_KEYS, ERROR_MSG_STILL_ACTIVE_CLIENT, ERROR_ALREADY_MAX_CLIENTS] ∧
        checkedRefusal heap clock s p msg (session s p) = .ok (some text)) ∨
    ¬ Refused heap clock s p msg ∧ checkedRefusal heap clock s p msg (session s p) = .ok none := by
  unfold checkedRefusal
  cases hcode : s.codes (pathKey p) with
  | none =>
    refine Or.inr ⟨?_, rfl⟩
    rintro ⟨code, hcode', -⟩
    rw [hcode] at hcode'
    cases hcode'
  | some code =>
    obtain ⟨same, hsame⟩ := Option.ne_none_iff_exists'.1 (h code hcode)
    dsimp only
    rw [hsame]
    cases same with
    | false => exact Or.inl ⟨⟨code, hcode, Or.inl hsame⟩, _, by simp, rfl⟩
    | true =>
      have hno : (∀ c, session s p = some c → c.connected = true → TIMEOUT_INACTIVE ≤ clock.check - c.lastActivity) →
          ¬ Refused heap clock s p msg := by
        rintro hold ⟨code', hcode', hcmp⟩
        rw [hcode] at hcode'
        cases hcode'
        rcases hcmp with hcmp | ⟨-, c, hc, hconn, hactive⟩
        · rw [hsame] at hcmp
          cases hcmp
        · exact absurd (hold c hc hconn) (by omega)
      cases hsession : session s p with
      | none => exact Or.inr ⟨hno fun c hc => (by rw [hsession] at hc; cases hc), rfl⟩
      | some c =>
        by_cases hactive : c.connected = true ∧ ¬ clock.check - c.lastActivity ≥ TIMEOUT_INACTIVE
        · refine Or.inl ⟨⟨code, hcode, Or.inr ⟨hsame, c, hsession, hactive.1, by omega⟩⟩, ERROR_MSG_STILL_ACTIVE_CLIENT,
            by simp, ?_⟩
          exact if_pos hactive
        · refine Or.inr ⟨hno fun c' hc' hconn => ?_, if_neg hactive⟩
          rw [hsession] at hc'
          cases hc'
          by_contra hlt
          exact hactive ⟨hconn, hlt⟩

/-- The request up to the answer of the comparison. -/
theorem checkedConnection_eq (h : Serves s accounts) (hp : ValidPseudo p)
    {answer : Checked (Option (List UInt8))} (hanswer : checkedRefusal heap clock s p msg (session s p) = answer) :
    checkedConnection heap fuel clock locals sock p msg s = answer >>= fun
      | some text => checkedErrorReply text msg locals.errorMsg >>= fun reply => .ok (s, [⟨sock, reply⟩])
      | none => terminates (takeCare fuel clock s p msg (accounts p)) >>= fun
        | none => .ok (s, [⟨sock, errorReply ERROR_ALREADY_MAX_CLIENTS msg locals.errorMsg⟩])
        | some (s, i, c) => within .msg (storeCode s p msg) >>= fun s =>
            .ok (s.setClient i { c with connected := true }, [⟨sock, connectedReply msg locals.connectedMsg⟩]) := by
  obtain ⟨path, hpath⟩ := checkedPathKey_ok hp
  rw [h.session_eq hp.validKey] at hanswer
  have hfull : checkedErrorReply ERROR_ALREADY_MAX_CLIENTS msg locals.errorMsg = .ok _ :=
    checkedErrorReply_ok (by simp) msg locals.errorMsg
  rw [checkedConnection, h.findClient_eq hp.validKey]
  simp only [terminates, orFail, hpath, ok_bind, hanswer, checkedTakeCare_eq hp, hfull]
  rfl

theorem storeCode_ne_none {s₁ : ServerState} : storeCode s₁ p msg ≠ none ↔ msg.msgLength.toNat ≤ MAX_MSG_LENGTH := by
  rw [storeCode]
  split
  · rename_i hlen
    exact iff_of_true (Option.some_ne_none _) hlen
  · rename_i hlen
    exact iff_of_false (not_not.2 rfl) hlen

/-- A client is taken care of, when there is room for it. -/
theorem takeCare_room (h : Serves s accounts) (hp : ValidPseudo p) (hroom : ¬ Full s p) (clock : Clock)
    (msg : Message) : ∃ s₁ i c, takeCare 513 clock s p msg (accounts p) = some (some (s₁, i, c)) := by
  rw [Full, h.session_eq hp.validKey] at hroom
  cases hacc : accounts p with
  | some a => exact ⟨_, _, _, rfl⟩
  | none =>
    obtain ⟨i, hi⟩ := Option.ne_none_iff_exists'.1 fun hnone => hroom ⟨by rw [hacc]; rfl, hnone⟩
    obtain ⟨r, hr⟩ := h.insert_returns hp.validKey (UInt32.ofNat i)
    rw [takeCare, hi]
    dsimp only
    rw [hr]
    exact ⟨_, _, _, rfl⟩

theorem takeCare_full (h : Serves s accounts) (hp : ValidPseudo p) (hfull : Full s p) (fuel : ℕ) (clock : Clock)
    (msg : Message) : takeCare fuel clock s p msg (accounts p) = some none := by
  rw [Full, h.session_eq hp.validKey, Option.map_eq_none_iff] at hfull
  rw [hfull.1, takeCare, hfull.2]

/-- A request stays within the arrays when its comparison does, and its code does if it is stored. -/
theorem connection_inBounds_iff (h : Serves s accounts) (hp : ValidPseudo p) (clock : Clock) (locals : Locals)
    (sock : Int) (msg : Message) :
    (∀ fuel, InBounds (checkedConnection heap fuel clock locals sock p msg s)) ↔
      ComparisonEnds heap s p msg ∧
        (Refused heap clock s p msg ∨ Full s p ∨ msg.msgLength.toNat ≤ MAX_MSG_LENGTH) := by
  by_cases hends : ComparisonEnds heap s p msg
  · rw [and_iff_right hends]
    rcases checkedRefusal_cases hends clock with ⟨hrefused, text, htext, hanswer⟩ | ⟨hrefused, hanswer⟩
    · refine iff_of_true (fun fuel => ?_) (Or.inl hrefused)
      rw [checkedConnection_eq h hp hanswer]
      have hreply := checkedErrorReply_ok htext msg locals.errorMsg
      show InBounds (checkedErrorReply text msg locals.errorMsg >>= _)
      rw [hreply]
      exact inBounds_ok _
    · rw [or_iff_right hrefused]
      have hrun : ∀ fuel, InBounds (checkedConnection heap fuel clock locals sock p msg s) ↔
          ∀ s₁ i c, takeCare fuel clock s p msg (accounts p) = some (some (s₁, i, c)) →
            msg.msgLength.toNat ≤ MAX_MSG_LENGTH := by
        intro fuel
        rw [checkedConnection_eq h hp hanswer]
        refine Iff.trans (inBounds_terminates (β := ServerState × List Sent)) ⟨fun hall s₁ i c hcare => ?_,
          fun hall taken hcare => ?_⟩
        · obtain ⟨s₂, hstore, -⟩ := inBounds_within.1 (hall _ hcare)
          exact storeCode_ne_none.1 (by rw [hstore]; exact Option.some_ne_none s₂)
        · cases taken with
          | none => exact inBounds_ok _
          | some taken =>
            obtain ⟨s₁, i, c⟩ := taken
            obtain ⟨s₂, hstore⟩ := Option.ne_none_iff_exists'.1 (storeCode_ne_none.2 (hall s₁ i c hcare))
            exact inBounds_within.2 ⟨s₂, hstore, inBounds_ok _⟩
      simp only [hrun]
      constructor
      · intro hall
        by_contra hnot
        rw [not_or] at hnot
        obtain ⟨s₁, i, c, hcare⟩ := takeCare_room h hp hnot.1 clock msg
        exact hnot.2 (hall 513 s₁ i c hcare)
      · rintro (hfull | hlen) fuel s₁ i c hcare
        · rw [takeCare_full h hp hfull] at hcare
          cases hcare
        · exact hlen
  · refine iff_of_false (fun hall => ?_) fun hboth => hends hboth.1
    have hout := hall 0
    rw [checkedConnection_eq h hp (checkedRefusal_outOfBounds hends _)] at hout
    exact hout _ rfl trivial

/-- A request that came back keeps the accounts. -/
theorem checkedConnection_serves (h : Serves s accounts) (hp : ValidPseudo p) {sent : List Sent}
    (hrun : checkedConnection heap fuel clock locals sock p msg s = .ok (s', sent)) :
    ∃ accounts', Serves s' accounts' := by
  obtain ⟨answer, hanswer⟩ : ∃ answer, checkedRefusal heap clock s p msg (session s p) = answer := ⟨_, rfl⟩
  rw [checkedConnection_eq h hp hanswer] at hrun
  obtain ⟨refused, -, hrefused⟩ := bind_eq_ok.1 hrun
  cases refused with
  | some text =>
    obtain ⟨reply, -, hdone⟩ := bind_eq_ok.1 hrefused
    cases hdone
    exact ⟨accounts, h⟩
  | none =>
    obtain ⟨taken, hcare, htaken⟩ := bind_eq_ok.1 hrefused
    cases taken with
    | none =>
      cases htaken
      exact ⟨accounts, h⟩
    | some taken =>
      obtain ⟨s₁, i, c⟩ := taken
      obtain ⟨s₂, hstore, hdone⟩ := bind_eq_ok.1 htaken
      cases hdone
      exact ⟨_, serves_of_takeCare h hp (orFail_eq_ok.1 hcare) (orFail_eq_ok.1 hstore)⟩

/-! ### Texts -/

/-- The text is acknowledged: the server has no codeword beyond its correction capacity, or is tired of asking. -/
def Acknowledged (S : Syndromes) (msg : Message) : Prop :=
  AllCorrectable S msg msg.msgLength.toNat ∨ msg.nbRetransmission > 5

instance (S : Syndromes) (msg : Message) : Decidable (Acknowledged S msg) :=
  inferInstanceAs (Decidable (_ ∨ _))

/-- The correction keeps a NUL or makes one: behind the length, or where a byte is the pattern of its codeword. -/
def KeepsEnd (S : Syndromes) (msg : Message) : Prop :=
  ∃ i : Fin MAX_MSG_LENGTH,
    if i.val < msg.msgLength.toNat then msg.msg.get i = (errorPattern S msg i).toUInt8 else msg.msg.get i = 0

/-- The loop of the correction stays within the message, and the text ends in it before the correction and, if it is
broadcast, after. -/
structure TextFits (S : Syndromes) (msg : Message) : Prop where
  length : msg.msgLength.toNat ≤ MAX_MSG_LENGTH
  printed : cstr msg.msg ≠ none
  broadcast : Acknowledged S msg → msg.dstFlag = MSG_FLAG_DEFAULT_CHANNEL → KeepsEnd S msg

theorem keepsEnd_iff : KeepsEnd S msg ↔ cstr (corrected S msg msg.msgLength.toNat).msg ≠ none := by
  rw [cstr_ne_none_iff, corrected]
  refine exists_congr fun i => ?_
  rw [getElem_written]
  split
  · exact UInt8.xor_eq_zero_iff.symm
  · rfl

/-- With the table that was never created a text that ends in its message is still a text that ends. -/
theorem textFits_zero_iff :
    TextFits zeroSyndromes msg ↔ msg.msgLength.toNat ≤ MAX_MSG_LENGTH ∧ cstr msg.msg ≠ none := by
  constructor
  · exact fun h => ⟨h.length, h.printed⟩
  · rintro ⟨hlen, hends⟩
    refine ⟨hlen, hends, fun _ _ => ?_⟩
    obtain ⟨i, hi⟩ := cstr_ne_none_iff.1 hends
    refine ⟨i, ?_⟩
    rw [errorPattern_zero]
    split <;> exact hi

/-- A copy of a message with a pseudo is made within the bounds when its text ends. -/
theorem checkedBroadcast_inBounds_iff (h : Serves s accounts) (hpseudo : cstr msg.srcPseudo = some p) (sock : Int)
    (newMsg : Message) : InBounds (checkedBroadcast s sock msg newMsg) ↔ cstr msg.msg ≠ none := by
  rw [checkedBroadcast, inBounds_within]
  constructor
  · rintro ⟨_, -, hcopy⟩
    obtain ⟨text, htext, -⟩ := inBounds_within.1 hcopy
    rw [htext]
    exact Option.some_ne_none text
  · intro htext
    obtain ⟨text, htext⟩ := Option.ne_none_iff_exists'.1 htext
    have hcopy : broadcastMsgToAllConnectedClients s sock msg newMsg ≠ none := by
      rw [broadcastMsgToAllConnectedClients, broadcastCopy, htext, hpseudo]
      exact Option.some_ne_none _
    refine ⟨p, hpseudo, inBounds_within.2 ⟨text, htext, ?_⟩⟩
    rw [within_strcpy .msg _ (cstr_spec htext).2.1, within_strcpy .srcPseudo _ (cstr_spec hpseudo).2.1,
      checkedClients_ok h]
    exact (avoids_orFail (outOfBounds_bad .msg)).2 hcopy

/-- A text whose length and end are within the message. -/
theorem checkedText_eq (h : Serves s accounts) (hp : ValidPseudo p) (htext : cstr msg.msg ≠ none)
    (hlen : msg.msgLength.toNat ≤ MAX_MSG_LENGTH) (fuel : ℕ) (locals : Locals) (sock : Int) :
    checkedText S fuel locals sock p msg s =
      let fixed := corrected S msg msg.msgLength.toNat
      if Acknowledged S msg then
        if msg.dstFlag = MSG_FLAG_DEFAULT_CHANNEL then
          checkedBroadcast s sock fixed locals.newMsg >>= fun copies =>
            .ok ⟨s, ⟨sock, genPositiveAckFromMsg fixed locals.ack⟩ :: copies, fixed⟩
        else .ok ⟨s, [⟨sock, genPositiveAckFromMsg fixed locals.ack⟩], fixed⟩
      else .ok ⟨s, [⟨sock, genNegativeAckFromMsg fixed locals.ack⟩], fixed⟩ := by
  obtain ⟨text, htext⟩ := Option.ne_none_iff_exists'.1 htext
  have hrc : ((if AllCorrectable S msg msg.msgLength.toNat then 0 else -1 : Int) = 0 ∨ msg.nbRetransmission > 5) ↔
      Acknowledged S msg := or_congr_left (by split <;> simp_all)
  have hloop : within .msg (codeCorrectError S msg) =
      .ok (corrected S msg msg.msgLength.toNat, if AllCorrectable S msg msg.msgLength.toNat then 0 else -1) := by
    rw [codeCorrectError_eq S hlen]
    rfl
  rw [checkedText, htext, h.findClient_eq hp.validKey, hloop]
  have hretransmission : (corrected S msg msg.msgLength.toNat).nbRetransmission = msg.nbRetransmission := by
    rw [corrected]
  have hflag : (corrected S msg msg.msgLength.toNat).dstFlag = msg.dstFlag := by rw [corrected]
  simp only [within, terminates, orFail, ok_bind, hretransmission, hflag, hrc]
  rfl

theorem text_inBounds_iff (h : Serves s accounts) (hpseudo : cstr msg.srcPseudo = some p) (hp : ValidPseudo p)
    (fuel : ℕ) (locals : Locals) (sock : Int) :
    InBounds (checkedText S fuel locals sock p msg s) ↔ TextFits S msg := by
  have hpseudo' : cstr (corrected S msg msg.msgLength.toNat).srcPseudo = some p := by rwa [corrected]
  constructor
  · intro hin
    obtain ⟨text, htext, hsearch⟩ := inBounds_within.1 hin
    obtain ⟨r, hr, -⟩ := inBounds_within.1 (inBounds_terminates.1 hsearch _ (h.findClient_eq hp.validKey fuel))
    have hends : cstr msg.msg ≠ none := by
      rw [htext]
      exact Option.some_ne_none text
    have hlen := codeCorrectError_length hr
    refine ⟨hlen, hends, fun hack hdefault => ?_⟩
    rw [checkedText_eq h hp hends hlen] at hin
    dsimp only at hin
    rw [if_pos hack, if_pos hdefault] at hin
    exact keepsEnd_iff.2 ((checkedBroadcast_inBounds_iff h hpseudo' _ _).1 (avoids_bind.1 hin).1)
  · rintro ⟨hlen, hends, hbroadcast⟩
    rw [checkedText_eq h hp hends hlen]
    dsimp only
    split
    · rename_i hack
      split
      · rename_i hdefault
        have hcopies := (checkedBroadcast_inBounds_iff h hpseudo' sock locals.newMsg).2
          (keepsEnd_iff.1 (hbroadcast hack hdefault))
        exact avoids_bind.2 ⟨hcopies, fun copies _ => inBounds_ok _⟩
      · exact inBounds_ok _
    · exact inBounds_ok _

/-- A text changes nothing on the server. -/
theorem checkedText_state (h : Serves s accounts) (hp : ValidPseudo p) {r : Handled}
    (hr : checkedText S fuel locals sock p msg s = .ok r) : r.state = s := by
  obtain ⟨text, htext, hsearch⟩ := bind_eq_ok.1 hr
  obtain ⟨r', -, hloop⟩ := bind_eq_ok.1 hsearch
  obtain ⟨fixed, hfixed, -⟩ := bind_eq_ok.1 hloop
  have hends : cstr msg.msg ≠ none := by
    rw [orFail_eq_ok.1 htext]
    exact Option.some_ne_none text
  rw [checkedText_eq h hp hends (codeCorrectError_length (orFail_eq_ok.1 hfixed))] at hr
  dsimp only at hr
  split at hr
  · split at hr
    · obtain ⟨copies, -, hdone⟩ := bind_eq_ok.1 hr
      cases hdone
      rfl
    · cases hr
      rfl
  · cases hr
    rfl

end NyanChat
