import NyanChat.Broadcast

/-!
# The server as a registry

What the server is for, without its hash map, its table and its buffers: a list of sessions in the order in which
their pseudos were first accepted, and the file with the code of each pseudo.  The server and the registry have the
same histories, message for message (`run_registryRun`, `registryRun_run`).
-/

namespace NyanChat

/-- The session of a pseudo. -/
structure Session where
  pseudo : Key
  lastActivity : Int
  idPollSocket : Int32
deriving DecidableEq

structure Registry where
  /-- In the order in which their pseudos were first accepted. -/
  sessions : List Session
  codes : Key → Option (List UInt8)

namespace Registry

/-- The session of a pseudo takes the place of the one it had, or the next one. -/
def enter (x : Session) : List Session → List Session
  | [] => [x]
  | y :: l => if y.pseudo = x.pseudo then x :: l else y :: enter x l

def session (reg : Registry) (p : Key) : Option Session := reg.sessions.find? fun x => x.pseudo = p

/-- Another code refuses a request, and a session that was active lately. -/
def refuses (reg : Registry) (now : Int) (p : Key) (msg : Message) : Option (Option (List UInt8)) :=
  match reg.codes p with
  | none => some none
  | some code => (strcmpEqual msg.msg.toList code).map fun same =>
    if same = false then some ERROR_MSG_CON_DIFF_KEYS
    else if (reg.session p).any fun x => ¬ now - x.lastActivity ≥ TIMEOUT_INACTIVE then
      some ERROR_MSG_STILL_ACTIVE_CLIENT
    else none

/-- The session begins, and the code is kept. -/
def grant (reg : Registry) (e : Event) (p : Key) : Registry where
  sessions := enter ⟨p, e.clock.store, e.msg.proxyClientSocket⟩ reg.sessions
  codes := Function.update reg.codes p (some (e.msg.msg.toList.take e.msg.msgLength.toNat))

def connect (reg : Registry) (e : Event) (p : Key) : Option (Registry × List Sent) :=
  (reg.refuses e.clock.check p e.msg).bind fun
    | some text => some (reg, [⟨e.sock, errorReply text e.msg e.locals.errorMsg⟩])
    | none =>
      if reg.session p = none ∧ NB_MAX_CONNECTED_CLIENTS ≤ reg.sessions.length then
        some (reg, [⟨e.sock, errorReply ERROR_ALREADY_MAX_CLIENTS e.msg e.locals.errorMsg⟩])
      else if e.msg.msgLength.toNat ≤ MAX_MSG_LENGTH then
        some (reg.grant e p, [⟨e.sock, connectedReply e.msg e.locals.connectedMsg⟩])
      else none

/-- A text is acknowledged, and goes to all sessions in their order. -/
def relay (reg : Registry) (e : Event) : Option (Registry × List Sent) :=
  if e.msg.msgLength.toNat ≤ MAX_MSG_LENGTH then
    let ack := ⟨e.sock, genPositiveAckFromMsg e.msg e.locals.ack⟩
    if e.msg.dstFlag = MSG_FLAG_DEFAULT_CHANNEL then
      (broadcastCopy e.msg e.locals.newMsg).map fun copy =>
        (reg, ack :: reg.sessions.map fun x => ⟨e.sock, { copy with proxyClientSocket := x.idPollSocket }⟩)
    else some (reg, [ack])
  else none

/-- The answer to a message. -/
def answer (reg : Registry) (e : Event) : Option (Registry × List Sent) :=
  (cstr e.msg.srcPseudo).bind fun p =>
    if p.length < MIN_NAME_LENGTH then some (reg, [])
    else if e.msg.msgType = MSG_CONNECTION_CLIENT then reg.connect e p
    else if e.msg.msgType = MSG_STD_CLIENT_SERVER then reg.relay e
    else some (reg, [])

end Registry

/-- The registries that a history leads to, the last exchange first. -/
inductive RegistryRun : List Exchange → Registry → Prop
  | start (codes : Key → Option (List UInt8)) : RegistryRun [] ⟨[], codes⟩
  | step {hist : List Exchange} {reg reg' : Registry} {e : Event} {sent : List Sent} : RegistryRun hist reg →
      reg.answer e = some (reg', sent) → RegistryRun ((e, sent) :: hist) reg'

/-! ### The list of sessions -/

variable {reg : Registry} {x y : Session} {l : List Session} {p : Key} {i : ℕ}

theorem enter_of_new (h : ∀ y ∈ l, y.pseudo ≠ x.pseudo) : Registry.enter x l = l ++ [x] := by
  induction l with
  | nil => rfl
  | cons y l ih =>
    rw [List.forall_mem_cons] at h
    rw [Registry.enter, if_neg h.1, ih h.2, List.cons_append]

theorem enter_of_known (hi : l[i]? = some y) (hp : y.pseudo = x.pseudo)
    (hnodup : (l.map Session.pseudo).Nodup) : Registry.enter x l = l.set i x := by
  induction l generalizing i with
  | nil => cases hi
  | cons z l ih =>
    rw [List.map_cons, List.nodup_cons] at hnodup
    cases i with
    | zero =>
      obtain rfl : z = y := by simpa using hi
      rw [Registry.enter, if_pos hp, List.set_cons_zero]
    | succ i =>
      have hi : l[i]? = some y := by simpa using hi
      have hne : z.pseudo ≠ x.pseudo := by
        intro heq
        refine hnodup.1 ?_
        rw [heq, ← hp]
        exact List.mem_map_of_mem (List.mem_of_getElem? hi)
      rw [Registry.enter, if_neg hne, ih hi hnodup.2, List.set_cons_succ]

theorem session_eq_none : reg.session p = none ↔ ∀ x ∈ reg.sessions, x.pseudo ≠ p := by
  simp [Registry.session, List.find?_eq_none]

theorem session_mem (h : reg.session p = some x) : x ∈ reg.sessions ∧ x.pseudo = p := by
  have hp := List.find?_some h
  rw [decide_eq_true_iff] at hp
  exact ⟨List.mem_of_find?_eq_some h, hp⟩

theorem session_eq_some (hnodup : (reg.sessions.map Session.pseudo).Nodup) :
    reg.session p = some x ↔ x ∈ reg.sessions ∧ x.pseudo = p := by
  refine ⟨session_mem, fun ⟨hx, hp⟩ => ?_⟩
  cases hfound : reg.session p with
  | none => exact absurd hp (session_eq_none.1 hfound x hx)
  | some y =>
    obtain ⟨hy, hyp⟩ := session_mem hfound
    rw [List.inj_on_of_nodup_map hnodup hy hx (hyp.trans hp.symm)]

theorem relay_state {e : Event} {r : Registry × List Sent} (h : reg.relay e = some r) : r.1 = reg := by
  unfold Registry.relay at h
  split at h
  · split at h
    · obtain ⟨copy, -, rfl⟩ := Option.map_eq_some_iff.1 h
      rfl
    · cases h
      rfl
  · cases h

/-! ### The server keeps a registry -/

/-- The client of a session. -/
def Session.client (x : Session) : Client :=
  { createClient x.pseudo x.idPollSocket x.lastActivity with connected := true }

/-- The state of the server holds the registry. -/
structure Represents (s : ServerState) (reg : Registry) : Prop where
  serves : ∃ accounts, Serves s accounts
  clients : ∀ i : Fin NB_MAX_CONNECTED_CLIENTS, s.clients.get i = (reg.sessions[i.val]?).map Session.client
  length : reg.sessions.length ≤ NB_MAX_CONNECTED_CLIENTS
  valid : ∀ x ∈ reg.sessions, ValidPseudo x.pseudo
  codes : ∀ p, s.codes (pathKey p) = reg.codes p

variable {s : ServerState} {accounts : Key → Option Account} {e : Event} {hist : List Exchange}

namespace Represents

theorem client_pseudo (h : Represents s reg) (hx : x ∈ reg.sessions) : cstr x.client.pseudo = some x.pseudo :=
  createClient_pseudo (h.valid x hx) x.idPollSocket x.lastActivity

theorem account_iff (h : Represents s reg) (hs : Serves s accounts) {i : Fin NB_MAX_CONNECTED_CLIENTS} {c : Client} :
    accounts p = some (i, c) ↔ ∃ x, reg.sessions[i.val]? = some x ∧ x.pseudo = p ∧ c = x.client := by
  constructor
  · intro hp
    have hc := (hs.clients i c).2 ⟨p, hp⟩
    rw [h.clients, Option.map_eq_some_iff] at hc
    obtain ⟨x, hx, rfl⟩ := hc
    have hpseudo := (hs.pseudo p i _ hp).2.1
    rw [h.client_pseudo (List.mem_of_getElem? hx)] at hpseudo
    exact ⟨x, hx, Option.some.inj hpseudo, rfl⟩
  · rintro ⟨x, hx, rfl, rfl⟩
    have hc : s.clients.get i = some x.client := by rw [h.clients, hx, Option.map_some]
    obtain ⟨q, hq⟩ := (hs.clients i _).1 hc
    have hpseudo := (hs.pseudo q i _ hq).2.1
    rw [h.client_pseudo (List.mem_of_getElem? hx), Option.some.injEq] at hpseudo
    rw [hpseudo, hq]

theorem lt (h : Represents s reg) (hi : reg.sessions[i]? = some x) : i < NB_MAX_CONNECTED_CLIENTS :=
  Nat.lt_of_lt_of_le (List.getElem?_eq_some_iff.1 hi).1 h.length

theorem account (h : Represents s reg) (hs : Serves s accounts) (hi : reg.sessions[i]? = some x) :
    accounts x.pseudo = some (⟨i, h.lt hi⟩, x.client) :=
  (h.account_iff hs).2 ⟨x, hi, rfl, rfl⟩

theorem nodup (h : Represents s reg) : (reg.sessions.map Session.pseudo).Nodup := by
  obtain ⟨accounts, hs⟩ := h.serves
  rw [List.nodup_iff_getElem?_ne_getElem?]
  intro i j hij hj heq
  rw [List.length_map] at hj
  have hxj := List.getElem?_eq_getElem hj
  have hxi := List.getElem?_eq_getElem (Nat.lt_trans hij hj)
  rw [List.getElem?_map, List.getElem?_map, hxi, hxj, Option.map_some, Option.map_some, Option.some.injEq] at heq
  have hai := h.account hs hxi
  rw [heq, h.account hs hxj] at hai
  simp only [Option.some.injEq, Prod.mk.injEq, Fin.mk.injEq] at hai
  omega

/-- The client that the server finds for a pseudo is the one of its session. -/
theorem account_map (h : Represents s reg) (hs : Serves s accounts) (p : Key) :
    (accounts p).map Prod.snd = (reg.session p).map Session.client := by
  cases hp : accounts p with
  | none =>
    have hnone : reg.session p = none := by
      rw [session_eq_none]
      rintro x hx rfl
      obtain ⟨i, hi⟩ := List.mem_iff_getElem?.1 hx
      rw [h.account hs hi] at hp
      cases hp
    rw [hnone]
    rfl
  | some a =>
    obtain ⟨i, c⟩ := a
    obtain ⟨x, hx, hxp, rfl⟩ := (h.account_iff hs).1 hp
    rw [(session_eq_some h.nodup).2 ⟨List.mem_of_getElem? hx, hxp⟩]
    rfl

theorem account_eq_none (h : Represents s reg) (hs : Serves s accounts) :
    accounts p = none ↔ reg.session p = none := by
  have hmap := h.account_map hs p
  rw [← Option.map_eq_none_iff (f := Prod.snd), hmap, Option.map_eq_none_iff]

/-- The refusals of the server are those of the registry. -/
theorem refusal_eq (h : Represents s reg) (hs : Serves s accounts) (clock : Clock) (p : Key) (msg : Message) :
    refusal clock s p msg ((accounts p).map Prod.snd) = reg.refuses clock.check p msg := by
  unfold refusal Registry.refuses
  rw [h.account_map hs, h.codes]
  cases reg.codes p with
  | none => rfl
  | some code =>
    cases hsame : strcmpEqual msg.msg.toList code with
    | none => simp [hsame]
    | some same =>
      cases same with
      | false => simp [hsame]
      | true =>
        cases reg.session p with
        | none => simp [hsame]
        | some x =>
          have hconn : x.client.connected = true := rfl
          have hlast : x.client.lastActivity = x.lastActivity := rfl
          simp only [Option.map_some, hsame, Option.any_some, hconn, hlast, decide_eq_true_eq, true_and,
            Bool.true_eq_false, if_false]
          exact (apply_ite some _ _ _).symm

theorem isNone_iff (h : Represents s reg) (i : Fin NB_MAX_CONNECTED_CLIENTS) :
    (s.clients.get i).isNone = true ↔ reg.sessions.length ≤ i.val := by
  rw [h.clients, Option.isNone_iff_eq_none, Option.map_eq_none_iff, List.getElem?_eq_none_iff]

/-- The first empty index is the one behind the sessions. -/
theorem emptyIndex_eq (h : Represents s reg) {j : Fin NB_MAX_CONNECTED_CLIENTS} (hj : emptyIndex s.clients = some j) :
    j.val = reg.sessions.length := by
  obtain ⟨hnone, k, hk, rfl, hbefore⟩ := List.find?_eq_some_iff_getElem.1 hj
  rw [List.getElem_finRange] at hnone ⊢
  have hle := (h.isNone_iff _).1 hnone
  by_contra hne
  have hlt : reg.sessions.length < k := by
    simp only [Fin.val_cast] at hle hne
    omega
  have hno := hbefore reg.sessions.length hlt
  rw [List.getElem_finRange, Bool.not_eq_true', ← Bool.not_eq_true] at hno
  exact hno ((h.isNone_iff _).2 (Nat.le_refl _))

theorem emptyIndex_eq_none (h : Represents s reg) :
    emptyIndex s.clients = none ↔ NB_MAX_CONNECTED_CLIENTS ≤ reg.sessions.length := by
  rw [emptyIndex, List.find?_eq_none]
  constructor
  · intro hall
    by_contra hlt
    exact hall ⟨reg.sessions.length, by omega⟩ (List.mem_finRange _) ((h.isNone_iff _).2 (Nat.le_refl _))
  · intro hle i _ hnone
    have hi := (h.isNone_iff i).1 hnone
    omega

/-- The state with another client, and the sessions with that session. -/
theorem setClient (h : Represents s reg) {x : Session} (hx : ValidPseudo x.pseudo) {j : Fin NB_MAX_CONNECTED_CLIENTS}
    {sessions : List Session} (hat : ∀ k, sessions[k]? = if j.val = k then some x else reg.sessions[k]?)
    (hmem : ∀ y ∈ sessions, y = x ∨ y ∈ reg.sessions) (hlen : sessions.length ≤ NB_MAX_CONNECTED_CLIENTS)
    {hm : Hashmap} {code : List UInt8} (hserves : ∃ accounts, Serves
      { clients := (s.setClient j x.client).clients
        hmPseudoToId := hm
        codes := Function.update s.codes (pathKey p) (some code) } accounts) :
    Represents
      { clients := (s.setClient j x.client).clients
        hmPseudoToId := hm
        codes := Function.update s.codes (pathKey p) (some code) }
      ⟨sessions, Function.update reg.codes p (some code)⟩ := by
  constructor
  case serves => exact hserves
  case clients =>
    intro i
    rw [hat]
    by_cases hij : j = i
    · subst hij
      rw [if_pos rfl]
      exact Vector.getElem_set_self j.2
    · have hne : j.val ≠ i.val := fun heq => hij (Fin.ext heq)
      rw [if_neg hne, ← h.clients i]
      exact Vector.getElem_set_ne j.2 i.2 hne
  case length => exact hlen
  case valid =>
    intro y hy
    rcases hmem y hy with rfl | hold
    · exact hx
    · exact h.valid y hold
  case codes =>
    intro q
    by_cases hq : q = p
    · subst hq
      simp
    · dsimp only
      rw [Function.update_of_ne (pathKey_injective.ne hq), Function.update_of_ne hq, h.codes]

/-- An accepted request admits the pseudo. -/
theorem accept (h : Represents s reg) (hs : Serves s accounts) (hp : ValidPseudo p) {fuel : ℕ} {s₁ s₂ : ServerState}
    {j : Fin NB_MAX_CONNECTED_CLIENTS} {c : Client}
    (hcare : takeCare fuel e.clock s p e.msg (accounts p) = some (some (s₁, j, c)))
    (hstore : storeCode s₁ p e.msg = some s₂) :
    Represents (s₂.setClient j { c with connected := true }) (reg.grant e p) := by
  have hserves := serves_of_takeCare hs hp hcare hstore
  obtain rfl := storeCode_eq_some hstore
  generalize hacc : accounts p = cli at hcare
  cases takeCare_cared hcare with
  | @known _ d _ hd =>
    obtain ⟨x, hx, rfl, rfl⟩ := (h.account_iff hs).1 hacc
    subst hd
    simp only [ServerState.setClient, Vector.set_set] at hserves ⊢
    have hj := (List.getElem?_eq_some_iff.1 hx).1
    have hset : Registry.enter ⟨x.pseudo, e.clock.store, e.msg.proxyClientSocket⟩ reg.sessions =
        reg.sessions.set j ⟨x.pseudo, e.clock.store, e.msg.proxyClientSocket⟩ := enter_of_known hx rfl h.nodup
    rw [Registry.grant, hset]
    refine h.setClient (x := ⟨x.pseudo, e.clock.store, e.msg.proxyClientSocket⟩) hp (fun k => ?_) (fun y hy => ?_) ?_
      ⟨_, hserves⟩
    · rw [List.getElem?_set, if_pos hj]
    · exact (List.mem_or_eq_of_mem_set hy).symm
    · rw [List.length_set]
      exact h.length
  | added hempty hc hinsert =>
    subst hc
    simp only [ServerState.setClient, Vector.set_set] at hserves ⊢
    have hj := h.emptyIndex_eq hempty
    have hnone := session_eq_none.1 ((h.account_eq_none hs).1 hacc)
    have hset : Registry.enter ⟨p, e.clock.store, e.msg.proxyClientSocket⟩ reg.sessions =
        reg.sessions ++ [⟨p, e.clock.store, e.msg.proxyClientSocket⟩] := enter_of_new hnone
    rw [Registry.grant, hset]
    refine h.setClient (x := ⟨p, e.clock.store, e.msg.proxyClientSocket⟩) hp (fun k => ?_) (fun y hy => ?_) ?_
      ⟨_, hserves⟩
    · rw [hj]
      by_cases hk : reg.sessions.length = k
      · simp [← hk]
      · rw [if_neg hk, List.getElem?_append]
        split
        · rfl
        · rw [List.getElem?_eq_none_iff.2 (by rw [List.length_singleton]; omega),
            List.getElem?_eq_none_iff.2 (by omega)]
    · simpa [or_comm] using hy
    · have := j.2
      simp
      omega

/-! ### Answers -/

/-- The copies for the clients are those for the sessions. -/
theorem copies_eq (h : Represents s reg) (sock : Int) (copy : Message) :
    copiesFor s sock copy =
      reg.sessions.map fun x => ⟨sock, { copy with proxyClientSocket := x.idPollSocket }⟩ := by
  have htable : s.clients.toList = reg.sessions.map (fun x => some x.client) ++
      List.replicate (NB_MAX_CONNECTED_CLIENTS - reg.sessions.length) none := by
    apply List.ext_getElem?
    intro i
    by_cases hi : i < NB_MAX_CONNECTED_CLIENTS
    · have hget : s.clients.toList[i]? = some (s.clients.get ⟨i, hi⟩) := by simp [hi, Vector.get]
      rw [hget, h.clients, List.getElem?_append, List.length_map]
      split
      · rename_i hlt
        simp [hlt]
      · rename_i hge
        rw [List.getElem?_eq_none_iff.2 (Nat.not_lt.1 hge), List.getElem?_replicate, if_pos (by omega)]
        rfl
    · have hle := h.length
      rw [List.getElem?_eq_none_iff.2 (by simpa using hi), eq_comm, List.getElem?_eq_none_iff]
      simp
      omega
  have hnone : (List.replicate (NB_MAX_CONNECTED_CLIENTS - reg.sessions.length) none).filterMap
      (copyFor sock copy) = [] := by
    rw [List.filterMap_eq_nil_iff]
    intro o ho
    rw [List.eq_of_mem_replicate ho]
    rfl
  rw [copiesFor, htable, List.filterMap_append, hnone, List.append_nil, List.filterMap_map, ← List.filterMap_eq_map]
  rfl

theorem broadcastCopy_error (msg newMsg : Message) (error : Vector UInt8 MAX_MSG_LENGTH) :
    broadcastCopy { msg with error := error } newMsg = broadcastCopy msg newMsg := by
  rw [broadcastCopy, broadcastCopy]

theorem genPositiveAck_error (msg ack : Message) (error : Vector UInt8 MAX_MSG_LENGTH) :
    genPositiveAckFromMsg { msg with error := error } ack = genPositiveAckFromMsg msg ack := by
  rw [genPositiveAckFromMsg, genPositiveAckFromMsg]

/-- A text gets the answer of the registry. -/
theorem onText_eq (h : Represents s reg) (hs : Serves s accounts) (hp : ValidPseudo p) (fuel : ℕ) :
    onText zeroSyndromes fuel e.locals e.sock p e.msg s = (reg.relay e).map fun x =>
      ⟨s, x.2, { e.msg with error := Loop.written (fun _ => 0) e.msg.error e.msg.msgLength.toNat }⟩ := by
  unfold onText Registry.relay
  rw [hs.findClient_eq hp.validKey]
  by_cases hlen : e.msg.msgLength.toNat ≤ MAX_MSG_LENGTH
  · obtain ⟨r, hr⟩ : ∃ r, codeCorrectError zeroSyndromes e.msg = some r := ⟨_, codeCorrectError_eq _ hlen⟩
    rw [hr, codeCorrectError_zero hr, if_pos hlen]
    dsimp only [Option.bind_eq_bind, Option.bind_some]
    rw [if_pos (Or.inl rfl)]
    by_cases hdst : e.msg.dstFlag = MSG_FLAG_DEFAULT_CHANNEL
    · rw [if_pos hdst, if_pos hdst, broadcastMsgToAllConnectedClients, broadcastCopy_error]
      cases broadcastCopy e.msg e.locals.newMsg with
      | none => rfl
      | some copy =>
        have hcopies := h.copies_eq e.sock copy
        rw [copiesFor] at hcopies
        simp only [Option.map_some, Option.bind_some, hcopies, genPositiveAck_error, Option.pure_def]
    · rw [if_neg hdst, if_neg hdst, genPositiveAck_error]
      rfl
  · have hnone : codeCorrectError zeroSyndromes e.msg = none := by
      rw [Option.eq_none_iff_forall_ne_some]
      intro r hr
      exact hlen (codeCorrectError_length hr)
    rw [hnone, if_neg hlen]
    rfl

/-- There is no room for a session when the table is full. -/
theorem room_iff (h : Represents s reg) (hs : Serves s accounts) {fuel : ℕ} {clock : Clock} {msg : Message}
    {o : Option (ServerState × Fin NB_MAX_CONNECTED_CLIENTS × Client)}
    (hcare : takeCare fuel clock s p msg (accounts p) = some o) :
    o = none ↔ reg.session p = none ∧ NB_MAX_CONNECTED_CLIENTS ≤ reg.sessions.length := by
  rw [← h.account_eq_none hs, ← h.emptyIndex_eq_none]
  cases hacc : accounts p with
  | some a =>
    rw [hacc] at hcare
    cases hcare
    simp
  | none =>
    rw [hacc, takeCare] at hcare
    cases hempty : emptyIndex s.clients with
    | none =>
      rw [hempty] at hcare
      cases hcare
      simp
    | some i =>
      rw [hempty] at hcare
      obtain ⟨r, -, rfl⟩ := Option.map_eq_some_iff.1 hcare
      simp

/-- The server answers like the registry. -/
theorem simulates (h : Represents s reg) {r : Handled} (hstep : Step e s r) :
    ∃ reg', reg.answer e = some (reg', r.sent) ∧ Represents r.state reg' := by
  obtain ⟨accounts, hs⟩ := h.serves
  obtain ⟨fuel, hrun⟩ := hstep
  cases onMsgReceived_branch hrun with
  | noPseudo hp hshort => exact ⟨reg, by simp [Registry.answer, hp, hshort], h⟩
  | @connection p s' sent hp hvalid htype hconn =>
    have hanswer : reg.answer e = reg.connect e p := by
      simp [Registry.answer, hp, Nat.not_lt.2 hvalid.1, htype]
    rw [hanswer, Registry.connect, ← h.refusal_eq hs]
    cases onConnection_branch hs hvalid hconn with
    | refused hrefusal =>
      rw [hrefusal]
      exact ⟨reg, rfl, h⟩
    | full hrefusal hcare =>
      rw [hrefusal, Option.bind_some]
      dsimp only
      rw [if_pos ((h.room_iff hs hcare).1 rfl)]
      exact ⟨reg, rfl, h⟩
    | accepted hrefusal hcare hstore =>
      have hlen : e.msg.msgLength.toNat ≤ MAX_MSG_LENGTH := by
        by_contra hgt
        rw [storeCode, if_neg hgt] at hstore
        cases hstore
      rw [hrefusal, Option.bind_some]
      dsimp only
      rw [if_neg fun hfull => absurd ((h.room_iff hs hcare).2 hfull) (Option.some_ne_none _), if_pos hlen]
      exact ⟨_, rfl, h.accept hs hvalid hcare hstore⟩
  | text hp hvalid htype htext =>
    rw [h.onText_eq hs hvalid] at htext
    obtain ⟨⟨reg', sent⟩, hrelay, rfl⟩ := Option.map_eq_some_iff.1 htext
    obtain rfl := relay_state hrelay
    have hconn : e.msg.msgType ≠ MSG_CONNECTION_CLIENT := by
      rw [htype]
      decide
    refine ⟨reg', ?_, h⟩
    rw [Registry.answer, hp, Option.bind_some, if_neg (Nat.not_lt.2 hvalid.1), if_neg hconn, if_pos htype]
    exact hrelay
  | other hp hvalid hconn htext => exact ⟨reg, by simp [Registry.answer, hp, hconn, htext], h⟩

theorem takeCare_returns (hs : Serves s accounts) (hp : ValidPseudo p) (clock : Clock) (msg : Message) :
    ∃ o, takeCare 513 clock s p msg (accounts p) = some o := by
  cases accounts p with
  | some a => exact ⟨_, rfl⟩
  | none =>
    rw [takeCare]
    cases emptyIndex s.clients with
    | none => exact ⟨_, rfl⟩
    | some i =>
      obtain ⟨r, hr⟩ := hs.insert_returns hp.validKey (UInt32.ofNat i)
      dsimp only
      rw [hr]
      exact ⟨_, rfl⟩

theorem connects (h : Represents s reg) (hs : Serves s accounts) (hp : ValidPseudo p) {r : Registry × List Sent}
    (hconnect : reg.connect e p = some r) :
    ∃ r', onConnection 513 e.clock e.locals e.sock p e.msg s = some r' := by
  obtain ⟨refused, hrefused, hconnect⟩ := Option.bind_eq_some_iff.1 hconnect
  obtain ⟨cared, hcare⟩ := takeCare_returns hs hp e.clock e.msg
  unfold onConnection
  simp only [hs.findClient_eq hp.validKey, Option.bind_eq_bind, Option.bind_some, h.refusal_eq hs, hrefused, hcare]
  cases refused with
  | some text => exact ⟨_, rfl⟩
  | none =>
    cases cared with
    | none => exact ⟨_, rfl⟩
    | some cared =>
      obtain ⟨s₁, i, c⟩ := cared
      have hroom := mt (h.room_iff hs hcare).2 (Option.some_ne_none _)
      dsimp only at hconnect ⊢
      rw [if_neg hroom] at hconnect
      split at hconnect
      · rename_i hlen
        rw [storeCode, if_pos hlen]
        exact ⟨_, rfl⟩
      · cases hconnect

/-- The server answers whenever the registry does. -/
theorem returns (h : Represents s reg) {r : Registry × List Sent} (hanswer : reg.answer e = some r) :
    ∃ r', onMsgReceived zeroSyndromes 513 e.clock e.locals e.sock e.msg s = some r' := by
  obtain ⟨accounts, hs⟩ := h.serves
  obtain ⟨p, hp, hanswer⟩ := Option.bind_eq_some_iff.1 hanswer
  unfold onMsgReceived
  rw [hp]
  dsimp only [Option.bind_eq_bind, Option.bind_some]
  split at hanswer
  · rename_i hshort
    exact ⟨_, if_pos hshort⟩
  · rename_i hlong
    have hvalid := validPseudo_of_cstr hp (Nat.not_lt.1 hlong)
    rw [if_neg hlong]
    split at hanswer
    · rename_i htype
      obtain ⟨x, hx⟩ := h.connects hs hvalid hanswer
      rw [if_pos htype, hx]
      exact ⟨_, rfl⟩
    · rename_i htype
      rw [if_neg htype]
      split at hanswer
      · rename_i htext
        rw [if_pos htext, h.onText_eq hs hvalid, hanswer]
        exact ⟨_, rfl⟩
      · rename_i htext
        exact ⟨_, if_neg htext⟩

end Represents

/-! ### Runs -/

theorem represents_start {codes : List UInt8 → Option (List UInt8)} (h : initServerState codes = some s) :
    Represents s ⟨[], fun p => codes (pathKey p)⟩ := by
  have hserves := initServerState_serves h
  constructor
  case serves => exact ⟨_, hserves⟩
  case clients =>
    intro i
    cases hc : s.clients.get i with
    | none => rfl
    | some c =>
      obtain ⟨p, hp⟩ := (hserves.clients i c).1 hc
      cases hp
  case length => exact Nat.zero_le _
  case valid => simp
  case codes =>
    intro p
    obtain ⟨hm, -, rfl⟩ := Option.map_eq_some_iff.1 h
    rfl

theorem run_registryRun (h : Run hist s) : ∃ reg, RegistryRun hist reg ∧ Represents s reg := by
  induction h with
  | start hs => exact ⟨_, .start _, represents_start hs⟩
  | step _ hstep ih =>
    obtain ⟨reg, hreg, hrep⟩ := ih
    obtain ⟨reg', hanswer, hrep'⟩ := hrep.simulates hstep
    exact ⟨reg', hreg.step hanswer, hrep'⟩

/-- The file of a pseudo has the code of the pseudo. -/
def codeFiles (codes : Key → Option (List UInt8)) (path : List UInt8) : Option (List UInt8) :=
  codes (path.drop PATH_SRV_CODES.length)

theorem codeFiles_pathKey (codes : Key → Option (List UInt8)) : (fun p => codeFiles codes (pathKey p)) = codes := by
  funext p
  rw [codeFiles, pathKey, List.drop_left]

theorem registryRun_run (h : RegistryRun hist reg) : ∃ s, Run hist s ∧ Represents s reg := by
  induction h with
  | start codes =>
    obtain ⟨s, hs⟩ : ∃ s, initServerState (codeFiles codes) = some s := ⟨_, rfl⟩
    have hrep := represents_start hs
    rw [codeFiles_pathKey] at hrep
    exact ⟨s, Run.start hs, hrep⟩
  | step _ hanswer ih =>
    obtain ⟨s, hrun, hrep⟩ := ih
    obtain ⟨r, hr⟩ := hrep.returns hanswer
    obtain ⟨reg', hanswer', hrep'⟩ := hrep.simulates ⟨513, hr⟩
    obtain ⟨rfl, rfl⟩ := Prod.mk.inj (Option.some.inj (hanswer'.symm.trans hanswer))
    exact ⟨r.state, hrun.step ⟨513, hr⟩, hrep'⟩

end NyanChat
