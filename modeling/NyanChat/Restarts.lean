import NyanChat.Registry

/-!
# The server over its restarts

A server that is started again finds the files with the codes, but no session.  Its sessions are those that its
history since the start tells, in the order in which their pseudos were first accepted, and its codes those that the
whole history tells (`lives_told`).  So the history alone tells which connection request is accepted
(`Lives.admitted`).
-/

namespace NyanChat

/-- The states of a server that is started again and again on its files, with all exchanges and those since its last
start, the last one first. -/
inductive Lives (codes₀ : List UInt8 → Option (List UInt8)) : List Exchange → List Exchange → ServerState → Prop
  | start {s : ServerState} : initServerState codes₀ = some s → Lives codes₀ [] [] s
  | step {all life : List Exchange} {s : ServerState} {e : Event} {r : Handled} : Lives codes₀ all life s →
      Step e s r → Lives codes₀ ((e, r.sent) :: all) ((e, r.sent) :: life) r.state
  | restart {all life : List Exchange} {s s' : ServerState} : Lives codes₀ all life s →
      initServerState s.codes = some s' → Lives codes₀ all [] s'

/-- The pseudo that an exchange accepts. -/
def acceptedPseudo (x : Exchange) : Option Key := (cstr x.1.msg.srcPseudo).filter fun p => accepted p x

/-- The pseudos with a session, in the order in which they were first accepted. -/
def acceptedPseudos (life : List Exchange) : List Key := (life.filterMap acceptedPseudo).dedup.reverse

/-- The file of a pseudo after the exchanges: the code of its last accepted request, or the file of the beginning. -/
def keptCode (codes₀ : List UInt8 → Option (List UInt8)) (all : List Exchange) (p : Key) : Option (List UInt8) :=
  match lastAccepted p all with
  | some a => some (a.msg.msg.toList.take a.msg.msgLength.toNat)
  | none => codes₀ (pathKey p)

/-- The registry is the one that the history tells. -/
structure Told (codes₀ : List UInt8 → Option (List UInt8)) (all life : List Exchange) (reg : Registry) : Prop where
  pseudos : reg.sessions.map Session.pseudo = acceptedPseudos life
  session : ∀ p, reg.session p =
    (lastAccepted p life).map fun a => ⟨p, a.clock.store, a.msg.proxyClientSocket⟩
  codes : ∀ p, reg.codes p = keptCode codes₀ all p

variable {codes₀ : List UInt8 → Option (List UInt8)} {all life : List Exchange} {reg reg' : Registry} {e : Event}
  {sent : List Sent} {p q : Key} {s : ServerState}

/-! ### The session of a pseudo -/

theorem enter_pseudos (x : Session) (l : List Session) :
    (Registry.enter x l).map Session.pseudo =
      if x.pseudo ∈ l.map Session.pseudo then l.map Session.pseudo else l.map Session.pseudo ++ [x.pseudo] := by
  induction l with
  | nil => simp [Registry.enter]
  | cons y l ih =>
    rw [Registry.enter]
    by_cases hy : y.pseudo = x.pseudo
    · simp [hy]
    · rw [if_neg hy, List.map_cons, ih]
      have hmem : x.pseudo ∈ (y :: l).map Session.pseudo ↔ x.pseudo ∈ l.map Session.pseudo := by
        simp [Ne.symm hy]
      rw [List.map_cons] at hmem ⊢
      split
      · rw [if_pos (hmem.2 ‹_›)]
      · rw [if_neg (mt hmem.1 ‹_›), List.cons_append]

theorem find_enter (x : Session) (l : List Session) (q : Key) :
    (Registry.enter x l).find? (fun y => y.pseudo = q) =
      if q = x.pseudo then some x else l.find? fun y => y.pseudo = q := by
  induction l with
  | nil => simp [Registry.enter, eq_comm]
  | cons y l ih =>
    rw [Registry.enter]
    by_cases hy : y.pseudo = x.pseudo
    · by_cases hq : x.pseudo = q
      · simp [hy, hq]
      · simp [hy, hq, Ne.symm hq]
    · rw [if_neg hy, List.find?_cons, List.find?_cons, ih]
      by_cases hyq : y.pseudo = q
      · have hq : q ≠ x.pseudo := by rw [← hyq]; exact hy
        simp [hyq, hq]
      · simp [hyq]

/-! ### Accepted requests -/

theorem acceptedPseudo_eq {x : Exchange} : acceptedPseudo x = some p ↔ accepted p x = true := by
  rw [acceptedPseudo, Option.filter_eq_some_iff, and_iff_right_iff_imp]
  intro hacc
  exact (accepted_iff.1 hacc).1.2

theorem acceptedPseudo_eq_none {x : Exchange} : acceptedPseudo x = none ↔ ∀ p, accepted p x = false := by
  rw [Option.eq_none_iff_forall_ne_some]
  simp only [ne_eq, acceptedPseudo_eq, Bool.not_eq_true]

theorem acceptedPseudos_cons {x : Exchange} (hx : acceptedPseudo x = some p) (life : List Exchange) :
    acceptedPseudos (x :: life) =
      if p ∈ acceptedPseudos life then acceptedPseudos life else acceptedPseudos life ++ [p] := by
  have hmem : p ∈ acceptedPseudos life ↔ p ∈ life.filterMap acceptedPseudo := by
    rw [acceptedPseudos, List.mem_reverse, List.mem_dedup]
  rw [acceptedPseudos, List.filterMap_cons, hx]
  dsimp only
  by_cases hp : p ∈ acceptedPseudos life
  · rw [if_pos hp, List.dedup_cons_of_mem (hmem.1 hp), acceptedPseudos]
  · rw [if_neg hp, List.dedup_cons_of_notMem (mt hmem.2 hp), List.reverse_cons, acceptedPseudos]

/-- The registry admits a pseudo, or it stays and accepts nobody. -/
theorem answer_cases (h : reg.answer e = some (reg', sent)) :
    (reg' = reg ∧ ∀ p, accepted p (e, sent) = false) ∨
      ∃ p, e.Requests p ∧ reg' = reg.grant e p ∧ sent = [⟨e.sock, connectedReply e.msg e.locals.connectedMsg⟩] := by
  obtain ⟨p, hp, h⟩ := Option.bind_eq_some_iff.1 h
  split at h
  · cases h
    exact Or.inl ⟨rfl, fun q => not_accepted_of_sent (by simp)⟩
  split at h
  · rename_i htype
    obtain ⟨refused, -, h⟩ := Option.bind_eq_some_iff.1 h
    have herror : ∀ text q, accepted q (e, [⟨e.sock, errorReply text e.msg e.locals.errorMsg⟩]) = false := by
      intro text q
      refine not_accepted_of_sent fun m hm => ?_
      rw [List.mem_singleton.1 hm, errorReply_msgType]
      decide
    cases refused with
    | some text =>
      cases h
      exact Or.inl ⟨rfl, herror text⟩
    | none =>
      dsimp only at h
      split at h
      · cases h
        exact Or.inl ⟨rfl, herror _⟩
      split at h
      · cases h
        exact Or.inr ⟨p, ⟨htype, hp⟩, rfl, rfl⟩
      · cases h
  · rename_i hconn
    have hno : ∀ q, accepted q (e, sent) = false := fun q => not_accepted_of_not_requests fun hreq => hconn hreq.1
    split at h
    · exact Or.inl ⟨relay_state h, hno⟩
    · cases h
      exact Or.inl ⟨rfl, hno⟩

/-! ### What the history tells -/

theorem told_start (codes₀ : List UInt8 → Option (List UInt8)) :
    Told codes₀ [] [] ⟨[], fun p => codes₀ (pathKey p)⟩ := by
  constructor
  case pseudos => rfl
  case session => exact fun p => rfl
  case codes => exact fun p => rfl

theorem Told.restart (h : Told codes₀ all life reg) : Told codes₀ all [] ⟨[], reg.codes⟩ := by
  constructor
  case pseudos => rfl
  case session => exact fun p => rfl
  case codes => exact h.codes

theorem Told.keep (h : Told codes₀ all life reg) {x : Exchange} (hx : ∀ p, accepted p x = false) :
    Told codes₀ (x :: all) (x :: life) reg := by
  have hlast : ∀ p hist, lastAccepted p (x :: hist) = lastAccepted p hist := by
    intro p hist
    rw [lastAccepted_cons, hx p, if_neg Bool.false_ne_true]
  constructor
  case pseudos =>
    rw [h.pseudos, acceptedPseudos, acceptedPseudos, List.filterMap_cons, acceptedPseudo_eq_none.2 hx]
  case session =>
    intro p
    rw [hlast, h.session]
  case codes =>
    intro p
    rw [keptCode, hlast, h.codes, keptCode]

theorem Told.grant (h : Told codes₀ all life reg) (hreq : e.Requests p) :
    Told codes₀ ((e, [⟨e.sock, connectedReply e.msg e.locals.connectedMsg⟩]) :: all)
      ((e, [⟨e.sock, connectedReply e.msg e.locals.connectedMsg⟩]) :: life) (reg.grant e p) := by
  have hacc := accepted_connectedReply hreq
  have hpseudo : acceptedPseudo (e, [⟨e.sock, connectedReply e.msg e.locals.connectedMsg⟩]) = some p := by
    rw [acceptedPseudo_eq, hacc, decide_eq_true rfl]
  constructor
  case pseudos =>
    rw [Registry.grant, enter_pseudos, h.pseudos, acceptedPseudos_cons hpseudo]
  case session =>
    intro q
    rw [Registry.session, Registry.grant, find_enter, lastAccepted_cons, hacc]
    by_cases hq : q = p
    · simp [hq]
    · simp only [hq, decide_false, Bool.false_eq_true, if_false]
      exact h.session q
  case codes =>
    intro q
    rw [keptCode, lastAccepted_cons, hacc, Registry.grant]
    by_cases hq : q = p
    · simp [hq]
    · simp only [hq, decide_false, Bool.false_eq_true, if_false]
      rw [Function.update_of_ne hq, h.codes, keptCode]

/-- The state of the server is what its history tells. -/
theorem lives_told (h : Lives codes₀ all life s) : ∃ reg, Told codes₀ all life reg ∧ Represents s reg := by
  induction h with
  | start hs => exact ⟨_, told_start codes₀, represents_start hs⟩
  | step _ hstep ih =>
    obtain ⟨reg, htold, hrep⟩ := ih
    obtain ⟨reg', hanswer, hrep'⟩ := hrep.simulates hstep
    refine ⟨reg', ?_, hrep'⟩
    rcases answer_cases hanswer with ⟨rfl, hno⟩ | ⟨p, hreq, rfl, hsent⟩
    · exact htold.keep hno
    · rw [hsent]
      exact htold.grant hreq
  | restart _ hs ih =>
    obtain ⟨reg, htold, hrep⟩ := ih
    have hstart := represents_start hs
    have hcodes : (fun p => _) = reg.codes := funext hrep.codes
    rw [hcodes] at hstart
    exact ⟨_, htold.restart, hstart⟩

/-! ### Which requests are accepted -/

theorem refuses_eq_none {now : Int} {msg : Message} {refused : Option (List UInt8)}
    (h : reg.refuses now p msg = some refused) :
    refused = none ↔ (∀ code, reg.codes p = some code → strcmpEqual msg.msg.toList code = some true) ∧
      ∀ x, reg.session p = some x → reg.codes p ≠ none → TIMEOUT_INACTIVE ≤ now - x.lastActivity := by
  unfold Registry.refuses at h
  cases hcode : reg.codes p with
  | none =>
    rw [hcode] at h
    cases h
    simp
  | some code =>
    rw [hcode] at h
    obtain ⟨same, hsame, rfl⟩ := Option.map_eq_some_iff.1 h
    cases same with
    | false => simp [hsame]
    | true =>
      cases reg.session p with
      | none => simp [hsame]
      | some x =>
        by_cases hactive : TIMEOUT_INACTIVE ≤ now - x.lastActivity
        · simp [hsame, hactive]
        · simp [hsame, hactive]

theorem connect_accepts {r : Registry × List Sent} (hreq : e.Requests p) (h : reg.connect e p = some r) :
    accepted p (e, r.2) = true ↔ reg.refuses e.clock.check p e.msg = some none ∧
      (reg.session p = none → reg.sessions.length < NB_MAX_CONNECTED_CLIENTS) := by
  obtain ⟨refused, hrefused, h⟩ := Option.bind_eq_some_iff.1 h
  have herror : ∀ text, accepted p (e, [⟨e.sock, errorReply text e.msg e.locals.errorMsg⟩]) = false := by
    intro text
    refine not_accepted_of_sent fun m hm => ?_
    rw [List.mem_singleton.1 hm, errorReply_msgType]
    decide
  rw [hrefused]
  cases refused with
  | some text =>
    cases h
    simp [herror]
  | none =>
    dsimp only at h
    split at h
    · rename_i hfull
      cases h
      simp [herror, hfull]
    · rename_i hroom
      split at h
      · cases h
        rw [accepted_connectedReply hreq, not_and, Nat.not_le] at *
        simpa using hroom
      · cases h

/-- A connection request is accepted exactly when it has the code that was kept, the session of its pseudo is old or
missing, and a new pseudo finds less than `NB_MAX_CONNECTED_CLIENTS` others since the start. -/
theorem Lives.admitted (h : Lives codes₀ all life s) {r : Handled} (hstep : Step e s r) (hreq : e.Requests p)
    (hlong : MIN_NAME_LENGTH ≤ p.length) :
    accepted p (e, r.sent) = true ↔
      (∀ code, keptCode codes₀ all p = some code → strcmpEqual e.msg.msg.toList code = some true) ∧
        (∀ a, lastAccepted p life = some a → TIMEOUT_INACTIVE ≤ e.clock.check - a.clock.store) ∧
        (lastAccepted p life = none → (acceptedPseudos life).length < NB_MAX_CONNECTED_CLIENTS) := by
  obtain ⟨reg, htold, hrep⟩ := lives_told h
  obtain ⟨accounts, hs⟩ := hrep.serves
  obtain ⟨reg', hanswer, -⟩ := hrep.simulates hstep
  rw [Registry.answer, hreq.2, Option.bind_some, if_neg (Nat.not_lt.2 hlong), if_pos hreq.1] at hanswer
  -- a session has a code
  have hcode : ∀ a, lastAccepted p life = some a → keptCode codes₀ all p ≠ none := by
    intro a ha hnone
    rw [← htold.codes, ← hrep.codes] at hnone
    have hsession := (hrep.account_eq_none hs).1 (hs.codes p hnone)
    rw [htold.session, ha] at hsession
    cases hsession
  have hlength : reg.sessions.length = (acceptedPseudos life).length := by
    rw [← htold.pseudos, List.length_map]
  obtain ⟨refused, hrefused, -⟩ := Option.bind_eq_some_iff.1 hanswer
  have hnone := refuses_eq_none hrefused
  rw [connect_accepts hreq hanswer, hrefused, Option.some_inj, hnone, hlength, htold.session, htold.codes, and_assoc,
    Option.map_eq_none_iff]
  refine and_congr_right fun _ => and_congr_left fun _ => ?_
  constructor
  · intro hold a ha
    exact hold _ (by rw [ha, Option.map_some]) (hcode a ha)
  · intro hold x hx _
    obtain ⟨a, ha, rfl⟩ := Option.map_eq_some_iff.1 hx
    exact hold a ha

end NyanChat
