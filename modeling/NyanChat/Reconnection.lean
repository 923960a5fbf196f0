import NyanChat.CodeFiles
import NyanChat.StoredCodes

/-!
# Reconnections

A client program that is restarted at will, and the server, with a reliable connection between them.  The client
removes the file of its pseudo at every refusal.  While the server welcomes the requests that carry the stored code,
a code that both sides have stays on both sides (`code_remembered`): a request of another code is the only one that
is refused (`Phase`).
-/

namespace NyanChat

/-- A client, the server and the messages between them in their order. -/
structure Dialog where
  client : ClientState
  /-- Each start of the client opens a connection with the next number. -/
  connection : ℕ
  /-- The number that the server answers to. -/
  index : Int32
  server : ServerState
  /-- The messages to the server, with their connections. -/
  up : List (ℕ × Message)
  down : List Message

def Dialog.sending (d : Dialog) (sent : List Message) : List (ℕ × Message) :=
  d.up ++ sent.map fun m => (d.connection, { m with proxyClientSocket := d.index })

/-- A step: the client reads a line or a message, the server handles a message of this client or of another one, or
the client is closed and started again.  The server handles a message of this client when `guard` holds. -/
inductive Dialog.Next (guard : Dialog → Clock → ℕ × Message → Prop) (d : Dialog) : Dialog → Prop
  | typed {rands : ℕ → ℕ} {memory : ℕ → Message} {buffer : List UInt8} {len : ℕ} {c : ClientState}
      {sent : List Message} : Typed buffer len → onStdinClient rands memory d.client buffer len = some (c, sent) →
      Next guard d { d with client := c, up := d.sending sent }
  | received {msg : Message} {rest : List Message} {c : ClientState} {sent : List Message} : d.down = msg :: rest →
      onMsgClient d.client msg = some (c, sent) →
      Next guard d { d with client := c, up := d.sending sent, down := rest }
  | served {clock : Clock} {locals : Locals} {sock : Int} {x : ℕ × Message} {rest : List (ℕ × Message)}
      {r : Handled} : d.up = x :: rest → guard d clock x → Step ⟨clock, locals, sock, x.2⟩ d.server r →
      Next guard d { d with
        server := r.state
        up := rest
        down := d.down ++ if x.1 = d.connection then repliesTo d.index r.sent else [] }
  | others {e : Event} {r : Handled} : e.Built → e.msg.proxyClientSocket ≠ d.index → Step e d.server r →
      Next guard d { d with server := r.state, down := d.down ++ repliesTo d.index r.sent }
  | restart (index : Int32) : Next guard d { d with
      client := initClientState d.client.codes
      connection := d.connection + 1
      index := index
      down := [] }

inductive Dialog.Reached (guard : Dialog → Clock → ℕ × Message → Prop) : Dialog → Prop
  | start (codes : List UInt8 → Option (List UInt8)) (index : Int32) {files : List UInt8 → Option (List UInt8)}
      {s : ServerState} : initServerState files = some s →
      Reached guard ⟨initClientState codes, 0, index, s, [], []⟩
  | next {d d' : Dialog} : Reached guard d → d.Next guard d' → Reached guard d'

/-- A request of the present connection with the stored code comes when the server welcomes it. -/
def Welcomed (d : Dialog) (clock : Clock) (x : ℕ × Message) : Prop :=
  x.1 = d.connection → x.2.msgType = MSG_CONNECTION_CLIENT →
    ∀ p ∈ cstr x.2.srcPseudo, ∀ code ∈ cstr x.2.msg, storedCode d.server p = some code → Welcome d.server clock p

instance (d : Dialog) (clock : Clock) (x : ℕ × Message) : Decidable (Welcomed d clock x) := by
  unfold Welcomed
  infer_instance

/-- The client and the server have the same code for a pseudo. -/
def Shared (d : Dialog) (p : Key) (code : List UInt8) : Prop :=
  storedCode d.server p = some code ∧ codeFile d.client p = some code

/-! ### Requests and answers on the way -/

def isRequest (connection : ℕ) (x : ℕ × Message) : Bool :=
  x.1 = connection ∧ x.2.msgType = MSG_CONNECTION_CLIENT

/-- The requests of the present connection that were not handled yet. -/
def Dialog.requests (d : Dialog) : List (ℕ × Message) := d.up.filter (isRequest d.connection)

def isAnswer (m : Message) : Bool := m.msgType = MSG_ERROR ∨ m.msgType = MSG_WELL_CONNECTED

def Dialog.answers (d : Dialog) : List Message := d.down.filter isAnswer

/-- Where the request of the present connection is. -/
inductive Phase (d : Dialog) : Prop
  | idle : d.client.waitingPseudoConfirmation = false → d.client.connected = false → d.requests = [] →
      d.answers = [] → Phase d
  | asked {x : ℕ × Message} {p code : List UInt8} : d.client.waitingPseudoConfirmation = true →
      d.client.connected = false → d.requests = [x] → d.answers = [] → cstr d.client.pseudo = some p →
      cstr x.2.srcPseudo = some p → Carries x.2 code → codeFile d.client p = some code → Phase d
  | ignored : d.client.waitingPseudoConfirmation = true → d.client.connected = false → d.requests = [] →
      d.answers = [] → Phase d
  | refused {m : Message} {p code : List UInt8} : d.client.waitingPseudoConfirmation = true →
      d.client.connected = false → d.requests = [] → d.answers = [m] → m.msgType = MSG_ERROR →
      cstr d.client.pseudo = some p → codeFile d.client p = some code → Barred d.server p code → Phase d
  | welcomed {m : Message} {p code : List UInt8} : d.client.waitingPseudoConfirmation = true →
      d.client.connected = false → d.requests = [] → d.answers = [m] → m.msgType = MSG_WELL_CONNECTED →
      cstr d.client.pseudo = some p → p ≠ [] → Shared d p code → Phase d
  | settled {p code : List UInt8} : d.client.waitingPseudoConfirmation = false → d.client.connected = true →
      cstr d.client.pseudo = some p → p ≠ [] → Shared d p code → Phase d

structure Consistent (d : Dialog) : Prop where
  serves : ∃ accounts, Serves d.server accounts
  carries : ∀ x ∈ d.up, x.2.msgType = MSG_CONNECTION_CLIENT → ∃ code, Carries x.2 code
  slots : CarriesCodes d.client
  past : ∀ x ∈ d.up, x.1 ≤ d.connection
  phase : Phase d

variable {d d' : Dialog} {guard : Dialog → Clock → ℕ × Message → Prop} {p code : List UInt8}

theorem Shared.keep (h : Shared d p code) (hsame : SameFiles d.client d'.client) (hserver : Keeps d.server d'.server) :
    Shared d' p code := ⟨hserver.stored p code h.1, (codeFile_congr hsame.codes p).trans h.2⟩

/-- A step that does not concern the request. -/
theorem Phase.keep (h : Phase d) (hsame : SameFiles d.client d'.client) (hreq : d'.requests = d.requests)
    (hans : d'.answers = d.answers) (hserver : Keeps d.server d'.server) : Phase d' := by
  have hfile := fun p => codeFile_congr hsame.codes p
  have hpseudo : ∀ {p}, cstr d.client.pseudo = some p → cstr d'.client.pseudo = some p := by
    intro p hp
    rw [hsame.pseudo]
    exact hp
  cases h with
  | idle hw hc hr ha => exact .idle (hsame.waiting.trans hw) (hsame.connected.trans hc) (hreq.trans hr) (hans.trans ha)
  | asked hw hc hr ha hp hm hcode hf =>
    exact .asked (hsame.waiting.trans hw) (hsame.connected.trans hc) (hreq.trans hr) (hans.trans ha) (hpseudo hp) hm
      hcode ((hfile _).trans hf)
  | ignored hw hc hr ha =>
    exact .ignored (hsame.waiting.trans hw) (hsame.connected.trans hc) (hreq.trans hr) (hans.trans ha)
  | refused hw hc hr ha hm hp hf hb =>
    exact .refused (hsame.waiting.trans hw) (hsame.connected.trans hc) (hreq.trans hr) (hans.trans ha) hm (hpseudo hp)
      ((hfile _).trans hf) (hserver.barred _ _ hb)
  | welcomed hw hc hr ha hm hp hne hs =>
    exact .welcomed (hsame.waiting.trans hw) (hsame.connected.trans hc) (hreq.trans hr) (hans.trans ha) hm (hpseudo hp)
      hne (hs.keep hsame hserver)
  | settled hw hc hp hne hs =>
    exact .settled (hsame.waiting.trans hw) (hsame.connected.trans hc) (hpseudo hp) hne (hs.keep hsame hserver)

/-- A client that waits for an answer on its way. -/
inductive Awaits (d : Dialog) (m : Message) (rest : List Message) : Prop
  | refused {p code : List UInt8} : d.client.connected = false → d.requests = [] → rest = [] → m.msgType = MSG_ERROR →
      cstr d.client.pseudo = some p → codeFile d.client p = some code → Barred d.server p code → Awaits d m rest
  | welcomed {p code : List UInt8} : m.msgType = MSG_WELL_CONNECTED → cstr d.client.pseudo = some p → p ≠ [] →
      Shared d p code → Awaits d m rest

theorem Phase.answered (h : Phase d) {m : Message} {rest : List Message}
    (hwait : d.client.waitingPseudoConfirmation = true) (hans : d.answers = m :: rest) : Awaits d m rest := by
  cases h with
  | idle hw => exact absurd hwait (by rw [hw]; exact Bool.false_ne_true)
  | settled hw => exact absurd hwait (by rw [hw]; exact Bool.false_ne_true)
  | asked _ _ _ ha => exact absurd (hans.symm.trans ha) (List.cons_ne_nil _ _)
  | ignored _ _ _ ha => exact absurd (hans.symm.trans ha) (List.cons_ne_nil _ _)
  | refused _ hc hr ha hm hp hf hb =>
    obtain ⟨rfl, hrest⟩ := List.cons.inj (hans.symm.trans ha)
    exact .refused hc hr hrest hm hp hf hb
  | welcomed _ _ _ ha hm hp hne hs =>
    obtain ⟨rfl, -⟩ := List.cons.inj (hans.symm.trans ha)
    exact .welcomed hm hp hne hs

/-- The answers come before the client is connected. -/
theorem Phase.no_answer (h : Phase d) (hconn : d.client.connected = false)
    (hwait : d.client.waitingPseudoConfirmation = false) : d.answers = [] := by
  cases h with
  | idle _ _ _ ha => exact ha
  | settled _ hc => exact absurd hc (by rw [hconn]; exact Bool.false_ne_true)
  | asked hw => exact absurd hw (by rw [hwait]; exact Bool.false_ne_true)
  | ignored hw => exact absurd hw (by rw [hwait]; exact Bool.false_ne_true)
  | refused hw => exact absurd hw (by rw [hwait]; exact Bool.false_ne_true)
  | welcomed hw => exact absurd hw (by rw [hwait]; exact Bool.false_ne_true)

theorem Phase.settled_of_connected (h : Phase d) (hconn : d.client.connected = true) :
    d.client.waitingPseudoConfirmation = false ∧
      ∃ p code, cstr d.client.pseudo = some p ∧ p ≠ [] ∧ Shared d p code := by
  cases h with
  | settled hw _ hp hne hs => exact ⟨hw, _, _, hp, hne, hs⟩
  | idle _ hc => exact absurd hconn (by rw [hc]; exact Bool.false_ne_true)
  | asked _ hc => exact absurd hconn (by rw [hc]; exact Bool.false_ne_true)
  | ignored _ hc => exact absurd hconn (by rw [hc]; exact Bool.false_ne_true)
  | refused _ hc => exact absurd hconn (by rw [hc]; exact Bool.false_ne_true)
  | welcomed _ hc => exact absurd hconn (by rw [hc]; exact Bool.false_ne_true)

/-- A client whose request is on its way, or a connected one. -/
inductive Requested (d : Dialog) (x : ℕ × Message) (rest : List (ℕ × Message)) : Prop
  | asked {p code : List UInt8} : d.client.waitingPseudoConfirmation = true → d.client.connected = false → rest = [] →
      d.answers = [] → cstr d.client.pseudo = some p → cstr x.2.srcPseudo = some p → Carries x.2 code →
      codeFile d.client p = some code → Requested d x rest
  | settled {p code : List UInt8} : d.client.waitingPseudoConfirmation = false → d.client.connected = true →
      cstr d.client.pseudo = some p → p ≠ [] → Shared d p code → Requested d x rest

theorem Phase.requested (h : Phase d) {x : ℕ × Message} {rest : List (ℕ × Message)} (hreq : d.requests = x :: rest) :
    Requested d x rest := by
  cases h with
  | idle _ _ hr => exact absurd (hreq.symm.trans hr) (List.cons_ne_nil _ _)
  | ignored _ _ hr => exact absurd (hreq.symm.trans hr) (List.cons_ne_nil _ _)
  | refused _ _ hr => exact absurd (hreq.symm.trans hr) (List.cons_ne_nil _ _)
  | welcomed _ _ hr => exact absurd (hreq.symm.trans hr) (List.cons_ne_nil _ _)
  | settled hw hc hp hne hs => exact .settled hw hc hp hne hs
  | asked hw hc hr ha hp hm hcode hf =>
    obtain ⟨rfl, hrest⟩ := List.cons.inj (hreq.symm.trans hr)
    exact .asked hw hc hrest ha hp hm hcode hf

/-! ### Steps -/

theorem isRequest_iff {connection : ℕ} {x : ℕ × Message} :
    isRequest connection x = true ↔ x.1 = connection ∧ x.2.msgType = MSG_CONNECTION_CLIENT := decide_eq_true_iff

theorem isAnswer_iff {m : Message} :
    isAnswer m = true ↔ m.msgType = MSG_ERROR ∨ m.msgType = MSG_WELL_CONNECTED := decide_eq_true_iff

private theorem filter_append_of_not {α : Type*} {p : α → Bool} {l new : List α} (h : ∀ a ∈ new, ¬ p a = true) :
    (l ++ new).filter p = l.filter p := by
  rw [List.filter_append, List.filter_eq_nil_iff.2 h, List.append_nil]

/-- The replies to another message than a request are no answers. -/
theorem replies_of_other {s : ServerState} {accounts : Key → Option Account} {e : Event} {r : Handled}
    (h : Serves s accounts) (htype : e.msg.msgType ≠ MSG_CONNECTION_CLIENT) (hstep : Step e s r) {index : Int32} :
    ∀ m ∈ repliesTo index r.sent, ¬ isAnswer m = true := by
  intro m hm
  obtain ⟨x, hx, rfl, -⟩ := mem_repliesTo hm
  rw [isAnswer_iff, not_or]
  exact step_other h htype hstep hx

/-- The replies to a message of another client are no answers for this one. -/
theorem replies_to_others {s : ServerState} {accounts : Key → Option Account} {e : Event} {r : Handled}
    (h : Serves s accounts) (hbuilt : e.Built) (hstep : Step e s r) {index : Int32}
    (hindex : e.msg.proxyClientSocket ≠ index) : ∀ m ∈ repliesTo index r.sent, ¬ isAnswer m = true := by
  by_cases htype : e.msg.msgType = MSG_CONNECTION_CLIENT
  · intro m hm
    obtain ⟨x, hx, rfl, hx'⟩ := mem_repliesTo hm
    obtain ⟨code, hcode, hlen⟩ := hbuilt htype
    obtain ⟨p, hp⟩ : ∃ p, cstr e.msg.srcPseudo = some p := by
      obtain ⟨fuel, hrun⟩ := hstep
      obtain ⟨p, hp, -⟩ := Option.bind_eq_some_iff.1 hrun
      exact ⟨p, hp⟩
    -- a request is answered on its own connection only
    cases step_answered h ⟨htype, hp⟩ hcode hlen hstep with
    | silent _ hsent =>
      rw [hsent] at hx
      exact absurd hx List.not_mem_nil
    | accepted _ hsent _ =>
      rw [hsent, List.mem_singleton] at hx
      subst hx
      exact absurd hx' hindex
    | refused text _ hsent _ _ =>
      rw [hsent, List.mem_singleton] at hx
      subst hx
      exact absurd hx' hindex
  · exact replies_of_other h htype hstep

namespace Consistent

/-- The messages on their way after the client has sent some. -/
theorem sends (h : Consistent d) {sent : List Message}
    (hcarries : ∀ m ∈ sent, m.msgType = MSG_CONNECTION_CLIENT → ∃ code, Carries m code) :
    (∀ x ∈ d.sending sent, x.2.msgType = MSG_CONNECTION_CLIENT → ∃ code, Carries x.2 code) ∧
      ∀ x ∈ d.sending sent, x.1 ≤ d.connection := by
  refine ⟨fun x hx => ?_, fun x hx => ?_⟩
  · rcases List.mem_append.1 hx with hold | hnew
    · exact h.carries x hold
    · obtain ⟨m, hm, rfl⟩ := List.mem_map.1 hnew
      exact hcarries m hm
  · rcases List.mem_append.1 hx with hold | hnew
    · exact h.past x hold
    · obtain ⟨m, -, rfl⟩ := List.mem_map.1 hnew
      exact Nat.le_refl _

theorem typed (h : Consistent d) {rands : ℕ → ℕ} {memory : ℕ → Message} {buffer : List UInt8} {len : ℕ}
    {c : ClientState} {sent : List Message}
    (hrun : onStdinClient rands memory d.client buffer len = some (c, sent)) :
    Consistent { d with client := c, up := d.sending sent } := by
  obtain ⟨hslots, hcarries⟩ := h.slots.stdin hrun
  obtain ⟨hup, hpast⟩ := h.sends hcarries
  refine ⟨h.serves, hup, hslots, hpast, ?_⟩
  cases onStdinClient_files hrun with
  | @request m p code hidle hempty hwaiting hconn hsent hasks =>
    subst hsent
    have hbusy : ¬ d.client.waitingPseudoConfirmation = true := by rw [hidle]; exact Bool.false_ne_true
    cases h.phase with
    | idle _ hc hr ha =>
      have hreq : (d.sending [m]).filter (isRequest d.connection) =
          [(d.connection, { m with proxyClientSocket := d.index })] := by
        have hnew : isRequest d.connection (d.connection, { m with proxyClientSocket := d.index }) = true :=
          isRequest_iff.2 ⟨rfl, hasks.msgType⟩
        rw [Dialog.sending, List.filter_append, List.map_singleton, List.filter_singleton, hnew]
        exact congrArg (· ++ _) hr
      exact .asked hwaiting (hconn.trans hc) hreq ha hasks.pseudo hasks.srcPseudo hasks.carries hasks.file
    | asked hw => exact absurd hw hbusy
    | ignored hw => exact absurd hw hbusy
    | refused hw => exact absurd hw hbusy
    | welcomed hw => exact absurd hw hbusy
    | settled _ _ hp hne =>
      rw [hempty] at hp
      exact absurd (Option.some.inj hp).symm hne
  | text hsame hconn htext =>
    have hreq : (d.sending sent).filter (isRequest d.connection) = d.requests := by
      refine filter_append_of_not fun x hx => ?_
      obtain ⟨m, hm, rfl⟩ := List.mem_map.1 hx
      rw [isRequest_iff]
      rintro ⟨-, htype⟩
      have := htext m hm
      dsimp only at htype
      rw [htype] at this
      cases this
    exact h.phase.keep hsame hreq rfl (.refl _)

theorem received (h : Consistent d) {msg : Message} {rest : List Message} {c : ClientState} {sent : List Message}
    (hdown : d.down = msg :: rest) (hrun : onMsgClient d.client msg = some (c, sent)) :
    Consistent { d with client := c, up := d.sending sent, down := rest } := by
  obtain ⟨hslots, hcarries⟩ := h.slots.received hrun
  obtain ⟨hup, hpast⟩ := h.sends hcarries
  have hans : d.answers = if isAnswer msg then msg :: rest.filter isAnswer else rest.filter isAnswer := by
    rw [Dialog.answers, hdown, List.filter_cons]
  have hnil : d.sending [] = d.up := List.append_nil _
  refine ⟨h.serves, hup, hslots, hpast, ?_⟩
  cases onMsgClient_files hrun with
  | @refused q hwait htype hp hcodes hidle hconn hsent =>
    subst hsent
    rw [if_pos (isAnswer_iff.2 (Or.inl htype))] at hans
    cases h.phase.answered hwait hans with
    | refused hc hr hrest =>
      refine .idle hidle (hconn.trans hc) ?_ hrest
      show (d.sending []).filter _ = []
      rw [hnil]
      exact hr
    | welcomed hm =>
      rw [htype] at hm
      cases hm
  | accepted hwait htype hcodes hpseudo hidle hconn hsent =>
    subst hsent
    rw [if_pos (isAnswer_iff.2 (Or.inr htype))] at hans
    cases h.phase.answered hwait hans with
    | refused _ _ _ hm =>
      rw [htype] at hm
      cases hm
    | welcomed _ hp hne hs =>
      refine .settled hidle hconn ?_ hne ⟨hs.1, (codeFile_congr hcodes _).trans hs.2⟩
      rw [hpseudo]
      exact hp
  | other hsame hquiet hsent =>
    by_cases hset : d.client.connected = true
    · -- a connected client stays connected
      obtain ⟨hw, p, code, hp, hne, hs⟩ := h.phase.settled_of_connected hset
      refine .settled (hsame.waiting.trans hw) (hsame.connected.trans hset) ?_ hne (hs.keep hsame (.refl _))
      rw [hsame.pseudo]
      exact hp
    · have hnone : sent = [] := by
        by_contra hne
        exact hset (hsent hne).2
      subst hnone
      have hno : ¬ isAnswer msg = true := by
        intro hmsg
        rw [if_pos hmsg] at hans
        by_cases hwait : d.client.waitingPseudoConfirmation = true
        · exact (not_or.2 (hquiet hwait)) (isAnswer_iff.1 hmsg)
        · have hquiet := h.phase.no_answer (Bool.eq_false_iff.2 hset) (Bool.eq_false_iff.2 hwait)
          exact absurd (hans.symm.trans hquiet) (List.cons_ne_nil _ _)
      rw [if_neg hno] at hans
      refine h.phase.keep hsame ?_ hans.symm (.refl _)
      show (d.sending []).filter _ = d.requests
      rw [hnil]
      rfl

theorem built (h : Consistent d) {x : ℕ × Message} (hx : x ∈ d.up) {clock : Clock} {locals : Locals} {sock : Int} :
    Event.Built ⟨clock, locals, sock, x.2⟩ := h.carries x hx

private theorem repliesTo_own {index : Int32} {m : Sent} (h : m.msg.proxyClientSocket = index) :
    repliesTo index [m] = [m.msg] := by
  rw [repliesTo, List.filter_singleton, decide_eq_true h]
  rfl

private theorem repliesTo_singleton (index : Int32) (m : Sent) :
    repliesTo index [m] = [m.msg] ∨ repliesTo index [m] = [] := by
  rw [repliesTo, List.filter_singleton]
  cases decide (m.msg.proxyClientSocket = index) with
  | true => exact Or.inl rfl
  | false => exact Or.inr rfl

theorem served (h : Consistent d) {clock : Clock} {locals : Locals} {sock : Int} {x : ℕ × Message}
    {rest : List (ℕ × Message)} {r : Handled} (hup : d.up = x :: rest) (hguard : Welcomed d clock x)
    (hstep : Step ⟨clock, locals, sock, x.2⟩ d.server r) :
    Consistent { d with
      server := r.state
      up := rest
      down := d.down ++ if x.1 = d.connection then repliesTo d.index r.sent else [] } := by
  obtain ⟨accounts, hserves⟩ := h.serves
  have hx : x ∈ d.up := hup ▸ List.mem_cons_self
  have hrest : ∀ y ∈ rest, y ∈ d.up := fun y hy => hup ▸ List.mem_cons_of_mem x hy
  refine ⟨hserves.step hstep, fun y hy => h.carries y (hrest y hy), h.slots, fun y hy => h.past y (hrest y hy), ?_⟩
  have hreq : d.requests = if isRequest d.connection x then x :: rest.filter (isRequest d.connection)
      else rest.filter (isRequest d.connection) := by
    rw [Dialog.requests, hup, List.filter_cons]
  by_cases hown : isRequest d.connection x = true
  · rw [if_pos hown] at hreq
    obtain ⟨hconn, htype⟩ := isRequest_iff.1 hown
    rw [if_pos hconn]
    cases h.phase.requested hreq with
    | settled hw hc hp hne hs =>
      exact .settled hw hc hp hne (hs.keep ⟨rfl, rfl, rfl, rfl⟩ (hserves.keeps (h.built hx) hstep))
    | @asked p code hw hc hnone ha hp hm hcode hf =>
      -- the reply is the only answer on its way
      have hans : ∀ m : Sent, r.sent = [m] → isAnswer m.msg = true →
          (d.down ++ repliesTo d.index r.sent).filter isAnswer = [m.msg] ∨
            (d.down ++ repliesTo d.index r.sent).filter isAnswer = [] := by
        intro m hsent hmsg
        rw [List.filter_append, show d.down.filter isAnswer = [] from ha, hsent]
        rcases repliesTo_singleton d.index m with hone | hzero
        · rw [hone, List.filter_singleton, hmsg]
          exact Or.inl rfl
        · rw [hzero]
          exact Or.inr rfl
      cases step_answered hserves ⟨htype, hm⟩ hcode.1 hcode.2 hstep with
      | silent _ hsent =>
        refine .ignored hw hc hnone ?_
        rw [hsent]
        show (d.down ++ []).filter isAnswer = []
        rw [List.append_nil]
        exact ha
      | accepted hvalid hsent hstored =>
        have hne : p ≠ [] := by
          rintro rfl
          exact absurd hvalid.1 (by decide)
        rcases hans _ hsent (isAnswer_iff.2 (Or.inr (connectedReply_msgType _ _))) with hone | hzero
        · exact .welcomed hw hc hnone hone (connectedReply_msgType _ _) hp hne ⟨hstored, hf⟩
        · exact .ignored hw hc hnone hzero
      | refused text hs hsent hsame hother =>
        have hstored : storedCode d.server p ≠ some code := fun heq =>
          (hsame heq).1 (hguard hconn htype p hm code hcode.1 heq)
        have hbarred : Barred r.state p code := by
          rw [hs]
          exact hother hstored
        rcases hans _ hsent (isAnswer_iff.2 (Or.inl (errorReply_msgType _ _ _))) with hone | hzero
        · exact .refused hw hc hnone hone (errorReply_msgType _ _ _) hp hf hbarred
        · exact .ignored hw hc hnone hzero
  · rw [if_neg hown] at hreq
    refine h.phase.keep ⟨rfl, rfl, rfl, rfl⟩ hreq.symm ?_ (hserves.keeps (h.built hx) hstep)
    refine filter_append_of_not fun m hm => ?_
    split at hm
    · rename_i hconn
      exact replies_of_other hserves (fun htype => hown (isRequest_iff.2 ⟨hconn, htype⟩)) hstep m hm
    · exact absurd hm List.not_mem_nil

theorem others (h : Consistent d) {e : Event} {r : Handled} (hbuilt : e.Built)
    (hindex : e.msg.proxyClientSocket ≠ d.index) (hstep : Step e d.server r) :
    Consistent { d with server := r.state, down := d.down ++ repliesTo d.index r.sent } := by
  obtain ⟨accounts, hserves⟩ := h.serves
  refine ⟨hserves.step hstep, h.carries, h.slots, h.past, ?_⟩
  refine h.phase.keep ⟨rfl, rfl, rfl, rfl⟩ rfl ?_ (hserves.keeps hbuilt hstep)
  exact filter_append_of_not (replies_to_others hserves hbuilt hstep hindex)

theorem restart (h : Consistent d) (index : Int32) : Consistent { d with
    client := initClientState d.client.codes
    connection := d.connection + 1
    index := index
    down := [] } := by
  refine ⟨h.serves, h.carries, initClientState_carriesCodes _, fun x hx => Nat.le_succ_of_le (h.past x hx), ?_⟩
  refine .idle rfl rfl (List.filter_eq_nil_iff.2 fun x hx hreq => ?_) rfl
  -- the requests on their way are of earlier connections
  have hpast := h.past x hx
  rw [(isRequest_iff.1 hreq).1] at hpast
  exact Nat.not_succ_le_self _ hpast

theorem next (h : Consistent d) (hnext : d.Next Welcomed d') : Consistent d' := by
  cases hnext with
  | typed _ hrun => exact h.typed hrun
  | received hdown hrun => exact h.received hdown hrun
  | served hup hguard hstep => exact h.served hup hguard hstep
  | others hbuilt hindex hstep => exact h.others hbuilt hindex hstep
  | restart index => exact h.restart index

end Consistent

theorem reached_consistent (h : Dialog.Reached Welcomed d) : Consistent d := by
  induction h with
  | start codes index hs =>
    exact ⟨⟨_, initServerState_serves hs⟩, nofun, initClientState_carriesCodes codes, nofun, .idle rfl rfl rfl rfl⟩
  | next _ hnext ih => exact ih.next hnext

/-! ### Codes that both sides have -/

/-- What a later connection attempt for the pseudo relies on. -/
structure Remembered (d : Dialog) (p : Key) (code : List UInt8) : Prop where
  shared : Shared d p code
  /-- A request for the pseudo carries the code. -/
  asks : ∀ rands memory buffer len c m, onStdinClient rands memory d.client buffer len = some (c, [m]) →
    m.msgType = MSG_CONNECTION_CLIENT → cstr m.srcPseudo = some p → Carries m code
  /-- Such a request is not refused because of a different code. -/
  agrees : ∀ e r, e.Requests p → Carries e.msg code → Step e d.server r →
    ∀ m ∈ r.sent, m.msg.msgType = MSG_ERROR → cstr m.msg.msg ≠ some ERROR_MSG_CON_DIFF_KEYS

theorem Consistent.remembered (h : Consistent d) (hs : Shared d p code) : Remembered d p code := by
  obtain ⟨accounts, hserves⟩ := h.serves
  refine ⟨hs, fun rands memory buffer len c m hrun htype hp => ?_, fun e r hreq hcode hstep m hm htype => ?_⟩
  · cases onStdinClient_files hrun with
    | @request m' p' code' _ _ _ _ hsent hasks =>
      obtain rfl : m = m' := (List.cons.inj hsent).1
      obtain rfl : p' = p := Option.some.inj (hasks.srcPseudo.symm.trans hp)
      obtain rfl : code' = code := Option.some.inj (hasks.file.symm.trans (hasks.kept _ _ hs.2))
      exact hasks.carries
    | text _ _ htext =>
      rw [htext m List.mem_cons_self] at htype
      cases htype
  · exact not_different hserves hreq hcode.1 hcode.2 hstep hs.1 hm htype

/-- The client removes no file of a shared code. -/
theorem Consistent.codeFile_received (h : Consistent d) (hs : Shared d p code) {msg : Message} {rest : List Message}
    {c : ClientState} {sent : List Message} (hdown : d.down = msg :: rest)
    (hrun : onMsgClient d.client msg = some (c, sent)) : codeFile c p = some code := by
  cases onMsgClient_files hrun with
  | @refused q hwait htype hq hcodes =>
    have hans : d.answers = msg :: rest.filter isAnswer := by
      rw [Dialog.answers, hdown, List.filter_cons, if_pos (isAnswer_iff.2 (Or.inl htype))]
    cases h.phase.answered hwait hans with
    | welcomed hm =>
      rw [htype] at hm
      cases hm
    | @refused p' code' _ _ _ _ hp hf hbar =>
      obtain rfl : p' = q := Option.some.inj (hp.symm.trans hq)
      have hpq : p ≠ p' := by
        rintro rfl
        obtain rfl : code' = code := Option.some.inj (hf.symm.trans hs.2)
        exact hbar.storedCode_ne hs.1
      exact (codeFile_update hcodes hpq).trans hs.2
  | accepted _ _ hcodes => exact (codeFile_congr hcodes p).trans hs.2
  | other hsame => exact (codeFile_congr hsame.codes p).trans hs.2

theorem Consistent.shared_next (h : Consistent d) (hs : Shared d p code) (hnext : d.Next Welcomed d') :
    Shared d' p code := by
  obtain ⟨accounts, hserves⟩ := h.serves
  cases hnext with
  | typed _ hrun =>
    refine ⟨hs.1, ?_⟩
    cases onStdinClient_files hrun with
    | request _ _ _ _ _ hasks => exact hasks.kept p code hs.2
    | text hsame => exact (codeFile_congr hsame.codes p).trans hs.2
  | received hdown hrun => exact ⟨hs.1, h.codeFile_received hs hdown hrun⟩
  | served hup _ hstep =>
    exact hs.keep ⟨rfl, rfl, rfl, rfl⟩ (hserves.keeps (h.built (hup ▸ List.mem_cons_self)) hstep)
  | others hbuilt _ hstep => exact hs.keep ⟨rfl, rfl, rfl, rfl⟩ (hserves.keeps hbuilt hstep)
  | restart => exact ⟨hs.1, hs.2⟩

/-- A connected client and the server have the same code for its pseudo. -/
theorem connected_shares (h : Dialog.Reached Welcomed d) (hconn : d.client.connected = true) :
    ∃ p code, cstr d.client.pseudo = some p ∧ Shared d p code := by
  obtain ⟨-, p, code, hp, -, hs⟩ := (reached_consistent h).phase.settled_of_connected hconn
  exact ⟨p, code, hp, hs⟩

/-! ### Runs of given moves -/

/-- The client reads a line with some seed or a message, the server handles a message, or the client starts again. -/
inductive Dialog.Move
  | enters (text : String) (seed : ℕ)
  | receives
  | serves (now : Int)
  | restarts

/-- The messages that the server fills start with zeros. -/
def zeroLocals : Locals := ⟨Message.zero, Message.zero, Message.zero, Message.zero⟩

def Dialog.Move.play (guard : Dialog → Clock → ℕ × Message → Prop) [∀ d clock x, Decidable (guard d clock x)]
    (d : Dialog) : Dialog.Move → Option Dialog
  | .enters text seed =>
    if (ascii text).length < MAX_MSG_LENGTH then
      (onStdinClient (fun _ => seed) (fun _ => Message.zero) d.client (ascii text ++ [0]) (ascii text).length).map
        fun r => { d with client := r.1, up := d.sending r.2 }
    else none
  | .receives =>
    match d.down with
    | [] => none
    | msg :: rest => (onMsgClient d.client msg).map fun r => { d with client := r.1, up := d.sending r.2, down := rest }
  | .serves now =>
    match d.up with
    | [] => none
    | x :: rest =>
      if guard d ⟨now, now⟩ x then
        (handle ⟨⟨now, now⟩, zeroLocals, 5, x.2⟩ d.server).map fun r => { d with
          server := r.state
          up := rest
          down := d.down ++ if x.1 = d.connection then repliesTo d.index r.sent else [] }
      else none
  | .restarts => some { d with
      client := initClientState d.client.codes
      connection := d.connection + 1
      down := [] }

/-- A client without code files, on the index `2` of the proxy, and a fresh server. -/
def newDialog : Dialog := ⟨initClientState fun _ => none, 0, 2, freshServer, [], []⟩

theorem newDialog_reached : Dialog.Reached guard newDialog := .start (fun _ => none) 2 freshServer_eq

theorem Dialog.Move.next [∀ d clock x, Decidable (guard d clock x)] {move : Dialog.Move}
    (h : move.play guard d = some d') : d.Next guard d' := by
  cases move with
  | enters text seed =>
    dsimp only [Dialog.Move.play] at h
    split at h
    · rename_i hlen
      obtain ⟨r, hr, rfl⟩ := Option.map_eq_some_iff.1 h
      exact .typed (.input hlen) hr
    · cases h
  | receives =>
    dsimp only [Dialog.Move.play] at h
    split at h
    · cases h
    · rename_i hdown
      obtain ⟨r, hr, rfl⟩ := Option.map_eq_some_iff.1 h
      exact .received hdown hr
  | serves now =>
    dsimp only [Dialog.Move.play] at h
    split at h
    · cases h
    · rename_i hup
      split at h
      · rename_i hguard
        obtain ⟨r, hr, rfl⟩ := Option.map_eq_some_iff.1 h
        exact .served hup hguard ⟨20, hr⟩
      · cases h
  | restarts =>
    obtain rfl := Option.some.inj h
    exact .restart d.index

def Dialog.play (guard : Dialog → Clock → ℕ × Message → Prop) [∀ d clock x, Decidable (guard d clock x)]
    (moves : List Dialog.Move) (d : Dialog) : Option Dialog :=
  moves.foldlM (Dialog.Move.play guard) d

theorem Dialog.play_later [∀ d clock x, Decidable (guard d clock x)] {moves : List Dialog.Move}
    (h : Dialog.play guard moves d = some d') : Relation.ReflTransGen (Dialog.Next guard) d d' :=
  Loop.foldlM_of_some (Relation.ReflTransGen (Dialog.Next guard) d)
    (fun _ _ _ hlater hmove => hlater.tail (Dialog.Move.next hmove)) moves .refl h

theorem Dialog.Reached.later (h : Dialog.Reached guard d) (hlater : Relation.ReflTransGen (Dialog.Next guard) d d') :
    Dialog.Reached guard d' := by
  induction hlater with
  | refl => exact h
  | tail _ hnext ih => exact ih.next hnext

theorem Dialog.Next.mono {guard' : Dialog → Clock → ℕ × Message → Prop} (h : d.Next guard d')
    (hguard : ∀ clock x, guard d clock x → guard' d clock x) : d.Next guard' d' := by
  cases h with
  | typed htyped hrun => exact .typed htyped hrun
  | received hdown hrun => exact .received hdown hrun
  | served hup hg hstep => exact .served hup (hguard _ _ hg) hstep
  | others hbuilt hindex hstep => exact .others hbuilt hindex hstep
  | restart index => exact .restart index

theorem Dialog.Reached.mono {guard' : Dialog → Clock → ℕ × Message → Prop} (h : Dialog.Reached guard d)
    (hguard : ∀ d clock x, guard d clock x → guard' d clock x) : Dialog.Reached guard' d := by
  induction h with
  | start codes index hs => exact .start codes index hs
  | next _ hnext ih => exact ih.next (hnext.mono (hguard _))

theorem later_mono {guard' : Dialog → Clock → ℕ × Message → Prop}
    (h : Relation.ReflTransGen (Dialog.Next guard) d d') (hguard : ∀ d clock x, guard d clock x → guard' d clock x) :
    Relation.ReflTransGen (Dialog.Next guard') d d' :=
  Relation.ReflTransGen.mono (fun d _ hnext => Dialog.Next.mono hnext (hguard d)) _ _ h

/-! ### The condition -/

/-- A code that the client and the server share is remembered, while the server welcomes the requests with it. -/
theorem code_remembered (h : Dialog.Reached Welcomed d) (hs : Shared d p code)
    (hlater : Relation.ReflTransGen (Dialog.Next Welcomed) d d') : Remembered d' p code := by
  have hboth : Consistent d' ∧ Shared d' p code := by
    induction hlater with
    | refl => exact ⟨reached_consistent h, hs⟩
    | tail _ hnext ih => exact ⟨ih.1.next hnext, ih.1.shared_next ih.2 hnext⟩
  exact hboth.1.remembered hboth.2

/-- A request with the shared code while the session is active: it is refused, and the client removes the file. -/
theorem Consistent.active_loses (h : Consistent d) (hs : Shared d p code)
    (hwait : d.client.waitingPseudoConfirmation = true) (hp : cstr d.client.pseudo = some p)
    (hlen : MIN_NAME_LENGTH ≤ p.length) {x : ℕ × Message} {rest : List (ℕ × Message)} (hup : d.up = x :: rest)
    (hdown : d.down = []) (hown : isRequest d.connection x = true) (hindex : x.2.proxyClientSocket = d.index)
    {c : Client} (hsession : session d.server p = some c) {clock : Clock}
    (hactive : ¬ TIMEOUT_INACTIVE ≤ clock.check - c.lastActivity) :
    ∃ d', Relation.ReflTransGen (Dialog.Next fun _ _ _ => True) d d' ∧ storedCode d'.server p = some code ∧
      codeFile d'.client p = none := by
  obtain ⟨accounts, hserves⟩ := h.serves
  have hreq : d.requests = x :: rest.filter (isRequest d.connection) := by
    rw [Dialog.requests, hup, List.filter_cons, if_pos hown]
  cases h.phase.requested hreq with
  | settled hw => exact absurd hwait (by rw [hw]; exact Bool.false_ne_true)
  | @asked p' code' _ _ _ _ hp' hsrc hcode hf =>
    obtain rfl : p' = p := Option.some.inj (hp'.symm.trans hp)
    obtain rfl : code' = code := Option.some.inj (hf.symm.trans hs.2)
    obtain ⟨hconn, htype⟩ := isRequest_iff.1 hown
    have hstep := active_refused (e := ⟨clock, zeroLocals, 5, x.2⟩) hserves ⟨htype, hsrc⟩ hlen hcode.1 hs.1 hsession
      hactive
    obtain ⟨err, herr⟩ : ∃ err, errorReply ERROR_MSG_STILL_ACTIVE_CLIENT x.2 zeroLocals.errorMsg = err := ⟨_, rfl⟩
    have htype : err.msgType = MSG_ERROR := herr ▸ errorReply_msgType _ _ _
    have hsocket : err.proxyClientSocket = d.index := by
      rw [← herr, errorReply]
      exact hindex
    have hid : err.msgId = -1 := by rw [← herr, errorReply, initEmptyMessage]
    dsimp only at hstep
    rw [herr] at hstep
    have hserved : d.Next (fun _ _ _ => True) { d with up := rest, down := [err] } := by
      have hnext : d.Next (fun _ _ _ => True) { d with
          up := rest
          down := d.down ++ if x.1 = d.connection then repliesTo d.index [⟨5, err⟩] else [] } :=
        .served hup trivial hstep
      rw [hdown, if_pos hconn, repliesTo_own hsocket, List.nil_append] at hnext
      exact hnext
    have hrun : onMsgClient d.client err = some ({ d.client with
        codes := Function.update d.client.codes (PATH_CLI_CODES ++ p') none
        pseudo := overlay d.client.pseudo [0]
        waitingPseudoConfirmation := false }, []) := by
      rw [onMsgClient, if_pos hwait, if_pos htype, onConnectionError, hp, hid]
      rfl
    refine ⟨_, (Relation.ReflTransGen.single hserved).tail (.received rfl hrun), hs.1, ?_⟩
    show (Function.update d.client.codes (PATH_CLI_CODES ++ p') none (PATH_CLI_CODES ++ p')).bind stringIn = none
    rw [Function.update_self]
    rfl

/-- The first request for a pseudo, whose code file does not exist. -/
def First (d : Dialog) (_ : Clock) (x : ℕ × Message) : Prop :=
  ∀ p ∈ cstr x.2.srcPseudo, d.server.codes (pathKey p) = none

instance (d : Dialog) (clock : Clock) (x : ℕ × Message) : Decidable (First d clock x) := by
  unfold First
  infer_instance

theorem First.welcomed {clock : Clock} {x : ℕ × Message} (h : First d clock x) : Welcomed d clock x := by
  intro _ _ p hp code _ hstored
  rw [storedCode, h p hp] at hstored
  cases hstored

/-- Alice asks for her pseudo, is accepted, and asks again after a restart. -/
private theorem alice_asks_again :
    ((Dialog.play First [.enters "alice" 0, .serves 0, .receives] newDialog).bind fun d =>
      (Dialog.play First [.restarts, .enters "alice" 1] d).map fun d' =>
        decide (d.client.connected = true ∧ cstr d.client.pseudo = some (ascii "alice") ∧
          d'.client.waitingPseudoConfirmation = true ∧ cstr d'.client.pseudo = some (ascii "alice") ∧
          d'.down.isEmpty = true ∧
          (d'.up.map fun x => (isRequest d'.connection x, decide (x.2.proxyClientSocket = d'.index))) = [(true, true)] ∧
          (session d'.server (ascii "alice")).map Client.lastActivity = some 0)) = some true := by
  decide +kernel

/-- What the run tells of both states. -/
private theorem alice_shares :
    ∃ d d' code, Dialog.Reached First d ∧ d.client.connected = true ∧ Shared d (ascii "alice") code ∧
      Relation.ReflTransGen (Dialog.Next First) d d' ∧ d'.client.waitingPseudoConfirmation = true ∧
      cstr d'.client.pseudo = some (ascii "alice") ∧ d'.down = [] ∧
      (∃ x, d'.up = [x] ∧ isRequest d'.connection x = true ∧ x.2.proxyClientSocket = d'.index) ∧
      ∃ c, session d'.server (ascii "alice") = some c ∧ c.lastActivity = 0 := by
  obtain ⟨d, hd, hasks⟩ := Option.bind_eq_some_iff.1 alice_asks_again
  obtain ⟨d', hd', heq⟩ := Option.map_eq_some_iff.1 hasks
  obtain ⟨hconn, hp, hwait, hp', hdown, hup, hsession⟩ := of_decide_eq_true heq
  obtain ⟨x, hx, hrequest⟩ := List.map_eq_singleton_iff.1 hup
  obtain ⟨hown, hindex⟩ := Prod.mk.inj hrequest
  have hreached := newDialog_reached.later (Dialog.play_later hd)
  obtain ⟨p, code, hpseudo, hs⟩ := connected_shares (hreached.mono fun _ _ _ => First.welcomed) hconn
  obtain rfl := Option.some.inj (hp.symm.trans hpseudo)
  exact ⟨d, d', code, hreached, hconn, hs, Dialog.play_later hd', hwait, hp', List.isEmpty_iff.1 hdown,
    ⟨x, hx, hown, of_decide_eq_true hindex⟩, Option.map_eq_some_iff.1 hsession⟩

theorem code_remembered_alice :
    ∃ d d' code, Dialog.Reached Welcomed d ∧ Shared d (ascii "alice") code ∧
      Relation.ReflTransGen (Dialog.Next Welcomed) d d' ∧ d'.client.waitingPseudoConfirmation = true ∧
        Remembered d' (ascii "alice") code := by
  obtain ⟨d, d', code, hreached, -, hs, hlater, hwait, -⟩ := alice_shares
  have hreached := hreached.mono fun _ _ _ => First.welcomed
  have hlater := later_mono hlater fun _ _ _ => First.welcomed
  exact ⟨d, d', code, hreached, hs, hlater, hwait, code_remembered hreached hs hlater⟩

/-- Alice asks for her pseudo while her session is active, and loses her code. -/
theorem code_lost :
    ∃ d d' code, Dialog.Reached (fun _ _ _ => True) d ∧ d.client.connected = true ∧ Shared d (ascii "alice") code ∧
      Relation.ReflTransGen (Dialog.Next fun _ _ _ => True) d d' ∧
        storedCode d'.server (ascii "alice") = some code ∧ codeFile d'.client (ascii "alice") = none := by
  obtain ⟨d, d', code, hreached, hconn, hs, hlater, hwait, hp, hdown, ⟨x, hup, hown, hindex⟩, c, hsession,
    hactivity⟩ := alice_shares
  have hwelcome := later_mono hlater fun _ _ _ => First.welcomed
  have hconsistent := reached_consistent ((hreached.mono fun _ _ _ => First.welcomed).later hwelcome)
  have hshared := (code_remembered (hreached.mono fun _ _ _ => First.welcomed) hs hwelcome).shared
  have hactive : ¬ TIMEOUT_INACTIVE ≤ (⟨5, 5⟩ : Clock).check - c.lastActivity := by
    rw [hactivity]
    decide
  obtain ⟨d'', hlost, hstored, hfile⟩ := hconsistent.active_loses hshared hwait hp (by decide) hup hdown hown hindex
    hsession hactive
  exact ⟨d, d'', code, hreached.mono fun _ _ _ _ => trivial, hconn, hs,
    (later_mono hlater fun _ _ _ _ => trivial).trans hlost, hstored, hfile⟩

end NyanChat
