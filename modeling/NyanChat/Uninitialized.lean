import NyanChat.ServerRuns
import NyanChat.Client

/-!
# Uninitialized memory

`init_empty_message` leaves the text, the control bytes and the error marks of a message as they are, and so does a
client with the slots that `realloc` adds.  Each message that the server sends is a local message, and each text from
an added slot is that slot, so both carry what the memory held before (`uninitialized_memory_sent_iff`).
-/

namespace NyanChat

/-! ### The server -/

/-- A call of `on_msg_received`: what the system answers and what was received. -/
structure ServerInput where
  fuel : ℕ
  clock : Clock
  sock : Int
  msg : Message

/-- The messages that the server sends, up to a call that does not come back.  `locals k` is what the local messages
of the `k`-th call hold before they are initialized. -/
def serverSent (S : Syndromes) : List ServerInput → (ℕ → Locals) → ServerState → List Sent
  | [], _, _ => []
  | x :: rest, locals, s =>
    match onMsgReceived S x.fuel x.clock (locals 0) x.sock x.msg s with
    | none => []
    | some r => r.sent ++ serverSent S rest (fun k => locals (k + 1)) r.state

/-- A message that the server does not answer. -/
def Silent (msg : Message) : Prop :=
  (∃ p, cstr msg.srcPseudo = some p ∧ p.length < MIN_NAME_LENGTH) ∨
    msg.msgType ≠ MSG_CONNECTION_CLIENT ∧ msg.msgType ≠ MSG_STD_CLIENT_SERVER

/-- The server answers none of the messages that it handles. -/
def Quiet (S : Syndromes) : List ServerInput → ServerState → Prop
  | [], _ => True
  | x :: rest, s => ∀ locals r, onMsgReceived S x.fuel x.clock locals x.sock x.msg s = some r →
      Silent x.msg ∧ Quiet S rest r.state

/-- The message has the control bytes and the error marks of a local message. -/
def FromLocals (locals : Locals) (m : Message) : Prop :=
  ∃ l ∈ [locals.errorMsg, locals.connectedMsg, locals.ack, locals.newMsg], m.control = l.control ∧ m.error = l.error

variable {S : Syndromes} {fuel : ℕ} {clock : Clock} {locals : Locals} {sock : Int} {msg : Message} {s s' : ServerState}
  {pseudo : Key} {sent : List Sent}

private theorem onConnection_locals (h : onConnection fuel clock locals sock pseudo msg s = some (s', sent))
    (locals' : Locals) : ∃ x, onConnection fuel clock locals' sock pseudo msg s = some (s', [x]) ∧
      FromLocals locals' x.msg := by
  obtain ⟨⟨s₁, cli⟩, hfind, h⟩ := Option.bind_eq_some_iff.1 h
  obtain ⟨text, hrefusal, h⟩ := Option.bind_eq_some_iff.1 h
  simp only [onConnection, hfind, hrefusal, Option.bind_eq_bind, Option.bind_some]
  cases text with
  | some text =>
    cases h
    exact ⟨_, rfl, locals'.errorMsg, by simp, rfl, rfl⟩
  | none =>
    obtain ⟨taken, htake, h⟩ := Option.bind_eq_some_iff.1 h
    simp only [htake, Option.bind_some]
    cases taken with
    | none =>
      cases h
      exact ⟨_, rfl, locals'.errorMsg, by simp, rfl, rfl⟩
    | some taken =>
      obtain ⟨s₂, i, c⟩ := taken
      obtain ⟨s₃, hstore, h⟩ := Option.bind_eq_some_iff.1 h
      cases h
      simp only [hstore, Option.bind_some]
      exact ⟨_, rfl, locals'.connectedMsg, by simp, rfl, rfl⟩

private theorem broadcast_locals {proxySock : Int} {newMsg : Message}
    (h : broadcastMsgToAllConnectedClients s proxySock msg newMsg = some sent) (newMsg' : Message) :
    ∃ sent', broadcastMsgToAllConnectedClients s proxySock msg newMsg' = some sent' ∧
      ∀ x ∈ sent', x.msg.control = newMsg'.control ∧ x.msg.error = newMsg'.error := by
  obtain ⟨copy, hcopy, -⟩ := Option.map_eq_some_iff.1 h
  obtain ⟨text, htext, hcopy⟩ := Option.bind_eq_some_iff.1 hcopy
  obtain ⟨p, hp, -⟩ := Option.bind_eq_some_iff.1 hcopy
  rw [broadcastMsgToAllConnectedClients, broadcastCopy, htext, Option.bind_eq_bind, Option.bind_some, hp]
  refine ⟨_, rfl, fun x hx => ?_⟩
  obtain ⟨c, -, hx⟩ := List.mem_filterMap.1 hx
  cases c with
  | none => cases hx
  | some c =>
    rw [copyFor] at hx
    split at hx
    · cases hx
      exact ⟨rfl, rfl⟩
    · cases hx

private theorem onText_locals {r : Handled} (h : onText S fuel locals sock pseudo msg s = some r) (locals' : Locals) :
    ∃ r', onText S fuel locals' sock pseudo msg s = some r' ∧ r'.state = r.state ∧ r'.sent ≠ [] ∧
      ∀ x ∈ r'.sent, FromLocals locals' x.msg := by
  obtain ⟨⟨s₁, cli⟩, hfind, h⟩ := Option.bind_eq_some_iff.1 h
  obtain ⟨⟨fixed, rc⟩, hcorrect, h⟩ := Option.bind_eq_some_iff.1 h
  simp only [onText, hfind, hcorrect, Option.bind_eq_bind, Option.bind_some]
  have hack : ∀ x : Sent, x.msg.control = locals'.ack.control → x.msg.error = locals'.ack.error →
      FromLocals locals' x.msg := fun x hc he => ⟨locals'.ack, by simp, hc, he⟩
  dsimp only at h
  split at h
  · rename_i haccepted
    rw [if_pos haccepted]
    split at h
    · rename_i hflag
      obtain ⟨copies, hcopies, h⟩ := Option.bind_eq_some_iff.1 h
      cases h
      obtain ⟨copies', hcopies', hfrom⟩ := broadcast_locals hcopies locals'.newMsg
      rw [if_pos hflag, hcopies']
      refine ⟨_, rfl, rfl, List.cons_ne_nil _ _, fun x hx => ?_⟩
      rcases List.mem_cons.1 hx with rfl | hx
      · exact hack _ rfl rfl
      · exact ⟨locals'.newMsg, by simp, hfrom x hx⟩
    · rename_i hflag
      cases h
      rw [if_neg hflag]
      refine ⟨_, rfl, rfl, List.cons_ne_nil _ _, fun x hx => ?_⟩
      obtain rfl := List.mem_singleton.1 hx
      exact hack _ rfl rfl
  · rename_i hrefused
    cases h
    rw [if_neg hrefused]
    refine ⟨_, rfl, rfl, List.cons_ne_nil _ _, fun x hx => ?_⟩
    obtain rfl := List.mem_singleton.1 hx
    exact hack _ rfl rfl

/-- The local messages decide neither whether a call comes back nor the state that it leaves, and every message that
is sent shows one of them. -/
theorem onMsgReceived_locals {r : Handled} (h : onMsgReceived S fuel clock locals sock msg s = some r)
    (locals' : Locals) : ∃ r', onMsgReceived S fuel clock locals' sock msg s = some r' ∧ r'.state = r.state ∧
      (r'.sent = [] ↔ Silent msg) ∧ ∀ x ∈ r'.sent, FromLocals locals' x.msg := by
  have hnone : ∀ x ∈ ([] : List Sent), FromLocals locals' x.msg := fun x hx => absurd hx List.not_mem_nil
  cases onMsgReceived_branch h with
  | noPseudo hp hshort =>
    exact ⟨_, by rw [onMsgReceived, hp]; exact if_pos hshort, rfl, iff_of_true rfl (Or.inl ⟨_, hp, hshort⟩), hnone⟩
  | connection hp hvalid htype hconn =>
    obtain ⟨x, hx, hfrom⟩ := onConnection_locals hconn locals'
    have hlong := Nat.not_lt.2 hvalid.1
    refine ⟨⟨_, [x], msg⟩, ?_, rfl, iff_of_false (List.cons_ne_nil _ _) ?_, fun y hy => ?_⟩
    · rw [onMsgReceived, hp, Option.bind_eq_bind, Option.bind_some, if_neg hlong, if_pos htype, hx]
      rfl
    · rintro (⟨p, hp', hshort⟩ | ⟨hno, -⟩)
      · obtain rfl := Option.some.inj (hp'.symm.trans hp)
        exact hlong hshort
      · exact hno htype
    · obtain rfl := List.mem_singleton.1 hy
      exact hfrom
  | text hp hvalid htype htext =>
    obtain ⟨r', hr', hstate, hsent, hfrom⟩ := onText_locals htext locals'
    have hlong := Nat.not_lt.2 hvalid.1
    have hno : msg.msgType ≠ MSG_CONNECTION_CLIENT := by
      rw [htype]
      decide
    refine ⟨r', ?_, hstate, iff_of_false hsent ?_, hfrom⟩
    · rw [onMsgReceived, hp, Option.bind_eq_bind, Option.bind_some, if_neg hlong, if_neg hno, if_pos htype, hr']
    · rintro (⟨p, hp', hshort⟩ | ⟨-, hno'⟩)
      · obtain rfl := Option.some.inj (hp'.symm.trans hp)
        exact hlong hshort
      · exact hno' htype
  | other hp hvalid hno hno' =>
    refine ⟨_, ?_, rfl, iff_of_true rfl (Or.inr ⟨hno, hno'⟩), hnone⟩
    rw [onMsgReceived, hp, Option.bind_eq_bind, Option.bind_some, if_neg (Nat.not_lt.2 hvalid.1), if_neg hno,
      if_neg hno']
    rfl

/-- A message of zero bytes, with the control bytes `b`. -/
def filledMessage (b : UInt8) : Message := { Message.zero with control := Vector.replicate _ b }

def filledLocals (b : UInt8) : Locals := ⟨filledMessage b, filledMessage b, filledMessage b, filledMessage b⟩

theorem FromLocals.control {b : UInt8} {m : Message} (h : FromLocals (filledLocals b) m) :
    m.control = Vector.replicate _ b := by
  obtain ⟨l, hl, hcontrol, -⟩ := h
  simp only [filledLocals, List.mem_cons, List.not_mem_nil, or_false, or_self] at hl
  rw [hcontrol, hl]
  rfl

theorem replicate_ne {a b : UInt8} (h : a ≠ b) :
    (Vector.replicate MAX_MSG_LENGTH a) ≠ Vector.replicate MAX_MSG_LENGTH b := by
  intro heq
  have hget := congrArg (fun v : Vector UInt8 MAX_MSG_LENGTH => v[0]) heq
  simp only [Vector.getElem_replicate] at hget
  exact h hget

theorem serverSent_quiet {inputs : List ServerInput} (h : Quiet S inputs s) (locals : ℕ → Locals) :
    serverSent S inputs locals s = [] := by
  induction inputs generalizing s locals with
  | nil => rfl
  | cons x rest ih =>
    rw [serverSent]
    cases hrun : onMsgReceived S x.fuel x.clock (locals 0) x.sock x.msg s with
    | none => rfl
    | some r =>
      obtain ⟨hsilent, hrest⟩ := h _ _ hrun
      obtain ⟨r', hr', -, hsent, -⟩ := onMsgReceived_locals hrun (locals 0)
      obtain rfl := Option.some.inj (hr'.symm.trans hrun)
      dsimp only
      rw [hsent.2 hsilent, ih hrest]
      rfl

/-- The first answer shows the memory. -/
theorem serverSent_not_quiet {inputs : List ServerInput} (h : ¬ Quiet S inputs s) (b : UInt8) :
    ∃ x rest, serverSent S inputs (fun _ => filledLocals b) s = x :: rest ∧
      x.msg.control = Vector.replicate _ b := by
  induction inputs generalizing s with
  | nil => exact absurd trivial h
  | cons x rest ih =>
    simp only [Quiet, not_forall] at h
    obtain ⟨locals, r, hrun, hnot⟩ := h
    obtain ⟨r', hr', hstate, hsent, hfrom⟩ := onMsgReceived_locals hrun (filledLocals b)
    rw [serverSent, hr']
    dsimp only
    by_cases hsilent : Silent x.msg
    · rw [hsent.2 hsilent, hstate, List.nil_append]
      exact ih fun hquiet => hnot ⟨hsilent, hquiet⟩
    · obtain ⟨y, ys, hy⟩ := List.exists_cons_of_ne_nil (mt hsent.1 hsilent)
      rw [hy] at hfrom ⊢
      exact ⟨y, _, List.cons_append, (hfrom y List.mem_cons_self).control⟩

theorem serverSent_iff (inputs : List ServerInput) :
    (∀ locals locals', serverSent S inputs locals s = serverSent S inputs locals' s) ↔ Quiet S inputs s := by
  constructor
  · intro hsame
    by_contra hloud
    obtain ⟨x, rest, hx, hcontrol⟩ := serverSent_not_quiet hloud 0
    obtain ⟨x', rest', hx', hcontrol'⟩ := serverSent_not_quiet hloud 1
    obtain ⟨rfl, -⟩ := List.cons.inj (hx.symm.trans ((hsame _ _).trans hx'))
    exact replicate_ne (by decide) (hcontrol.symm.trans hcontrol')
  · intro hquiet locals locals'
    rw [serverSent_quiet hquiet, serverSent_quiet hquiet]

/-! ### The client -/

/-- What a client handles: a line with its length, or a message. -/
inductive ClientInput
  | line (rands : ℕ → ℕ) (buffer : List UInt8) (len : ℕ)
  | message (msg : Message)

def clientStep (memory : ℕ → Message) (c : ClientState) : ClientInput → Option (ClientState × List Message)
  | .line rands buffer len => onStdinClient rands memory c buffer len
  | .message msg => onMsgClient c msg

/-- The messages that a client sends, up to a call that does not come back.  `memory k` is what the slots hold that
`realloc` adds in the `k`-th call. -/
def clientSent : List ClientInput → (ℕ → ℕ → Message) → ClientState → List Message
  | [], _, _ => []
  | x :: rest, memory, c =>
    match clientStep (memory 0) c x with
    | none => []
    | some r => r.2 ++ clientSent rest (fun k => memory (k + 1)) r.1

/-- The client sends a text while all its slots are in use. -/
def Grows (c : ClientState) : ClientInput → Prop
  | .line _ _ _ => cstr c.pseudo ≠ some [] ∧ c.connected = true ∧ c.nbMsgWaitingAck = c.msgWaitingAck.length
  | .message _ => False

/-- No text is sent while all slots are in use. -/
def NeverGrows : List ClientInput → ClientState → Prop
  | [], _ => True
  | x :: rest, c => ∀ memory r, clientStep memory c x = some r → ¬ Grows c x ∧ NeverGrows rest r.1

variable {c : ClientState} {memory : ℕ → Message}

theorem clientStep_memory {x : ClientInput} (h : ¬ Grows c x) (memory memory' : ℕ → Message) :
    clientStep memory c x = clientStep memory' c x := by
  cases x with
  | message msg => rfl
  | line rands buffer len =>
    rw [clientStep, clientStep, onStdinClient, onStdinClient]
    cases hp : cstr c.pseudo with
    | none => rfl
    | some p =>
      cases p with
      | nil => rfl
      | cons a p =>
        dsimp only
        by_cases hconn : c.connected = true
        · have hroom : ¬ c.nbMsgWaitingAck = c.msgWaitingAck.length := fun hfull =>
            h ⟨by rw [hp]; exact fun heq => List.cons_ne_nil _ _ (Option.some.inj heq), hconn, hfull⟩
          rw [if_pos hconn, if_pos hconn, clientSendMessage, clientSendMessage, findNextMsgId, findNextMsgId,
            if_neg hroom, if_neg hroom]
        · rw [if_neg hconn, if_neg hconn]

private theorem strcpy_any {n : ℕ} {a b : Vector UInt8 n} {t : List UInt8} (h : strcpy a t = some b)
    (a' : Vector UInt8 n) : strcpy a' t = some (overlay a' (t ++ [0])) := by
  rw [strcpy] at h ⊢
  split at h
  · rename_i hlen
    rw [if_pos hlen]
  · cases h

/-- A text can be written into every slot or into none, and leaves the control bytes. -/
private theorem textSlot_any {c₁ : ClientState} (c₂ : ClientState) {id len : ℕ} {slot m : Message} {buffer : List UInt8}
    (h : textSlot c₁ id slot buffer len = some m) (hpseudo : c₂.pseudo = c₁.pseudo)
    (hdest : c₂.destination = c₁.destination) (slot' : Message) :
    ∃ m', textSlot c₂ id slot' buffer len = some m' ∧ m'.control = slot'.control := by
  obtain ⟨p, hp, h⟩ := Option.bind_eq_some_iff.1 h
  obtain ⟨srcPseudo, hsrc, h⟩ := Option.bind_eq_some_iff.1 h
  obtain ⟨d, hd, h⟩ := Option.bind_eq_some_iff.1 h
  obtain ⟨dst, hdst, h⟩ := Option.bind_eq_some_iff.1 h
  obtain ⟨text, htext, h⟩ := Option.bind_eq_some_iff.1 h
  obtain ⟨msg, hmsg, -⟩ := Option.bind_eq_some_iff.1 h
  simp only [textSlot, hpseudo, hdest, hp, hd, htext, strcpy_any hsrc, strcpy_any hdst, strcpy_any hmsg,
    Option.bind_eq_bind, Option.bind_some]
  exact ⟨_, rfl, rfl⟩

/-- With all slots in use the first added one is taken. -/
private theorem findNextMsgId_grows (hfull : c.nbMsgWaitingAck = c.msgWaitingAck.length)
    (hpos : c.msgWaitingAck.length ≠ 0) (memory : ℕ → Message) :
    findNextMsgId memory c = some (growWaiting memory c, c.msgWaitingAck.length) ∧
      (growWaiting memory c).msgWaitingAck[c.msgWaitingAck.length]? = some { memory 0 with msgType := MSG_NULL } := by
  obtain ⟨n, hn⟩ := Nat.exists_eq_succ_of_ne_zero hpos
  have hnew : (List.range c.msgWaitingAck.length).map (fun i => { memory i with msgType := MSG_NULL }) =
      { memory 0 with msgType := MSG_NULL } ::
        (List.range n).map fun i => { memory (i + 1) with msgType := MSG_NULL } := by
    rw [hn, List.range_succ_eq_map, List.map_cons, List.map_map]
    rfl
  constructor
  · rw [findNextMsgId, if_pos hfull]
    dsimp only
    rw [growWaiting]
    dsimp only
    rw [List.drop_left, hnew, List.findIdx?_cons, decide_eq_true rfl, if_pos rfl]
    rfl
  · rw [growWaiting]
    dsimp only
    rw [hnew, List.getElem?_append_right (Nat.le_refl _), Nat.sub_self, List.getElem?_cons_zero]

theorem clientStep_grows {x : ClientInput} {r : ClientState × List Message} (h : clientStep memory c x = some r)
    (hgrows : Grows c x) (memory' : ℕ → Message) :
    ∃ c' m, clientStep memory' c x = some (c', [m]) ∧ m.control = (memory' 0).control := by
  cases x with
  | message msg => exact absurd hgrows id
  | line rands buffer len =>
    obtain ⟨hpseudo, hconn, hfull⟩ := hgrows
    rw [clientStep, onStdinClient] at h ⊢
    cases hp : cstr c.pseudo with
    | none =>
      rw [hp] at h
      cases h
    | some p =>
      cases p with
      | nil => exact absurd hp hpseudo
      | cons a p =>
        rw [hp] at h
        dsimp only at h ⊢
        rw [if_pos hconn] at h ⊢
        obtain ⟨⟨c₁, id⟩, hfind, h⟩ := Option.bind_eq_some_iff.1 h
        have hpos : c.msgWaitingAck.length ≠ 0 := by
          intro hzero
          rw [findNextMsgId, if_pos hfull] at hfind
          simp [growWaiting, List.length_eq_zero_iff.1 hzero] at hfind
        obtain ⟨hid, hslot⟩ := findNextMsgId_grows hfull hpos memory
        obtain ⟨rfl, rfl⟩ := Prod.mk.inj (Option.some.inj (hid.symm.trans hfind))
        obtain ⟨slot, -, h⟩ := Option.bind_eq_some_iff.1 h
        obtain ⟨m, hm, -⟩ := Option.bind_eq_some_iff.1 h
        obtain ⟨hid', hslot'⟩ := findNextMsgId_grows hfull hpos memory'
        obtain ⟨m', hm', hcontrol⟩ := textSlot_any (growWaiting memory' c) hm rfl rfl
          { memory' 0 with msgType := MSG_NULL }
        simp only [clientSendMessage, hid', hslot', hm', Option.bind_eq_bind, Option.bind_some]
        exact ⟨_, m', rfl, hcontrol⟩

theorem clientSent_neverGrows {inputs : List ClientInput} (h : NeverGrows inputs c)
    (memory memory' : ℕ → ℕ → Message) : clientSent inputs memory c = clientSent inputs memory' c := by
  induction inputs generalizing c memory memory' with
  | nil => rfl
  | cons x rest ih =>
    rw [clientSent, clientSent]
    cases hstep : clientStep (memory 0) c x with
    | none =>
      have hsame : clientStep (memory' 0) c x = none := by
        by_contra hsome
        obtain ⟨r, hr⟩ := Option.ne_none_iff_exists'.1 hsome
        rw [clientStep_memory (h _ _ hr).1 _ (memory 0), hstep] at hr
        cases hr
      rw [hsame]
    | some r =>
      obtain ⟨hno, hrest⟩ := h _ _ hstep
      rw [← clientStep_memory hno (memory 0) (memory' 0), hstep]
      dsimp only
      rw [ih hrest]

/-- Behind the same messages comes the text from the added slot. -/
theorem clientSent_grows {inputs : List ClientInput} (h : ¬ NeverGrows inputs c) :
    ∃ before, ∀ b, ∃ m rest, clientSent inputs (fun _ _ => filledMessage b) c = before ++ m :: rest ∧
      m.control = Vector.replicate _ b := by
  induction inputs generalizing c with
  | nil => exact absurd trivial h
  | cons x rest ih =>
    simp only [NeverGrows, not_forall] at h
    obtain ⟨memory, r, hstep, hnot⟩ := h
    by_cases hgrows : Grows c x
    · refine ⟨[], fun b => ?_⟩
      obtain ⟨c', m, hm, hcontrol⟩ := clientStep_grows hstep hgrows fun _ => filledMessage b
      rw [clientSent, hm]
      exact ⟨m, _, rfl, hcontrol⟩
    · obtain ⟨before, hbefore⟩ := ih fun hrest => hnot ⟨hgrows, hrest⟩
      refine ⟨r.2 ++ before, fun b => ?_⟩
      obtain ⟨m, tail, htail, hcontrol⟩ := hbefore b
      rw [clientSent, clientStep_memory hgrows _ memory, hstep]
      dsimp only
      exact ⟨m, tail, by rw [htail, List.append_assoc], hcontrol⟩

theorem clientSent_iff (inputs : List ClientInput) :
    (∀ memory memory', clientSent inputs memory c = clientSent inputs memory' c) ↔ NeverGrows inputs c := by
  constructor
  · intro hsame
    by_contra hgrows
    obtain ⟨before, hbefore⟩ := clientSent_grows hgrows
    obtain ⟨m, rest, hm, hcontrol⟩ := hbefore 0
    obtain ⟨m', rest', hm', hcontrol'⟩ := hbefore 1
    obtain ⟨rfl, -⟩ := List.cons.inj (List.append_cancel_left (hm.symm.trans ((hsame _ _).trans hm')))
    exact replicate_ne (by decide) (hcontrol.symm.trans hcontrol')
  · exact fun h memory memory' => clientSent_neverGrows h memory memory'

/-- What the server sends shows no uninitialized memory exactly when it sends nothing, and what a client sends shows
none exactly when it sends no text while all its slots are in use. -/
theorem uninitialized_memory_sent_iff (S : Syndromes) (s : ServerState) (c : ClientState) :
    (∀ inputs, (∀ locals locals', serverSent S inputs locals s = serverSent S inputs locals' s) ↔ Quiet S inputs s) ∧
      ∀ inputs, (∀ memory memory', clientSent inputs memory c = clientSent inputs memory' c) ↔ NeverGrows inputs c :=
  ⟨serverSent_iff, clientSent_iff⟩

/-- The request of a client to connect. -/
def aliceInput : ServerInput := ⟨20, ⟨0, 0⟩, 5, connectionRequest "alice" "secret" 2⟩

/-- The reply to a connection request has the control bytes that the memory held. -/
theorem reply_shows_memory : ¬ ∀ locals locals',
    serverSent zeroSyndromes [aliceInput] locals freshServer =
      serverSent zeroSyndromes [aliceInput] locals' freshServer := by
  have hcontrol : ∀ b, (b = 0 ∨ b = 1) → (serverSent zeroSyndromes [aliceInput] (fun _ => filledLocals b)
      freshServer).map (fun x => x.msg.control[0]) = [b] := by
    rintro b (rfl | rfl)
    · decide +kernel
    · decide +kernel
  intro hsame
  have h0 := hcontrol 0 (Or.inl rfl)
  rw [hsame _ fun _ => filledLocals 1, hcontrol 1 (Or.inr rfl)] at h0
  exact absurd h0 (by decide)

end NyanChat
