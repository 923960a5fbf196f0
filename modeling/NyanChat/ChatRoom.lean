import NyanChat.AnsiRuns
import NyanChat.Chat
import NyanChat.Forwarding

/-!
# The chat room

The whole system: clients in their terminals, the proxy and the server, with the messages on the way between them in
their order.  The clients type, draw and read whenever they like, and nobody leaves.  What the server does with a
message is told by `serve_served`, and what the proxy hands on to a client by `Placed.delivered`.
-/

namespace NyanChat

namespace Network

variable {net net' : Network} {X Y : ℕ} {msg : Message} {rest : List (ℕ × Message)}

/-! ### The part of one connection -/

/-- What is tagged with a connection. -/
def toward {α : Type*} (Y : ℕ) (l : List (ℕ × α)) : List α := l.filterMap fun x => if x.1 = Y then some x.2 else none

section

variable {α : Type*} {l l' : List (ℕ × α)} {a : α}

@[simp] theorem toward_nil : toward Y ([] : List (ℕ × α)) = [] := rfl

@[simp] theorem toward_append : toward Y (l ++ l') = toward Y l ++ toward Y l' := List.filterMap_append

@[simp] theorem toward_cons_self : toward Y ((Y, a) :: l) = a :: toward Y l := by
  simp [toward]

theorem toward_cons_of_ne (h : X ≠ Y) : toward Y ((X, a) :: l) = toward Y l := by
  simp [toward, h]

theorem mem_toward : a ∈ toward Y l ↔ (Y, a) ∈ l := by
  simp [toward]

end

theorem underway_eq (Y : ℕ) (l : List (ℕ × Message)) : underway Y l = (toward Y l).filterMap copyText := by
  rw [underway, toward, List.filterMap_filterMap]
  refine List.filterMap_congr fun x _ => ?_
  by_cases hx : x.1 = Y
  · rw [if_pos hx, if_pos hx]
    rfl
  · rw [if_neg hx, if_neg hx]
    rfl

/-- The messages that a step hands on to clients. -/
def brings (net : Network) : Action → List (ℕ × Message)
  | .deliver =>
    match net.toProxy with
    | [] => []
    | (_, msg) :: _ => ((onServerReceived net.conClients msg).getD []).filterMap fun m =>
        (net.owner m.sock).map fun Y => (Y, m.msg)
  | _ => []

theorem heardBy_hears (net : Network) (a : Action) (Y : ℕ) :
    heardBy Y (net.hears a) = (toward Y (net.brings a)).filterMap copyText := by
  cases a with
  | deliver =>
    rw [hears, brings]
    cases net.toProxy with
    | nil => rfl
    | cons x rest =>
      dsimp only
      rw [heardBy, toward, List.filterMap_filterMap, List.filterMap_filterMap, List.filterMap_filterMap]
      refine List.filterMap_congr fun m _ => ?_
      cases net.owner m.sock with
      | none => rfl
      | some Z =>
        simp only [Option.bind_some, Option.map_some]
        by_cases hZ : Z = Y
        · cases hcopy : copyText m.msg <;> simp [hZ, hcopy]
        · cases hcopy : copyText m.msg <;> simp [hZ]
  | _ => rfl

/-! ### The connections of the sessions -/

/-- The connection of the session at an index of the table of clients. -/
def holder (net : Network) (i : Fin NB_MAX_CONNECTED_CLIENTS) : Option ℕ :=
  if (net.server.clients.get i).any Client.connected then some (net.registrant i) else none

theorem mem_members : Y ∈ net.members ↔ ∃ i, net.holder i = some Y := by
  simp [members, holder]

/-- A connection without session. -/
def Apart (net : Network) (Y : ℕ) : Prop := ∀ i, net.holder i ≠ some Y

/-- Each connection has one session at most. -/
def OneSession (net : Network) : Prop := ∀ i j Y, net.holder i = some Y → net.holder j = some Y → i = j

theorem OneSession.nodup_members (h : OneSession net) : net.members.Nodup :=
  (List.nodup_finRange _).filterMap fun i j Y hi hj => h i j Y hi hj

/-! ### The answers of the server -/

/-- A copy of a text, for the default channel. -/
structure Copies (msg copy : Message) : Prop where
  msgType : copy.msgType = MSG_SERVER_CLIENT
  dstFlag : copy.dstFlag = MSG_FLAG_DEFAULT_CHANNEL
  text : cstr copy.msg = cstr msg.msg
  defined : cstr msg.msg ≠ none
  srcPseudo : cstr copy.srcPseudo = cstr msg.srcPseudo

/-- What the server does with a message of the connection `X`, with the messages that it sends. -/
inductive Served (net net' : Network) (X : ℕ) (msg : Message) : List (ℕ × Message) → Prop
  | silent : (msg.msgType = MSG_STD_CLIENT_SERVER → ∀ p, cstr msg.srcPseudo = some p → p.length < MIN_NAME_LENGTH) →
      net'.holder = net.holder → Served net net' X msg []
  | refused {m : Message} : msg.msgType = MSG_CONNECTION_CLIENT → m.msgType = MSG_ERROR → m.msgLength = 0 →
      net'.holder = net.holder → Served net net' X msg [(X, m)]
  | welcomed {m : Message} {p : Key} {i : Fin NB_MAX_CONNECTED_CLIENTS} : msg.msgType = MSG_CONNECTION_CLIENT →
      cstr msg.srcPseudo = some p → MIN_NAME_LENGTH ≤ p.length → m.msgType = MSG_WELL_CONNECTED →
      net'.holder i = some X → (∀ j ≠ i, ∀ Y, net'.holder j = some Y → net.holder j = some Y) →
      Served net net' X msg [(X, m)]
  | relayed {ack : Message} {copies : List (ℕ × Message)} : msg.msgType = MSG_STD_CLIENT_SERVER →
      (msg.dstFlag = MSG_FLAG_DEFAULT_CHANNEL → cstr msg.msg ≠ none) → ack.msgType = MSG_ACK_POS →
      (∀ x ∈ copies, x.1 ∈ net.members ∧ Copies msg x.2) → net'.holder = net.holder →
      Served net net' X msg ((X, ack) :: copies)

/-- The copies among the answers to a message are copies of it. -/
theorem Served.copies {new : List (ℕ × Message)} (h : Served net net' X msg new) {m : Message} (hm : (Y, m) ∈ new)
    (htype : m.msgType = MSG_SERVER_CLIENT) : msg.msgType = MSG_STD_CLIENT_SERVER ∧ Copies msg m := by
  cases h with
  | silent => cases hm
  | refused _ herror =>
    obtain ⟨-, rfl⟩ := Prod.mk.inj (List.mem_singleton.1 hm)
    exact absurd (herror.symm.trans htype) (by decide)
  | welcomed _ _ _ hwell =>
    obtain ⟨-, rfl⟩ := Prod.mk.inj (List.mem_singleton.1 hm)
    exact absurd (hwell.symm.trans htype) (by decide)
  | relayed hmsg _ hack hcopies =>
    refine ⟨hmsg, ?_⟩
    rcases List.mem_cons.1 hm with heq | hm
    · obtain ⟨-, rfl⟩ := Prod.mk.inj heq
      exact absurd (hack.symm.trans htype) (by decide)
    · exact (hcopies _ hm).2

/-- Only a connection without session asks for one. -/
theorem OneSession.served (h : OneSession net) {new : List (ℕ × Message)} (hs : Served net net' X msg new)
    (hX : msg.msgType = MSG_CONNECTION_CLIENT → Apart net X) : OneSession net' := by
  intro j k Y hj hk
  cases hs with
  | silent _ hholder => exact h j k Y (hholder ▸ hj) (hholder ▸ hk)
  | refused _ _ _ hholder => exact h j k Y (hholder ▸ hj) (hholder ▸ hk)
  | relayed _ _ _ _ hholder => exact h j k Y (hholder ▸ hj) (hholder ▸ hk)
  | @welcomed m p i htype _ _ _ hi hothers =>
    by_cases hji : j = i
    · by_cases hki : k = i
      · exact hji.trans hki.symm
      · obtain rfl : X = Y := Option.some.inj (hi.symm.trans (hji ▸ hj))
        exact absurd (hothers k hki X hk) (hX htype k)
    · by_cases hki : k = i
      · obtain rfl : X = Y := Option.some.inj (hi.symm.trans (hki ▸ hk))
        exact absurd (hothers j hji X hj) (hX htype j)
      · exact h j k Y (hothers j hji Y hj) (hothers k hki Y hk)

theorem Served.congr {net₀ : Network} {new : List (ℕ × Message)} (h : Served net₀ net' X msg new)
    (hholder : net.holder = net₀.holder) (hmembers : net.members = net₀.members) : Served net net' X msg new := by
  cases h with
  | silent hshort hsame => exact .silent hshort (hsame.trans hholder.symm)
  | refused htype herror hlen hsame => exact .refused htype herror hlen (hsame.trans hholder.symm)
  | welcomed htype hp hlong hwell hX hothers =>
    exact .welcomed htype hp hlong hwell hX fun j hj Y hY => by rw [hholder]; exact hothers j hj Y hY
  | relayed htype hdefined hack hcopies hsame =>
    exact .relayed htype hdefined hack (fun x hx => hmembers ▸ hcopies x hx) (hsame.trans hholder.symm)

variable {accounts : Key → Option Account} {e : Event} {answer : Handled}

theorem copies_broadcastCopy {msg newMsg copy : Message} (h : broadcastCopy msg newMsg = some copy) :
    Copies msg copy := by
  obtain ⟨text, htext, hrun⟩ := Option.bind_eq_some_iff.1 h
  obtain ⟨pseudo, hpseudo, hrun⟩ := Option.bind_eq_some_iff.1 hrun
  obtain rfl := Option.some.inj hrun
  obtain ⟨hzero, hlen, -⟩ := cstr_spec hpseudo
  obtain ⟨hzero', hlen', -⟩ := cstr_spec htext
  refine ⟨rfl, rfl, ?_, ?_, ?_⟩
  · rw [htext]
    exact cstr_overlay _ hzero' hlen'
  · rw [htext]
    exact Option.some_ne_none text
  · rw [hpseudo]
    exact cstr_overlay _ hzero hlen

theorem holder_none {i : Fin NB_MAX_CONNECTED_CLIENTS} (h : net.server.clients.get i = none) : net.holder i = none := by
  simp [holder, h]

theorem holder_some {i : Fin NB_MAX_CONNECTED_CLIENTS} {c : Client} (h : net.server.clients.get i = some c)
    (hconn : c.connected = true) : net.holder i = some (net.registrant i) := by
  simp [holder, h, hconn]

/-- The sessions are those from before when nobody is accepted. -/
theorem holder_answered_same (hs : Serves net.server accounts) (hstate : answer.state = net.server)
    (hno : ∀ p, NyanChat.accepted p (e, answer.sent) = false) : (net.answered X e answer).holder = net.holder := by
  funext i
  have hsame : (net.answered X e answer).server.clients.get i = net.server.clients.get i :=
    congrArg (fun s : ServerState => s.clients.get i) hstate
  cases hc : net.server.clients.get i with
  | none => rw [holder_none hc, holder_none (hsame.trans hc)]
  | some c =>
    obtain ⟨p, hp⟩ := (hs.clients i c).1 hc
    obtain ⟨-, hpseudo, hconn⟩ := hs.pseudo p i c hp
    have hregisters : registers (e, answer.sent) c = false := by
      rw [registers, hpseudo]
      exact hno p
    rw [holder_some hc hconn, holder_some (hsame.trans hc) hconn]
    simp [answered, hstate, hc, hregisters]

/-- The connection of an accepted request gets a session, and no other connection does. -/
theorem holder_answered_accepts (hs : Serves net.server accounts) {p : Key} {i : Fin NB_MAX_CONNECTED_CLIENTS}
    {c : Client} (hreq : e.Requests p) (hsent : answer.sent = [⟨e.sock, connectedReply e.msg e.locals.connectedMsg⟩])
    (hacc : Accepts e.clock e.msg p net.server answer.state accounts i c) :
    (net.answered X e answer).holder i = some X ∧
      ∀ j ≠ i, ∀ Y, (net.answered X e answer).holder j = some Y → net.holder j = some Y := by
  -- each client of the answer holds its account, and the request registers the one of its pseudo
  have hclient : ∀ j d, answer.state.clients.get j = some d →
      ∃ q, Function.update accounts p (some (i, c)) q = some (j, d) ∧
        (net.answered X e answer).holder j = some (if q = p then X else net.registrant j) ∧ d.connected = true := by
    intro j d hd
    obtain ⟨q, hq⟩ := (hacc.serves.clients j d).1 hd
    obtain ⟨-, hpseudo, hconn⟩ := hacc.serves.pseudo q j d hq
    have hregisters : registers (e, answer.sent) d = decide (q = p) := by
      rw [registers, hpseudo, hsent]
      exact accepted_connectedReply hreq q
    refine ⟨q, hq, (holder_some hd hconn).trans ?_, hconn⟩
    simp [answered, hd, hregisters]
  constructor
  · have hc : answer.state.clients.get i = some c := (hacc.serves.clients i c).2 ⟨p, Function.update_self ..⟩
    obtain ⟨q, hq, hholder, -⟩ := hclient i c hc
    obtain rfl : q = p := hacc.serves.unique hq (Function.update_self ..)
    rw [hholder, if_pos rfl]
  · intro j hj Y hY
    cases hd : answer.state.clients.get j with
    | none =>
      have hnone : (net.answered X e answer).holder j = none := holder_none hd
      rw [hnone] at hY
      cases hY
    | some d =>
      obtain ⟨q, hq, hholder, hconn⟩ := hclient j d hd
      have hqp : q ≠ p := by
        rintro rfl
        rw [Function.update_self] at hq
        cases hq
        exact hj rfl
      rw [Function.update_of_ne hqp] at hq
      rw [holder_some ((hs.clients j d).2 ⟨q, hq⟩) hconn, ← hY, hholder, if_neg hqp]

/-- A message is ignored, refused, welcomed or relayed. -/
theorem answered_served (hs : Serves net.server accounts) {fuel : ℕ} {clock : Clock} {locals : Locals} {sock : Int}
    (hanswer : onMsgReceived zeroSyndromes fuel clock locals sock msg net.server = some answer) :
    Served net (net.answered X ⟨clock, locals, sock, msg⟩ answer) X msg
      ((net.origins X).zip (answer.sent.map Sent.msg)) := by
  have hstep : Step ⟨clock, locals, sock, msg⟩ net.server answer := ⟨fuel, hanswer⟩
  rw [origins]
  rcases step_cases hs hstep with ⟨hstate, hno, -⟩ | ⟨p, i, c, hreq, hvalid, hsent, hacc⟩
  · have hholder := @holder_answered_same net X _ _ _ hs hstate hno
    cases onMsgReceived_branch hanswer with
    | noPseudo hp hshort => exact .silent (fun _ q hq => Option.some.inj (hp.symm.trans hq) ▸ hshort) hholder
    | other _ _ _ hother => exact .silent (fun htext => absurd htext hother) hholder
    | @connection p s' sent hp hvalid htype hconn =>
      rcases onConnection_cases hs hvalid hconn with ⟨-, text, rfl⟩ | ⟨rfl, -⟩
      · rw [List.map_singleton, List.zip_cons_cons, List.zip_nil_right]
        refine .refused htype (errorReply_msgType text msg locals.errorMsg) ?_ hholder
        rw [errorReply, initEmptyMessage]
      · have haccepted := hno p
        rw [accepted_connectedReply ⟨htype, hp⟩, decide_eq_true rfl] at haccepted
        cases haccepted
    | text hp hvalid htype htext =>
      have hrelays : Relays ⟨clock, locals, sock, msg⟩ net.server answer.sent := onText_relays hs hvalid htext
      obtain ⟨ack, copies, hsent, hack, hcopies⟩ := hrelays
      rw [hsent, List.map_cons, List.zip_cons_cons]
      refine .relayed htype (fun hdst => ?_) hack.msgType (fun x hx => ?_) hholder
      · rw [if_pos hdst] at hcopies
        obtain ⟨copy, hcopy, -⟩ := hcopies
        exact (copies_broadcastCopy hcopy).defined
      · obtain ⟨hmember, hin⟩ := List.of_mem_zip hx
        refine ⟨hmember, ?_⟩
        obtain ⟨m, hm, hmx⟩ := List.mem_map.1 hin
        split at hcopies
        · obtain ⟨copy, hcopy, rfl⟩ := hcopies
          obtain ⟨j, d, -, -, rfl⟩ := mem_copiesFor.1 hm
          obtain ⟨htype, hdst, htext, hdefined, hpseudo⟩ := copies_broadcastCopy hcopy
          rw [← hmx]
          exact ⟨htype, hdst, htext, hdefined, hpseudo⟩
        · rw [hcopies] at hm
          cases hm
  · obtain ⟨hX, hothers⟩ := @holder_answered_accepts net X _ _ _ hs _ _ _ hreq hsent hacc
    rw [hsent, List.map_singleton, List.zip_cons_cons, List.zip_nil_right]
    exact .welcomed hreq.1 hreq.2 hvalid.1 (connectedReply_msgType msg locals.connectedMsg) hX hothers

theorem Placed.serve_served (h : Placed net) (hserver : net.toServer = (X, msg) :: rest) {fuel : ℕ} {clock : Clock}
    {locals : Locals} (hact : net.act (.serve fuel clock locals) = some net') :
    net'.toServer = rest ∧ ∃ new, net'.toProxy = net.toProxy ++ new ∧ Served net net' X msg new := by
  obtain ⟨accounts, hs⟩ := h.routed.serves
  dsimp only [act] at hact
  rw [hserver] at hact
  obtain ⟨answer, hanswer, rfl⟩ := Option.map_eq_some_iff.1 hact
  have hs' : Serves (Network.server { net with toServer := rest }) accounts := hs
  exact ⟨rfl, _, rfl, (answered_served hs' hanswer).congr rfl rfl⟩

/-! ### The steps of the proxy -/

/-- The message of a client after the proxy has read it at the index `i`. -/
def onWay (rands : ℕ → ℕ) (i : ℕ) (msg : Message) : Message :=
  throughNoise rands { msg with proxyClientSocket := Int32.ofNat i }

/-- A message of a client is sent on to the server, unless its length is zero. -/
theorem request_toServer {i : ℕ} {rands : ℕ → ℕ} (hX : clientAt net.conClients net.owner i = some X)
    (hnull : msg.msgType ≠ MSG_NULL) (hact : net.act (.request i msg rands) = some net') :
    net'.toServer = net.toServer ++ (if PassesLength msg then [(X, onWay rands i msg)] else []) ∧
      net'.toProxy = net.toProxy ∧ net'.holder = net.holder := by
  dsimp only [act] at hact
  split at hact
  · obtain ⟨Y, hY, hact⟩ := Option.bind_eq_some_iff.1 hact
    obtain ⟨⟨msg', sent⟩, hproxy, hact⟩ := Option.bind_eq_some_iff.1 hact
    obtain rfl := Option.some.inj (hY.symm.trans hX)
    cases hact
    refine ⟨?_, rfl, rfl⟩
    have hnull' : ¬ { msg with proxyClientSocket := Int32.ofNat i }.msgType = MSG_NULL := hnull
    rw [onClientReceived, if_neg hnull'] at hproxy
    obtain ⟨noisy, hnoisy, heq⟩ := Option.map_eq_some_iff.1 hproxy
    obtain rfl := addErrors_of_some hnoisy
    cases heq
    have hpass : PassesLength (throughNoise rands { msg with proxyClientSocket := Int32.ofNat i }) ↔ PassesLength msg :=
      passesLength_throughNoise rands _
    by_cases h : PassesLength msg
    · rw [if_pos h, if_pos (hpass.2 h)]
      rfl
    · rw [if_neg h, if_neg (mt hpass.1 h)]
      rfl
  · cases hact

/-- The first message from the server goes to its connection, unless it is dropped for its length. -/
theorem Placed.deliver_brings (h : Placed net) (hproxy : net.toProxy = (X, msg) :: rest)
    (hact : net.act .deliver = some net') :
    net'.toProxy = rest ∧ net'.toServer = net.toServer ∧ net'.holder = net.holder ∧
      (net.brings .deliver = [(X, msg)] ∧ PassesLength msg ∨
        net.brings .deliver = [] ∧ (msg.msgType ≠ MSG_NULL → ¬ PassesLength msg)) := by
  obtain ⟨p, haddr, howner⟩ := h.addressee hproxy
  dsimp only [act] at hact
  rw [hproxy] at hact
  obtain ⟨sent, hsent, rfl⟩ := Option.map_eq_some_iff.1 hact
  refine ⟨rfl, rfl, rfl, ?_⟩
  rw [brings, hproxy]
  dsimp only
  by_cases hnull : msg.msgType = MSG_NULL
  · have hnone : onServerReceived net.conClients msg = some [] := by rw [onServerReceived, if_pos hnull]
    rw [hnone]
    exact Or.inr ⟨rfl, fun hne => absurd hnull hne⟩
  · rw [onServerReceived_eq hnull haddr]
    by_cases hpass : PassesLength msg
    · refine Or.inl ⟨?_, hpass⟩
      rw [if_pos hpass]
      simp [howner]
    · refine Or.inr ⟨?_, fun _ => hpass⟩
      rw [if_neg hpass]
      rfl

/-- The other steps of the proxy leave the messages on their way and the sessions. -/
theorem own_step {a : Action} (ha : a = .endTurn ∨ ∃ peer, a = .accept peer) (hact : net.act a = some net') :
    net'.toServer = net.toServer ∧ net'.toProxy = net.toProxy ∧ net'.holder = net.holder := by
  rcases ha with rfl | ⟨peer, rfl⟩
  · obtain ⟨con, -, rfl⟩ := Option.map_eq_some_iff.1 hact
    exact ⟨rfl, rfl, rfl⟩
  · dsimp only [act] at hact
    split at hact
    · split at hact
      · cases hact
        exact ⟨rfl, rfl, rfl⟩
      · cases hact
    · cases hact

theorem exists_toServer {fuel : ℕ} {clock : Clock} {locals : Locals}
    (hact : net.act (.serve fuel clock locals) = some net') : ∃ X msg rest, net.toServer = (X, msg) :: rest := by
  cases hserver : net.toServer with
  | nil =>
    dsimp only [act] at hact
    rw [hserver] at hact
    cases hact
  | cons x rest => exact ⟨x.1, x.2, rest, rfl⟩

theorem exists_toProxy (hact : net.act .deliver = some net') : ∃ X msg rest, net.toProxy = (X, msg) :: rest := by
  cases hproxy : net.toProxy with
  | nil =>
    dsimp only [act] at hact
    rw [hproxy] at hact
    cases hact
  | cons x rest => exact ⟨x.1, x.2, rest, rfl⟩

/-- The message that a step of the server handles. -/
def handles (net : Network) : Action → List (ℕ × Message)
  | .serve .. => net.toServer.take 1
  | _ => []

end Network

open Network Ansi

/-- The clients, the proxy and the server, with what was said and heard so far. -/
structure ChatRoom where
  net : Network
  client : ℕ → PanelState
  /-- The messages of each client that the proxy has not read. -/
  up : ℕ → List Message
  /-- The messages of the proxy that each client has not read. -/
  down : ℕ → List Message
  /-- The messages that each client has sent. -/
  sent : ℕ → List Message
  /-- The messages that the server has handled, with their connections. -/
  served : List (ℕ × Message)
  /-- The texts that were posted, with the connections that they were for. -/
  said : List (List ℕ × List UInt8)
  /-- The texts that the proxy has handed on to clients. -/
  heard : List (ℕ × List UInt8)

namespace ChatRoom

/-- Clients with the given files, a proxy that starts to listen, and a server that starts. -/
def start (codes : ℕ → List UInt8 → Option (List UInt8)) (net : Network) : ChatRoom where
  net := net
  client Y := initPanel (codes Y)
  up _ := []
  down _ := []
  sent _ := []
  served := []
  said := []
  heard := []

/-- A client has done something and sent messages. -/
def clientActs (r : ChatRoom) (Y : ℕ) (p : PanelState) (sent : List Message) : ChatRoom :=
  { r with
    client := Function.update r.client Y p
    up := Function.update r.up Y (r.up Y ++ sent)
    sent := Function.update r.sent Y (r.sent Y ++ sent) }

/-- The proxy or the server has done something. -/
def networkActs (r : ChatRoom) (a : Action) (net : Network) : ChatRoom :=
  { r with
    net := net
    down := fun Y => r.down Y ++ toward Y (r.net.brings a)
    served := r.served ++ r.net.handles a
    said := r.said ++ r.net.posts a
    heard := r.heard ++ r.net.hears a }

section

variable {r : ChatRoom} {Y : ℕ} {p : PanelState} {sent : List Message}

@[simp] theorem clientActs_client : (r.clientActs Y p sent).client = Function.update r.client Y p := rfl

@[simp] theorem clientActs_net : (r.clientActs Y p sent).net = r.net := rfl

@[simp] theorem clientActs_down : (r.clientActs Y p sent).down = r.down := rfl

@[simp] theorem clientActs_up : (r.clientActs Y p sent).up = Function.update r.up Y (r.up Y ++ sent) := rfl

@[simp] theorem clientActs_sent : (r.clientActs Y p sent).sent = Function.update r.sent Y (r.sent Y ++ sent) := rfl

end

/-- A step: a key is pressed at a client, its window is drawn, it reads a message, the proxy reads a message of a
client, or does something else, or the server handles a message. -/
inductive Next (r : ChatRoom) : ChatRoom → Prop
  | key {Y : ℕ} {rands : ℕ → ℕ} {memory : ℕ → Message} {buffer : Input} {bufLen : ℕ} {p : Pressed} :
      Ansi.onStdinClient rands memory (r.client Y).state buffer bufLen = some p →
      Next r (r.clientActs Y { r.client Y with state := p.state } p.sent)
  | redraw {Y fuel : ℕ} {s : Screen} {ty : Int} {d : Redrawn} : displayClient fuel s ty (r.client Y) = .ok d →
      Next r (r.clientActs Y d.panel [])
  | receive {Y fuel : ℕ} {memory : ℕ → Message} {msg : Message} {rest : List Message}
      {q : PanelState × List Message} : r.down Y = msg :: rest → onMsgPanel fuel memory (r.client Y) msg = some q →
      Next r { r.clientActs Y q.1 q.2 with down := Function.update r.down Y rest }
  | request {Y i : ℕ} {msg : Message} {rest : List Message} {rands : ℕ → ℕ} {net : Network} :
      clientAt r.net.conClients r.net.owner i = some Y → r.up Y = msg :: rest →
      r.net.act (.request i msg rands) = some net →
      Next r { r.networkActs (.request i msg rands) net with up := Function.update r.up Y rest }
  | own {a : Action} {net : Network} : (a = .endTurn ∨ ∃ peer, a = .accept peer) → r.net.act a = some net →
      Next r (r.networkActs a net)
  | serve {fuel : ℕ} {clock : Clock} {locals : Locals} {net : Network} :
      r.net.act (.serve fuel clock locals) = some net → Next r (r.networkActs (.serve fuel clock locals) net)
  | deliver {net : Network} : r.net.act .deliver = some net → Next r (r.networkActs .deliver net)

inductive Reached : ChatRoom → Prop
  | start {codes : ℕ → List UInt8 → Option (List UInt8)} {sockfd serverFd proxySock : Int} {msg : Message}
      {files : List UInt8 → Option (List UInt8)} {server : ServerState} : sockfd ≠ -1 →
      initServerState files = some server →
      Reached (start codes (Network.start sockfd serverFd proxySock msg server))
  | next {r r' : ChatRoom} : Reached r → r.Next r' → Reached r'

variable {r r' : ChatRoom} {Y : ℕ}

/-- The messages from a client that the server has not handled. -/
def upward (r : ChatRoom) (Y : ℕ) : List Message := toward Y r.net.toServer ++ r.up Y

/-- The messages of the server that a client has not read. -/
def downward (r : ChatRoom) (Y : ℕ) : List Message := r.down Y ++ toward Y r.net.toProxy

theorem Next.served (h : r.Next r') : ∀ x ∈ r.served, x ∈ r'.served := by
  intro x hx
  cases h with
  | key _ => exact hx
  | redraw _ => exact hx
  | receive _ _ => exact hx
  | request _ _ _ => exact List.mem_append_left _ hx
  | own _ _ => exact List.mem_append_left _ hx
  | serve _ => exact List.mem_append_left _ hx
  | deliver _ => exact List.mem_append_left _ hx

theorem Reached.chats (h : Reached r) : Chats r.net r.said r.heard := by
  induction h with
  | start hsock hserver => exact .start hsock hserver
  | next _ hnext ih =>
    cases hnext with
    | key _ => exact ih
    | redraw _ => exact ih
    | receive _ _ => exact ih
    | request _ _ hact => exact ih.step (fun _ => Action.noConfusion) hact
    | own ha hact =>
      refine ih.step (fun i hi => ?_) hact
      rcases ha with rfl | ⟨peer, rfl⟩
      · cases hi
      · cases hi
    | serve hact => exact ih.step (fun _ => Action.noConfusion) hact
    | deliver hact => exact ih.step (fun _ => Action.noConfusion) hact

/-- Each client is in a state of a run of the client, in the terminal and without it, which has sent its messages. -/
theorem Reached.client (h : Reached r) : ∀ Y, (∃ codes heard, AnsiRun codes (r.sent Y) heard (r.client Y)) ∧
    ClientRun (r.sent Y) (r.client Y).state.client := by
  induction h with
  | @start codes => exact fun Y => ⟨⟨codes Y, [], .start⟩, .start (codes Y)⟩
  | @next r r' _ hnext ih =>
    have hacts : ∀ {Z : ℕ} {p : PanelState} {sent : List Message},
        (∃ codes heard, AnsiRun codes (r.sent Z ++ sent) heard p) → ClientRun (r.sent Z ++ sent) p.state.client →
        ∀ Y, (∃ codes heard,
            AnsiRun codes ((r.clientActs Z p sent).sent Y) heard ((r.clientActs Z p sent).client Y)) ∧
          ClientRun ((r.clientActs Z p sent).sent Y) ((r.clientActs Z p sent).client Y).state.client := by
      intro Z p sent hansi hrun Y
      by_cases hY : Y = Z
      · subst hY
        simpa using And.intro hansi hrun
      · simpa [hY] using ih Y
    cases hnext with
    | @key Z _ _ _ _ _ hrun =>
      obtain ⟨⟨codes, heard, hprev⟩, hclient⟩ := ih Z
      obtain ⟨k, n, hat⟩ := ansiRun_at hprev
      exact hacts ⟨codes, heard, hprev.key hrun⟩ (clientRun_key hclient hat hrun)
    | @redraw Z _ _ _ _ hrun =>
      obtain ⟨⟨codes, heard, hprev⟩, hclient⟩ := ih Z
      refine hacts ⟨codes, heard, ?_⟩ ?_
      · rw [List.append_nil]
        exact hprev.redraw hrun
      · rw [List.append_nil, displayClient_state hrun]
        exact hclient
    | @receive Z _ _ _ _ _ _ hrun =>
      obtain ⟨⟨codes, heard, hprev⟩, hclient⟩ := ih Z
      exact hacts ⟨codes, _, hprev.message hrun⟩ (clientRun_message hclient (ansiRun_slots hprev) hrun)
    | request _ _ _ => exact ih
    | own _ _ => exact ih
    | serve _ => exact ih
    | deliver _ => exact ih

theorem Reached.slots (h : Reached r) (Y : ℕ) :
    (r.client Y).state.nbMsgsDefaultChannel ≤ (r.client Y).state.msgsDefaultChannel.length := by
  obtain ⟨⟨codes, heard, hansi⟩, -⟩ := h.client Y
  exact ansiRun_slots hansi

/-- The messages of a client are requests and texts for the default channel. -/
theorem Reached.outgoing (h : Reached r) {m : Message} (hm : m ∈ r.sent Y) : Outgoing m :=
  clientRun_outgoing (h.client Y).2 m hm

end ChatRoom

end NyanChat
