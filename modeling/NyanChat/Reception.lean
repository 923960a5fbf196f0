import NyanChat.MainLoop

/-!
# Receiving messages

The messages sent on a connection arrive as chunks of the byte stream, in any number of calls of `read_poll_socket`
between which anything else may happen (`Reads`).  Each chunk is handed to `on_msg` as a message of its own
(`Reads.forall₂`), so the messages are received exactly when no chunk is shorter than a message
(`received_iff_whole`).
-/

namespace NyanChat

variable {σ : Type} {on : Handlers σ}

/-- The bytes that `tcp_connection_message_send` writes for the messages. -/
def sentStream (sent : List Message) : List UInt8 := (sent.map Message.toBytes).flatten

/-- The data that `read_poll_socket` receives before the connection ends. -/
def chunksOf : List Recv → List (List UInt8)
  | .data bytes :: rest => bytes :: chunksOf rest
  | _ => []

/-- The messages handed to `on_msg`. -/
def handed : List Call → List Message
  | [] => []
  | .onMsg _ msg _ :: rest => msg :: handed rest
  | _ :: rest => handed rest

/-- Calls of `read_poll_socket` on the socket `fd`, with the chunks they receive and the messages they hand to
`on_msg`.  The connection before a call, the index of the socket in it and the state of the program are arbitrary. -/
inductive Reads (on : Handlers σ) (type : ConnectionType) (fd : Int) : List (List UInt8) → List Message → Prop
  | nil : Reads on type fd [] []
  | read {con : TcpConnection} {args : σ} {idPoll : ℕ} (h : idPoll < MAX_POLL_SOCKETS) {recvs : List Recv}
      {st : LoopState σ} {chunks : List (List UInt8)} {msgs : List Message} :
      con.typeConnection = type → con.poll[idPoll].fd = fd →
      readPollSocket on idPoll h recvs ⟨con, args, []⟩ = some st → Reads on type fd chunks msgs →
      Reads on type fd (chunksOf recvs ++ chunks) (handed st.calls ++ msgs)

/-- A message without the field that the proxy overwrites in the messages of its clients. -/
def unstamped (type : ConnectionType) (m : Message) : Message :=
  if type = .proxyClientsSide then { m with proxyClientSocket := -1 } else m

/-- The message `msg` is what a connection makes of the chunk. -/
def HandedFor (type : ConnectionType) (chunk : List UInt8) (msg : Message) : Prop :=
  ∃ (con : TcpConnection) (idPoll : ℕ), con.typeConnection = type ∧ msg = con.fill idPoll chunk

theorem handed_append (l l' : List Call) : handed (l ++ l') = handed l ++ handed l' := by
  induction l with
  | nil => rfl
  | cons c l ih => cases c <;> simp [handed, ih]

private theorem chunksOf_eq_nil {recvs : List Recv} (h : ∀ bytes rest, recvs ≠ .data bytes :: rest) :
    chunksOf recvs = [] := by
  rw [chunksOf]
  exact h

private theorem readLoop_handed {type : ConnectionType} {idPoll : ℕ} {fd : Int} {recvs : List Recv}
    {st : LoopState σ} {r : LoopState σ × Bool} (htype : st.con.typeConnection = type)
    (hrun : readLoop on idPoll fd recvs st = some r) :
    ∃ msgs, handed r.1.calls = handed st.calls ++ msgs ∧ List.Forall₂ (HandedFor type) (chunksOf recvs) msgs := by
  refine readLoop_rule (Q := fun recvs st st' => st.con.typeConnection = type → ∃ msgs,
    handed st'.calls = handed st.calls ++ msgs ∧ List.Forall₂ (HandedFor type) (chunksOf recvs) msgs) ?_ ?_ hrun htype
  · intro recvs st hstop _
    rw [chunksOf_eq_nil hstop]
    exact ⟨[], (List.append_nil _).symm, List.Forall₂.nil⟩
  · intro bytes rest st msg' ended args st' _ ih htype
    obtain ⟨msgs, hcalls, hall⟩ := ih htype
    refine ⟨_ :: msgs, ?_, List.Forall₂.cons ⟨st.con, idPoll, htype, rfl⟩ hall⟩
    rw [hcalls, handed_append, List.append_assoc]
    rfl

/-- Every chunk is handed to `on_msg` once, in order. -/
theorem Reads.forall₂ {type : ConnectionType} {fd : Int} {chunks : List (List UInt8)} {msgs : List Message}
    (h : Reads on type fd chunks msgs) : List.Forall₂ (HandedFor type) chunks msgs := by
  induction h with
  | nil => exact List.Forall₂.nil
  | @read _ _ _ _ _ st _ _ htype _ hrun _ ih =>
    obtain ⟨r, hread, hst⟩ := Option.map_eq_some_iff.1 hrun
    obtain ⟨msgs, hcalls, hall⟩ := readLoop_handed htype hread
    have hsame : handed st.calls = msgs := by
      subst hst
      split
      · rw [handed_append, hcalls]
        exact List.append_nil _
      · exact hcalls
    rw [hsame]
    exact List.rel_append hall ih

theorem unstamped_fill {con : TcpConnection} (idPoll : ℕ) (m : Message) :
    unstamped con.typeConnection (con.fill idPoll m.toBytes) = unstamped con.typeConnection m := by
  rw [TcpConnection.fill, recvInto_toBytes, unstamped, unstamped]
  split <;> rfl

/-- Over all ways to cut the stream, the messages are received exactly when every chunk is a whole message. -/
theorem received_iff_whole {type : ConnectionType} {fd : Int} {chunks : List (List UInt8)} {msgs : List Message}
    (h : Reads on type fd chunks msgs) (hle : ∀ c ∈ chunks, c.length ≤ Message.size) {sent : List Message}
    (hstream : chunks.flatten = sentStream sent) :
    msgs.map (unstamped type) = sent.map (unstamped type) ↔ ∀ c ∈ chunks, c.length = Message.size := by
  have hblocks : ∀ b ∈ sent.map Message.toBytes, b.length = Message.size := by
    intro b hb
    obtain ⟨m, -, rfl⟩ := List.mem_map.1 hb
    exact m.toBytes_length
  have hall := h.forall₂
  constructor
  · intro heq
    have hcount : chunks.length = (sent.map Message.toBytes).length := by
      have hlen := congrArg List.length heq
      rw [List.length_map, List.length_map] at hlen
      rw [List.length_map, hall.length_eq, hlen]
    exact Blocks.length_eq_of_count_eq hblocks hle hstream hcount
  · intro hwhole
    have hchunks := Blocks.eq_of_length_eq hblocks hwhole (by decide) hstream
    rw [hchunks, List.forall₂_map_left_iff] at hall
    clear h hle hstream hblocks hwhole hchunks
    induction hall with
    | nil => rfl
    | cons hfirst _ ih =>
      obtain ⟨con, idPoll, rfl, rfl⟩ := hfirst
      rw [List.map_cons, List.map_cons, ih, unstamped_fill]

private theorem reads_one (recvs : List Recv) {st : LoopState Unit}
    (hrun : readPollSocket silentHandlers 0 (by decide) recvs ⟨tcpConnectionServerInit .server 3 Message.zero, (), []⟩ =
      some st) :
    Reads silentHandlers .server 3 (chunksOf recvs) (handed st.calls) := by
  have hnil : Reads silentHandlers .server 3 [] [] := Reads.nil
  have h := Reads.read (by decide) rfl rfl hrun hnil
  rwa [List.append_nil, List.append_nil] at h

/-- Three messages of the client at index `2`. -/
private def threeMessages : List Message :=
  [MSG_CONNECTION_CLIENT, MSG_STD_CLIENT_SERVER, MSG_ACK_POS].map fun type =>
    { Message.zero with msgType := type, msgLength := 6, proxyClientSocket := 2 }

theorem received_iff_whole_three :
    ∃ msgs, Reads silentHandlers .server 3 (threeMessages.map Message.toBytes) msgs ∧
      msgs.map (unstamped .server) = threeMessages.map (unstamped .server) := by
  have hreads := reads_one ((threeMessages.map Message.toBytes).map .data) rfl
  have hchunks : chunksOf ((threeMessages.map Message.toBytes).map .data) = threeMessages.map Message.toBytes := rfl
  rw [hchunks] at hreads
  have hlen : ∀ c ∈ threeMessages.map Message.toBytes, c.length = Message.size := by
    intro c hc
    obtain ⟨m, -, rfl⟩ := List.mem_map.1 hc
    exact m.toBytes_length
  exact ⟨_, hreads, (received_iff_whole hreads (fun c hc => Nat.le_of_eq (hlen c hc)) rfl).2 hlen⟩

/-- A message that arrives in two pieces is handed to `on_msg` twice. -/
theorem cut_message_handed_twice :
    ∃ chunks msgs, Reads silentHandlers .server 3 chunks msgs ∧
      (∀ c ∈ chunks, 1 ≤ c.length ∧ c.length ≤ Message.size) ∧ chunks.flatten = sentStream [Message.zero] ∧
      msgs.map (unstamped .server) ≠ [Message.zero].map (unstamped .server) := by
  have hlen := Message.zero.toBytes_length
  have hsize := Message.size_eq
  have hreads := reads_one [.data (Message.zero.toBytes.take 1000), .data (Message.zero.toBytes.drop 1000)] rfl
  refine ⟨_, _, hreads, ?_, ?_, ?_⟩
  · intro c hc
    rcases List.mem_cons.1 hc with rfl | hc
    · rw [List.length_take]
      omega
    · rw [List.mem_singleton.1 hc, List.length_drop]
      omega
  · simp [chunksOf, sentStream]
  · intro heq
    have hcount := congrArg List.length heq
    rw [List.length_map, ← hreads.forall₂.length_eq] at hcount
    cases hcount

end NyanChat
