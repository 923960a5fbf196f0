import NyanChat.ClientEvents
import NyanChat.Rounds
import NyanChat.ServerRuns

/-!
# Whole programs

What the functions of a program keep holds of it in its main loop, whatever `poll` and the other system calls answer
(`Preserves.mainloop`).  So the server's program is in a state of a run of the server on the messages that its sockets
received (`serverMain_run`).  Conversely the main loop can receive the messages of one client, whatever they are
(`Program.Plays.mainloop`).
-/

namespace NyanChat

variable {σ : Type} {on : Handlers σ} {ready : ℕ → Ready}

/-! ### The main loop -/

/-- What the loop through the sockets does with an index. -/
inductive Dispatched (on : Handlers σ) (ready : ℕ → Ready) (st : LoopState σ × Bool) (i : ℕ) :
    LoopState σ × Bool → Prop
  | skipped : st.2 = true ∨ (ready i).revents = 0 → Dispatched on ready st i st
  | error : st.2 = false → (ready i).revents ≠ 0 → (ready i).revents ≠ POLLIN →
      Dispatched on ready st i ({ st.1 with con := { st.1.con with endConnection := true } }, true)
  | handled {r : LoopState σ × Bool} (h : i < MAX_POLL_SOCKETS) : st.2 = false → (ready i).revents = POLLIN →
      handleEntry on (ready i) i h st.1 (st.1.con.handling i) = some r → Dispatched on ready st i r

theorem dispatch_dispatched {st r : LoopState σ × Bool} {i : ℕ} (hrun : dispatch on ready st i = some r) :
    Dispatched on ready st i r := by
  by_cases hskip : st.2 = true ∨ (ready i).revents = 0
  · rw [dispatch, if_pos hskip] at hrun
    obtain rfl := Option.some.inj hrun
    exact .skipped hskip
  · obtain ⟨hbroke, hzero⟩ := not_or.1 hskip
    rw [Bool.not_eq_true] at hbroke
    by_cases hpollin : (ready i).revents = POLLIN
    · have hi : i < MAX_POLL_SOCKETS := by
        by_contra hi
        rw [dispatch, if_neg hskip, if_neg (not_not.2 hpollin), dif_neg hi] at hrun
        cases hrun
      obtain ⟨st, broke⟩ := st
      obtain rfl : broke = false := hbroke
      exact .handled hi rfl hpollin ((dispatch_ready hi hpollin st).symm.trans hrun)
    · rw [dispatch, if_neg hskip, if_pos hpollin] at hrun
      obtain rfl := Option.some.inj hrun
      exact .error hbroke hzero hpollin

/-- What every turn keeps holds of the main loop. -/
theorem mainloop_rule {Q : LoopState σ → Prop} {polls : List PollAnswer}
    (hturn : ∀ ready, .ready ready ∈ polls → ∀ st st', Q st → mainloopTurn on ready st = some st' → Q st')
    {st : LoopState σ} {r : LoopState σ × Bool} (hrun : tcpConnectionMainloop on polls st = some r) (h : Q st) :
    Q r.1 := by
  induction polls generalizing st with
  | nil =>
    cases hrun
    exact h
  | cons answer polls ih =>
    cases answer with
    | failed =>
      cases hrun
      exact h
    | ready ready =>
      obtain ⟨st', hstep, hrun⟩ := Option.bind_eq_some_iff.1 hrun
      have h' := hturn ready List.mem_cons_self st st' h hstep
      split at hrun
      · cases hrun
        exact h'
      · exact ih (fun ready hready => hturn ready (List.mem_cons_of_mem _ hready)) hrun h'

/-- The functions of a program keep `I`, which is about its state and the calls so far.  What is read from the
standard input is `Given`. -/
structure Preserves (on : Handlers σ) (Given : List UInt8 → Prop) (I : σ → List Call → Prop) : Prop where
  other : ∀ s calls c, (∀ sock msg len, c ≠ .onMsg sock msg len) → I s calls → I s (calls ++ [c])
  onMsg : ∀ sock msg len s calls r, on.onMsg sock msg len s = some r → I s calls →
    I r.2.2 (calls ++ [.onMsg sock msg len])
  onStdin : ∀ f, on.onStdin = some f → ∀ bytes s calls r, Given bytes →
    f (stdinBuffer bytes) bytes.length s = some r → I s calls → I r.2 calls

namespace Preserves

variable {Given : List UInt8 → Prop} {I : σ → List Call → Prop} {before : List Call} {st : LoopState σ}

theorem acceptLoop (hon : Preserves on Given I) {newSock : Int} {con con' : TcpConnection} {accepts : List Accept}
    {new : List Call} {s : σ} {calls : List Call} (hrun : acceptLoop newSock con accepts = some (con', new))
    (h : I s calls) : I s (calls ++ new) := by
  revert calls
  refine acceptLoop_rule (Q := fun _ _ new => ∀ {calls}, I s calls → I s (calls ++ new)) ?_ ?_ hrun
  · intro _ _ _ calls h
    rwa [List.append_nil]
  · intro _ _ peer _ new _ ih calls h
    rw [← List.singleton_append, ← List.append_assoc]
    exact ih (hon.other s calls _ (fun _ _ _ heq => by cases heq) h)

theorem readPollSocket (hon : Preserves on Given I) {i : ℕ} {hi : i < MAX_POLL_SOCKETS} {recvs : List Recv}
    {st' : LoopState σ} (hrun : readPollSocket on i hi recvs st = some st') (h : I st.args (before ++ st.calls)) :
    I st'.args (before ++ st'.calls) := by
  obtain ⟨r, hread, hst'⟩ := Option.map_eq_some_iff.1 hrun
  have hloop : I r.1.args (before ++ r.1.calls) := by
    refine readLoop_rule (Q := fun _ st st' => I st.args (before ++ st.calls) → I st'.args (before ++ st'.calls))
      (fun _ _ _ h => h) ?_ hread h
    intro bytes rest st msg' ended args st' hmsg ih h
    refine ih ?_
    rw [← List.append_assoc]
    exact hon.onMsg _ _ _ _ _ _ hmsg h
  split at hst'
  · subst hst'
    rw [← List.append_assoc]
    exact hon.other _ _ _ (fun _ _ _ heq => by cases heq) hloop
  · subst hst'
    exact hloop

theorem readStdin (hon : Preserves on Given I) {bytes : List UInt8} (hgiven : Given bytes) {st' : LoopState σ}
    (hrun : readStdin on bytes st = some st') (h : I st.args (before ++ st.calls)) :
    I st'.args (before ++ st'.calls) := by
  unfold NyanChat.readStdin at hrun
  split at hrun
  · cases hrun
    exact h
  · rename_i f hf
    obtain ⟨r, hr, rfl⟩ := Option.map_eq_some_iff.1 hrun
    exact hon.onStdin f hf bytes _ _ r hgiven hr h

theorem dispatch (hon : Preserves on Given I) {i : ℕ} (hgiven : ∀ bytes, (ready i).stdin = some bytes → Given bytes)
    {r r' : LoopState σ × Bool} (hrun : dispatch on ready r i = some r') (h : I r.1.args (before ++ r.1.calls)) :
    I r'.1.args (before ++ r'.1.calls) := by
  cases dispatch_dispatched hrun with
  | skipped _ => exact h
  | error _ _ _ => exact h
  | handled hi _ _ hentry =>
    cases hhandling : r.1.con.handling i with
    | accept =>
      rw [hhandling] at hentry
      obtain ⟨x, haccept, rfl⟩ := Option.map_eq_some_iff.1 hentry
      rw [← List.append_assoc]
      exact hon.acceptLoop haccept h
    | stdin =>
      rw [hhandling, handleEntry] at hentry
      split at hentry
      · cases hentry
        exact h
      · rename_i bytes hbytes
        obtain ⟨st', hst', rfl⟩ := Option.map_eq_some_iff.1 hentry
        exact hon.readStdin (hgiven bytes hbytes) hst' h
    | read =>
      rw [hhandling] at hentry
      obtain ⟨st', hst', rfl⟩ := Option.map_eq_some_iff.1 hentry
      exact hon.readPollSocket hst' h

theorem turn (hon : Preserves on Given I) (hgiven : ∀ i bytes, (ready i).stdin = some bytes → Given bytes)
    {st' : LoopState σ} (hrun : mainloopTurn on ready st = some st') (h : I st.args st.calls) :
    I st'.args st'.calls := by
  obtain ⟨st₁, hsockets, hrun⟩ := Option.bind_eq_some_iff.1 hrun
  obtain ⟨con, -, rfl⟩ := Option.map_eq_some_iff.1 hrun
  obtain ⟨r, hfold, rfl⟩ := Option.map_eq_some_iff.1 hsockets
  refine Loop.foldlM_of_some (fun r : LoopState σ × Bool => I r.1.args (st.calls ++ r.1.calls))
    (fun i _ _ h hstep => hon.dispatch (hgiven i) hstep h) _ ?_ hfold
  rwa [List.append_nil]

/-- What the functions of a program keep holds of the program. -/
theorem mainloop (hon : Preserves on Given I) {polls : List PollAnswer}
    (hgiven : ∀ ready, .ready ready ∈ polls → ∀ i bytes, (ready i).stdin = some bytes → Given bytes)
    {r : LoopState σ × Bool} (hrun : tcpConnectionMainloop on polls st = some r) (h : I st.args st.calls) :
    I r.1.args r.1.calls :=
  mainloop_rule (fun ready hready _ _ h hturn => hon.turn (hgiven ready hready) hturn h) hrun h

end Preserves

/-- A loop that still waits after some answers goes on with the next ones. -/
theorem tcpConnectionMainloop_append {polls : List PollAnswer} {st st' : LoopState σ}
    (hrun : tcpConnectionMainloop on polls st = some (st', false)) (more : List PollAnswer) :
    tcpConnectionMainloop on (polls ++ more) st = tcpConnectionMainloop on more st' := by
  induction polls generalizing st with
  | nil =>
    cases hrun
    rfl
  | cons answer polls ih =>
    cases answer with
    | failed => cases hrun
    | ready ready =>
      obtain ⟨st₁, hturn, hrun⟩ := Option.bind_eq_some_iff.1 hrun
      rw [List.cons_append, tcpConnectionMainloop, hturn, Option.bind_some]
      split at hrun
      · cases hrun
      · rename_i hopen
        rw [if_neg hopen]
        exact ih hrun

/-! ### The server -/

/-- The calls of `on_msg`, with their sockets. -/
def handedOn (calls : List Call) : List (Int × Message) :=
  calls.filterMap fun
    | .onMsg sock msg _ => some (sock, msg)
    | _ => none

theorem handedOn_append (calls new : List Call) : handedOn (calls ++ new) = handedOn calls ++ handedOn new :=
  List.filterMap_append

/-- The history leads to the state of the program, on the messages that its sockets received. -/
structure Records (Reaches : List Exchange → σ → Prop) (p : Progress σ) (calls : List Call) (hist : List Exchange) :
    Prop where
  reaches : Reaches hist p.state
  handed : handedOn calls = hist.reverse.map fun x => (x.1.sock, x.1.msg)
  calls : p.calls = hist.length
  sends : p.sends = (hist.map fun x => x.2.length).sum

/-- When each call of `on_msg` adds an exchange to the history, the program has one. -/
theorem Program.records {P : Program σ} {Reaches : List Exchange → σ → Prop} {on : Handlers (Progress σ)} {rc : ℕ → Int}
    (hon : on.onMsg = (P.handlers rc).onMsg)
    (hstdin : ∀ f, on.onStdin = some f → ∀ bytes len p r, f bytes len p = some r → r.2 = p)
    (hstep : ∀ k sock msg len s r hist, P.onMsg k sock msg len s = some r → Reaches hist s →
      ∃ e : Event, e.sock = sock ∧ e.msg = msg ∧ Reaches ((e, r.2.1) :: hist) r.2.2) :
    Preserves on (fun _ => True) fun p calls => ∃ hist, Records Reaches p calls hist := by
  constructor
  case other =>
    rintro p calls c hc ⟨hist, h⟩
    refine ⟨hist, h.reaches, ?_, h.calls, h.sends⟩
    have hnone : handedOn [c] = [] := by
      cases c with
      | onMsg sock msg len => exact absurd rfl (hc sock msg len)
      | accepted peer => rfl
      | closed fd => rfl
    rw [handedOn_append, hnone, List.append_nil]
    exact h.handed
  case onMsg =>
    rintro sock msg len p calls r hrun ⟨hist, h⟩
    rw [hon] at hrun
    obtain ⟨x, hx, rfl⟩ := Option.map_eq_some_iff.1 hrun
    obtain ⟨e, rfl, rfl, hreaches⟩ := hstep _ _ _ _ _ _ hist hx h.reaches
    refine ⟨(e, x.2.1) :: hist, hreaches, ?_, congrArg (· + 1) h.calls, ?_⟩
    · rw [handedOn_append, h.handed, List.reverse_cons, List.map_append]
      rfl
    · dsimp only
      rw [h.sends, List.map_cons, List.sum_cons, Nat.add_comm]
  case onStdin =>
    intro f hf bytes p calls r _ hrun h
    rw [hstdin f hf _ _ _ _ hrun]
    exact h

/-- The functions that `main` of `server.c` gives to its main loop. -/
def serverHandlers (env : ℕ → Surroundings) (rc : ℕ → Int) : Handlers (Progress ServerState) :=
  { (serverProgram zeroSyndromes env).handlers rc with
    onStdin := some fun msg _ p => (onStdinServer msg).map fun ended => (ended, p) }

/-- `main` of `server.c` up to the end of its main loop, with what its calls of `on_msg_received` find, the answers of
`send` and `poll`, the files with the codes, the listening socket, and what the memory of the connection holds. -/
def serverMain (env : ℕ → Surroundings) (rc : ℕ → Int) (codes : List UInt8 → Option (List UInt8)) (sockfd : Int)
    (msg : Message) (polls : List PollAnswer) : Option (LoopState (Progress ServerState) × Bool) :=
  (initServerState codes).bind fun s =>
    tcpConnectionMainloop (serverHandlers env rc) polls ⟨tcpConnectionServerInit .server sockfd msg, ⟨s, 0, 0⟩, []⟩

/-- The program is in a state of a run on the messages that its sockets received. -/
structure Follows (p : Progress ServerState) (calls : List Call) (hist : List Exchange) : Prop where
  run : Run hist p.state
  handed : handedOn calls = hist.reverse.map fun x => (x.1.sock, x.1.msg)
  calls : p.calls = hist.length
  sends : p.sends = (hist.map fun x => x.2.length).sum

variable {env : ℕ → Surroundings} {rc : ℕ → Int}

theorem serverHandlers_keeps (env : ℕ → Surroundings) (rc : ℕ → Int) :
    Preserves (serverHandlers env rc) (fun _ => True) fun p calls => ∃ hist, Records Run p calls hist := by
  refine @Program.records _ (serverProgram zeroSyndromes env) Run _ rc rfl ?_ ?_
  · intro f hf bytes len p r hrun
    cases hf
    obtain ⟨ended, -, rfl⟩ := Option.map_eq_some_iff.1 hrun
    rfl
  · intro k sock msg len s r hist hrun h
    obtain ⟨handled, hhandled, rfl⟩ := Option.map_eq_some_iff.1 hrun
    exact ⟨⟨(env k).clock, (env k).locals, sock, msg⟩, rfl, rfl, Run.step h ⟨_, hhandled⟩⟩

/-- Whatever the system calls of the server's program answer, it is in a state of a run of the server, on the messages
that its sockets received in this order. -/
theorem serverMain_run {codes : List UInt8 → Option (List UInt8)} {sockfd : Int} {msg : Message}
    {polls : List PollAnswer} {r : LoopState (Progress ServerState) × Bool}
    (hrun : serverMain env rc codes sockfd msg polls = some r) : ∃ hist, Follows r.1.args r.1.calls hist := by
  obtain ⟨s, hs, hrun⟩ := Option.bind_eq_some_iff.1 hrun
  obtain ⟨hist, h⟩ := (serverHandlers_keeps env rc).mainloop (fun _ _ _ _ _ => trivial) hrun
    ⟨[], Run.start hs, rfl, rfl, rfl⟩
  exact ⟨hist, h.reaches, h.handed, h.calls, h.sends⟩

/-! ### The messages of one client -/

/-- What the calls of `on_msg` lead to from `s₀` on whole messages, with their sockets, the last one first. -/
inductive Program.Plays (P : Program σ) (s₀ : σ) : List (Int × Message) → σ → Prop
  | start : P.Plays s₀ [] s₀
  | step {hist : List (Int × Message)} {s s' : σ} {sock : Int} {msg msg' : Message} {sent : List Sent} :
      P.Plays s₀ hist s → P.onMsg hist.length sock msg Message.size s = some (msg', sent, s') →
      P.Plays s₀ ((sock, msg) :: hist) s'

/-- Only the calls that were made count. -/
theorem Program.Plays.congr {P P' : Program σ} {s₀ s : σ} {hist : List (Int × Message)} (h : P.Plays s₀ hist s)
    (heq : ∀ k < hist.length, P'.onMsg k = P.onMsg k) : P'.Plays s₀ hist s := by
  induction h with
  | start => exact .start
  | @step hist s s' _ _ _ _ _ hrun ih =>
    exact .step (ih fun k hk => heq k (Nat.lt_succ_of_lt hk)) ((heq hist.length (Nat.lt_succ_self _)).symm ▸ hrun)

/-- Nothing is ready but the index `j`. -/
def onlyReady (j : ℕ) (r : Ready) (i : ℕ) : Ready := if i = j then { r with revents := POLLIN } else quiet

/-- A client connects on the descriptor `fd`. -/
def connects (fd : ℕ) : ℕ → Ready := onlyReady 0 { quiet with accepts := [.socket fd ⟨0, 0, 0⟩ 16] }

/-- The message arrives in one piece at the index `2`. -/
def arrives (msg : Message) : ℕ → Ready := onlyReady 2 { quiet with recvs := [.data msg.toBytes] }

/-- A server with one client on the descriptor `fd`. -/
structure ServesOne (sockfd : Int) (fd : ℕ) (con : TcpConnection) : Prop where
  type : con.typeConnection = .server
  sock : con.sockfd = sockfd
  nb : con.nbPollFds = 3
  client : con.poll[2].fd = fd
  running : con.endConnection = false
  need : con.needCompressPollArr = false

variable {sockfd : Int} {fd : ℕ}

private theorem dispatch_quiet {j i : ℕ} (hij : i ≠ j) (r : Ready) (st : LoopState σ × Bool) :
    dispatch on (onlyReady j r) st i = some st := by
  have hzero : (onlyReady j r i).revents = 0 := by rw [onlyReady, if_neg hij]; rfl
  rw [dispatch, if_pos (Or.inr hzero)]

private theorem mainloopTurn_connects (sockfd : Int) (on : Handlers σ) (msg : Message) (args : σ) (fd : ℕ) :
    ∃ con calls, mainloopTurn on (connects fd) ⟨tcpConnectionServerInit .server sockfd msg, args, []⟩ =
      some ⟨con, args, calls⟩ ∧ handedOn calls = [] ∧ ServesOne sockfd fd con := by
  have hnb : (tcpConnectionServerInit .server sockfd msg).nbPollFds < MAX_POLL_SOCKETS := show 2 < 200 by decide
  have hlistener : (tcpConnectionServerInit .server sockfd msg).handling 0 = .accept := by
    simp [TcpConnection.handling, TcpConnection.handlingOf, tcpConnectionServerInit]
  refine ⟨(tcpConnectionServerInit .server sockfd msg).register ⟨fd, ⟨0, 0, 0⟩, 16⟩ hnb,
    [.accepted ⟨fd, ⟨0, 0, 0⟩, 16⟩], ?_, rfl, rfl, rfl, rfl, ?_, rfl, rfl⟩
  · have hfirst : dispatch on (connects fd) (⟨tcpConnectionServerInit .server sockfd msg, args, []⟩, false) 0 =
        some (⟨(tcpConnectionServerInit .server sockfd msg).register ⟨fd, ⟨0, 0, 0⟩, 16⟩ hnb, args,
          [.accepted ⟨fd, ⟨0, 0, 0⟩, 16⟩]⟩, false) := by
      rw [dispatch_ready (by decide) rfl]
      dsimp only
      rw [hlistener]
      rfl
    have hrange : List.range (tcpConnectionServerInit .server sockfd msg).nbPollFds = [0, 1] := rfl
    rw [mainloopTurn, handleSockets, hrange, List.foldlM_cons, hfirst]
    simp only [connects, List.foldlM_cons, List.foldlM_nil, Option.bind_eq_bind, Option.bind_some,
      dispatch_quiet (Nat.succ_ne_zero 0)]
    rfl
  · simp [TcpConnection.register, tcpConnectionServerInit]

private theorem mainloopTurn_arrives (calls : List Call) {con : TcpConnection} (h : ServesOne sockfd fd con)
    (hfd : 0 < fd) (hne : (fd : Int) ≠ sockfd) {m msg' : Message} {args args' : σ}
    (hmsg : on.onMsg fd m Message.size args = some (msg', false, args')) :
    ∃ con' , mainloopTurn on (arrives m) ⟨con, args, calls⟩ =
      some ⟨con', args', calls ++ [.onMsg fd m Message.size]⟩ ∧ ServesOne sockfd fd con' := by
  have hread : con.handling 2 = .read := by
    rw [TcpConnection.handling, dif_pos (by decide), TcpConnection.handlingOf, h.client, h.sock, h.type,
      if_neg fun hand => hne hand.2, if_neg fun hand => hne hand.2, if_neg (by simp only [stdinFd]; omega)]
  have hfill : con.fill 2 m.toBytes = m := by
    rw [TcpConnection.fill, recvInto_toBytes, h.type, if_neg (by decide)]
  have hlast : dispatch on (arrives m) (⟨con, args, []⟩, false) 2 =
      some (⟨{ con with msg := msg' }, args', [.onMsg fd m Message.size]⟩, false) := by
    rw [dispatch_ready (by decide) rfl]
    dsimp only
    rw [hread]
    simp only [handleEntry, readPollSocket, arrives, onlyReady, if_true, readLoop, h.client, hfill,
      Message.toBytes_length, hmsg, h.running]
    rfl
  refine ⟨{ con with msg := msg' }, ?_, h.type, h.sock, h.nb, h.client, h.running, h.need⟩
  have hrange : List.range con.nbPollFds = [0, 1, 2] := by rw [h.nb]; rfl
  have hquiet : ∀ i ≠ 2, ∀ st : LoopState σ × Bool, dispatch on (arrives m) st i = some st :=
    fun i hi st => dispatch_quiet hi _ st
  rw [mainloopTurn, handleSockets]
  dsimp only
  rw [hrange]
  simp only [List.foldlM_cons, List.foldlM_nil, hquiet 0 (by decide), hquiet 1 (by decide), hlast,
    Option.bind_eq_bind, Option.bind_some, Option.pure_def, Option.map_some, compressIfNeeded, h.need,
    if_neg Bool.false_ne_true]

/-- The main loop of a program can receive the messages of one client. -/
theorem Program.Plays.mainloop {P : Program σ} {s₀ s : σ} {hist : List (Int × Message)} (h : P.Plays s₀ hist s)
    {on : Handlers (Progress σ)} (hon : on.onMsg = (P.handlers fun _ => 0).onMsg) (hfd : 0 < fd)
    (hne : (fd : Int) ≠ sockfd) (hsock : ∀ x ∈ hist, x.1 = fd) (msg : Message) :
    ∃ polls con p calls, tcpConnectionMainloop on polls
        ⟨tcpConnectionServerInit .server sockfd msg, ⟨s₀, 0, 0⟩, []⟩ = some (⟨con, p, calls⟩, false) ∧
      p.state = s ∧ p.calls = hist.length ∧ ServesOne sockfd fd con ∧ handedOn calls = hist.reverse := by
  induction h with
  | start =>
    obtain ⟨con, calls, hturn, hcalls, hone⟩ := mainloopTurn_connects sockfd on msg ⟨s₀, 0, 0⟩ fd
    refine ⟨[.ready (connects fd)], con, ⟨s₀, 0, 0⟩, calls, ?_, rfl, rfl, hone, hcalls⟩
    rw [tcpConnectionMainloop, hturn, Option.bind_some, hone.running, if_neg Bool.false_ne_true,
      tcpConnectionMainloop]
  | @step hist s s' sock m m' sent _ hrun ih =>
    rw [List.forall_mem_cons] at hsock
    obtain ⟨polls, con, p, calls, hloop, rfl, hcount, hone, hhanded⟩ := ih hsock.2
    obtain ⟨rfl, -⟩ : sock = fd ∧ _ := hsock
    have hmsg : on.onMsg fd m Message.size p = some (m', false, ⟨s', p.calls + 1, p.sends + sent.length⟩) := by
      have hsends : failedSend (fun _ => 0) p.sends sent.length = false :=
        failedSend_eq_false.2 fun _ _ _ => by decide
      simp only [hon, Program.handlers, hcount, hrun, Option.map_some, hsends]
    obtain ⟨con', hturn, hone'⟩ := mainloopTurn_arrives calls hone hfd hne hmsg
    refine ⟨polls ++ [.ready (arrives m)], con', ⟨s', p.calls + 1, p.sends + sent.length⟩,
      calls ++ [.onMsg fd m Message.size], ?_, rfl, congrArg (· + 1) hcount, hone', ?_⟩
    · rw [tcpConnectionMainloop_append hloop, tcpConnectionMainloop, hturn, Option.bind_some, hone'.running,
        if_neg Bool.false_ne_true, tcpConnectionMainloop]
    · rw [handedOn_append, hhanded, List.reverse_cons]
      rfl

/-- Every call finds the time `0` and memory of zeros. -/
def zeroSurroundings (_ : ℕ) : Surroundings :=
  ⟨20, ⟨0, 0⟩, ⟨Message.zero, Message.zero, Message.zero, Message.zero⟩⟩

theorem serverMain_run_alice :
    ∃ polls r hist, serverMain zeroSurroundings (fun _ => 0) (fun _ => none) 3 Message.zero polls = some r ∧
      Follows r.1.args r.1.calls hist ∧
      handedOn r.1.calls = [((5 : Int), connectionRequest "alice" "secret" 2)] := by
  obtain ⟨r, hr, -⟩ := alice_accepted
  have hplayed : (serverProgram zeroSyndromes zeroSurroundings).Plays freshServer
      [((5 : Int), connectionRequest "alice" "secret" 2)] r.state :=
    .step .start (congrArg (Option.map fun r : Handled => (r.msg, r.sent, r.state)) hr)
  have hon : (serverHandlers zeroSurroundings fun _ => 0).onMsg =
      ((serverProgram zeroSyndromes zeroSurroundings).handlers fun _ => 0).onMsg := rfl
  obtain ⟨polls, con, p, calls, hloop, -, -, -, hhanded⟩ := hplayed.mainloop hon (by decide : 0 < 5)
    (by decide : ((5 : ℕ) : Int) ≠ 3) (fun x hx => by rw [List.mem_singleton.1 hx]; rfl) Message.zero
  have hmain : serverMain zeroSurroundings (fun _ => 0) (fun _ => none) 3 Message.zero polls =
      some (⟨con, p, calls⟩, false) := by
    rw [serverMain, freshServer_eq, Option.bind_some]
    exact hloop
  obtain ⟨hist, hfollows⟩ := serverMain_run hmain
  exact ⟨polls, _, hist, hmain, hfollows, hhanded⟩

end NyanChat
