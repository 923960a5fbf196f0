import NyanChat.Programs

/-!
# The main loop, call by call

`tcp_connection_mainloop` as a program that makes one call of the system after the other, so that another thread can
do something between two of them.  A program that nobody disturbs waits in `poll` in exactly the states in which
`tcpConnectionMainloop` waits for its next answer, and it has left the loop in exactly those in which that function
has (`loopRun_iff`).
-/

namespace NyanChat

/-! ### The steps -/

/-- Where a program stands in its main loop.  In a turn `revents` is what `poll` has reported, and `current` the number
of the entries then. -/
inductive LoopPoint
  | polling
  /-- At the index `i` of the loop through the sockets, or behind it. -/
  | sockets (revents : ℕ → Int) (current i : ℕ)
  /-- In the loop of `new_clients_acceptation`, with its `new_sock`. -/
  | accepting (revents : ℕ → Int) (current i : ℕ) (newSock : Int)
  /-- In the loop of `read_poll_socket`. -/
  | reading (revents : ℕ → Int) (current i : ℕ)
  | left

/-- What a step is given: the answer of the call that it makes.  `none` is an error or a timeout of `poll`,
`EWOULDBLOCK` for `accept` and `recv`, and a `read` without bytes. -/
inductive CallAnswer
  | noCall
  | poll (revents : Option (ℕ → Int))
  | accept (answer : Option Accept)
  | recv (answer : Option Recv)
  | read (bytes : Option (List UInt8))

variable {σ : Type}

/-- A step at the index `i` of the loop through the sockets. -/
def socketStep (on : Handlers σ) (st : LoopState σ) (revents : ℕ → Int) (current i : ℕ) :
    CallAnswer → Option (LoopState σ × LoopPoint)
  | .noCall =>
    if revents i = 0 then some (st, .sockets revents current (i + 1))
    else if revents i ≠ POLLIN then
      some ({ st with con := { st.con with endConnection := true } }, .sockets revents current current)
    else if i < MAX_POLL_SOCKETS then
      match st.con.handling i with
      | .accept => some (st, .accepting revents current i (-1))
      | .read => some (st, .reading revents current i)
      | .stdin => none
    else none
  | .read bytes =>
    if revents i = POLLIN ∧ i < MAX_POLL_SOCKETS ∧ st.con.handling i = .stdin then
      match bytes with
      | none => some (st, .sockets revents current current)
      | some bytes => (readStdin on bytes st).map fun st => (st, .sockets revents current (i + 1))
    else none
  | _ => none

/-- A step of the loop of `new_clients_acceptation`. -/
def acceptStep (st : LoopState σ) (revents : ℕ → Int) (current i : ℕ) (newSock : Int) :
    CallAnswer → Option (LoopState σ × LoopPoint)
  | .noCall =>
    -- with a full table there is no call, and `new_sock` keeps its value
    if st.con.nbPollFds < MAX_POLL_SOCKETS then none
    else some (st, if newSock = -1 then .sockets revents current (i + 1) else .accepting revents current i newSock)
  | .accept answer =>
    if h : st.con.nbPollFds < MAX_POLL_SOCKETS then
      match answer with
      | none => some (st, .sockets revents current (i + 1))
      | some .failed =>
        some ({ st with con := { st.con with endConnection := true } }, .sockets revents current (i + 1))
      | some (.socket fd addr adLen) =>
        some ({ st with
          con := st.con.register ⟨fd, addr, adLen⟩ h
          calls := st.calls ++ [.accepted ⟨fd, addr, adLen⟩] }, .accepting revents current i fd)
    else none
  | _ => none

/-- A step of the loop of `read_poll_socket`, and its closing of the socket. -/
def recvStep (on : Handlers σ) (st : LoopState σ) (revents : ℕ → Int) (current i : ℕ) (answer : Option Recv) :
    Option (LoopState σ × LoopPoint) :=
  if h : i < MAX_POLL_SOCKETS then
    let fd := st.con.poll[i].fd
    match answer with
    | none => some (st, .sockets revents current (i + 1))
    | some (.data bytes) =>
      let msg := st.con.fill i bytes
      (on.onMsg fd msg bytes.length st.args).map fun r =>
        ({ con := { st.con with msg := r.1, endConnection := st.con.endConnection || r.2.1 }
           args := r.2.2
           calls := st.calls ++ [.onMsg fd msg bytes.length] }, .reading revents current i)
    | some _ =>
      some ({ st with con := st.con.close i h, calls := st.calls ++ [.closed fd] }, .sockets revents current (i + 1))
  else none

/-- The compression after the loop through the sockets, and the test of `end_connection`. -/
def endTurnStep (st : LoopState σ) (current : ℕ) : CallAnswer → Option (LoopState σ × LoopPoint)
  | .noCall => (compressIfNeeded st.con current).map fun con =>
      ({ st with con := con }, if con.endConnection then .left else .polling)
  | _ => none

def mainloopStep (on : Handlers σ) (st : LoopState σ) : LoopPoint → CallAnswer → Option (LoopState σ × LoopPoint)
  | .polling, .poll none => some (st, .left)
  | .polling, .poll (some revents) => some (st, .sockets revents st.con.nbPollFds 0)
  | .sockets revents current i, answer =>
    if i < current then socketStep on st revents current i answer else endTurnStep st current answer
  | .accepting revents current i newSock, answer => acceptStep st revents current i newSock answer
  | .reading revents current i, .recv answer => recvStep on st revents current i answer
  | _, _ => none

/-- What a step can do. -/
inductive StepCase (on : Handlers σ) (st : LoopState σ) : LoopPoint → CallAnswer → LoopState σ → LoopPoint → Prop
  | failed : StepCase on st .polling (.poll none) st .left
  | polled (revents : ℕ → Int) :
      StepCase on st .polling (.poll (some revents)) st (.sockets revents st.con.nbPollFds 0)
  | skipped {revents : ℕ → Int} {current i : ℕ} : i < current → revents i = 0 →
      StepCase on st (.sockets revents current i) .noCall st (.sockets revents current (i + 1))
  | error {revents : ℕ → Int} {current i : ℕ} : i < current → revents i ≠ 0 → revents i ≠ POLLIN →
      StepCase on st (.sockets revents current i) .noCall
        { st with con := { st.con with endConnection := true } } (.sockets revents current current)
  | toAccept {revents : ℕ → Int} {current i : ℕ} : i < current → revents i = POLLIN → i < MAX_POLL_SOCKETS →
      st.con.handling i = .accept →
      StepCase on st (.sockets revents current i) .noCall st (.accepting revents current i (-1))
  | toRead {revents : ℕ → Int} {current i : ℕ} : i < current → revents i = POLLIN → i < MAX_POLL_SOCKETS →
      st.con.handling i = .read →
      StepCase on st (.sockets revents current i) .noCall st (.reading revents current i)
  | noInput {revents : ℕ → Int} {current i : ℕ} : i < current → revents i = POLLIN → i < MAX_POLL_SOCKETS →
      st.con.handling i = .stdin →
      StepCase on st (.sockets revents current i) (.read none) st (.sockets revents current current)
  | input {revents : ℕ → Int} {current i : ℕ} {bytes : List UInt8} {st' : LoopState σ} : i < current →
      revents i = POLLIN → i < MAX_POLL_SOCKETS → st.con.handling i = .stdin → readStdin on bytes st = some st' →
      StepCase on st (.sockets revents current i) (.read (some bytes)) st' (.sockets revents current (i + 1))
  | endTurn {revents : ℕ → Int} {current i : ℕ} {con : TcpConnection} : ¬ i < current →
      compressIfNeeded st.con current = some con →
      StepCase on st (.sockets revents current i) .noCall { st with con := con }
        (if con.endConnection then .left else .polling)
  | full {revents : ℕ → Int} {current i : ℕ} {newSock : Int} : ¬ st.con.nbPollFds < MAX_POLL_SOCKETS →
      StepCase on st (.accepting revents current i newSock) .noCall st
        (if newSock = -1 then .sockets revents current (i + 1) else .accepting revents current i newSock)
  | wouldBlock {revents : ℕ → Int} {current i : ℕ} {newSock : Int} : st.con.nbPollFds < MAX_POLL_SOCKETS →
      StepCase on st (.accepting revents current i newSock) (.accept none) st (.sockets revents current (i + 1))
  | acceptFailed {revents : ℕ → Int} {current i : ℕ} {newSock : Int} : st.con.nbPollFds < MAX_POLL_SOCKETS →
      StepCase on st (.accepting revents current i newSock) (.accept (some .failed))
        { st with con := { st.con with endConnection := true } } (.sockets revents current (i + 1))
  | accepted {revents : ℕ → Int} {current i : ℕ} {newSock : Int} {fd : ℕ} {addr : SockaddrIn} {adLen : ℕ}
      (h : st.con.nbPollFds < MAX_POLL_SOCKETS) :
      StepCase on st (.accepting revents current i newSock) (.accept (some (.socket fd addr adLen)))
        { st with con := st.con.register ⟨fd, addr, adLen⟩ h, calls := st.calls ++ [.accepted ⟨fd, addr, adLen⟩] }
        (.accepting revents current i fd)
  | noData {revents : ℕ → Int} {current i : ℕ} : i < MAX_POLL_SOCKETS →
      StepCase on st (.reading revents current i) (.recv none) st (.sockets revents current (i + 1))
  | received {revents : ℕ → Int} {current i : ℕ} {bytes : List UInt8} {msg : Message} {ended : Bool} {args : σ}
      (h : i < MAX_POLL_SOCKETS) :
      on.onMsg st.con.poll[i].fd (st.con.fill i bytes) bytes.length st.args = some (msg, ended, args) →
      StepCase on st (.reading revents current i) (.recv (some (.data bytes)))
        ⟨{ st.con with msg := msg, endConnection := st.con.endConnection || ended }, args,
          st.calls ++ [.onMsg st.con.poll[i].fd (st.con.fill i bytes) bytes.length]⟩ (.reading revents current i)
  | closed {revents : ℕ → Int} {current i : ℕ} {answer : Recv} (h : i < MAX_POLL_SOCKETS) :
      answer = .closed ∨ answer = .failed →
      StepCase on st (.reading revents current i) (.recv (some answer))
        { st with con := st.con.close i h, calls := st.calls ++ [.closed st.con.poll[i].fd] }
        (.sockets revents current (i + 1))

theorem mainloopStep_case {on : Handlers σ} {st st' : LoopState σ} {p p' : LoopPoint} {answer : CallAnswer}
    (hstep : mainloopStep on st p answer = some (st', p')) : StepCase on st p answer st' p' := by
  unfold mainloopStep at hstep
  split at hstep
  · cases hstep
    exact .failed
  · cases hstep
    exact .polled _
  · split at hstep
    · rename_i hi
      unfold socketStep at hstep
      split at hstep
      · split_ifs at hstep with hzero hpollin hbound
        · cases hstep
          exact .skipped hi hzero
        · cases hstep
          exact .error hi hzero hpollin
        · rw [not_not] at hpollin
          split at hstep
          · cases hstep
            exact .toAccept hi hpollin hbound ‹_›
          · cases hstep
            exact .toRead hi hpollin hbound ‹_›
          · cases hstep
      · split_ifs at hstep with hread
        obtain ⟨hpollin, hbound, hhandling⟩ := hread
        split at hstep
        · cases hstep
          exact .noInput hi hpollin hbound hhandling
        · obtain ⟨st', hst', hpair⟩ := Option.map_eq_some_iff.1 hstep
          cases hpair
          exact .input hi hpollin hbound hhandling hst'
      · cases hstep
    · rename_i hi
      unfold endTurnStep at hstep
      split at hstep
      · obtain ⟨con, hcon, hpair⟩ := Option.map_eq_some_iff.1 hstep
        cases hpair
        exact .endTurn hi hcon
      · cases hstep
  · unfold acceptStep at hstep
    split at hstep
    · split at hstep
      · cases hstep
      · rename_i hnb
        cases hstep
        exact .full hnb
    · split_ifs at hstep with hnb
      split at hstep
      · cases hstep
        exact .wouldBlock hnb
      · cases hstep
        exact .acceptFailed hnb
      · cases hstep
        exact .accepted hnb
    · cases hstep
  · unfold recvStep at hstep
    split_ifs at hstep with hi
    dsimp only at hstep
    split at hstep
    · cases hstep
      exact .noData hi
    · obtain ⟨⟨msg, ended, args⟩, hmsg, hpair⟩ := Option.map_eq_some_iff.1 hstep
      cases hpair
      exact .received hi hmsg
    · rename_i answer hdata
      cases hstep
      refine .closed hi ?_
      cases answer with
      | data bytes => exact absurd rfl (hdata bytes)
      | closed => exact .inl rfl
      | failed => exact .inr rfl
  · cases hstep

/-- The states of a program that starts its main loop in `st₀`, and that nobody disturbs. -/
inductive LoopRun (on : Handlers σ) (st₀ : LoopState σ) : LoopState σ → LoopPoint → Prop
  | start : LoopRun on st₀ st₀ .polling
  | step {st st' : LoopState σ} {p p' : LoopPoint} (answer : CallAnswer) : LoopRun on st₀ st p →
      mainloopStep on st p answer = some (st', p') → LoopRun on st₀ st' p'

variable {on : Handlers σ} {st₀ st st' : LoopState σ} {revents : ℕ → Int} {current i : ℕ} {before : List Call}

/-- The state of a turn, with the calls of the earlier turns. -/
def LoopState.after (before : List Call) (st : LoopState σ) : LoopState σ := { st with calls := before ++ st.calls }

theorem readStdin_after (bytes : List UInt8) :
    readStdin on bytes (st.after before) = (readStdin on bytes st).map (LoopState.after before) := by
  unfold readStdin
  cases on.onStdin with
  | none => rfl
  | some onStdin =>
    rw [Option.map_map]
    rfl

/-! ### From turns to steps -/

/-- With a full table the loop comes back at once or not at all. -/
private theorem acceptLoop_of_full {newSock : Int} {con con' : TcpConnection} {accepts : List Accept}
    {new : List Call} (hfull : ¬ con.nbPollFds < MAX_POLL_SOCKETS)
    (hrun : acceptLoop newSock con accepts = some (con', new)) : newSock = -1 ∧ con' = con ∧ new = [] := by
  have hends : (if newSock = -1 then some (con, ([] : List Call)) else none) = some (con', new) := by
    cases accepts with
    | nil => simpa only [acceptLoop, hfull, false_or] using hrun
    | cons a accepts => cases a <;> simpa only [acceptLoop, hfull, ↓reduceIte, ↓reduceDIte] using hrun
  split at hends
  · rename_i hsock
    cases hends
    exact ⟨hsock, rfl, rfl⟩
  · cases hends

theorem acceptLoop_loopRun {newSock : Int} {con con' : TcpConnection} {accepts : List Accept} {new : List Call}
    {args : σ} {calls : List Call} (hrun : acceptLoop newSock con accepts = some (con', new))
    (h : LoopRun on st₀ ⟨con, args, calls⟩ (.accepting revents current i newSock)) :
    LoopRun on st₀ ⟨con', args, calls ++ new⟩ (.sockets revents current (i + 1)) := by
  induction accepts generalizing newSock con calls new with
  | nil =>
    by_cases hnb : con.nbPollFds < MAX_POLL_SOCKETS
    · rw [acceptLoop, if_pos (Or.inl hnb)] at hrun
      cases hrun
      rw [List.append_nil]
      exact .step (.accept none) h (by simp [mainloopStep, acceptStep, hnb])
    · obtain ⟨rfl, rfl, rfl⟩ := acceptLoop_of_full hnb hrun
      rw [List.append_nil]
      exact .step .noCall h (by simp [mainloopStep, acceptStep, hnb])
  | cons a accepts ih =>
    by_cases hnb : con.nbPollFds < MAX_POLL_SOCKETS
    · cases a with
      | failed =>
        rw [acceptLoop, if_pos hnb] at hrun
        cases hrun
        rw [List.append_nil]
        exact .step (.accept (some .failed)) h (by simp [mainloopStep, acceptStep, hnb])
      | socket fd addr adLen =>
        rw [acceptLoop, dif_pos hnb] at hrun
        obtain ⟨⟨con₁, rest⟩, hrest, hpair⟩ := Option.map_eq_some_iff.1 hrun
        cases hpair
        rw [← List.singleton_append, ← List.append_assoc]
        exact ih hrest (.step (.accept (some (.socket fd addr adLen))) h
          (by simp [mainloopStep, acceptStep, hnb]))
    · obtain ⟨rfl, rfl, rfl⟩ := acceptLoop_of_full hnb hrun
      rw [List.append_nil]
      exact .step .noCall h (by simp [mainloopStep, acceptStep, hnb])

theorem readPollSocket_loopRun (hi : i < MAX_POLL_SOCKETS) {recvs : List Recv}
    (hrun : readPollSocket on i hi recvs st = some st')
    (h : LoopRun on st₀ (st.after before) (.reading revents current i)) :
    LoopRun on st₀ (st'.after before) (.sockets revents current (i + 1)) := by
  induction recvs generalizing st with
  | nil =>
    cases hrun
    exact .step (.recv none) h (by simp [mainloopStep, recvStep, hi])
  | cons a recvs ih =>
    cases a with
    | closed =>
      cases hrun
      refine .step (.recv (some .closed)) h ?_
      simp [mainloopStep, recvStep, hi, LoopState.after]
    | failed =>
      cases hrun
      refine .step (.recv (some .failed)) h ?_
      simp [mainloopStep, recvStep, hi, LoopState.after]
    | data bytes =>
      rw [readPollSocket, readLoop] at hrun
      dsimp only at hrun
      split at hrun
      · cases hrun
      · rename_i msg' ended args hmsg
        have hnext : LoopRun on st₀ (LoopState.after before
            ⟨{ st.con with msg := msg', endConnection := st.con.endConnection || ended }, args,
              st.calls ++ [.onMsg st.con.poll[i].fd (st.con.fill i bytes) bytes.length]⟩)
            (.reading revents current i) := by
          refine .step (.recv (some (.data bytes))) h ?_
          simp [mainloopStep, recvStep, hi, LoopState.after, hmsg]
        refine ih ?_ hnext
        exact hrun

/-- A turn of the loop through the sockets. -/
theorem dispatch_loopRun {ready : ℕ → Ready} (hrevents : (ready i).revents = revents i) (hi : i < current)
    {r r' : LoopState σ × Bool} (hrun : dispatch on ready r i = some r')
    (h : LoopRun on st₀ (r.1.after before) (.sockets revents current (if r.2 then current else i))) :
    LoopRun on st₀ (r'.1.after before) (.sockets revents current (if r'.2 then current else i + 1)) := by
  obtain ⟨st, broke⟩ := r
  cases hbroke : broke with
  | true =>
    subst hbroke
    rw [dispatch_broke] at hrun
    cases hrun
    exact h
  | false =>
    subst hbroke
    rw [if_neg Bool.false_ne_true] at h
    have hstep : ∀ {st' p} (answer : CallAnswer), socketStep on (st.after before) revents current i answer =
        some (st', p) → LoopRun on st₀ st' p := fun answer hsocket =>
      .step answer h (by rw [mainloopStep, if_pos hi, hsocket])
    cases dispatch_dispatched hrun with
    | skipped hskip =>
      have hzero := hskip.resolve_left Bool.false_ne_true
      exact hstep .noCall (by rw [socketStep, if_pos (hrevents ▸ hzero), if_neg Bool.false_ne_true])
    | error _ hzero hpollin =>
      rw [hrevents] at hzero hpollin
      exact hstep .noCall (by rw [socketStep, if_neg hzero, if_pos hpollin, if_pos rfl]; rfl)
    | handled hlt _ hpollin hentry =>
      rw [hrevents] at hpollin
      have hzero : revents i ≠ 0 := by rw [hpollin]; decide
      have hnext : ∀ p, (match st.con.handling i with
            | .accept => some (st.after before, LoopPoint.accepting revents current i (-1))
            | .read => some (st.after before, .reading revents current i)
            | .stdin => none) = some (st.after before, p) → LoopRun on st₀ (st.after before) p := fun p hp =>
        hstep .noCall (by rw [socketStep, if_neg hzero, if_neg (not_not.2 hpollin), if_pos hlt]; exact hp)
      cases hhandling : st.con.handling i with
      | accept =>
        rw [hhandling] at hentry hnext
        obtain ⟨x, haccept, rfl⟩ := Option.map_eq_some_iff.1 hentry
        have hafter := acceptLoop_loopRun haccept (hnext _ rfl)
        rw [List.append_assoc] at hafter
        exact hafter
      | read =>
        rw [hhandling] at hentry hnext
        obtain ⟨st', hread, rfl⟩ := Option.map_eq_some_iff.1 hentry
        exact readPollSocket_loopRun hlt hread (hnext _ rfl)
      | stdin =>
        rw [hhandling, handleEntry] at hentry
        cases hstdin : (ready i).stdin with
        | none =>
          rw [hstdin] at hentry
          cases hentry
          exact hstep (.read none) (by rw [socketStep, if_pos ⟨hpollin, hlt, hhandling⟩, if_pos rfl])
        | some bytes =>
          rw [hstdin] at hentry
          obtain ⟨st', hread, rfl⟩ := Option.map_eq_some_iff.1 hentry
          refine hstep (.read (some bytes)) ?_
          rw [socketStep, if_pos ⟨hpollin, hlt, hhandling⟩, if_neg Bool.false_ne_true]
          dsimp only
          rw [readStdin_after, hread]
          rfl

theorem mainloopTurn_loopRun {ready : ℕ → Ready} (hrun : mainloopTurn on ready st = some st')
    (h : LoopRun on st₀ st .polling) : LoopRun on st₀ st' (if st'.con.endConnection then .left else .polling) := by
  obtain ⟨st₁, hsockets, hrun⟩ := Option.bind_eq_some_iff.1 hrun
  obtain ⟨con, hcompress, rfl⟩ := Option.map_eq_some_iff.1 hrun
  obtain ⟨r, hfold, rfl⟩ := Option.map_eq_some_iff.1 hsockets
  have hstart : LoopRun on st₀ (LoopState.after st.calls ⟨st.con, st.args, []⟩)
      (.sockets (fun j => (ready j).revents) st.con.nbPollFds 0) := by
    refine .step (.poll (some fun j => (ready j).revents)) h ?_
    rw [mainloopStep, LoopState.after, List.append_nil]
  have hend := Loop.foldlM_range_of_some (fun i (r : LoopState σ × Bool) => LoopRun on st₀ (r.1.after st.calls)
      (.sockets (fun j => (ready j).revents) st.con.nbPollFds (if r.2 then st.con.nbPollFds else i))) hfold
    hstart fun i hi r r' hr hstep => dispatch_loopRun rfl hi hstep hr
  rw [ite_self] at hend
  refine .step .noCall hend ?_
  rw [mainloopStep, if_neg (Nat.lt_irrefl _), endTurnStep]
  exact Option.map_eq_some_iff.2 ⟨con, hcompress, rfl⟩

/-- What the main loop does is done step by step. -/
theorem mainloop_loopRun {polls : List PollAnswer} {r : LoopState σ × Bool}
    (hrun : tcpConnectionMainloop on polls st = some r) (h : LoopRun on st₀ st .polling) :
    LoopRun on st₀ r.1 (if r.2 then .left else .polling) := by
  induction polls generalizing st with
  | nil =>
    cases hrun
    exact h
  | cons answer polls ih =>
    cases answer with
    | failed =>
      cases hrun
      exact .step (.poll none) h rfl
    | ready ready =>
      obtain ⟨st₁, hturn, hrun⟩ := Option.bind_eq_some_iff.1 hrun
      have hnext := mainloopTurn_loopRun hturn h
      split at hrun
      · rename_i hended
        cases hrun
        rw [if_pos hended] at hnext
        exact hnext
      · rename_i hopen
        rw [if_neg hopen] at hnext
        exact ih hrun hnext

/-! ### From steps to turns -/

/-- The loop through the sockets that began in `st₁` has come to the index `i` with the result `r`. -/
def Through (on : Handlers σ) (st₁ : LoopState σ) (revents : ℕ → Int) (i : ℕ) (r : LoopState σ × Bool) : Prop :=
  ∃ ready : ℕ → Ready, (∀ j, (ready j).revents = revents j) ∧
    (List.range i).foldlM (dispatch on ready) (⟨st₁.con, st₁.args, []⟩, false) = some r

namespace Through

variable {st₁ inner : LoopState σ} {r : LoopState σ × Bool}

theorem start (on : Handlers σ) (st₁ : LoopState σ) (revents : ℕ → Int) :
    Through on st₁ revents 0 (⟨st₁.con, st₁.args, []⟩, false) :=
  ⟨fun j => { revents := revents j, accepts := [], recvs := [], stdin := none }, fun _ => rfl, rfl⟩

/-- The next index, with the answers `x` of its calls. -/
theorem next (h : Through on st₁ revents i (inner, false)) {x : Ready} (hx : x.revents = revents i)
    (hdispatch : dispatch on (fun _ => x) (inner, false) i = some r) : Through on st₁ revents (i + 1) r := by
  obtain ⟨ready, hready, hfold⟩ := h
  refine ⟨Function.update ready i x, fun j => ?_, ?_⟩
  · by_cases hj : j = i
    · rw [hj, Function.update_self, hx]
    · rw [Function.update_of_ne hj, hready]
  · have hsame : ∀ j ∈ List.range i, ∀ r, dispatch on (Function.update ready i x) r j = dispatch on ready r j := by
      intro j hj r
      simp only [dispatch, Function.update_of_ne (Nat.ne_of_lt (List.mem_range.1 hj))]
    rw [Loop.foldlM_range_succ ((Loop.foldlM_congr hsame _).trans hfold), ← hdispatch]
    simp only [dispatch, Function.update_self]

/-- After a `break` nothing is done. -/
theorem broke (h : Through on st₁ revents i (inner, true)) {n : ℕ} (hle : i ≤ n) :
    Through on st₁ revents n (inner, true) := by
  induction n, hle using Nat.le_induction with
  | base => exact h
  | succ n _ ih =>
    obtain ⟨ready, hready, hfold⟩ := ih
    exact ⟨ready, hready, (Loop.foldlM_range_succ hfold).trans (dispatch_broke inner n)⟩

/-- The end of the loop. -/
theorem handleSockets (h : Through on st₁ revents st₁.con.nbPollFds r) :
    ∃ ready, handleSockets on ready st₁.con st₁.args = some r.1 := by
  obtain ⟨ready, -, hfold⟩ := h
  exact ⟨ready, Option.map_eq_some_iff.2 ⟨r, hfold, rfl⟩⟩

end Through

/-- A program is in a turn that began in `st₁`, at the index `i`. -/
structure InTurn (on : Handlers σ) (st₀ st₁ : LoopState σ) (revents : ℕ → Int) (current i : ℕ) (inner : LoopState σ) :
    Prop where
  waits : ∃ polls, tcpConnectionMainloop on polls st₀ = some (st₁, false)
  nb : st₁.con.nbPollFds = current
  lt : i < current
  through : Through on st₁ revents i (inner, false)

/-- At the index `i` a socket is handled. -/
structure Handles (on : Handlers σ) (st₀ st₁ : LoopState σ) (revents : ℕ → Int) (current i : ℕ) (inner : LoopState σ)
    (handling : Handling) : Prop extends InTurn on st₀ st₁ revents current i inner where
  pollin : revents i = POLLIN
  bound : i < MAX_POLL_SOCKETS
  handling : inner.con.handling i = handling

/-- What the function of the main loop says about the places of the program. -/
inductive Stands (on : Handlers σ) (st₀ : LoopState σ) : LoopState σ → LoopPoint → Prop
  | polling {st : LoopState σ} {polls : List PollAnswer} : tcpConnectionMainloop on polls st₀ = some (st, false) →
      Stands on st₀ st .polling
  | left {st : LoopState σ} {polls : List PollAnswer} : tcpConnectionMainloop on polls st₀ = some (st, true) →
      Stands on st₀ st .left
  | sockets {st₁ inner : LoopState σ} {revents : ℕ → Int} {current i : ℕ} :
      InTurn on st₀ st₁ revents current i inner →
      Stands on st₀ (inner.after st₁.calls) (.sockets revents current i)
  | behind {polls : List PollAnswer} {st₁ : LoopState σ} {revents : ℕ → Int} {r : LoopState σ × Bool} :
      tcpConnectionMainloop on polls st₀ = some (st₁, false) → Through on st₁ revents st₁.con.nbPollFds r →
      Stands on st₀ (r.1.after st₁.calls) (.sockets revents st₁.con.nbPollFds st₁.con.nbPollFds)
  | accepting {st₁ inner : LoopState σ} {revents : ℕ → Int} {current i : ℕ} {newSock : Int} {accepts : List Accept}
      {con : TcpConnection} {new : List Call} : Handles on st₀ st₁ revents current i inner .accept →
      (∀ rest, acceptLoop (-1) inner.con (accepts ++ rest) =
        (acceptLoop newSock con rest).map fun r => (r.1, new ++ r.2)) →
      Stands on st₀ (LoopState.after st₁.calls ⟨con, inner.args, inner.calls ++ new⟩)
        (.accepting revents current i newSock)
  | reading {st₁ inner st : LoopState σ} {revents : ℕ → Int} {current i : ℕ} {recvs : List Recv}
      (hi : i < MAX_POLL_SOCKETS) : Handles on st₀ st₁ revents current i inner .read →
      (∀ rest, readLoop on i inner.con.poll[i].fd (recvs ++ rest) inner =
        readLoop on i inner.con.poll[i].fd rest st) → st.con.poll = inner.con.poll →
      Stands on st₀ (st.after st₁.calls) (.reading revents current i)

variable {st₁ inner : LoopState σ} {r : LoopState σ × Bool} {handling : Handling}

theorem Stands.next {polls : List PollAnswer} (hpolls : tcpConnectionMainloop on polls st₀ = some (st₁, false))
    (h : Through on st₁ revents i r) (hle : i ≤ st₁.con.nbPollFds) (hbroke : r.2 = true → i = st₁.con.nbPollFds) :
    Stands on st₀ (r.1.after st₁.calls) (.sockets revents st₁.con.nbPollFds i) := by
  rcases Nat.lt_or_eq_of_le hle with hlt | rfl
  · obtain ⟨inner, broke⟩ := r
    obtain rfl : broke = false := by
      rw [← Bool.not_eq_true]
      exact fun h => absurd (hbroke h) (Nat.ne_of_lt hlt)
    exact .sockets ⟨⟨polls, hpolls⟩, rfl, hlt, h⟩
  · exact .behind hpolls h

/-- The index has been handled. -/
theorem InTurn.stands (h : InTurn on st₀ st₁ revents current i inner) {x : Ready} (hx : x.revents = revents i)
    (hdispatch : dispatch on (fun _ => x) (inner, false) i = some r) :
    Stands on st₀ (r.1.after st₁.calls) (.sockets revents current (if r.2 then current else i + 1)) := by
  obtain ⟨⟨polls, hpolls⟩, rfl, hlt, hthrough⟩ := h
  have hnext := hthrough.next hx hdispatch
  obtain ⟨st, broke⟩ := r
  cases broke with
  | false => exact .next hpolls hnext hlt fun h => absurd h Bool.false_ne_true
  | true => exact .behind hpolls (hnext.broke hlt)

theorem Handles.stands (h : Handles on st₀ st₁ revents current i inner handling) {x : Ready}
    (hx : x.revents = POLLIN) (hentry : handleEntry on x i h.bound inner handling = some r) :
    Stands on st₀ (r.1.after st₁.calls) (.sockets revents current (if r.2 then current else i + 1)) := by
  refine h.toInTurn.stands (hx.trans h.pollin.symm) ?_
  rw [dispatch_ready h.bound hx, h.handling]
  exact hentry

theorem Stands.polled {polls : List PollAnswer} {answer : CallAnswer} {p' : LoopPoint}
    (hpolls : tcpConnectionMainloop on polls st₀ = some (st, false))
    (hcase : StepCase on st .polling answer st' p') : Stands on st₀ st' p' := by
  cases hcase with
  | failed => exact .left (tcpConnectionMainloop_append hpolls [.failed])
  | polled revents =>
    have hnext := Stands.next hpolls (Through.start on st revents) (Nat.zero_le _) fun h => absurd h Bool.false_ne_true
    simp only [LoopState.after, List.append_nil] at hnext
    exact hnext

theorem InTurn.step {answer : CallAnswer} {p' : LoopPoint} (h : InTurn on st₀ st₁ revents current i inner)
    (hcase : StepCase on (inner.after st₁.calls) (.sockets revents current i) answer st' p') :
    Stands on st₀ st' p' := by
  cases hcase with
  | skipped _ hzero =>
    refine h.stands (x := ⟨revents i, [], [], none⟩) (r := (inner, false)) rfl ?_
    rw [dispatch, if_pos (Or.inr hzero)]
  | error _ hzero hpollin =>
    refine h.stands (x := ⟨revents i, [], [], none⟩)
      (r := ({ inner with con := { inner.con with endConnection := true } }, true)) rfl ?_
    rw [dispatch, if_neg (not_or.2 ⟨Bool.false_ne_true, hzero⟩), if_pos hpollin]
  | toAccept _ hpollin hbound hhandling =>
    have hstart : ∀ rest, acceptLoop (-1) inner.con ([] ++ rest) =
        (acceptLoop (-1) inner.con rest).map fun r => (r.1, [] ++ r.2) := fun rest => by simp
    have haccepting := Stands.accepting ⟨h, hpollin, hbound, hhandling⟩ hstart
    rw [List.append_nil] at haccepting
    exact haccepting
  | toRead _ hpollin hbound hhandling =>
    have hstart : ∀ rest, readLoop on i inner.con.poll[i].fd ([] ++ rest) inner =
        readLoop on i inner.con.poll[i].fd rest inner := fun _ => rfl
    exact .reading hbound ⟨h, hpollin, hbound, hhandling⟩ hstart rfl
  | noInput _ hpollin hbound hhandling =>
    have hhandles : Handles on st₀ st₁ revents current i inner .stdin := ⟨h, hpollin, hbound, hhandling⟩
    exact hhandles.stands (x := ⟨POLLIN, [], [], none⟩) (r := (inner, true)) rfl rfl
  | @input _ _ _ bytes _ _ hpollin hbound hhandling hread =>
    have hhandles : Handles on st₀ st₁ revents current i inner .stdin := ⟨h, hpollin, hbound, hhandling⟩
    rw [readStdin_after] at hread
    obtain ⟨st', hst', rfl⟩ := Option.map_eq_some_iff.1 hread
    refine hhandles.stands (x := ⟨POLLIN, [], [], some bytes⟩) (r := (st', false)) rfl ?_
    rw [handleEntry]
    exact Option.map_eq_some_iff.2 ⟨st', hst', rfl⟩
  | endTurn hi _ => exact absurd h.lt hi

theorem Stands.turnEnds {polls : List PollAnswer} {answer : CallAnswer} {p' : LoopPoint}
    (hpolls : tcpConnectionMainloop on polls st₀ = some (st₁, false))
    (hthrough : Through on st₁ revents st₁.con.nbPollFds r)
    (hcase : StepCase on (r.1.after st₁.calls) (.sockets revents st₁.con.nbPollFds st₁.con.nbPollFds) answer st' p') :
    Stands on st₀ st' p' := by
  cases hcase with
  | @endTurn _ _ _ con _ hcon =>
    obtain ⟨ready, hready⟩ := hthrough.handleSockets
    have hturn : mainloopTurn on ready st₁ = some ⟨con, r.1.args, st₁.calls ++ r.1.calls⟩ := by
      rw [mainloopTurn, hready, Option.bind_some]
      exact Option.map_eq_some_iff.2 ⟨con, hcon, rfl⟩
    have hmore := tcpConnectionMainloop_append hpolls [.ready ready]
    rw [tcpConnectionMainloop, hturn, Option.bind_some] at hmore
    split
    · rename_i hended
      rw [if_pos hended] at hmore
      exact .left hmore
    · rename_i hopen
      rw [if_neg hopen] at hmore
      exact .polling hmore
  | skipped hlt _ => exact absurd hlt (Nat.lt_irrefl _)
  | error hlt _ _ => exact absurd hlt (Nat.lt_irrefl _)
  | toAccept hlt _ _ _ => exact absurd hlt (Nat.lt_irrefl _)
  | toRead hlt _ _ _ => exact absurd hlt (Nat.lt_irrefl _)
  | noInput hlt _ _ _ => exact absurd hlt (Nat.lt_irrefl _)
  | input hlt _ _ _ _ => exact absurd hlt (Nat.lt_irrefl _)

theorem Stands.acceptStep {newSock : Int} {accepts : List Accept} {con : TcpConnection} {new : List Call}
    {answer : CallAnswer} {p' : LoopPoint} (h : Handles on st₀ st₁ revents current i inner .accept)
    (hloop : ∀ rest, acceptLoop (-1) inner.con (accepts ++ rest) =
      (acceptLoop newSock con rest).map fun r => (r.1, new ++ r.2))
    (hcase : StepCase on (LoopState.after st₁.calls ⟨con, inner.args, inner.calls ++ new⟩)
      (.accepting revents current i newSock) answer st' p') : Stands on st₀ st' p' := by
  -- the loop ends with the answers `rest`
  have hends : ∀ rest {con'}, acceptLoop newSock con rest = some (con', []) →
      Stands on st₀ (LoopState.after st₁.calls ⟨con', inner.args, inner.calls ++ new⟩)
        (.sockets revents current (i + 1)) := by
    intro rest con' hrest
    refine h.stands (x := ⟨POLLIN, accepts ++ rest, [], none⟩) (r := (⟨con', inner.args, inner.calls ++ new⟩, false))
      rfl (Option.map_eq_some_iff.2 ⟨(con', new), ?_, rfl⟩)
    rw [newClientsAcceptation, hloop, hrest, Option.map_some, List.append_nil]
  cases hcase with
  | full _ =>
    split
    · rename_i hsock
      exact hends [] (by rw [acceptLoop, if_pos (Or.inr hsock)])
    · exact .accepting h hloop
  | wouldBlock hnb =>
    refine hends [] ?_
    rw [acceptLoop]
    exact if_pos (Or.inl hnb)
  | acceptFailed hnb =>
    refine hends [.failed] ?_
    rw [acceptLoop]
    exact if_pos hnb
  | @accepted _ _ _ _ fd addr adLen hnb =>
    have hnb : con.nbPollFds < MAX_POLL_SOCKETS := hnb
    have hmore : ∀ rest, acceptLoop (-1) inner.con ((accepts ++ [.socket fd addr adLen]) ++ rest) =
        (acceptLoop fd (con.register ⟨fd, addr, adLen⟩ hnb) rest).map fun r =>
          (r.1, (new ++ [.accepted ⟨fd, addr, adLen⟩]) ++ r.2) := by
      intro rest
      rw [List.append_assoc, hloop, List.singleton_append, acceptLoop, dif_pos hnb, Option.map_map]
      simp only [Function.comp_def, List.append_assoc, List.singleton_append]
    have hnext := Stands.accepting h hmore
    simp only [LoopState.after, List.append_assoc] at hnext ⊢
    exact hnext

theorem Stands.recvStep {recvs : List Recv} {answer : CallAnswer} {p' : LoopPoint} (hi : i < MAX_POLL_SOCKETS)
    (h : Handles on st₀ st₁ revents current i inner .read)
    (hloop : ∀ rest, readLoop on i inner.con.poll[i].fd (recvs ++ rest) inner =
      readLoop on i inner.con.poll[i].fd rest st) (hpoll : st.con.poll = inner.con.poll)
    (hcase : StepCase on (st.after st₁.calls) (.reading revents current i) answer st' p') : Stands on st₀ st' p' := by
  have hfd : st.con.poll[i].fd = inner.con.poll[i].fd := by simp only [hpoll]
  -- the loop ends with the answers `rest`
  have hends : ∀ rest {closed}, readLoop on i inner.con.poll[i].fd rest st = some (st, closed) →
      Stands on st₀ (LoopState.after st₁.calls (if closed then { st with
        con := st.con.close i hi, calls := st.calls ++ [.closed inner.con.poll[i].fd] } else st))
        (.sockets revents current (i + 1)) := by
    intro rest closed hrest
    refine h.stands (x := ⟨POLLIN, [], recvs ++ rest, none⟩) rfl
      (Option.map_eq_some_iff.2 ⟨_, Option.map_eq_some_iff.2 ⟨(st, closed), ?_, rfl⟩, rfl⟩)
    rw [hloop, hrest]
  cases hcase with
  | noData _ => exact hends [] rfl
  | @closed _ _ _ answer _ hanswer =>
    have hclosed := hends [answer] (by rcases hanswer with rfl | rfl <;> rfl)
    rw [if_pos rfl, ← hfd] at hclosed
    simp only [LoopState.after, List.append_assoc] at hclosed ⊢
    exact hclosed
  | @received _ _ _ bytes msg ended args _ hmsg =>
    have hmore : ∀ rest, readLoop on i inner.con.poll[i].fd ((recvs ++ [.data bytes]) ++ rest) inner =
        readLoop on i inner.con.poll[i].fd rest
          ⟨{ st.con with msg := msg, endConnection := st.con.endConnection || ended }, args,
            st.calls ++ [.onMsg st.con.poll[i].fd (st.con.fill i bytes) bytes.length]⟩ := by
      intro rest
      rw [List.append_assoc, hloop, List.singleton_append, readLoop]
      have hmsg : on.onMsg inner.con.poll[i].fd (st.con.fill i bytes) bytes.length st.args =
          some (msg, ended, args) := hfd ▸ hmsg
      simp only [hmsg, hfd]
    have hnext := Stands.reading hi h hmore hpoll
    simp only [LoopState.after, List.append_assoc] at hnext ⊢
    exact hnext

/-- What is done step by step is done by the main loop. -/
theorem Stands.step {p p' : LoopPoint} {answer : CallAnswer} (h : Stands on st₀ st p)
    (hstep : mainloopStep on st p answer = some (st', p')) : Stands on st₀ st' p' := by
  have hcase := mainloopStep_case hstep
  cases h with
  | left _ => cases hcase
  | @polling _ polls hpolls => exact .polled hpolls hcase
  | sockets hturn => exact hturn.step hcase
  | behind hpolls hthrough => exact .turnEnds hpolls hthrough hcase
  | accepting h hloop => exact .acceptStep h hloop hcase
  | reading hi h hloop hpoll => exact .recvStep hi h hloop hpoll hcase

theorem LoopRun.stands {p : LoopPoint} (h : LoopRun on st₀ st p) : Stands on st₀ st p := by
  induction h with
  | start => exact @Stands.polling _ _ _ _ [] rfl
  | step answer _ hstep ih => exact ih.step hstep

/-- The states in which a program that nobody disturbs waits in `poll`, and those in which it has left the loop, are
the ones of the function of the main loop. -/
theorem loopRun_iff (ended : Bool) : LoopRun on st₀ st (if ended then .left else .polling) ↔
    ∃ polls, tcpConnectionMainloop on polls st₀ = some (st, ended) := by
  constructor
  · intro h
    cases ended with
    | false =>
      cases h.stands with
      | polling hpolls => exact ⟨_, hpolls⟩
    | true =>
      cases h.stands with
      | left hpolls => exact ⟨_, hpolls⟩
  · rintro ⟨polls, hpolls⟩
    exact mainloop_loopRun hpolls .start

end NyanChat
