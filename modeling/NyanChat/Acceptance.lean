import NyanChat.TcpConnection
import NyanChat.Library.Loop

/-!
# The acceptance of new clients

`new_clients_acceptation` turn by turn.  With a full table a turn changes nothing, `new_sock` included, so the loop
goes on for ever when a socket filled the table (`not_ends_of_full`) and ends at once when the table was full before.
Until the table is full every new socket is registered in the next entry (`acceptance_ends_iff`).
-/

namespace NyanChat

open Loop

/-- The loop of `new_clients_acceptation`: its variable `new_sock`, the connection, the answers that `accept` still has
and the sockets accepted so far. -/
structure Accepting where
  newSock : Int
  con : TcpConnection
  pending : List Accept
  calls : List Call

/-- One turn of the loop; the Boolean is true when it was the last one. -/
def acceptTurn (st : Accepting) : Accepting × Bool :=
  if h : st.con.nbPollFds < MAX_POLL_SOCKETS then
    match st.pending with
    | [] => ({ st with newSock := -1 }, true)
    | .failed :: rest =>
      ({ st with newSock := -1, con := { st.con with endConnection := true }, pending := rest }, true)
    | .socket fd addr adLen :: rest =>
      ({ newSock := fd
         con := st.con.register ⟨fd, addr, adLen⟩ h
         pending := rest
         calls := st.calls ++ [.accepted ⟨fd, addr, adLen⟩] }, (fd : Int) = -1)
  else (st, st.newSock = -1)

/-- The peer of a new socket. -/
def Accept.peer : Accept → Option Peer
  | .socket fd addr adLen => some ⟨fd, addr, adLen⟩
  | .failed => none

/-- `con'` is `con` with the peers registered in the entries behind the earlier ones, which are unchanged. -/
structure Registered (con con' : TcpConnection) (peers : List Peer) : Prop where
  nb_eq : con'.nbPollFds = con.nbPollFds + peers.length
  entry : ∀ k (hk : k < peers.length), ∃ h : con.nbPollFds + k < MAX_POLL_SOCKETS,
    con'.poll[con.nbPollFds + k] = { peers[k] with events := POLLIN }
  earlier : ∀ j (h : j < MAX_POLL_SOCKETS), j < con.nbPollFds → con'.poll[j] = con.poll[j]

/-- The loop comes back from the answers `accepts` with each accepted socket registered, and no socket is left while
the table has room. -/
def AcceptsEach (con : TcpConnection) (accepts : List Accept) : Prop :=
  ∃ st taken, Ends acceptTurn ⟨-1, con, accepts, []⟩ st ∧ st.calls = taken.map Call.accepted ∧
    taken <+: accepts.filterMap Accept.peer ∧ Registered con st.con taken ∧
    (st.con.nbPollFds < MAX_POLL_SOCKETS → taken = accepts.filterMap Accept.peer)

variable {con con' : TcpConnection} {accepts : List Accept} {newSock : Int} {calls calls' : List Call}

/-! ### The turns -/

theorem acceptTurn_full (hfull : ¬ con.nbPollFds < MAX_POLL_SOCKETS) (newSock : Int) (accepts : List Accept)
    (calls : List Call) :
    acceptTurn ⟨newSock, con, accepts, calls⟩ = (⟨newSock, con, accepts, calls⟩, decide (newSock = -1)) :=
  dif_neg hfull

theorem acceptTurn_wouldBlock (h : con.nbPollFds < MAX_POLL_SOCKETS) (newSock : Int) (calls : List Call) :
    acceptTurn ⟨newSock, con, [], calls⟩ = (⟨-1, con, [], calls⟩, true) := dif_pos h

theorem acceptTurn_failed (h : con.nbPollFds < MAX_POLL_SOCKETS) (newSock : Int) (accepts : List Accept)
    (calls : List Call) :
    acceptTurn ⟨newSock, con, .failed :: accepts, calls⟩ =
      (⟨-1, { con with endConnection := true }, accepts, calls⟩, true) := dif_pos h

theorem acceptTurn_socket (h : con.nbPollFds < MAX_POLL_SOCKETS) (newSock : Int) (fd : ℕ) (addr : SockaddrIn)
    (adLen : ℕ) (accepts : List Accept) (calls : List Call) :
    acceptTurn ⟨newSock, con, .socket fd addr adLen :: accepts, calls⟩ =
      (⟨fd, con.register ⟨fd, addr, adLen⟩ h, accepts, calls ++ [.accepted ⟨fd, addr, adLen⟩]⟩, false) := by
  have hfd : ¬ (fd : Int) = -1 := by omega
  rw [acceptTurn, dif_pos h]
  simp only [decide_eq_false hfd]

/-- A socket that filled the table is followed by the same turn for ever. -/
theorem not_ends_of_full (hfull : ¬ con.nbPollFds < MAX_POLL_SOCKETS) (hsock : newSock ≠ -1) (st : Accepting) :
    ¬ Ends acceptTurn ⟨newSock, con, accepts, calls⟩ st :=
  not_ends_of_stuck (by rw [acceptTurn_full hfull, decide_eq_false hsock])

/-- With a full table `acceptLoop` looks at `new_sock` only. -/
private theorem acceptLoop_full (hfull : ¬ con.nbPollFds < MAX_POLL_SOCKETS) (newSock : Int) (accepts : List Accept) :
    acceptLoop newSock con accepts = if newSock = -1 then some (con, []) else none := by
  cases accepts with
  | nil =>
    rw [acceptLoop]
    by_cases hsock : newSock = -1
    · rw [if_pos (Or.inr hsock), if_pos hsock]
    · rw [if_neg (not_or.2 ⟨hfull, hsock⟩), if_neg hsock]
  | cons a accepts =>
    cases a with
    | failed => rw [acceptLoop, if_neg hfull]
    | socket fd addr adLen => rw [acceptLoop, dif_neg hfull]

/-- A last turn that leaves the connection `con₁` and accepts nothing. -/
private theorem ends_of_last {st st₁ : Accepting} (hturn : acceptTurn st = (st₁, true)) (hcalls : st₁.calls = calls) :
    (∃ st', Ends acceptTurn st st' ∧ st'.con = con' ∧ st'.calls = calls') ↔
      ∃ new, some (st₁.con, ([] : List Call)) = some (con', new) ∧ calls' = calls ++ new := by
  simp only [ends_last hturn]
  constructor
  · rintro ⟨st', rfl, rfl, rfl⟩
    exact ⟨[], rfl, by rw [hcalls, List.append_nil]⟩
  · rintro ⟨new, hnew, rfl⟩
    obtain ⟨rfl, rfl⟩ := Prod.mk.inj (Option.some.inj hnew)
    exact ⟨st₁, rfl, rfl, by rw [hcalls, List.append_nil]⟩

private theorem full_iff_acceptLoop (hfull : ¬ con.nbPollFds < MAX_POLL_SOCKETS) :
    (∃ st, Ends acceptTurn ⟨newSock, con, accepts, calls⟩ st ∧ st.con = con' ∧ st.calls = calls') ↔
      ∃ new, acceptLoop newSock con accepts = some (con', new) ∧ calls' = calls ++ new := by
  rw [acceptLoop_full hfull]
  by_cases hsock : newSock = -1
  · rw [if_pos hsock]
    have hturn := acceptTurn_full hfull newSock accepts calls
    rw [decide_eq_true hsock] at hturn
    exact ends_of_last hturn rfl
  · rw [if_neg hsock]
    constructor
    · rintro ⟨st, hends, -⟩
      exact absurd hends (not_ends_of_full hfull hsock st)
    · rintro ⟨new, hnew, -⟩
      cases hnew

/-- The loop comes back in the cases in which `acceptLoop` does, and with its result. -/
theorem ends_iff_acceptLoop :
    (∃ st, Ends acceptTurn ⟨newSock, con, accepts, calls⟩ st ∧ st.con = con' ∧ st.calls = calls') ↔
      ∃ new, acceptLoop newSock con accepts = some (con', new) ∧ calls' = calls ++ new := by
  induction accepts generalizing newSock con calls with
  | nil =>
    by_cases hnb : con.nbPollFds < MAX_POLL_SOCKETS
    · rw [acceptLoop, if_pos (Or.inl hnb)]
      exact ends_of_last (acceptTurn_wouldBlock hnb newSock calls) rfl
    · exact full_iff_acceptLoop hnb
  | cons a accepts ih =>
    by_cases hnb : con.nbPollFds < MAX_POLL_SOCKETS
    · cases a with
      | failed =>
        rw [acceptLoop, if_pos hnb]
        exact ends_of_last (acceptTurn_failed hnb newSock accepts calls) rfl
      | socket fd addr adLen =>
        simp only [ends_next (acceptTurn_socket hnb newSock fd addr adLen accepts calls), ih]
        rw [acceptLoop, dif_pos hnb]
        constructor
        · rintro ⟨new, hnew, rfl⟩
          exact ⟨_, by rw [hnew, Option.map_some], by rw [List.append_assoc, List.singleton_append]⟩
        · rintro ⟨new, hnew, rfl⟩
          obtain ⟨⟨con₁, rest⟩, hrest, hpair⟩ := Option.map_eq_some_iff.1 hnew
          obtain ⟨rfl, rfl⟩ := Prod.mk.inj hpair
          exact ⟨rest, hrest, by rw [List.append_assoc, List.singleton_append]⟩
    · exact full_iff_acceptLoop hnb

/-! ### The table -/

theorem Registered.refl (con : TcpConnection) : Registered con con [] :=
  ⟨rfl, fun _ hk => absurd hk (Nat.not_lt_zero _), fun _ _ _ => rfl⟩

theorem Registered.cons {peer : Peer} {peers : List Peer} (h : con.nbPollFds < MAX_POLL_SOCKETS)
    (hrest : Registered (con.register peer h) con' peers) : Registered con con' (peer :: peers) := by
  have hnb : (con.register peer h).nbPollFds = con.nbPollFds + 1 := rfl
  obtain ⟨hlen, hentry, hearlier⟩ := hrest
  rw [hnb] at hlen
  simp only [hnb] at hentry hearlier
  refine ⟨by rw [hlen, List.length_cons]; omega, fun k hk => ?_, fun j hj hlt => ?_⟩
  · cases k with
    | zero =>
      refine ⟨h, (hearlier _ h (Nat.lt_succ_self _)).trans ?_⟩
      exact Vector.getElem_set_self _
    | succ k =>
      obtain ⟨hk', hget⟩ := hentry k (by simpa using hk)
      have hindex : con.nbPollFds + 1 + k = con.nbPollFds + (k + 1) := by omega
      simp only [hindex] at hk' hget
      exact ⟨hk', hget⟩
  · rw [hearlier j hj (by omega)]
    exact Vector.getElem_set_ne h hj (by omega)

/-- With room for all sockets the loop registers them and comes back. -/
theorem accept_room (hnew : .failed ∉ accepts) (hroom : con.nbPollFds + accepts.length < MAX_POLL_SOCKETS)
    (newSock : Int) (calls : List Call) :
    ∃ con', Ends acceptTurn ⟨newSock, con, accepts, calls⟩
        ⟨-1, con', [], calls ++ (accepts.filterMap Accept.peer).map Call.accepted⟩ ∧
      Registered con con' (accepts.filterMap Accept.peer) := by
  induction accepts generalizing newSock con calls with
  | nil =>
    rw [List.filterMap_nil, List.map_nil, List.append_nil]
    exact ⟨con, (ends_last (acceptTurn_wouldBlock hroom newSock calls)).2 rfl, Registered.refl con⟩
  | cons a accepts ih =>
    rw [List.mem_cons, not_or] at hnew
    rw [List.length_cons] at hroom
    cases a with
    | failed => exact absurd rfl hnew.1
    | socket fd addr adLen =>
      have h : con.nbPollFds < MAX_POLL_SOCKETS := by omega
      have hnb : (con.register ⟨fd, addr, adLen⟩ h).nbPollFds = con.nbPollFds + 1 := rfl
      have hroom' : (con.register ⟨fd, addr, adLen⟩ h).nbPollFds + accepts.length < MAX_POLL_SOCKETS := by omega
      obtain ⟨con', hends, hreg⟩ := ih hnew.2 hroom' fd (calls ++ [.accepted ⟨fd, addr, adLen⟩])
      rw [List.append_assoc] at hends
      exact ⟨con', (ends_next (acceptTurn_socket h newSock fd addr adLen accepts calls)).2 hends, hreg.cons h⟩

/-- The loop does not come back when one of the sockets fills the table. -/
theorem accept_fills (hnew : .failed ∉ accepts) (hnb : con.nbPollFds < MAX_POLL_SOCKETS)
    (hfill : MAX_POLL_SOCKETS ≤ con.nbPollFds + accepts.length) (newSock : Int) (calls : List Call) (st : Accepting) :
    ¬ Ends acceptTurn ⟨newSock, con, accepts, calls⟩ st := by
  induction accepts generalizing newSock con calls with
  | nil => exact absurd hnb (Nat.not_lt.2 hfill)
  | cons a accepts ih =>
    rw [List.mem_cons, not_or] at hnew
    rw [List.length_cons] at hfill
    cases a with
    | failed => exact absurd rfl hnew.1
    | socket fd addr adLen =>
      have hregister : (con.register ⟨fd, addr, adLen⟩ hnb).nbPollFds = con.nbPollFds + 1 := rfl
      rw [ends_next (acceptTurn_socket hnb newSock fd addr adLen accepts calls)]
      by_cases hlast : con.nbPollFds + 1 < MAX_POLL_SOCKETS
      · exact ih hnew.2 hlast (by omega) fd _
      · exact not_ends_of_full hlast (by omega) st

/-- The acceptance comes back with every accepted socket registered exactly when the table was full before, or is not
full after it. -/
theorem acceptance_ends_iff (hnew : .failed ∉ accepts) :
    AcceptsEach con accepts ↔
      MAX_POLL_SOCKETS ≤ con.nbPollFds ∨ con.nbPollFds + accepts.length < MAX_POLL_SOCKETS := by
  constructor
  · rintro ⟨st, taken, hends, -⟩
    by_contra hfills
    rw [not_or, Nat.not_le, Nat.not_lt] at hfills
    exact accept_fills hnew hfills.1 hfills.2 (-1) [] st hends
  · rintro (hfull | hroom)
    · have hturn := acceptTurn_full (Nat.not_lt.2 hfull) (-1) accepts []
      exact ⟨_, [], (ends_last hturn).2 rfl, rfl, List.nil_prefix, Registered.refl con,
        fun hlt => absurd hlt (Nat.not_lt.2 hfull)⟩
    · obtain ⟨con', hends, hreg⟩ := accept_room hnew hroom (-1) []
      exact ⟨_, _, hends, List.nil_append _, List.prefix_rfl, hreg, fun _ => rfl⟩

theorem acceptance_ends_iff_two :
    Accept.failed ∉ [Accept.socket 5 ⟨2, 4000, 1⟩ 16] ∧
      AcceptsEach (tcpConnectionServerInit .server 3 Message.zero) [.socket 5 ⟨2, 4000, 1⟩ 16] := by
  have hnew : Accept.failed ∉ [Accept.socket 5 ⟨2, 4000, 1⟩ 16] := by simp
  exact ⟨hnew, (acceptance_ends_iff hnew).2 (Or.inr (by decide))⟩

/-- As many new sockets as a new table has entries left. -/
def crowd : List Accept := (List.range 198).map fun i => .socket (4 + i) ⟨2, 4000, 1⟩ 16

/-- The last of the sockets fills the table, and the acceptance does not come back. -/
theorem crowd_accepted_forever :
    Accept.failed ∉ crowd ∧ ¬ AcceptsEach (tcpConnectionServerInit .server 3 Message.zero) crowd ∧
      newClientsAcceptation (tcpConnectionServerInit .server 3 Message.zero) crowd = none := by
  have hnew : Accept.failed ∉ crowd := by
    intro h
    obtain ⟨i, -, hi⟩ := List.mem_map.1 h
    cases hi
  have hroom : (tcpConnectionServerInit .server 3 Message.zero).nbPollFds < MAX_POLL_SOCKETS := by decide
  have hfills := accept_fills hnew hroom (by rw [crowd, List.length_map, List.length_range]; decide) (-1) []
  refine ⟨hnew, fun h => ?_, ?_⟩
  · obtain ⟨st, taken, hends, -⟩ := h
    exact hfills st hends
  · by_contra hsome
    obtain ⟨⟨con', new⟩, hrun⟩ := Option.ne_none_iff_exists'.1 hsome
    obtain ⟨st, hends, -⟩ := ends_iff_acceptLoop.2 ⟨new, hrun, rfl⟩
    exact hfills st hends

end NyanChat
