import NyanChat.TcpConnection
import NyanChat.Library.Compaction
import NyanChat.Library.Loop

/-!
# The poll table

The table read as a function from indices to registered peers (`peerAt`), and what registering, closing and
compressing do to it.  `compress_poll_socket_array` permutes the indices up to the number of sockets it is given
(`compressPollSocketArray_spec`) and reads outside the table when that number is `MAX_POLL_SOCKETS`.
-/

namespace NyanChat

open Compaction

abbrev PollTable : Type := Vector PollSocket MAX_POLL_SOCKETS

/-- The peer at an index that is not closed. -/
def peerAt (poll : PollTable) (j : ℕ) : Option Peer :=
  if h : j < MAX_POLL_SOCKETS then if poll[j].fd = -1 then none else some poll[j].toPeer else none

theorem peerAt_eq_none {poll : PollTable} {j : ℕ} (h : j < MAX_POLL_SOCKETS) :
    peerAt poll j = none ↔ poll[j].fd = -1 := by
  rw [peerAt, dif_pos h]
  split <;> simp_all

theorem peerAt_eq_some {poll : PollTable} {j : ℕ} {p : Peer} (h : peerAt poll j = some p) :
    ∃ hj : j < MAX_POLL_SOCKETS, poll[j].toPeer = p ∧ p.fd ≠ -1 := by
  unfold peerAt at h
  split at h
  · rename_i hj
    split at h
    · cases h
    · rename_i hfd
      cases h
      exact ⟨hj, rfl, hfd⟩
  · cases h

theorem peerAt_set {poll : PollTable} {i : ℕ} (hi : i < MAX_POLL_SOCKETS) (s : PollSocket) (j : ℕ) :
    peerAt (poll.set i s hi) j = if j = i then (if s.fd = -1 then none else some s.toPeer) else peerAt poll j := by
  by_cases hj : j < MAX_POLL_SOCKETS
  · rw [peerAt, dif_pos hj, peerAt, dif_pos hj]
    by_cases hij : j = i
    · subst hij
      rw [if_pos rfl, Vector.getElem_set_self]
    · rw [if_neg hij, Vector.getElem_set_ne _ _ (Ne.symm hij)]
  · rw [peerAt, dif_neg hj, peerAt, dif_neg hj, if_neg (by omega)]

/-! ### Registering and closing -/

theorem peerAt_register {con : TcpConnection} {peer : Peer} (h : con.nbPollFds < MAX_POLL_SOCKETS)
    (hfd : peer.fd ≠ -1) (j : ℕ) :
    peerAt (con.register peer h).poll j = if j = con.nbPollFds then some peer else peerAt con.poll j := by
  rw [TcpConnection.register, peerAt_set, if_neg hfd]

theorem peerAt_close {con : TcpConnection} {i : ℕ} (h : i < MAX_POLL_SOCKETS) (j : ℕ) :
    peerAt (con.close i h).poll j = if j = i then none else peerAt con.poll j := by
  rw [TcpConnection.close, peerAt_set, if_pos rfl]

/-! ### Compressing -/

theorem lastOkSock_spec (poll : PollTable) {n : ℕ} (hn : n < MAX_POLL_SOCKETS) :
    ∃ last, lastOkSock poll n = some last ∧ LastEntry (peerAt poll) n last := by
  induction n with
  | zero => exact ⟨0, rfl, LastEntry.zero _⟩
  | succ n ih =>
    rw [lastOkSock, dif_pos hn]
    by_cases hfd : poll[n + 1].fd = -1
    · obtain ⟨last, hlast, hentry⟩ := ih (by omega)
      rw [if_pos hfd]
      exact ⟨last, hlast, hentry.down ((peerAt_eq_none hn).2 hfd)⟩
    · rw [if_neg hfd]
      exact ⟨n + 1, rfl, LastEntry.here fun h => hfd ((peerAt_eq_none hn).1 h)⟩

private theorem peerAt_moveSocket (poll : PollTable) {i last : ℕ} (hi : i < MAX_POLL_SOCKETS)
    (hl : last < MAX_POLL_SOCKETS) :
    peerAt (moveSocket poll i last hi hl) =
      Function.update (Function.update (peerAt poll) i (peerAt poll last)) last none := by
  funext j
  rw [moveSocket, peerAt_set, if_pos rfl]
  by_cases hjl : j = last
  · rw [if_pos hjl, hjl, Function.update_self]
  · rw [if_neg hjl, Function.update_of_ne hjl, peerAt_set]
    by_cases hji : j = i
    · rw [if_pos hji, hji, Function.update_self, peerAt, dif_pos hl]
    · rw [if_neg hji, Function.update_of_ne hji]

private theorem events_moveSocket (poll : PollTable) {i last : ℕ} (hi : i < MAX_POLL_SOCKETS)
    (hl : last < MAX_POLL_SOCKETS) {j : ℕ} (hj : j < MAX_POLL_SOCKETS) :
    (moveSocket poll i last hi hl)[j].events = poll[j].events := by
  simp only [moveSocket, Vector.getElem_set]
  split
  · rename_i hlj
    subst hlj
    split
    · rename_i hil
      subst hil
      rfl
    · rfl
  · split
    · rename_i hij
      subst hij
      rfl
    · rfl

/-- The number of open sockets at the indices up to `n`. -/
def openCount (poll : PollTable) (n : ℕ) : ℕ := ((Finset.range (n + 1)).filter fun j => peerAt poll j ≠ none).card

/-- What the compression of the indices up to `n` leaves. -/
structure Compressed (n : ℕ) (con con' : TcpConnection) : Prop where
  perm : ∃ π : Equiv.Perm ℕ, (∀ j, n < j → π j = j) ∧ ∀ j, peerAt con'.poll j = peerAt con.poll (π j)
  stays : ∀ j, (∀ k ≤ j, peerAt con.poll k ≠ none) → peerAt con'.poll j = peerAt con.poll j
  kept : ∀ j, peerAt con.poll j ≠ none → peerAt con'.poll j ≠ none → peerAt con'.poll j = peerAt con.poll j
  open_iff : ∀ j ≤ n, peerAt con'.poll j ≠ none ↔ j < con'.nbPollFds
  nb_eq : con'.nbPollFds = openCount con.poll n
  nb_pos : 0 < con'.nbPollFds
  nb_le : con'.nbPollFds ≤ n + 1
  events : ∀ j (h : j < MAX_POLL_SOCKETS), con'.poll[j].events = con.poll[j].events
  rest : con' = { con with poll := con'.poll, nbPollFds := con'.nbPollFds }

/-- A peer stands after the compression where the permutation moves it, at an index in use. -/
theorem Compressed.moved {n : ℕ} {con con' : TcpConnection} (hc : Compressed n con con') {π : Equiv.Perm ℕ}
    (hπ : ∀ j, n < j → π j = j) (hperm : ∀ j, peerAt con'.poll j = peerAt con.poll (π j)) {j : ℕ} (hj : j ≤ n)
    {p : Peer} (hp : peerAt con.poll j = some p) :
    π.symm j < con'.nbPollFds ∧ peerAt con'.poll (π.symm j) = some p := by
  have hat : peerAt con'.poll (π.symm j) = some p := by rw [hperm, Equiv.apply_symm_apply, hp]
  have hle : π.symm j ≤ n := by rwa [← perm_le_iff hπ, Equiv.apply_symm_apply]
  exact ⟨(hc.open_iff _ hle).1 (hat ▸ Option.some_ne_none p), hat⟩

/-- With a closed entry among those that are compressed, one of them is not in use after it. -/
theorem Compressed.nb_le_of_hole {n : ℕ} {con con' : TcpConnection} (hc : Compressed n con con') {k : ℕ} (hk : k ≤ n)
    (hnone : peerAt con.poll k = none) : con'.nbPollFds ≤ n := by
  obtain ⟨π, hπ, hperm⟩ := hc.perm
  have hhole : peerAt con'.poll (π.symm k) = none := by rw [hperm, Equiv.apply_symm_apply, hnone]
  have hle : π.symm k ≤ n := by rwa [← perm_le_iff hπ, Equiv.apply_symm_apply]
  have hclosed := mt (hc.open_iff _ hle).2 (not_not.2 hhole)
  omega

private theorem compressStep_spec {poll₀ poll : PollTable} {n i last : ℕ} (hn : n < MAX_POLL_SOCKETS) (hi : i < n)
    (h : Compacting n (peerAt poll₀) (peerAt poll) i last) :
    ∃ poll' last', compressStep (poll, last) i = some (poll', last') ∧
      Compacting n (peerAt poll₀) (peerAt poll') (i + 1) last' ∧
      ∀ j (hj : j < MAX_POLL_SOCKETS), poll'[j].events = poll[j].events := by
  have hle := h.back.le
  unfold compressStep
  by_cases hil : i < last
  · rw [if_pos hil, dif_pos ⟨by omega, by omega⟩]
    by_cases hfd : poll[i].fd = -1
    · have hlt : last < MAX_POLL_SOCKETS := by omega
      have hi' : i < MAX_POLL_SOCKETS := by omega
      obtain ⟨last', hlast', hentry⟩ := lastOkSock_spec (moveSocket poll i last hi' hlt) hlt
      rw [if_pos hfd]
      refine ⟨moveSocket poll i last hi' hlt, last', by simp only [hlast', Option.map_some], ?_,
        fun j hj => events_moveSocket poll hi' hlt hj⟩
      exact h.move hil ((peerAt_eq_none hi').2 hfd) (peerAt_moveSocket poll hi' hlt) hentry
    · rw [if_neg hfd]
      exact ⟨poll, last, rfl, h.skip fun _ hnone => hfd ((peerAt_eq_none (by omega)).1 hnone), fun _ _ => rfl⟩
  · rw [if_neg hil]
    exact ⟨poll, last, rfl, h.skip fun hlt => absurd hlt hil, fun _ _ => rfl⟩

theorem compressPollSocketArray_spec (con : TcpConnection) {n : ℕ} (hn : n < MAX_POLL_SOCKETS)
    (hzero : peerAt con.poll 0 ≠ none) :
    ∃ con', compressPollSocketArray con n = some con' ∧ Compressed n con con' := by
  obtain ⟨last, hlast, hentry⟩ := lastOkSock_spec con.poll hn
  obtain ⟨⟨poll', last'⟩, hfold, hc, hev⟩ := Loop.foldlM_range (f := compressStep) (s := (con.poll, last)) (n := n)
    (fun i st => Compacting n (peerAt con.poll) (peerAt st.1) i st.2 ∧
      ∀ j (hj : j < MAX_POLL_SOCKETS), st.1[j].events = con.poll[j].events)
    ⟨Compacting.start hentry, fun _ _ => rfl⟩
    (by
      rintro i hi ⟨poll, last⟩ ⟨hc, hev⟩
      obtain ⟨poll', last', hstep, hc', hev'⟩ := compressStep_spec hn hi hc
      exact ⟨_, hstep, hc', fun j hj => (hev' j hj).trans (hev j hj)⟩)
  have hiff := hc.compacted hzero
  have hopen : ¬ poll'[0].fd = -1 := fun h =>
    (hiff 0 (Nat.zero_le n)).2 (Nat.zero_le last') ((peerAt_eq_none (by decide)).2 h)
  have hrun : compressPollSocketArray con n = some { con with poll := poll', nbPollFds := last' + 1 } := by
    simp [compressPollSocketArray, hlast, hfold, hopen]
  refine ⟨_, hrun, hc.perm, hc.stays, fun j hj hopen => ?_, fun j hj => ?_, (hc.card hzero).symm, Nat.succ_pos last',
    Nat.succ_le_succ hc.back.le, hev, rfl⟩
  · exact (hc.kept j hj).resolve_right fun hgone => hopen hgone.2
  · rw [hiff j hj]
    exact Nat.lt_succ_iff.symm

/-- With a full table the first entry read is the one after the last. -/
theorem compressPollSocketArray_full (con : TcpConnection) :
    compressPollSocketArray con MAX_POLL_SOCKETS = none := rfl

theorem compressPollSocketArray_lt {con con' : TcpConnection} {n : ℕ}
    (h : compressPollSocketArray con n = some con') : n < MAX_POLL_SOCKETS := by
  obtain ⟨last, hlast, -⟩ := Option.bind_eq_some_iff.1 h
  cases n with
  | zero => exact Nat.zero_lt_succ _
  | succ n =>
    rw [lastOkSock] at hlast
    split at hlast
    · assumption
    · cases hlast

end NyanChat
