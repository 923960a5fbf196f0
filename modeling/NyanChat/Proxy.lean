import NyanChat.Noise
import NyanChat.PollTable
import NyanChat.Server

/-!
# The proxy

The two message handlers of `proxy.c`: `on_client_received` disturbs the long texts and sends to the server,
`on_server_received` sends to the client whose index the message carries.  Both drop a message of length zero unless
its type is one of those that need no text (`PassesLength`).  What is dropped and what is sent on is told by
`onClientReceived_eq` and `onServerReceived_eq`.
-/

namespace NyanChat

/-- The types of the messages whose length may be zero, in the `switch` of both handlers. -/
def emptyTypes : List Int32 :=
  [MSG_ACK_NEG, MSG_ACK_POS, MSG_CLIENT_CONNECTED, MSG_CLIENT_DISCONNECTED, MSG_CONNECTION_CLIENT,
    MSG_WELL_CONNECTED]

/-- The test of the length, `if(msg->msg_length == 0)`. -/
def PassesLength (msg : Message) : Prop := msg.msgLength = 0 → msg.msgType ∈ emptyTypes

instance (msg : Message) : Decidable (PassesLength msg) :=
  inferInstanceAs (Decidable (msg.msgLength = 0 → msg.msgType ∈ emptyTypes))

/-- The potential addition of errors. -/
def addErrors (rands : ℕ → ℕ) (msg : Message) : Option Message :=
  if msg.msgType = MSG_STD_CLIENT_SERVER ∧ 10 ≤ msg.msgLength then codeInsertError rands msg else some msg

/-- `on_client_received`, with the results of `rand()` and the descriptor `con_server.poll_fds[0].fd`: the message
buffer it leaves and what it sends. -/
def onClientReceived (rands : ℕ → ℕ) (serverFd : Int) (msg : Message) : Option (Message × List Sent) :=
  if msg.msgType = MSG_NULL then some (msg, [])
  else (addErrors rands msg).map fun msg => (msg, if PassesLength msg then [⟨serverFd, msg⟩] else [])

/-- `on_server_received`, on `con_clients`. -/
def onServerReceived (conClients : TcpConnection) (msg : Message) : Option (List Sent) :=
  if msg.msgType = MSG_NULL then some []
  else if msg.proxyClientSocket = -1 then some []
  else if msg.proxyClientSocket < 0 ∨ conClients.nbPollFds ≤ msg.proxyClientSocket.toNatClampNeg then some []
  else if PassesLength msg then
    if h : msg.proxyClientSocket.toNatClampNeg < MAX_POLL_SOCKETS then
      some [⟨conClients.poll[msg.proxyClientSocket.toNatClampNeg].fd, msg⟩]
    else none
  else some []

/-! ### From a client to the server -/

/-- The number of codewords that the proxy disturbs: only those of a text of at least 10 bytes. -/
def noisyLength (msg : Message) : ℕ :=
  if msg.msgType = MSG_STD_CLIENT_SERVER ∧ 10 ≤ msg.msgLength then msg.msgLength.toNat else 0

/-- The message after the noise of the proxy. -/
def throughNoise (rands : ℕ → ℕ) (msg : Message) : Message := disturbed rands msg (noisyLength msg)

theorem passesLength_throughNoise (rands : ℕ → ℕ) (msg : Message) :
    PassesLength (throughNoise rands msg) ↔ PassesLength msg := by
  simp [PassesLength, throughNoise]

theorem addErrors_eq (rands : ℕ → ℕ) {msg : Message} (hlen : msg.msgLength.toNat ≤ MAX_MSG_LENGTH) :
    addErrors rands msg = some (throughNoise rands msg) := by
  rw [addErrors, throughNoise, noisyLength, codeInsertError_eq rands hlen]
  split
  · rfl
  · rw [disturbed_zero]

theorem addErrors_of_some {rands : ℕ → ℕ} {msg msg' : Message} (h : addErrors rands msg = some msg') :
    msg' = throughNoise rands msg := by
  unfold addErrors at h
  split at h
  · rename_i hlong
    rw [codeInsertError_eq rands (codeInsertError_length h)] at h
    rw [throughNoise, noisyLength, if_pos hlong, Option.some.inj h]
  · rename_i hshort
    rw [throughNoise, noisyLength, if_neg hshort, disturbed_zero, Option.some.inj h]

/-- A message of a client is sent to the server after the noise, unless it is dropped. -/
theorem onClientReceived_eq {msg : Message} (hnull : msg.msgType ≠ MSG_NULL)
    (hlen : msg.msgLength.toNat ≤ MAX_MSG_LENGTH) (rands : ℕ → ℕ) (serverFd : Int) :
    onClientReceived rands serverFd msg =
      some (throughNoise rands msg,
        if PassesLength msg then [⟨serverFd, throughNoise rands msg⟩] else []) := by
  rw [onClientReceived, if_neg hnull, addErrors_eq rands hlen, Option.map_some]
  simp only [passesLength_throughNoise]

/-- What the proxy sends on for a client, if anything, is the message after the noise. -/
theorem onClientReceived_sent {rands : ℕ → ℕ} {serverFd : Int} {msg msg' : Message} {sent : List Sent}
    (h : onClientReceived rands serverFd msg = some (msg', sent)) :
    sent = [] ∨ sent = [⟨serverFd, throughNoise rands msg⟩] := by
  unfold onClientReceived at h
  split at h
  · cases h
    exact Or.inl rfl
  · obtain ⟨noisy, hnoisy, heq⟩ := Option.map_eq_some_iff.1 h
    cases heq
    obtain rfl := addErrors_of_some hnoisy
    split
    · exact Or.inr rfl
    · exact Or.inl rfl

/-! ### From the server to a client -/

/-- The peer that the index of a message names, on a table of `nbPollFds` entries. -/
def addressee (conClients : TcpConnection) (msg : Message) : Option Peer :=
  if msg.proxyClientSocket < 0 ∨ conClients.nbPollFds ≤ msg.proxyClientSocket.toNatClampNeg then none
  else peerAt conClients.poll msg.proxyClientSocket.toNatClampNeg

/-- A message of the server is sent to the live peer that it names, unless it is dropped. -/
theorem onServerReceived_eq {conClients : TcpConnection} {msg : Message} {peer : Peer}
    (hnull : msg.msgType ≠ MSG_NULL) (hpeer : addressee conClients msg = some peer) :
    onServerReceived conClients msg = some (if PassesLength msg then [⟨peer.fd, msg⟩] else []) := by
  unfold addressee at hpeer
  split at hpeer
  · cases hpeer
  · rename_i hindex
    obtain ⟨hlt, hat, -⟩ := peerAt_eq_some hpeer
    have hunknown : msg.proxyClientSocket ≠ -1 := fun h => hindex (Or.inl (by rw [h]; decide))
    rw [onServerReceived, if_neg hnull, if_neg hunknown, if_neg hindex, dif_pos hlt]
    have hfd : conClients.poll[msg.proxyClientSocket.toNatClampNeg].fd = peer.fd := congrArg Peer.fd hat
    rw [hfd]
    split <;> rfl

/-- Whatever the proxy sends to a client goes to the entry that the message names. -/
theorem onServerReceived_sent {conClients : TcpConnection} {msg : Message} {sent : List Sent}
    (h : onServerReceived conClients msg = some sent) {m : Sent} (hm : m ∈ sent) :
    m.msg = msg ∧ 0 ≤ msg.proxyClientSocket ∧ msg.proxyClientSocket.toNatClampNeg < conClients.nbPollFds ∧
      ∃ hlt : msg.proxyClientSocket.toNatClampNeg < MAX_POLL_SOCKETS,
        m.sock = conClients.poll[msg.proxyClientSocket.toNatClampNeg].fd := by
  unfold onServerReceived at h
  split at h
  · cases h; cases hm
  split at h
  · cases h; cases hm
  split at h
  · cases h; cases hm
  rename_i hindex
  rw [not_or, Nat.not_le] at hindex
  split at h
  · split at h
    · rename_i hlt
      cases h
      rw [List.mem_singleton] at hm
      subst hm
      exact ⟨rfl, Int32.not_lt.1 hindex.1, hindex.2, hlt, rfl⟩
    · cases h
  · cases h; cases hm

end NyanChat
