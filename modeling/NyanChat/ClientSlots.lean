import NyanChat.ClientRuns
import NyanChat.Library.Slots

/-!
# The slots of a client

What a line of input (`onStdinClient_step`) and a received message (`onMsgClient_step`) do to the slots of the waiting
messages, and what `find_next_msg_id` answers (`findNextMsgId_slot`).  In every state the taken slots are among the
first `nb_msg_waiting_ack` ones (`clientRun_counted`), since that number is never reduced.
-/

namespace NyanChat

open Slots

/-- `msg_type == MSG_NULL` -/
def isFree (m : Message) : Bool := decide (m.msgType = MSG_NULL)

theorem isFree_iff {m : Message} : isFree m = true ↔ m.msgType = MSG_NULL := decide_eq_true_iff

/-- The number of the slots whose type is not `MSG_NULL`. -/
def ClientState.taken (c : ClientState) : ℕ := takenCount isFree c.msgWaitingAck

/-- The slot `id` holds the message `m`. -/
def ClientState.Waits (c : ClientState) (id : ℕ) (m : Message) : Prop :=
  c.msgWaitingAck[id]? = some m ∧ m.msgType ≠ MSG_NULL

variable {c c' c₁ : ClientState} {m msg slot : Message} {sent : List Message} {buffer : List UInt8} {len id : ℕ}
  {memory : ℕ → Message}

/-! ### The allocation of a slot -/

/-- The first free slot, or the first slot of the new half when `find_next_msg_id` doubles the table. -/
inductive Allocates (memory : ℕ → Message) (c : ClientState) : ClientState → ℕ → Prop
  | free {id : ℕ} : c.nbMsgWaitingAck ≠ c.msgWaitingAck.length → c.msgWaitingAck.findIdx? isFree = some id →
      Allocates memory c c id
  | grown : c.nbMsgWaitingAck = c.msgWaitingAck.length → 0 < c.msgWaitingAck.length →
      Allocates memory c (growWaiting memory c) c.msgWaitingAck.length

private theorem grown_free (memory : ℕ → Message) (c : ClientState) :
    ∀ m ∈ (growWaiting memory c).msgWaitingAck.drop c.msgWaitingAck.length, isFree m = true := by
  intro m hm
  rw [growWaiting, List.drop_left] at hm
  obtain ⟨i, -, rfl⟩ := List.mem_map.1 hm
  rfl

theorem growWaiting_length (memory : ℕ → Message) (c : ClientState) :
    (growWaiting memory c).msgWaitingAck.length = 2 * c.msgWaitingAck.length := by
  rw [growWaiting, List.length_append, List.length_map, List.length_range]
  omega

theorem findNextMsgId_slot (h : findNextMsgId memory c = some (c₁, id)) : Allocates memory c c₁ id := by
  unfold findNextMsgId at h
  split at h
  · rename_i hfull
    obtain ⟨i, hi, heq⟩ := Option.map_eq_some_iff.1 h
    cases heq
    -- the first slot of the new half is free
    have hfind : ((growWaiting memory c).msgWaitingAck.drop c.msgWaitingAck.length).findIdx? isFree = some i := hi
    have hle := index_le_takenCount hfind
    rw [takenCount_eq_zero (grown_free memory c)] at hle
    obtain rfl : i = 0 := by omega
    obtain ⟨s, hs, -⟩ := getElem?_of_findIdx? hfind
    have hlen := (List.getElem?_eq_some_iff.1 hs).1
    rw [growWaiting, List.drop_left, List.length_map, List.length_range] at hlen
    exact Allocates.grown hfull hlen
  · rename_i hroom
    obtain ⟨i, hi, heq⟩ := Option.map_eq_some_iff.1 h
    cases heq
    exact Allocates.free hroom hi

/-- `find_next_msg_id` comes back when the table is full for its counter, and otherwise when a slot is free. -/
theorem findNextMsgId_returns_iff (hpos : 0 < c.msgWaitingAck.length) (memory : ℕ → Message) :
    (∃ r, findNextMsgId memory c = some r) ↔
      c.nbMsgWaitingAck = c.msgWaitingAck.length ∨ c.taken ≠ c.msgWaitingAck.length := by
  unfold findNextMsgId
  split
  · rename_i hfull
    refine ⟨fun _ => Or.inl hfull, fun _ => ?_⟩
    have hsome : ((growWaiting memory c).msgWaitingAck.drop c.msgWaitingAck.length).findIdx? isFree ≠ none := by
      rw [ne_eq, findIdx?_eq_none_iff, takenCount_eq_zero (grown_free memory c), growWaiting, List.drop_left,
        List.length_map, List.length_range]
      omega
    obtain ⟨i, hi⟩ := Option.ne_none_iff_exists'.1 hsome
    exact ⟨_, Option.map_eq_some_iff.2 ⟨i, hi, rfl⟩⟩
  · rename_i hroom
    rw [or_iff_right hroom, ClientState.taken, ne_eq, ← findIdx?_eq_none_iff, ← ne_eq, Option.ne_none_iff_exists']
    constructor
    · rintro ⟨r, hr⟩
      obtain ⟨i, hi, -⟩ := Option.map_eq_some_iff.1 hr
      exact ⟨i, hi⟩
    · rintro ⟨i, hi⟩
      exact ⟨_, Option.map_eq_some_iff.2 ⟨i, hi, rfl⟩⟩

namespace Allocates

theorem getElem? (h : Allocates memory c c₁ id) : ∃ s, c₁.msgWaitingAck[id]? = some s ∧ isFree s = true := by
  cases h with
  | free _ hfind => exact getElem?_of_findIdx? hfind
  | grown hfull hpos =>
    refine ⟨{ memory 0 with msgType := MSG_NULL }, ?_, rfl⟩
    rw [growWaiting, List.getElem?_append_right (Nat.le_refl _), Nat.sub_self, List.getElem?_map,
      List.getElem?_range hpos]
    rfl

theorem nb_eq (h : Allocates memory c c₁ id) : c₁.nbMsgWaitingAck = c.nbMsgWaitingAck := by
  cases h <;> rfl

theorem waiting_eq (h : Allocates memory c c₁ id) :
    c₁.waitingPseudoConfirmation = c.waitingPseudoConfirmation ∧ c₁.connected = c.connected := by
  cases h <;> exact ⟨rfl, rfl⟩

theorem pseudo_eq (h : Allocates memory c c₁ id) : c₁.pseudo = c.pseudo := by
  cases h <;> rfl

theorem taken_eq (h : Allocates memory c c₁ id) : c₁.taken = c.taken := by
  cases h with
  | free => rfl
  | grown =>
    have hnew := grown_free memory c
    rw [growWaiting, List.drop_left] at hnew
    rw [ClientState.taken, growWaiting, takenCount_append, takenCount_eq_zero hnew]
    rfl

/-- The old slots are kept. -/
theorem getElem?_old (h : Allocates memory c c₁ id) {i : ℕ} {m : Message} (hi : c.msgWaitingAck[i]? = some m) :
    c₁.msgWaitingAck[i]? = some m := by
  cases h with
  | free => exact hi
  | grown =>
    rw [growWaiting, List.getElem?_append_left (List.getElem?_eq_some_iff.1 hi).1]
    exact hi

/-- A taken slot is an old one. -/
theorem waits_old (h : Allocates memory c c₁ id) {i : ℕ} {m : Message} (hi : c₁.Waits i m) : c.Waits i m := by
  cases h with
  | free => exact hi
  | grown =>
    obtain ⟨hget, htaken⟩ := hi
    refine ⟨?_, htaken⟩
    rcases Nat.lt_or_ge i c.msgWaitingAck.length with hlt | hge
    · rwa [growWaiting, List.getElem?_append_left hlt] at hget
    · rw [growWaiting, List.getElem?_append_right hge] at hget
      have hnew := List.mem_of_getElem? hget
      obtain ⟨j, -, rfl⟩ := List.mem_map.1 hnew
      exact absurd rfl htaken

/-- The slot of a waiting message is not free. -/
theorem ne_of_waits (h : Allocates memory c c₁ id) {i : ℕ} {m : Message} (hi : c.Waits i m) : i ≠ id := by
  obtain ⟨s, hs, hfree⟩ := h.getElem?
  rintro rfl
  obtain rfl := Option.some.inj ((h.getElem?_old hi.1).symm.trans hs)
  exact hi.2 (isFree_iff.1 hfree)

/-- The slot comes after at most as many slots as are taken. -/
theorem id_le (h : Allocates memory c c₁ id) (hcount : c.taken ≤ c.nbMsgWaitingAck) : id ≤ c.nbMsgWaitingAck := by
  cases h with
  | free _ hfind => exact (index_le_takenCount hfind).trans hcount
  | grown hfull => omega

theorem length_le (h : Allocates memory c c₁ id) : c.msgWaitingAck.length ≤ c₁.msgWaitingAck.length := by
  cases h with
  | free => exact Nat.le_refl _
  | grown => rw [growWaiting_length]; omega

end Allocates

/-! ### One line of input -/

/-- What a connection request does. -/
structure Requests (c : ClientState) (len : ℕ) (c' : ClientState) (m : Message) : Prop where
  noPseudo : cstr c.pseudo = some []
  idle : c.waitingPseudoConfirmation = false
  long : MIN_NAME_LENGTH ≤ len
  room : 0 < c.msgWaitingAck.length
  slots : c'.msgWaitingAck = c.msgWaitingAck.set 0 m
  count : c'.nbMsgWaitingAck = c.nbMsgWaitingAck + 1
  waiting : c'.waitingPseudoConfirmation = true
  connected : c'.connected = c.connected
  pseudo : cstr c'.pseudo ≠ none
  msgType : m.msgType = MSG_CONNECTION_CLIENT

/-- A line is ignored, asks for a pseudo, or is sent as a text in a slot of its own. -/
inductive StdinStep (memory : ℕ → Message) (c : ClientState) (buffer : List UInt8) (len : ℕ) :
    ClientState → List Message → Prop
  | quiet : StdinStep memory c buffer len c []
  | request {c' : ClientState} {m : Message} : Requests c len c' m → StdinStep memory c buffer len c' [m]
  | text {c₁ : ClientState} {id : ℕ} {slot m : Message} : c.connected = true → cstr c.pseudo ≠ some [] →
      findNextMsgId memory c = some (c₁, id) → c₁.msgWaitingAck[id]? = some slot →
      textSlot c₁ id slot buffer len = some m → StdinStep memory c buffer len (c₁.wait id m) [m]

private theorem requestConnection_step {rands : ℕ → ℕ} (hidle : c.waitingPseudoConfirmation = false)
    (hpseudo : cstr c.pseudo = some []) (hlong : MIN_NAME_LENGTH ≤ len)
    (hrun : requestConnection rands c buffer = some (c', sent)) : ∃ m, Requests c len c' m ∧ sent = [m] := by
  obtain ⟨text, htext, hrun⟩ := Option.bind_eq_some_iff.1 hrun
  obtain ⟨pseudo, hcopy, hrun⟩ := Option.bind_eq_some_iff.1 hrun
  obtain ⟨⟨c₁, code⟩, hcode, hrun⟩ := Option.bind_eq_some_iff.1 hrun
  obtain ⟨slot, hslot, hrun⟩ := Option.bind_eq_some_iff.1 hrun
  obtain ⟨m, hm, hrun⟩ := Option.bind_eq_some_iff.1 hrun
  have hsame : c₁.msgWaitingAck = c.msgWaitingAck ∧ c₁.nbMsgWaitingAck = c.nbMsgWaitingAck ∧
      c₁.connected = c.connected ∧ c₁.pseudo = pseudo := by
    unfold connectionCode at hcode
    split at hcode
    · cases hcode
      exact ⟨rfl, rfl, rfl, rfl⟩
    · split at hcode
      · cases hcode
        exact ⟨rfl, rfl, rfl, rfl⟩
      · cases hcode
  obtain ⟨hslots, hnb, hconn, hpseudo'⟩ := hsame
  have htype : m.msgType = MSG_CONNECTION_CLIENT := by
    obtain ⟨srcPseudo, -, hm⟩ := Option.bind_eq_some_iff.1 hm
    obtain ⟨text, -, hm⟩ := Option.bind_eq_some_iff.1 hm
    obtain ⟨msg, -, hm⟩ := Option.bind_eq_some_iff.1 hm
    obtain rfl := Option.some.inj hm
    rfl
  have hroom : 0 < c.msgWaitingAck.length := by
    rw [← hslots]
    exact (List.getElem?_eq_some_iff.1 hslot).1
  cases hrun
  refine ⟨m, ⟨hpseudo, hidle, hlong, hroom, ?_, ?_, rfl, hconn, ?_, htype⟩, rfl⟩
  · rw [ClientState.wait, hslots]
  · rw [ClientState.wait, hnb]
  · rw [ClientState.wait, hpseudo', strcpy_cstr (stringIn_eq_some htext).1 hcopy]
    exact Option.some_ne_none text

theorem onStdinClient_step {rands : ℕ → ℕ} (hrun : onStdinClient rands memory c buffer len = some (c', sent)) :
    StdinStep memory c buffer len c' sent := by
  unfold onStdinClient at hrun
  cases hpseudo : cstr c.pseudo with
  | none =>
    rw [hpseudo] at hrun
    cases hrun
  | some p =>
    rw [hpseudo] at hrun
    cases p with
    | nil =>
      dsimp only at hrun
      split at hrun
      · cases hrun
        exact .quiet
      · rename_i hidle
        rw [not_or, Bool.not_eq_true, Nat.not_lt] at hidle
        obtain ⟨m, hreq, rfl⟩ := requestConnection_step hidle.1 hpseudo hidle.2 hrun
        exact .request hreq
    | cons b p =>
      dsimp only at hrun
      split at hrun
      · rename_i hconn
        obtain ⟨⟨c₁, id⟩, hfind, hrun⟩ := Option.bind_eq_some_iff.1 hrun
        obtain ⟨slot, hslot, hrun⟩ := Option.bind_eq_some_iff.1 hrun
        obtain ⟨m, hm, hrun⟩ := Option.bind_eq_some_iff.1 hrun
        cases hrun
        refine .text hconn (fun hempty => ?_) hfind hslot hm
        rw [hpseudo] at hempty
        cases hempty
      · cases hrun
        exact .quiet

/-! ### One received message -/

/-- The waiting message in the slot that an acknowledgment names. -/
structure Names (c : ClientState) (msg : Message) (id : ℕ) (slot : Message) : Prop where
  waits : c.Waits id slot
  id_le : id ≤ c.nbMsgWaitingAck
  msgId : 0 ≤ msg.msgId ∧ msg.msgId.toNatClampNeg = id

/-- A message is ignored, answers a connection request, or acknowledges a waiting message. -/
inductive ReceivedStep (c : ClientState) (msg : Message) : ClientState → List Message → Prop
  | ignored : ReceivedStep c msg c []
  | accepted : c.waitingPseudoConfirmation = true → msg.msgType = MSG_WELL_CONNECTED →
      ReceivedStep c msg { c with connected := true, waitingPseudoConfirmation := false } []
  | refused {codes : List UInt8 → Option (List UInt8)} {pseudo : Vector UInt8 MAX_NAME_LENGTH} :
      c.waitingPseudoConfirmation = true → msg.msgType = MSG_ERROR → cstr pseudo = some [] →
      ReceivedStep c msg { c with codes := codes, pseudo := pseudo, waitingPseudoConfirmation := false } []
  | refusedClean {codes : List UInt8 → Option (List UInt8)} {pseudo : Vector UInt8 MAX_NAME_LENGTH} {id : ℕ}
      {slot : Message} : c.waitingPseudoConfirmation = true → msg.msgType = MSG_ERROR → cstr pseudo = some [] →
      c.Waits id slot →
      ReceivedStep c msg
        ({ c with codes := codes, pseudo := pseudo, waitingPseudoConfirmation := false }.clean id slot) []
  | again {id : ℕ} {slot : Message} : c.waitingPseudoConfirmation = false → c.connected = true →
      msg.msgType = MSG_ACK_NEG → Names c msg id slot →
      ReceivedStep c msg
        { c with msgWaitingAck := c.msgWaitingAck.set id { slot with nbRetransmission := msg.nbRetransmission } }
        [{ slot with nbRetransmission := msg.nbRetransmission }]
  | done {id : ℕ} {slot : Message} : c.waitingPseudoConfirmation = false → c.connected = true →
      msg.msgType = MSG_ACK_POS → Names c msg id slot → ReceivedStep c msg (c.clean id slot) []

theorem acknowledged_names (h : acknowledged c msg = some (some (id, slot))) : Names c msg id slot := by
  unfold acknowledged at h
  split at h
  · cases h
  · rename_i hguard
    rw [not_or] at hguard
    obtain ⟨m, hm, heq⟩ := Option.map_eq_some_iff.1 h
    split at heq
    · cases heq
    · rename_i hnull
      obtain ⟨rfl, rfl⟩ := Prod.mk.inj (Option.some.inj heq)
      exact ⟨⟨hm, hnull⟩, Nat.not_lt.1 hguard.2, Int32.not_lt.1 hguard.1, rfl⟩

private theorem onConnectionError_step (hwait : c.waitingPseudoConfirmation = true) (htype : msg.msgType = MSG_ERROR)
    (hrun : onConnectionError c msg = some c') : ReceivedStep c msg c' [] := by
  obtain ⟨pseudo, -, hrun⟩ := Option.bind_eq_some_iff.1 hrun
  have hempty : cstr (overlay c.pseudo [0]) = some [] := cstr_overlay c.pseudo (s := []) List.not_mem_nil (by decide)
  dsimp only at hrun
  split at hrun
  · obtain ⟨slot, hslot, rfl⟩ := Option.map_eq_some_iff.1 hrun
    split
    · exact .refused hwait htype hempty
    · rename_i hnull
      exact .refusedClean hwait htype hempty ⟨hslot, hnull⟩
  · obtain rfl := Option.some.inj hrun
    exact .refused hwait htype hempty

theorem onMsgClient_step (hrun : onMsgClient c msg = some (c', sent)) : ReceivedStep c msg c' sent := by
  unfold onMsgClient at hrun
  split at hrun
  · rename_i hwait
    split at hrun
    · rename_i htype
      obtain ⟨d, hd, heq⟩ := Option.map_eq_some_iff.1 hrun
      cases heq
      exact onConnectionError_step hwait htype hd
    · split at hrun
      · rename_i htype
        cases hrun
        exact .accepted hwait htype
      · cases hrun
        exact .ignored
  · rename_i hwait
    rw [Bool.not_eq_true] at hwait
    split at hrun
    · rename_i hconn
      split at hrun
      · rename_i htype
        obtain ⟨a, hack, heq⟩ := Option.map_eq_some_iff.1 hrun
        cases a with
        | none =>
          cases heq
          exact .ignored
        | some a =>
          cases heq
          exact .again hwait hconn htype (acknowledged_names hack)
      · split at hrun
        · rename_i htype
          obtain ⟨a, hack, heq⟩ := Option.map_eq_some_iff.1 hrun
          cases a with
          | none =>
            cases heq
            exact .ignored
          | some a =>
            cases heq
            exact .done hwait hconn htype (acknowledged_names hack)
        · cases hrun
          exact .ignored
    · cases hrun
      exact .ignored

/-! ### Counting the taken slots -/

theorem waits_set (hslots : c'.msgWaitingAck = c.msgWaitingAck.set id m) {i : ℕ} {m' : Message}
    (hi : c'.Waits i m') : (i = id ∧ m' = m) ∨ (i ≠ id ∧ c.Waits i m') := by
  obtain ⟨hget, htaken⟩ := hi
  rw [hslots, List.getElem?_set] at hget
  split at hget
  · rename_i heq
    split at hget
    · exact Or.inl ⟨heq.symm, (Option.some.inj hget).symm⟩
    · cases hget
  · rename_i hne
    exact Or.inr ⟨fun h => hne h.symm, hget, htaken⟩

theorem waits_set_of_ne (hslots : c'.msgWaitingAck = c.msgWaitingAck.set id m) {i : ℕ} (hne : i ≠ id) {m' : Message}
    (hi : c.Waits i m') : c'.Waits i m' := by
  refine ⟨?_, hi.2⟩
  rw [hslots, List.getElem?_set_ne hne.symm]
  exact hi.1

theorem waits_set_self (hslots : c'.msgWaitingAck = c.msgWaitingAck.set id m) (hlt : id < c.msgWaitingAck.length)
    (htype : m.msgType ≠ MSG_NULL) : c'.Waits id m := by
  refine ⟨?_, htype⟩
  rw [hslots, List.getElem?_set_self hlt]

/-- The waiting messages keep their slots when a new one is written. -/
theorem Allocates.waits_wait (h : Allocates memory c c₁ id) {i : ℕ} {m' : Message} (hi : c.Waits i m') (m : Message) :
    (c₁.wait id m).Waits i m' :=
  waits_set_of_ne rfl (h.ne_of_waits hi) ⟨h.getElem?_old hi.1, hi.2⟩

/-- A written slot is counted as what it holds. -/
theorem taken_set (hid : c.msgWaitingAck[id]? = some slot) (hslots : c'.msgWaitingAck = c.msgWaitingAck.set id m) :
    c'.taken + (if isFree slot then 0 else 1) = c.taken + if isFree m then 0 else 1 := by
  rw [ClientState.taken, hslots]
  exact takenCount_set isFree hid m

theorem isFree_eq_false (h : m.msgType ≠ MSG_NULL) : isFree m = false := by
  rw [Bool.eq_false_iff, ne_eq, isFree_iff]
  exact h

theorem taken_free (hid : c.Waits id slot) (hslots : c'.msgWaitingAck = c.msgWaitingAck.set id m)
    (hm : m.msgType = MSG_NULL) : c'.taken + 1 = c.taken := by
  have h := taken_set hid.1 hslots
  rwa [isFree_eq_false hid.2, isFree_iff.2 hm, if_neg Bool.false_ne_true, if_pos rfl, Nat.add_zero] at h

theorem taken_again (hid : c.Waits id slot) (hslots : c'.msgWaitingAck = c.msgWaitingAck.set id m)
    (hm : m.msgType ≠ MSG_NULL) : c'.taken = c.taken := by
  have h := taken_set hid.1 hslots
  rw [isFree_eq_false hid.2, isFree_eq_false hm] at h
  exact Nat.add_right_cancel h

theorem Allocates.taken_wait (h : Allocates memory c c₁ id) (hm : m.msgType ≠ MSG_NULL) :
    (c₁.wait id m).taken = c.taken + 1 := by
  obtain ⟨s, hs, hfree⟩ := h.getElem?
  have hset : (c₁.wait id m).taken + _ = c₁.taken + _ := taken_set hs rfl
  rwa [hfree, isFree_eq_false hm, if_pos rfl, if_neg Bool.false_ne_true, h.taken_eq, Nat.add_zero] at hset

theorem Requests.taken_le (h : Requests c len c' m) : c'.taken ≤ c.taken + 1 := by
  have hs : c.msgWaitingAck[0]? = some (c.msgWaitingAck.get ⟨0, h.room⟩) := List.getElem?_eq_getElem h.room
  have hset := taken_set hs h.slots
  split at hset <;> split at hset <;> omega

/-- A waiting message is the connection request in the first slot, or a text that names its slot. -/
def Waited (c : ClientState) (i : ℕ) (m : Message) : Prop :=
  (i = 0 ∧ m.msgType = MSG_CONNECTION_CLIENT) ∨
    (m.msgType = MSG_STD_CLIENT_SERVER ∧ m.msgId = Int32.ofNat i ∧ c.connected = true)

/-- The counter of a client counts at least its taken slots, which are all below it. -/
structure Counted (c : ClientState) : Prop where
  pos : 0 < c.msgWaitingAck.length
  count : c.taken ≤ c.nbMsgWaitingAck
  below : ∀ i m, c.Waits i m → i < c.nbMsgWaitingAck
  kind : ∀ i m, c.Waits i m → Waited c i m
  first : c.waitingPseudoConfirmation = true → ∃ m, c.Waits 0 m

/-- A client that differs in its pseudo, its files and its flags only. -/
theorem Counted.flags (h : Counted c) (hslots : c'.msgWaitingAck = c.msgWaitingAck)
    (hnb : c'.nbMsgWaitingAck = c.nbMsgWaitingAck) (hconn : c.connected = true → c'.connected = true)
    (hwait : c'.waitingPseudoConfirmation = true → c.waitingPseudoConfirmation = true) : Counted c' := by
  have hwaits : ∀ {i m}, c'.Waits i m ↔ c.Waits i m := by
    intro i m
    rw [ClientState.Waits, ClientState.Waits, hslots]
  refine ⟨by rw [hslots]; exact h.pos, ?_, fun i m hi => ?_, fun i m hi => ?_, fun hw => ?_⟩
  · rw [ClientState.taken, hslots, hnb]
    exact h.count
  · rw [hnb]
    exact h.below i m (hwaits.1 hi)
  · exact (h.kind i m (hwaits.1 hi)).imp_right fun ⟨htype, hid, hc⟩ => ⟨htype, hid, hconn hc⟩
  · obtain ⟨m, hm⟩ := h.first (hwait hw)
    exact ⟨m, hwaits.2 hm⟩

/-- A slot that is written again, or freed. -/
theorem Counted.rewrite (h : Counted c) (hid : c.Waits id slot)
    (hm : m.msgType = MSG_NULL ∨ m.msgType = slot.msgType ∧ m.msgId = slot.msgId)
    (hwait : c.waitingPseudoConfirmation = false) :
    Counted { c with msgWaitingAck := c.msgWaitingAck.set id m } := by
  refine ⟨?_, ?_, fun i m' hi => ?_, fun i m' hi => ?_, fun hw => ?_⟩
  · rw [List.length_set]
    exact h.pos
  · have hold := h.count
    show ClientState.taken { c with msgWaitingAck := c.msgWaitingAck.set id m } ≤ c.nbMsgWaitingAck
    rcases hm with hnull | ⟨htype, -⟩
    · have hfree : ClientState.taken { c with msgWaitingAck := c.msgWaitingAck.set id m } + 1 = c.taken :=
        taken_free hid rfl hnull
      omega
    · rw [taken_again hid rfl (htype ▸ hid.2)]
      exact hold
  · rcases waits_set rfl hi with ⟨rfl, -⟩ | ⟨-, hold⟩
    · exact h.below _ _ hid
    · exact h.below i m' hold
  · rcases waits_set rfl hi with ⟨rfl, rfl⟩ | ⟨-, hold⟩
    · rcases hm with hnull | ⟨htype, hmsgId⟩
      · exact absurd hnull hi.2
      · refine (h.kind _ _ hid).imp (fun hconn => ⟨hconn.1, htype.trans hconn.2⟩) fun htext => ?_
        exact ⟨htype.trans htext.1, hmsgId.trans htext.2.1, htext.2.2⟩
    · exact h.kind i m' hold
  · rw [hwait] at hw
    cases hw

theorem Counted.request (h : Counted c) (hreq : Requests c len c' m) : Counted c' := by
  have hm : m.msgType ≠ MSG_NULL := by rw [hreq.msgType]; decide
  refine ⟨by rw [hreq.slots, List.length_set]; exact hreq.room, ?_, fun i m' hi => ?_, fun i m' hi => ?_, fun _ => ?_⟩
  · rw [hreq.count]
    exact hreq.taken_le.trans (Nat.succ_le_succ h.count)
  · rw [hreq.count]
    rcases waits_set hreq.slots hi with ⟨rfl, -⟩ | ⟨-, hold⟩
    · omega
    · have := h.below i m' hold
      omega
  · rcases waits_set hreq.slots hi with ⟨rfl, rfl⟩ | ⟨-, hold⟩
    · exact Or.inl ⟨rfl, hreq.msgType⟩
    · exact (h.kind i m' hold).imp_right fun ⟨htype, hid, hc⟩ => ⟨htype, hid, hreq.connected.trans hc⟩
  · exact ⟨m, waits_set_self hreq.slots hreq.room hm⟩

private theorem textSlot_msgId (hm : textSlot c id slot buffer len = some m) : m.msgId = Int32.ofNat id := by
  obtain ⟨pseudo, -, hm⟩ := Option.bind_eq_some_iff.1 hm
  obtain ⟨srcPseudo, -, hm⟩ := Option.bind_eq_some_iff.1 hm
  obtain ⟨dest, -, hm⟩ := Option.bind_eq_some_iff.1 hm
  obtain ⟨dst, -, hm⟩ := Option.bind_eq_some_iff.1 hm
  obtain ⟨text, -, hm⟩ := Option.bind_eq_some_iff.1 hm
  obtain ⟨msg, -, hm⟩ := Option.bind_eq_some_iff.1 hm
  obtain rfl := Option.some.inj hm
  rfl

theorem Counted.text (h : Counted c) (hconn : c.connected = true) (hfind : findNextMsgId memory c = some (c₁, id))
    (hm : textSlot c₁ id slot buffer len = some m) : Counted (c₁.wait id m) := by
  have halloc := findNextMsgId_slot hfind
  obtain ⟨text, -, htext⟩ := textSlot_spec hm
  have hm' : m.msgType ≠ MSG_NULL := by rw [htext.msgType]; decide
  have hid := halloc.id_le h.count
  have hnb : (c₁.wait id m).nbMsgWaitingAck = c.nbMsgWaitingAck + 1 := by rw [ClientState.wait, halloc.nb_eq]
  obtain ⟨hwaiteq, hconneq⟩ := halloc.waiting_eq
  refine ⟨?_, ?_, fun i m' hi => ?_, fun i m' hi => ?_, fun hw => ?_⟩
  · rw [ClientState.wait, List.length_set]
    exact Nat.lt_of_lt_of_le h.pos halloc.length_le
  · rw [hnb, halloc.taken_wait hm']
    exact Nat.succ_le_succ h.count
  · rw [hnb]
    rcases waits_set rfl hi with ⟨rfl, -⟩ | ⟨-, hold⟩
    · omega
    · have := h.below i m' (halloc.waits_old hold)
      omega
  · rcases waits_set rfl hi with ⟨rfl, rfl⟩ | ⟨-, hold⟩
    · exact Or.inr ⟨htext.msgType, textSlot_msgId hm, hconneq.trans hconn⟩
    · exact (h.kind i m' (halloc.waits_old hold)).imp_right fun ⟨htype, hid, hc⟩ => ⟨htype, hid, hconneq.trans hc⟩
  · -- the first slot is taken, so the text has another one
    obtain ⟨m', hm0⟩ := h.first (hwaiteq.symm.trans hw)
    exact ⟨m', halloc.waits_wait hm0 m⟩

theorem Counted.stdin (h : Counted c) (hstep : StdinStep memory c buffer len c' sent) : Counted c' := by
  cases hstep with
  | quiet => exact h
  | request hreq => exact h.request hreq
  | text hconn _ hfind _ hm => exact h.text hconn hfind hm

theorem Counted.received (h : Counted c) (hstep : ReceivedStep c msg c' sent) : Counted c' := by
  cases hstep with
  | ignored => exact h
  | accepted hwait => exact h.flags rfl rfl (fun _ => rfl) nofun
  | refused hwait => exact h.flags rfl rfl (fun hc => hc) nofun
  | @refusedClean codes pseudo id slot hwait htype _ hid =>
    have hflags : Counted { c with codes := codes, pseudo := pseudo, waitingPseudoConfirmation := false } :=
      h.flags rfl rfl (fun hc => hc) nofun
    exact hflags.rewrite hid (Or.inl (by rw [initEmptyMessage])) rfl
  | again hwait _ _ hnames => exact h.rewrite hnames.waits (Or.inr ⟨rfl, rfl⟩) hwait
  | done hwait _ _ hnames => exact h.rewrite hnames.waits (Or.inl (by rw [initEmptyMessage])) hwait

theorem initClientState_counted (codes : List UInt8 → Option (List UInt8)) : Counted (initClientState codes) := by
  have hfree : ∀ m ∈ (initClientState codes).msgWaitingAck, isFree m = true := fun m hm => by
    rw [List.eq_of_mem_replicate hm]
    rfl
  have hno : ∀ i m, ¬ (initClientState codes).Waits i m := fun i m hi =>
    hi.2 (isFree_iff.1 (hfree m (List.mem_of_getElem? hi.1)))
  refine ⟨by rw [initClientState, List.length_replicate]; decide, ?_, fun i m hi => absurd hi (hno i m),
    fun i m hi => absurd hi (hno i m), nofun⟩
  rw [ClientState.taken, takenCount_eq_zero hfree]
  exact Nat.zero_le _

theorem clientRun_counted {out : List Message} (h : ClientRun out c) : Counted c := by
  induction h with
  | start codes => exact initClientState_counted codes
  | typed _ _ hrun ih => exact ih.stdin (onStdinClient_step hrun)
  | received _ hrun ih => exact ih.received (onMsgClient_step hrun)

end NyanChat
