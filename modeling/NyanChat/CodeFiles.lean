import NyanChat.ClientSlots

/-!
# The code files of a client

What a line of input and a received message do to the files under `PATH_CLI_CODES`.  A connection request carries the
code of the file of its pseudo, which is created if it does not exist (`onStdinClient_files`); a refusal removes the
file of the pseudo that waits (`onMsgClient_files`).
-/

namespace NyanChat

/-- The code in the file of a pseudo. -/
def codeFile (c : ClientState) (p : List UInt8) : Option (List UInt8) := (c.codes (PATH_CLI_CODES ++ p)).bind stringIn

/-- The code of a connection request, which its length covers with the final NUL. -/
def Carries (m : Message) (code : List UInt8) : Prop :=
  cstr m.msg = some code ∧ code.length < m.msgLength.toNat

variable {c c' : ClientState} {m msg : Message} {sent : List Message} {buffer : List UInt8} {len : ℕ} {p q : List UInt8}
  {code : List UInt8} {rands : ℕ → ℕ} {memory : ℕ → Message}

theorem codeFile_congr (h : c'.codes = c.codes) (p : List UInt8) : codeFile c' p = codeFile c p := by
  rw [codeFile, codeFile, h]

theorem codeFile_update {file : Option (List UInt8)} (h : c'.codes = Function.update c.codes (PATH_CLI_CODES ++ p) file)
    (hq : q ≠ p) : codeFile c' q = codeFile c q := by
  have hpath : PATH_CLI_CODES ++ q ≠ PATH_CLI_CODES ++ p := fun heq => hq (List.append_cancel_left heq)
  rw [codeFile, codeFile, h, Function.update_of_ne hpath]

/-! ### Lines of input -/

/-- A connection request for `p`, with the code of the file. -/
structure AsksFor (c c' : ClientState) (m : Message) (p : List UInt8) (code : List UInt8) : Prop where
  pseudo : cstr c'.pseudo = some p
  srcPseudo : cstr m.srcPseudo = some p
  msgType : m.msgType = MSG_CONNECTION_CLIENT
  carries : Carries m code
  file : codeFile c' p = some code
  kept : ∀ q k, codeFile c q = some k → codeFile c' q = some k

private theorem generateRandomCode_length (rands : ℕ → ℕ) :
    (generateRandomCode rands CODE_LENGTH).length = CODE_LENGTH := by
  rw [generateRandomCode, List.length_append, List.length_map, List.length_range]
  rfl

private theorem connectionCode_files {file : List UInt8}
    (h : connectionCode rands c (PATH_CLI_CODES ++ p) = some (c', file)) :
    file.length = CODE_LENGTH ∧ c'.codes (PATH_CLI_CODES ++ p) = some file ∧ c'.pseudo = c.pseudo ∧
      ∀ q k, codeFile c q = some k → codeFile c' q = some k := by
  unfold connectionCode at h
  split at h
  · rename_i hnone
    cases h
    refine ⟨generateRandomCode_length rands, Function.update_self .., rfl, fun q k hq => ?_⟩
    rcases eq_or_ne q p with rfl | hqp
    · rw [codeFile, hnone] at hq
      cases hq
    · exact (codeFile_update rfl hqp).trans hq
  · rename_i file' hfile
    split at h
    · rename_i hlength
      cases h
      exact ⟨hlength, hfile, rfl, fun _ _ hq => hq⟩
    · cases h

private theorem connectionSlot_carries {slot : Message} {file : List UInt8} (hp : 0 ∉ p)
    (hlength : file.length = CODE_LENGTH) (h : connectionSlot slot p file = some m) :
    ∃ code, stringIn file = some code ∧ Carries m code ∧ cstr m.srcPseudo = some p ∧
      m.msgType = MSG_CONNECTION_CLIENT := by
  obtain ⟨srcPseudo, hsrc, h⟩ := Option.bind_eq_some_iff.1 h
  obtain ⟨code, hcode, h⟩ := Option.bind_eq_some_iff.1 h
  obtain ⟨text, htext, h⟩ := Option.bind_eq_some_iff.1 h
  obtain rfl := Option.some.inj h
  obtain ⟨hzero, rest, hsplit⟩ := stringIn_eq_some hcode
  refine ⟨code, hcode, ⟨strcpy_cstr hzero htext, ?_⟩, strcpy_cstr hp hsrc, rfl⟩
  have hshort : code.length < CODE_LENGTH := by
    rw [← hlength, hsplit, List.length_append, List.length_cons]
    omega
  exact hshort

theorem requestConnection_files (h : requestConnection rands c buffer = some (c', sent)) :
    ∃ m p code, sent = [m] ∧ AsksFor c c' m p code := by
  obtain ⟨p, hp, h⟩ := Option.bind_eq_some_iff.1 h
  obtain ⟨pseudo, hpseudo, h⟩ := Option.bind_eq_some_iff.1 h
  obtain ⟨⟨c₁, file⟩, hfile, h⟩ := Option.bind_eq_some_iff.1 h
  obtain ⟨slot, -, h⟩ := Option.bind_eq_some_iff.1 h
  obtain ⟨m, hm, h⟩ := Option.bind_eq_some_iff.1 h
  cases h
  have hzero := (stringIn_eq_some hp).1
  obtain ⟨hlength, hpath, hsame, hkept⟩ := connectionCode_files hfile
  obtain ⟨code, hcode, hcarries, hsrc, htype⟩ := connectionSlot_carries hzero hlength hm
  refine ⟨m, p, code, rfl, ?_, hsrc, htype, hcarries, ?_, hkept⟩
  · show cstr c₁.pseudo = some p
    rw [hsame]
    exact strcpy_cstr hzero hpseudo
  · show (c₁.codes (PATH_CLI_CODES ++ p)).bind stringIn = some code
    rw [hpath]
    exact hcode

/-- The parts of a client that texts leave alone. -/
structure SameFiles (c c' : ClientState) : Prop where
  codes : c'.codes = c.codes
  pseudo : c'.pseudo = c.pseudo
  waiting : c'.waitingPseudoConfirmation = c.waitingPseudoConfirmation
  connected : c'.connected = c.connected

private theorem clientSendMessage_files (h : clientSendMessage memory c buffer len = some (c', sent)) :
    SameFiles c c' := by
  obtain ⟨⟨c₁, id⟩, hfind, h⟩ := Option.bind_eq_some_iff.1 h
  obtain ⟨slot, -, h⟩ := Option.bind_eq_some_iff.1 h
  obtain ⟨m, hm, h⟩ := Option.bind_eq_some_iff.1 h
  cases h
  have halloc := findNextMsgId_slot hfind
  obtain ⟨hwait, hconn⟩ := halloc.waiting_eq
  refine ⟨?_, halloc.pseudo_eq, hwait, hconn⟩
  cases halloc <;> rfl

/-- What a line does: it asks for a pseudo, when none is set, or it leaves the files. -/
inductive StdinFiles (c c' : ClientState) (sent : List Message) : Prop
  | request {m : Message} {p : List UInt8} {code : List UInt8} : c.waitingPseudoConfirmation = false →
      cstr c.pseudo = some [] → c'.waitingPseudoConfirmation = true → c'.connected = c.connected → sent = [m] →
      AsksFor c c' m p code → StdinFiles c c' sent
  | text : SameFiles c c' → (sent ≠ [] → c.connected = true) → (∀ m ∈ sent, m.msgType = MSG_STD_CLIENT_SERVER) →
      StdinFiles c c' sent

theorem onStdinClient_files (hrun : onStdinClient rands memory c buffer len = some (c', sent)) :
    StdinFiles c c' sent := by
  have hstep := onStdinClient_step hrun
  unfold onStdinClient at hrun
  have hquiet : StdinFiles c c [] := .text ⟨rfl, rfl, rfl, rfl⟩ (fun h => absurd rfl h) nofun
  split at hrun
  · cases hrun
  · rename_i hpseudo
    split at hrun
    · cases hrun
      exact hquiet
    · obtain ⟨m, p, code, rfl, hasks⟩ := requestConnection_files hrun
      cases hstep with
      | request hreq => exact .request hreq.idle hpseudo hreq.waiting hreq.connected rfl hasks
      | text hconn hne => exact absurd hpseudo hne
  · split at hrun
    · rename_i hconn
      obtain ⟨text, m, -, rfl, htext⟩ := clientSendMessage_spec hrun
      refine .text (clientSendMessage_files hrun) (fun _ => hconn) fun m' hm' => ?_
      rw [List.mem_singleton.1 hm']
      exact htext.msgType
    · cases hrun
      exact hquiet

/-! ### Received messages -/

/-- What a received message does to the files: a refusal removes one. -/
inductive ReceivedFiles (c : ClientState) (msg : Message) (c' : ClientState) (sent : List Message) : Prop
  | refused {p : List UInt8} : c.waitingPseudoConfirmation = true → msg.msgType = MSG_ERROR → cstr c.pseudo = some p →
      c'.codes = Function.update c.codes (PATH_CLI_CODES ++ p) none → c'.waitingPseudoConfirmation = false →
      c'.connected = c.connected → sent = [] → ReceivedFiles c msg c' sent
  | accepted : c.waitingPseudoConfirmation = true → msg.msgType = MSG_WELL_CONNECTED → c'.codes = c.codes →
      c'.pseudo = c.pseudo → c'.waitingPseudoConfirmation = false → c'.connected = true → sent = [] →
      ReceivedFiles c msg c' sent
  | other : SameFiles c c' →
      (c.waitingPseudoConfirmation = true → msg.msgType ≠ MSG_ERROR ∧ msg.msgType ≠ MSG_WELL_CONNECTED) →
      (sent ≠ [] → c.waitingPseudoConfirmation = false ∧ c.connected = true) → ReceivedFiles c msg c' sent

private theorem onConnectionError_files (h : onConnectionError c msg = some c') : ∃ p, cstr c.pseudo = some p ∧
    c'.codes = Function.update c.codes (PATH_CLI_CODES ++ p) none ∧ c'.waitingPseudoConfirmation = false ∧
      c'.connected = c.connected := by
  obtain ⟨p, hp, h⟩ := Option.bind_eq_some_iff.1 h
  refine ⟨p, hp, ?_⟩
  dsimp only at h
  split at h
  · obtain ⟨slot, -, hslot⟩ := Option.map_eq_some_iff.1 h
    split at hslot
    · subst hslot
      exact ⟨rfl, rfl, rfl⟩
    · subst hslot
      rw [ClientState.clean]
      exact ⟨rfl, rfl, rfl⟩
  · obtain rfl := Option.some.inj h
    exact ⟨rfl, rfl, rfl⟩

theorem onMsgClient_files (hrun : onMsgClient c msg = some (c', sent)) : ReceivedFiles c msg c' sent := by
  have hstep := onMsgClient_step hrun
  unfold onMsgClient at hrun
  split at hrun
  · rename_i hwait
    split at hrun
    · rename_i htype
      obtain ⟨d, hd, heq⟩ := Option.map_eq_some_iff.1 hrun
      cases heq
      obtain ⟨p, hp, hcodes, hidle, hconn⟩ := onConnectionError_files hd
      exact .refused hwait htype hp hcodes hidle hconn rfl
    · rename_i herror
      split at hrun
      · rename_i htype
        cases hrun
        exact .accepted hwait htype rfl rfl rfl rfl rfl
      · rename_i hother
        cases hrun
        exact .other ⟨rfl, rfl, rfl, rfl⟩ (fun _ => ⟨herror, hother⟩) fun h => absurd rfl h
  · rename_i hwait
    cases hstep with
    | ignored => exact .other ⟨rfl, rfl, rfl, rfl⟩ (fun h => absurd h hwait) fun h => absurd rfl h
    | accepted h => exact absurd h hwait
    | refused h => exact absurd h hwait
    | refusedClean h => exact absurd h hwait
    | again hidle hconn => exact .other ⟨rfl, rfl, rfl, rfl⟩ (fun h => absurd h hwait) fun _ => ⟨hidle, hconn⟩
    | done hidle hconn => exact .other ⟨rfl, rfl, rfl, rfl⟩ (fun h => absurd h hwait) fun h => absurd rfl h

/-! ### Stored connection requests -/

/-- Each connection request that waits carries a code. -/
def CarriesCodes (c : ClientState) : Prop :=
  ∀ i m, c.Waits i m → m.msgType = MSG_CONNECTION_CLIENT → ∃ code, Carries m code

theorem initClientState_carriesCodes (codes : List UInt8 → Option (List UInt8)) :
    CarriesCodes (initClientState codes) := fun i m hi _ =>
  absurd ((initClientState_counted codes).below i m hi) (Nat.not_lt_zero i)

theorem CarriesCodes.congr (h : CarriesCodes c) (hslots : c'.msgWaitingAck = c.msgWaitingAck) : CarriesCodes c' := by
  intro i m hi
  refine h i m ⟨?_, hi.2⟩
  rw [← hslots]
  exact hi.1

/-- A slot is written. -/
theorem CarriesCodes.set (h : CarriesCodes c) {id : ℕ} (hslots : c'.msgWaitingAck = c.msgWaitingAck.set id m)
    (hm : m.msgType = MSG_CONNECTION_CLIENT → ∃ code, Carries m code) : CarriesCodes c' := by
  intro i m' hi htype
  rcases waits_set hslots hi with ⟨-, rfl⟩ | ⟨-, hold⟩
  · exact hm htype
  · exact h i m' hold htype

theorem CarriesCodes.stdin (h : CarriesCodes c) (hrun : onStdinClient rands memory c buffer len = some (c', sent)) :
    CarriesCodes c' ∧ ∀ m ∈ sent, m.msgType = MSG_CONNECTION_CLIENT → ∃ code, Carries m code := by
  have hsent : ∀ m ∈ sent, m.msgType = MSG_CONNECTION_CLIENT → ∃ code, Carries m code := by
    intro m hm htype
    cases onStdinClient_files hrun with
    | @request m' p code _ _ _ _ hsent hasks =>
      rw [hsent, List.mem_singleton] at hm
      subst hm
      exact ⟨code, hasks.carries⟩
    | text _ _ htext =>
      rw [htext m hm] at htype
      cases htype
  refine ⟨?_, hsent⟩
  cases onStdinClient_step hrun with
  | quiet => exact h
  | @request c' m hreq => exact h.set hreq.slots (hsent m List.mem_cons_self)
  | @text c₁ id slot m _ _ hfind _ hm =>
    have hold : CarriesCodes c₁ := fun i m' hi => h i m' ((findNextMsgId_slot hfind).waits_old hi)
    exact hold.set rfl (hsent m List.mem_cons_self)

private theorem cleaned_type (m : Message) : (initEmptyMessage m).msgType ≠ MSG_CONNECTION_CLIENT := by
  have hnull : (initEmptyMessage m).msgType = MSG_NULL := rfl
  rw [hnull]
  decide

theorem CarriesCodes.received (h : CarriesCodes c) (hrun : onMsgClient c msg = some (c', sent)) :
    CarriesCodes c' ∧ ∀ m ∈ sent, m.msgType = MSG_CONNECTION_CLIENT → ∃ code, Carries m code := by
  cases onMsgClient_step hrun with
  | ignored => exact ⟨h, nofun⟩
  | accepted => exact ⟨h.congr rfl, nofun⟩
  | refused => exact ⟨h.congr rfl, nofun⟩
  | refusedClean => exact ⟨h.set rfl fun htype => absurd htype (cleaned_type _), nofun⟩
  | @again id slot _ _ _ hnames =>
    -- the message that is sent again carries what it carried before
    have hagain : slot.msgType = MSG_CONNECTION_CLIENT →
        ∃ code, Carries { slot with nbRetransmission := msg.nbRetransmission } code := h id slot hnames.waits
    refine ⟨h.set rfl hagain, fun m hm => ?_⟩
    rw [List.mem_singleton.1 hm]
    exact hagain
  | done => exact ⟨h.set rfl fun htype => absurd htype (cleaned_type _), nofun⟩

end NyanChat
