import NyanChat.CodePaths

/-!
# The server on the disk

In the other modules the server has a file for each path.  Here its files are on a disk.  As long as the pseudos have no
slash, a server whose directory of codes holds nothing but files does the same with both (`OnDisk.answers`).
-/

namespace NyanChat

open Paths

/-- The server's program and the disk it runs on.  The field `codes` of its state is not used. -/
structure DiskServer where
  state : ServerState
  disk : Disk

/-! ### The functions of the server -/

/-- `init_server_state` in the place `cwd` -/
def initServerStateOn (cwd : Place) (d : Disk) : Option DiskServer := do
  let d ← d.makeCodes cwd PATH_SRV_CODES
  let s ← initServerState fun _ => none
  return ⟨s, d⟩

/-- `refusal`, on what `stat` finds.  `read_file` fails on a directory, and then the program exits. -/
def refusalOn (clock : Clock) (cwd : Place) (w : DiskServer) (pseudo : List UInt8) (msg : Message)
    (cli : Option Client) : Option (Option (List UInt8)) :=
  match w.disk.stat cwd (pathKey pseudo) with
  | none => some none
  | some .directory => none
  | some (.file foundCode) => refusal clock { w.state with codes := fun _ => some foundCode } pseudo msg cli

/-- `storeCode`, whose `fopen` can answer `NULL`; that is not tested. -/
def storeCodeOn (cwd : Place) (d : Disk) (pseudo : List UInt8) (msg : Message) : Option Disk :=
  if msg.msgLength.toNat ≤ MAX_MSG_LENGTH then
    d.write cwd (pathKey pseudo) (msg.msg.toList.take msg.msgLength.toNat)
  else none

/-- `onConnection` -/
def onConnectionOn (fuel : ℕ) (clock : Clock) (locals : Locals) (cwd : Place) (sock : Int) (pseudo : List UInt8)
    (msg : Message) (w : DiskServer) : Option (DiskServer × List Sent) := do
  let (s, cli) ← findClient fuel w.state pseudo
  match ← refusalOn clock cwd ⟨s, w.disk⟩ pseudo msg (cli.map Prod.snd) with
  | some text => return (⟨s, w.disk⟩, [⟨sock, errorReply text msg locals.errorMsg⟩])
  | none =>
    match ← takeCare fuel clock s pseudo msg cli with
    | none => return (⟨s, w.disk⟩, [⟨sock, errorReply ERROR_ALREADY_MAX_CLIENTS msg locals.errorMsg⟩])
    | some (s, i, c) =>
      let d ← storeCodeOn cwd w.disk pseudo msg
      return (⟨s.setClient i { c with connected := true }, d⟩, [⟨sock, connectedReply msg locals.connectedMsg⟩])

/-- What a call of `on_msg_received` leaves. -/
structure DiskHandled where
  server : DiskServer
  sent : List Sent
  msg : Message

/-- `on_msg_received` in the place `cwd` -/
def onMsgReceivedOn (S : Syndromes) (fuel : ℕ) (clock : Clock) (locals : Locals) (cwd : Place) (sock : Int)
    (msg : Message) (w : DiskServer) : Option DiskHandled := do
  let pseudo ← cstr msg.srcPseudo
  if pseudo.length < MIN_NAME_LENGTH then return ⟨w, [], msg⟩
  else if msg.msgType = MSG_CONNECTION_CLIENT then
    let (w, sent) ← onConnectionOn fuel clock locals cwd sock pseudo msg w
    return ⟨w, sent, msg⟩
  else if msg.msgType = MSG_STD_CLIENT_SERVER then
    let r ← onText S fuel locals sock pseudo msg w.state
    return ⟨⟨r.state, w.disk⟩, r.sent, r.msg⟩
  else return ⟨w, [], msg⟩

/-! ### The server with a file for each path -/

/-- The servers have the same tables, and the entries of the directory of the codes are the files of the other one. -/
structure OnDisk (cwd : Place) (w : DiskServer) (s : ServerState) : Prop where
  clients : w.state.clients = s.clients
  map : w.state.hmPseudoToId = s.hmPseudoToId
  directory : w.disk.node (codeDirectory cwd) = some .directory
  files : Holds (codeDirectory cwd) w.disk fun p => s.codes (pathKey p)

variable {cwd : Place} {w : DiskServer} {s : ServerState} {fuel : ℕ} {p : Key} {msg : Message}

/-! ### What does not touch the files -/

private theorem findClient_codes (fuel : ℕ) (s : ServerState) (codes : List UInt8 → Option (List UInt8)) (p : Key) :
    findClient fuel { s with codes := codes } p =
      (findClient fuel s p).map fun r => ({ r.1 with codes := codes }, r.2) := by
  unfold findClient
  dsimp only
  split
  · split
    · split
      · rfl
      · rw [Option.map_map]
        rfl
    · rw [Option.map_map]
      rfl
  · rfl

private theorem takeCare_codes (fuel : ℕ) (clock : Clock) (s : ServerState)
    (codes : List UInt8 → Option (List UInt8)) (p : Key) (msg : Message)
    (cli : Option (Fin NB_MAX_CONNECTED_CLIENTS × Client)) :
    takeCare fuel clock { s with codes := codes } p msg cli =
      (takeCare fuel clock s p msg cli).map fun r => r.map fun x => ({ x.1 with codes := codes }, x.2) := by
  cases cli with
  | some x => rfl
  | none =>
    simp only [takeCare]
    split
    · rfl
    · rw [Option.map_map]
      rfl

private theorem onText_codes (S : Syndromes) (fuel : ℕ) (locals : Locals) (sock : Int) (p : Key) (msg : Message)
    (s : ServerState) (codes : List UInt8 → Option (List UInt8)) :
    onText S fuel locals sock p msg { s with codes := codes } =
      (onText S fuel locals sock p msg s).map fun r => { r with state := { r.state with codes := codes } } := by
  simp only [onText, findClient_codes, Option.bind_eq_bind, Option.pure_def, Option.bind_map, Option.map_bind]
  congr 1
  funext r
  simp only [Function.comp_def, Option.map_bind]
  congr 1
  funext x
  split
  · split
    · simp only [Function.comp_def, Option.map_bind]
      rfl
    · rfl
  · rfl

/-! ### A message for both servers -/

private theorem rel_bind {α β γ δ : Type} {R : α → β → Prop} {R' : γ → δ → Prop} {a : Option α} {b : Option β}
    (h : Option.Rel R a b) {f : α → Option γ} {g : β → Option δ} (hfg : ∀ x y, R x y → Option.Rel R' (f x) (g y)) :
    Option.Rel R' (a.bind f) (b.bind g) := by
  cases h with
  | some hxy => exact hfg _ _ hxy
  | none => exact .none

namespace OnDisk

theorem exists_codes (h : OnDisk cwd w s) : ∃ codes, s = { w.state with codes := codes } := by
  obtain ⟨clients, map, codes⟩ := s
  obtain ⟨rfl, rfl, -, -⟩ := h
  exact ⟨codes, rfl⟩

theorem stat_eq (h : OnDisk cwd w s) (hp : IsName SLASH DOT p) :
    w.disk.stat cwd (pathKey p) = (s.codes (pathKey p)).map .file := by
  have hstat := h.files.stat isName_folder h.directory hp
  rwa [← pathKey_eq] at hstat

theorem findClient_rel (h : OnDisk cwd w s) (fuel : ℕ) (p : Key) :
    Option.Rel (fun a r => OnDisk cwd ⟨a.1, w.disk⟩ r.1 ∧ a.2 = r.2) (findClient fuel w.state p)
      (findClient fuel s p) := by
  obtain ⟨codes, rfl⟩ := h.exists_codes
  rw [findClient_codes fuel w.state codes p]
  cases findClient fuel w.state p with
  | none => exact .none
  | some r => exact .some ⟨⟨rfl, rfl, h.directory, h.files⟩, rfl⟩

theorem refusal_eq (h : OnDisk cwd w s) (hp : IsName SLASH DOT p) (clock : Clock) (msg : Message)
    (cli : Option Client) : refusalOn clock cwd w p msg cli = refusal clock s p msg cli := by
  unfold refusalOn refusal
  rw [h.stat_eq hp]
  cases s.codes (pathKey p) <;> rfl

theorem takeCare_rel (h : OnDisk cwd w s) (fuel : ℕ) (clock : Clock) (p : Key) (msg : Message)
    (cli : Option (Fin NB_MAX_CONNECTED_CLIENTS × Client)) :
    Option.Rel (Option.Rel fun a r => OnDisk cwd ⟨a.1, w.disk⟩ r.1 ∧ a.2 = r.2) (takeCare fuel clock w.state p msg cli)
      (takeCare fuel clock s p msg cli) := by
  obtain ⟨codes, rfl⟩ := h.exists_codes
  rw [takeCare_codes fuel clock w.state codes p msg cli]
  cases takeCare fuel clock w.state p msg cli with
  | none => exact .none
  | some r =>
    refine .some ?_
    cases r with
    | none => exact .none
    | some x => exact .some ⟨⟨rfl, rfl, h.directory, h.files⟩, rfl⟩

/-- A code is stored in an entry of the directory, and the others stay. -/
theorem storeCode_rel (h : OnDisk cwd w s) (hp : IsName SLASH DOT p) (msg : Message) :
    Option.Rel (fun d s' => OnDisk cwd ⟨w.state, d⟩ s') (storeCodeOn cwd w.disk p msg) (storeCode s p msg) := by
  unfold storeCodeOn storeCode
  split
  · obtain ⟨d, hwrite, hdir, hfiles⟩ := h.files.write isName_folder h.directory hp
      (msg.msg.toList.take msg.msgLength.toNat)
    rw [pathKey_eq, hwrite, ← pathKey_eq]
    rw [← Function.update_comp_eq_of_injective' s.codes pathKey_injective] at hfiles
    exact .some ⟨h.clients, h.map, hdir, hfiles⟩
  · exact .none

theorem setClient (h : OnDisk cwd w s) (i : Fin NB_MAX_CONNECTED_CLIENTS) (c : Client) :
    OnDisk cwd ⟨w.state.setClient i c, w.disk⟩ (s.setClient i c) := by
  refine ⟨?_, h.map, h.directory, h.files⟩
  simp only [ServerState.setClient, h.clients]

theorem onConnection_rel (h : OnDisk cwd w s) (hp : IsName SLASH DOT p) (fuel : ℕ) (clock : Clock) (locals : Locals)
    (sock : Int) (msg : Message) :
    Option.Rel (fun a r => OnDisk cwd a.1 r.1 ∧ a.2 = r.2) (onConnectionOn fuel clock locals cwd sock p msg w)
      (onConnection fuel clock locals sock p msg s) := by
  refine rel_bind (h.findClient_rel fuel p) ?_
  rintro ⟨s₁, cli⟩ ⟨s₁', cli'⟩ ⟨h₁, rfl⟩
  dsimp only
  rw [h₁.refusal_eq hp]
  cases refusal clock s₁' p msg (Option.map Prod.snd cli) with
  | none => exact .none
  | some refused =>
    cases refused with
    | some text => exact .some ⟨h₁, rfl⟩
    | none =>
      refine rel_bind (h₁.takeCare_rel fuel clock p msg cli) fun _ _ htaken => ?_
      cases htaken with
      | none => exact .some ⟨h₁, rfl⟩
      | some hx =>
        rename_i x x'
        obtain ⟨s₂, i, c⟩ := x
        obtain ⟨s₂', i', c'⟩ := x'
        obtain ⟨h₂, heq⟩ := hx
        cases heq
        exact rel_bind (h₂.storeCode_rel hp msg) fun d s₃ h₃ => .some ⟨h₃.setClient i _, rfl⟩

/-- Both servers answer a message with the same messages, unless it is a request with a path for its pseudo. -/
theorem answers (h : OnDisk cwd w s) (hplain : PlainRequest msg) (S : Syndromes) (fuel : ℕ) (clock : Clock)
    (locals : Locals) (sock : Int) :
    Option.Rel (fun a r => OnDisk cwd a.server r.state ∧ a.sent = r.sent ∧ a.msg = r.msg)
      (onMsgReceivedOn S fuel clock locals cwd sock msg w) (onMsgReceived S fuel clock locals sock msg s) := by
  unfold onMsgReceivedOn onMsgReceived
  cases hpseudo : cstr msg.srcPseudo with
  | none => exact .none
  | some p =>
    simp only [Option.bind_eq_bind, Option.bind_some]
    split
    · exact .some ⟨h, rfl, rfl⟩
    · rename_i hshort
      split
      · rename_i htype
        have hvalid : ValidPseudo p := validPseudo_of_cstr hpseudo (Nat.not_lt.1 hshort)
        refine rel_bind (h.onConnection_rel (hvalid.isName (hplain htype p hpseudo)) fuel clock locals sock msg) ?_
        rintro ⟨w₁, sent⟩ ⟨s₁, sent'⟩ ⟨h₁, rfl⟩
        exact .some ⟨h₁, rfl, rfl⟩
      · split
        · obtain ⟨codes, rfl⟩ := h.exists_codes
          rw [onText_codes S fuel locals sock p msg w.state codes]
          cases onText S fuel locals sock p msg w.state with
          | none => exact .none
          | some r => exact .some ⟨⟨rfl, rfl, h.directory, h.files⟩, rfl, rfl⟩
        · exact .some ⟨h, rfl, rfl⟩

end OnDisk

end NyanChat
