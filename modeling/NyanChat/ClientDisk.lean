import NyanChat.CodeFiles
import NyanChat.Disk
import NyanChat.OwnConnections
import NyanChat.Pseudos

/-!
# The client on the disk

The program of a client, with its codes on a disk.  A line that asks for a pseudo reads the file of the pseudo or makes
it, and exits when that fails; a refusal removes the file.  As long as the pseudos have no slash, and the directory of
the codes holds nothing but files, the program is in a state of a run of the client (`clientMain_run`).
-/

namespace NyanChat

open Paths

/-! ### The file of a pseudo -/

/-- The file that a line of input opens, when it is taken for a pseudo. -/
def ClientState.opens (c : ClientState) (buffer : List UInt8) (msgLen : ℕ) : Option (List UInt8) :=
  if TakesPseudo c msgLen then (stringIn buffer).map fun text => PATH_CLI_CODES ++ text else none

/-- The file that a received message removes, when it refuses the pseudo. -/
def ClientState.discards (c : ClientState) (msg : Message) : Option (List UInt8) :=
  if c.waitingPseudoConfirmation ∧ msg.msgType = MSG_ERROR then (cstr c.pseudo).map fun p => PATH_CLI_CODES ++ p
  else none

/-- A call that may open a file, in the place `cwd`, with what the client knows of its files.  A missing file is made;
a directory cannot be read.  When `mkdir`, `fopen` or `read_file` fails, the program exits. -/
def withCode {α : Type} (cwd : Place) (rands : ℕ → ℕ) (d : Disk) (codes : List UInt8 → Option (List UInt8))
    (call : (List UInt8 → Option (List UInt8)) → Option α) : Option (List UInt8) → Option (α × Disk)
  | none => (call codes).map fun a => (a, d)
  | some path =>
    (d.makeCodes cwd PATH_CLI_CODES).bind fun d =>
      match d.stat cwd path with
      | none =>
        (d.write cwd path (generateRandomCode rands CODE_LENGTH)).bind fun d =>
          (call (Function.update codes path none)).map fun a => (a, d)
      | some .directory => none
      | some (.file code) => (call (Function.update codes path (some code))).map fun a => (a, d)

def discard (cwd : Place) (d : Disk) : Option (List UInt8) → Disk
  | none => d
  | some path => d.remove cwd path

def clientDirectory (cwd : Place) : Place := cwd ++ [ascii "pseudo_code_clients"]

/-- The client knows what is on the disk, and waits for a pseudo that has a file. -/
structure Kept (cwd : Place) (d : Disk) (c : ClientState) : Prop where
  files : Holds (clientDirectory cwd) d fun p => c.codes (PATH_CLI_CODES ++ p)
  waits : c.waitingPseudoConfirmation = true → d.node (clientDirectory cwd) = some .directory ∧
    ∀ p, cstr c.pseudo = some p → IsName SLASH DOT p

variable {cwd : Place} {d d' : Disk} {c c' : ClientState} {rands : ℕ → ℕ} {memory : ℕ → Message} {buffer : List UInt8}
  {len : ℕ} {sent : List Message} {msg : Message} {path text : List UInt8} {α : Type} {a : α}
  {codes : List UInt8 → Option (List UInt8)} {call : (List UInt8 → Option (List UInt8)) → Option α}

private theorem isName_clients : IsName SLASH DOT (ascii "pseudo_code_clients") :=
  ⟨⟨by decide, by decide, by decide⟩, by decide⟩

private theorem path_clients : PATH_CLI_CODES = ascii "pseudo_code_clients" ++ [SLASH] := by decide

private theorem path_text (text : List UInt8) :
    PATH_CLI_CODES ++ text = ascii "pseudo_code_clients" ++ SLASH :: text := by
  rw [path_clients, List.append_assoc, List.singleton_append]

theorem kept_start (hd : FilesOnly (clientDirectory cwd) d) : Kept cwd d (initClientState (d.contents cwd)) := by
  refine ⟨fun p hp => ?_, fun hwait => absurd hwait Bool.false_ne_true⟩
  have hholds : d.node (clientDirectory cwd ++ [p]) = (d.contents cwd (PATH_CLI_CODES ++ p)).map .file := by
    rw [path_text]
    exact holds_contents isName_clients hd p hp
  exact hholds

/-! ### Lines of input -/

/-- The files after a call that opened one. -/
def opening (codes : List UInt8 → Option (List UInt8)) (path code : List UInt8) : List UInt8 → Option (List UInt8) :=
  Function.update codes path (some ((codes path).getD code))

theorem withCode_call (hrun : withCode cwd rands d codes call (some path) = some (a, d')) :
    ∃ file, call (Function.update codes path file) = some a := by
  obtain ⟨d₁, -, hrun⟩ := Option.bind_eq_some_iff.1 hrun
  split at hrun
  · obtain ⟨d₂, -, hrun⟩ := Option.bind_eq_some_iff.1 hrun
    obtain ⟨a', hcall, heq⟩ := Option.map_eq_some_iff.1 hrun
    cases heq
    exact ⟨_, hcall⟩
  · cases hrun
  · obtain ⟨a', hcall, heq⟩ := Option.map_eq_some_iff.1 hrun
    cases heq
    exact ⟨_, hcall⟩

/-- A pseudo without a slash: the call finds the files as the client knows them. -/
theorem withCode_plain (h : Holds (clientDirectory cwd) d fun p => codes (PATH_CLI_CODES ++ p)) (hslash : SLASH ∉ text)
    (hrun : withCode cwd rands d codes call (some (PATH_CLI_CODES ++ text)) = some (a, d')) :
    IsName SLASH DOT text ∧ call codes = some a ∧ d'.node (clientDirectory cwd) = some .directory ∧
      Holds (clientDirectory cwd) d' fun p =>
        opening codes (PATH_CLI_CODES ++ text) (generateRandomCode rands CODE_LENGTH) (PATH_CLI_CODES ++ p) := by
  have hinj : Function.Injective (PATH_CLI_CODES ++ ·) := fun _ _ heq => List.append_cancel_left heq
  obtain ⟨d₁, hmake, hrun⟩ := Option.bind_eq_some_iff.1 hrun
  rw [path_clients] at hmake
  obtain ⟨hdir, hentries⟩ := makeCodes_eq isName_clients hmake
  have h₁ : Holds (clientDirectory cwd) d₁ fun p => codes (PATH_CLI_CODES ++ p) :=
    fun p hp => (hentries p).trans (h p hp)
  have hname : IsName SLASH DOT text := by
    refine ⟨?_, hslash⟩
    by_contra hproper
    have hstat : d₁.stat cwd (PATH_CLI_CODES ++ text) = some .directory := by
      rw [path_text]
      exact Tree.stat_improper isName_clients hslash hproper hdir
    rw [hstat] at hrun
    cases hrun
  have hstat : d₁.stat cwd (PATH_CLI_CODES ++ text) = (codes (PATH_CLI_CODES ++ text)).map .file := by
    have hstat := h₁.stat isName_clients hdir hname
    rwa [← path_text] at hstat
  refine ⟨hname, ?_⟩
  rw [hstat] at hrun
  cases hcode : codes (PATH_CLI_CODES ++ text) with
  | none =>
    rw [hcode] at hrun
    obtain ⟨d₂, hwrite, hrun⟩ := Option.bind_eq_some_iff.1 hrun
    obtain ⟨a', hcall, heq⟩ := Option.map_eq_some_iff.1 hrun
    cases heq
    rw [← hcode, Function.update_eq_self] at hcall
    obtain ⟨d₃, hwrite', hdir₃, h₃⟩ := h₁.write isName_clients hdir hname (generateRandomCode rands CODE_LENGTH)
    rw [← path_text] at hwrite'
    obtain rfl := Option.some.inj (hwrite.symm.trans hwrite')
    refine ⟨hcall, hdir₃, ?_⟩
    rw [opening, hcode, Function.update_comp_eq_of_injective' codes hinj]
    exact h₃
  | some code =>
    rw [hcode] at hrun
    obtain ⟨a', hcall, heq⟩ := Option.map_eq_some_iff.1 hrun
    cases heq
    rw [← hcode, Function.update_eq_self] at hcall
    refine ⟨hcall, hdir, ?_⟩
    have hsame : opening codes (PATH_CLI_CODES ++ text) (generateRandomCode rands CODE_LENGTH) = codes := by
      rw [opening, hcode]
      exact (congrArg _ hcode.symm).trans (Function.update_eq_self _ _)
    rw [hsame]
    exact h₁

private theorem requestConnection_codes (htext : stringIn buffer = some text)
    (hrun : requestConnection rands c buffer = some (c', sent)) :
    c'.codes = opening c.codes (PATH_CLI_CODES ++ text) (generateRandomCode rands CODE_LENGTH) := by
  obtain ⟨text', htext', hrun⟩ := Option.bind_eq_some_iff.1 hrun
  obtain rfl := Option.some.inj (htext.symm.trans htext')
  obtain ⟨pseudo, -, hrun⟩ := Option.bind_eq_some_iff.1 hrun
  obtain ⟨⟨c₁, code⟩, hcode, hrun⟩ := Option.bind_eq_some_iff.1 hrun
  obtain ⟨slot, -, hrun⟩ := Option.bind_eq_some_iff.1 hrun
  obtain ⟨m, -, hrun⟩ := Option.bind_eq_some_iff.1 hrun
  cases hrun
  unfold connectionCode at hcode
  split at hcode
  · rename_i hnone
    cases hcode
    rw [opening, hnone]
    rfl
  · rename_i stored hstored
    split at hcode
    · cases hcode
      rw [opening, hstored]
      exact ((congrArg _ hstored.symm).trans (Function.update_eq_self _ _)).symm
    · cases hcode

/-- A line asks for the pseudo whose file it opens, or leaves the files alone. -/
theorem onStdinClient_opens (hrun : onStdinClient rands memory c buffer len = some (c', sent)) :
    (c.opens buffer len = none ∧ SameFiles c c') ∨
      ∃ text m, c.opens buffer len = some (PATH_CLI_CODES ++ text) ∧ sent = [m] ∧
        m.msgType = MSG_CONNECTION_CLIENT ∧ cstr m.srcPseudo = some text ∧ cstr c'.pseudo = some text ∧
        c'.codes = opening c.codes (PATH_CLI_CODES ++ text) (generateRandomCode rands CODE_LENGTH) := by
  by_cases htakes : TakesPseudo c len
  · right
    rw [onStdinClient_takes htakes] at hrun
    obtain ⟨text, htext, -⟩ := Option.bind_eq_some_iff.1 hrun
    obtain ⟨m, hsent, htype, hpseudo, hsrc⟩ := requestConnection_pseudo htext hrun
    refine ⟨text, m, ?_, hsent, htype, hsrc, hpseudo, requestConnection_codes htext hrun⟩
    rw [ClientState.opens, if_pos htakes, htext, Option.map_some]
  · left
    refine ⟨if_neg htakes, ?_⟩
    cases onStdinClient_files hrun with
    | request hidle hpseudo hwait _ _ _ =>
      -- without a pseudo only a line that is long enough changes what the client waits for
      refine absurd ⟨hpseudo, hidle, ?_⟩ htakes
      by_contra hshort
      rw [onStdinClient, hpseudo] at hrun
      dsimp only at hrun
      rw [if_pos (Or.inr (Nat.not_le.1 hshort))] at hrun
      cases hrun
      rw [hidle] at hwait
      cases hwait
    | text hsame _ _ => exact hsame

/-- A line of input, with the disk: the call of the other clients is made, and the client knows what is on the disk. -/
theorem Kept.typed (h : Kept cwd d c)
    (hrun : withCode cwd rands d c.codes
      (fun codes => onStdinClient rands memory { c with codes := codes } buffer len) (c.opens buffer len) =
        some ((c', sent), d')) (hplain : ∀ m ∈ sent, PlainRequest m) :
    onStdinClient rands memory c buffer len = some (c', sent) ∧ Kept cwd d' c' := by
  cases hopens : c.opens buffer len with
  | none =>
    rw [hopens] at hrun
    obtain ⟨r, hcall, heq⟩ := Option.map_eq_some_iff.1 hrun
    cases heq
    refine ⟨hcall, ?_⟩
    rcases onStdinClient_opens hcall with ⟨-, hsame⟩ | ⟨text, m, hsome, -⟩
    · refine ⟨?_, ?_⟩
      · rw [hsame.codes]
        exact h.files
      · rw [hsame.waiting, hsame.pseudo]
        exact h.waits
    · have hnone : c.opens buffer len = some (PATH_CLI_CODES ++ text) := hsome
      rw [hopens] at hnone
      cases hnone
  | some path =>
    rw [hopens] at hrun
    obtain ⟨file, hcall⟩ := withCode_call hrun
    have hopens' : ∀ codes, ({ c with codes := codes } : ClientState).opens buffer len = c.opens buffer len :=
      fun _ => rfl
    rcases onStdinClient_opens hcall with ⟨hnone, -⟩ | ⟨text, m, hsome, rfl, htype, hsrc, -⟩
    · rw [hopens', hopens] at hnone
      cases hnone
    · rw [hopens', hopens] at hsome
      obtain rfl := Option.some.inj hsome
      have hslash : SLASH ∉ text := hplain m (List.mem_singleton_self m) htype text hsrc
      obtain ⟨hname, hcall', hdir, hfiles⟩ := withCode_plain h.files hslash hrun
      refine ⟨hcall', ?_⟩
      rcases onStdinClient_opens hcall' with ⟨hnone, -⟩ | ⟨text', m', hsome', -, -, -, hpseudo, hcodes⟩
      · have hnone' : c.opens buffer len = none := hnone
        rw [hopens] at hnone'
        cases hnone'
      · have hsome'' : c.opens buffer len = some (PATH_CLI_CODES ++ text') := hsome'
        rw [hopens] at hsome''
        obtain rfl := List.append_cancel_left (Option.some.inj hsome'')
        refine ⟨?_, fun _ => ⟨hdir, fun p hp => ?_⟩⟩
        · rw [hcodes]
          exact hfiles
        · rw [hpseudo] at hp
          cases hp
          exact hname

/-! ### Received messages -/

/-- A received message, with the disk: a refusal removes the file of the pseudo that waits. -/
theorem Kept.received (h : Kept cwd d c) (hrun : onMsgClient c msg = some (c', sent)) :
    Kept cwd (discard cwd d (c.discards msg)) c' := by
  have hinj : Function.Injective (PATH_CLI_CODES ++ ·) := fun _ _ heq => List.append_cancel_left heq
  have hkeep : ¬ (c.waitingPseudoConfirmation = true ∧ msg.msgType = MSG_ERROR) →
      discard cwd d (c.discards msg) = d := fun hno => by rw [ClientState.discards, if_neg hno, discard]
  cases onMsgClient_files hrun with
  | @refused p hwait htype hp hcodes hidle _ _ =>
    obtain ⟨hdir, hnames⟩ := h.waits hwait
    rw [ClientState.discards, if_pos ⟨hwait, htype⟩, hp, Option.map_some, discard]
    refine ⟨?_, fun hwait' => absurd (hwait'.symm.trans hidle) (Bool.false_ne_true ∘ Eq.symm)⟩
    rw [hcodes, Function.update_comp_eq_of_injective' c.codes hinj, path_text]
    exact (h.files.remove isName_clients hdir (hnames p hp)).2
  | accepted _ htype hcodes _ hidle _ _ =>
    rw [hkeep fun hno => absurd (htype.symm.trans hno.2) (by decide)]
    refine ⟨?_, fun hwait' => absurd (hwait'.symm.trans hidle) (Bool.false_ne_true ∘ Eq.symm)⟩
    rw [hcodes]
    exact h.files
  | other hsame hother _ =>
    rw [hkeep fun hno => (hother hno.1).1 hno.2]
    refine ⟨?_, ?_⟩
    · rw [hsame.codes]
      exact h.files
    · rw [hsame.waiting, hsame.pseudo]
      exact h.waits

/-! ### The program of a client -/

/-- The state of a client's program, with the number of the calls of its functions, the messages it has sent and the
disk. -/
structure Talk where
  client : ClientState
  calls : ℕ
  out : List Message
  disk : Disk

/-- After a call, with the answers `rc` of `send`: whether one of its messages was not sent, and the next state. -/
def Talk.after (rc : ℕ → Int) (t : Talk) (r : (ClientState × List Message) × Disk) : Bool × Talk :=
  (failedSend rc t.out.length r.1.2.length, ⟨r.1.1, t.calls + 1, t.out ++ r.1.2, r.2⟩)

/-- The functions that `main` of `client.c` gives to its main loop, in the place `cwd`. -/
def clientHandlers (cwd : Place) (rands : ℕ → ℕ → ℕ) (memory : ℕ → ℕ → Message) (rc : ℕ → Int) : Handlers Talk where
  onMsg _ msg _ t := (onMsgClient t.client msg).map fun r =>
    (msg, t.after rc (r, discard cwd t.disk (t.client.discards msg)))
  onStdin := some fun buffer len t =>
    (withCode cwd (rands t.calls) t.disk t.client.codes
      (fun codes => onStdinClient (rands t.calls) (memory t.calls) { t.client with codes := codes } buffer len)
      (t.client.opens buffer len)).map (t.after rc)

/-- `main` of `client.c` in the place `cwd` on a disk, up to the end of its main loop, with the results of `rand()` and
of `realloc` in its calls, the answers of `send` and `poll`, the socket, and what the connection holds before. -/
def clientMain (cwd : Place) (d : Disk) (rands : ℕ → ℕ → ℕ) (memory : ℕ → ℕ → Message) (rc : ℕ → Int) (sockfd : Int)
    (msg : Message) (polls : List PollAnswer) : Option (LoopState Talk × Bool) :=
  tcpConnectionMainloop (clientHandlers cwd rands memory rc) polls
    ⟨tcpConnectionClientInit .client sockfd msg, ⟨initClientState (d.contents cwd), 0, [], d⟩, []⟩

/-- `read(stdin_fd, buffer, MAX_MSG_LENGTH)` gives some bytes, and not more. -/
def ReadsLines (polls : List PollAnswer) : Prop :=
  ∀ ready, .ready ready ∈ polls → ∀ i bytes, (ready i).stdin = some bytes →
    bytes ≠ [] ∧ bytes.length ≤ MAX_MSG_LENGTH

/-- When the requests so far are for pseudos without a slash, the program is in a state of a run of the client. -/
def InClientRun (cwd : Place) (t : Talk) : Prop :=
  (∀ m ∈ t.out, PlainRequest m) → ClientRun t.out t.client ∧ Kept cwd t.disk t.client

theorem clientHandlers_preserves (cwd : Place) (rands : ℕ → ℕ → ℕ) (memory : ℕ → ℕ → Message) (rc : ℕ → Int) :
    Preserves (clientHandlers cwd rands memory rc) (fun bytes => bytes ≠ [] ∧ bytes.length ≤ MAX_MSG_LENGTH)
      fun t _ => InClientRun cwd t := by
  constructor
  case other => exact fun _ _ _ _ h => h
  case onMsg =>
    intro sock msg len t calls r hrun h hplain
    obtain ⟨x, hx, rfl⟩ := Option.map_eq_some_iff.1 hrun
    obtain ⟨hrun, hkept⟩ := h fun m hm => hplain m (List.mem_append_left _ hm)
    exact ⟨ClientRun.received hrun hx, hkept.received hx⟩
  case onStdin =>
    rintro f hf bytes t calls r ⟨hne, hlen⟩ hrun h hplain
    cases hf
    obtain ⟨x, hx, rfl⟩ := Option.map_eq_some_iff.1 hrun
    obtain ⟨hrun, hkept⟩ := h fun m hm => hplain m (List.mem_append_left _ hm)
    obtain ⟨hcall, hkept'⟩ := hkept.typed hx fun m hm => hplain m (List.mem_append_right _ hm)
    exact ⟨ClientRun.typed hrun (.line hne hlen) hcall, hkept'⟩

/-- Whatever the system calls of a client's program answer, as long as its requests are for pseudos without a slash it
is in a state of a run of the client, it has sent the messages of this run, and the disk holds the files of the run. -/
theorem clientMain_run {rands : ℕ → ℕ → ℕ} {memory : ℕ → ℕ → Message} {rc : ℕ → Int} {sockfd : Int}
    {polls : List PollAnswer} {r : LoopState Talk × Bool} (hd : FilesOnly (clientDirectory cwd) d)
    (hread : ReadsLines polls) (hrun : clientMain cwd d rands memory rc sockfd msg polls = some r)
    (hplain : ∀ m ∈ r.1.args.out, PlainRequest m) :
    ClientRun r.1.args.out r.1.args.client ∧ Kept cwd r.1.args.disk r.1.args.client :=
  (clientHandlers_preserves cwd rands memory rc).mainloop hread hrun
    (fun _ => ⟨ClientRun.start (d.contents cwd), kept_start hd⟩) hplain

/-- The program of a client in the root of an empty disk, whose user types a line. -/
private def typesLine (line : String) : Option (LoopState Talk × Bool) :=
  clientMain [] emptyDisk (fun _ _ => 0) (fun _ _ => Message.zero) (fun _ => 0) 3 Message.zero
    [.ready (onlyReady 1 { quiet with stdin := some (ascii line) })]

private theorem typesLine_sends :
    (typesLine "alice\n").map (fun r => r.1.args.out.map fun m => (m.msgType, cstr m.srcPseudo)) =
      some [(MSG_CONNECTION_CLIENT, some (ascii "alice"))] := by
  decide +kernel

/-- There is no directory for the code of this pseudo, and the program exits. -/
example : (typesLine "a/bcde\n").isNone = true := by decide +kernel

theorem clientMain_run_alice : ∃ polls r,
    clientMain [] emptyDisk (fun _ _ => 0) (fun _ _ => Message.zero) (fun _ => 0) 3 Message.zero polls = some r ∧
      r.1.args.out ≠ [] ∧ ClientRun r.1.args.out r.1.args.client ∧ Kept [] r.1.args.disk r.1.args.client := by
  obtain ⟨r, hr, hout⟩ := Option.map_eq_some_iff.1 typesLine_sends
  obtain ⟨m, hm, hrequest⟩ := List.map_eq_singleton_iff.1 hout
  refine ⟨_, r, hr, ?_, clientMain_run (emptyDisk_filesOnly _) ?_ hr ?_⟩
  · rw [hm]
    exact List.cons_ne_nil m []
  · intro ready hmem i bytes hbytes
    obtain rfl := PollAnswer.ready.inj (List.mem_singleton.1 hmem)
    rw [onlyReady] at hbytes
    split at hbytes
    · cases hbytes
      decide
    · cases hbytes
  · rw [hm]
    exact List.forall_mem_singleton.2 (plainRequest_of_cstr (Prod.mk.inj hrequest).2 (by decide))

end NyanChat
