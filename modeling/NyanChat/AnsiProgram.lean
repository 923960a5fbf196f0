import NyanChat.AnsiDisk
import NyanChat.KeyDecoder

/-!
# The program in the terminal

The main loop of `client_ansi.c` reads keys from the raw terminal where that of the other programs reads lines, and
its functions draw the window at their ends.  As long as the program has not ended, whatever the system calls answer,
which bytes are typed in which time, how large the terminal is and what the disk holds, it is in a state of a run of the
client in the terminal, and what that run stored are messages that its socket received, in their order
(`ansiMain_run`).
-/

namespace NyanChat.Ansi

/-! ### The main loop on the raw terminal -/

/-- The buffer that is given to `on_stdin`. -/
def KeyBuffer.input (b : KeyBuffer) : Input := keyBytes b.first b.second b.third

/-- An answer of `poll` and what the calls after it find; a key is `none` when `read` gives no byte. -/
inductive RawAnswer
  | failed
  | ready (ready : ℕ → Ready) (key : ℕ → Option KeyStep)

variable {σ : Type}

/-- The turn `i` of the loop through the sockets, with `ansi_stdin`. -/
def rawDispatch (on : Handlers σ) (onKey : Input → ℕ → σ → Option (Bool × σ)) (ready : ℕ → Ready)
    (key : ℕ → Option KeyStep) (st : LoopState σ × Bool) (i : ℕ) : Option (LoopState σ × Bool) :=
  if st.2 = false ∧ (ready i).revents = POLLIN ∧ st.1.con.handling i = .stdin then
    match key i with
    | none => some (st.1, true)
    | some k =>
      (onKey k.event.input 1 st.1.args).map fun r =>
        ({ st.1 with con := { st.1.con with endConnection := st.1.con.endConnection || r.1 }, args := r.2 }, false)
  else dispatch on ready st i

def rawTurn (on : Handlers σ) (onKey : Input → ℕ → σ → Option (Bool × σ)) (ready : ℕ → Ready)
    (key : ℕ → Option KeyStep) (st : LoopState σ) : Option (LoopState σ) := do
  let (st', _) ← (List.range st.con.nbPollFds).foldlM (rawDispatch on onKey ready key) (⟨st.con, st.args, []⟩, false)
  let con ← compressIfNeeded st'.con st.con.nbPollFds
  return ⟨con, st'.args, st.calls ++ st'.calls⟩

/-- `tcp_connection_mainloop` with `ansi_stdin`. -/
def rawMainloop (on : Handlers σ) (onKey : Input → ℕ → σ → Option (Bool × σ)) :
    List RawAnswer → LoopState σ → Option (LoopState σ × Bool)
  | [], st => some (st, false)
  | .failed :: _, st => some (st, true)
  | .ready ready key :: polls, st =>
    (rawTurn on onKey ready key st).bind fun st =>
      if st.con.endConnection then some (st, true) else rawMainloop on onKey polls st

/-! ### The program -/

/-- What a call of the program finds: the results of `rand()`, the memory that `realloc` adds, the turns that its
loops may take, the terminal and the height of the logo. -/
structure AnsiSurroundings where
  rands : ℕ → ℕ
  memory : ℕ → Message
  fuel : ℕ
  screen : Screen
  logoHeight : Int

/-- The client after a redraw that comes back. -/
def redrawn (e : AnsiSurroundings) (p : PanelState) : Option PanelState :=
  (displayClient e.fuel e.screen e.logoHeight p).toOption.map Redrawn.panel

/-- `on_stdin_client` with its drawing, in the place `cwd`. -/
def onKeyDrawn (cwd : Place) (e : AnsiSurroundings) (buffer : Input) (bufLen : ℕ) (p : PanelState) (d : Disk) :
    Option ((PanelState × List Message × Bool) × Disk) :=
  (onStdinClientOn cwd e.rands e.memory d p.state buffer bufLen).bind fun r =>
    let p := { p with state := r.1.state }
    (if bufLen = 0 then some p else redrawn e p).map fun p => ((p, r.1.sent, r.1.endConnection), r.2)

/-- `on_msg_client` with its drawing. -/
def onMsgDrawn (e : AnsiSurroundings) (p : PanelState) (msg : Message) : Option (PanelState × List Message) :=
  (onMsgPanel e.fuel e.memory p msg).bind fun r =>
    let draws := p.state.client.waitingPseudoConfirmation ∧ msg.msgType = MSG_WELL_CONNECTED ∨ Stores p.state.client msg
    (if draws then redrawn e r.1 else some r.1).map fun p => (p, r.2)

/-- The state of the program, with the number of the calls of its functions, the messages it has sent and the disk. -/
structure AnsiTalk where
  panel : PanelState
  calls : ℕ
  out : List Message
  disk : Disk

/-- After a call, with the answers `rc` of `send`: whether one of its messages was not sent, and the next state. -/
def AnsiTalk.after (rc : ℕ → Int) (t : AnsiTalk) (p : PanelState) (sent : List Message) (d : Disk) : Bool × AnsiTalk :=
  (failedSend rc t.out.length sent.length, ⟨p, t.calls + 1, t.out ++ sent, d⟩)

def ansiOnMsg (cwd : Place) (env : ℕ → AnsiSurroundings) (rc : ℕ → Int) : Handlers AnsiTalk where
  onMsg _ msg _ t := (onMsgDrawn (env t.calls) t.panel msg).map fun r =>
    (msg, t.after rc r.1 r.2 (discard cwd t.disk (t.panel.state.client.discards msg)))
  onStdin := none

def ansiOnKey (cwd : Place) (env : ℕ → AnsiSurroundings) (rc : ℕ → Int) (buffer : Input) (bufLen : ℕ) (t : AnsiTalk) :
    Option (Bool × AnsiTalk) :=
  (onKeyDrawn cwd (env t.calls) buffer bufLen t.panel t.disk).map fun r =>
    let (failed, t) := t.after rc r.1.1 r.1.2.1 r.2
    (failed || r.1.2.2, t)

/-- `main` of `client_ansi.c` in the place `cwd` on a disk, up to the end of its main loop; the window is drawn before
it. -/
def ansiMain (cwd : Place) (d : Disk) (env : ℕ → AnsiSurroundings) (rc : ℕ → Int) (sockfd : Int) (msg : Message)
    (polls : List RawAnswer) : Option (LoopState AnsiTalk × Bool) :=
  (redrawn (env 0) (initPanel (d.contents cwd))).bind fun p =>
    rawMainloop (ansiOnMsg cwd env rc) (ansiOnKey cwd env rc) polls
      ⟨tcpConnectionClientInit .client sockfd msg, ⟨p, 1, [], d⟩, []⟩

/-! ### What the functions keep -/

/-- The functions of a program on the raw terminal keep `I`. -/
structure KeepsRaw (on : Handlers σ) (onKey : Input → ℕ → σ → Option (Bool × σ)) (I : σ → List Call → Prop) : Prop
    extends Preserves on (fun _ => True) I where
  onKey : ∀ buffer s calls r, onKey buffer 1 s = some r → I s calls → I r.2 calls

namespace KeepsRaw

variable {on : Handlers σ} {onKey : Input → ℕ → σ → Option (Bool × σ)} {I : σ → List Call → Prop}
  {ready : ℕ → Ready} {key : ℕ → Option KeyStep} {before : List Call}

theorem rawDispatch (hon : KeepsRaw on onKey I) {r r' : LoopState σ × Bool} {i : ℕ}
    (hrun : rawDispatch on onKey ready key r i = some r') (h : I r.1.args (before ++ r.1.calls)) :
    I r'.1.args (before ++ r'.1.calls) := by
  unfold Ansi.rawDispatch at hrun
  split at hrun
  · split at hrun
    · cases hrun
      exact h
    · obtain ⟨x, hx, rfl⟩ := Option.map_eq_some_iff.1 hrun
      exact hon.onKey _ _ _ x hx h
  · exact hon.toPreserves.dispatch (fun _ _ => trivial) hrun h

theorem rawTurn (hon : KeepsRaw on onKey I) {st st' : LoopState σ} (hrun : rawTurn on onKey ready key st = some st')
    (h : I st.args st.calls) : I st'.args st'.calls := by
  obtain ⟨r, hfold, hrun⟩ := Option.bind_eq_some_iff.1 hrun
  obtain ⟨con, -, hrun⟩ := Option.bind_eq_some_iff.1 hrun
  cases hrun
  refine Loop.foldlM_of_some (fun r : LoopState σ × Bool => I r.1.args (st.calls ++ r.1.calls))
    (fun i _ _ h hstep => hon.rawDispatch hstep h) _ ?_ hfold
  rwa [List.append_nil]

/-- What the functions of a program keep holds of it in its main loop. -/
theorem rawMainloop (hon : KeepsRaw on onKey I) {polls : List RawAnswer} {st : LoopState σ}
    {r : LoopState σ × Bool} (hrun : rawMainloop on onKey polls st = some r) (h : I st.args st.calls) :
    I r.1.args r.1.calls := by
  induction polls generalizing st with
  | nil =>
    cases hrun
    exact h
  | cons answer polls ih =>
    cases answer with
    | failed =>
      cases hrun
      exact h
    | ready ready key =>
      obtain ⟨st', hturn, hrun⟩ := Option.bind_eq_some_iff.1 hrun
      have h' := hon.rawTurn hturn h
      split at hrun
      · cases hrun
        exact h'
      · exact ih hrun h'

end KeepsRaw

/-! ### Runs of the program -/

variable {cwd : Place} {d d₀ d' : Disk} {env : ℕ → AnsiSurroundings} {rc : ℕ → Int} {lines : List (List UInt8)}
  {out heard : List Message} {p p' : PanelState} {e : AnsiSurroundings}

theorem TerminalRun.redrawn (h : TerminalRun cwd d₀ lines out heard p d) (hrun : redrawn e p = some p') :
    TerminalRun cwd d₀ lines out heard p' d := by
  obtain ⟨r, hr, rfl⟩ := Option.map_eq_some_iff.1 hrun
  exact h.redraw (Faults.toOption_eq_some.1 hr)

theorem TerminalRun.onKeyDrawn (h : TerminalRun cwd d₀ lines out heard p d) {buffer : Input} {bufLen : ℕ}
    {r : (PanelState × List Message × Bool) × Disk} (hrun : onKeyDrawn cwd e buffer bufLen p d = some r) :
    TerminalRun cwd d₀ (lines ++ (handed p.state buffer bufLen).toList) (out ++ r.1.2.1) heard r.1.1 r.2 := by
  obtain ⟨x, hx, hrun⟩ := Option.bind_eq_some_iff.1 hrun
  obtain ⟨p', hp', rfl⟩ := Option.map_eq_some_iff.1 hrun
  have hkey := h.key hx
  split at hp'
  · cases hp'
    exact hkey
  · exact hkey.redrawn hp'

theorem TerminalRun.onMsgDrawn (h : TerminalRun cwd d₀ lines out heard p d) {msg : Message}
    {r : PanelState × List Message} (hrun : onMsgDrawn e p msg = some r) :
    TerminalRun cwd d₀ lines (out ++ r.2) (heard ++ if Stores p.state.client msg then [msg] else []) r.1
      (discard cwd d (p.state.client.discards msg)) := by
  obtain ⟨x, hx, hrun⟩ := Option.bind_eq_some_iff.1 hrun
  obtain ⟨p', hp', rfl⟩ := Option.map_eq_some_iff.1 hrun
  have hmsg := h.message hx
  split at hp'
  · exact hmsg.redrawn hp'
  · cases hp'
    exact hmsg

/-- The program is in a state of a run whose stored messages came from its socket. -/
def InRun (cwd : Place) (d₀ : Disk) (t : AnsiTalk) (calls : List Call) : Prop :=
  ∃ lines heard, TerminalRun cwd d₀ lines t.out heard t.panel t.disk ∧
    heard.Sublist ((handedOn calls).map Prod.snd)

theorem keepsRaw_inRun (cwd : Place) (d₀ : Disk) (env : ℕ → AnsiSurroundings) (rc : ℕ → Int) :
    KeepsRaw (ansiOnMsg cwd env rc) (ansiOnKey cwd env rc) (InRun cwd d₀) := by
  constructor
  case onKey =>
    intro buffer t calls r hrun h
    obtain ⟨lines, heard, h, hsub⟩ := h
    obtain ⟨x, hx, rfl⟩ := Option.map_eq_some_iff.1 hrun
    exact ⟨_, heard, h.onKeyDrawn hx, hsub⟩
  case toPreserves =>
    constructor
    case other =>
      intro t calls c _ h
      obtain ⟨lines, heard, h, hsub⟩ := h
      refine ⟨lines, heard, h, ?_⟩
      rw [handedOn_append, List.map_append]
      exact hsub.trans (List.sublist_append_left _ _)
    case onMsg =>
      intro sock msg len t calls r hrun h
      obtain ⟨lines, heard, h, hsub⟩ := h
      obtain ⟨x, hx, rfl⟩ := Option.map_eq_some_iff.1 hrun
      refine ⟨lines, _, h.onMsgDrawn hx, ?_⟩
      rw [handedOn_append, List.map_append]
      refine hsub.append ?_
      split
      · exact List.Sublist.refl _
      · exact List.nil_sublist _
    case onStdin =>
      intro f hf
      cases hf

/-- Whatever the system calls of the program answer, as long as it has not ended it is in a state of a run of the client
in the terminal on its disk.  It has sent the messages of this run, and those that the run stored are some of the
messages that its socket received, in their order.  When its requests are for pseudos without a slash, and the directory
of the codes holds nothing but files, the run is one of the client in the terminal without the disk. -/
theorem ansiMain_run {sockfd : Int} {msg : Message} {polls : List RawAnswer} {r : LoopState AnsiTalk × Bool}
    (hrun : ansiMain cwd d env rc sockfd msg polls = some r) :
    ∃ lines heard, TerminalRun cwd d lines r.1.args.out heard r.1.args.panel r.1.args.disk ∧
      heard.Sublist ((handedOn r.1.calls).map Prod.snd) ∧
      (FilesOnly (clientDirectory cwd) d → (∀ m ∈ r.1.args.out, PlainRequest m) →
        AnsiRun (d.contents cwd) r.1.args.out heard r.1.args.panel) := by
  obtain ⟨p, hp, hrun⟩ := Option.bind_eq_some_iff.1 hrun
  have hstart : TerminalRun cwd d [] [] [] p d := TerminalRun.start.redrawn hp
  obtain ⟨lines, heard, h, hsub⟩ :=
    (keepsRaw_inRun cwd d env rc).rawMainloop hrun ⟨[], [], hstart, List.nil_sublist _⟩
  exact ⟨lines, heard, h, hsub, fun hd hplain => (h.kept hd hplain).2.1⟩

/-! ### Alice types her name -/

/-- A terminal that is large enough. -/
def largeTerminal : AnsiSurroundings where
  rands _ := 0
  memory _ := Message.zero
  fuel := 1
  screen := ⟨120, 60, LOGO_MAIN_TX⟩
  logoHeight := 13

/-- A byte is typed and nothing behind it. -/
private def typesByte (b : UInt8) : RawAnswer :=
  .ready (onlyReady 1 quiet) fun _ => some ⟨⟨false, false, false, 0, 0, ⟨0, 0, 0⟩⟩, b, []⟩

/-- The program in the root of an empty disk, whose user types a line. -/
private def typesKeys (line : String) : Option (LoopState AnsiTalk × Bool) :=
  ansiMain [] emptyDisk (fun _ => largeTerminal) (fun _ => 0) 3 Message.zero ((ascii line).map typesByte)

private theorem typesKeys_sends :
    (typesKeys "alice\r").map (fun r => r.1.args.out.map fun m => (m.msgType, cstr m.srcPseudo)) =
      some [(MSG_CONNECTION_CLIENT, some (ascii "alice"))] := by
  decide +kernel

/-- There is no directory for the code of this pseudo, and the program exits. -/
example : (typesKeys "a/bcde\r").isNone = true := by decide +kernel

theorem ansiMain_run_alice : ∃ polls r,
    ansiMain [] emptyDisk (fun _ => largeTerminal) (fun _ => 0) 3 Message.zero polls = some r ∧
      r.1.args.out ≠ [] ∧ ∃ heard, AnsiRun (emptyDisk.contents []) r.1.args.out heard r.1.args.panel := by
  obtain ⟨r, hr, hout⟩ := Option.map_eq_some_iff.1 typesKeys_sends
  obtain ⟨m, hm, hrequest⟩ := List.map_eq_singleton_iff.1 hout
  obtain ⟨lines, heard, -, -, hrun⟩ := ansiMain_run hr
  refine ⟨_, r, hr, ?_, heard, hrun (emptyDisk_filesOnly _) ?_⟩
  · rw [hm]
    exact List.cons_ne_nil m []
  · rw [hm]
    exact List.forall_mem_singleton.2 (plainRequest_of_cstr (Prod.mk.inj hrequest).2 (by decide))

end NyanChat.Ansi
