import NyanChat.AnsiRuns
import NyanChat.ClientDisk

/-!
# The client in the terminal, on the disk

The runs of the client in the terminal with its codes on a disk, and with the lines that its editor hands on.  As long
as the pseudos have no slash, and the directory of the codes holds nothing but files, the client does with these lines
what it does with them without the terminal, whatever is typed between them, received and drawn
(`terminalRun_lineRun`).
-/

namespace NyanChat.Ansi

open Paths

/-- The states that a client reaches on these lines, with the messages it sent. -/
inductive LineRun (codes : List UInt8 → Option (List UInt8)) :
    List (List UInt8) → List Message → ClientState → Prop
  | start : LineRun codes [] [] (initClientState codes)
  | typed {lines : List (List UInt8)} {out sent : List Message} {c c' : ClientState} {line : List UInt8}
      {rands : ℕ → ℕ} {memory : ℕ → Message} : LineRun codes lines out c → line.length < MAX_MSG_LENGTH →
      NyanChat.onStdinClient rands memory c (line ++ [0]) line.length = some (c', sent) →
      LineRun codes (lines ++ [line]) (out ++ sent) c'
  | received {lines : List (List UInt8)} {out sent : List Message} {c c' : ClientState} {msg : Message} :
      LineRun codes lines out c → NyanChat.onMsgClient c msg = some (c', sent) → LineRun codes lines (out ++ sent) c'

/-- The file that a key opens, when it hands on a line that is taken for a pseudo. -/
def AnsiState.opens (c : AnsiState) (buffer : Input) (bufLen : ℕ) : Option (List UInt8) :=
  (handed c buffer bufLen).bind fun _ => c.client.opens c.input.toList c.inputLength.toNat

/-- `on_stdin_client` of `client_ansi.c` in the place `cwd` -/
def onStdinClientOn (cwd : Place) (rands : ℕ → ℕ) (memory : ℕ → Message) (d : Disk) (c : AnsiState) (buffer : Input)
    (bufLen : ℕ) : Option (Pressed × Disk) :=
  withCode cwd rands d c.client.codes
    (fun codes => onStdinClient rands memory { c with client := { c.client with codes := codes } } buffer bufLen)
    (c.opens buffer bufLen)

/-- What the client in the terminal reaches in the place `cwd` on the disk `d₀`: the lines that its editor handed on,
the messages it sent and those it stored, its state and the disk. -/
inductive TerminalRun (cwd : Place) (d₀ : Disk) :
    List (List UInt8) → List Message → List Message → PanelState → Disk → Prop
  | start : TerminalRun cwd d₀ [] [] [] (initPanel (d₀.contents cwd)) d₀
  | key {lines : List (List UInt8)} {out heard : List Message} {p : PanelState} {d d' : Disk} {rands : ℕ → ℕ}
      {memory : ℕ → Message} {buffer : Input} {bufLen : ℕ} {r : Pressed} : TerminalRun cwd d₀ lines out heard p d →
      onStdinClientOn cwd rands memory d p.state buffer bufLen = some (r, d') →
      TerminalRun cwd d₀ (lines ++ (handed p.state buffer bufLen).toList) (out ++ r.sent) heard
        { p with state := r.state } d'
  | message {lines : List (List UInt8)} {out heard : List Message} {p : PanelState} {d : Disk} {fuel : ℕ}
      {memory : ℕ → Message} {msg : Message} {r : PanelState × List Message} : TerminalRun cwd d₀ lines out heard p d →
      onMsgPanel fuel memory p msg = some r →
      TerminalRun cwd d₀ lines (out ++ r.2) (heard ++ if Stores p.state.client msg then [msg] else []) r.1
        (discard cwd d (p.state.client.discards msg))
  | redraw {lines : List (List UInt8)} {out heard : List Message} {p : PanelState} {d : Disk} {fuel : ℕ} {s : Screen}
      {ty : Int} {r : Redrawn} : TerminalRun cwd d₀ lines out heard p d → displayClient fuel s ty p = .ok r →
      TerminalRun cwd d₀ lines out heard r.panel d

variable {cwd : Place} {d d₀ d' : Disk} {codes : List UInt8 → Option (List UInt8)} {lines : List (List UInt8)}
  {out heard : List Message} {c : AnsiState} {p : PanelState} {rands : ℕ → ℕ} {memory : ℕ → Message} {buffer : Input}
  {bufLen k n : ℕ} {r : Pressed}

theorem LineRun.clientRun {c : ClientState} (h : LineRun codes lines out c) : ClientRun out c := by
  induction h with
  | start => exact .start codes
  | typed _ hshort hrun ih => exact ih.typed (.input hshort) hrun
  | received _ hrun ih => exact ih.received hrun

/-- A key is one more line, or nothing. -/
theorem LineRun.key (h : LineRun codes lines out c.client) (hat : EditorAt c k n)
    (hrun : onStdinClient rands memory c buffer bufLen = some r) :
    LineRun codes (lines ++ (handed c buffer bufLen).toList) (out ++ r.sent) r.state.client := by
  cases hline : handed c buffer bufLen with
  | none =>
    obtain ⟨hclient, hsent⟩ := onStdinClient_edit hline hrun
    rw [hclient, hsent, Option.toList_none, List.append_nil, List.append_nil]
    exact h
  | some line =>
    obtain ⟨hshort, htyped⟩ := onStdinClient_line hat hline hrun
    exact h.typed hshort htyped

theorem LineRun.message (h : LineRun codes lines out p.state.client)
    (hslots : p.state.nbMsgsDefaultChannel ≤ p.state.msgsDefaultChannel.length) {fuel : ℕ} {msg : Message}
    {r : PanelState × List Message} (hrun : onMsgPanel fuel memory p msg = some r) :
    LineRun codes lines (out ++ r.2) r.1.state.client :=
  h.received (onMsgClient_spec hslots (onMsgPanel_run hrun)).1

/-- A call that only changes what comes of another one opens the same file. -/
theorem withCode_map {α β : Type} (f : α → β) (rands : ℕ → ℕ) (codes : List UInt8 → Option (List UInt8))
    (call : (List UInt8 → Option (List UInt8)) → Option α) (path : Option (List UInt8)) :
    withCode cwd rands d codes (fun codes => (call codes).map f) path =
      (withCode cwd rands d codes call path).map fun r => (f r.1, r.2) := by
  cases path with
  | none =>
    simp only [withCode, Option.map_map]
    rfl
  | some path =>
    simp only [withCode, Option.map_bind]
    congr 1
    funext d₁
    simp only [Function.comp_def]
    split
    · simp only [Option.map_bind, Option.map_map, Function.comp_def]
    · rfl
    · simp only [Option.map_map, Function.comp_def]

/-- A key, with the disk. -/
theorem Kept.key (h : Kept cwd d c.client) (hrun : onStdinClientOn cwd rands memory d c buffer bufLen = some (r, d'))
    (hplain : ∀ m ∈ r.sent, PlainRequest m) :
    onStdinClient rands memory c buffer bufLen = some r ∧ Kept cwd d' r.state.client := by
  unfold onStdinClientOn AnsiState.opens at hrun
  cases hline : handed c buffer bufLen with
  | none =>
    rw [hline] at hrun
    obtain ⟨r', hcall, heq⟩ := Option.map_eq_some_iff.1 hrun
    cases heq
    refine ⟨hcall, ?_⟩
    rw [(onStdinClient_edit hline hcall).1]
    exact h
  | some line =>
    have henter : ∀ codes,
        onStdinClient rands memory { c with client := { c.client with codes := codes } } buffer bufLen =
          (NyanChat.onStdinClient rands memory { c.client with codes := codes } c.input.toList
            c.inputLength.toNat).map
            fun r => ⟨AnsiState.clearInput { c with client := r.1 }, r.2, buffer[0] = CTRL_KEY_Q⟩ :=
      fun codes => onStdinClient_enter (c := { c with client := { c.client with codes := codes } }) hline
    rw [hline, Option.bind_some] at hrun
    simp only [henter] at hrun
    rw [withCode_map] at hrun
    obtain ⟨⟨⟨client, sent⟩, d₁⟩, hcall, heq⟩ := Option.map_eq_some_iff.1 hrun
    cases heq
    obtain ⟨hbase, hkept⟩ := h.typed hcall hplain
    exact ⟨by rw [henter c.client.codes, hbase]; rfl, hkept⟩

/-- What a run in the terminal is without the disk, as long as the pseudos have no slash. -/
theorem TerminalRun.kept (hd : FilesOnly (clientDirectory cwd) d₀) (h : TerminalRun cwd d₀ lines out heard p d)
    (hplain : ∀ m ∈ out, PlainRequest m) :
    LineRun (d₀.contents cwd) lines out p.state.client ∧ AnsiRun (d₀.contents cwd) out heard p ∧
      Kept cwd d p.state.client := by
  induction h with
  | start => exact ⟨.start, .start, kept_start hd⟩
  | key _ hrun ih =>
    obtain ⟨hline, hansi, hkept⟩ := ih fun m hm => hplain m (List.mem_append_left _ hm)
    obtain ⟨hcall, hkept'⟩ := Kept.key hkept hrun fun m hm => hplain m (List.mem_append_right _ hm)
    obtain ⟨k, n, hat⟩ := ansiRun_at hansi
    exact ⟨hline.key hat hcall, hansi.key hcall, hkept'⟩
  | message _ hrun ih =>
    obtain ⟨hline, hansi, hkept⟩ := ih fun m hm => hplain m (List.mem_append_left _ hm)
    have hslots := ansiRun_slots hansi
    exact ⟨hline.message hslots hrun, hansi.message hrun,
      hkept.received (onMsgClient_spec hslots (onMsgPanel_run hrun)).1⟩
  | redraw _ hrun ih =>
    obtain ⟨hline, hansi, hkept⟩ := ih hplain
    refine ⟨?_, hansi.redraw hrun, ?_⟩ <;> rw [displayClient_state hrun]
    · exact hline
    · exact hkept

/-- As long as the pseudos have no slash, every run of the client in the terminal is one of the client without it, on
the lines that its editor handed on: it sends the same messages, and its disk holds the same files.  A redraw changes
nothing of its state. -/
theorem terminalRun_lineRun (hd : FilesOnly (clientDirectory cwd) d₀) (h : TerminalRun cwd d₀ lines out heard p d)
    (hplain : ∀ m ∈ out, PlainRequest m) :
    LineRun (d₀.contents cwd) lines out p.state.client ∧ ClientRun out p.state.client ∧
      Kept cwd d p.state.client ∧ ∀ fuel s ty r, displayClient fuel s ty p = .ok r → r.panel.state = p.state := by
  obtain ⟨hline, -, hkept⟩ := h.kept hd hplain
  exact ⟨hline, hline.clientRun, hkept, fun _ _ _ _ hrun => displayClient_state hrun⟩

/-- What comes of keys in the root of the disk. -/
private def pressesOn : List Input → PanelState → Disk →
    Option (List (List UInt8) × List Message × PanelState × Disk)
  | [], p, d => some ([], [], p, d)
  | buffer :: keys, p, d => do
    let (r, d) ← onStdinClientOn [] (fun _ => 0) (fun _ => Message.zero) d p.state buffer 1
    let (lines, out, last) ← pressesOn keys { p with state := r.state } d
    return ((handed p.state buffer 1).toList ++ lines, r.sent ++ out, last)

private theorem TerminalRun.pressesOn {keys : List Input} {p' : PanelState} {lines' : List (List UInt8)}
    {out' : List Message} (h : TerminalRun [] d₀ lines out heard p d)
    (hpresses : pressesOn keys p d = some (lines', out', p', d')) :
    TerminalRun [] d₀ (lines ++ lines') (out ++ out') heard p' d' := by
  induction keys generalizing p d lines out lines' out' with
  | nil =>
    cases hpresses
    rw [List.append_nil, List.append_nil]
    exact h
  | cons buffer keys ih =>
    obtain ⟨⟨r, d₁⟩, hr, hpresses⟩ := Option.bind_eq_some_iff.1 hpresses
    obtain ⟨⟨lines₁, out₁, last⟩, hrest, hpresses⟩ := Option.bind_eq_some_iff.1 hpresses
    cases hpresses
    rw [← List.append_assoc, ← List.append_assoc]
    exact ih (h.key hr) hrest

private def aliceKeys : List Input := (ascii "alice").map character ++ [enterKey]

private theorem aliceKeys_pressed :
    (pressesOn aliceKeys (initPanel (emptyDisk.contents [])) emptyDisk).map
      (fun r => (r.1, r.2.1.map fun m => (m.msgType, cstr m.srcPseudo))) =
      some ([ascii "alice"], [(MSG_CONNECTION_CLIENT, some (ascii "alice"))]) := by
  decide +kernel

theorem terminalRun_lineRun_alice : ∃ out p d, TerminalRun [] emptyDisk [ascii "alice"] out [] p d ∧ out ≠ [] ∧
    LineRun (emptyDisk.contents []) [ascii "alice"] out p.state.client ∧ Kept [] d p.state.client := by
  obtain ⟨⟨lines, out, p, d⟩, hpresses, hsent⟩ := Option.map_eq_some_iff.1 aliceKeys_pressed
  obtain ⟨rfl, hout⟩ := Prod.mk.inj hsent
  obtain ⟨m, rfl, hrequest⟩ := List.map_eq_singleton_iff.1 hout
  have hplain : ∀ m' ∈ [m], PlainRequest m' :=
    List.forall_mem_singleton.2 (plainRequest_of_cstr (Prod.mk.inj hrequest).2 (by decide))
  have hrun := TerminalRun.start.pressesOn hpresses
  have hterminal := terminalRun_lineRun (emptyDisk_filesOnly _) hrun hplain
  exact ⟨[m], p, d, hrun, List.cons_ne_nil m [], hterminal.1, hterminal.2.2.1⟩

end NyanChat.Ansi
