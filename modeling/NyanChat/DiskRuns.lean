import NyanChat.Programs
import NyanChat.Restarts
import NyanChat.ServerDisk

/-!
# Runs on the disk

The server's program on a disk, from its start on, and started again and again on what it left there.  The main loop is
always in a state of a run (`serverMainOn_run`), and each run on the messages of one client is one of the main loop
(`run_serverMain`).  While the requests are for pseudos without a slash, and the directory of the codes holds files
only, the runs are those of the server with a file for each path (`DiskLives.lives`, `Run.onDisk`).  So the server has
exactly the histories of the registry (`server_registers`), and its history alone tells which connection request is
accepted (`admitted_iff`).
-/

namespace NyanChat

open Paths

/-- The server on the disk handles the message and comes back. -/
def DiskStep (cwd : Place) (e : Event) (w : DiskServer) (r : DiskHandled) : Prop :=
  ∃ fuel, onMsgReceivedOn zeroSyndromes fuel e.clock e.locals cwd e.sock e.msg w = some r

/-- What a server that is started in the place `cwd` on the disk `d` reaches, with its exchanges, the last one first. -/
inductive DiskRun (cwd : Place) (d : Disk) : List Exchange → DiskServer → Prop
  | start {w : DiskServer} : initServerStateOn cwd d = some w → DiskRun cwd d [] w
  | step {hist : List Exchange} {w : DiskServer} {e : Event} {r : DiskHandled} : DiskRun cwd d hist w →
      DiskStep cwd e w r → DiskRun cwd d ((e, r.sent) :: hist) r.server

/-- What a server reaches that is started again and again, with all exchanges and those since its last start, the last
one first. -/
inductive DiskLives (cwd : Place) (d : Disk) : List Exchange → List Exchange → DiskServer → Prop
  | start {w : DiskServer} : initServerStateOn cwd d = some w → DiskLives cwd d [] [] w
  | step {all life : List Exchange} {w : DiskServer} {e : Event} {r : DiskHandled} : DiskLives cwd d all life w →
      DiskStep cwd e w r → DiskLives cwd d ((e, r.sent) :: all) ((e, r.sent) :: life) r.server
  | restart {all life : List Exchange} {w w' : DiskServer} : DiskLives cwd d all life w →
      initServerStateOn cwd w.disk = some w' → DiskLives cwd d all [] w'

variable {cwd : Place} {d : Disk} {w : DiskServer} {s : ServerState} {hist all life : List Exchange} {p : Key}
  {codes : List UInt8 → Option (List UInt8)} {reg : Registry} {e : Event}

theorem DiskRun.lives (h : DiskRun cwd d hist w) : DiskLives cwd d hist hist w := by
  induction h with
  | start hw => exact .start hw
  | step _ hstep ih => exact ih.step hstep

theorem Lives.run (h : Lives codes all life s) : Run life s := by
  induction h with
  | start hs => exact .start hs
  | step _ hstep ih => exact ih.step hstep
  | restart _ hs _ => exact .start hs

/-! ### The program -/

private theorem server_listens : ConnectionType.server = .server ∨ ConnectionType.server = .proxyClientsSide :=
  Or.inl rfl

/-- `serverProgram` in the place `cwd` -/
def serverProgramOn (cwd : Place) (env : ℕ → Surroundings) : Program DiskServer where
  type := .server
  listens := server_listens
  onMsg k sock msg _ w :=
    (onMsgReceivedOn zeroSyndromes (env k).fuel (env k).clock (env k).locals cwd sock msg w).map fun r =>
      (r.msg, r.sent, r.server)

/-- The functions that `main` of `server.c` gives to its main loop. -/
def serverHandlersOn (cwd : Place) (env : ℕ → Surroundings) (rc : ℕ → Int) : Handlers (Progress DiskServer) :=
  { (serverProgramOn cwd env).handlers rc with
    onStdin := some fun msg _ p => (onStdinServer msg).map fun ended => (ended, p) }

/-- `main` of `server.c` in the place `cwd` on a disk, up to the end of its main loop. -/
def serverMainOn (cwd : Place) (d : Disk) (env : ℕ → Surroundings) (rc : ℕ → Int) (sockfd : Int) (msg : Message)
    (polls : List PollAnswer) : Option (LoopState (Progress DiskServer) × Bool) :=
  (initServerStateOn cwd d).bind fun w =>
    tcpConnectionMainloop (serverHandlersOn cwd env rc) polls
      ⟨tcpConnectionServerInit .server sockfd msg, ⟨w, 0, 0⟩, []⟩

/-- Whatever the system calls of the server's program answer, as long as it has not ended it is in a state of a run on
its disk, on the messages that its sockets received in this order. -/
theorem serverMainOn_run {env : ℕ → Surroundings} {rc : ℕ → Int} {sockfd : Int} {msg : Message}
    {polls : List PollAnswer} {r : LoopState (Progress DiskServer) × Bool}
    (hrun : serverMainOn cwd d env rc sockfd msg polls = some r) :
    ∃ hist, Records (DiskRun cwd d) r.1.args r.1.calls hist := by
  obtain ⟨w, hw, hrun⟩ := Option.bind_eq_some_iff.1 hrun
  have hkeeps : Preserves (serverHandlersOn cwd env rc) (fun _ => True)
      fun p calls => ∃ hist, Records (DiskRun cwd d) p calls hist := by
    refine @Program.records _ (serverProgramOn cwd env) (DiskRun cwd d) _ rc rfl ?_ ?_
    · intro f hf bytes len p r hrun
      cases hf
      obtain ⟨ended, -, rfl⟩ := Option.map_eq_some_iff.1 hrun
      rfl
    · intro k sock msg len w r hist hrun h
      obtain ⟨handled, hhandled, rfl⟩ := Option.map_eq_some_iff.1 hrun
      exact ⟨⟨(env k).clock, (env k).locals, sock, msg⟩, rfl, rfl, DiskRun.step h ⟨_, hhandled⟩⟩
  exact hkeeps.mainloop (fun _ _ _ _ _ => trivial) hrun ⟨[], .start hw, rfl, rfl, rfl⟩

/-- The sockets and messages of a history. -/
def messages (hist : List Exchange) : List (Int × Message) := hist.map fun x => (x.1.sock, x.1.msg)

theorem DiskRun.plays (h : DiskRun cwd d hist w) :
    ∃ env w₀, initServerStateOn cwd d = some w₀ ∧ (serverProgramOn cwd env).Plays w₀ (messages hist) w := by
  induction h with
  | start hw =>
    -- no call is made, so no surroundings are used
    exact ⟨zeroSurroundings, _, hw, .start⟩
  | @step hist w e r _ hstep ih =>
    obtain ⟨env, w₀, hw₀, hplays⟩ := ih
    obtain ⟨fuel, hr⟩ := hstep
    have hlength : (messages hist).length = hist.length := List.length_map _
    have hnext : (serverProgramOn cwd (Function.update env hist.length ⟨fuel, e.clock, e.locals⟩)).onMsg
        (messages hist).length e.sock e.msg Message.size w = some (r.msg, r.sent, r.server) := by
      simp only [serverProgramOn, hlength, Function.update_self, hr, Option.map_some]
    refine ⟨_, w₀, hw₀, .step (hplays.congr fun k hk => ?_) hnext⟩
    have hne : k ≠ hist.length := Nat.ne_of_lt (hlength ▸ hk)
    simp only [serverProgramOn, Function.update_of_ne hne]

/-- Every run of the server on the messages of one socket is one of the server's program on the same disk: its
connection, its polls and what its calls find can be chosen such that it ends where the run does. -/
theorem run_serverMain {sockfd : Int} {fd : ℕ} (h : DiskRun cwd d hist w) (hfd : 0 < fd) (hne : (fd : Int) ≠ sockfd)
    (hsock : ∀ x ∈ hist, x.1.sock = fd) (msg : Message) :
    ∃ env polls st, serverMainOn cwd d env (fun _ => 0) sockfd msg polls = some (st, false) ∧ st.args.state = w ∧
      handedOn st.calls = (messages hist).reverse := by
  obtain ⟨env, w₀, hw₀, hplays⟩ := h.plays
  have hon : (serverHandlersOn cwd env fun _ => 0).onMsg = ((serverProgramOn cwd env).handlers fun _ => 0).onMsg := rfl
  have hsock' : ∀ x ∈ messages hist, x.1 = fd := by
    intro x hx
    obtain ⟨y, hy, rfl⟩ := List.mem_map.1 hx
    exact hsock y hy
  obtain ⟨polls, con, p, calls, hloop, hstate, -, -, hhanded⟩ := hplays.mainloop hon hfd hne hsock' msg
  refine ⟨env, polls, ⟨con, p, calls⟩, ?_, hstate, hhanded⟩
  rw [serverMainOn, hw₀, Option.bind_some]
  exact hloop

private def handleOn (e : Event) (w : DiskServer) : Option DiskHandled :=
  onMsgReceivedOn zeroSyndromes 20 e.clock e.locals [] e.sock e.msg w

/-- A server that is started in the root handles two messages. -/
private def twoMessages (e e' : Event) : Option (DiskServer × DiskHandled × DiskHandled) := do
  let w ← initServerStateOn [] emptyDisk
  let r ← handleOn e w
  let r' ← handleOn e' r.server
  return (w, r, r')

/-- A path to the file of alice finds her code. -/
private theorem path_refused :
    (twoMessages (eventOn 5 (connectionRequest "alice" "secret" 2))
      (eventOn 5 (connectionRequest "./alice" "other" 3))).map
        (fun x => (x.2.1.sent ++ x.2.2.sent).map fun m => m.msg.msgType) = some [MSG_WELL_CONNECTED, MSG_ERROR] := by
  decide +kernel

/-- Alice is accepted, and then another client is refused whose pseudo is a path to her file. -/
theorem run_serverMain_alice : ∃ hist w env polls st, DiskRun [] emptyDisk hist w ∧
    ((hist.reverse.flatMap Prod.snd).map fun m => m.msg.msgType) = [MSG_WELL_CONNECTED, MSG_ERROR] ∧
    serverMainOn [] emptyDisk env (fun _ => 0) 3 Message.zero polls = some (st, false) ∧ st.args.state = w := by
  obtain ⟨⟨w, r, r'⟩, hplays, hsent⟩ := Option.map_eq_some_iff.1 path_refused
  simp only [twoMessages, Option.bind_eq_bind, Option.bind_eq_some_iff, Option.pure_def, Option.some.injEq,
    Prod.mk.injEq] at hplays
  obtain ⟨w, hw, r, hr, r', hr', rfl, rfl, rfl⟩ := hplays
  have hrun := ((DiskRun.start hw).step ⟨20, hr⟩).step ⟨20, hr'⟩
  obtain ⟨env, polls, st, hmain, hstate, -⟩ := run_serverMain hrun (by decide : 0 < 5)
    (by decide : ((5 : ℕ) : Int) ≠ 3) (fun x hx => by
      rcases List.mem_pair.1 hx with rfl | rfl <;> rfl) Message.zero
  refine ⟨_, r'.server, env, polls, st, hrun, ?_, hmain, hstate⟩
  simpa using hsent

/-! ### The start -/

private theorem path_folder : PATH_SRV_CODES = ascii "pseudo_code_server" ++ [SLASH] := by decide

private theorem initServerState_codes (codes : List UInt8 → Option (List UInt8)) :
    initServerState codes = (initServerState fun _ => none).map fun s => { s with codes := codes } := by
  rw [initServerState, initServerState, Option.map_map]
  rfl

/-- The directory with the codes is there after the start, and the files in it stay. -/
private theorem initServerStateOn_eq (hinit : initServerStateOn cwd d = some w) :
    (initServerState fun _ => none) = some w.state ∧ w.disk.node (codeDirectory cwd) = some .directory ∧
      ∀ p, w.disk.node (codeDirectory cwd ++ [p]) = d.node (codeDirectory cwd ++ [p]) := by
  obtain ⟨d', hd', hinit⟩ := Option.bind_eq_some_iff.1 hinit
  obtain ⟨s, hs, hw⟩ := Option.bind_eq_some_iff.1 hinit
  cases hw
  rw [path_folder] at hd'
  exact ⟨hs, makeCodes_eq isName_folder hd'⟩

theorem onDisk_start (hinit : initServerStateOn cwd d = some w) (hd : FilesOnly (codeDirectory cwd) d) :
    ∃ s, initServerState (d.contents cwd) = some s ∧ OnDisk cwd w s := by
  obtain ⟨hs, hdir, hentries⟩ := initServerStateOn_eq hinit
  refine ⟨{ w.state with codes := d.contents cwd }, ?_, rfl, rfl, hdir, fun p hp => ?_⟩
  · rw [initServerState_codes, hs]
    rfl
  · have hholds : d.node (codeDirectory cwd ++ [p]) = (d.contents cwd (pathKey p)).map .file := by
      rw [pathKey_eq]
      exact holds_contents isName_folder hd p hp
    exact (hentries p).trans hholds

/-- A server that is started again finds the files as they are. -/
theorem OnDisk.restart (h : OnDisk cwd w s) {w' : DiskServer} (hinit : initServerStateOn cwd w.disk = some w') :
    ∃ s', initServerState s.codes = some s' ∧ OnDisk cwd w' s' := by
  obtain ⟨hs, hdir, hentries⟩ := initServerStateOn_eq hinit
  refine ⟨{ w'.state with codes := s.codes }, ?_, rfl, rfl, hdir, fun p hp => ?_⟩
  · rw [initServerState_codes, hs]
    rfl
  · rw [hentries, h.files p hp]

/-! ### Steps -/

theorem OnDisk.step (h : OnDisk cwd w s) (hplain : PlainRequest e.msg) {r : DiskHandled} (hstep : DiskStep cwd e w r) :
    ∃ r', Step e s r' ∧ OnDisk cwd r.server r'.state ∧ r.sent = r'.sent := by
  obtain ⟨fuel, hr⟩ := hstep
  have hrel := h.answers hplain zeroSyndromes fuel e.clock e.locals e.sock
  rw [hr] at hrel
  cases hanswer : onMsgReceived zeroSyndromes fuel e.clock e.locals e.sock e.msg s with
  | none =>
    rw [hanswer] at hrel
    cases hrel
  | some r' =>
    rw [hanswer] at hrel
    cases hrel with
    | some hboth => exact ⟨r', ⟨fuel, hanswer⟩, hboth.1, hboth.2.1⟩

theorem OnDisk.step_back (h : OnDisk cwd w s) (hplain : PlainRequest e.msg) {r' : Handled} (hstep : Step e s r') :
    ∃ r, DiskStep cwd e w r ∧ OnDisk cwd r.server r'.state ∧ r.sent = r'.sent := by
  obtain ⟨fuel, hr⟩ := hstep
  have hrel := h.answers hplain zeroSyndromes fuel e.clock e.locals e.sock
  rw [hr] at hrel
  cases hanswer : onMsgReceivedOn zeroSyndromes fuel e.clock e.locals cwd e.sock e.msg w with
  | none =>
    rw [hanswer] at hrel
    cases hrel
  | some r =>
    rw [hanswer] at hrel
    cases hrel with
    | some hboth => exact ⟨r, ⟨fuel, hanswer⟩, hboth.1, hboth.2.1⟩

/-! ### Runs -/

/-- What a server on the disk reaches is what a server with a file for each path reaches. -/
theorem DiskLives.lives (h : DiskLives cwd d all life w) (hd : FilesOnly (codeDirectory cwd) d)
    (hplain : ∀ x ∈ all, PlainRequest x.1.msg) : ∃ s, Lives (d.contents cwd) all life s ∧ OnDisk cwd w s := by
  induction h with
  | start hinit =>
    obtain ⟨s, hs, hon⟩ := onDisk_start hinit hd
    exact ⟨s, .start hs, hon⟩
  | step _ hstep ih =>
    rw [List.forall_mem_cons] at hplain
    obtain ⟨s, hlives, hon⟩ := ih hplain.2
    obtain ⟨r', hstep', hon', hsent⟩ := hon.step hplain.1 hstep
    rw [hsent]
    exact ⟨r'.state, hlives.step hstep', hon'⟩
  | restart _ hinit ih =>
    obtain ⟨s, hlives, hon⟩ := ih hplain
    obtain ⟨s', hs', hon'⟩ := hon.restart hinit
    exact ⟨s', hlives.restart hs', hon'⟩

/-- A run of a server with a file for each path is one on a disk with these files. -/
theorem Run.onDisk (cwd : Place) (h : Run hist s) (hplain : ∀ x ∈ hist, PlainRequest x.1.msg) :
    ∃ d w, FilesOnly (codeDirectory cwd) d ∧ DiskRun cwd d hist w ∧ OnDisk cwd w s := by
  induction h with
  | @start codes s hs =>
    have hdir := Tree.ofFiles_directory (codeDirectory cwd) fun p => codes (pathKey p)
    have hentries := Tree.ofFiles_entry (codeDirectory cwd) fun p => codes (pathKey p)
    generalize Tree.ofFiles (codeDirectory cwd) (fun p => codes (pathKey p)) = d at hdir hentries
    have hstat : Disk.stat d cwd PATH_SRV_CODES = some .directory := by
      rw [path_folder, stat_folder cwd d isName_folder]
      exact if_pos (Tree.isDirectory_iff.2 hdir)
    obtain ⟨s₀, hs₀, rfl⟩ := Option.map_eq_some_iff.1 ((initServerState_codes codes).symm.trans hs)
    refine ⟨d, ⟨s₀, d⟩, fun p _ => ?_, .start ?_, rfl, rfl, hdir, fun p _ => hentries p⟩
    · rw [hentries]
      cases codes (pathKey p) <;> simp
    · simp only [initServerStateOn, Disk.makeCodes, hstat, hs₀, Option.bind_eq_bind, Option.bind_some, Option.pure_def]
  | step _ hstep ih =>
    rw [List.forall_mem_cons] at hplain
    obtain ⟨d, w, hd, hrun, hon⟩ := ih hplain.2
    obtain ⟨r, hstep', hon', hsent⟩ := hon.step_back hplain.1 hstep
    rw [← hsent]
    exact ⟨d, r.server, hd, hrun.step hstep', hon'⟩

/-- For pseudos without a slash, the server on a disk and the registry have the same histories. -/
theorem server_registers (cwd : Place) :
    (∀ d hist w, FilesOnly (codeDirectory cwd) d → (∀ x ∈ hist, PlainRequest x.1.msg) → DiskRun cwd d hist w →
        ∃ reg s, RegistryRun hist reg ∧ OnDisk cwd w s ∧ Represents s reg) ∧
      ∀ hist reg, (∀ x ∈ hist, PlainRequest x.1.msg) → RegistryRun hist reg →
        ∃ d w s, FilesOnly (codeDirectory cwd) d ∧ DiskRun cwd d hist w ∧ OnDisk cwd w s ∧ Represents s reg := by
  constructor
  · intro d hist w hd hplain hrun
    obtain ⟨s, hlives, hon⟩ := hrun.lives.lives hd hplain
    obtain ⟨reg, hreg, hrep⟩ := run_registryRun hlives.run
    exact ⟨reg, s, hreg, hon, hrep⟩
  · intro hist reg hplain hreg
    obtain ⟨s, hrun, hrep⟩ := registryRun_run hreg
    obtain ⟨d, w, hd, hdisk, hon⟩ := hrun.onDisk cwd hplain
    exact ⟨d, w, s, hd, hdisk, hon, hrep⟩

/-- For pseudos without a slash, a connection request is accepted exactly when it has the code that was kept, the
session of its pseudo is old or missing, and a new pseudo finds less than `NB_MAX_CONNECTED_CLIENTS` others since the
start. -/
theorem admitted_iff (h : DiskLives cwd d all life w) (hd : FilesOnly (codeDirectory cwd) d)
    (hplain : ∀ x ∈ all, PlainRequest x.1.msg) {r : DiskHandled} (hstep : DiskStep cwd e w r) (hreq : e.Requests p)
    (hslash : SLASH ∉ p) (hlong : MIN_NAME_LENGTH ≤ p.length) :
    accepted p (e, r.sent) = true ↔
      (∀ code, keptCode (d.contents cwd) all p = some code → strcmpEqual e.msg.msg.toList code = some true) ∧
        (∀ a, lastAccepted p life = some a → TIMEOUT_INACTIVE ≤ e.clock.check - a.clock.store) ∧
        (lastAccepted p life = none → (acceptedPseudos life).length < NB_MAX_CONNECTED_CLIENTS) := by
  obtain ⟨s, hlives, hon⟩ := h.lives hd hplain
  obtain ⟨r', hstep', -, hsent⟩ := hon.step (plainRequest_of_cstr hreq.2 hslash) hstep
  rw [hsent]
  exact hlives.admitted hstep' hreq hlong

/-! ### Alice connects again -/

/-- The server is started in the root, and again after the first of two messages. -/
private def twoLivesOn (e e' : Event) : Option (DiskServer × DiskHandled × DiskServer × DiskHandled) := do
  let w ← initServerStateOn [] emptyDisk
  let r ← handleOn e w
  let w' ← initServerStateOn [] r.server.disk
  let r' ← handleOn e' w'
  return (w, r, w', r')

private theorem alice_connects_again :
    (twoLivesOn (eventOn 5 (connectionRequest "alice" "secret" 2))
      (eventOn 6 (connectionRequest "alice" "secret" 3))).map
        (fun x => x.2.2.2.sent.map fun m => m.msg.msgType) = some [MSG_WELL_CONNECTED] := by
  decide +kernel

/-- Alice gets a session again in the second in which the server starts again. -/
theorem admitted_iff_alice : ∃ all w r, DiskLives [] emptyDisk all [] w ∧ all ≠ [] ∧
    DiskStep [] (eventOn 6 (connectionRequest "alice" "secret" 3)) w r ∧
    accepted (ascii "alice") (eventOn 6 (connectionRequest "alice" "secret" 3), r.sent) = true ∧
    ∀ code, keptCode (emptyDisk.contents []) all (ascii "alice") = some code →
      strcmpEqual (connectionRequest "alice" "secret" 3).msg.toList code = some true := by
  obtain ⟨⟨w, r, w', r'⟩, hlives, hsent⟩ := Option.map_eq_some_iff.1 alice_connects_again
  simp only [twoLivesOn, Option.bind_eq_bind, Option.bind_eq_some_iff, Option.pure_def, Option.some.injEq,
    Prod.mk.injEq] at hlives
  obtain ⟨w, hw, r, hr, w', hw', r', hr', rfl, rfl, rfl, rfl⟩ := hlives
  obtain ⟨m, hm, htype⟩ := List.map_eq_singleton_iff.1 hsent
  have hpseudo : ∀ proxySock, cstr (connectionRequest "alice" "secret" proxySock).srcPseudo = some (ascii "alice") :=
    fun _ => (by decide +kernel : cstr (connectionRequest "alice" "secret" 0).srcPseudo = some (ascii "alice"))
  have hreq : (eventOn 6 (connectionRequest "alice" "secret" 3)).Requests (ascii "alice") := ⟨rfl, hpseudo 3⟩
  have hslash : SLASH ∉ ascii "alice" := by decide
  have hlife : DiskLives [] emptyDisk [(eventOn 5 (connectionRequest "alice" "secret" 2), r.sent)] [] w' :=
    ((DiskLives.start hw).step ⟨20, hr⟩).restart hw'
  have hplain : ∀ x ∈ [(eventOn 5 (connectionRequest "alice" "secret" 2), r.sent)], PlainRequest x.1.msg :=
    List.forall_mem_singleton.2 (plainRequest_of_cstr (hpseudo 2) hslash)
  have hacc : accepted (ascii "alice") (eventOn 6 (connectionRequest "alice" "secret" 3), r'.sent) = true :=
    accepted_iff.2 ⟨hreq, m, by rw [hm]; exact List.mem_singleton_self m, htype⟩
  exact ⟨_, w', r', hlife, List.cons_ne_nil _ _, ⟨20, hr'⟩, hacc,
    ((admitted_iff hlife (emptyDisk_filesOnly _) hplain ⟨20, hr'⟩ hreq hslash (by decide)).1 hacc).1⟩

end NyanChat
