import NyanChat.TcpConnection
import NyanChat.AsciiArt

/-!
# Standard input in line mode

The main loop hands every `read` of standard input to `on_stdin` as one text, and writes the NUL of the text over
the last byte of the read.  Over a whole stream the texts are its lines (`DeliversLines`) only when every read brings
one line with its newline (`lineModeTexts_delivers_iff`).
-/

namespace NyanChat

open Lines

/-- An `on_stdin` that records the texts it gets. -/
def recordTexts : Handlers (List (List UInt8)) where
  onMsg _ msg _ texts := some (msg, false, texts)
  onStdin := some fun buffer _ texts => (stringIn buffer).map fun text => (false, texts ++ [text])

/-- The texts that `on_stdin` gets when the reads of standard input bring these chunks. -/
def lineModeTexts (con : TcpConnection) (chunks : List (List UInt8)) : Option (List (List UInt8)) :=
  (chunks.foldlM (fun st bytes => readStdin recordTexts bytes st) ⟨con, [], []⟩).map LoopState.args

/-- The texts are the lines of the stream in their order; a line that does not fit into the buffer with its newline
may come in pieces. -/
def DeliversLines (stream : List UInt8) (texts : List (List UInt8)) : Prop :=
  ∃ pieces : List (List (List UInt8)), texts = pieces.flatten ∧
    List.Forall₂ (fun line parts => parts.flatten = line ∧ (line.length < MAX_MSG_LENGTH → parts = [line]))
      ((lines NEWLINE stream).map Prod.fst) pieces

/-- A line with its newline. -/
def IsLine (bytes : List UInt8) : Prop := ∃ line, bytes = line ++ [NEWLINE] ∧ NEWLINE ∉ line

variable {chunks : List (List UInt8)}

/-! ### The texts of a run -/

theorem readStdin_recordTexts {bytes : List UInt8} (hnul : 0 ∉ bytes) (st : LoopState (List (List UInt8))) :
    ∃ con, readStdin recordTexts bytes st = some ⟨con, st.args ++ [bytes.dropLast], st.calls⟩ := by
  have htext : stringIn (stdinBuffer bytes) = some bytes.dropLast :=
    stringIn_append (fun h => hnul (List.dropLast_subset bytes h)) []
  refine ⟨{ st.con with endConnection := st.con.endConnection || false }, ?_⟩
  simp only [readStdin, recordTexts, htext, Option.map_some]

/-- Without NUL bytes every text is its chunk without the last byte. -/
theorem lineModeTexts_eq (con : TcpConnection) (hnul : ∀ c ∈ chunks, 0 ∉ c) :
    lineModeTexts con chunks = some (chunks.map List.dropLast) := by
  have hrun : ∀ (cs : List (List UInt8)) (st : LoopState (List (List UInt8))), (∀ c ∈ cs, 0 ∉ c) →
      (cs.foldlM (fun st bytes => readStdin recordTexts bytes st) st).map LoopState.args =
        some (st.args ++ cs.map List.dropLast) := by
    intro cs
    induction cs with
    | nil => exact fun st _ => by simp
    | cons c cs ih =>
      intro st hcs
      obtain ⟨con, hread⟩ := readStdin_recordTexts (hcs c List.mem_cons_self) st
      rw [List.foldlM_cons, hread, Option.bind_eq_bind, Option.bind_some,
        ih _ fun d hd => hcs d (List.mem_cons_of_mem c hd)]
      simp
  exact hrun chunks ⟨con, [], []⟩ hnul

/-! ### What the texts must contain -/

/-- All the texts together are the stream without its newlines. -/
theorem DeliversLines.flatten_eq {stream : List UInt8} {texts : List (List UInt8)} (h : DeliversLines stream texts) :
    texts.flatten = stream.filter (· ≠ NEWLINE) := by
  obtain ⟨pieces, rfl, hpieces⟩ := h
  rw [← flatten_lines]
  generalize (lines NEWLINE stream).map Prod.fst = read at hpieces
  induction hpieces with
  | nil => rfl
  | cons hline _ ih => rw [List.flatten_cons, List.flatten_append, ih, List.flatten_cons, hline.1]

/-- Two ways to cut one list, the parts of the first never longer than those of the second, are the same. -/
private theorem cuts_eq {f g : List UInt8 → List UInt8} {cs : List (List UInt8)}
    (hle : ∀ c ∈ cs, (f c).length ≤ (g c).length) (h : (cs.map f).flatten = (cs.map g).flatten) :
    ∀ c ∈ cs, f c = g c := by
  have hlength : ∀ cs : List (List UInt8), (∀ c ∈ cs, (f c).length ≤ (g c).length) →
      (cs.map f).flatten.length ≤ (cs.map g).flatten.length := by
    intro cs hcs
    induction cs with
    | nil => exact Nat.le_refl 0
    | cons c cs ih =>
      have hfirst := hcs c List.mem_cons_self
      have hrest := ih fun d hd => hcs d (List.mem_cons_of_mem c hd)
      simp only [List.map_cons, List.flatten_cons, List.length_append]
      omega
  induction cs with
  | nil => exact fun c hc => nomatch hc
  | cons c cs ih =>
    have hfirst := hle c List.mem_cons_self
    have hrest : ∀ d ∈ cs, (f d).length ≤ (g d).length := fun d hd => hle d (List.mem_cons_of_mem c hd)
    have hbehind := hlength cs hrest
    rw [List.map_cons, List.flatten_cons, List.map_cons, List.flatten_cons] at h
    have hlen := congrArg List.length h
    rw [List.length_append, List.length_append] at hlen
    obtain ⟨hc, hcs⟩ := List.append_inj h (by omega)
    intro d hd
    rcases List.mem_cons.1 hd with rfl | hd
    · exact hc
    · exact ih hrest hcs d hd

/-- A chunk that loses nothing but newlines ends in its only newline. -/
private theorem isLine_of_dropLast {c : List UInt8} (hne : c ≠ []) (h : c.dropLast = c.filter (· ≠ NEWLINE)) :
    IsLine c := by
  have hnot : NEWLINE ∉ c.dropLast := by
    rw [h]
    simp
  refine ⟨c.dropLast, ?_, hnot⟩
  have hsplit := List.dropLast_append_getLast hne
  by_cases hlast : c.getLast hne = NEWLINE
  · rw [hlast] at hsplit
    exact hsplit.symm
  · -- a last byte that is no newline would be kept
    have hlen := congrArg List.length h
    rw [← hsplit, List.filter_append, List.dropLast_concat, List.filter_cons_of_pos (by simpa using hlast),
      List.length_append, filter_of_not_mem hnot] at hlen
    simp at hlen

theorem length_dropLast_le_filter {c : List UInt8} (hnot : NEWLINE ∉ c.dropLast) :
    c.dropLast.length ≤ (c.filter (· ≠ NEWLINE)).length := by
  have hsub := (List.dropLast_sublist c).filter (· ≠ NEWLINE)
  rw [filter_of_not_mem hnot] at hsub
  exact hsub.length_le

/-- When the texts are the lines of the stream, every read brought one line with its newline. -/
theorem DeliversLines.isLine (hne : ∀ c ∈ chunks, c ≠ [])
    (h : DeliversLines chunks.flatten (chunks.map List.dropLast)) : ∀ c ∈ chunks, IsLine c := by
  have hflat := h.flatten_eq
  rw [List.filter_flatten] at hflat
  have hnot : ∀ c ∈ chunks, NEWLINE ∉ c.dropLast := by
    intro c hc hmem
    have hall : NEWLINE ∈ (chunks.map List.dropLast).flatten :=
      List.mem_flatten.2 ⟨_, List.mem_map_of_mem hc, hmem⟩
    rw [hflat, ← List.filter_flatten] at hall
    simp at hall
  intro c hc
  exact isLine_of_dropLast (hne c hc) (cuts_eq (fun d hd => length_dropLast_le_filter (hnot d hd)) hflat c hc)

/-! ### Reads of one line each -/

theorem lines_of_isLine (h : ∀ c ∈ chunks, IsLine c) :
    (lines NEWLINE chunks.flatten).map Prod.fst = chunks.map List.dropLast := by
  induction chunks with
  | nil => rfl
  | cons c chunks ih =>
    obtain ⟨line, rfl, hnot⟩ := h c List.mem_cons_self
    rw [List.flatten_cons, List.append_assoc, List.singleton_append, lines_append_sep hnot, List.map_cons,
      ih fun d hd => h d (List.mem_cons_of_mem _ hd), List.map_cons, List.dropLast_concat]

theorem delivers_of_isLine (h : ∀ c ∈ chunks, IsLine c) :
    DeliversLines chunks.flatten (chunks.map List.dropLast) := by
  refine ⟨(chunks.map List.dropLast).map fun line => [line], ?_, ?_⟩
  · exact (List.flatMap_singleton' _).symm
  · rw [lines_of_isLine h, List.forall₂_map_right_iff, List.forall₂_same]
    exact fun line _ => ⟨List.flatten_singleton, fun _ => rfl⟩

/-- For every stream without NUL bytes and every way to cut it into reads, the texts are the lines of the stream
exactly when every read brings one line with its newline. -/
theorem lineModeTexts_delivers_iff (con : TcpConnection)
    (hsize : ∀ c ∈ chunks, 1 ≤ c.length ∧ c.length ≤ MAX_MSG_LENGTH) (hnul : 0 ∉ chunks.flatten) :
    (∃ texts, lineModeTexts con chunks = some texts ∧ DeliversLines chunks.flatten texts) ↔
      ∀ c ∈ chunks, IsLine c := by
  have hnul' : ∀ c ∈ chunks, 0 ∉ c := fun c hc h0 => hnul (List.mem_flatten.2 ⟨c, hc, h0⟩)
  rw [lineModeTexts_eq con hnul']
  constructor
  · rintro ⟨texts, htexts, hdelivers⟩
    cases htexts
    exact hdelivers.isLine fun c hc => List.ne_nil_of_length_pos (hsize c hc).1
  · exact fun h => ⟨_, rfl, delivers_of_isLine h⟩

private def clientOnThree : TcpConnection :=
  { tcpConnectionServerInit .server 3 Message.zero with typeConnection := .client }

/-- The two lines `a` and `b`, each in a read of its own. -/
theorem lineModeTexts_delivers_two :
    ∃ texts, lineModeTexts clientOnThree [[97, 10], [98, 10]] = some texts ∧ DeliversLines [97, 10, 98, 10] texts := by
  refine (@lineModeTexts_delivers_iff [[97, 10], [98, 10]] clientOnThree (by decide) (by decide)).2 ?_
  rw [List.forall_mem_cons, List.forall_mem_singleton]
  exact ⟨⟨[97], rfl, by decide⟩, ⟨[98], rfl, by decide⟩⟩

/-- A last line without a newline loses its last byte, and two lines in one read are one text. -/
theorem lineModeTexts_loses :
    lineModeTexts clientOnThree [[97, 98]] = some [[97]] ∧ ¬ DeliversLines [97, 98] [[97]] ∧
      lineModeTexts clientOnThree [[97, 10, 98, 10]] = some [[97, 10, 98]] ∧
      ¬ DeliversLines [97, 10, 98, 10] [[97, 10, 98]] := by
  refine ⟨by decide, fun h => ?_, by decide, fun h => ?_⟩
  · exact absurd h.flatten_eq (by decide)
  · exact absurd h.flatten_eq (by decide)

end NyanChat
