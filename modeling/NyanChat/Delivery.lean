import NyanChat.Conversation
import NyanChat.Library.Fifo

/-!
# The delivery of texts

When no message waits for ever in its channel, each text that starts with the number `0` of retransmissions is rejected
at most six times and then accepted once, whatever the outcomes of the correction are (`text_delivered`).  It is
broadcast once, and its slot is free when the client has read that it is accepted.
-/

namespace NyanChat

/-- A text that was rejected at most six times so far, and sent again the same each time. -/
structure TextRecord.Underway (t : TextRecord) : Prop where
  answers : ∃ n ≤ 6, t.answers = List.replicate n MSG_ACK_NEG
  same : ∀ m ∈ t.again, ∃ nb, m = { t.first with nbRetransmission := nb }
  broadcasts : t.broadcasts.length ≤ 1

/-- A text that was rejected at most six times and then accepted, and broadcast once. -/
structure TextRecord.Delivered (t : TextRecord) : Prop where
  answers : ∃ n ≤ 6, t.answers = List.replicate n MSG_ACK_NEG ++ [MSG_ACK_POS]
  same : ∀ m ∈ t.again, ∃ nb, m = { t.first with nbRetransmission := nb }
  broadcasts : ∃ copies, t.broadcasts = [copies]

namespace Conversation

variable {d d' : Conversation} {k i n : ℕ} {m msg : Message} {run : ℕ → Conversation}

/-! ### What a step does to the channels and the records -/

theorem Next.up (h : d.Next d') : (∃ new, d'.up = d.up ++ new) ∨ ∃ x, d.up = x :: d'.up := by
  cases h with
  | @typed _ _ _ _ c sent _ _ _ =>
    cases sent with
    | nil => exact Or.inl ⟨[], (List.append_nil _).symm⟩
    | cons m sent => exact Or.inl ⟨_, rfl⟩
  | @received tag msg rest c sent _ _ =>
    cases tag <;> cases sent with
    | nil => exact Or.inl ⟨[], (List.append_nil _).symm⟩
    | cons m sent => exact Or.inl ⟨_, rfl⟩
  | served _ hup _ => exact Or.inr ⟨_, hup⟩
  | others => exact Or.inl ⟨[], (List.append_nil _).symm⟩

private theorem starts_down (d : Conversation) (id : ℕ) (sent : List Message) : (d.starts id sent).down = d.down := by
  cases sent <;> rfl

private theorem repeats_down (d : Conversation) (sent : List Message) : (d.repeats sent).down = d.down := by
  cases sent <;> rfl

private theorem answered_down (d : Conversation) (msg : Message) (tag : Option ℕ) :
    (d.answered msg tag).down = d.down := by
  cases tag <;> rfl

theorem Next.down (h : d.Next d') : (∃ new, d'.down = d.down ++ new) ∨ ∃ x, d.down = x :: d'.down := by
  cases h with
  | typed => exact Or.inl ⟨[], by rw [starts_down, List.append_nil]⟩
  | received hdown _ => exact Or.inr ⟨_, by rw [repeats_down, answered_down]; exact hdown⟩
  | served => exact Or.inl ⟨_, rfl⟩
  | others => exact Or.inl ⟨_, rfl⟩

theorem up_of_turn (h : d.Next d' ∨ d' = d) : (∃ new, d'.up = d.up ++ new) ∨ ∃ x, d.up = x :: d'.up := by
  rcases h with hnext | rfl
  · exact hnext.up
  · exact Or.inl ⟨[], (List.append_nil _).symm⟩

theorem down_of_turn (h : d.Next d' ∨ d' = d) : (∃ new, d'.down = d.down ++ new) ∨ ∃ x, d.down = x :: d'.down := by
  rcases h with hnext | rfl
  · exact hnext.down
  · exact Or.inl ⟨[], (List.append_nil _).symm⟩

/-- The step that takes a message from the channel to the client. -/
theorem Next.receives (h : d.Next d') {tag : Option ℕ} (hdown : d.down = (tag, msg) :: d'.down) :
    ∃ c sent, onMsgClient d.client msg = some (c, sent) ∧
      d' = (answered { d with client := c, down := d'.down } msg tag).repeats sent := by
  have hlonger : ∀ new, d'.down ≠ d.down ++ new := by
    intro new hnew
    have hlen := congrArg List.length (hnew.trans (congrArg (· ++ new) hdown))
    simp only [List.length_append, List.length_cons] at hlen
    omega
  cases h with
  | typed => exact absurd (by rw [starts_down, List.append_nil]) (hlonger [])
  | @received tag' msg' rest c sent hdown' hrun =>
    rw [repeats_down, answered_down] at hdown ⊢
    obtain ⟨heq, -⟩ := List.cons.inj (hdown'.symm.trans hdown)
    obtain ⟨rfl, rfl⟩ := Prod.mk.inj heq
    exact ⟨c, sent, hrun, rfl⟩
  | served => exact absurd rfl (hlonger _)
  | others => exact absurd rfl (hlonger _)

/-- What a step leaves of the record of a text: only the message that it reads is added to its answers. -/
structure Kept (d d' : Conversation) (k : ℕ) : Prop where
  lt : k < d'.count
  first : (d'.text k).first = (d.text k).first
  answers : (d'.text k).answers = (d.text k).answers ∨
    ∃ msg, d.down = (some k, msg) :: d'.down ∧ (d'.text k).answers = (d.text k).answers ++ [msg.msgType]

/-- A field that the new record of one text keeps. -/
private theorem update_field {β : Type*} (g : TextRecord → β) (text : ℕ → TextRecord) {j : ℕ} {t : TextRecord}
    (h : g t = g (text j)) (k : ℕ) : g (Function.update text j t k) = g (text k) := by
  rcases eq_or_ne k j with rfl | hne
  · rw [Function.update_self]
    exact h
  · rw [Function.update_of_ne hne]

private theorem repeats_kept (d : Conversation) (sent : List Message) (k : ℕ) :
    (d.repeats sent).count = d.count ∧ ((d.repeats sent).text k).first = (d.text k).first ∧
      ((d.repeats sent).text k).answers = (d.text k).answers := by
  cases sent with
  | nil => exact ⟨rfl, rfl, rfl⟩
  | cons m sent =>
    exact ⟨rfl, update_field TextRecord.first d.text (by rfl) k, update_field TextRecord.answers d.text (by rfl) k⟩

private theorem answered_kept (d : Conversation) (msg : Message) (tag : Option ℕ) (k : ℕ) :
    (d.answered msg tag).count = d.count ∧ ((d.answered msg tag).text k).first = (d.text k).first ∧
      ((d.answered msg tag).text k).answers =
        if tag = some k then (d.text k).answers ++ [msg.msgType] else (d.text k).answers := by
  cases tag with
  | none => exact ⟨rfl, rfl, rfl⟩
  | some j =>
    refine ⟨rfl, update_field TextRecord.first d.text (by rfl) k, ?_⟩
    dsimp only [answered]
    rcases eq_or_ne j k with rfl | hne
    · rw [Function.update_self, if_pos rfl]
    · rw [Function.update_of_ne hne.symm, if_neg fun heq => hne (Option.some.inj heq)]

theorem Next.kept (h : d.Next d') (hk : k < d.count) : Kept d d' k := by
  cases h with
  | @typed _ memory _ _ c sent _ _ _ =>
    cases sent with
    | nil => exact ⟨hk, rfl, Or.inl rfl⟩
    | cons m sent =>
      have hsame : (starts { d with client := c } (sentSlot memory d.client) (m :: sent)).text k = d.text k :=
        Function.update_of_ne (Nat.ne_of_lt hk) ..
      exact ⟨Nat.lt_succ_of_lt hk, by rw [hsame], Or.inl (by rw [hsame])⟩
  | @received tag msg rest c sent hdown _ =>
    obtain ⟨hcount, hfirst, hanswers⟩ := repeats_kept (answered { d with client := c, down := rest } msg tag) sent k
    obtain ⟨hcount', hfirst', hanswers'⟩ := answered_kept { d with client := c, down := rest } msg tag k
    refine ⟨by rw [hcount, hcount']; exact hk, hfirst.trans hfirst', ?_⟩
    rw [hanswers, hanswers', repeats_down, answered_down]
    split
    · rename_i htag
      rw [htag] at hdown
      exact Or.inr ⟨msg, hdown, rfl⟩
    · exact Or.inl rfl
  | served =>
    exact ⟨hk, update_field TextRecord.first d.text (by rfl) k,
      Or.inl (update_field TextRecord.answers d.text (by rfl) k)⟩
  | others => exact ⟨hk, rfl, Or.inl rfl⟩

/-- A text just typed has no answers. -/
theorem Next.typed_answers (h : d.Next d') (hk : ¬ k < d.count) (hk' : k < d'.count) : (d'.text k).answers = [] := by
  cases h with
  | @typed _ memory _ _ c sent _ _ _ =>
    cases sent with
    | nil => exact absurd hk' hk
    | cons m sent =>
      obtain rfl : k = d.count := by
        have hlt : k < d.count + 1 := hk'
        omega
      have hnew : (starts { d with client := c } (sentSlot memory d.client) (m :: sent)).text d.count =
        ⟨m, [], [], []⟩ := Function.update_self ..
      rw [hnew]
  | @received tag msg rest c sent _ _ =>
    rw [(repeats_kept (answered { d with client := c, down := rest } msg tag) sent k).1,
      (answered_kept { d with client := c, down := rest } msg tag k).1] at hk'
    exact absurd hk' hk
  | served => exact absurd hk' hk
  | others => exact absurd hk' hk

/-! ### Executions -/

theorem begins_count (h : Begins d) : d.count = 0 := by
  cases h
  rfl

/-- The states over time.  No message waits for ever in its channel. -/
structure Execution (run : ℕ → Conversation) : Prop where
  begins : Begins (run 0)
  step : ∀ n, (run n).Next (run (n + 1)) ∨ run (n + 1) = run n
  up : ∀ n, (run n).up ≠ [] → ∃ j, n ≤ j ∧ ∃ x, Fifo.Takes (fun n => (run n).up) j x
  down : ∀ n, (run n).down ≠ [] → ∃ j, n ≤ j ∧ ∃ x, Fifo.Takes (fun n => (run n).down) j x

namespace Execution

theorem orderly (h : Execution run) (n : ℕ) : (run n).Orderly := by
  induction n with
  | zero => exact begins_orderly h.begins
  | succ n ih =>
    rcases h.step n with hnext | hsame
    · exact ih.next hnext
    · rw [hsame]
      exact ih

theorem up_fair (h : Execution run) : Fifo.Fair fun n => (run n).up := ⟨fun n => up_of_turn (h.step n), h.up⟩

theorem down_fair (h : Execution run) : Fifo.Fair fun n => (run n).down := ⟨fun n => down_of_turn (h.step n), h.down⟩

/-- A turn that takes a message from a channel is a step. -/
theorem next_of_takes (h : Execution run) {α : Type*} {channel : Conversation → List α} {x : α}
    (htakes : Fifo.Takes (fun n => channel (run n)) n x) : (run n).Next (run (n + 1)) := by
  rcases h.step n with hnext | hsame
  · exact hnext
  · rw [Fifo.Takes, hsame] at htakes
    exact absurd htakes.symm (List.cons_ne_self x _)

/-- The record of a text over time. -/
theorem later (h : Execution run) (hk : k < (run n).count) {j : ℕ} (hj : n ≤ j) :
    k < (run j).count ∧ ((run j).text k).first = ((run n).text k).first ∧
      ∃ new, ((run j).text k).answers = ((run n).text k).answers ++ new := by
  induction j, hj using Nat.le_induction with
  | base => exact ⟨hk, rfl, [], (List.append_nil _).symm⟩
  | succ j hj ih =>
    obtain ⟨hlt, hfirst, new, hnew⟩ := ih
    rcases h.step j with hnext | hsame
    · obtain ⟨hlt', hfirst', hanswers⟩ := hnext.kept hlt
      refine ⟨hlt', hfirst'.trans hfirst, ?_⟩
      rcases hanswers with hsame | ⟨msg, -, hmore⟩
      · exact ⟨new, hsame.trans hnew⟩
      · exact ⟨new ++ [msg.msgType], by rw [hmore, hnew, List.append_assoc]⟩
    · rw [hsame]
      exact ⟨hlt, hfirst, new, hnew⟩

/-- Either the answers grew, or they are the same. -/
theorem answers_cases (h : Execution run) (hk : k < (run n).count) {j : ℕ} (hj : n ≤ j) :
    ((run n).text k).answers.length < ((run j).text k).answers.length ∨
      ((run j).text k).answers = ((run n).text k).answers := by
  obtain ⟨-, -, new, hnew⟩ := h.later hk hj
  cases new with
  | nil => exact Or.inr (by rw [hnew, List.append_nil])
  | cons a new =>
    refine Or.inl ?_
    rw [hnew, List.length_append, List.length_cons]
    omega

end Execution

/-! ### Progress -/

/-- The text was accepted, and the client knows it. -/
def Settled (d : Conversation) (k : ℕ) : Prop := MSG_ACK_POS ∈ (d.text k).answers

private theorem pos_not_mem (n : ℕ) : MSG_ACK_POS ∉ List.replicate n MSG_ACK_NEG := by
  intro hmem
  have := List.eq_of_mem_replicate hmem
  revert this
  decide

theorem settled_of_answers (h : (d.text k).answers = List.replicate n MSG_ACK_NEG ++ [MSG_ACK_POS]) : d.Settled k := by
  rw [Settled, h]
  exact List.mem_append_right _ (List.mem_singleton_self _)

/-- A text that is not settled is on its way, in one direction. -/
theorem Stage.onWay (h : Stage d k) (hopen : ¬ d.Settled k) :
    (∃ m, d.ups k = [m] ∧ d.downs k = []) ∨ ∃ ack, d.ups k = [] ∧ d.downs k = [ack] := by
  cases h with
  | sent _ _ _ _ hu hd => exact Or.inl ⟨_, hu, hd⟩
  | rejected _ _ _ _ hu hd => exact Or.inr ⟨_, hu, hd⟩
  | accepted _ _ _ hu hd => exact Or.inr ⟨_, hu, hd⟩
  | done _ _ _ hans => exact absurd (settled_of_answers hans) hopen

theorem mem_up_of_ups (h : d.ups k = [m]) : (k, m) ∈ d.up := by
  have hm : m ∈ d.ups k := h ▸ List.mem_singleton_self m
  obtain ⟨⟨j, m'⟩, hx, rfl⟩ := List.mem_map.1 hm
  rw [List.mem_filter, decide_eq_true_iff] at hx
  obtain ⟨hmem, rfl⟩ := hx
  exact hmem

theorem mem_down_of_downs (h : d.downs k = [m]) : (some k, m) ∈ d.down := by
  have hm : m ∈ d.downs k := h ▸ List.mem_singleton_self m
  obtain ⟨⟨tag, m'⟩, hx, rfl⟩ := List.mem_map.1 hm
  rw [List.mem_filter, decide_eq_true_iff] at hx
  obtain ⟨hmem, rfl⟩ := hx
  exact hmem

namespace Execution

/-- An acknowledgment on its way is read. -/
theorem grows_of_down (h : Execution run) (hk : k < (run n).count) (hd : (run n).downs k = [m]) :
    ∃ j, n ≤ j ∧ ((run n).text k).answers.length < ((run j).text k).answers.length := by
  obtain ⟨j, hj, htakes⟩ := Fifo.taken h.down_fair (mem_down_of_downs hd)
  refine ⟨j + 1, by omega, ?_⟩
  obtain ⟨c, sent, -, hstep⟩ := (h.next_of_takes htakes).receives htakes
  have hanswers : ((run (j + 1)).text k).answers = ((run j).text k).answers ++ [m.msgType] := by
    rw [hstep, (repeats_kept _ sent k).2.2, (answered_kept _ m (some k) k).2.2, if_pos rfl]
  rcases h.answers_cases hk hj with hlt | hsame
  · rw [hanswers, List.length_append]
    omega
  · rw [hanswers, hsame, List.length_append, List.length_singleton]
    exact Nat.lt_succ_self _

/-- A text that is not settled gets another answer. -/
theorem grows (h : Execution run) (hk : k < (run n).count) (hopen : ¬ (run n).Settled k) :
    ∃ j, n ≤ j ∧ ((run n).text k).answers.length < ((run j).text k).answers.length := by
  rcases ((h.orderly n).stage k hk).onWay hopen with ⟨m, hu, -⟩ | ⟨ack, -, hd⟩
  · obtain ⟨j, hj, htakes⟩ := Fifo.taken h.up_fair (mem_up_of_ups hu)
    rcases h.answers_cases hk hj with hlt | hsame
    · exact ⟨j, hj, hlt⟩
    rcases h.answers_cases hk (show n ≤ j + 1 by omega) with hlt | hsame'
    · exact ⟨j + 1, by omega, hlt⟩
    have hopen' : ∀ {i}, ((run i).text k).answers = ((run n).text k).answers → ¬ (run i).Settled k := by
      intro i hi
      rw [Conversation.Settled, hi]
      exact hopen
    have hups : (run j).ups k = m :: (run (j + 1)).ups k := ups_cons htakes rfl
    have hk' := (h.later hk hj).1
    have hk'' := (h.later hk (show n ≤ j + 1 by omega)).1
    -- the server has handled the only message, and its answer is on the way
    have hnil : (run (j + 1)).ups k = [] := by
      rcases ((h.orderly j).stage k hk').onWay (hopen' hsame) with ⟨m', hu', -⟩ | ⟨ack, hu', -⟩
      · exact (List.cons.inj (hups.symm.trans hu')).2
      · exact absurd (hups.symm.trans hu') (List.cons_ne_nil _ _)
    rcases ((h.orderly (j + 1)).stage k hk'').onWay (hopen' hsame') with ⟨m', hu', -⟩ | ⟨ack, -, hd⟩
    · exact absurd (hu'.symm.trans hnil) (List.cons_ne_nil _ _)
    · obtain ⟨i, hi, hlt⟩ := h.grows_of_down hk'' hd
      rw [hsame'] at hlt
      exact ⟨i, by omega, hlt⟩
  · exact h.grows_of_down hk hd

end Execution

/-! ### Delivery -/

/-- The slot that the text was written into is free. -/
def SlotFree (d : Conversation) (k : ℕ) : Prop :=
  ∃ slot, d.client.msgWaitingAck[(d.text k).first.msgId.toNatClampNeg]? = some slot ∧ slot.msgType = MSG_NULL

theorem Stage.underway (h : Stage d k) (hzero : (d.text k).first.nbRetransmission = 0) (hopen : ¬ d.Settled k) :
    (d.text k).Underway := by
  cases h with
  | sent _ htried _ _ _ _ hans hbroad => exact ⟨⟨_, htried.limit hzero, hans⟩, htried.same, by rw [hbroad]; simp⟩
  | rejected _ htried _ _ _ _ _ _ hans hbroad =>
    exact ⟨⟨_, htried.limit hzero, hans⟩, htried.same, by rw [hbroad]; simp⟩
  | accepted _ htried _ _ _ _ _ hans hbroad =>
    exact ⟨⟨_, htried.limit hzero, hans⟩, htried.same, by rw [hbroad]; simp⟩
  | done _ _ _ hans => exact absurd (settled_of_answers hans) hopen

theorem Stage.delivered (h : Stage d k) (hzero : (d.text k).first.nbRetransmission = 0) (hsettled : d.Settled k) :
    (d.text k).Delivered := by
  have hopen : ∀ n, (d.text k).answers ≠ List.replicate n MSG_ACK_NEG := by
    intro n hans
    rw [Settled, hans] at hsettled
    exact pos_not_mem n hsettled
  cases h with
  | sent _ _ _ _ _ _ hans => exact absurd hans (hopen _)
  | rejected _ _ _ _ _ _ _ _ hans => exact absurd hans (hopen _)
  | accepted _ _ _ _ _ _ _ hans => exact absurd hans (hopen _)
  | done htried _ _ hans hbroad => exact ⟨⟨_, htried.limit hzero, hans⟩, htried.same, _, hbroad⟩

theorem Stage.answers_le (h : Stage d k) (hzero : (d.text k).first.nbRetransmission = 0) :
    (d.text k).answers.length ≤ 7 := by
  by_cases hsettled : d.Settled k
  · obtain ⟨n, hn, hans⟩ := (h.delivered hzero hsettled).answers
    rw [hans, List.length_append, List.length_replicate, List.length_singleton]
    omega
  · obtain ⟨n, hn, hans⟩ := (h.underway hzero hsettled).answers
    rw [hans, List.length_replicate]
    omega

/-- The step that settles a text frees its slot. -/
theorem Orderly.frees (h : d.Orderly) (hnext : d.Next d') (hk : k < d.count) (hopen : ¬ d.Settled k)
    (hsettled : d'.Settled k) : d'.SlotFree k := by
  obtain ⟨-, hfirst, hans⟩ := hnext.kept hk
  rcases hans with hsame | ⟨msg, hdown, hmore⟩
  · rw [Settled, hsame] at hsettled
    exact absurd hsettled hopen
  · obtain ⟨c, sent, hrun, hstep⟩ := hnext.receives hdown
    cases h.acked hdown with
    | rejected _ _ _ _ _ _ htype =>
      rw [Settled, hmore, htype] at hsettled
      rcases List.mem_append.1 hsettled with hold | hneg
      · exact absurd hold hopen
      · exact absurd (List.mem_singleton.1 hneg) (by decide)
    | @accepted i n m copies hm _ hsame _ _ _ _ _ hdone =>
      obtain ⟨rfl, rfl⟩ := Prod.mk.inj (Option.some.inj (hdone.symm.trans hrun))
      have hid : (d.text k).first.msgId.toNatClampNeg = i := by
        obtain ⟨nb, rfl⟩ := hsame
        rw [← Int32.toNatClampNeg_ofNat_of_lt hm.fits, ← hm.msgId]
      have hlt : i < d.client.msgWaitingAck.length := (List.getElem?_eq_some_iff.1 hm.waits.1).1
      refine ⟨initEmptyMessage m, ?_, by rw [initEmptyMessage]⟩
      rw [hfirst, hid, hstep]
      exact List.getElem?_set_self hlt

namespace Execution

/-- A text has one first message. -/
theorem first_eq (h : Execution run) {i : ℕ} (hk : k < (run n).count) (hi : k < (run i).count) :
    ((run i).text k).first = ((run n).text k).first := by
  rcases Nat.le_total n i with hle | hle
  · exact (h.later hk hle).2.1
  · exact (h.later hi hle).2.1.symm

theorem eventually_settled (h : Execution run) (hk : k < (run n).count)
    (hzero : ((run n).text k).first.nbRetransmission = 0) : ∃ j, k < (run j).count ∧ (run j).Settled k := by
  have hlater := fun i => h.later hk (Nat.le_add_right n i)
  have hle : ∀ i, ((run (n + i)).text k).answers.length ≤ 7 := fun i =>
    ((h.orderly (n + i)).stage k (hlater i).1).answers_le (by rw [(hlater i).2.1]; exact hzero)
  have hgrows : ∀ i, ¬ (run (n + i)).Settled k →
      ∃ j, i ≤ j ∧ ((run (n + i)).text k).answers.length < ((run (n + j)).text k).answers.length := by
    intro i hopen
    obtain ⟨j, hj, hlt⟩ := h.grows (hlater i).1 hopen
    obtain ⟨j', rfl⟩ := Nat.exists_eq_add_of_le (show n ≤ j by omega)
    exact ⟨j', by omega, hlt⟩
  obtain ⟨j, -, hsettled⟩ := Fifo.eventually_of_measure hle hgrows 0
  exact ⟨n + j, (hlater j).1, hsettled⟩

theorem settled_later (h : Execution run) (hk : k < (run n).count) (hsettled : (run n).Settled k) {j : ℕ} (hj : n ≤ j) :
    (run j).Settled k := by
  obtain ⟨-, -, new, hnew⟩ := h.later hk hj
  rw [Conversation.Settled, hnew]
  exact List.mem_append_left new hsettled

/-- The step that settles a text frees its slot, also when it is the first one after the text was typed. -/
theorem frees (h : Execution run) (hk : k < (run (n + 1)).count) (hsettled : (run (n + 1)).Settled k)
    (hbefore : ¬ (k < (run n).count ∧ (run n).Settled k)) : (run (n + 1)).SlotFree k := by
  rcases h.step n with hnext | hsame
  · by_cases hold : k < (run n).count
    · exact (h.orderly n).frees hnext hold (fun hs => hbefore ⟨hold, hs⟩) hsettled
    · rw [Conversation.Settled, hnext.typed_answers hold hk] at hsettled
      exact absurd hsettled List.not_mem_nil
  · rw [hsame] at hk hsettled
    exact absurd ⟨hk, hsettled⟩ hbefore

end Execution

/-- Each text is rejected at most six times and then accepted, once and for all; its slot is free then. -/
theorem text_delivered (h : Execution run) (hk : k < (run n).count)
    (hzero : ((run n).text k).first.nbRetransmission = 0) :
    ∃ j, (∀ i < j, k < (run i).count → ((run i).text k).first = ((run n).text k).first ∧ ((run i).text k).Underway) ∧
      (run j).SlotFree k ∧
      ∀ i, j ≤ i → k < (run i).count ∧ ((run i).text k).first = ((run n).text k).first ∧
        ((run i).text k).Delivered := by
  classical
  have hex := h.eventually_settled hk hzero
  obtain ⟨hlt, hsettled⟩ := Nat.find_spec hex
  have hfirst : ∀ {i}, k < (run i).count → ((run i).text k).first = ((run n).text k).first := fun hi => h.first_eq hk hi
  refine ⟨Nat.find hex, fun i hi hki => ⟨hfirst hki, ?_⟩, ?_, fun i hi => ?_⟩
  · refine ((h.orderly i).stage k hki).underway (by rw [hfirst hki]; exact hzero) fun hs => ?_
    exact Nat.find_min hex hi ⟨hki, hs⟩
  · cases hj : Nat.find hex with
    | zero =>
      rw [hj] at hlt
      exact absurd hlt (by rw [begins_count h.begins]; exact Nat.not_lt_zero k)
    | succ j =>
      rw [hj] at hlt hsettled
      exact h.frees hlt hsettled (Nat.find_min hex (by omega))
  · have hki := (h.later hlt hi).1
    refine ⟨hki, hfirst hki, ((h.orderly i).stage k hki).delivered (by rw [hfirst hki]; exact hzero) ?_⟩
    exact h.settled_later hlt hsettled hi

/-! ### A small run -/

/-- A run that ends with empty channels is an execution. -/
theorem exists_execution {d₀ : Conversation} (hbegins : Begins d₀) (hlater : Relation.ReflTransGen Next d₀ d)
    (hup : d.up = []) (hdown : d.down = []) : ∃ run n, Execution run ∧ run n = d := by
  have hpath : ∃ (run : ℕ → Conversation) (n : ℕ), run 0 = d₀ ∧ (∀ i < n, (run i).Next (run (i + 1))) ∧
      ∀ i, n ≤ i → run i = d := by
    clear hup hdown
    induction hlater with
    | refl => exact ⟨fun _ => d₀, 0, rfl, nofun, fun _ _ => rfl⟩
    | @tail b c _ hnext ih =>
      obtain ⟨run, n, hzero, hsteps, hlast⟩ := ih
      refine ⟨fun i => if i ≤ n then run i else c, n + 1, (if_pos (Nat.zero_le n)).trans hzero, fun i hi => ?_,
        fun i hi => if_neg (by omega)⟩
      dsimp only
      rw [if_pos (by omega : i ≤ n)]
      rcases Nat.lt_or_eq_of_le (by omega : i ≤ n) with hlt | rfl
      · rw [if_pos (by omega)]
        exact hsteps i hlt
      · rw [if_neg (by omega), hlast i (Nat.le_refl i)]
        exact hnext
  obtain ⟨run, n, hzero, hsteps, hlast⟩ := hpath
  have hstep : ∀ i, (run i).Next (run (i + 1)) ∨ run (i + 1) = run i := by
    intro i
    rcases Nat.lt_or_ge i n with hlt | hge
    · exact Or.inl (hsteps i hlt)
    · exact Or.inr (by rw [hlast i hge, hlast (i + 1) (by omega)])
  refine ⟨run, n, ⟨by rw [hzero]; exact hbegins, hstep, fun i hi => ?_, fun i hi => ?_⟩, hlast n (Nat.le_refl n)⟩
  · exact Fifo.served_of_empty (fun j => up_of_turn (hstep j)) (fun j hj => by rw [hlast j hj]; exact hup) hi
  · exact Fifo.served_of_empty (fun j => down_of_turn (hstep j)) (fun j hj => by rw [hlast j hj]; exact hdown) hi

/-- A text is entered, the client reads a message, or the server handles one with the given outcome. -/
inductive Move
  | enters (text : String)
  | receives
  | serves (rc : Int)

def Move.play (d : Conversation) : Move → Option Conversation
  | .enters text =>
    let id := sentSlot (fun _ => Message.zero) d.client
    if (ascii text).length < MAX_MSG_LENGTH ∧ id < 2 ^ 31 then
      (enter text d.client).map fun r => starts { d with client := r.1 } id r.2
    else none
  | .receives =>
    match d.down with
    | [] => none
    | (tag, msg) :: rest =>
      (onMsgClient d.client msg).map fun r => (answered { d with client := r.1, down := rest } msg tag).repeats r.2
  | .serves rc =>
    match d.up with
    | [] => none
    | (k, m) :: rest =>
      (onMsgReceivedWith (fun m => some (m, rc)) 20 ⟨0, 0⟩ (eventOn 5 m).locals 5 m d.server).map fun r => { d with
        server := r.1.state
        up := rest
        down := d.down ++ d.replies k r.1.sent
        text := Function.update d.text k { d.text k with
          broadcasts := (d.text k).broadcasts ++ r.2.toList } }

theorem Move.next {move : Move} (h : move.play d = some d') : d.Next d' := by
  cases move with
  | enters text =>
    dsimp only [Move.play] at h
    split at h
    · rename_i hguard
      obtain ⟨r, hr, rfl⟩ := Option.map_eq_some_iff.1 h
      exact .typed (.input hguard.1) hguard.2 hr
    · cases h
  | receives =>
    dsimp only [Move.play] at h
    split at h
    · cases h
    · rename_i hdown
      obtain ⟨r, hr, rfl⟩ := Option.map_eq_some_iff.1 h
      exact .received hdown hr
  | serves rc =>
    dsimp only [Move.play] at h
    split at h
    · cases h
    · rename_i k m rest hup
      obtain ⟨r, hr, rfl⟩ := Option.map_eq_some_iff.1 h
      have hkeeps : KeepsHeader fun m => some (m, rc) := by
        intro m m' rc' hm
        obtain rfl := (Prod.mk.inj (Option.some.inj hm)).1
        exact ⟨m.msg, m.control, m.error, rfl⟩
      exact .served hkeeps hup ⟨20, hr⟩

/-- Alice is connected through the index `2` of the proxy. -/
def aliceConnected : Option Conversation :=
  (enter "alice" (initClientState fun _ => none)).bind fun r =>
    (onMsgClient r.1 wellConnected).bind fun r' =>
      (handle (eventOn 5 (connectionRequest "alice" "secret" 2)) freshServer).bind fun s =>
        if r.1.connected = false ∧ r'.2.isEmpty ∧ r'.1.connected = true ∧ cstr r.1.pseudo = some (ascii "alice") then
          some ⟨r'.1, 2, s.state, [], [], 0, fun _ => ⟨Message.zero, [], [], []⟩, fun _ => 0⟩
        else none

theorem aliceConnected_begins (h : aliceConnected = some d) : Begins d := by
  obtain ⟨⟨c, sent⟩, hc, h⟩ := Option.bind_eq_some_iff.1 h
  obtain ⟨⟨c', sent'⟩, hc', h⟩ := Option.bind_eq_some_iff.1 h
  obtain ⟨s, hs, h⟩ := Option.bind_eq_some_iff.1 h
  split at h
  · rename_i hfacts
    obtain ⟨hoff, hempty, hon, hp⟩ := hfacts
    obtain rfl := Option.some.inj h
    obtain rfl := List.isEmpty_iff.1 hempty
    obtain ⟨s', hs', hacc⟩ := alice_accepted
    obtain rfl := Option.some.inj (hs.symm.trans hs')
    have hclient := (ClientRun.start fun _ => none).typed (.input (by decide)) hc
    refine .intro hclient hoff hc' hon hp (Run.step run_freshServer ⟨20, hs⟩) ?_
    rw [lastAccepted_cons, if_pos hacc]
    exact Option.some_ne_none _
  · cases h

/-- Alice's text is rejected once, and accepted then. -/
private theorem hello_rejected_once :
    (aliceConnected.bind fun d =>
      ([.enters "hello", .serves (-1), .receives, .serves 0, .receives, .receives].foldlM Move.play d).map fun d' =>
        decide (d'.up.isEmpty = true ∧ d'.down.isEmpty = true ∧ d'.count = 1 ∧
          (d'.text 0).first.nbRetransmission = 0 ∧ (d'.text 0).answers = [MSG_ACK_NEG, MSG_ACK_POS])) = some true := by
  decide +kernel

theorem text_delivered_hello :
    ∃ run n j, Execution run ∧ 0 < (run n).count ∧ ((run n).text 0).answers = [MSG_ACK_NEG, MSG_ACK_POS] ∧
      (run j).SlotFree 0 ∧ ∀ i, j ≤ i → ((run i).text 0).Delivered := by
  obtain ⟨d, hd, h⟩ := Option.bind_eq_some_iff.1 hello_rejected_once
  obtain ⟨d', hd', h⟩ := Option.map_eq_some_iff.1 h
  obtain ⟨hup, hdown, hcount, hzero, hanswers⟩ := of_decide_eq_true h
  have hlater : Relation.ReflTransGen Next d d' :=
    Loop.foldlM_of_some (Relation.ReflTransGen Next d) (fun _ _ _ hlater hmove => hlater.tail (Move.next hmove)) _ .refl
      hd'
  obtain ⟨run, n, hrun, rfl⟩ := exists_execution (aliceConnected_begins hd) hlater (List.isEmpty_iff.1 hup)
    (List.isEmpty_iff.1 hdown)
  have hk : 0 < (run n).count := by omega
  obtain ⟨j, -, hfree, hdelivered⟩ := text_delivered hrun hk hzero
  exact ⟨run, n, j, hrun, hk, hanswers, hfree, fun i hi => (hdelivered i hi).2.2⟩

end Conversation

end NyanChat
