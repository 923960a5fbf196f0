import NyanChat.Detection
import NyanChat.Sessions

/-!
# Marked bytes

`code_correct_error` writes the byte of the pattern over every text byte, also over the ones it marks in `error` as
not corrected.  A byte is marked when its control byte belongs to no text byte at a distance of at most one bit
(`marked_iff`), and then it is always changed (`marked_changes`).
-/

namespace NyanChat

open Loop

/-- The bytes that `fixed` marks as not corrected are those of `m`. -/
def LeavesMarked (m fixed : Message) : Prop :=
  ∀ i (h : i < MAX_MSG_LENGTH), i < m.msgLength.toNat → fixed.error[i] ≠ 0 → fixed.msg[i] = m.msg[i]

/-- `code_correct_error` leaves the bytes it marks as received, and so does the server with a text it handles. -/
def MarkedBytesKept (m : Message) : Prop :=
  (∃ fixed rc, codeCorrectError createSyndromeArray m = some (fixed, rc) ∧ LeavesMarked m fixed) ∧
    ∀ fuel clock locals sock s r, onMsgReceived createSyndromeArray fuel clock locals sock m s = some r →
      LeavesMarked m r.msg

/-- The control byte belongs to a text byte that differs from the received one in at most one bit. -/
def NearCodeword (text control : UInt8) : Prop :=
  ∃ t, decodeLfsr P (textWord t) = control ∧ bitCount (textWord (text ^^^ t)) ≤ CORRECTION

/-! ### One byte -/

/-- The pattern of a codeword is the difference to the text byte that has the control byte. -/
theorem errorPattern_eq {m : Message} {i : Fin MAX_MSG_LENGTH} {t : UInt8}
    (ht : textSyndrome t = m.control.get i) :
    errorPattern createSyndromeArray m i = (m.msg.get i ^^^ t).toUInt16 := by
  have hpattern : errorPattern createSyndromeArray m i =
      lookup createSyndromeArray (decodeLfsr P (codeword (m.msg.get i) (m.control.get i))) := rfl
  rw [hpattern, decodeLfsr_codeword, ← ht, ← textSyndrome_xor, createSyndromeArray_get]

theorem correctable_iff (m : Message) (i : Fin MAX_MSG_LENGTH) :
    weight (errorPattern createSyndromeArray m i) ≤ CORRECTION ↔ NearCodeword (m.msg.get i) (m.control.get i) := by
  constructor
  · intro hweight
    obtain ⟨t, ht⟩ := textSyndrome_surjective (m.control.get i)
    rw [errorPattern_eq ht, weight_le_iff] at hweight
    exact ⟨t, ht, hweight⟩
  · rintro ⟨t, ht, hnear⟩
    rw [errorPattern_eq ht, weight_le_iff]
    exact hnear

section

variable {m : Message} {k i : ℕ}

/-- The bytes of the text that get a mark. -/
theorem marked_iff (hi : i < MAX_MSG_LENGTH) (hk : i < k) :
    (corrected createSyndromeArray m k).error[i] ≠ 0 ↔ ¬ NearCodeword m.msg[i] m.control[i] := by
  have hnear := correctable_iff m ⟨i, hi⟩
  show _ ↔ ¬ NearCodeword (m.msg.get ⟨i, hi⟩) (m.control.get ⟨i, hi⟩)
  rw [corrected, getElem_written, if_pos hk, ← hnear]
  split
  · rename_i hweight
    exact iff_of_false (fun h => h rfl) (fun h => h hweight)
  · rename_i hweight
    exact iff_of_true (by decide) hweight

/-- A marked byte is never the received one: a pattern beyond the correction capacity has bits. -/
theorem marked_changes (hi : i < MAX_MSG_LENGTH) (hk : i < k) (hfar : ¬ NearCodeword m.msg[i] m.control[i]) :
    (corrected createSyndromeArray m k).msg[i] ≠ m.msg[i] := by
  obtain ⟨t, ht⟩ := textSyndrome_surjective m.control[i]
  intro hsame
  rw [corrected, getElem_written, if_pos hk, errorPattern_eq (i := ⟨i, hi⟩) ht, UInt8.toUInt8_toUInt16] at hsame
  change m.msg[i] ^^^ (m.msg[i] ^^^ t) = m.msg[i] at hsame
  have hzero : m.msg[i] ^^^ t = 0 := by
    have h := congrArg (fun b => m.msg[i] ^^^ b) hsame
    simpa only [← UInt8.xor_assoc, UInt8.xor_self, UInt8.zero_xor] using h
  refine hfar ⟨t, ht, ?_⟩
  rw [hzero]
  decide

end

/-! ### A whole message -/

theorem leavesMarked_corrected (m : Message) :
    LeavesMarked m (corrected createSyndromeArray m m.msgLength.toNat) ↔
      ∀ i (h : i < MAX_MSG_LENGTH), i < m.msgLength.toNat → NearCodeword m.msg[i] m.control[i] := by
  constructor
  · intro h i hi hlt
    by_contra hfar
    exact marked_changes hi hlt hfar (h i hi hlt ((marked_iff hi hlt).2 hfar))
  · intro h i hi hlt hmarked
    exact absurd (h i hi hlt) ((marked_iff hi hlt).1 hmarked)

/-- The message that a handled text leaves is the one of `code_correct_error`. -/
private theorem onText_msg {S : Syndromes} {fuel : ℕ} {locals : Locals} {sock : Int} {p : List UInt8} {m : Message}
    {s : ServerState} {r : Handled} (hrun : onText S fuel locals sock p m s = some r) :
    ∃ rc, codeCorrectError S m = some (r.msg, rc) := by
  unfold onText at hrun
  obtain ⟨found, -, hrun⟩ := Option.bind_eq_some_iff.1 hrun
  obtain ⟨⟨fixed, rc⟩, hfixed, hrun⟩ := Option.bind_eq_some_iff.1 hrun
  refine ⟨rc, ?_⟩
  dsimp only at hrun
  split at hrun
  · split at hrun
    · obtain ⟨copies, -, hrun⟩ := Option.bind_eq_some_iff.1 hrun
      cases hrun
      exact hfixed
    · cases hrun
      exact hfixed
  · cases hrun
    exact hfixed

/-- The bytes that are marked as not corrected are left as received exactly when none is marked: when every control
byte belongs to a text byte at a distance of at most one bit. -/
theorem marked_bytes_kept_iff {m : Message} (hlen : m.msgLength.toNat ≤ MAX_MSG_LENGTH) :
    MarkedBytesKept m ↔
      ∀ i (h : i < MAX_MSG_LENGTH), i < m.msgLength.toNat → NearCodeword m.msg[i] m.control[i] := by
  have hfixed := codeCorrectError_eq createSyndromeArray hlen
  rw [← leavesMarked_corrected]
  constructor
  · rintro ⟨⟨fixed, rc, hrun, hleaves⟩, -⟩
    obtain ⟨rfl, -⟩ := Prod.mk.inj (Option.some.inj (hfixed.symm.trans hrun))
    exact hleaves
  · intro hleaves
    refine ⟨⟨_, _, hfixed, hleaves⟩, fun fuel clock locals sock s r hrun => ?_⟩
    -- a message that is no text is left as it is
    have hsame : LeavesMarked m m := fun _ _ _ _ => rfl
    cases onMsgReceived_branch hrun with
    | noPseudo => exact hsame
    | connection => exact hsame
    | other => exact hsame
    | text _ _ _ htext =>
      obtain ⟨rc, hrc⟩ := onText_msg htext
      have hmsg : corrected createSyndromeArray m m.msgLength.toNat = r.msg :=
        congrArg Prod.fst (Option.some.inj (hfixed.symm.trans hrc))
      exact hmsg ▸ hleaves

/-- The letter `a` with its control byte, after one bit of the letter was flipped. -/
def flippedLetter : Message :=
  { letterMessage with
    msg := overlay letterMessage.msg [0x60]
    control := overlay letterMessage.control [decodeLfsr P (textWord 0x61)] }

private theorem flippedLetter_bytes :
    flippedLetter.msg[0] = 0x60 ∧ flippedLetter.control[0] = decodeLfsr P (textWord 0x61) := by
  constructor
  · rw [flippedLetter, getElem_overlay]
    rfl
  · rw [flippedLetter, getElem_overlay]
    rfl

theorem marked_bytes_kept_iff_letter :
    flippedLetter.msgLength.toNat ≤ MAX_MSG_LENGTH ∧ MarkedBytesKept flippedLetter := by
  refine ⟨by decide, (marked_bytes_kept_iff (m := flippedLetter) (by decide)).2 fun i h hi => ?_⟩
  obtain rfl : i = 0 := Nat.lt_one_iff.1 hi
  rw [flippedLetter_bytes.1, flippedLetter_bytes.2]
  exact ⟨0x61, rfl, by decide⟩

private theorem letterMessage_bytes : letterMessage.msg[0] = 0x61 ∧ textSyndrome 0 = letterMessage.control[0] := by
  constructor
  · rw [letterMessage, getElem_overlay]
    rfl
  · rw [letterMessage, Message.zero, Vector.getElem_replicate]
    decide

private theorem letterMessage_pattern : errorPattern createSyndromeArray letterMessage 0 = 0x61 := by
  rw [errorPattern_eq (i := 0) letterMessage_bytes.2]
  exact congrArg (fun b : UInt8 => (b ^^^ 0).toUInt16) letterMessage_bytes.1

/-- The letter `a` with a zero control byte is marked and turned into a NUL. -/
theorem marked_letter_changed :
    letterMessage.msgLength.toNat ≤ MAX_MSG_LENGTH ∧ letterMessage.msg[0] = 0x61 ∧
      (∃ fixed, codeCorrectError createSyndromeArray letterMessage = some (fixed, -1) ∧ fixed.error[0] = 1 ∧
        fixed.msg[0] = 0) ∧
      ¬ MarkedBytesKept letterMessage := by
  have hlen : letterMessage.msgLength.toNat ≤ MAX_MSG_LENGTH := by decide
  have hweight : ¬ weight (errorPattern createSyndromeArray letterMessage 0) ≤ CORRECTION := by
    rw [letterMessage_pattern]
    decide
  have hfar : ¬ NearCodeword letterMessage.msg[0] letterMessage.control[0] := fun h =>
    hweight ((correctable_iff letterMessage 0).2 h)
  refine ⟨hlen, letterMessage_bytes.1, ⟨corrected createSyndromeArray letterMessage 1, ?_, ?_, ?_⟩, fun h => ?_⟩
  · rw [codeCorrectError_eq _ hlen, if_neg fun hall => hweight (hall 0 (by decide))]
    rfl
  · rw [corrected, getElem_written, if_pos (by decide)]
    exact if_neg hweight
  · have hbyte := letterMessage_bytes.1
    rw [corrected, getElem_written, if_pos (by decide)]
    exact (congrArg₂ (fun b (e : UInt16) => b ^^^ e.toUInt8) hbyte letterMessage_pattern).trans (by decide)
  · obtain ⟨⟨fixed, rc, hrun, hleaves⟩, -⟩ := h
    obtain ⟨rfl, -⟩ := Prod.mk.inj (Option.some.inj ((codeCorrectError_eq _ hlen).symm.trans hrun))
    exact hfar ((leavesMarked_corrected letterMessage).1 hleaves 0 (by decide) (by decide))

end NyanChat
