import NyanChat.ErrorCorrection

/-!
# Error detection

Two codewords differ in at least four bits (`four_le_bitCount_codeword`).  So after at most two flipped bits in each
codeword a pattern within the correction capacity is the right one: `code_correct_error` corrects a codeword or
marks it, and its answer tells whether it marked one (`double_flips_detected`).
-/

namespace NyanChat

open Loop

/-! ### The distance of the code -/

private theorem countP_le_add {α : Type*} {p q r : α → Bool} (h : ∀ a, p a = true → q a = true ∨ r a = true)
    (L : List α) : L.countP p ≤ L.countP q + L.countP r := by
  induction L with
  | nil => exact Nat.le_refl 0
  | cons a L ih =>
    rw [List.countP_cons, List.countP_cons, List.countP_cons]
    by_cases hp : p a = true
    · rcases h a hp with hq | hr
      · rw [if_pos hp, if_pos hq]
        omega
      · rw [if_pos hp, if_pos hr]
        omega
    · rw [if_neg hp]
      omega

theorem bitCount_xor_le (v w : UInt16) : bitCount (v ^^^ w) ≤ bitCount v + bitCount w := by
  refine countP_le_add (fun n hn => ?_) (List.range 16)
  simp only [decide_eq_true_iff, getNthBit_eq_one, UInt16.toBitVec_xor, BitVec.getLsbD_xor] at hn ⊢
  cases hv : v.toBitVec.getLsbD (15 - n) with
  | true => exact Or.inl rfl
  | false =>
    rw [hv, Bool.false_xor] at hn
    exact Or.inr hn

/-- A codeword other than zero has at least four bits. -/
theorem four_le_bitCount_codeword {e : UInt8} (he : e ≠ 0) : 4 ≤ bitCount (codeword e (textSyndrome e)) := by
  have hall : ∀ e : UInt8, e ≠ 0 → 4 ≤ bitCount (codeword e (textSyndrome e)) := forall_byte (by decide +kernel)
  exact hall e he

/-- A pattern is corrected when it has at most one bit. -/
theorem weight_le_iff (t : UInt8) : weight t.toUInt16 ≤ CORRECTION ↔ bitCount (textWord t) ≤ CORRECTION := by
  have hall : ∀ t : UInt8, weight t.toUInt16 ≤ CORRECTION ↔ bitCount (textWord t) ≤ CORRECTION :=
    forall_byte (by decide +kernel)
  exact hall t

/-- A word is the codeword of its two bytes. -/
theorem codeword_bytes (w : UInt16) : codeword (w >>> 8).toUInt8 w.toUInt8 = w := by
  rw [codeword_eq_xor]
  apply UInt16.toBitVec_inj.1
  apply BitVec.eq_of_getLsbD_eq
  intro i hi
  have hlow : w.toUInt8.toUInt16.toBitVec.getLsbD i = (decide (i < 8) && w.toBitVec.getLsbD i) := by
    rw [UInt8.toBitVec_toUInt16, UInt16.toBitVec_toUInt8, BitVec.getLsbD_setWidth, BitVec.getLsbD_setWidth,
      decide_eq_true hi, Bool.true_and]
  have hhigh : (textWord (w >>> 8).toUInt8).toBitVec.getLsbD i = (!decide (i < 8) && w.toBitVec.getLsbD i) := by
    rw [textWord_toBitVec, BitVec.getLsbD_shiftLeft, BitVec.getLsbD_setWidth, UInt16.toBitVec_toUInt8,
      BitVec.getLsbD_setWidth]
    by_cases h8 : i < 8
    · simp [h8]
    · have hback : 8 + (i - 8) = i := by omega
      have hshift : (w >>> 8).toBitVec.getLsbD (i - 8) = w.toBitVec.getLsbD i := by
        show (w.toBitVec >>> 8).getLsbD (i - 8) = _
        rw [BitVec.getLsbD_ushiftRight, hback]
      rw [hshift, decide_eq_true hi, decide_eq_true (show i - 8 < 16 by omega),
        decide_eq_true (show i - 8 < 8 by omega), Bool.true_and, Bool.true_and]
      rfl
  rw [UInt16.toBitVec_xor, BitVec.getLsbD_xor, hlow, hhigh]
  by_cases h8 : i < 8 <;> simp [h8]

/-- After at most two flipped bits a pattern that would be corrected is the one of the text byte. -/
theorem pattern_eq_of_correctable {w : UInt16} (hw : bitCount w ≤ 2) {t : UInt8}
    (ht : textSyndrome t = textSyndrome (w >>> 8).toUInt8 ^^^ w.toUInt8) (hweight : weight t.toUInt16 ≤ CORRECTION) :
    t = (w >>> 8).toUInt8 := by
  -- the pattern and the flipped bits together lead from the codeword to another one
  have hcontrol : textSyndrome ((w >>> 8).toUInt8 ^^^ t) = w.toUInt8 := by
    rw [textSyndrome_xor, ht, ← UInt8.xor_assoc, UInt8.xor_self, UInt8.zero_xor]
  have hword : codeword ((w >>> 8).toUInt8 ^^^ t) (textSyndrome ((w >>> 8).toUInt8 ^^^ t)) = w ^^^ textWord t := by
    rw [hcontrol, codeword_eq_xor, textWord_xor, UInt16.xor_assoc, UInt16.xor_comm (textWord t), ← UInt16.xor_assoc,
      ← codeword_eq_xor, codeword_bytes]
  have hfew : bitCount (w ^^^ textWord t) ≤ 3 := by
    have hsum := bitCount_xor_le w (textWord t)
    have hone : bitCount (textWord t) ≤ 1 := (weight_le_iff t).1 hweight
    omega
  have hzero : (w >>> 8).toUInt8 ^^^ t = 0 := by
    by_contra hne
    have hmany := four_le_bitCount_codeword hne
    rw [hword] at hmany
    omega
  exact (UInt8.xor_eq_zero_iff.1 hzero).symm

/-! ### A whole message -/

/-- The message `m`, sent with control bytes through `noise`: the bytes that `code_correct_error` does not mark are
those of `m`, and it answers `-1` exactly when it marks a byte. -/
def DetectsAll (noise : ℕ → UInt16) (m : Message) : Prop :=
  ∃ sent fixed rc, addControlBits m = some sent ∧
    codeCorrectError createSyndromeArray (addNoise noise sent) = some (fixed, rc) ∧
    (∀ i (h : i < MAX_MSG_LENGTH), i < m.msgLength.toNat → fixed.error[i] = 0 → fixed.msg[i] = m.msg[i]) ∧
    (rc = -1 ↔ ∃ i, ∃ h : i < MAX_MSG_LENGTH, i < m.msgLength.toNat ∧ fixed.error[i] ≠ 0) ∧ (rc ≠ -1 → rc = 0)

/-- A codeword of a received message is corrected, or it is marked. -/
private theorem received_byte {noise : ℕ → UInt16} {m : Message} {i : Fin MAX_MSG_LENGTH}
    (hi : i.val < m.msgLength.toNat) (hnoise : bitCount (noise i) ≤ 2) :
    (weight (errorPattern createSyndromeArray (addNoise noise (withControl m)) i) ≤ CORRECTION ∧
        (received noise m).error[i.val] = 0 ∧ (received noise m).msg[i.val] = m.msg[i.val]) ∨
      (¬ weight (errorPattern createSyndromeArray (addNoise noise (withControl m)) i) ≤ CORRECTION ∧
        (received noise m).error[i.val] = 1) := by
  obtain ⟨t, ht⟩ := textSyndrome_surjective (textSyndrome (noise i >>> 8).toUInt8 ^^^ (noise i).toUInt8)
  have hpattern := errorPattern_addNoise noise m hi ht
  by_cases hweight : weight t.toUInt16 ≤ CORRECTION
  · have hmsg : (addNoise noise (withControl m)).msg[i.val] = m.msg[i.val] ^^^ (noise i >>> 8).toUInt8 := by
      rw [addNoise, withControl, getElem_written, if_pos hi]
    refine Or.inl ⟨hpattern ▸ hweight, ?_, ?_⟩
    · rw [received, corrected, getElem_written, if_pos hi, hpattern, if_pos hweight]
    · rw [received, corrected, getElem_written, if_pos hi, hpattern, hmsg, UInt8.toUInt8_toUInt16,
        pattern_eq_of_correctable hnoise ht hweight, UInt8.xor_assoc, UInt8.xor_self, UInt8.xor_zero]
  · refine Or.inr ⟨hpattern ▸ hweight, ?_⟩
    rw [received, corrected, getElem_written, if_pos hi, hpattern, if_neg hweight]

/-- With at most two flipped bits in each codeword no byte is miscorrected silently. -/
theorem double_flips_detected {noise : ℕ → UInt16} {m : Message} (hlen : m.msgLength.toNat ≤ MAX_MSG_LENGTH)
    (hnoise : ∀ i < m.msgLength.toNat, bitCount (noise i) ≤ 2) : DetectsAll noise m := by
  have hlength : (addNoise noise (withControl m)).msgLength = m.msgLength := by rw [addNoise, withControl]
  have hfix := codeCorrectError_eq createSyndromeArray (m := addNoise noise (withControl m)) (by rwa [hlength])
  rw [hlength, ← received] at hfix
  refine ⟨withControl m, received noise m, _, addControlBits_eq hlen, hfix, fun i h hi hunmarked => ?_, ?_, ?_⟩
  · rcases received_byte (i := ⟨i, h⟩) hi (hnoise i hi) with ⟨-, -, hmsg⟩ | ⟨-, hmarked⟩
    · exact hmsg
    · rw [hunmarked] at hmarked
      exact absurd hmarked (by decide)
  · constructor
    · intro hrc
      have hbad : ¬ AllCorrectable createSyndromeArray (addNoise noise (withControl m)) m.msgLength.toNat := by
        intro hall
        rw [if_pos hall] at hrc
        exact absurd hrc (by decide)
      simp only [AllCorrectable, not_forall] at hbad
      obtain ⟨i, hi, hweight⟩ := hbad
      rcases received_byte hi (hnoise i hi) with ⟨hok, -⟩ | ⟨-, hmarked⟩
      · exact absurd hok hweight
      · exact ⟨i, i.2, hi, by rw [hmarked]; decide⟩
    · rintro ⟨i, h, hi, hmarked⟩
      refine if_neg fun hall => ?_
      rcases received_byte (i := ⟨i, h⟩) hi (hnoise i hi) with ⟨-, hunmarked, -⟩ | ⟨hweight, -⟩
      · exact hmarked hunmarked
      · exact hweight (hall ⟨i, h⟩ hi)
  · intro hrc
    by_contra hne
    split at hrc
    · rename_i hall
      exact hne (if_pos hall)
    · exact hrc rfl

theorem double_flips_detected_letter :
    bitCount (chgNthBit 3 (chgNthBit 15 0)) ≤ 2 ∧
      DetectsAll (fun _ => chgNthBit 3 (chgNthBit 15 0)) letterMessage := by
  have hnoise : bitCount (chgNthBit 3 (chgNthBit 15 0)) ≤ 2 := by decide
  exact ⟨hnoise, double_flips_detected (by decide) fun _ _ => hnoise⟩

end NyanChat
