import NyanChat.CodeDistance
import NyanChat.Detection
import NyanChat.Library.BinaryBursts

/-!
# The patterns of flipped bits that are detected

A pattern of flipped bits goes unnoticed exactly when it is itself a codeword, whatever the text is.  For a
polynomial of degree 8 with a lowest bit, no burst of up to 8 bits goes unnoticed, and of the bursts of up to 9
bits only the shifted polynomial does (`bursts_detected`).  The patterns of an odd number of bits are all noticed
exactly when the polynomial has an even number of bits (`odd_patterns_detected_iff`).
-/

namespace NyanChat

open BinaryPolynomial Polynomial

variable {P e : UInt16} {n : ℕ}

/-- The shift register notices the flipped bits in every codeword. -/
def Detects (P e : UInt16) : Prop := ∀ b, decodeLfsr P (encodeLfsr P (textWord b) ^^^ e) ≠ 0

/-- The flipped bits lie within `n` consecutive ones. -/
def Burst (n : ℕ) (e : UInt16) : Prop := ∃ k, ∀ i, e.toBitVec.getLsbD i = true → k ≤ i ∧ i < k + n

theorem detects_iff : Detects P e ↔ decodeLfsr P e ≠ 0 := by
  simp [Detects, decodeLfsr_xor, decodeLfsr_encodeLfsr]

/-- The words that the shift register accepts are the codewords. -/
theorem decodeLfsr_eq_zero_iff_codeword {m : UInt16} :
    decodeLfsr P m = 0 ↔ ∃ b, m = encodeLfsr P (textWord b) := by
  constructor
  · intro h
    refine ⟨(m >>> 8).toUInt8, ?_⟩
    rw [← codeword_bytes m, codeword_eq_xor, decodeLfsr_xor, decodeLfsr_low, UInt8.xor_eq_zero_iff] at h
    rw [encodeLfsr_eq_xor, h, ← codeword_eq_xor, codeword_bytes]
  · rintro ⟨b, rfl⟩
    exact decodeLfsr_encodeLfsr P b

/-! ### Bursts -/

/-- A burst is a short word, shifted. -/
theorem Burst.shifted (h : Burst n e) : ∃ (k : ℕ) (q : BitVec 16), (∀ i, n ≤ i → q.getLsbD i = false) ∧
    e.toBitVec = q <<< k ∧ wordPoly e = X ^ k * ofBits q := by
  obtain ⟨k, hk⟩ := h
  have hshift : e.toBitVec = e.toBitVec >>> k <<< k := by
    apply BitVec.eq_of_getLsbD_eq
    intro i hi
    rw [BitVec.getLsbD_shiftLeft, BitVec.getLsbD_ushiftRight]
    by_cases hik : i < k
    · have hno : e.toBitVec.getLsbD i = false := by
        rw [← Bool.not_eq_true]
        intro hbit
        have := hk i hbit
        omega
      simp [hno, hik]
    · simp [hi, hik, show k + (i - k) = i by omega]
  refine ⟨k, e.toBitVec >>> k, ?_, hshift, ?_⟩
  · intro i hi
    rw [BitVec.getLsbD_ushiftRight, ← Bool.not_eq_true]
    intro hbit
    have := hk _ hbit
    omega
  · rw [wordPoly, hshift, ofBits_shiftLeft]
    · simp [← hshift]
    · intro i hi
      rw [BitVec.getLsbD_ushiftRight]
      exact BitVec.getLsbD_of_ge _ _ (by omega)

/-- For a polynomial with a lowest bit, the unnoticed bursts of up to 9 bits are its shifts. -/
theorem burst_unnoticed (hP : (wordPoly P).natDegree = 8) (hlow : P.toBitVec.getLsbD 0 = true) (hne : e ≠ 0)
    (hburst : Burst 9 e) (he : ¬ Detects P e) : ∃ k < 8, e.toBitVec = P.toBitVec <<< k := by
  obtain ⟨k, q, hq, hshift, hpoly⟩ := hburst.shifted
  have hconst : (wordPoly P).coeff 0 ≠ 0 := by
    rw [wordPoly, coeff_ofBits, if_pos hlow]
    exact one_ne_zero
  rw [detects_iff, not_not, decodeLfsr_eq_zero_iff hP, hpoly] at he
  have hzero : ofBits q ≠ 0 := by
    intro hzero
    rw [hzero, mul_zero, wordPoly, ofBits_eq_zero] at hpoly
    exact hne (UInt16.toBitVec_inj.1 hpoly)
  have hdeg : (ofBits q).natDegree ≤ (wordPoly P).natDegree := by
    rw [hP, natDegree_le_iff_coeff_eq_zero]
    intro i hi
    rw [coeff_ofBits, hq i hi, if_neg Bool.false_ne_true]
  have heq := ofBits_injective (eq_of_dvd_of_natDegree_le (dvd_of_dvd_shift hconst he) hzero hdeg)
  refine ⟨k, ?_, by rw [hshift, heq]⟩
  -- the leading bit is not shifted out
  by_contra hk
  have hlead := congrArg (fun f => f.coeff (8 + k)) hpoly
  rw [heq, coeff_X_pow_mul, wordPoly, coeff_ofBits, coeff_ofBits, (generator_bits hP).1,
    BitVec.getLsbD_of_ge _ _ (by omega)] at hlead
  simp at hlead

/-- A shift of the polynomial that loses no bit goes unnoticed. -/
theorem shifted_unnoticed (hP : (wordPoly P).natDegree = 8) {k : ℕ} (hk : k < 8)
    (he : e.toBitVec = P.toBitVec <<< k) : ¬ Detects P e := by
  rw [detects_iff, not_not, decodeLfsr_eq_zero_iff hP, wordPoly, wordPoly, he, ofBits_shiftLeft]
  · exact Dvd.intro_left _ rfl
  · intro i hi
    exact (generator_bits hP).2 i (by omega)

/-- The polynomial itself goes unnoticed. -/
theorem generator_unnoticed (hP : (wordPoly P).natDegree = 8) : ¬ Detects P P :=
  shifted_unnoticed hP (by decide) (BitVec.shiftLeft_zero P.toBitVec).symm

/-- The patterns that are not noticed are the codewords.  Every burst of up to 8 bits is noticed exactly when the
polynomial has a lowest bit, and then the bursts of up to 9 bits that are not noticed are the shifts of the
polynomial. -/
theorem bursts_detected (hP : (wordPoly P).natDegree = 8) :
    (∀ e, Detects P e ↔ ∀ b, e ≠ encodeLfsr P (textWord b)) ∧
      ((∀ e, e ≠ 0 → Burst 8 e → Detects P e) ↔ P.toBitVec.getLsbD 0 = true) ∧
      (P.toBitVec.getLsbD 0 = true → ∀ e, e ≠ 0 → Burst 9 e →
        (Detects P e ↔ ∀ k < 8, e.toBitVec ≠ P.toBitVec <<< k)) := by
  obtain ⟨hlead, hbehind⟩ := generator_bits hP
  refine ⟨fun e => ?_, ⟨fun hall => ?_, fun hlow e hne hburst => ?_⟩, fun hlow e hne hburst => ⟨?_, ?_⟩⟩
  · rw [detects_iff, ne_eq, decodeLfsr_eq_zero_iff_codeword, not_exists]
  · by_contra hlow
    have hne : P ≠ 0 := by
      rintro rfl
      simp at hlead
    refine generator_unnoticed hP (hall P hne ⟨1, fun i hi => ?_⟩)
    have hi0 : i ≠ 0 := by
      rintro rfl
      exact hlow hi
    have hi8 : ¬ 8 < i := by
      intro h8
      rw [hbehind i h8] at hi
      cases hi
    omega
  · by_contra he
    obtain ⟨k, hk⟩ := hburst
    obtain ⟨j, hj, hshift⟩ := burst_unnoticed hP hlow hne
      ⟨k, fun i hi => ⟨(hk i hi).1, by have := (hk i hi).2; omega⟩⟩ he
    -- the lowest and the leading bit of the shifted polynomial are too far from each other
    have hbits : ∀ i, i = j ∨ i = j + 8 → e.toBitVec.getLsbD i = true := by
      rintro i (rfl | rfl)
      · simp [hshift, hlow, show i < 16 by omega]
      · simp [hshift, hlead, show j + 8 < 16 by omega]
    have hfirst := (hk j (hbits j (Or.inl rfl))).1
    have hlast := (hk (j + 8) (hbits _ (Or.inr rfl))).2
    omega
  · intro he k hk hshift
    exact shifted_unnoticed hP hk hshift he
  · intro hall
    by_contra he
    obtain ⟨k, hk, hshift⟩ := burst_unnoticed hP hlow hne hburst he
    exact hall k hk hshift

theorem bursts_detected_P : Detects NyanChat.P 0x0FF0 ∧ ¬ Detects NyanChat.P NyanChat.P := by
  have hlow : NyanChat.P.toBitVec.getLsbD 0 = true := by decide
  have height : ∀ i < 16, (0x0FF0 : UInt16).toBitVec.getLsbD i = true → 4 ≤ i ∧ i < 4 + 8 := by decide
  have hnine : ∀ i < 16, NyanChat.P.toBitVec.getLsbD i = true → 0 ≤ i ∧ i < 0 + 9 := by decide
  constructor
  · exact (bursts_detected natDegree_P).2.1.2 hlow 0x0FF0 (by decide)
      ⟨4, fun i hi => height i (BitVec.lt_of_getLsbD hi) hi⟩
  · rw [(bursts_detected natDegree_P).2.2 hlow NyanChat.P (by decide)
      ⟨0, fun i hi => hnine i (BitVec.lt_of_getLsbD hi) hi⟩]
    intro hall
    exact hall 0 (by omega) (by simp)

/-! ### Odd patterns -/

theorem eval_one_wordPoly (e : UInt16) : (wordPoly e).eval 1 = (bitCount e : ZMod 2) := by
  have hcount : ((Finset.range 16).filter fun i => e.toBitVec.getLsbD i = true).card =
      (List.range 16).countP fun i => e.toNat.testBit i := by
    rw [Finset.card_def, Finset.filter_val, ← Multiset.countP_eq_card_filter]
    exact List.countP_congr fun i _ => decide_eq_true_iff
  rw [wordPoly, eval_one_ofBits, hcount, bitCount_eq_countP]

theorem eval_one_eq_zero_iff (e : UInt16) : (wordPoly e).eval 1 = 0 ↔ bitCount e % 2 = 0 := by
  rw [eval_one_wordPoly, ZMod.natCast_eq_zero_iff, Nat.dvd_iff_mod_eq_zero]

/-- The patterns of an odd number of bits are all noticed exactly when the polynomial has an even number of bits. -/
theorem odd_patterns_detected_iff (hP : (wordPoly P).natDegree = 8) :
    (∀ e, bitCount e % 2 = 1 → Detects P e) ↔ bitCount P % 2 = 0 := by
  constructor
  · intro hall
    by_contra hodd
    exact generator_unnoticed hP (hall P (by omega))
  · intro heven e he
    rw [detects_iff, ne_eq, decodeLfsr_eq_zero_iff hP]
    intro hdvd
    have hzero := eval_one_of_dvd hdvd ((eval_one_eq_zero_iff P).2 heven)
    rw [eval_one_eq_zero_iff] at hzero
    omega

theorem odd_patterns_detected_P : Detects NyanChat.P 0x8402 :=
  (odd_patterns_detected_iff natDegree_P).2 (by decide) 0x8402 (by decide)

end NyanChat
