import NyanChat.Syndrome
import NyanChat.Library.BinaryPolynomial

/-!
# The shift register divides

A 16-bit word is a polynomial over the field with two elements, its most significant bit being the coefficient of
`X^15`.  For a polynomial of degree 8 `decode_lfsr` computes the remainder of the division (`decodeLfsr_eq_mod`).
-/

namespace NyanChat

open BinaryPolynomial Polynomial

/-- The polynomial of a word. -/
noncomputable def wordPoly (m : UInt16) : (ZMod 2)[X] := ofBits m.toBitVec

variable {P : UInt16}

theorem wordPoly_injective : Function.Injective wordPoly := fun _ _ h => UInt16.toBitVec_inj.1 (ofBits_injective h)

theorem generator_bits (hP : (wordPoly P).natDegree = 8) :
    P.toBitVec.getLsbD 8 = true ∧ ∀ i, 8 < i → P.toBitVec.getLsbD i = false :=
  (natDegree_ofBits (by decide)).1 hP

theorem generator_monic (hP : (wordPoly P).natDegree = 8) : (wordPoly P).Monic := by
  refine monic_of_ne_zero fun h => ?_
  rw [h, natDegree_zero] at hP
  exact absurd hP (by decide)

/-- The polynomial that the turn `i` subtracts, its leading bit at the bit that the turn looks at. -/
private theorem shifted_generator (hP : (wordPoly P).natDegree = 8) {i : ℕ} (hi : i < 8) :
    P.toBitVec <<< 7 >>> i = P.toBitVec <<< (7 - i) := by
  apply BitVec.eq_of_getLsbD_eq
  intro j hj
  rw [BitVec.getLsbD_ushiftRight, BitVec.getLsbD_shiftLeft, BitVec.getLsbD_shiftLeft]
  by_cases hlow : i + j < 7
  · rw [decide_eq_true hlow, decide_eq_true (show j < 7 - i by omega)]
    simp
  · rw [decide_eq_false hlow, decide_eq_false (show ¬ j < 7 - i by omega), decide_eq_true hj,
      show j - (7 - i) = i + j - 7 by omega]
    by_cases hhigh : i + j < 16
    · rw [decide_eq_true hhigh]
    · rw [(generator_bits hP).2 (i + j - 7) (by omega)]
      simp

/-- The register before turn `i`: its first `i` bits are cleared, and the remainder is the one of the word. -/
structure Divided (P m : UInt16) (i : ℕ) (st : UInt16 × UInt16) : Prop where
  polynomial : st.2.toBitVec = P.toBitVec <<< 7 >>> i
  dvd : wordPoly P ∣ wordPoly m + wordPoly st.1
  cleared : ∀ j, 16 ≤ i + j → st.1.toBitVec.getLsbD j = false

private theorem Divided.step {m : UInt16} (hP : (wordPoly P).natDegree = 8) {i : ℕ} (hi : i < 8)
    {st : UInt16 × UInt16} (h : Divided P m i st) : Divided P m (i + 1) (lfsrStep st i) := by
  have hshifted := h.polynomial.trans (shifted_generator hP hi)
  obtain ⟨hbit, hbehind⟩ := generator_bits hP
  have hhead : ∀ j, 16 ≤ i + j + 1 → j = 15 - i ∨ 16 ≤ i + j := fun j hj => by omega
  refine ⟨?_, ?_, fun j hj => ?_⟩
  · rw [lfsrStep, UInt16.toBitVec_shiftRight, h.polynomial, BitVec.shiftRight_add]
    rfl
  · rw [lfsrStep]
    dsimp only
    split
    · have hfits : ∀ j, 16 ≤ j + (7 - i) → P.toBitVec.getLsbD j = false := fun j hj => hbehind j (by omega)
      have hsum : wordPoly (st.1 ^^^ st.2) = wordPoly st.1 + X ^ (7 - i) * wordPoly P := by
        rw [wordPoly, UInt16.toBitVec_xor, ofBits_xor, hshifted, ofBits_shiftLeft hfits]
        rfl
      rw [hsum]
      exact dvd_add_reduce h.dvd _
    · exact h.dvd
  · rw [lfsrStep]
    dsimp only
    split
    · rename_i hset
      rw [getNthBit_ne_zero] at hset
      rw [UInt16.toBitVec_xor, BitVec.getLsbD_xor, hshifted, BitVec.getLsbD_shiftLeft]
      rcases hhead j (by omega) with rfl | hlt
      · -- the leading bits cancel
        rw [hset, decide_eq_true (show 15 - i < 16 by omega), decide_eq_false (show ¬ 15 - i < 7 - i by omega),
          show 15 - i - (7 - i) = 8 by omega, hbit]
        rfl
      · rw [h.cleared j hlt, hbehind (j - (7 - i)) (by omega)]
        simp
    · rename_i hunset
      rw [getNthBit_ne_zero] at hunset
      rcases hhead j (by omega) with rfl | hlt
      · exact Bool.eq_false_iff.2 hunset
      · exact h.cleared j hlt

private theorem decodeLfsr_loop (hP : (wordPoly P).natDegree = 8) (m : UInt16) :
    Divided P m 8 ((List.range 8).foldl lfsrStep (m, P <<< 7)) := by
  have hstart : Divided P m 0 (m, P <<< 7) := by
    refine ⟨by simp, ?_, fun j hj => BitVec.getLsbD_of_ge _ _ (by omega)⟩
    rw [CharTwo.add_self_eq_zero]
    exact dvd_zero _
  exact Loop.foldl_range (Divided P m) hstart fun i hi st h => h.step hP hi

/-- The loop clears the high bits of the register, so the conversion to a byte loses nothing. -/
theorem decodeLfsr_toUInt16 (hP : (wordPoly P).natDegree = 8) (m : UInt16) :
    (decodeLfsr P m).toUInt16 = ((List.range 8).foldl lfsrStep (m, P <<< 7)).1 := by
  apply UInt16.toBitVec_inj.1
  apply BitVec.eq_of_getLsbD_eq
  intro j hj
  by_cases hj8 : j < 8
  · rw [UInt8.toBitVec_toUInt16, BitVec.getLsbD_setWidth, decodeLfsr, UInt16.toBitVec_toUInt8,
      BitVec.getLsbD_setWidth, decide_eq_true hj, decide_eq_true hj8, Bool.true_and, Bool.true_and]
  · rw [getLsbD_toUInt16 _ (by omega), (decodeLfsr_loop hP m).cleared j (by omega)]

theorem decodeLfsr_divided (hP : (wordPoly P).natDegree = 8) (m : UInt16) :
    wordPoly P ∣ wordPoly m + wordPoly (decodeLfsr P m).toUInt16 := by
  rw [decodeLfsr_toUInt16 hP]
  exact (decodeLfsr_loop hP m).dvd

/-- The result of the shift register is the remainder. -/
theorem decodeLfsr_eq_mod (hP : (wordPoly P).natDegree = 8) (m : UInt16) :
    wordPoly m %ₘ wordPoly P = wordPoly (decodeLfsr P m).toUInt16 := by
  have hmonic := generator_monic hP
  refine modByMonic_eq_of_dvd_add hmonic (decodeLfsr_divided hP m) ?_
  rw [degree_eq_natDegree hmonic.ne_zero, hP]
  exact degree_ofBits_lt fun i hi => getLsbD_toUInt16 _ hi

theorem decodeLfsr_eq_zero_iff (hP : (wordPoly P).natDegree = 8) (m : UInt16) :
    decodeLfsr P m = 0 ↔ wordPoly P ∣ wordPoly m := by
  rw [← modByMonic_eq_zero_iff_dvd (generator_monic hP), decodeLfsr_eq_mod hP, wordPoly, ofBits_eq_zero]
  constructor
  · intro h
    rw [h]
    rfl
  · intro h
    have hzero : (decodeLfsr P m).toUInt16 = 0 := UInt16.toBitVec_inj.1 h
    rw [← UInt8.toUInt8_toUInt16 (decodeLfsr P m), hzero]
    rfl

theorem encodeLfsr_eq_xor (P : UInt16) (b : UInt8) :
    encodeLfsr P (textWord b) = textWord b ^^^ (decodeLfsr P (textWord b)).toUInt16 :=
  codeword_eq_xor b (decodeLfsr P (textWord b))

/-- The control byte of a codeword is its own remainder. -/
theorem decodeLfsr_encodeLfsr (P : UInt16) (b : UInt8) : decodeLfsr P (encodeLfsr P (textWord b)) = 0 := by
  rw [encodeLfsr_eq_xor, decodeLfsr_xor, decodeLfsr_low, UInt8.xor_self]

/-- For every polynomial of degree 8 the shift register leaves the remainder of the division alone in its low bits,
so it is additive and accepts every codeword. -/
theorem decodeLfsr_divides (hP : (wordPoly P).natDegree = 8) :
    (∀ m, ((List.range 8).foldl lfsrStep (m, P <<< 7)).1 = (decodeLfsr P m).toUInt16 ∧
      wordPoly (decodeLfsr P m).toUInt16 = wordPoly m %ₘ wordPoly P ∧
      wordPoly P ∣ wordPoly m - wordPoly (decodeLfsr P m).toUInt16) ∧
    (∀ a b, decodeLfsr P (a ^^^ b) = decodeLfsr P a ^^^ decodeLfsr P b) ∧
    ∀ b, decodeLfsr P (encodeLfsr P (textWord b)) = 0 := by
  refine ⟨fun m => ⟨(decodeLfsr_toUInt16 hP m).symm, (decodeLfsr_eq_mod hP m).symm, ?_⟩, decodeLfsr_xor P,
    decodeLfsr_encodeLfsr P⟩
  rw [CharTwo.sub_eq_add]
  exact decodeLfsr_divided hP m

theorem natDegree_P : (wordPoly NyanChat.P).natDegree = 8 := by
  refine (natDegree_ofBits (by decide)).2 ⟨by decide, fun i hi => ?_⟩
  by_cases hi' : i < 16
  · have hall : ∀ i < 16, 8 < i → NyanChat.P.toBitVec.getLsbD i = false := by decide
    exact hall i hi' hi
  · exact BitVec.getLsbD_of_ge _ _ (Nat.not_lt.1 hi')

/-- The control byte of the text byte `1` under the polynomial of the program. -/
theorem decodeLfsr_divides_P :
    (wordPoly NyanChat.P).natDegree = 8 ∧
      wordPoly (decodeLfsr NyanChat.P 0x0100).toUInt16 = wordPoly 0x0100 %ₘ wordPoly NyanChat.P ∧
      decodeLfsr NyanChat.P 0x0100 = 0xb9 :=
  ⟨natDegree_P, ((decodeLfsr_divides natDegree_P).1 0x0100).2.1, by decide +kernel⟩

end NyanChat
