import NyanChat.Remainder
import NyanChat.Library.ParallelSums
import Mathlib.InformationTheory.Hamming

/-!
# The distance of the code

`code_hamming_distance` looks for the lightest codeword.  Its weight function adds bits in parallel and counts them
(`weight_eq_bitCount`), the codewords of a polynomial are closed under exclusive or (`encodeLfsr_xor`), and for every
polynomial of degree 8 some codeword is no heavier than the bound that the loop starts from
(`exists_light_codeword`), so the result is the distance of the code (`codeHammingDistance_isLeast`).
-/

namespace NyanChat

open ParallelSums

variable {P : UInt16}

/-- The length of an information word. -/
abbrev K : ℕ := 8

/-- The number of information words. -/
abbrev Nk : ℕ := 256

/-- The smallest weight of a codeword that is not zero, `K` if none is smaller. -/
def codeHammingDistance (P : UInt16) : ℕ :=
  (List.range' 1 (Nk - 1)).foldl (fun distance i =>
    let word := encodeLfsr P (UInt16.ofNat i <<< 8)
    let w := weight word
    if w < distance then w else distance) K

/-! ### The parallel weight -/

theorem bitCount_eq_countP (x : UInt16) : bitCount x = (List.range 16).countP fun i => x.toNat.testBit i := by
  have hreverse : (List.range 16).map (fun n => 15 - n) = (List.range 16).reverse := by decide
  rw [bitCount, ← List.countP_reverse, ← hreverse, List.countP_map]
  apply List.countP_congr
  intro n hn
  rw [List.mem_range] at hn
  rw [Function.comp_apply, decide_eq_true_iff, getNthBit_eq_one, show 15 - (15 - n) = n by omega]
  rfl

private theorem firstSums (x : UInt16) :
    (x - ((x >>> 1) &&& (0x5555 : UInt16))).toNat = pairSums 1 8 x.toNat := by
  have hle : (x >>> 1) &&& (0x5555 : UInt16) ≤ x := by
    rw [UInt16.le_iff_toNat_le, UInt16.toNat_and, UInt16.toNat_shiftRight]
    exact Nat.and_le_left.trans (Nat.shiftRight_le _ _)
  rw [UInt16.toNat_sub_of_le _ _ hle, ← sub_eq_pairSums 8 _ x.toNat_lt]
  rfl

private theorem pairSums_two_le (x : ℕ) : pairSums 2 4 x ≤ 0x6666 :=
  Nat.add_le_add Nat.and_le_right Nat.and_le_right

private theorem secondSums (x : UInt16) :
    ((x &&& (0x3333 : UInt16)) + ((x >>> 2) &&& (0x3333 : UInt16))).toNat = pairSums 2 4 x.toNat := by
  rw [UInt16.toNat_add, UInt16.toNat_and, UInt16.toNat_and, UInt16.toNat_shiftRight]
  exact Nat.mod_eq_of_lt ((pairSums_two_le _).trans_lt (by decide))

private theorem thirdSums {x : UInt16} (hle : x.toNat ≤ 0x6666) (hfields : FieldsLe 4 4 x.toNat) :
    ((x + (x >>> 4)) &&& (0x0f0f : UInt16)).toNat = pairSums 4 2 x.toNat := by
  have hshift := Nat.shiftRight_le x.toNat 4
  rw [UInt16.toNat_and, UInt16.toNat_add, UInt16.toNat_shiftRight, ← add_and_mask hfields (by decide) 2]
  show (_ + _ >>> 4) % 2 ^ 16 &&& _ = _
  rw [Nat.mod_eq_of_lt (by omega)]
  rfl

/-- The last mask keeps seven bits, and the sum of the last two fields is at most 16. -/
private theorem lastSum {x : UInt16} (hfields : FieldsLe 8 8 x.toNat) :
    ((x + (x >>> 8)) &&& (0x7f : UInt16)).toNat = pairSums 8 1 x.toNat := by
  have hpair : pairSums 8 1 x.toNat ≤ 16 := by
    rw [pairSums_one]
    exact hfields.pair
  have hmask : (x.toNat + x.toNat >>> 8) % 2 ^ 8 = pairSums 8 1 x.toNat := by
    rw [← add_and_mask hfields (by decide) 1]
    exact (Nat.and_two_pow_sub_one_eq_mod _ 8).symm
  have hseven : ((x + (x >>> 8)) &&& (0x7f : UInt16)).toNat = (x.toNat + x.toNat >>> 8) % 2 ^ 16 % 2 ^ 7 := by
    rw [UInt16.toNat_and, UInt16.toNat_add, UInt16.toNat_shiftRight]
    exact Nat.and_two_pow_sub_one_eq_mod _ 7
  omega

/-- The weight by parallel sums is the number of bits set. -/
theorem weight_eq_bitCount (x : UInt16) : weight x = bitCount x := by
  obtain ⟨y₁, hy₁⟩ : ∃ y, y = x - ((x >>> 1) &&& (0x5555 : UInt16)) := ⟨_, rfl⟩
  obtain ⟨y₂, hy₂⟩ : ∃ y, y = (y₁ &&& (0x3333 : UInt16)) + ((y₁ >>> 2) &&& (0x3333 : UInt16)) := ⟨_, rfl⟩
  obtain ⟨y₃, hy₃⟩ : ∃ y, y = (y₂ + (y₂ >>> 4)) &&& (0x0f0f : UInt16) := ⟨_, rfl⟩
  have hweight : weight x = ((y₃ + (y₃ >>> 8)) &&& (0x7f : UInt16)).toNat := by rw [hy₃, hy₂, hy₁, weight]
  -- every stage adds the fields of the one before in pairs
  have h₁ : y₁.toNat = pairSums 1 8 x.toNat := by rw [hy₁, firstSums]
  have h₂ : y₂.toNat = pairSums 2 4 y₁.toNat := by rw [hy₂, secondSums]
  have hfields₁ : FieldsLe 2 2 y₁.toNat := by
    rw [h₁]
    exact (fieldsLe_bits _).pairSums (by decide) 8
  have hfields₂ : FieldsLe 4 4 y₂.toNat := by
    rw [h₂]
    exact hfields₁.pairSums (by decide) 4
  have h₃ : y₃.toNat = pairSums 4 2 y₂.toNat := by
    rw [hy₃]
    exact thirdSums (by rw [h₂]; exact pairSums_two_le _) hfields₂
  have hfields₃ : FieldsLe 8 8 y₃.toNat := by
    rw [h₃]
    exact hfields₂.pairSums (by decide) 2
  have hsum : fieldSum 16 1 (pairSums 8 1 y₃.toNat) = bitCount x := by
    rw [bitCount_eq_countP, ← fieldSum_one, h₃, h₂, h₁, fieldSum_pairSums (show 0 < 8 by decide) 1,
      fieldSum_pairSums (show 0 < 4 by decide) 2, fieldSum_pairSums (show 0 < 2 by decide) 4,
      fieldSum_pairSums (show 0 < 1 by decide) 8]
  have hlast := hfields₃.pair
  rw [← pairSums_one] at hlast
  rw [hweight, lastSum hfields₃, ← hsum, fieldSum, fieldSum]
  omega

/-! ### Distances between codewords -/

/-- The bits of a word, the most significant one first. -/
def bitsOf (m : UInt16) : Fin 16 → UInt16 := fun n => getNthBit n m

theorem getNthBit_xor_eq_one (n : ℕ) (v w : UInt16) :
    getNthBit n (v ^^^ w) = 1 ↔ getNthBit n v ≠ getNthBit n w := by
  rw [getNthBit_eq_one, UInt16.toBitVec_xor, BitVec.getLsbD_xor, getNthBit_eq, getNthBit_eq]
  cases v.toBitVec.getLsbD (15 - n) <;> cases w.toBitVec.getLsbD (15 - n) <;> simp

theorem hammingDist_bitsOf (v w : UInt16) : hammingDist (bitsOf v) (bitsOf w) = bitCount (v ^^^ w) := by
  calc hammingDist (bitsOf v) (bitsOf w)
      = (List.finRange 16).countP fun i => bitsOf v i ≠ bitsOf w i := by
        rw [List.countP_eq_length_filter]
        rfl
    _ = ((List.finRange 16).map Fin.val).countP fun n => getNthBit n v ≠ getNthBit n w := by
        rw [List.countP_map]
        rfl
    _ = bitCount (v ^^^ w) := by
        rw [List.map_coe_finRange_eq_range, bitCount]
        apply List.countP_congr
        intro n hn
        rw [decide_eq_true_iff, decide_eq_true_iff, getNthBit_xor_eq_one]

theorem encodeLfsr_xor (P : UInt16) (a b : UInt8) :
    encodeLfsr P (textWord (a ^^^ b)) = encodeLfsr P (textWord a) ^^^ encodeLfsr P (textWord b) := by
  rw [encodeLfsr_eq_xor, encodeLfsr_eq_xor, encodeLfsr_eq_xor, textWord_xor, decodeLfsr_xor, UInt8.toUInt16_xor]
  ac_rfl

/-- Two codewords are as far apart as the codeword of the sum of their bytes is from zero. -/
theorem codeword_distance (P : UInt16) (a b : UInt8) :
    hammingDist (bitsOf (encodeLfsr P (textWord a))) (bitsOf (encodeLfsr P (textWord b))) =
      weight (encodeLfsr P (textWord (a ^^^ b))) := by
  rw [hammingDist_bitsOf, encodeLfsr_xor, weight_eq_bitCount]

/-! ### The bound from which the loop starts -/

private theorem generator_eq_codeword (hP : (wordPoly P).natDegree = 8) : P = textWord 1 ^^^ P.toUInt8.toUInt16 := by
  obtain ⟨hbit, hbehind⟩ := generator_bits hP
  apply UInt16.toBitVec_inj.1
  apply BitVec.eq_of_getLsbD_eq
  intro i hi
  have hone : ∀ i < 16, (textWord 1).toBitVec.getLsbD i = decide (i = 8) := by decide
  rw [UInt16.toBitVec_xor, BitVec.getLsbD_xor, hone i hi]
  rcases Nat.lt_trichotomy i 8 with hlow | rfl | hhigh
  · rw [UInt8.toBitVec_toUInt16, BitVec.getLsbD_setWidth, UInt16.toBitVec_toUInt8, BitVec.getLsbD_setWidth]
    simp [hi, hlow, hlow.ne]
  · rw [hbit, getLsbD_toUInt16 _ (le_refl 8)]
    rfl
  · rw [hbehind i hhigh, getLsbD_toUInt16 _ hhigh.le]
    simp [hhigh.ne']

/-- The polynomial itself is the codeword of the byte `1`. -/
theorem encodeLfsr_one (hP : (wordPoly P).natDegree = 8) : encodeLfsr P (textWord 1) = P := by
  have hself : decodeLfsr P P = 0 := (decodeLfsr_eq_zero_iff hP P).2 (dvd_refl _)
  have hlow : decodeLfsr P (textWord 1) = P.toUInt8 := by
    have hsplit := congrArg (decodeLfsr P) (generator_eq_codeword hP)
    rw [hself, decodeLfsr_xor, decodeLfsr_low] at hsplit
    exact UInt8.xor_eq_zero_iff.1 hsplit.symm
  rw [encodeLfsr_eq_xor, hlow, ← generator_eq_codeword hP]

/-- Some codeword has at most eight bits set: the polynomial, or `X^9 + 1` when all its coefficients are one. -/
theorem exists_light_codeword (hP : (wordPoly P).natDegree = 8) :
    ∃ e : UInt8, e ≠ 0 ∧ weight (encodeLfsr P (textWord e)) ≤ K := by
  have hlight : ∀ c : UInt8, c ≠ 255 → weight (textWord 1 ^^^ c.toUInt16) ≤ K := forall_byte (by decide +kernel)
  by_cases hfull : P.toUInt8 = 255
  · have hgenerator := generator_eq_codeword hP
    rw [hfull] at hgenerator
    refine ⟨2, by decide, ?_⟩
    rw [hgenerator]
    decide +kernel
  · refine ⟨1, by decide, ?_⟩
    rw [encodeLfsr_one hP, generator_eq_codeword hP]
    exact hlight _ hfull

/-- The loop looks at the codeword of every byte but zero. -/
theorem codeHammingDistance_words (P : UInt16) :
    IsLeast (insert K {d | ∃ e : UInt8, e ≠ 0 ∧ weight (encodeLfsr P (textWord e)) = d}) (codeHammingDistance P) := by
  have hloop := Loop.foldl_isLeast (fun i => weight (encodeLfsr P (UInt16.ofNat i <<< 8))) (List.range' 1 (Nk - 1)) K
  have hwords : {d | ∃ i ∈ List.range' 1 (Nk - 1), weight (encodeLfsr P (UInt16.ofNat i <<< 8)) = d} =
      {d | ∃ e : UInt8, e ≠ 0 ∧ weight (encodeLfsr P (textWord e)) = d} := by
    have hNk : Nk = 256 := rfl
    ext d
    constructor
    · rintro ⟨i, hi, rfl⟩
      rw [List.mem_range'_1] at hi
      refine ⟨UInt8.ofNat i, fun hzero => ?_, by rw [textWord, toUInt16_ofNat (by omega)]⟩
      have hnat := congrArg UInt8.toNat hzero
      rw [UInt8.toNat_ofNat', UInt8.toNat_zero] at hnat
      omega
    · rintro ⟨e, he, rfl⟩
      have hpos : e.toNat ≠ 0 := fun h => he (UInt8.toNat_inj.1 h)
      have hlt := e.toNat_lt
      refine ⟨e.toNat, List.mem_range'_1.2 ⟨by omega, by omega⟩, ?_⟩
      rw [textWord, ← toUInt16_ofNat hlt, UInt8.ofNat_toNat]
  rw [hwords] at hloop
  exact hloop

/-- For every polynomial of degree 8 `code_hamming_distance` is the least number of bits in which the codewords of
two different bytes differ. -/
theorem codeHammingDistance_isLeast (hP : (wordPoly P).natDegree = 8) :
    IsLeast {d | ∃ a b : UInt8, a ≠ b ∧
        hammingDist (bitsOf (encodeLfsr P (textWord a))) (bitsOf (encodeLfsr P (textWord b))) = d}
      (codeHammingDistance P) := by
  obtain ⟨hmem, hleast⟩ := codeHammingDistance_words P
  constructor
  · -- the smallest weight is the distance of its byte from zero
    have hword : ∃ e : UInt8, e ≠ 0 ∧ weight (encodeLfsr P (textWord e)) = codeHammingDistance P := by
      rcases hmem with hstart | hword
      · obtain ⟨e, he, hlight⟩ := exists_light_codeword hP
        have hle := hleast (Or.inr ⟨e, he, rfl⟩)
        exact ⟨e, he, le_antisymm (hlight.trans hstart.ge) hle⟩
      · exact hword
    obtain ⟨e, he, hweight⟩ := hword
    refine ⟨e, 0, he, ?_⟩
    rw [codeword_distance, UInt8.xor_zero, hweight]
  · rintro d ⟨a, b, hab, rfl⟩
    rw [codeword_distance]
    exact hleast (Or.inr ⟨a ^^^ b, fun h => hab (UInt8.xor_eq_zero_iff.1 h), rfl⟩)

example : codeHammingDistance NyanChat.P = 4 := by decide +kernel

/-- The distance that the polynomial of the program reaches between the codewords of two bytes. -/
theorem codeHammingDistance_isLeast_P :
    (wordPoly NyanChat.P).natDegree = 8 ∧
      ∃ a b : UInt8, a ≠ b ∧ hammingDist (bitsOf (encodeLfsr NyanChat.P (textWord a)))
        (bitsOf (encodeLfsr NyanChat.P (textWord b))) = codeHammingDistance NyanChat.P :=
  ⟨natDegree_P, (codeHammingDistance_isLeast natDegree_P).1⟩

end NyanChat
