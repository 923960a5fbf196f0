import NyanChat.Remainder

/-!
# The code by matrices

`create_generator_matrix`, `create_check_matrix`, `encode` and `decode`.  The remainders have eight bits, but the
generator matrix takes its parity columns from the first eight bits of a 16-bit word, which are zero for every
remainder.  So `encode` adds no control bits and `decode` gives the control byte of a word itself; that is what the
shift register computes only where the polynomial divides the part of the word above the control byte
(`matrix_agrees_iff`).
-/

namespace NyanChat

open BinaryPolynomial Polynomial

/-- The rows of a matrix with words of 16 columns. -/
abbrev Matrix16 : Type := Vector (Vector UInt16 16) 8

/-- `G`: the row `i` is the word with the bit `i` and the remainder of that. -/
def createGeneratorMatrix (P : UInt16) : Matrix16 :=
  Vector.ofFn fun i =>
    let remainder := decodeLfsr P (1 <<< UInt16.ofNat (15 - i))
    Vector.ofFn fun j =>
      if j.val < 8 then (if i.val = j.val then 1 else 0) else getNthBit (j - 8) remainder.toUInt16

/-- `H`: the parity columns of `G` as rows, followed by the identity. -/
def createCheckMatrix (G : Matrix16) : Matrix16 :=
  Vector.ofFn fun i => Vector.ofFn fun j =>
    if h : j.val < 8 then G[j.val][i.val + 8] else (if i.val = j.val - 8 then 1 else 0)

/-- `parity_bit` after the columns `entries` of a matrix have been added for the bits of `m`. -/
def parityBit {n : ℕ} (entries : Fin n → UInt16) (m : UInt16) : UInt8 :=
  (List.finRange n).foldl (fun parity i => (parity.toUInt16 ^^^ (entries i &&& getNthBit i m)).toUInt8) 0

/-- The turn of `encode` for the column `j + 8`. -/
def encodeStep (G : Matrix16) (m : UInt16) (j : Fin 8) : UInt16 :=
  if parityBit (fun i : Fin 8 => G[i.val][j.val + 8]) m ≠ 0 then setNthBit (j + 8) m else m

def encode (G : Matrix16) (m : UInt16) : UInt16 := (List.finRange 8).foldl (encodeStep G) m

/-- The turn of `decode` for the row `i`. -/
def decodeStep (H : Matrix16) (m : UInt16) (syndrome : UInt8) (i : Fin 8) : UInt8 :=
  if parityBit (fun j : Fin 16 => H[i.val][j.val]) m ≠ 0 then (setNthBit (i + 8) syndrome.toUInt16).toUInt8
  else syndrome

def decode (H : Matrix16) (m : UInt16) : UInt8 := (List.finRange 8).foldl (decodeStep H m) 0

/-! ### The parity columns are zero -/

theorem getNthBit_low (c : UInt8) {j : ℕ} (hj : j < 8) : getNthBit j c.toUInt16 = 0 := by
  rw [getNthBit_eq, getLsbD_toUInt16 c (by omega), if_neg Bool.false_ne_true]

theorem generator_parity (P : UInt16) {i j : ℕ} (hi : i < 8) (hj : j < 8) :
    (createGeneratorMatrix P)[i][j + 8] = 0 := by
  rw [createGeneratorMatrix, Vector.getElem_ofFn, Vector.getElem_ofFn, if_neg (by simp)]
  exact getNthBit_low _ (by simpa using hj)

theorem parityBit_zero {n : ℕ} {entries : Fin n → UInt16} (h : ∀ i, entries i = 0) (m : UInt16) :
    parityBit entries m = 0 := by
  rw [parityBit]
  have hstep : ∀ (L : List (Fin n)), L.foldl (fun (parity : UInt8) i =>
      (parity.toUInt16 ^^^ (entries i &&& getNthBit i m)).toUInt8) 0 = 0 := by
    intro L
    induction L with
    | nil => rfl
    | cons i L ih => rw [List.foldl_cons, h i, UInt16.zero_and]; exact ih
  exact hstep _

/-- `encode` leaves every word as it is. -/
theorem encode_eq (P m : UInt16) : encode (createGeneratorMatrix P) m = m := by
  have hstep : ∀ L : List (Fin 8), L.foldl (encodeStep (createGeneratorMatrix P)) m = m := by
    intro L
    induction L with
    | nil => rfl
    | cons j L ih =>
      have hzero := parityBit_zero (fun i : Fin 8 => generator_parity P i.isLt j.isLt) m
      rw [List.foldl_cons, encodeStep, if_neg (not_not.2 hzero)]
      exact ih
  exact hstep _

/-! ### The check matrix is the identity on the control byte -/

theorem check_entry (P : UInt16) {i j : ℕ} (hi : i < 8) (hj : j < 16) :
    (createCheckMatrix (createGeneratorMatrix P))[i][j] = if j = i + 8 then 1 else 0 := by
  rw [createCheckMatrix, Vector.getElem_ofFn, Vector.getElem_ofFn]
  dsimp only
  by_cases hj8 : j < 8
  · rw [dif_pos hj8, generator_parity P hj8 hi, if_neg (by omega)]
  · rw [dif_neg hj8]
    by_cases hij : j = i + 8
    · rw [if_pos hij, if_pos (by omega)]
    · rw [if_neg hij, if_neg (by omega)]

/-- A row with a single one reads that bit. -/
theorem parityBit_single {n : ℕ} {entries : Fin n → UInt16} (k : Fin n) (h : ∀ i, entries i = if i = k then 1 else 0)
    (m : UInt16) : parityBit entries m = (getNthBit k m).toUInt8 := by
  have hstep : ∀ (L : List (Fin n)), L.Nodup → ∀ parity : UInt8, L.foldl (fun parity i =>
      (parity.toUInt16 ^^^ (entries i &&& getNthBit i m)).toUInt8) parity =
        if k ∈ L then parity ^^^ (getNthBit k m).toUInt8 else parity := by
    intro L
    induction L with
    | nil => exact fun _ parity => (if_neg List.not_mem_nil).symm
    | cons i L ih =>
      intro hnodup parity
      obtain ⟨hi, hnodup⟩ := List.nodup_cons.1 hnodup
      rw [List.foldl_cons, ih hnodup, h i]
      by_cases hik : i = k
      · subst hik
        have hone : 1 &&& getNthBit i m = getNthBit i m := by
          rw [getNthBit_eq]
          split <;> decide
        rw [if_neg hi, if_pos List.mem_cons_self, if_pos rfl, hone, UInt16.toUInt8_xor, UInt8.toUInt8_toUInt16]
      · have hmem : k ∈ i :: L ↔ k ∈ L := by
          rw [List.mem_cons, or_iff_right (Ne.symm hik)]
        rw [if_neg hik, UInt16.zero_and, UInt16.xor_zero, UInt8.toUInt8_toUInt16]
        simp only [hmem]
  rw [parityBit, hstep _ (List.nodup_finRange n), if_pos (List.mem_finRange k), UInt8.zero_xor]

theorem getLsbD_setNthBit {n : ℕ} (hn : n < 16) (m : UInt16) (j : ℕ) :
    (setNthBit n m).toBitVec.getLsbD j = (m.toBitVec.getLsbD j || decide (j = 15 - n)) := by
  rw [setNthBit, UInt16.toBitVec_or, BitVec.getLsbD_or]
  by_cases hj : j < 16
  · have hone : ∀ n < 16, ∀ j < 16, ((1 : UInt16) <<< UInt16.ofNat (15 - n)).toBitVec.getLsbD j =
        decide (j = 15 - n) := by decide
    rw [hone n hn j hj]
  · rw [BitVec.getLsbD_of_ge _ _ (Nat.not_lt.1 hj), BitVec.getLsbD_of_ge _ _ (Nat.not_lt.1 hj),
      decide_eq_false (by omega)]

/-- The parity of a row of the check matrix is a bit of the control byte. -/
theorem check_parity (P m : UInt16) (i : Fin 8) :
    parityBit (fun j : Fin 16 => (createCheckMatrix (createGeneratorMatrix P))[i.val][j.val]) m ≠ 0 ↔
      m.toBitVec.getLsbD (7 - i) = true := by
  have hentry := fun j : Fin 16 => check_entry P i.isLt j.isLt
  have hbit : parityBit (fun j : Fin 16 => (createCheckMatrix (createGeneratorMatrix P))[i.val][j.val]) m = _ :=
    parityBit_single ⟨i + 8, by omega⟩ (fun j => by simp only [hentry, Fin.ext_iff]) m
  rw [hbit, getNthBit_eq, show 15 - (i.val + 8) = 7 - i.val by omega]
  cases m.toBitVec.getLsbD (7 - i) <;> decide

/-- The turns for the rows `L` set the bits of these rows. -/
theorem foldl_decodeStep (P m : UInt16) (L : List (Fin 8)) (syndrome : UInt8) {j : ℕ} (hj : j < 8) :
    (L.foldl (decodeStep (createCheckMatrix (createGeneratorMatrix P)) m) syndrome).toBitVec.getLsbD j =
      (syndrome.toBitVec.getLsbD j || L.any fun i => m.toBitVec.getLsbD (7 - i) && decide (j = 7 - i)) := by
  induction L generalizing syndrome with
  | nil => simp
  | cons i L ih =>
    rw [List.foldl_cons, ih, List.any_cons, ← Bool.or_assoc]
    congr 1
    rw [decodeStep]
    by_cases hset : m.toBitVec.getLsbD (7 - i) = true
    · rw [if_pos ((check_parity P m i).2 hset), UInt16.toBitVec_toUInt8, BitVec.getLsbD_setWidth,
        getLsbD_setNthBit (by omega), UInt8.toBitVec_toUInt16, BitVec.getLsbD_setWidth, hset,
        show 15 - (i.val + 8) = 7 - i.val by omega]
      simp [hj, show j < 16 by omega]
    · rw [if_neg (mt (check_parity P m i).1 hset), Bool.eq_false_iff.2 hset]
      simp

/-- `decode` gives the control byte of the word. -/
theorem decode_eq (P m : UInt16) : decode (createCheckMatrix (createGeneratorMatrix P)) m = m.toUInt8 := by
  apply UInt8.toBitVec_inj.1
  apply BitVec.eq_of_getLsbD_eq
  intro j hj
  rw [decode, foldl_decodeStep P m _ 0 hj, UInt16.toBitVec_toUInt8, BitVec.getLsbD_setWidth, decide_eq_true hj,
    Bool.true_and]
  -- the bit `j` has the row `7 - j`
  have hany : ((List.finRange 8).any fun i => m.toBitVec.getLsbD (7 - i) && decide (j = 7 - i)) =
      m.toBitVec.getLsbD j := by
    rw [Bool.eq_iff_iff, List.any_eq_true]
    constructor
    · rintro ⟨i, -, hi⟩
      rw [Bool.and_eq_true, decide_eq_true_iff] at hi
      rw [hi.2]
      exact hi.1
    · intro hbit
      refine ⟨⟨7 - j, by omega⟩, List.mem_finRange _, ?_⟩
      have hj7 : 7 - (7 - j) = j := by omega
      simp only [hj7, hbit, Bool.true_and, decide_true]
  rw [hany]
  simp

/-! ### The matrices and the shift register -/

variable {P : UInt16}

theorem encode_agrees_iff (hP : (wordPoly P).natDegree = 8) (m : UInt16) :
    encode (createGeneratorMatrix P) m = encodeLfsr P m ↔ wordPoly P ∣ wordPoly m := by
  rw [encode_eq, encodeLfsr, ← decodeLfsr_eq_zero_iff hP]
  constructor
  · intro h
    have hzero : (decodeLfsr P m).toUInt16 = 0 := (UInt16.add_eq_left (a := m)).1 h.symm
    rw [← UInt8.toUInt8_toUInt16 (decodeLfsr P m), hzero]
    rfl
  · intro h
    rw [h]
    exact (UInt16.add_zero m).symm

/-- The part of a word above the control byte. -/
def highPart (w : UInt16) : UInt16 := w &&& (0xff00 : UInt16)

private theorem word_eq_xor (w : UInt16) : w = highPart w ^^^ w.toUInt8.toUInt16 := by
  have hmask : ∀ j < 16, (0xff00 : UInt16).toBitVec.getLsbD j = decide (8 ≤ j) := by decide
  apply UInt16.toBitVec_inj.1
  apply BitVec.eq_of_getLsbD_eq
  intro j hj
  rw [highPart, UInt16.toBitVec_xor, BitVec.getLsbD_xor, UInt16.toBitVec_and, BitVec.getLsbD_and, hmask j hj,
    UInt8.toBitVec_toUInt16, BitVec.getLsbD_setWidth, UInt16.toBitVec_toUInt8, BitVec.getLsbD_setWidth,
    decide_eq_true hj, Bool.true_and]
  by_cases hj8 : 8 ≤ j
  · rw [decide_eq_true hj8, decide_eq_false (Nat.not_lt.2 hj8)]
    simp
  · rw [decide_eq_false hj8, decide_eq_true (Nat.not_le.1 hj8)]
    simp

theorem decode_agrees_iff (hP : (wordPoly P).natDegree = 8) (w : UInt16) :
    decode (createCheckMatrix (createGeneratorMatrix P)) w = decodeLfsr P w ↔
      wordPoly P ∣ wordPoly (highPart w) := by
  have hsplit : decodeLfsr P w = decodeLfsr P (highPart w) ^^^ w.toUInt8 := by
    conv_lhs => rw [word_eq_xor w, decodeLfsr_xor, decodeLfsr_low]
  rw [decode_eq, hsplit, ← decodeLfsr_eq_zero_iff hP]
  constructor
  · intro h
    have hxor := congrArg (· ^^^ w.toUInt8) h.symm
    simpa [UInt8.xor_assoc] using hxor
  · intro h
    rw [h, UInt8.zero_xor]

theorem wordPoly_X8 : wordPoly 0x100 = X ^ 8 := by
  have hbits : ∀ i, (0x100 : UInt16).toBitVec.getLsbD i = decide (i = 8) := by
    intro i
    by_cases hi : i < 16
    · have hall : ∀ i < 16, (0x100 : UInt16).toBitVec.getLsbD i = decide (i = 8) := by decide
      exact hall i hi
    · rw [BitVec.getLsbD_of_ge _ _ (Nat.not_lt.1 hi), decide_eq_false (by omega)]
  ext i
  rw [wordPoly, coeff_ofBits, hbits, coeff_X_pow]
  simp only [decide_eq_true_iff]

/-- The eighth power of `X` divides every word without control byte. -/
theorem X8_dvd {m : UInt16} (h : ∀ i < 8, m.toBitVec.getLsbD i = false) : wordPoly 0x100 ∣ wordPoly m := by
  rw [wordPoly_X8, X_pow_dvd_iff]
  intro i hi
  rw [wordPoly, coeff_ofBits, h i hi, if_neg Bool.false_ne_true]

/-- The matrices encode a byte as the shift register does exactly when the polynomial divides the shifted byte, and
they decode a word as the shift register does exactly when it divides the part above the control byte.  For all bytes
and words that is so for `X^8` only. -/
theorem matrix_agrees_iff (hP : (wordPoly P).natDegree = 8) :
    (∀ b, encode (createGeneratorMatrix P) (textWord b) = encodeLfsr P (textWord b) ↔
      wordPoly P ∣ wordPoly (textWord b)) ∧
    (∀ w, decode (createCheckMatrix (createGeneratorMatrix P)) w = decodeLfsr P w ↔
      wordPoly P ∣ wordPoly (highPart w)) ∧
    ((∀ b, encode (createGeneratorMatrix P) (textWord b) = encodeLfsr P (textWord b)) ∧
      (∀ w, decode (createCheckMatrix (createGeneratorMatrix P)) w = decodeLfsr P w) ↔ P = 0x100) := by
  refine ⟨fun b => encode_agrees_iff hP _, fun w => decode_agrees_iff hP w, ?_, ?_⟩
  · rintro ⟨hencode, -⟩
    have hdvd : wordPoly P ∣ wordPoly (textWord 1) := (encode_agrees_iff hP _).1 (hencode 1)
    have hone : textWord 1 = 0x100 := by decide
    rw [hone] at hdvd
    -- both polynomials are monic of degree 8
    have hmonic : (wordPoly 0x100).Monic := by
      rw [wordPoly_X8]
      exact monic_X_pow 8
    have hdegree : (wordPoly 0x100).natDegree ≤ (wordPoly P).natDegree := by
      rw [wordPoly_X8, natDegree_X_pow, hP]
    exact (wordPoly_injective (eq_of_monic_of_dvd_of_natDegree_le (generator_monic hP) hmonic hdvd hdegree)).symm
  · rintro rfl
    refine ⟨fun b => (encode_agrees_iff hP _).2 (X8_dvd fun i hi => ?_),
      fun w => (decode_agrees_iff hP w).2 (X8_dvd fun i hi => ?_)⟩
    · rw [textWord_toBitVec, BitVec.getLsbD_shiftLeft, decide_eq_true hi]
      simp
    · have hmask : ∀ i < 8, (0xff00 : UInt16).toBitVec.getLsbD i = false := by decide
      rw [highPart, UInt16.toBitVec_and, BitVec.getLsbD_and, hmask i hi, Bool.and_false]

theorem matrix_agrees_iff_X8 :
    (wordPoly 0x100).natDegree = 8 ∧
      (∀ b, encode (createGeneratorMatrix 0x100) (textWord b) = encodeLfsr 0x100 (textWord b)) ∧
      ∀ w, decode (createCheckMatrix (createGeneratorMatrix 0x100)) w = decodeLfsr 0x100 w := by
  have hdegree : (wordPoly 0x100).natDegree = 8 := by
    rw [wordPoly_X8]
    exact natDegree_X_pow 8
  exact ⟨hdegree, (matrix_agrees_iff hdegree).2.2.2 rfl⟩

/-- With the polynomial of the program the byte `1` gets no control bits from the matrices, and its codeword is not
accepted by them. -/
theorem matrix_without_control :
    (wordPoly NyanChat.P).natDegree = 8 ∧
      encode (createGeneratorMatrix NyanChat.P) (textWord 1) = 0x0100 ∧ encodeLfsr NyanChat.P (textWord 1) = 0x01b9 ∧
      decode (createCheckMatrix (createGeneratorMatrix NyanChat.P)) 0x01b9 = 0xb9 ∧
      decodeLfsr NyanChat.P 0x01b9 = 0 :=
  ⟨natDegree_P, by decide +kernel, by decide +kernel, by decide +kernel, by decide +kernel⟩

end NyanChat
