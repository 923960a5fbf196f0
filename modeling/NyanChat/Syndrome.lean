import NyanChat.CodeErrors
import NyanChat.Library.Loop

/-!
# Syndromes and correction

`decodeLfsr` is additive for exclusive or (`decodeLfsr_xor`), so the syndrome of a received codeword depends on the
flipped bits only (`syndrome_of_noise`).  `createSyndromeArray` gives every syndrome the pattern on the text byte
that causes it (`createSyndromeArray_get`), also the syndromes that flipped control bits cause.
-/

namespace NyanChat

/-! ### The shift register is linear -/

private theorem xor_self_cancel (a b p : UInt16) : a ^^^ p ^^^ (b ^^^ p) = a ^^^ b := by
  rw [UInt16.xor_assoc, ← UInt16.xor_assoc p b p, UInt16.xor_comm p b, UInt16.xor_assoc b p p, UInt16.xor_self,
    UInt16.xor_zero]

private theorem lfsrStep_xor (a b p : UInt16) (i : ℕ) :
    (lfsrStep (a ^^^ b, p) i).1 = (lfsrStep (a, p) i).1 ^^^ (lfsrStep (b, p) i).1 := by
  simp only [lfsrStep, getNthBit_ne_zero, UInt16.toBitVec_xor, BitVec.getLsbD_xor]
  cases a.toBitVec.getLsbD (15 - i) <;> cases b.toBitVec.getLsbD (15 - i) <;> simp
  · exact UInt16.xor_assoc a b p
  · rw [UInt16.xor_assoc, UInt16.xor_comm b p, ← UInt16.xor_assoc]
  · exact (xor_self_cancel a b p).symm

private theorem foldl_lfsrStep_xor (is : List ℕ) (a b p : UInt16) :
    (is.foldl lfsrStep (a ^^^ b, p)).1 = (is.foldl lfsrStep (a, p)).1 ^^^ (is.foldl lfsrStep (b, p)).1 := by
  induction is generalizing a b p with
  | nil => rfl
  | cons i is ih =>
    simp only [List.foldl_cons]
    have hsplit : lfsrStep (a ^^^ b, p) i =
        ((lfsrStep (a, p) i).1 ^^^ (lfsrStep (b, p) i).1, (lfsrStep (a, p) i).2) :=
      Prod.ext (lfsrStep_xor a b p i) rfl
    rw [hsplit, ih]
    rfl

/-- For every polynomial the remainder of a sum is the sum of the remainders. -/
theorem decodeLfsr_xor (P a b : UInt16) : decodeLfsr P (a ^^^ b) = decodeLfsr P a ^^^ decodeLfsr P b := by
  rw [decodeLfsr, foldl_lfsrStep_xor, UInt16.toUInt8_xor]
  rfl

theorem getLsbD_toUInt16 (c : UInt8) {i : ℕ} (hi : 8 ≤ i) : c.toUInt16.toBitVec.getLsbD i = false := by
  rw [UInt8.toBitVec_toUInt16, BitVec.getLsbD_setWidth, BitVec.getLsbD_of_ge _ _ hi, Bool.and_false]

/-- A word without high bits is its own remainder. -/
theorem decodeLfsr_low (P : UInt16) (c : UInt8) : decodeLfsr P c.toUInt16 = c := by
  have hinv : ((List.range 8).foldl lfsrStep (c.toUInt16, P <<< 7)).1 = c.toUInt16 := by
    refine Loop.foldl_range (fun _ (st : UInt16 × UInt16) => st.1 = c.toUInt16) rfl ?_
    intro i hi st hst
    have hbit : ¬ getNthBit i st.1 ≠ 0 := by
      rw [getNthBit_ne_zero, hst, getLsbD_toUInt16 c (by omega)]
      exact nofun
    rw [lfsrStep, if_neg hbit]
    exact hst
  rw [decodeLfsr, hinv, UInt8.toUInt8_toUInt16]

/-! ### Codewords -/

theorem textWord_xor (a b : UInt8) : textWord (a ^^^ b) = textWord a ^^^ textWord b := by
  rw [textWord, textWord, textWord, UInt8.toUInt16_xor]
  exact UInt16.toBitVec_inj.1 (by simp [BitVec.shiftLeft_xor_distrib])

theorem textWord_toBitVec (b : UInt8) : (textWord b).toBitVec = b.toBitVec.setWidth 16 <<< 8 := by
  simp [textWord]

/-- The two bytes of a codeword do not overlap, so their sum is an exclusive or. -/
theorem codeword_eq_xor (text control : UInt8) : codeword text control = textWord text ^^^ control.toUInt16 := by
  apply UInt16.toBitVec_inj.1
  have hdisj : (textWord text).toBitVec &&& control.toUInt16.toBitVec = 0#16 := by
    apply BitVec.eq_of_getLsbD_eq
    intro i hi
    rw [BitVec.getLsbD_and, textWord_toBitVec]
    by_cases h8 : i < 8
    · simp [h8]
    · rw [getLsbD_toUInt16 control (by omega)]
      simp
  rw [codeword, UInt16.toBitVec_add, BitVec.add_eq_or_of_and_eq_zero _ _ hdisj, UInt16.toBitVec_xor]
  apply BitVec.eq_of_getLsbD_eq
  intro i hi
  have hbit := congrArg (fun x => x.getLsbD i) hdisj
  simp only [BitVec.getLsbD_and, BitVec.getLsbD_zero] at hbit
  rw [BitVec.getLsbD_or, BitVec.getLsbD_xor]
  revert hbit
  cases (textWord text).toBitVec.getLsbD i <;> cases control.toUInt16.toBitVec.getLsbD i <;> simp

/-- The syndrome of a pattern on the text byte. -/
def textSyndrome (e : UInt8) : UInt8 := decodeLfsr P (textWord e)

theorem textSyndrome_xor (a b : UInt8) : textSyndrome (a ^^^ b) = textSyndrome a ^^^ textSyndrome b := by
  rw [textSyndrome, textWord_xor, decodeLfsr_xor]
  rfl

theorem decodeLfsr_codeword (text control : UInt8) :
    decodeLfsr P (codeword text control) = textSyndrome text ^^^ control := by
  rw [codeword_eq_xor, decodeLfsr_xor, decodeLfsr_low]
  rfl

/-- The syndrome of a codeword whose control byte was right before bits of it were flipped. -/
theorem syndrome_of_noise (text e c : UInt8) :
    decodeLfsr P (codeword (text ^^^ e) (textSyndrome text ^^^ c)) = textSyndrome e ^^^ c := by
  rw [decodeLfsr_codeword, textSyndrome_xor]
  calc textSyndrome text ^^^ textSyndrome e ^^^ (textSyndrome text ^^^ c)
      = textSyndrome text ^^^ textSyndrome text ^^^ (textSyndrome e ^^^ c) := by
        simp only [UInt8.xor_assoc]
        rw [← UInt8.xor_assoc (textSyndrome e), UInt8.xor_comm (textSyndrome e), UInt8.xor_assoc]
    _ = textSyndrome e ^^^ c := by rw [UInt8.xor_self, UInt8.zero_xor]

/-! ### The table -/

theorem forall_byte {p : UInt8 → Prop} (h : ∀ n < 256, p (UInt8.ofNat n)) (b : UInt8) : p b := by
  have := h b.toNat b.toNat_lt
  rwa [UInt8.ofNat_toNat] at this

/-- Different patterns on the text byte have different syndromes. -/
theorem textSyndrome_injective : Function.Injective textSyndrome := by
  have hker : ∀ e : UInt8, textSyndrome e = 0 → e = 0 := forall_byte (by decide +kernel)
  intro a b h
  have hzero : textSyndrome (a ^^^ b) = 0 := by rw [textSyndrome_xor, h, UInt8.xor_self]
  exact UInt8.xor_eq_zero_iff.1 (hker _ hzero)

theorem textSyndrome_surjective (s : UInt8) : ∃ e, textSyndrome e = s := by
  let f : Fin 256 → Fin 256 := fun i =>
    ⟨(textSyndrome (UInt8.ofNat i)).toNat, (textSyndrome (UInt8.ofNat i)).toNat_lt⟩
  have hinj : Function.Injective f := by
    intro i j hij
    have hs := textSyndrome_injective (UInt8.toNat_inj.1 (Fin.mk.inj hij))
    have hn := congrArg UInt8.toNat hs
    rw [UInt8.toNat_ofNat', UInt8.toNat_ofNat', Nat.mod_eq_of_lt i.2, Nat.mod_eq_of_lt j.2] at hn
    exact Fin.ext hn
  obtain ⟨i, hi⟩ := Finite.surjective_of_injective hinj ⟨s.toNat, s.toNat_lt⟩
  exact ⟨UInt8.ofNat i, UInt8.toNat_inj.1 (Fin.mk.inj hi)⟩

theorem toUInt16_ofNat {n : ℕ} (hn : n < 256) : (UInt8.ofNat n).toUInt16 = UInt16.ofNat n := by
  apply UInt16.toNat_inj.1
  rw [UInt8.toNat_toUInt16, UInt8.toNat_ofNat', UInt16.toNat_ofNat']
  omega

private theorem mask_byte : ∀ n < 256, UInt16.ofNat (Nc - 1) &&& UInt16.ofNat n = UInt16.ofNat n := by
  decide +kernel

/-- `create_syndrome_array` attributes every syndrome to the pattern on the text byte that has it. -/
theorem createSyndromeArray_get (e : UInt8) :
    lookup createSyndromeArray (textSyndrome e) = e.toUInt16 := by
  have hNc : Nc = 256 := rfl
  -- after `n` turns the patterns below `n` are entered and all others still have the initial value
  have hinv : ∀ e : UInt8, lookup createSyndromeArray (textSyndrome e) =
      if e.toNat < Nc - 1 then e.toUInt16 else UInt16.ofNat (Nc - 1) := by
    refine Loop.foldl_range (fun n (S : Syndromes) => ∀ e : UInt8, lookup S (textSyndrome e) =
      if e.toNat < n then e.toUInt16 else UInt16.ofNat (Nc - 1)) (fun e => by simp [lookup]) ?_
    intro n hn S hS e
    have hlt : n < 256 := by omega
    have hsyn : decodeLfsr P (UInt16.ofNat n <<< 8) = textSyndrome (UInt8.ofNat n) := by
      rw [textSyndrome, textWord, toUInt16_ofNat hlt]
    have hofNat : (UInt8.ofNat n).toNat = n := by rw [UInt8.toNat_ofNat']; omega
    simp only [syndromeStep, hsyn]
    rw [lookup]
    by_cases he : e = UInt8.ofNat n
    · subst he
      rw [Vector.getElem_set_self, hS, hofNat, if_neg (by omega), if_pos (by omega), mask_byte n hlt,
        toUInt16_ofNat hlt]
    · have hne : (textSyndrome (UInt8.ofNat n)).toNat ≠ (textSyndrome e).toNat := fun h =>
        he (textSyndrome_injective (UInt8.toNat_inj.1 h)).symm
      have hen : e.toNat ≠ n := fun h => he (by rw [← h, UInt8.ofNat_toNat])
      rw [Vector.getElem_set_ne _ _ hne, ← lookup, hS]
      by_cases hlt' : e.toNat < n
      · rw [if_pos hlt', if_pos (by omega)]
      · rw [if_neg hlt', if_neg (by omega)]
  rw [hinv]
  split
  · rfl
  · have h255 : e.toNat = 255 := by have := e.toNat_lt; omega
    apply UInt16.toNat_inj.1
    rw [UInt8.toNat_toUInt16, h255]
    rfl

end NyanChat
