import Mathlib.Data.UInt

/-!
# Bits of 16-bit words

The functions of `bits.c`.  Bit `0` of a word is its most significant bit.
-/

namespace NyanChat

def setNthBit (n : ℕ) (m : UInt16) : UInt16 := m ||| (1 <<< UInt16.ofNat (15 - n))

def getNthBit (n : ℕ) (m : UInt16) : UInt16 := (m >>> UInt16.ofNat (15 - n)) &&& 1

def chgNthBit (n : ℕ) (m : UInt16) : UInt16 := m ^^^ (1 <<< UInt16.ofNat (15 - n))

/-- The Hamming weight by parallel sums. -/
def weight (x : UInt16) : ℕ :=
  let x := x - ((x >>> 1) &&& (0x5555 : UInt16))
  let x := (x &&& (0x3333 : UInt16)) + ((x >>> 2) &&& (0x3333 : UInt16))
  let x := (x + (x >>> 4)) &&& (0x0f0f : UInt16)
  let x := (x + (x >>> 8)) &&& (0x7f : UInt16)
  x.toNat

/-- The number of bits set in a word. -/
def bitCount (m : UInt16) : ℕ := (List.range 16).countP fun n => getNthBit n m = 1

private theorem shift_toNat (n : ℕ) : (UInt16.ofNat (15 - n)).toBitVec.toNat % 16 = 15 - n := by
  have h : (UInt16.ofNat (15 - n)).toBitVec.toNat = 15 - n := by
    show (15 - n) % 2 ^ 16 = 15 - n
    omega
  rw [h]
  omega

theorem getNthBit_eq (n : ℕ) (m : UInt16) :
    getNthBit n m = if m.toBitVec.getLsbD (15 - n) then 1 else 0 := by
  apply UInt16.toBitVec_inj.1
  have hshift : (m >>> UInt16.ofNat (15 - n)).toBitVec = m.toBitVec >>> (15 - n) := by
    rw [UInt16.toBitVec_shiftRight, BitVec.ushiftRight_eq', BitVec.toNat_umod]
    congr 1
    exact shift_toNat n
  have hone : (1 : UInt16).toBitVec = 1#16 := rfl
  rw [getNthBit, UInt16.toBitVec_and, hshift, hone, BitVec.and_one_eq_setWidth_ofBool_getLsbD,
    BitVec.getLsbD_ushiftRight, Nat.add_zero]
  cases m.toBitVec.getLsbD (15 - n) <;> rfl

theorem getNthBit_eq_one {n : ℕ} {m : UInt16} : getNthBit n m = 1 ↔ m.toBitVec.getLsbD (15 - n) = true := by
  rw [getNthBit_eq]
  cases m.toBitVec.getLsbD (15 - n) <;> simp

theorem getNthBit_ne_zero {n : ℕ} {m : UInt16} : getNthBit n m ≠ 0 ↔ m.toBitVec.getLsbD (15 - n) = true := by
  rw [getNthBit_eq]
  cases m.toBitVec.getLsbD (15 - n) <;> simp

/-- Words with the same bits are equal. -/
theorem eq_of_getNthBit {a b : UInt16} (h : ∀ n < 16, (getNthBit n a = 1 ↔ getNthBit n b = 1)) : a = b := by
  apply UInt16.toBitVec_inj.1
  apply BitVec.eq_of_getLsbD_eq
  intro i hi
  have hn := h (15 - i) (by omega)
  rw [getNthBit_eq_one, getNthBit_eq_one, show 15 - (15 - i) = i by omega] at hn
  exact Bool.eq_iff_iff.2 hn

theorem getNthBit_chgNthBit_zero {n b : ℕ} (hn : n < 16) (hb : b < 16) :
    getNthBit n (chgNthBit b 0) = 1 ↔ n = b := by
  have hall : ∀ n < 16, ∀ b < 16, (getNthBit n (chgNthBit b 0) = 1 ↔ n = b) := by decide
  exact hall n hn b hb

/-- A word with at most one bit set is zero or has exactly one flipped bit. -/
theorem eq_of_bitCount_le_one {m : UInt16} (h : bitCount m ≤ 1) : m = 0 ∨ ∃ b < 16, m = chgNthBit b 0 := by
  by_cases hm : ∃ b < 16, getNthBit b m = 1
  · obtain ⟨b, hb, hbit⟩ := hm
    refine Or.inr ⟨b, hb, eq_of_getNthBit fun n hn => ?_⟩
    rw [getNthBit_chgNthBit_zero hn hb]
    refine ⟨fun hbit' => ?_, fun hnb => hnb ▸ hbit⟩
    by_contra hne
    -- two different bits would count twice
    have hsub : List.Sublist (if n < b then [n, b] else [b, n]) (List.range 16) := by
      have hall : ∀ n < 16, ∀ b < 16, n ≠ b →
          List.Sublist (if n < b then [n, b] else [b, n]) (List.range 16) := by decide
      exact hall n hn b hb hne
    have hcount := hsub.countP_le (p := fun n => decide (getNthBit n m = 1))
    have htwo : (if n < b then [n, b] else [b, n]).countP (fun n => decide (getNthBit n m = 1)) = 2 := by
      split <;> simp [hbit, hbit']
    rw [htwo] at hcount
    unfold bitCount at h
    omega
  · refine Or.inl (eq_of_getNthBit fun n hn => ⟨fun hbit => absurd ⟨n, hn, hbit⟩ hm, fun hz => ?_⟩)
    rw [getNthBit_eq_one] at hz
    exact absurd hz (by simp)

end NyanChat
