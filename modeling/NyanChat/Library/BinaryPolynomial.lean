import Mathlib.Algebra.CharP.Two
import Mathlib.Algebra.Field.ZMod
import Mathlib.Algebra.Polynomial.Div
import Mathlib.Algebra.Polynomial.RingDivision
import Mathlib.Data.ZMod.Basic

/-!
# Words as binary polynomials

A word of bits read as a polynomial over the field with two elements: exclusive or is the sum, a shift is the product
with a power of `X`, and a word without bits from `n` on has a degree below `n`.  Clearing a bit of a word by a shifted
divisor does not change its remainder (`dvd_add_reduce`), and a word that is small enough is the remainder
(`modByMonic_eq_of_dvd_add`).
-/

namespace BinaryPolynomial

open Polynomial

variable {w v : ℕ}

/-- The polynomial whose coefficients are the bits of a word. -/
noncomputable def ofBits (m : BitVec w) : (ZMod 2)[X] :=
  ∑ i ∈ Finset.range w, if m.getLsbD i then X ^ i else 0

@[simp] theorem coeff_ofBits (m : BitVec w) (i : ℕ) : (ofBits m).coeff i = if m.getLsbD i then 1 else 0 := by
  have hterm : ∀ j, (if m.getLsbD j then X ^ j else 0 : (ZMod 2)[X]).coeff i =
      if i = j then (if m.getLsbD i then 1 else 0) else 0 := by
    intro j
    by_cases hij : i = j
    · subst hij
      split <;> simp
    · split <;> simp [coeff_X_pow, hij]
  rw [ofBits, finsetSum_coeff, Finset.sum_congr rfl fun j _ => hterm j, Finset.sum_ite_eq]
  by_cases hi : i < w
  · rw [if_pos (Finset.mem_range.2 hi)]
  · rw [if_neg (fun h => hi (Finset.mem_range.1 h)), BitVec.getLsbD_of_ge _ _ (Nat.not_lt.1 hi),
      if_neg Bool.false_ne_true]

private theorem bit_injective {a b : Bool} (h : (if a then 1 else 0 : ZMod 2) = if b then 1 else 0) : a = b := by
  revert h
  cases a <;> cases b <;> decide

theorem ofBits_eq_iff {a : BitVec w} {b : BitVec v} : ofBits a = ofBits b ↔ ∀ i, a.getLsbD i = b.getLsbD i := by
  constructor
  · intro h i
    have hi := congrArg (fun p => p.coeff i) h
    simp only [coeff_ofBits] at hi
    exact bit_injective hi
  · intro h
    ext i
    rw [coeff_ofBits, coeff_ofBits, h i]

theorem ofBits_injective : Function.Injective (ofBits (w := w)) := fun _ _ h =>
  BitVec.eq_of_getLsbD_eq fun i _ => ofBits_eq_iff.1 h i

@[simp] theorem ofBits_zero : ofBits (0 : BitVec w) = 0 := by
  ext i
  simp

theorem ofBits_eq_zero {m : BitVec w} : ofBits m = 0 ↔ m = 0 := by
  rw [← ofBits_zero (w := w)]
  exact ofBits_injective.eq_iff

@[simp] theorem ofBits_xor (a b : BitVec w) : ofBits (a ^^^ b) = ofBits a + ofBits b := by
  ext i
  rw [coeff_add, coeff_ofBits, coeff_ofBits, coeff_ofBits, BitVec.getLsbD_xor]
  cases a.getLsbD i <;> cases b.getLsbD i <;> decide

/-- A shift that loses no bit. -/
theorem ofBits_shiftLeft {m : BitVec w} {k : ℕ} (h : ∀ i, w ≤ i + k → m.getLsbD i = false) :
    ofBits (m <<< k) = X ^ k * ofBits m := by
  ext i
  rw [coeff_X_pow_mul', coeff_ofBits, coeff_ofBits, BitVec.getLsbD_shiftLeft]
  by_cases hk : k ≤ i
  · rw [if_pos hk, decide_eq_false (Nat.not_lt.2 hk)]
    by_cases hi : i < w
    · rw [decide_eq_true hi]
      rfl
    · rw [decide_eq_false hi, h (i - k) (by omega)]
      rfl
  · rw [if_neg hk, decide_eq_true (Nat.not_le.1 hk)]
    simp

theorem degree_ofBits_lt {m : BitVec w} {n : ℕ} (h : ∀ i, n ≤ i → m.getLsbD i = false) : (ofBits m).degree < n := by
  rw [degree_lt_iff_coeff_zero]
  intro i hi
  rw [coeff_ofBits, h i hi, if_neg Bool.false_ne_true]

theorem natDegree_ofBits {m : BitVec w} {n : ℕ} (hn : 0 < n) :
    (ofBits m).natDegree = n ↔ m.getLsbD n = true ∧ ∀ i, n < i → m.getLsbD i = false := by
  constructor
  · rintro rfl
    have hne : ofBits m ≠ 0 := fun h => by rw [h, natDegree_zero] at hn; exact Nat.lt_irrefl 0 hn
    constructor
    · have hlead := leadingCoeff_ne_zero.2 hne
      rw [leadingCoeff, coeff_ofBits] at hlead
      by_contra hbit
      exact hlead (if_neg hbit)
    · intro i hi
      have hzero := coeff_eq_zero_of_natDegree_lt hi
      rw [coeff_ofBits] at hzero
      by_contra hbit
      rw [if_pos (Bool.eq_true_of_not_eq_false hbit)] at hzero
      exact one_ne_zero hzero
  · rintro ⟨hbit, hbehind⟩
    refine natDegree_eq_of_le_of_coeff_ne_zero ?_ ?_
    · rw [natDegree_le_iff_coeff_eq_zero]
      intro i hi
      rw [coeff_ofBits, hbehind i hi, if_neg Bool.false_ne_true]
    · rw [coeff_ofBits, if_pos hbit]
      exact one_ne_zero

theorem monic_of_ne_zero {p : (ZMod 2)[X]} (h : p ≠ 0) : p.Monic := by
  have hlead := leadingCoeff_ne_zero.2 h
  have hall : ∀ a : ZMod 2, a ≠ 0 → a = 1 := by decide
  exact hall _ hlead

/-! ### Division -/

/-- A multiple of the divisor may be taken away. -/
theorem dvd_add_reduce {q m r : (ZMod 2)[X]} (h : q ∣ m + r) (k : ℕ) : q ∣ m + (r + X ^ k * q) := by
  rw [← add_assoc]
  exact dvd_add h (Dvd.intro_left _ rfl)

theorem modByMonic_eq_of_dvd_add {q m r : (ZMod 2)[X]} (hq : q.Monic) (h : q ∣ m + r) (hdeg : r.degree < q.degree) :
    m %ₘ q = r := by
  obtain ⟨f, hf⟩ := h
  refine (div_modByMonic_unique f r hq ⟨?_, hdeg⟩).2
  rw [← hf, add_comm m r, ← add_assoc, CharTwo.add_self_eq_zero, zero_add]

end BinaryPolynomial
