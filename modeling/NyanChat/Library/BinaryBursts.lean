import Mathlib.Algebra.Polynomial.FieldDivision
import Mathlib.RingTheory.PrincipalIdealDomain
import NyanChat.Library.BinaryPolynomial

/-!
# Bursts and parity of binary polynomials

A polynomial with a constant term divides a shifted polynomial only when it divides the polynomial itself
(`dvd_of_dvd_shift`).  The value of a word at `1` is the parity of its number of bits.
-/

namespace BinaryPolynomial

open Polynomial

variable {q f : (ZMod 2)[X]} {w : ℕ}

theorem dvd_of_dvd_shift (hq : q.coeff 0 ≠ 0) {k : ℕ} (h : q ∣ X ^ k * f) : q ∣ f := by
  have hX : Irreducible (X : (ZMod 2)[X]) := irreducible_X
  have hcoprime : IsCoprime X q := by
    rw [hX.coprime_iff_not_dvd, X_dvd_iff]
    exact hq
  exact hcoprime.symm.pow_right.dvd_of_dvd_mul_left h

/-- A multiple of the same degree is the polynomial itself. -/
theorem eq_of_dvd_of_natDegree_le (h : q ∣ f) (hf : f ≠ 0) (hdeg : f.natDegree ≤ q.natDegree) : f = q :=
  eq_of_monic_of_dvd_of_natDegree_le (monic_of_ne_zero (ne_zero_of_dvd_ne_zero hf h)) (monic_of_ne_zero hf) h hdeg

/-- The value of a word at `1` is its number of bits. -/
theorem eval_one_ofBits (m : BitVec w) :
    (ofBits m).eval 1 = (((Finset.range w).filter fun i => m.getLsbD i = true).card : ZMod 2) := by
  rw [ofBits, eval_finsetSum, Finset.card_filter, Nat.cast_sum]
  refine Finset.sum_congr rfl fun i _ => ?_
  split <;> simp

/-- The multiples of a polynomial have an even number of bits when the polynomial has. -/
theorem eval_one_of_dvd (h : q ∣ f) (hq : q.eval 1 = 0) : f.eval 1 = 0 := by
  obtain ⟨g, rfl⟩ := h
  rw [eval_mul, hq, zero_mul]

end BinaryPolynomial
