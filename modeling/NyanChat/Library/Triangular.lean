import Mathlib.Data.Nat.ModEq
import Mathlib.Data.Nat.Prime.Basic
import Mathlib.Data.Fintype.Card
import Mathlib.Data.Fintype.EquivFin
import Mathlib.Algebra.Ring.Parity
import Mathlib.Tactic.Ring

/-!
# Triangular numbers modulo a power of two

The triangular numbers `i (i + 1) / 2` for `i < 2 ^ k` are pairwise different modulo `2 ^ k`, so a walk that
starts anywhere and adds them visits every residue (`exists_triangular_add`).  The product `i (i + 1)` may be
reduced modulo a larger power of two before it is halved (`wrapped_half_mod`).
-/

namespace Triangular

/-- The `i`-th triangular number. -/
def tri (i : ℕ) : ℕ := i * (i + 1) / 2

theorem two_mul_tri (i : ℕ) : 2 * tri i = i * (i + 1) :=
  Nat.mul_div_cancel' (Nat.even_mul_succ_self i).two_dvd

/-- Twice the difference of two triangular numbers factors into numbers of different parity. -/
theorem two_mul_tri_sub {i j : ℕ} (h : i ≤ j) : 2 * (tri j - tri i) = (j - i) * (j + i + 1) := by
  obtain ⟨d, rfl⟩ := Nat.exists_eq_add_of_le h
  rw [Nat.mul_sub, two_mul_tri, two_mul_tri, Nat.add_sub_cancel_left]
  apply Nat.sub_eq_of_eq_add
  ring

private theorem tri_mod_ne {k i j : ℕ} (hij : i < j) (hj : j < 2 ^ k) : tri i % 2 ^ k ≠ tri j % 2 ^ k := by
  intro h
  have hdvd : 2 ^ k ∣ tri j - tri i := Nat.dvd_of_mod_eq_zero (Nat.sub_mod_eq_zero_of_mod_eq h.symm)
  have hprod : 2 ^ (k + 1) ∣ (j - i) * (j + i + 1) := by
    rw [← two_mul_tri_sub hij.le, Nat.pow_succ']
    exact Nat.mul_dvd_mul_left 2 hdvd
  have hpow : 2 ^ (k + 1) = 2 * 2 ^ k := Nat.pow_succ'
  -- exactly one of the two factors is odd, and the other one is too small to absorb `2 ^ (k + 1)`
  rcases Nat.even_or_odd (j - i) with he | ho
  · have hodd : Odd (j + i + 1) := by
      obtain ⟨c, hc⟩ := he
      exact ⟨i + c, by omega⟩
    have hcop : Nat.Coprime (2 ^ (k + 1)) (j + i + 1) := (Nat.coprime_two_left.2 hodd).pow_left _
    have hle := Nat.le_of_dvd (by omega) (hcop.dvd_of_dvd_mul_right hprod)
    omega
  · have hcop : Nat.Coprime (2 ^ (k + 1)) (j - i) := (Nat.coprime_two_left.2 ho).pow_left _
    have hle := Nat.le_of_dvd (by omega) (hcop.dvd_of_dvd_mul_left hprod)
    omega

/-- Triangular numbers below `2 ^ k` are pairwise different modulo `2 ^ k`. -/
theorem tri_mod_injective {k i j : ℕ} (hi : i < 2 ^ k) (hj : j < 2 ^ k)
    (h : tri i % 2 ^ k = tri j % 2 ^ k) : i = j := by
  rcases Nat.lt_trichotomy i j with hij | hij | hij
  · exact absurd h (tri_mod_ne hij hj)
  · exact hij
  · exact absurd h.symm (tri_mod_ne hij hi)

theorem add_tri_mod_injective {k a i j : ℕ} (hi : i < 2 ^ k) (hj : j < 2 ^ k)
    (h : (a + tri i) % 2 ^ k = (a + tri j) % 2 ^ k) : i = j :=
  tri_mod_injective hi hj (Nat.ModEq.add_left_cancel' a h)

/-- A walk by triangular numbers visits every residue within its first `2 ^ k` steps. -/
theorem exists_triangular_add (k a p : ℕ) (hp : p < 2 ^ k) : ∃ i < 2 ^ k, (a + tri i) % 2 ^ k = p := by
  let walk : Fin (2 ^ k) → Fin (2 ^ k) := fun i => ⟨(a + tri i) % 2 ^ k, Nat.mod_lt _ (Nat.two_pow_pos k)⟩
  have hinj : Function.Injective walk := fun i j h =>
    Fin.ext (add_tri_mod_injective i.2 j.2 (Fin.mk.inj h))
  obtain ⟨i, hi⟩ := Finite.surjective_of_injective hinj ⟨p, hp⟩
  exact ⟨i, i.2, Fin.mk.inj hi⟩

/-- The first `2 ^ k` steps of a walk are the residues in some order. -/
theorem walk_perm (k a : ℕ) : ((List.range (2 ^ k)).map fun i => (a + tri i) % 2 ^ k).Perm (List.range (2 ^ k)) := by
  rw [List.perm_ext_iff_of_nodup (List.nodup_range.map_on ?_) List.nodup_range]
  · intro p
    rw [List.mem_map, List.mem_range]
    constructor
    · rintro ⟨i, -, rfl⟩
      exact Nat.mod_lt _ (Nat.two_pow_pos k)
    · intro hp
      obtain ⟨i, hi, hwalk⟩ := exists_triangular_add k a p hp
      exact ⟨i, List.mem_range.2 hi, hwalk⟩
  · intro i hi j hj h
    exact add_tri_mod_injective (List.mem_range.1 hi) (List.mem_range.1 hj) h

/-- Reducing the product modulo `2 ^ w` before halving it does not change the result modulo `2 ^ k`, `k < w`. -/
theorem wrapped_half_mod {k w : ℕ} (hk : k < w) (i : ℕ) :
    (i * (i + 1)) % 2 ^ w / 2 % 2 ^ k = tri i % 2 ^ k := by
  obtain ⟨d, rfl⟩ := Nat.exists_eq_add_of_lt hk
  have hw : 2 ^ (k + d + 1) = 2 * (2 ^ k * 2 ^ d) := by rw [Nat.pow_succ', Nat.pow_add]
  rw [hw, Nat.mod_mul_right_div_self, Nat.mod_mul_right_mod]
  rfl

end Triangular
