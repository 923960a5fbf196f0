import Mathlib.Data.Fintype.EquivFin
import Mathlib.Data.Nat.ModEq
import Mathlib.Data.Nat.Prime.Basic

/-!
# Mixing functions on words

The two steps that hash functions mix a word with, `x + (x << k)` and `x ^ (x >> k)`, are injective.  A set of words
that is closed under the mixed sums with two consecutive constants is therefore closed under adding one, so that it
holds every word (`forall_mem`).
-/

namespace Mixing

/-- On a finite type a set that is closed under an injective function is closed under its inverse. -/
theorem mem_of_apply_mem {α : Type*} [Finite α] {f : α → α} (hf : Function.Injective f) {S : Set α}
    (hS : Set.MapsTo f S S) {x : α} (hx : f x ∈ S) : x ∈ S := by
  have hinj : Function.Injective (hS.restrict f S S) := fun a b hab => Subtype.ext (hf (congrArg Subtype.val hab))
  obtain ⟨⟨y, hy⟩, hyx⟩ := Finite.surjective_of_injective hinj ⟨f x, hx⟩
  obtain rfl := hf (congrArg Subtype.val hyx)
  exact hy

/-- `x + (x << k)` is a product with an odd number. -/
theorem add_shiftLeft_injective {k : UInt32} (hpos : 0 < k.toNat) (hk : k.toNat < 32) :
    Function.Injective fun x : UInt32 => x + (x <<< k) := by
  intro x y hxy
  have htoNat : ∀ z : UInt32, (z + (z <<< k)).toNat = z.toNat * (1 + 2 ^ k.toNat) % 2 ^ 32 := by
    intro z
    rw [UInt32.toNat_add, UInt32.toNat_shiftLeft, Nat.mod_eq_of_lt hk, Nat.shiftLeft_eq, Nat.add_mod_mod,
      Nat.mul_add, Nat.mul_one]
  have hcop : Nat.gcd (2 ^ 32) (1 + 2 ^ k.toNat) = 1 := by
    refine Nat.Coprime.pow_left 32 (Nat.Coprime.symm ?_)
    exact (odd_one.add_even (Nat.even_pow.2 ⟨even_two, hpos.ne'⟩)).coprime_two_right
  have hmod : x.toNat * (1 + 2 ^ k.toNat) ≡ y.toNat * (1 + 2 ^ k.toNat) [MOD 2 ^ 32] := by
    have h := congrArg UInt32.toNat hxy
    dsimp only at h
    rwa [htoNat, htoNat] at h
  have hxy' := Nat.ModEq.cancel_right_of_coprime hcop hmod
  rw [← UInt32.toNat_inj]
  exact hxy'.eq_of_lt_of_lt x.toNat_lt y.toNat_lt

/-- A word that is its own shift is zero. -/
private theorem eq_zero_of_shiftRight {k z : UInt32} (hpos : 0 < k.toNat) (hk : k.toNat < 32)
    (hz : z = z >>> k) : z = 0 := by
  have h := congrArg UInt32.toNat hz
  rw [UInt32.toNat_shiftRight, Nat.mod_eq_of_lt hk, Nat.shiftRight_eq_div_pow] at h
  rw [← UInt32.toNat_inj]
  by_contra hne
  have htwo : 1 < 2 ^ k.toNat := Nat.one_lt_two_pow hpos.ne'
  exact absurd h.symm (Nat.div_lt_self (Nat.pos_of_ne_zero hne) htwo).ne

theorem xor_shiftRight_injective {k : UInt32} (hpos : 0 < k.toNat) (hk : k.toNat < 32) :
    Function.Injective fun x : UInt32 => x ^^^ (x >>> k) := by
  intro x y hxy
  have hz : x ^^^ y = (x ^^^ y) >>> k := by
    rw [UInt32.shiftRight_xor, ← UInt32.xor_eq_zero_iff]
    calc x ^^^ y ^^^ ((x >>> k) ^^^ (y >>> k)) = (x ^^^ (x >>> k)) ^^^ (y ^^^ (y >>> k)) := by ac_rfl
      _ = 0 := UInt32.xor_eq_zero_iff.2 hxy
  exact UInt32.xor_eq_zero_iff.1 (eq_zero_of_shiftRight hpos hk hz)

theorem finite_word : Finite UInt32 := Finite.of_injective UInt32.toFin fun _ _ => UInt32.toFin_inj.1

/-- A set with zero that is closed under `mix (x + 1)` and `mix (x + 2)` holds every word. -/
theorem forall_mem {mix : UInt32 → UInt32} (hmix : Function.Injective mix) {S : Set UInt32} (hzero : 0 ∈ S)
    (hone : ∀ x ∈ S, mix (x + 1) ∈ S) (htwo : ∀ x ∈ S, mix (x + 2) ∈ S) (x : UInt32) : x ∈ S := by
  have hfinite := finite_word
  have hinj : Function.Injective fun x : UInt32 => mix (x + 1) := fun a b hab => (UInt32.add_left_inj 1).1 (hmix hab)
  have hsucc : ∀ x ∈ S, x + 1 ∈ S := by
    intro x hx
    refine mem_of_apply_mem hinj hone ?_
    show mix (x + 1 + 1) ∈ S
    rw [UInt32.add_assoc]
    exact htwo x hx
  have hall : ∀ n : ℕ, UInt32.ofNat n ∈ S := by
    intro n
    induction n with
    | zero => exact hzero
    | succ n ih =>
      rw [UInt32.ofNat_add]
      exact hsucc _ ih
  rw [← UInt32.ofNat_toNat (x := x)]
  exact hall x.toNat

end Mixing
