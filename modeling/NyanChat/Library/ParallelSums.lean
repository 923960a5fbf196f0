import Mathlib.Data.Nat.Bitwise
import Mathlib.Tactic.Ring

/-!
# Sums of packed fields in parallel

A number is read as a row of fields of `w` bits.  One step adds the fields pairwise into fields of twice the width
(`pairSums`) and keeps the sum of all fields (`fieldSum_pairSums`).  The usual shortcuts of such a step, a
subtraction on single bits (`sub_eq_pairSums`) and one masking after the addition (`add_and_mask`), compute the same
when the fields are small.
-/

namespace ParallelSums

/-- The lower halves of `n` fields of `2 * w` bits. -/
def mask (w : ℕ) : ℕ → ℕ
  | 0 => 0
  | n + 1 => 2 ^ w - 1 + 2 ^ (2 * w) * mask w n

/-- The sum of the lowest `n` fields of `w` bits. -/
def fieldSum (w : ℕ) : ℕ → ℕ → ℕ
  | 0, _ => 0
  | n + 1, x => x % 2 ^ w + fieldSum w n (x / 2 ^ w)

/-- `n` fields of `2 * w` bits, each the sum of two fields of `w` bits. -/
def pairSums (w n x : ℕ) : ℕ := (x &&& mask w n) + ((x >>> w) &&& mask w n)

/-- No field of `w` bits is larger than `b`. -/
def FieldsLe (w b x : ℕ) : Prop := ∀ i, x / 2 ^ (w * i) % 2 ^ w ≤ b

private theorem two_pow_double (w : ℕ) : 2 ^ (2 * w) = 2 ^ w * 2 ^ w := by rw [Nat.two_mul, Nat.pow_add]

/-- A bitwise and splits at any bit. -/
private theorem land_split (x m t : ℕ) :
    x &&& m = (x % 2 ^ t &&& m % 2 ^ t) + 2 ^ t * (x / 2 ^ t &&& m / 2 ^ t) := by
  rw [← Nat.and_mod_two_pow, ← Nat.and_div_two_pow, Nat.mod_add_div]

private theorem mask_low_lt (w : ℕ) : 2 ^ w - 1 < 2 ^ (2 * w) := by
  have hle : 2 ^ w ≤ 2 ^ (2 * w) := Nat.pow_le_pow_right (by decide) (by omega)
  have hpos := Nat.two_pow_pos w
  omega

theorem and_mask_succ (w n x : ℕ) :
    x &&& mask w (n + 1) = x % 2 ^ w + 2 ^ (2 * w) * (x / 2 ^ (2 * w) &&& mask w n) := by
  rw [mask, land_split x _ (2 * w), Nat.add_mul_mod_self_left, Nat.mod_eq_of_lt (mask_low_lt w),
    Nat.and_two_pow_sub_one_eq_mod, Nat.mod_mod_of_dvd _ (Nat.pow_dvd_pow 2 (by omega)),
    Nat.add_mul_div_left _ _ (Nat.two_pow_pos _), Nat.div_eq_of_lt (mask_low_lt w), Nat.zero_add]

private theorem shift_div (w x : ℕ) : (x >>> w) / 2 ^ (2 * w) = (x / 2 ^ (2 * w)) >>> w := by
  rw [Nat.shiftRight_eq_div_pow, Nat.shiftRight_eq_div_pow, Nat.div_div_eq_div_mul, Nat.div_div_eq_div_mul,
    Nat.mul_comm]

/-- The lowest sum of a step, and the step on the rest. -/
theorem pairSums_succ (w n x : ℕ) :
    pairSums w (n + 1) x = x % 2 ^ w + x / 2 ^ w % 2 ^ w + 2 ^ (2 * w) * pairSums w n (x / 2 ^ (2 * w)) := by
  rw [pairSums, and_mask_succ, and_mask_succ, shift_div, Nat.shiftRight_eq_div_pow x w, pairSums]
  ring

theorem pairSums_one (w x : ℕ) : pairSums w 1 x = x % 2 ^ w + x / 2 ^ w % 2 ^ w := by
  rw [pairSums_succ, pairSums, mask, Nat.and_zero, Nat.and_zero]
  rfl

private theorem pair_lt {w : ℕ} (hw : 0 < w) (x : ℕ) : x % 2 ^ w + x / 2 ^ w % 2 ^ w < 2 ^ (2 * w) := by
  have hlow := Nat.mod_lt x (Nat.two_pow_pos w)
  have hhigh := Nat.mod_lt (x / 2 ^ w) (Nat.two_pow_pos w)
  have htwo : 2 ≤ 2 ^ w := Nat.le_self_pow (by omega) 2
  have hprod : 2 * 2 ^ w ≤ 2 ^ w * 2 ^ w := Nat.mul_le_mul_right _ htwo
  rw [two_pow_double]
  omega

/-- A step keeps the sum of the fields. -/
theorem fieldSum_pairSums {w : ℕ} (hw : 0 < w) (n x : ℕ) :
    fieldSum (2 * w) n (pairSums w n x) = fieldSum w (2 * n) x := by
  induction n generalizing x with
  | zero => rfl
  | succ n ih =>
    have hdiv : x / 2 ^ w / 2 ^ w = x / 2 ^ (2 * w) := by rw [Nat.div_div_eq_div_mul, ← two_pow_double]
    rw [fieldSum, pairSums_succ, Nat.add_mul_mod_self_left, Nat.mod_eq_of_lt (pair_lt hw x),
      Nat.add_mul_div_left _ _ (Nat.two_pow_pos _), Nat.div_eq_of_lt (pair_lt hw x), Nat.zero_add, ih, Nat.mul_succ,
      fieldSum, fieldSum, hdiv, Nat.add_assoc]

/-- Fields of one bit add up to the number of bits set. -/
theorem fieldSum_one (n x : ℕ) : fieldSum 1 n x = (List.range n).countP fun i => x.testBit i := by
  induction n generalizing x with
  | zero => rfl
  | succ n ih =>
    rw [fieldSum, ih, List.range_succ_eq_map, List.countP_cons, List.countP_map, Nat.add_comm]
    congr 1
    · apply List.countP_congr
      intro i hi
      rw [Function.comp_apply, Nat.testBit_succ, Nat.pow_one]
    · rw [Nat.testBit_zero, Nat.pow_one]
      rcases Nat.mod_two_eq_zero_or_one x with h | h <;> simp [h]

theorem FieldsLe.div {w b x : ℕ} (h : FieldsLe w b x) (j : ℕ) : FieldsLe w b (x / 2 ^ (w * j)) := by
  intro i
  rw [Nat.div_div_eq_div_mul, ← Nat.pow_add, ← Nat.mul_add]
  exact h (j + i)

theorem FieldsLe.pair {w b x : ℕ} (h : FieldsLe w b x) : x % 2 ^ w + x / 2 ^ w % 2 ^ w ≤ 2 * b := by
  have hlow := h 0
  have hhigh := h 1
  rw [Nat.mul_zero, Nat.pow_zero, Nat.div_one] at hlow
  rw [Nat.mul_one] at hhigh
  omega

/-- Single bits are at most one. -/
theorem fieldsLe_bits (x : ℕ) : FieldsLe 1 1 x := fun i => by omega

/-- A step doubles the bound of the fields. -/
theorem FieldsLe.pairSums {w b x : ℕ} (hw : 0 < w) (h : FieldsLe w b x) (n : ℕ) :
    FieldsLe (2 * w) (2 * b) (pairSums w n x) := by
  induction n generalizing x with
  | zero => exact fun i => by simp [ParallelSums.pairSums, mask]
  | succ n ih =>
    intro i
    have hrest : FieldsLe w b (x / 2 ^ (2 * w)) := by
      rw [Nat.mul_comm]
      exact h.div 2
    rw [pairSums_succ]
    rcases i with _ | i
    · rw [Nat.mul_zero, Nat.pow_zero, Nat.div_one, Nat.add_mul_mod_self_left, Nat.mod_eq_of_lt (pair_lt hw x)]
      exact h.pair
    · rw [Nat.mul_succ, Nat.add_comm (2 * w * i), Nat.pow_add, ← Nat.div_div_eq_div_mul,
        Nat.add_mul_div_left _ _ (Nat.two_pow_pos _), Nat.div_eq_of_lt (pair_lt hw x), Nat.zero_add]
      exact ih hrest i

/-- On single bits the step is one subtraction. -/
theorem sub_eq_pairSums (n x : ℕ) (hx : x < 2 ^ (2 * n)) : x - ((x >>> 1) &&& mask 1 n) = pairSums 1 n x := by
  have hsplit : x = (x &&& mask 1 n) + 2 * ((x >>> 1) &&& mask 1 n) := by
    induction n generalizing x with
    | zero =>
      obtain rfl : x = 0 := by simpa using hx
      rfl
    | succ n ih =>
      have hpow : 2 ^ (2 * (n + 1)) = 4 * 2 ^ (2 * n) := by rw [Nat.mul_succ, Nat.pow_add, Nat.mul_comm]
      have hrest := ih (x / 4) (by omega)
      have hshift : x >>> 1 / 4 = (x / 4) >>> 1 := shift_div 1 x
      have hhalf : x >>> 1 = x / 2 := Nat.shiftRight_eq_div_pow x 1
      rw [and_mask_succ, and_mask_succ]
      norm_num only
      rw [hshift]
      omega
  rw [pairSums]
  omega

/-- What one addition of the shifted row puts into the two lowest fields. -/
private theorem add_shift_split (w x : ℕ) :
    x + x >>> w = (x % 2 ^ w + x / 2 ^ w % 2 ^ w) + 2 ^ w * (x / 2 ^ w % 2 ^ w + x / 2 ^ (2 * w) % 2 ^ w) +
      2 ^ (2 * w) * (x / 2 ^ (2 * w) + (x / 2 ^ (2 * w)) >>> w) := by
  have hlow := Nat.mod_add_div x (2 ^ w)
  have hmid := Nat.mod_add_div (x / 2 ^ w) (2 ^ w)
  have hhigh := Nat.mod_add_div (x / 2 ^ (2 * w)) (2 ^ w)
  rw [Nat.div_div_eq_div_mul, ← two_pow_double] at hmid
  rw [Nat.shiftRight_eq_div_pow, Nat.shiftRight_eq_div_pow, two_pow_double]
  rw [two_pow_double] at hmid hhigh
  calc x + x / 2 ^ w
      = x % 2 ^ w + 2 ^ w * (x / 2 ^ w) + x / 2 ^ w := by rw [hlow]
    _ = x % 2 ^ w + (2 ^ w + 1) * (x / 2 ^ w % 2 ^ w + 2 ^ w * (x / (2 ^ w * 2 ^ w))) := by
        rw [hmid]
        ring
    _ = x % 2 ^ w + (2 ^ w + 1) * (x / 2 ^ w % 2 ^ w) + 2 ^ w * 2 ^ w * (x / (2 ^ w * 2 ^ w)) +
          2 ^ w * (x / (2 ^ w * 2 ^ w) % 2 ^ w + 2 ^ w * (x / (2 ^ w * 2 ^ w) / 2 ^ w)) := by
        rw [hhigh]
        ring
    _ = _ := by ring

/-- The two fields may be added before the masking when no sum of neighbours leaves its field. -/
theorem add_and_mask {w b x : ℕ} (h : FieldsLe w b x) (hb : 2 * b < 2 ^ w) (n : ℕ) :
    (x + x >>> w) &&& mask w n = pairSums w n x := by
  induction n generalizing x with
  | zero => simp [pairSums, mask]
  | succ n ih =>
    have hrest : FieldsLe w b (x / 2 ^ (2 * w)) := by
      rw [Nat.mul_comm]
      exact h.div 2
    have hpair := h.pair
    have hnext := (h.div 1).pair
    rw [Nat.mul_one, Nat.div_div_eq_div_mul, ← two_pow_double] at hnext
    -- neither of the two lowest sums carries
    have hfit : (x % 2 ^ w + x / 2 ^ w % 2 ^ w) + 2 ^ w * (x / 2 ^ w % 2 ^ w + x / 2 ^ (2 * w) % 2 ^ w) <
        2 ^ (2 * w) := by
      have hmul : 2 ^ w * (x / 2 ^ w % 2 ^ w + x / 2 ^ (2 * w) % 2 ^ w + 1) ≤ 2 ^ w * 2 ^ w :=
        Nat.mul_le_mul_left _ (by omega)
      rw [Nat.mul_succ, ← two_pow_double] at hmul
      omega
    have hdvd : 2 ^ w ∣ 2 ^ (2 * w) := Nat.pow_dvd_pow 2 (by omega)
    rw [and_mask_succ, pairSums_succ, add_shift_split, ← Nat.mod_mod_of_dvd _ hdvd, Nat.add_mul_mod_self_left,
      Nat.mod_mod_of_dvd _ hdvd, Nat.add_mul_mod_self_left, Nat.mod_eq_of_lt (by omega),
      Nat.add_mul_div_left _ _ (Nat.two_pow_pos _), Nat.div_eq_of_lt hfit, Nat.zero_add, ih hrest]

end ParallelSums
