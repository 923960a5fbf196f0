import Mathlib.Data.List.Basic

/-!
# Queues over time

A queue to which each turn appends, or from which it takes the first entry.  When no turn leaves a queue waiting for
ever, each entry is taken some time (`taken`).  Something that makes a bounded measure grow until it holds, holds some
time (`eventually_of_measure`).
-/

namespace Fifo

variable {α : Type*} {q : ℕ → List α} {n : ℕ} {x : α}

/-- The turn after `n` takes the first entry. -/
def Takes (q : ℕ → List α) (n : ℕ) (x : α) : Prop := q n = x :: q (n + 1)

/-- Each turn appends entries or takes the first one, and an entry that waits is followed by a turn that takes one. -/
structure Fair (q : ℕ → List α) : Prop where
  turn : ∀ n, (∃ new, q (n + 1) = q n ++ new) ∨ ∃ x, Takes q n x
  served : ∀ n, q n ≠ [] → ∃ j, n ≤ j ∧ ∃ x, Takes q j x

/-- The first entry is the next one that is taken; those behind it stay in their order. -/
private theorem head_taken (h : Fair q) {l : List α} (hq : q n = x :: l) :
    ∃ j, n ≤ j ∧ Takes q j x ∧ ∃ new, q (j + 1) = l ++ new := by
  obtain ⟨j, hj, y, hy⟩ := h.served n (by rw [hq]; exact List.cons_ne_nil x l)
  induction hd : j - n generalizing n l with
  | zero =>
    obtain rfl : n = j := by omega
    obtain ⟨rfl, hrest⟩ := List.cons.inj (hq.symm.trans hy)
    exact ⟨n, Nat.le_refl n, hy, [], by rw [← hrest, List.append_nil]⟩
  | succ k ih =>
    rcases h.turn n with ⟨new, hnew⟩ | ⟨z, hz⟩
    · rw [hq, List.cons_append] at hnew
      obtain ⟨i, hi, htakes, new', hnew'⟩ := ih hnew (by omega) (by omega)
      exact ⟨i, by omega, htakes, new ++ new', by rw [hnew', List.append_assoc]⟩
    · obtain ⟨rfl, hrest⟩ := List.cons.inj (hq.symm.trans hz)
      exact ⟨n, Nat.le_refl n, hz, [], by rw [← hrest, List.append_nil]⟩

theorem taken (h : Fair q) (hx : x ∈ q n) : ∃ j, n ≤ j ∧ Takes q j x := by
  obtain ⟨before, behind, hq⟩ := List.append_of_mem hx
  clear hx
  induction before generalizing n behind with
  | nil =>
    obtain ⟨j, hj, htakes, -⟩ := head_taken h hq
    exact ⟨j, hj, htakes⟩
  | cons y before ih =>
    rw [List.cons_append] at hq
    obtain ⟨j, hj, -, new, hnew⟩ := head_taken h hq
    obtain ⟨i, hi, htakes⟩ := ih (behind ++ new) (by rw [hnew, List.append_assoc, List.cons_append])
    exact ⟨i, by omega, htakes⟩

/-- A queue that is empty later is served until then. -/
theorem served_of_empty (hturn : ∀ n, (∃ new, q (n + 1) = q n ++ new) ∨ ∃ x, Takes q n x) {last : ℕ}
    (hempty : ∀ i, last ≤ i → q i = []) (hn : q n ≠ []) : ∃ j, n ≤ j ∧ ∃ x, Takes q j x := by
  induction hd : last - n generalizing n with
  | zero => exact absurd (hempty n (by omega)) hn
  | succ k ih =>
    rcases hturn n with ⟨new, hnew⟩ | htakes
    · have hne : q (n + 1) ≠ [] := by
        rw [hnew]
        exact List.append_ne_nil_of_left_ne_nil hn new
      obtain ⟨j, hj, htakes⟩ := ih hne (by omega)
      exact ⟨j, by omega, htakes⟩
    · exact ⟨n, Nat.le_refl n, htakes⟩

/-- A property that holds some time, because until then a bounded measure grows again and again. -/
theorem eventually_of_measure {P : ℕ → Prop} {measure : ℕ → ℕ} {bound : ℕ} (hle : ∀ n, measure n ≤ bound)
    (hgrows : ∀ n, ¬ P n → ∃ j, n ≤ j ∧ measure n < measure j) (n : ℕ) : ∃ j, n ≤ j ∧ P j := by
  induction hd : bound - measure n using Nat.strongRecOn generalizing n with
  | _ k ih =>
    by_cases hn : P n
    · exact ⟨n, Nat.le_refl n, hn⟩
    · obtain ⟨j, hj, hlt⟩ := hgrows n hn
      have hbound := hle j
      obtain ⟨i, hi, hPi⟩ := ih (bound - measure j) (by omega) j rfl
      exact ⟨i, by omega, hPi⟩

end Fifo
