import Mathlib.Data.Finset.Card

/-!
# Compaction of a table

A table is a function of its index, `none` at a hole.  The holes among the indices up to `n` are filled from the
back: an entry at the index `last` moves into a hole `i < last`, and `last` goes down to the next entry.  All moves
together permute the indices (`Compacting.perm`), so no entry is lost or doubled, and only holes are filled
(`Compacting.kept`).  At the end the entries stand before the holes (`Compacting.compacted`), and their number is
what it was (`Compacting.card`).
-/

namespace Compaction

variable {α : Type*} {n : ℕ} {f g : ℕ → Option α} {i last : ℕ}

/-- `last` is the index of the last entry up to `start`, or `0`. -/
structure LastEntry (g : ℕ → Option α) (start last : ℕ) : Prop where
  le : last ≤ start
  entry : last = 0 ∨ g last ≠ none
  holes : ∀ j, last < j → j ≤ start → g j = none

/-- The table `g` is what is left to do of the table `f` from the hole `i` on. -/
structure Compacting (n : ℕ) (f g : ℕ → Option α) (i last : ℕ) : Prop where
  perm : ∃ π : Equiv.Perm ℕ, (∀ j, n < j → π j = j) ∧ ∀ j, g j = f (π j)
  stays : ∀ j, (∀ k ≤ j, f k ≠ none) → g j = f j
  kept : ∀ j, f j ≠ none → g j = f j ∨ last < j ∧ g j = none
  back : LastEntry g n last
  front : ∀ j, j < i → j < last → g j ≠ none

theorem LastEntry.zero (g : ℕ → Option α) : LastEntry g 0 0 :=
  ⟨Nat.le_refl 0, Or.inl rfl, fun j h h' => absurd h (by omega)⟩

theorem LastEntry.here (h : g i ≠ none) : LastEntry g i i :=
  ⟨Nat.le_refl i, Or.inr h, fun j h h' => absurd h (by omega)⟩

theorem LastEntry.down (h : LastEntry g i last) (hnone : g (i + 1) = none) : LastEntry g (i + 1) last := by
  refine ⟨by have := h.le; omega, h.entry, fun j hj hle => ?_⟩
  rcases Nat.lt_or_eq_of_le hle with hlt | rfl
  · exact h.holes j hj (by omega)
  · exact hnone

/-- A permutation that fixes the indices behind `n` keeps those up to `n` among themselves. -/
theorem perm_le_iff {π : Equiv.Perm ℕ} (h : ∀ j, n < j → π j = j) (j : ℕ) : π j ≤ n ↔ j ≤ n := by
  constructor
  · intro hle
    by_contra hlt
    rw [h j (by omega)] at hle
    exact hlt hle
  · intro hle
    by_contra hlt
    have hfix : π j = j := π.injective (h (π j) (by omega))
    omega

namespace Compacting

theorem start (h : LastEntry f n last) : Compacting n f f 0 last :=
  ⟨⟨Equiv.refl ℕ, fun _ _ => rfl, fun _ => rfl⟩, fun _ _ => rfl, fun _ _ => Or.inl rfl, h,
    fun j hj => absurd hj (Nat.not_lt_zero j)⟩

/-- A turn of the loop that finds an entry at `i`, or is past `last`. -/
theorem skip (h : Compacting n f g i last) (hi : i < last → g i ≠ none) : Compacting n f g (i + 1) last := by
  refine ⟨h.perm, h.stays, h.kept, h.back, fun j hj hlast => ?_⟩
  rcases Nat.lt_succ_iff_lt_or_eq.1 hj with hlt | rfl
  · exact h.front j hlt hlast
  · exact hi hlast

/-- Filling a hole exchanges it with the last entry. -/
private theorem update_eq_swap (hnone : g i = none) (hne : i ≠ last) (j : ℕ) :
    Function.update (Function.update g i (g last)) last none j = g (Equiv.swap i last j) := by
  rcases eq_or_ne j last with rfl | hj
  · rw [Function.update_self, Equiv.swap_apply_right, hnone]
  · rw [Function.update_of_ne hj]
    rcases eq_or_ne j i with rfl | hji
    · rw [Function.update_self, Equiv.swap_apply_left]
    · rw [Function.update_of_ne hji, Equiv.swap_apply_of_ne_of_ne hji hj]

/-- A turn of the loop that moves the last entry into the hole `i`. -/
theorem move (h : Compacting n f g i last) (hi : i < last) (hnone : g i = none) {g' : ℕ → Option α}
    (hg' : g' = Function.update (Function.update g i (g last)) last none) {last' : ℕ}
    (hlast' : LastEntry g' last last') : Compacting n f g' (i + 1) last' := by
  have hswap : ∀ j, g' j = g (Equiv.swap i last j) := fun j => by
    rw [hg', update_eq_swap hnone (Nat.ne_of_lt hi)]
  have hle := h.back.le
  have hother : ∀ j, j ≠ i → j ≠ last → g' j = g j := fun j hji hjl => by
    rw [hswap, Equiv.swap_apply_of_ne_of_ne hji hjl]
  obtain ⟨π, hπ, hg⟩ := h.perm
  refine ⟨⟨(Equiv.swap i last).trans π, fun j hj => ?_, fun j => ?_⟩, fun j hj => ?_, fun j hj => ?_,
    ⟨?_, hlast'.entry, ?_⟩, ?_⟩
  · rw [Equiv.trans_apply, Equiv.swap_apply_of_ne_of_ne (by omega) (by omega), hπ j hj]
  · rw [hswap, hg, Equiv.trans_apply]
  · -- the hole `i` lies behind every index of an unbroken beginning
    have hji : j < i := by
      by_contra hge
      have hstay := h.stays i fun k hk => hj k (by omega)
      exact hj i (by omega) (by rw [← hstay, hnone])
    rw [hother j (by omega) (by omega), h.stays j hj]
  · have hlastle := hlast'.le
    have hgone : g' last = none := by rw [hswap, Equiv.swap_apply_right, hnone]
    rcases eq_or_ne j last with rfl | hjl
    · -- the entry that moves away is not the last one any more
      refine Or.inr ⟨Nat.lt_of_le_of_ne hlastle fun heq => ?_, hgone⟩
      rcases hlast'.entry with h0 | hentry
      · omega
      · exact hentry (heq ▸ hgone)
    · have hji : j ≠ i := by
        rintro rfl
        rcases h.kept j hj with hsame | ⟨hlt, -⟩
        · exact hj (hsame.symm.trans hnone)
        · omega
      rw [hother j hji hjl]
      rcases h.kept j hj with hsame | ⟨hlt, hg⟩
      · exact Or.inl hsame
      · exact Or.inr ⟨by omega, hg⟩
  · have := hlast'.le
    omega
  · intro j hj hjn
    rcases Nat.lt_or_ge last j with hlt | hge
    · rw [hother j (by omega) (by omega)]
      exact h.back.holes j hlt hjn
    · exact hlast'.holes j hj hge
  · intro j hj hjl
    have hjlast : j < last := Nat.lt_of_lt_of_le hjl hlast'.le
    rcases Nat.lt_succ_iff_lt_or_eq.1 hj with hlt | rfl
    · rw [hother j (by omega) (by omega)]
      exact h.front j hlt hjlast
    · rw [hswap, Equiv.swap_apply_left]
      exact h.back.entry.resolve_left (by omega)

/-- After the last turn the entries are the ones up to `last`. -/
theorem compacted (h : Compacting n f g n last) (hzero : f 0 ≠ none) (j : ℕ) (hj : j ≤ n) :
    g j ≠ none ↔ j ≤ last := by
  constructor
  · intro hentry
    by_contra hlt
    exact hentry (h.back.holes j (by omega) hj)
  · intro hle
    rcases Nat.lt_or_eq_of_le hle with hlt | rfl
    · exact h.front j (Nat.lt_of_lt_of_le hlt h.back.le) hlt
    · rcases h.back.entry with rfl | hentry
      · rw [h.stays 0 fun k hk => by rwa [Nat.le_zero.1 hk]]
        exact hzero
      · exact hentry

/-- No entry is lost: after the last turn there are as many as before. -/
theorem card [DecidableEq α] (h : Compacting n f g n last) (hzero : f 0 ≠ none) :
    ((Finset.range (n + 1)).filter fun j => f j ≠ none).card = last + 1 := by
  obtain ⟨π, hπ, hg⟩ := h.perm
  have hcard : (Finset.range (last + 1)).card = ((Finset.range (n + 1)).filter fun j => f j ≠ none).card := by
    refine Finset.card_equiv π fun j => ?_
    rw [Finset.mem_range, Finset.mem_filter, Finset.mem_range, Nat.lt_succ_iff, Nat.lt_succ_iff, perm_le_iff hπ, ← hg]
    constructor
    · intro hle
      have hjn := Nat.le_trans hle h.back.le
      exact ⟨hjn, (h.compacted hzero j hjn).2 hle⟩
    · rintro ⟨hjn, hentry⟩
      exact (h.compacted hzero j hjn).1 hentry
  rw [← hcard, Finset.card_range]

end Compacting

end Compaction
