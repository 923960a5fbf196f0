import Mathlib.Data.List.SplitLengths
import Mathlib.Algebra.Ring.Nat

/-!
# Blocks of a stream

A stream is sent as blocks of one size and arrives as chunks that are no longer than a block.  The chunks are the
blocks as soon as there are as many of them (`length_eq_of_count_eq`, `eq_of_length_eq`).
-/

namespace Blocks

variable {α : Type*}

/-- Splitting at the lengths of the pieces gives the pieces back. -/
theorem splitLengths_map_length (pieces : List (List α)) :
    (pieces.map List.length).splitLengths pieces.flatten = pieces := by
  induction pieces with
  | nil => rfl
  | cons p pieces ih =>
    rw [List.map_cons, List.splitLengths_cons, List.flatten_cons, List.take_left, List.drop_left, ih]

private theorem sum_length_le {chunks : List (List α)} {n : ℕ} (hle : ∀ c ∈ chunks, c.length ≤ n) :
    (chunks.map List.length).sum ≤ chunks.length * n := by
  induction chunks with
  | nil => exact Nat.zero_le _
  | cons d chunks ih =>
    rw [List.forall_mem_cons] at hle
    rw [List.map_cons, List.sum_cons, List.length_cons, Nat.succ_mul, Nat.add_comm]
    exact Nat.add_le_add (ih hle.2) hle.1

/-- Chunks of at most `n` elements that reach the total of as many blocks of `n` all have `n` elements. -/
theorem length_eq_of_sum_eq {chunks : List (List α)} {n : ℕ} (hle : ∀ c ∈ chunks, c.length ≤ n)
    (hsum : (chunks.map List.length).sum = chunks.length * n) : ∀ c ∈ chunks, c.length = n := by
  induction chunks with
  | nil => exact fun _ hc => absurd hc List.not_mem_nil
  | cons d chunks ih =>
    rw [List.forall_mem_cons] at hle
    have hrest := sum_length_le hle.2
    have hone : d.length ≤ n := hle.1
    simp only [List.map_cons, List.sum_cons, List.length_cons, Nat.succ_mul] at hsum
    rw [List.forall_mem_cons]
    exact ⟨by omega, ih hle.2 (by omega)⟩

variable {blocks chunks : List (List α)} {n : ℕ}

private theorem map_length_eq {pieces : List (List α)} (h : ∀ p ∈ pieces, p.length = n) :
    pieces.map List.length = List.replicate pieces.length n :=
  List.eq_replicate_iff.2 ⟨List.length_map _, by simpa using h⟩

theorem eq_of_length_eq (hblocks : ∀ b ∈ blocks, b.length = n) (hchunks : ∀ c ∈ chunks, c.length = n) (hn : 0 < n)
    (hstream : chunks.flatten = blocks.flatten) : chunks = blocks := by
  refine (List.eq_iff_flatten_eq).2 ⟨hstream, ?_⟩
  have hlength := congrArg List.length hstream
  rw [List.length_flatten, List.length_flatten, map_length_eq hblocks, map_length_eq hchunks, List.sum_replicate_nat,
    List.sum_replicate_nat] at hlength
  rw [map_length_eq hblocks, map_length_eq hchunks, Nat.eq_of_mul_eq_mul_right hn hlength]

theorem length_eq_of_count_eq (hblocks : ∀ b ∈ blocks, b.length = n) (hle : ∀ c ∈ chunks, c.length ≤ n)
    (hstream : chunks.flatten = blocks.flatten) (hcount : chunks.length = blocks.length) :
    ∀ c ∈ chunks, c.length = n := by
  refine length_eq_of_sum_eq hle ?_
  rw [← List.length_flatten, hstream, List.length_flatten, map_length_eq hblocks, List.sum_replicate_nat, hcount]

end Blocks
