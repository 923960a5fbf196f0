import Mathlib.Data.List.Basic

/-!
# Tables of slots

A table is a list of slots, some of them free.  `takenCount` is the number of the others.  An allocator that takes
the first free slot finds one exactly when the table is not full (`findIdx?_eq_none_iff`), and every slot before it
is taken, so that its index is at most the number of taken slots (`index_le_takenCount`).
-/

namespace Slots

variable {α : Type*} (free : α → Bool)

/-- The number of the slots that are not free. -/
def takenCount (slots : List α) : ℕ := slots.countP fun a => !free a

variable {free}

theorem takenCount_append (slots new : List α) :
    takenCount free (slots ++ new) = takenCount free slots + takenCount free new := List.countP_append

theorem takenCount_eq_zero {slots : List α} (h : ∀ a ∈ slots, free a = true) : takenCount free slots = 0 := by
  refine List.countP_eq_zero.2 fun a ha => ?_
  rw [h a ha]
  exact Bool.false_ne_true

/-- Writing a slot. -/
theorem takenCount_set (free : α → Bool) {slots : List α} {i : ℕ} {a : α} (ha : slots[i]? = some a) (b : α) :
    takenCount free (slots.set i b) + (if free a then 0 else 1) =
      takenCount free slots + if free b then 0 else 1 := by
  induction slots generalizing i with
  | nil => cases ha
  | cons c slots ih =>
    cases i with
    | zero =>
      obtain rfl : c = a := Option.some.inj ha
      simp only [List.set_cons_zero, takenCount, List.countP_cons]
      cases free c <;> cases free b <;> simp
    | succ i =>
      have hrest := ih ha
      simp only [List.set_cons_succ, takenCount, List.countP_cons] at hrest ⊢
      omega

theorem findIdx?_eq_none_iff {slots : List α} :
    slots.findIdx? free = none ↔ takenCount free slots = slots.length := by
  rw [List.findIdx?_eq_none_iff, takenCount, List.countP_eq_length]
  exact forall₂_congr fun a _ => by cases free a <;> simp

/-- The slots before the first free one are taken. -/
theorem index_le_takenCount {slots : List α} {i : ℕ} (h : slots.findIdx? free = some i) :
    i ≤ takenCount free slots := by
  induction slots generalizing i with
  | nil => cases h
  | cons a slots ih =>
    rw [List.findIdx?_cons] at h
    cases ha : free a with
    | true =>
      rw [if_pos ha] at h
      obtain rfl := Option.some.inj h
      exact Nat.zero_le _
    | false =>
      rw [if_neg (by rw [ha]; exact Bool.false_ne_true)] at h
      obtain ⟨j, hj, rfl⟩ := Option.map_eq_some_iff.1 h
      have hle := ih hj
      simp only [takenCount, List.countP_cons, ha] at hle ⊢
      simpa using hle

/-- The first free slot. -/
theorem getElem?_of_findIdx? {slots : List α} {i : ℕ} (h : slots.findIdx? free = some i) :
    ∃ a, slots[i]? = some a ∧ free a = true := by
  obtain ⟨hlt, hfree, -⟩ := List.findIdx?_eq_some_iff_getElem.1 h
  exact ⟨slots[i], List.getElem?_eq_getElem hlt, hfree⟩

end Slots
