import Mathlib.Data.List.Basic

/-!
# Texts with a cursor

A text with a cursor as the part before and the part behind the cursor, and what the keys of an editor do to it.  The
length of the text is limited.  A text is kept in an array as the elements from one index up to another (`slice`).
-/

/-- The part before the cursor and the part behind it. -/
@[ext] structure TextCursor (α : Type*) where
  before : List α
  behind : List α
deriving DecidableEq

namespace TextCursor

variable {α : Type*}

inductive Edit (α : Type*)
  | insert (a : α)
  | backspace
  | delete
  | left
  | right
  | clear

def text (t : TextCursor α) : List α := t.before ++ t.behind

def empty : TextCursor α := ⟨[], []⟩

/-- What a key does to a text that may have `limit` elements. -/
def edit (limit : ℕ) (t : TextCursor α) : Edit α → TextCursor α
  | .insert a => if t.text.length < limit then ⟨t.before ++ [a], t.behind⟩ else t
  | .backspace => ⟨t.before.dropLast, t.behind⟩
  | .delete => ⟨t.before, t.behind.tail⟩
  | .left =>
    match t.before.getLast? with
    | none => t
    | some a => ⟨t.before.dropLast, a :: t.behind⟩
  | .right =>
    match t.behind with
    | [] => t
    | a :: rest => ⟨t.before ++ [a], rest⟩
  | .clear => empty

/-! ### Texts in arrays -/

/-- The elements from the index `a` up to the index `b`. -/
def slice (l : List α) (a b : ℕ) : List α := (l.take b).drop a

variable {l l' : List α} {a b : ℕ}

theorem getElem?_slice (l : List α) (a b i : ℕ) : (slice l a b)[i]? = if a + i < b then l[a + i]? else none := by
  rw [slice, List.getElem?_drop, List.getElem?_take]

theorem slice_eq_nil (h : b ≤ a) : slice l a b = [] := by
  apply List.ext_getElem?
  intro i
  rw [getElem?_slice, if_neg (by omega), List.getElem?_nil]

theorem length_slice (h : b ≤ l.length) : (slice l a b).length = b - a := by
  rw [slice, List.length_drop, List.length_take, Nat.min_eq_left h]

/-- Slices of the same length with the same elements. -/
theorem slice_congr {a' b' : ℕ} (hlen : ∀ i, a' + i < b' ↔ a + i < b)
    (h : ∀ i, a + i < b → l'[a' + i]? = l[a + i]?) : slice l' a' b' = slice l a b := by
  apply List.ext_getElem?
  intro i
  rw [getElem?_slice, getElem?_slice]
  by_cases hi : a + i < b
  · rw [if_pos hi, if_pos ((hlen i).2 hi), h i hi]
  · rw [if_neg hi, if_neg (mt (hlen i).1 hi)]

theorem slice_succ {x : α} (hab : a ≤ b) (hx : l[b]? = some x) : slice l a (b + 1) = slice l a b ++ [x] := by
  have hb : b < l.length := (List.getElem?_eq_some_iff.1 hx).1
  rw [slice, List.take_add_one, hx, Option.toList_some, List.drop_append_of_le_length, slice]
  rw [List.length_take]
  omega

theorem slice_cons {x : α} (hab : a < b) (hx : l[a]? = some x) : slice l a b = x :: slice l (a + 1) b := by
  apply List.ext_getElem?
  intro i
  cases i with
  | zero => rw [getElem?_slice, Nat.add_zero, if_pos hab, hx, List.getElem?_cons_zero]
  | succ i =>
    rw [List.getElem?_cons_succ, getElem?_slice, getElem?_slice, show a + 1 + i = a + (i + 1) by omega]

end TextCursor
