import Mathlib.Data.List.Basic

/-!
# Computations that may fail

Rules for computations that end with an error.  A computation `Avoids` the errors of some kind when it ends with none
of them; it may come back, or end with another error.
-/

namespace Faults

universe u v

variable {ε : Type u} {α β : Type v} {bad : ε → Prop} {e : ε}

/-- The computation does not end with a bad error. -/
def Avoids (bad : ε → Prop) (x : Except ε α) : Prop := ∀ e, x = .error e → ¬ bad e

/-- An answer, or the error `e` when there is none. -/
def orFail (e : ε) : Option α → Except ε α
  | some a => .ok a
  | none => .error e

theorem avoids_ok (bad : ε → Prop) (a : α) : Avoids bad (.ok a : Except ε α) := fun _ h => by cases h

theorem ok_bind (a : α) (f : α → Except ε β) : (.ok a >>= f : Except ε β) = f a := rfl

theorem bind_eq_ok {x : Except ε α} {f : α → Except ε β} {b : β} :
    (x >>= f) = .ok b ↔ ∃ a, x = .ok a ∧ f a = .ok b := by
  cases x with
  | error e => exact ⟨fun h => (by cases h), fun ⟨_, h, _⟩ => by cases h⟩
  | ok a => exact ⟨fun h => ⟨a, rfl, h⟩, fun ⟨_, h, hb⟩ => by cases h; exact hb⟩

theorem avoids_bind {x : Except ε α} {f : α → Except ε β} :
    Avoids bad (x >>= f) ↔ Avoids bad x ∧ ∀ a, x = .ok a → Avoids bad (f a) := by
  cases x with
  | error e =>
    refine ⟨fun h => ⟨fun e' he => h e' (by cases he; rfl), fun a ha => by cases ha⟩, fun h e' he => ?_⟩
    exact h.1 e' (by cases he; rfl)
  | ok a => exact ⟨fun h => ⟨avoids_ok bad a, fun _ ha => by cases ha; exact h⟩, fun h => h.2 a rfl⟩

theorem orFail_some (e : ε) (a : α) : orFail e (some a) = .ok a := rfl

theorem orFail_eq_ok {o : Option α} {a : α} : orFail e o = .ok a ↔ o = some a := by
  cases o with
  | none => exact ⟨fun h => (by cases h), fun h => by cases h⟩
  | some b => exact ⟨fun h => (by cases h; rfl), fun h => by cases h; rfl⟩

theorem avoids_orFail (he : bad e) {o : Option α} : Avoids bad (orFail e o) ↔ o ≠ none := by
  cases o with
  | none => exact ⟨fun h => absurd he (h e rfl), fun h => absurd rfl h⟩
  | some a => exact ⟨fun _ => Option.some_ne_none a, fun _ => avoids_ok bad a⟩

/-- What fails badly without an answer has one. -/
theorem avoids_orFail_bind (he : bad e) {o : Option α} {f : α → Except ε β} :
    Avoids bad (orFail e o >>= f) ↔ ∃ a, o = some a ∧ Avoids bad (f a) := by
  rw [avoids_bind, avoids_orFail he]
  constructor
  · rintro ⟨hne, hall⟩
    obtain ⟨a, rfl⟩ := Option.ne_none_iff_exists'.1 hne
    exact ⟨a, rfl, hall a rfl⟩
  · rintro ⟨a, rfl, ha⟩
    exact ⟨Option.some_ne_none a, fun _ h => by cases h; exact ha⟩

/-- What fails in another way may have no answer. -/
theorem avoids_orFail_bind_of_not (he : ¬ bad e) {o : Option α} {f : α → Except ε β} :
    Avoids bad (orFail e o >>= f) ↔ ∀ a, o = some a → Avoids bad (f a) := by
  rw [avoids_bind]
  constructor
  · rintro ⟨-, hall⟩ a rfl
    exact hall a rfl
  · refine fun hall => ⟨fun e' h => ?_, fun a ha => hall a (orFail_eq_ok.1 ha)⟩
    cases o with
    | none =>
      cases h
      exact he
    | some a => cases h

/-! ### Without the errors -/

theorem toOption_eq_some {x : Except ε α} {a : α} : x.toOption = some a ↔ x = .ok a := by
  cases x with
  | error e => exact ⟨fun h => (by cases h), fun h => by cases h⟩
  | ok b => exact ⟨fun h => (by cases h; rfl), fun h => by cases h; rfl⟩

theorem toOption_orFail (o : Option α) : (orFail e o).toOption = o := by cases o <;> rfl

theorem toOption_bind (x : Except ε α) (f : α → Except ε β) :
    (x >>= f).toOption = x.toOption.bind fun a => (f a).toOption := by cases x <;> rfl

/-! ### Lists -/

/-- A check of each element of a list. -/
def checkAll (check : α → Except ε Unit) : List α → Except ε Unit
  | [] => .ok ()
  | a :: L => check a >>= fun _ => checkAll check L

theorem checkAll_eq_ok {check : α → Except ε Unit} {L : List α} (h : ∀ a ∈ L, check a = .ok ()) :
    checkAll check L = .ok () := by
  induction L with
  | nil => rfl
  | cons a L ih =>
    rw [checkAll, h a List.mem_cons_self]
    exact ih fun b hb => h b (List.mem_cons_of_mem _ hb)

/-! ### Loops over lists -/

section Loops

variable {σ : Type v} {f : σ → α → Except ε σ} {L : List α}

theorem avoids_foldlM (inv : σ → Prop) (hturn : ∀ s, inv s → ∀ a ∈ L, Avoids bad (f s a))
    (hkept : ∀ s, inv s → ∀ a ∈ L, ∀ s', f s a = .ok s' → inv s') {s : σ} (hs : inv s) :
    Avoids bad (L.foldlM f s) := by
  induction L generalizing s with
  | nil => exact avoids_ok bad s
  | cons a L ih =>
    rw [List.foldlM_cons, avoids_bind]
    refine ⟨hturn s hs a List.mem_cons_self, fun s' hs' => ?_⟩
    exact ih (fun t ht b hb => hturn t ht b (List.mem_cons_of_mem a hb))
      (fun t ht b hb => hkept t ht b (List.mem_cons_of_mem a hb)) (hkept s hs a List.mem_cons_self s' hs')

/-- A loop that only fails badly, and does not, gets to every element of its list. -/
theorem avoids_foldlM_mem (inv : σ → Prop)
    (hturn : ∀ s, inv s → ∀ a ∈ L, Avoids bad (f s a) → ∃ s', f s a = .ok s' ∧ inv s') {s : σ} (hs : inv s)
    (h : Avoids bad (L.foldlM f s)) : ∀ a ∈ L, ∃ s, inv s ∧ Avoids bad (f s a) := by
  induction L generalizing s with
  | nil => exact nofun
  | cons a L ih =>
    rw [List.foldlM_cons, avoids_bind] at h
    obtain ⟨s', hs', hinv⟩ := hturn s hs a List.mem_cons_self h.1
    intro b hb
    rcases List.mem_cons.1 hb with rfl | hb
    · exact ⟨s, hs, h.1⟩
    · exact ih (fun t ht c hc => hturn t ht c (List.mem_cons_of_mem a hc)) hinv (h.2 s' hs') b hb

theorem toOption_foldlM (f : σ → α → Except ε σ) (L : List α) (s : σ) :
    (L.foldlM f s).toOption = L.foldlM (fun s a => (f s a).toOption) s := by
  induction L generalizing s with
  | nil => rfl
  | cons a L ih =>
    rw [List.foldlM_cons, List.foldlM_cons, toOption_bind, Option.bind_eq_bind]
    exact Option.bind_congr fun s' _ => ih s'

end Loops

end Faults
