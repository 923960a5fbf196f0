import Mathlib.Logic.Function.Basic
import Mathlib.Order.Nat

/-!
# Open addressing

A table maps positions to slots; a slot is empty, holds a removed mark, or holds a key with its value.  Every key
is searched along its own path of positions.  A table is well formed when every live key is met on its path before
any empty slot, and no key is live twice (`WellFormed`).  The lemmas say what the three writes of an
open-addressing map do to the bindings of a well-formed table: a new key in a free slot of its path
(`WellFormed.place`), a new value for a live key (`WellFormed.overwrite`), a removed mark over a live key
(`WellFormed.erase`); and what a search that stops tells about its key (`not_binds_of_passed`).
-/

namespace OpenAddressing

/-- What a position of the table holds. -/
inductive Slot (K V : Type*) where
  | empty
  | removed
  | live (key : K) (value : V)

/-- The positions a key is searched in, in order.  The first `steps` positions of a path are all of them. -/
structure Probing (K P : Type*) where
  path : K → ℕ → P
  steps : ℕ
  exhaustive : ∀ k i, ∃ j < steps, path k j = path k i

section Tables

variable {K V P : Type*} (pr : Probing K P)

/-- No slot before step `i` of the path of `k` is empty. -/
def Unbroken (T : P → Slot K V) (k : K) (i : ℕ) : Prop := ∀ j < i, T (pr.path k j) ≠ .empty

/-- A search for `k` goes on past the first `i` steps of its path: no empty slot, and `k` is not there. -/
def Passed (T : P → Slot K V) (k : K) (i : ℕ) : Prop :=
  ∀ j < i, T (pr.path k j) ≠ .empty ∧ ∀ v, T (pr.path k j) ≠ .live k v

/-- Every live key is reachable along its path, and no key is live twice. -/
structure WellFormed (T : P → Slot K V) : Prop where
  chained : ∀ {p k v}, T p = .live k v → ∃ i < pr.steps, pr.path k i = p ∧ Unbroken pr T k i
  distinct : ∀ {p q k v w}, T p = .live k v → T q = .live k w → p = q

/-- Some slot of the table holds `k` with the value `v`. -/
def Binds (T : P → Slot K V) (k : K) (v : V) : Prop := ∃ p, T p = .live k v

/-- The bindings of the table are those of the partial map `m`. -/
def Denotes (T : P → Slot K V) (m : K → Option V) : Prop := ∀ k v, Binds T k v ↔ m k = some v

variable {pr}

theorem Passed.unbroken {T : P → Slot K V} {k : K} {i : ℕ} (h : Passed pr T k i) : Unbroken pr T k i :=
  fun j hj => (h j hj).1

theorem Passed.succ {T : P → Slot K V} {k : K} {i : ℕ} (h : Passed pr T k i)
    (he : T (pr.path k i) ≠ .empty) (hk : ∀ v, T (pr.path k i) ≠ .live k v) : Passed pr T k (i + 1) := by
  intro j hj
  rcases Nat.lt_succ_iff_lt_or_eq.1 hj with hj | rfl
  · exact h j hj
  · exact ⟨he, hk⟩

theorem passed_zero {T : P → Slot K V} {k : K} : Passed pr T k 0 := fun j hj => absurd hj (Nat.not_lt_zero j)

theorem wellFormed_empty : WellFormed pr (fun _ => Slot.empty : P → Slot K V) :=
  ⟨fun h => (nomatch h), fun h => (nomatch h)⟩

theorem denotes_empty : Denotes (fun _ => Slot.empty : P → Slot K V) fun _ => none :=
  fun _ _ => ⟨fun ⟨_, h⟩ => (nomatch h), fun h => (nomatch h)⟩

/-- A search that passed `i` slots and stands on an empty one, or that passed the whole path, has missed nothing. -/
theorem WellFormed.not_binds_of_passed {T : P → Slot K V} (hT : WellFormed pr T) {k : K} {i : ℕ}
    (hp : Passed pr T k i) (hi : T (pr.path k i) = .empty ∨ pr.steps ≤ i) (v : V) : ¬ Binds T k v := by
  rintro ⟨p, hlive⟩
  obtain ⟨j, hj, rfl, hun⟩ := hT.chained hlive
  rcases Nat.lt_trichotomy j i with h | h | h
  · exact (hp j h).2 v hlive
  · subst h
    rcases hi with hi | hi
    · rw [hi] at hlive; cases hlive
    · omega
  · rcases hi with hi | hi
    · exact hun i h hi
    · omega

theorem Denotes.eq_none {T : P → Slot K V} {m : K → Option V} (h : Denotes T m) {k : K}
    (hk : ∀ v, ¬ Binds T k v) : m k = none := by
  cases hm : m k with
  | none => rfl
  | some v => exact absurd ((h k v).2 hm) (hk v)

theorem Denotes.eq_some {T : P → Slot K V} {m : K → Option V} (h : Denotes T m) {k : K} {p : P} {v : V}
    (hp : T p = .live k v) : m k = some v := (h k v).1 ⟨p, hp⟩

/-- A table denotes one map only. -/
theorem Denotes.unique {T : P → Slot K V} {m m' : K → Option V} (h : Denotes T m) (h' : Denotes T m') :
    m = m' := by
  funext k
  apply Option.ext
  intro v
  rw [← h k v, ← h' k v]

/-- A well-formed table denotes some map. -/
theorem WellFormed.exists_denotes {T : P → Slot K V} (hT : WellFormed pr T) : ∃ m, Denotes T m := by
  classical
  refine ⟨fun k => if hk : ∃ v, Binds T k v then some hk.choose else none, fun k v => ?_⟩
  dsimp only
  split
  · rename_i hk
    obtain ⟨p, hp⟩ := hk.choose_spec
    constructor
    · rintro ⟨q, hq⟩
      obtain rfl := hT.distinct hp hq
      rw [hp] at hq
      cases hq
      rfl
    · rintro hv
      obtain rfl := Option.some.inj hv
      exact ⟨p, hp⟩
  · rename_i hk
    exact ⟨fun hv => absurd ⟨v, hv⟩ hk, fun hv => nomatch hv⟩

/-! ### Writing one slot -/

/-- The first step of a path that reaches a position reaches it within the bound of the path. -/
private theorem exists_first_step {T : P → Slot K V} {k : K} {i : ℕ} (h : Unbroken pr T k i) :
    ∃ j < pr.steps, pr.path k j = pr.path k i ∧ Unbroken pr T k j := by
  obtain ⟨j, hj, hji⟩ := pr.exhaustive k i
  by_cases hle : j ≤ i
  · exact ⟨j, hj, hji, fun l hl => h l (by omega)⟩
  · exact ⟨i, by omega, rfl, h⟩

/-- The slot of a live key holds no other one. -/
private theorem live_ne {T : P → Slot K V} {p : P} {k k' : K} {v : V} (hp : T p = .live k v) (hk : k' ≠ k) (v' : V) :
    T p ≠ .live k' v' := by
  rw [hp]
  exact fun hs => hk (Slot.live.inj hs).1.symm

variable [DecidableEq P]

private theorem unbroken_update {T : P → Slot K V} {p : P} {s : Slot K V} (hs : s ≠ .empty) {k : K} {i : ℕ}
    (h : Unbroken pr T k i) : Unbroken pr (Function.update T p s) k i := by
  intro j hj
  by_cases hq : pr.path k j = p
  · rw [hq, Function.update_self]; exact hs
  · rw [Function.update_of_ne hq]; exact h j hj

/-- A live slot after a key was written is the written one, or was live before. -/
private theorem live_of_written {T : P → Slot K V} {p q : P} {k k' : K} {v v' : V}
    (h : Function.update T p (.live k v) q = .live k' v') :
    q = p ∧ k' = k ∧ v' = v ∨ q ≠ p ∧ T q = .live k' v' := by
  by_cases hqp : q = p
  · subst hqp
    rw [Function.update_self] at h
    cases h
    exact Or.inl ⟨rfl, rfl, rfl⟩
  · rw [Function.update_of_ne hqp] at h
    exact Or.inr ⟨hqp, h⟩

/-- A write keeps the bindings of a key that is neither written over nor written. -/
private theorem binds_update_iff {T : P → Slot K V} {p : P} {s : Slot K V} {k : K} (hold : ∀ v, T p ≠ .live k v)
    (hnew : ∀ v, s ≠ .live k v) (v : V) : Binds (Function.update T p s) k v ↔ Binds T k v := by
  constructor
  · rintro ⟨q, hq⟩
    have hqp : q ≠ p := by
      rintro rfl
      rw [Function.update_self] at hq
      exact hnew v hq
    exact ⟨q, by rw [← hq, Function.update_of_ne hqp]⟩
  · rintro ⟨q, hq⟩
    have hqp : q ≠ p := by
      rintro rfl
      exact hold v hq
    exact ⟨q, by rw [Function.update_of_ne hqp, hq]⟩

/-- Storing a new key on its path, before any empty slot of it. -/
theorem WellFormed.place {T : P → Slot K V} (hT : WellFormed pr T) {k : K} {i : ℕ} (hun : Unbroken pr T k i)
    (hnew : ∀ v, ¬ Binds T k v) (v : V) :
    WellFormed pr (Function.update T (pr.path k i) (.live k v)) where
  chained := by
    intro q k' v' hq
    rcases live_of_written hq with ⟨rfl, rfl, -⟩ | ⟨-, hq⟩
    · obtain ⟨j, hj, hji, hunj⟩ := exists_first_step hun
      exact ⟨j, hj, hji, unbroken_update (by simp) hunj⟩
    · obtain ⟨j, hj, hji, hunj⟩ := hT.chained hq
      exact ⟨j, hj, hji, unbroken_update (by simp) hunj⟩
  distinct := by
    intro q r k' v' w' hq hr
    rcases live_of_written hq with ⟨hqp, hk, -⟩ | ⟨-, hq'⟩ <;> rcases live_of_written hr with ⟨hrp, hk', -⟩ | ⟨-, hr'⟩
    · rw [hqp, hrp]
    · exact absurd ⟨r, hk ▸ hr'⟩ (hnew w')
    · exact absurd ⟨q, hk' ▸ hq'⟩ (hnew v')
    · exact hT.distinct hq' hr'

/-- Writing a slot that held no live key adds one binding. -/
theorem Denotes.place [DecidableEq K] {T : P → Slot K V} {m : K → Option V} (h : Denotes T m) {p : P} {k : K}
    (hfree : ∀ k' v, T p ≠ .live k' v) (hnew : m k = none) (v : V) :
    Denotes (Function.update T p (.live k v)) (Function.update m k (some v)) := by
  intro k' v'
  by_cases hk : k' = k
  · subst hk
    rw [Function.update_self]
    constructor
    · rintro ⟨q, hq⟩
      rcases live_of_written hq with ⟨-, -, rfl⟩ | ⟨-, hq⟩
      · rfl
      · have hm := h.eq_some hq
        rw [hnew] at hm
        cases hm
    · intro hv
      cases hv
      exact ⟨p, Function.update_self ..⟩
  · rw [Function.update_of_ne hk, ← h k' v']
    exact binds_update_iff (hfree k') (fun _ hs => hk (Slot.live.inj hs).1.symm) v'

/-- Giving a live key another value. -/
theorem WellFormed.overwrite {T : P → Slot K V} (hT : WellFormed pr T) {p : P} {k : K} {v : V}
    (hp : T p = .live k v) (w : V) : WellFormed pr (Function.update T p (.live k w)) := by
  have live_of {q : P} {k' : K} {u : V} (h : Function.update T p (.live k w) q = .live k' u) :
      ∃ u', T q = .live k' u' := by
    rcases live_of_written h with ⟨rfl, rfl, -⟩ | ⟨-, hq⟩
    · exact ⟨v, hp⟩
    · exact ⟨u, hq⟩
  constructor
  case chained =>
    intro q k' v' hq
    obtain ⟨v'', hlive⟩ := live_of hq
    obtain ⟨j, hj, hji, hunj⟩ := hT.chained hlive
    exact ⟨j, hj, hji, unbroken_update (by simp) hunj⟩
  case distinct =>
    intro q r k' v' w' hq hr
    obtain ⟨_, hq'⟩ := live_of hq
    obtain ⟨_, hr'⟩ := live_of hr
    exact hT.distinct hq' hr'

theorem WellFormed.denotes_overwrite [DecidableEq K] {T : P → Slot K V} (hT : WellFormed pr T)
    {m : K → Option V} (h : Denotes T m) {p : P} {k : K} {v : V} (hp : T p = .live k v) (w : V) :
    Denotes (Function.update T p (.live k w)) (Function.update m k (some w)) := by
  intro k' v'
  by_cases hk : k' = k
  · subst hk
    rw [Function.update_self]
    constructor
    · rintro ⟨q, hq⟩
      rcases live_of_written hq with ⟨-, -, rfl⟩ | ⟨hqp, hq⟩
      · rfl
      · exact absurd (hT.distinct hq hp) hqp
    · intro hw
      cases hw
      exact ⟨p, Function.update_self ..⟩
  · rw [Function.update_of_ne hk, ← h k' v']
    exact binds_update_iff (live_ne hp hk) (fun _ hs => hk (Slot.live.inj hs).1.symm) v'

private theorem live_of_erased {T : P → Slot K V} {p q : P} {k : K} {v : V}
    (h : Function.update T p .removed q = .live k v) : q ≠ p ∧ T q = .live k v := by
  have hqp : q ≠ p := by
    rintro rfl
    rw [Function.update_self] at h
    cases h
  rw [Function.update_of_ne hqp] at h
  exact ⟨hqp, h⟩

/-- Leaving a removed mark cuts no chain. -/
theorem WellFormed.erase {T : P → Slot K V} (hT : WellFormed pr T) (p : P) :
    WellFormed pr (Function.update T p .removed) where
  chained := by
    intro q k v hq
    obtain ⟨j, hj, hji, hunj⟩ := hT.chained (live_of_erased hq).2
    exact ⟨j, hj, hji, unbroken_update (by simp) hunj⟩
  distinct := fun hq hr => hT.distinct (live_of_erased hq).2 (live_of_erased hr).2

theorem WellFormed.denotes_erase [DecidableEq K] {T : P → Slot K V} (hT : WellFormed pr T) {m : K → Option V}
    (h : Denotes T m) {p : P} {k : K} {v : V} (hp : T p = .live k v) :
    Denotes (Function.update T p .removed) (Function.update m k none) := by
  intro k' v'
  by_cases hk : k' = k
  · subst hk
    rw [Function.update_self]
    constructor
    · rintro ⟨q, hq⟩
      obtain ⟨hqp, hq⟩ := live_of_erased hq
      exact absurd (hT.distinct hq hp) hqp
    · exact nofun
  · rw [Function.update_of_ne hk, ← h k' v']
    exact binds_update_iff (s := .removed) (live_ne hp hk) nofun v'

end Tables

end OpenAddressing
