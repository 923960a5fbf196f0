import Mathlib.Data.List.Range
import Mathlib.Order.Bounds.Basic

/-!
# Counted loops

Rules for a loop `for (i = 0; i < n; i++)` over a state: an invariant that holds before the first turn and is kept by
every turn holds after the last one.  A turn may fail: `foldlM_range` shows by the invariant that none does,
`foldlM_range_of_some` assumes that none did, and so does `foldlM_of_some` for a loop over a list.  `written` is the
array of a loop that writes one entry a turn, `foldl_isLeast` what a loop that keeps the smallest value ends with.
`Ends` is about a loop that goes on until a turn is the last one, `scan` is a loop over a list with a break.
-/

namespace Loop

variable {σ : Type*}

theorem foldl_range {f : σ → ℕ → σ} (inv : ℕ → σ → Prop) {n : ℕ} {s : σ} (h0 : inv 0 s)
    (hstep : ∀ i < n, ∀ s, inv i s → inv (i + 1) (f s i)) : inv n ((List.range n).foldl f s) := by
  induction n with
  | zero => exact h0
  | succ n ih =>
    rw [List.range_succ, List.foldl_append]
    exact hstep n (Nat.lt_succ_self n) _ (ih fun i hi => hstep i (Nat.lt_succ_of_lt hi))

theorem foldlM_range {f : σ → ℕ → Option σ} (inv : ℕ → σ → Prop) {n : ℕ} {s : σ} (h0 : inv 0 s)
    (hstep : ∀ i < n, ∀ s, inv i s → ∃ s', f s i = some s' ∧ inv (i + 1) s') :
    ∃ s', (List.range n).foldlM f s = some s' ∧ inv n s' := by
  induction n with
  | zero => exact ⟨s, rfl, h0⟩
  | succ n ih =>
    obtain ⟨s₁, hs₁, hinv₁⟩ := ih fun i hi => hstep i (Nat.lt_succ_of_lt hi)
    obtain ⟨s₂, hs₂, hinv₂⟩ := hstep n (Nat.lt_succ_self n) s₁ hinv₁
    refine ⟨s₂, ?_, hinv₂⟩
    rw [List.range_succ, List.foldlM_append, hs₁]
    simp [hs₂]

theorem foldlM_range_of_some {f : σ → ℕ → Option σ} (inv : ℕ → σ → Prop) {n : ℕ} {s s' : σ}
    (hrun : (List.range n).foldlM f s = some s') (h0 : inv 0 s)
    (hstep : ∀ i < n, ∀ s s', inv i s → f s i = some s' → inv (i + 1) s') : inv n s' := by
  induction n generalizing s' with
  | zero =>
    cases hrun
    exact h0
  | succ n ih =>
    rw [List.range_succ, List.foldlM_append] at hrun
    obtain ⟨s₁, hs₁, hlast⟩ := Option.bind_eq_some_iff.1 hrun
    have hinv := ih hs₁ fun i hi => hstep i (Nat.lt_succ_of_lt hi)
    exact hstep n (Nat.lt_succ_self n) s₁ s' hinv (by simpa using hlast)

/-- A loop over a list whose turns all came back. -/
theorem foldlM_of_some {α : Type*} {f : σ → α → Option σ} (inv : σ → Prop)
    (hstep : ∀ a s s', inv s → f s a = some s' → inv s') (L : List α) :
    ∀ {s s' : σ}, inv s → L.foldlM f s = some s' → inv s' := by
  induction L with
  | nil =>
    intro s s' h0 hrun
    cases hrun
    exact h0
  | cons a L ih =>
    intro s s' h0 hrun
    rw [List.foldlM_cons] at hrun
    obtain ⟨s₁, hs₁, hrest⟩ := Option.bind_eq_some_iff.1 hrun
    exact ih (hstep a s s₁ h0 hs₁) hrest

theorem foldlM_congr {α : Type*} {f g : σ → α → Option σ} {L : List α} (h : ∀ a ∈ L, ∀ s, f s a = g s a) (s : σ) :
    L.foldlM f s = L.foldlM g s := by
  induction L generalizing s with
  | nil => rfl
  | cons a L ih =>
    simp only [List.foldlM_cons, h a List.mem_cons_self, ih fun b hb => h b (List.mem_cons_of_mem a hb)]

theorem foldlM_range_succ {f : σ → ℕ → Option σ} {n : ℕ} {s s₁ : σ} (hrun : (List.range n).foldlM f s = some s₁) :
    (List.range (n + 1)).foldlM f s = f s₁ n := by
  rw [List.range_succ, List.foldlM_append, hrun]
  simp

/-- A loop that keeps the smallest value it meets, from `d` on. -/
theorem foldl_isLeast {α : Type*} (f : α → ℕ) (L : List α) (d : ℕ) :
    IsLeast (insert d {x | ∃ a ∈ L, f a = x}) (L.foldl (fun d a => if f a < d then f a else d) d) := by
  induction L generalizing d with
  | nil => exact ⟨Or.inl rfl, fun x hx => hx.elim (fun h => h.ge) fun ⟨a, ha, _⟩ => nomatch ha⟩
  | cons a L ih =>
    have hmin : (if f a < d then f a else d) ≤ d ∧ (if f a < d then f a else d) ≤ f a ∧
        ((if f a < d then f a else d) = f a ∨ (if f a < d then f a else d) = d) := by split <;> omega
    obtain ⟨hmem, hleast⟩ := ih (if f a < d then f a else d)
    rw [List.foldl_cons]
    constructor
    · rcases hmem with hfirst | ⟨b, hb, hlater⟩
      · rw [hfirst]
        rcases hmin.2.2 with h | h
        · exact Or.inr ⟨a, List.mem_cons_self, h.symm⟩
        · exact Or.inl h
      · exact Or.inr ⟨b, List.mem_cons_of_mem a hb, hlater⟩
    · have hstart := hleast (Or.inl rfl)
      rintro x (rfl | ⟨b, hb, rfl⟩)
      · exact hstart.trans hmin.1
      · rcases List.mem_cons.1 hb with rfl | hb
        · exact hstart.trans hmin.2.1
        · exact hleast (Or.inr ⟨b, hb, rfl⟩)

/-! ### Loops until a last turn -/

/-- The loop of the turns `turn`, each of which tells whether it is the last one. -/
def turns (turn : σ → σ × Bool) : ℕ → σ → Option σ
  | 0, _ => none
  | fuel + 1, s => if (turn s).2 then some (turn s).1 else turns turn fuel (turn s).1

/-- The loop comes back from the state `s` with the state `s'`. -/
def Ends (turn : σ → σ × Bool) (s s' : σ) : Prop := ∃ fuel, turns turn fuel s = some s'

theorem ends_last {turn : σ → σ × Bool} {s t s' : σ} (h : turn s = (t, true)) : Ends turn s s' ↔ s' = t := by
  constructor
  · rintro ⟨fuel, hrun⟩
    cases fuel with
    | zero => cases hrun
    | succ fuel =>
      rw [turns, h, if_pos rfl] at hrun
      exact (Option.some.inj hrun).symm
  · rintro rfl
    exact ⟨1, by rw [turns, h, if_pos rfl]⟩

theorem ends_next {turn : σ → σ × Bool} {s t s' : σ} (h : turn s = (t, false)) :
    Ends turn s s' ↔ Ends turn t s' := by
  constructor
  · rintro ⟨fuel, hrun⟩
    cases fuel with
    | zero => cases hrun
    | succ fuel =>
      rw [turns, h, if_neg Bool.false_ne_true] at hrun
      exact ⟨fuel, hrun⟩
  · rintro ⟨fuel, hrun⟩
    exact ⟨fuel + 1, by rwa [turns, h, if_neg Bool.false_ne_true]⟩

/-- A loop that only gets from states of a kind to states of this kind goes on for ever. -/
theorem turns_eq_none {turn : σ → σ × Bool} (inv : σ → Prop)
    (hstep : ∀ s, inv s → (turn s).2 = false ∧ inv (turn s).1) (fuel : ℕ) {s : σ} (hs : inv s) :
    turns turn fuel s = none := by
  induction fuel generalizing s with
  | zero => rfl
  | succ fuel ih =>
    obtain ⟨hnext, hinv⟩ := hstep s hs
    rw [turns, hnext, if_neg Bool.false_ne_true]
    exact ih hinv

/-- A loop whose turns lower a measure ends. -/
theorem turns_returns {turn : σ → σ × Bool} (inv : σ → Prop) (μ : σ → ℕ)
    (hstep : ∀ s, inv s → (turn s).2 = true ∨ inv (turn s).1 ∧ μ (turn s).1 < μ s) (fuel : ℕ) {s : σ} (hs : inv s)
    (hfuel : μ s < fuel) : ∃ s', turns turn fuel s = some s' := by
  induction fuel generalizing s with
  | zero => exact absurd hfuel (Nat.not_lt_zero _)
  | succ fuel ih =>
    rw [turns]
    rcases hstep s hs with hlast | ⟨hinv, hless⟩
    · exact ⟨_, if_pos hlast⟩
    · split
      · exact ⟨_, rfl⟩
      · exact ih hinv (by omega)

/-- A loop that repeats one turn for ever. -/
theorem not_ends_of_stuck {turn : σ → σ × Bool} {s s' : σ} (h : turn s = (s, false)) : ¬ Ends turn s s' := by
  rintro ⟨fuel, hrun⟩
  have hnone : turns turn fuel s = none := by
    refine turns_eq_none (· = s) ?_ fuel rfl
    rintro t rfl
    rw [h]
    exact ⟨rfl, rfl⟩
  rw [hnone] at hrun
  cases hrun

/-! ### Loops with a break -/

section Scan

variable {α : Type*} {f : σ → α → Option σ} {q : σ → Bool} {g : σ → α → σ}

/-- A loop over a list that is left after the first turn with `q`: the last state, and the element of that turn. -/
def scan (f : σ → α → Option σ) (q : σ → Bool) : List α → σ → Option (σ × Option α)
  | [], s => some (s, none)
  | a :: L, s => (f s a).bind fun s' => if q s' then some (s', some a) else scan f q L s'

theorem scan_append (L₁ L₂ : List α) (s : σ) :
    scan f q (L₁ ++ L₂) s =
      (scan f q L₁ s).bind fun r => if r.2.isSome then some r else scan f q L₂ r.1 := by
  induction L₁ generalizing s with
  | nil => rfl
  | cons a L₁ ih =>
    rw [List.cons_append, scan, scan]
    cases f s a with
    | none => rfl
    | some s' =>
      rw [Option.bind_some, Option.bind_some]
      by_cases hstop : q s' = true
      · rw [if_pos hstop, if_pos hstop]
        rfl
      · rw [if_neg hstop, if_neg hstop, ih]

/-- A loop stops at an element of the list or at none. -/
theorem scan_mem {L : List α} {s : σ} {r : σ × Option α} (h : scan f q L s = some r) {a : α} (ha : r.2 = some a) :
    a ∈ L := by
  induction L generalizing s with
  | nil =>
    cases h
    cases ha
  | cons b L ih =>
    rw [scan] at h
    obtain ⟨s', -, hrest⟩ := Option.bind_eq_some_iff.1 h
    split at hrest
    · cases hrest
      cases ha
      exact List.mem_cons_self
    · exact List.mem_cons_of_mem b (ih hrest)

/-- A loop with turns that do not fail stops at an element of the list or at none. -/
theorem scan_returns {L : List α} (hturn : ∀ a ∈ L, ∀ s, f s a = some (g s a)) (s : σ) :
    ∃ r, scan f q L s = some r ∧ ∀ a, r.2 = some a → a ∈ L := by
  have hreturns : ∃ r, scan f q L s = some r := by
    induction L generalizing s with
    | nil => exact ⟨(s, none), rfl⟩
    | cons a L ih =>
      rw [scan, hturn a List.mem_cons_self, Option.bind_some]
      split
      · exact ⟨_, rfl⟩
      · exact ih (fun b hb => hturn b (List.mem_cons_of_mem a hb)) (g s a)
  obtain ⟨r, hr⟩ := hreturns
  exact ⟨r, hr, fun a ha => scan_mem hr ha⟩

theorem foldl_stop (hpersists : ∀ s a, q s = true → q (g s a) = true) {L : List α} {s : σ}
    (h : q s = true) : q (L.foldl g s) = true := by
  induction L generalizing s with
  | nil => exact h
  | cons a L ih => exact ih (hpersists s a h)

/-- A loop with turns that do not fail, and states that have `q` from some turn on: it stops in the list exactly
when the state after the whole list has `q`. -/
theorem scan_spec (hpersists : ∀ s a, q s = true → q (g s a) = true) {L : List α} {s : σ}
    (hturn : ∀ a ∈ L, ∀ s, f s a = some (g s a)) (h0 : q s = false) :
    if q (L.foldl g s) = true then ∃ s', ∃ a ∈ L, scan f q L s = some (s', some a)
    else scan f q L s = some (L.foldl g s, none) := by
  induction L generalizing s with
  | nil => rw [List.foldl_nil, if_neg (by rw [h0]; exact Bool.false_ne_true), scan]
  | cons a L ih =>
    rw [List.foldl_cons, scan, hturn a List.mem_cons_self, Option.bind_some]
    by_cases hstop : q (g s a) = true
    · rw [if_pos (foldl_stop hpersists hstop), if_pos hstop]
      exact ⟨_, a, List.mem_cons_self, rfl⟩
    · rw [if_neg hstop]
      have hrest := ih (fun b hb => hturn b (List.mem_cons_of_mem a hb)) (Bool.eq_false_iff.2 hstop)
      split
      · rename_i hend
        rw [if_pos hend] at hrest
        obtain ⟨s', b, hb, hscan⟩ := hrest
        exact ⟨s', b, List.mem_cons_of_mem a hb, hscan⟩
      · rename_i hend
        rwa [if_neg hend] at hrest

/-- Only a loop without turns goes through a list after which its state has `q`. -/
theorem scan_stops (hpersists : ∀ s a, q s = true → q (g s a) = true) {L : List α} {s : σ}
    (hturn : ∀ a ∈ L, ∀ s, f s a = some (g s a)) (hne : L ≠ []) (hstop : q (L.foldl g s) = true) :
    ∃ s', ∃ a ∈ L, scan f q L s = some (s', some a) := by
  cases L with
  | nil => exact absurd rfl hne
  | cons a L =>
    rw [scan, hturn a List.mem_cons_self, Option.bind_some]
    by_cases hfirst : q (g s a) = true
    · rw [if_pos hfirst]
      exact ⟨_, a, List.mem_cons_self, rfl⟩
    · rw [if_neg hfirst]
      have hrest := scan_spec hpersists (fun b hb => hturn b (List.mem_cons_of_mem a hb)) (Bool.eq_false_iff.2 hfirst)
      rw [List.foldl_cons] at hstop
      rw [if_pos hstop] at hrest
      obtain ⟨s', b, hb, hscan⟩ := hrest
      exact ⟨s', b, List.mem_cons_of_mem a hb, hscan⟩

end Scan

/-! ### Arrays written from left to right -/

variable {α : Type*} {n : ℕ}

/-- The array `a` after its first `k` entries were replaced by those of `f`. -/
def written (f : Fin n → α) (a : Vector α n) (k : ℕ) : Vector α n :=
  Vector.ofFn fun j => if j.val < k then f j else a.get j

theorem getElem_written (f : Fin n → α) (a : Vector α n) (k : ℕ) {j : ℕ} (hj : j < n) :
    (written f a k)[j] = if j < k then f ⟨j, hj⟩ else a[j] := by
  simp [written, Vector.get]

theorem written_zero (f : Fin n → α) (a : Vector α n) : written f a 0 = a := by
  apply Vector.ext
  intro j hj
  rw [getElem_written, if_neg (Nat.not_lt_zero j)]

theorem written_set (f : Fin n → α) (a : Vector α n) {k : ℕ} (hk : k < n) :
    (written f a k).set k (f ⟨k, hk⟩) hk = written f a (k + 1) := by
  apply Vector.ext
  intro j hj
  rw [Vector.getElem_set, getElem_written, getElem_written]
  by_cases hkj : k = j
  · subst hkj
    rw [if_pos rfl, if_pos (Nat.lt_succ_self k)]
  · rw [if_neg hkj]
    by_cases hlt : j < k
    · rw [if_pos hlt, if_pos (by omega)]
    · rw [if_neg hlt, if_neg (by omega)]

end Loop
