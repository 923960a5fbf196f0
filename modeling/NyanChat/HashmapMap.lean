import NyanChat.HashmapSpec

/-!
# The hash map as a finite map

A run of hash map calls is compared with the same run on a finite map (`BehavesUnder`).  `hashmap_insert` reads the
home slot of its key before it grows the table and probes the grown table from what it read (`insertFrom`), so the
comparison holds for the runs in which those two values are still right after the growth (`Fits`).
-/

namespace NyanChat

open OpenAddressing

/-! ### Calls -/

inductive HashmapCall where
  | insert (key : Key) (value : UInt32)
  | increase (key : Key) (incr : UInt32)
  | get (key : Key)
  | find (key : Key)
  | remove (key : Key)

/-- What a call returns. -/
inductive HashmapAnswer where
  | int (r : Int)
  | uint (v : UInt32)
  | void

namespace HashmapCall

def key : HashmapCall → Key
  | insert k _ | increase k _ | get k | find k | remove k => k

def exec (fuel : ℕ) (h : Hashmap) : HashmapCall → Option (Hashmap × HashmapAnswer)
  | insert k v => (hashmapInsert fuel h k v).map fun r => (r.1, .int r.2)
  | increase k d => (hashmapIncrease fuel h k d).map fun h => (h, .void)
  | get k => some (h, .uint (hashmapGet h k))
  | find k => some (h, .int (hashmapFind h k))
  | remove k => (hashmapRemove fuel h k).map fun r => (r.1, .uint r.2)

/-- The call returns `a` and leaves the table `h'`. -/
def Returns (c : HashmapCall) (h : Hashmap) (a : HashmapAnswer) (h' : Hashmap) : Prop :=
  ∃ fuel, c.exec fuel h = some (h', a)

/-! ### The finite map -/

/-- The finite map after the call. -/
def after (m : Key → Option UInt32) : HashmapCall → Key → Option UInt32
  | insert k v => if (m k).isSome then m else Function.update m k (some v)
  | increase k d => Function.update m k (some (match m k with
    | some v => v + d
    | none => d))
  | get _ | find _ => m
  | remove k => Function.update m k none

/-- What the finite map says about the answer of the call. -/
def Answers (m : Key → Option UInt32) : HashmapCall → HashmapAnswer → Prop
  | insert k _, .int r => r = if (m k).isSome then 0 else 1
  | increase _ _, .void => True
  | get k, .uint v => v = (m k).getD 0
  | find k, .int r => r ≠ -1 ↔ (m k).isSome
  | remove k, .uint v => v = (m k).getD 0
  | _, _ => False

end HashmapCall

/-- Every run of the calls from `h` answers as the finite map `m` does, as far as its calls return and `guard`
allows each of them in the table it is made on. -/
def BehavesUnder (guard : Hashmap → HashmapCall → Prop) :
    Hashmap → (Key → Option UInt32) → List HashmapCall → Prop
  | _, _, [] => True
  | h, m, c :: cs => guard h c → ∀ a h', c.Returns h a h' →
      c.Answers m a ∧ BehavesUnder guard h' (c.after m) cs

/-! ### Stale reads -/

/-- What `hashmap_insert` reads before a growth is still right after it: the table does not grow, or the home slot
holds the key itself, or the home slot of the key has the same position and the same key in the grown table. -/
def Fits (h : Hashmap) (key : Key) : Prop :=
  h.loadTooHigh = false ∨ (h.item (hash key h.size)).key = some key ∨
    (hash key (2 * h.size) = hash key h.size ∧
      ∀ fuel h', hashmapResize fuel h (2 * h.size) = some (.table h') →
        (h'.item (hash key h.size)).key = (h.item (hash key h.size)).key)

/-- Only an insertion grows the table; an increase inserts when the key is not found. -/
def HashmapCall.Safe (h : Hashmap) : HashmapCall → Prop
  | insert k _ => Fits h k
  | increase k _ => hashmapFind h k = -1 → Fits h k
  | get _ | find _ | remove _ => True

instance : DecidablePred ValidKey := fun k => inferInstanceAs (Decidable (k.length ≤ KEY_MAXLEN ∧ k ≠ TOMBSTONE))

/-! ### The operations on a table that denotes a map -/

theorem powerSize_double {size : UInt32} (hs : PowerSize size) (hpos : 0 < (2 * size).toNat) :
    PowerSize (2 * size) ∧ (2 * size).toNat = 2 * size.toNat := by
  obtain ⟨k, hk, hs⟩ := hs
  have hmul : (2 * size).toNat = 2 * size.toNat % 2 ^ 32 := UInt32.toNat_mul 2 size
  rw [hs, ← Nat.pow_succ'] at hmul
  by_cases hk' : k + 1 < 32
  · rw [Nat.mod_eq_of_lt (Nat.pow_lt_pow_right (by decide) hk')] at hmul
    exact ⟨⟨k + 1, hk', hmul⟩, by rw [hmul, hs, Nat.pow_succ']⟩
  · obtain rfl : k = 31 := by omega
    rw [hmul] at hpos
    exact absurd hpos (by decide)

theorem powerSize_half {size : UInt32} (hs : PowerSize size) (h2 : 2 < size.toNat) :
    PowerSize (size / 2) ∧ 2 * (size / 2).toNat = size.toNat := by
  obtain ⟨k, hk, hs⟩ := hs
  have hdiv : (size / 2).toNat = size.toNat / 2 := UInt32.toNat_div size 2
  rcases k with _ | k
  · omega
  · rw [hs, Nat.pow_succ, Nat.mul_div_cancel _ (by decide)] at hdiv
    exact ⟨⟨k, by omega, hdiv⟩, by rw [hdiv, hs, Nat.pow_succ']⟩

/-- `hashmap_insert` when its reads fit: it binds an absent key and answers zero for a bound one. -/
theorem hashmapInsert_spec {h h' : Hashmap} (hs : h.Sound) {m : Key → Option UInt32} (hm : Denotes h.slot m)
    {key : Key} (hk : ValidKey key) (hfits : Fits h key) {fuel : ℕ} {value : UInt32} {r : Int}
    (hr : hashmapInsert fuel h key value = some (h', r)) :
    (r = 1 ∧ m key = none ∧ h'.Sound ∧ Denotes h'.slot (Function.update m key (some value))) ∨
      (r = 0 ∧ (∃ v, m key = some v) ∧ h'.Sound ∧ Denotes h'.slot m) := by
  rcases fuel with _ | fuel
  · cases hr
  by_cases hhigh : h.loadTooHigh = true
  · rw [hashmapInsert, if_neg (by have := hk.1; omega), if_pos hhigh] at hr
    cases hgrow : (resizeWith (hashmapInsert fuel) h (2 * h.size)).bind Resized.toTable with
    | none => rw [hgrow] at hr; cases hr
    | some h₁ =>
      rw [hgrow] at hr
      have hres := bind_toTable.1 hgrow
      have hpos := pos_of_resizeWith hres
      obtain ⟨hpow, hdouble⟩ := powerSize_double hs.power hpos
      obtain ⟨hs₁, hsize, -, hm₁, -⟩ :=
        hashmapResize_spec hs hm hpow (by have := h.liveCount_le; omega) hres
      rcases hfits with hlow | hself | ⟨hindex, hkey⟩
      · rw [hhigh] at hlow; cases hlow
      · -- the key is met in the slot that was read: the grown table is not probed
        rw [hself] at hr
        rcases fuel with _ | fuel
        · cases hr
        · have hsame : sameKey key key = true := (sameKey_iff hk.1 hk.1).2 rfl
          simp only [insertFrom, insertLoop, hsame, if_true, Option.some_inj, Prod.mk.injEq] at hr
          obtain ⟨rfl, rfl⟩ := hr
          exact Or.inr ⟨rfl, ⟨_, hm.eq_some ((hs.sameKey_item hk hself).1 hsame)⟩, hs₁, hm₁⟩
      · rw [← hkey fuel h₁ hres, ← hindex, ← hsize] at hr
        rcases insertFrom_cases hs₁ hm₁ hk hr with ⟨h1, hnone, hs', hm', -⟩ | ⟨h0, hsome, rfl⟩
        · exact Or.inl ⟨h1, hnone, hs', hm'⟩
        · exact Or.inr ⟨h0, hsome, hs₁, hm₁⟩
  · rw [hashmapInsert_low hk (by simpa using hhigh)] at hr
    rcases insertFrom_cases hs hm hk hr with ⟨h1, hnone, hs', hm', -⟩ | ⟨h0, hsome, rfl⟩
    · exact Or.inl ⟨h1, hnone, hs', hm'⟩
    · exact Or.inr ⟨h0, hsome, hs, hm⟩

/-- A live item is replaced, and the count with it. -/
private theorem replace_spec {h : Hashmap} (hs : h.Sound) {p : ℕ} {key : Key} {v : UInt32}
    (hp : h.slot p = .live key v) (it : Item) (hshort : ∀ k w, it.slot = .live k w → k.length ≤ KEY_MAXLEN)
    (htable : WellFormed (probing h.size hs.power) (Function.update h.slot p it.slot)) {count : UInt32}
    (hcount : count.toNat + 1 = h.liveCount + if it.isLive then 1 else 0) :
    ((h.setItem (UInt32.ofNat p) it).setCount count).Sound ∧
      ((h.setItem (UInt32.ofNat p) it).setCount count).slot = Function.update h.slot p it.slot := by
  obtain ⟨hpos, hitem⟩ := item_of_live hs hp
  have hlt : (UInt32.ofNat p).toNat < h.size.toNat := hpos.symm ▸ hs.slot_lt hp
  have hlive : (⟨some key, v⟩ : Item).isLive = true := by
    rw [Item.isLive, Item.slot_live.2 ⟨rfl, (Item.slot_live.1 hp).2⟩]
  have hslot : ((h.setItem (UInt32.ofNat p) it).setCount count).slot = Function.update h.slot p it.slot := by
    rw [Hashmap.setCount_slot, h.slot_setItem hlt, hpos]
  refine ⟨⟨hs.power, ?_, ?_, ?_⟩, hslot⟩
  · rw [hslot]
    exact htable
  · intro q k w hq
    rw [hslot] at hq
    by_cases hqp : q = p
    · subst hqp
      rw [Function.update_self] at hq
      exact hshort k w hq
    · rw [Function.update_of_ne hqp] at hq
      exact hs.short hq
  · have hpositive := hs.liveCount_pos hp
    rw [Hashmap.setCount_count, Hashmap.setCount_liveCount, h.liveCount_setItem hlt, hitem, hlive, if_pos rfl]
    omega

/-- `h->items[i].value += incr` -/
private theorem overwrite_spec {h : Hashmap} (hs : h.Sound) {m : Key → Option UInt32} (hm : Denotes h.slot m)
    {p : ℕ} {key : Key} {v : UInt32} (hp : h.slot p = .live key v) (w : UInt32) :
    (h.setItem (UInt32.ofNat p) ⟨some key, w⟩).Sound ∧
      Denotes (h.setItem (UInt32.ofNat p) ⟨some key, w⟩).slot (Function.update m key (some w)) := by
  have hlive : (⟨some key, w⟩ : Item).slot = .live key w := Item.slot_live.2 ⟨rfl, (Item.slot_live.1 hp).2⟩
  have hcount : h.count.toNat + 1 = h.liveCount + if (⟨some key, w⟩ : Item).isLive then 1 else 0 := by
    rw [Item.isLive, hlive, hs.count_eq]
    rfl
  have hshort : ∀ k x, (⟨some key, w⟩ : Item).slot = .live k x → k.length ≤ KEY_MAXLEN := by
    intro k x hx
    rw [hlive] at hx
    cases hx
    exact hs.short hp
  obtain ⟨hsound, hslot⟩ :=
    replace_spec hs hp ⟨some key, w⟩ hshort (by rw [hlive]; exact hs.table.overwrite hp w) hcount
  rw [Hashmap.setCount_slot, hlive] at hslot
  refine ⟨hsound, ?_⟩
  rw [hslot]
  exact hs.table.denotes_overwrite hm hp w

/-- The mark that `hashmap_remove` leaves, before the table shrinks. -/
theorem mark_spec {h : Hashmap} (hs : h.Sound) {m : Key → Option UInt32} (hm : Denotes h.slot m) {p : ℕ}
    {key : Key} {v : UInt32} (hp : h.slot p = .live key v) :
    ((h.setItem (UInt32.ofNat p) ⟨some TOMBSTONE, 0⟩).setCount (h.count - 1)).Sound ∧
      Denotes ((h.setItem (UInt32.ofNat p) ⟨some TOMBSTONE, 0⟩).setCount (h.count - 1)).slot
        (Function.update m key none) ∧
      (h.count - 1).toNat + 1 = h.liveCount := by
  have hmark : (⟨some TOMBSTONE, 0⟩ : Item).slot = .removed := Item.slot_removed.2 rfl
  have hcount : (h.count - 1).toNat + 1 = h.liveCount := by
    have hpositive := hs.liveCount_pos hp
    have hone : (1 : UInt32) ≤ h.count := by
      rw [UInt32.le_iff_toNat_le, hs.count_eq]
      exact hpositive
    rw [UInt32.toNat_sub_of_le _ _ hone, hs.count_eq]
    exact Nat.sub_add_cancel hpositive
  have hshort : ∀ k x, (⟨some TOMBSTONE, 0⟩ : Item).slot = .live k x → k.length ≤ KEY_MAXLEN := by
    intro k x hx
    rw [hmark] at hx
    cases hx
  obtain ⟨hsound, hslot⟩ :=
    replace_spec hs hp ⟨some TOMBSTONE, 0⟩ hshort (by rw [hmark]; exact hs.table.erase p)
      (by rw [Item.isLive, hmark]; exact hcount)
  refine ⟨hsound, ?_, hcount⟩
  rw [hslot, hmark]
  exact hs.table.denotes_erase hm hp

/-- `hashmap_remove` answers the bound value and unbinds the key, also when the table shrinks; without the key it
answers zero and leaves the table. -/
theorem hashmapRemove_cases {h h' : Hashmap} (hs : h.Sound) {m : Key → Option UInt32} (hm : Denotes h.slot m)
    {key : Key} (hk : ValidKey key) {fuel : ℕ} {v : UInt32} (hr : hashmapRemove fuel h key = some (h', v)) :
    (m key = some v ∧ h'.Sound ∧ Denotes h'.slot (Function.update m key none) ∧ h'.liveCount + 1 = h.liveCount) ∨
      (m key = none ∧ v = 0 ∧ h' = h) := by
  unfold hashmapRemove at hr
  rcases hashmapFind_eq hs hm hk with ⟨p, w, hp, hlive, hw⟩ | ⟨h1, hno⟩
  · rw [hp, if_neg (by omega)] at hr
    simp only [Int.toNat_natCast, (item_of_live hs hlive).2] at hr
    obtain ⟨hs₁, hm₁, hcount₁⟩ := mark_spec hs hm hlive
    rw [← Hashmap.setCount_count (h.setItem (UInt32.ofNat p) ⟨some TOMBSTONE, 0⟩) (h.count - 1), hs₁.count_eq]
      at hcount₁
    by_cases hlow : ((h.setItem (UInt32.ofNat p) ⟨some TOMBSTONE, 0⟩).setCount (h.count - 1)).loadTooLow = true
    · rw [if_pos (by simpa using hlow), Option.map_eq_some_iff] at hr
      obtain ⟨h₂, hshrunk, heq⟩ := hr
      cases heq
      have hres := bind_toTable.1 hshrunk
      rw [Hashmap.loadTooLow, Bool.and_eq_true, decide_eq_true_eq, decide_eq_true_eq, hs₁.count_eq] at hlow
      obtain ⟨hpow, hhalf⟩ := powerSize_half hs₁.power (UInt32.lt_iff_toNat_lt.1 hlow.1)
      obtain ⟨hs₂, -, hcount₂, hm₂, -⟩ := hashmapResize_spec hs₁ hm₁ hpow (by omega) hres
      exact Or.inl ⟨hw, hs₂, hm₂, by rw [hcount₂]; exact hcount₁⟩
    · rw [if_neg (by simpa using hlow)] at hr
      cases hr
      exact Or.inl ⟨hw, hs₁, hm₁, hcount₁⟩
  · rw [h1, if_pos (by decide)] at hr
    cases hr
    exact Or.inr ⟨hno, rfl, rfl⟩

/-- The table after `hashmap_remove` denotes the map without the key. -/
theorem hashmapRemove_spec {h h' : Hashmap} (hs : h.Sound) {m : Key → Option UInt32} (hm : Denotes h.slot m)
    {key : Key} (hk : ValidKey key) {fuel : ℕ} {v : UInt32} (hr : hashmapRemove fuel h key = some (h', v)) :
    v = (m key).getD 0 ∧ h'.Sound ∧ Denotes h'.slot (Function.update m key none) := by
  rcases hashmapRemove_cases hs hm hk hr with ⟨hv, hs', hm', -⟩ | ⟨hno, rfl, rfl⟩
  · exact ⟨by rw [hv]; rfl, hs', hm'⟩
  · exact ⟨by rw [hno]; rfl, hs, by rw [Function.update_eq_self_iff.2 hno.symm]; exact hm⟩

/-- `hashmap_increase` adds to a bound value and binds an absent key. -/
theorem hashmapIncrease_spec {h h' : Hashmap} (hs : h.Sound) {m : Key → Option UInt32} (hm : Denotes h.slot m)
    {key : Key} (hk : ValidKey key) (hfits : hashmapFind h key = -1 → Fits h key) {fuel : ℕ} {d : UInt32}
    (hr : hashmapIncrease fuel h key d = some h') :
    h'.Sound ∧ Denotes h'.slot ((HashmapCall.increase key d).after m) := by
  unfold hashmapIncrease at hr
  rcases hashmapFind_eq hs hm hk with ⟨p, w, hp, hlive, hw⟩ | ⟨h1, hno⟩
  · rw [hp, if_neg (by omega)] at hr
    simp only [Int.toNat_natCast, (item_of_live hs hlive).2, Option.some_inj] at hr
    subst hr
    simp only [HashmapCall.after, hw]
    exact overwrite_spec hs hm hlive (w + d)
  · rw [h1, if_pos (by decide), Option.map_eq_some_iff] at hr
    obtain ⟨⟨h₂, r⟩, hr, rfl⟩ := hr
    simp only [HashmapCall.after, hno]
    rcases hashmapInsert_spec hs hm hk (hfits h1) hr with ⟨-, -, hs', hm'⟩ | ⟨-, ⟨w, hw⟩, -⟩
    · exact ⟨hs', hm'⟩
    · rw [hno] at hw; cases hw

/-- One call: the table denotes the finite map after the call, and the answer is the one of the finite map. -/
theorem HashmapCall.exec_spec {h h' : Hashmap} (hs : h.Sound) {m : Key → Option UInt32} (hm : Denotes h.slot m)
    {c : HashmapCall} (hk : ValidKey c.key) (hsafe : c.Safe h) {a : HashmapAnswer} (hr : c.Returns h a h') :
    c.Answers m a ∧ h'.Sound ∧ Denotes h'.slot (c.after m) := by
  obtain ⟨fuel, hr⟩ := hr
  cases c with
  | insert k v =>
    simp only [exec, Option.map_eq_some_iff] at hr
    obtain ⟨⟨h₁, r⟩, hr, heq⟩ := hr
    cases heq
    rcases hashmapInsert_spec hs hm hk hsafe hr with ⟨rfl, hnone, hs', hm'⟩ | ⟨rfl, ⟨w, hw⟩, hs', hm'⟩
    · exact ⟨by simp [Answers, show m k = none from hnone], hs', by
        simp only [after, show m k = none from hnone]; exact hm'⟩
    · exact ⟨by simp [Answers, show m k = some w from hw], hs', by
        simp only [after, show m k = some w from hw]; exact hm'⟩
  | increase k d =>
    simp only [exec, Option.map_eq_some_iff] at hr
    obtain ⟨h₁, hr, heq⟩ := hr
    cases heq
    exact ⟨trivial, hashmapIncrease_spec hs hm hk hsafe hr⟩
  | get k =>
    cases hr
    exact ⟨hashmapGet_eq hs hm hk, hs, hm⟩
  | find k =>
    cases hr
    exact ⟨(hashmapFind_ne_iff hs hm hk).trans Option.isSome_iff_exists.symm, hs, hm⟩
  | remove k =>
    simp only [exec, Option.map_eq_some_iff] at hr
    obtain ⟨⟨h₁, v⟩, hr, heq⟩ := hr
    cases heq
    exact hashmapRemove_spec hs hm hk hr

private theorem behavesUnder_of_denotes (calls : List HashmapCall) :
    ∀ {h : Hashmap} {m : Key → Option UInt32}, h.Sound → Denotes h.slot m → (∀ c ∈ calls, ValidKey c.key) →
      BehavesUnder (fun h c => c.Safe h) h m calls := by
  induction calls with
  | nil => intros; trivial
  | cons c cs ih =>
    intro h m hs hm hk hsafe a h' hr
    obtain ⟨hans, hs', hm'⟩ := HashmapCall.exec_spec hs hm (hk c (List.mem_cons_self ..)) hsafe hr
    exact ⟨hans, ih hs' hm' fun c' hc' => hk c' (List.mem_cons_of_mem _ hc')⟩

/-- `hashmap_create` makes an empty table of a power of two size. -/
theorem hashmapCreate_spec {n : UInt32} {h : Hashmap} (hr : hashmapCreate n = some h) :
    h.Sound ∧ Denotes h.slot fun _ => none := by
  simp only [hashmapCreate] at hr
  split at hr
  · rename_i hcond
    have hsize : ((1 : UInt32) <<< UInt32.ofNat (ceilLog2 n.toNat)).toNat = 2 ^ ceilLog2 n.toNat := by
      have hlt : 2 ^ ceilLog2 n.toNat < 2 ^ 32 := Nat.pow_lt_pow_right (by decide) hcond.1
      have hc : ceilLog2 n.toNat % 2 ^ 32 % 32 = ceilLog2 n.toNat := by omega
      rw [UInt32.toNat_shiftLeft, UInt32.toNat_ofNat', hc, UInt32.toNat_one, Nat.one_shiftLeft,
        Nat.mod_eq_of_lt hlt]
    cases hr
    exact ⟨blank_sound ⟨_, hcond.1, hsize⟩, by rw [blank_slot]; exact denotes_empty⟩
  · cases hr

/-- From `hashmap_create(n)` on, every run of calls whose insertions fit behaves as a finite map. -/
theorem hashmap_behaves_as_map (n : UInt32) (_hn : 1 ≤ n) {h : Hashmap} (hr : hashmapCreate n = some h)
    (calls : List HashmapCall) (hk : ∀ c ∈ calls, ValidKey c.key) :
    BehavesUnder (fun h c => c.Safe h) h (fun _ => none) calls := by
  obtain ⟨hs, hm⟩ := hashmapCreate_spec hr
  exact behavesUnder_of_denotes calls hs hm hk

theorem hashmap_behaves_as_map_four :
    BehavesUnder (fun h c => c.Safe h) (Hashmap.blank 4 (by decide)) (fun _ => none)
      [.insert [97] 2, .increase [97] 3, .find [98], .remove [97], .get [97]] :=
  hashmap_behaves_as_map 4 (by decide) (h := Hashmap.blank 4 (by decide)) rfl _ (by decide)

/-- The fourth key of a table of size four: its insertion doubles the table and probes it from the old home slot. -/
private theorem fourthKey_lost :
    ((hashmapCreate 4).bind fun h =>
      (hashmapInsert 9 h [97] 2).bind fun r => (hashmapInsert 9 r.1 [98] 10).bind fun r =>
      (hashmapInsert 9 r.1 [99] 8).bind fun r => (hashmapInsert 9 r.1 [100] 14).map fun r =>
      hashmapFind r.1 [100]) = some (-1) := by
  decide

/-- Without the condition on growths a run can lose the key whose insertion grows the table. -/
theorem growth_loses_inserted_key :
    ¬ ∀ n : UInt32, 1 ≤ n → ∀ h, hashmapCreate n = some h → ∀ calls : List HashmapCall,
      (∀ c ∈ calls, ValidKey c.key) → BehavesUnder (fun _ _ => True) h (fun _ => none) calls := by
  intro hall
  obtain ⟨h, h0, hr⟩ := Option.bind_eq_some_iff.1 fourthKey_lost
  obtain ⟨r₁, h₁, hr⟩ := Option.bind_eq_some_iff.1 hr
  obtain ⟨r₂, h₂, hr⟩ := Option.bind_eq_some_iff.1 hr
  obtain ⟨r₃, h₃, hr⟩ := Option.bind_eq_some_iff.1 hr
  obtain ⟨r₄, h₄, hr⟩ := Option.map_eq_some_iff.1 hr
  have hrun := hall 4 (by decide) h h0
    [.insert [97] 2, .insert [98] 10, .insert [99] 8, .insert [100] 14, .find [100]] (by decide)
  obtain ⟨-, hrun⟩ := hrun trivial _ _ ⟨9, Option.map_eq_some_iff.2 ⟨r₁, h₁, rfl⟩⟩
  obtain ⟨-, hrun⟩ := hrun trivial _ _ ⟨9, Option.map_eq_some_iff.2 ⟨r₂, h₂, rfl⟩⟩
  obtain ⟨-, hrun⟩ := hrun trivial _ _ ⟨9, Option.map_eq_some_iff.2 ⟨r₃, h₃, rfl⟩⟩
  obtain ⟨-, hrun⟩ := hrun trivial _ _ ⟨9, Option.map_eq_some_iff.2 ⟨r₄, h₄, rfl⟩⟩
  obtain ⟨hans, -⟩ := hrun trivial _ _ ⟨9, rfl⟩
  exact hans.2 rfl hr

end NyanChat
