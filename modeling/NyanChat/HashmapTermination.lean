import NyanChat.HashmapMap
import NyanChat.Probes
import NyanChat.Library.Loop

/-!
# When an insertion ends

The loop of `hashmap_insert` has no bound, and removed marks stop it as little as other keys do.  It ends in the
tables with room for the key, and those that a growth builds have room (`Rebuilt`): so an insertion comes back
exactly when the table grows or has room (`insertions_end`).  Four calls fill the table of size one with a removed
mark, and the next insertion never ends (`mark_fills_table`).
-/

namespace NyanChat

open OpenAddressing

/-- The tables that the calls allowed by `guard` reach from `hashmap_create(n)`. -/
inductive Reached (guard : Hashmap → HashmapCall → Prop) (n : UInt32) : Hashmap → Prop
  | create {h : Hashmap} : hashmapCreate n = some h → Reached guard n h
  | call {h h' : Hashmap} {c : HashmapCall} {a : HashmapAnswer} :
      Reached guard n h → guard h c → c.Returns h a h' → Reached guard n h'

/-- The table grows, to a size that a word holds, or it has a slot where the loop stops. -/
def InsertEnds (h : Hashmap) (key : Key) : Prop :=
  if h.loadTooHigh then h.size.toNat < 2 ^ 31 else h.HasRoom key

instance (h : Hashmap) (key : Key) : Decidable (InsertEnds h key) :=
  inferInstanceAs (Decidable (if h.loadTooHigh then h.size.toNat < 2 ^ 31 else h.HasRoom key))

/-! ### Writing an item -/

theorem slot_setItem_or (h : Hashmap) (pos : UInt32) (it : Item) (p : ℕ) :
    (h.setItem pos it).slot p = it.slot ∨ (h.setItem pos it).slot p = h.slot p := by
  by_cases hpos : pos.toNat < h.size.toNat
  · rw [h.slot_setItem hpos]
    rcases eq_or_ne p pos.toNat with rfl | hp
    · exact Or.inl (Function.update_self ..)
    · exact Or.inr (Function.update_of_ne hp ..)
  · rw [h.setItem_of_ge hpos]
    exact Or.inr rfl

theorem liveCount_setItem_le (h : Hashmap) (pos : UInt32) (it : Item) :
    (h.setItem pos it).liveCount ≤ h.liveCount + if it.isLive then 1 else 0 := by
  by_cases hpos : pos.toNat < h.size.toNat
  · rw [h.liveCount_setItem hpos]
    omega
  · rw [h.setItem_of_ge hpos]
    exact Nat.le_add_right _ _

/-- What the end of `hashmap_insert` leaves: the table, or the table with the new item and a greater count. -/
theorem insertFrom_eq_some {fuel : ℕ} {h : Hashmap} {key : Key} {value index : UInt32} {cur : Option Key}
    {r : Hashmap × Int} (hr : insertFrom fuel h key value index cur = some r) :
    r = (h, 0) ∨ ∃ pos, r = ((h.setItem pos ⟨some key, value⟩).setCount (h.count + 1), 1) := by
  unfold insertFrom at hr
  split at hr
  · cases hr
  · cases hr
    exact Or.inr ⟨_, rfl⟩
  · cases hr
    exact Or.inl rfl

/-- In a table with room the loop ends, whatever first slot and first key it was given. -/
theorem Hashmap.HasRoom.insertFrom_returns {h : Hashmap} (hs : PowerSize h.size) {key : Key}
    (hroom : h.HasRoom key) {fuel : ℕ} (hfuel : 2 ^ 33 ≤ fuel) (value index : UInt32) (cur : Option Key) :
    ∃ r, insertFrom fuel h key value index cur = some r := by
  obtain ⟨j, hj, hlt, hhalt⟩ := hroom.exists_probe hs index
  have hsize := h.size.toNat_lt
  obtain ⟨n, rfl⟩ : ∃ n, fuel = n + 1 := ⟨fuel - 1, by omega⟩
  exact insertFrom_returns_iff.2
    (insertLoop_returns h key index n 0 index cur none (Or.inr ⟨j, hj, by omega, hhalt⟩))

/-! ### Tables without removed marks -/

/-- The tables that a resizing builds: no removed marks, and a count that the live items do not exceed. -/
structure Rebuilt (h : Hashmap) : Prop where
  power : PowerSize h.size
  unmarked : ∀ p, h.slot p ≠ .removed
  liveCount_le : h.liveCount ≤ h.count.toNat

namespace Rebuilt

variable {h : Hashmap} {key : Key}

theorem hasRoom (hf : Rebuilt h) (hlow : h.count.toNat < h.size.toNat) (key : Key) : h.HasRoom key := by
  have hle := hf.liveCount_le
  obtain ⟨p, hp, hempty⟩ := exists_empty (by omega) hf.unmarked
  have hlt : p < h.items.length := by rw [h.items_length]; exact hp
  refine ⟨h.items[p], List.getElem_mem hlt, ?_⟩
  rw [h.slot_getElem hlt] at hempty
  rw [Item.slot_empty.1 hempty]
  exact halts_none key

/-- The end of an insertion into a fresh table, with any first slot and first key. -/
theorem insertFrom (hf : Rebuilt h) (hlow : h.count.toNat < h.size.toNat) (hkey : key ≠ TOMBSTONE) {fuel : ℕ}
    (hfuel : 2 ^ 33 ≤ fuel) (value index : UInt32) (cur : Option Key) :
    ∃ r, NyanChat.insertFrom fuel h key value index cur = some r ∧ Rebuilt r.1 ∧ r.1.size = h.size ∧
      r.1.count.toNat ≤ h.count.toNat + 1 := by
  obtain ⟨r, hr⟩ := (hf.hasRoom hlow key).insertFrom_returns hf.power hfuel value index cur
  refine ⟨r, hr, ?_⟩
  rcases insertFrom_eq_some hr with rfl | ⟨pos, rfl⟩
  · exact ⟨hf, rfl, Nat.le_succ _⟩
  · have hcount : (h.count + 1).toNat = h.count.toNat + 1 := by
      have hsize := h.size.toNat_lt
      rw [UInt32.toNat_add, UInt32.toNat_one]
      exact Nat.mod_eq_of_lt (by omega)
    have hlive : (⟨some key, value⟩ : Item).slot = .live key value := Item.slot_live.2 ⟨rfl, hkey⟩
    refine ⟨⟨hf.power, fun p hp => ?_, ?_⟩, rfl, hcount.le⟩
    · rw [Hashmap.setCount_slot] at hp
      rcases slot_setItem_or h pos ⟨some key, value⟩ p with hset | hset <;> rw [hset] at hp
      · rw [hlive] at hp
        cases hp
      · exact hf.unmarked p hp
    · have hle := liveCount_setItem_le h pos ⟨some key, value⟩
      have hold := hf.liveCount_le
      rw [Hashmap.setCount_liveCount, Hashmap.setCount_count, hcount]
      split at hle <;> omega

/-- An insertion into a fresh table below the growth limit. -/
theorem insert_low (hf : Rebuilt h) (hlow : 4 * h.count.toNat < 3 * h.size.toNat) (hkey : key ≠ TOMBSTONE) {fuel : ℕ}
    (hfuel : 2 ^ 33 ≤ fuel) (value : UInt32) :
    ∃ r, hashmapInsert (fuel + 1) h key value = some r ∧ Rebuilt r.1 ∧ r.1.size = h.size ∧
      r.1.count.toNat ≤ h.count.toNat + 1 := by
  rw [hashmapInsert]
  by_cases hlong : key.length > KEY_MAXLEN
  · rw [if_pos hlong]
    exact ⟨_, rfl, hf, rfl, Nat.le_succ _⟩
  · have hload : h.loadTooHigh = false := by
      rw [Hashmap.loadTooHigh, decide_eq_false_iff_not]
      omega
    rw [if_neg hlong, if_neg (by rw [hload]; exact Bool.false_ne_true)]
    exact hf.insertFrom (by omega) hkey hfuel value _ _

/-- A turn of a resizing, when the insertion of its live item comes back with a fresh table. -/
private theorem storeItem_returns (hf : Rebuilt h) (insert : Hashmap → Key → UInt32 → Option (Hashmap × Int))
    (it : Item) {P : Hashmap → Prop} (hskip : it.isLive = false → P h)
    (hins : ∀ k v, it.slot = .live k v → ∃ r, insert h k v = some r ∧ Rebuilt r.1 ∧ P r.1) :
    ∃ h', storeItem insert h it = some h' ∧ Rebuilt h' ∧ P h' := by
  unfold storeItem
  split
  · rename_i hkey
    refine ⟨h, rfl, hf, hskip ?_⟩
    rw [Item.isLive, Item.slot_empty.2 hkey]
  · rename_i k hkey
    split
    · rename_i hmark
      refine ⟨h, rfl, hf, hskip ?_⟩
      rw [Item.isLive, Item.slot_removed.2 (by rw [hkey, sameKey_tombstone.1 hmark])]
    · rename_i hmark
      have hne : k ≠ TOMBSTONE := fun he => hmark (sameKey_tombstone.2 he)
      obtain ⟨r, hr, hfresh, hP⟩ := hins k it.value (Item.slot_live.2 ⟨by rw [← hkey], hne⟩)
      exact ⟨r.1, by rw [hr]; rfl, hfresh, hP⟩

/-- Storing items that stay below the growth limit. -/
theorem storeItems_low {fuel : ℕ} (hfuel : 2 ^ 33 ≤ fuel) (L : List Item) :
    ∀ {h : Hashmap}, Rebuilt h → 4 * (h.count.toNat + L.countP Item.isLive) ≤ 3 * h.size.toNat →
      ∃ h', L.foldlM (storeItem (hashmapInsert (fuel + 1))) h = some h' ∧ Rebuilt h' ∧ h'.size = h.size ∧
        h'.count.toNat ≤ h.count.toNat + L.countP Item.isLive := by
  induction L with
  | nil => exact fun hf _ => ⟨_, rfl, hf, rfl, Nat.le_refl _⟩
  | cons it L ih =>
    intro h hf hroom
    rw [List.countP_cons] at hroom ⊢
    have hturn := hf.storeItem_returns (hashmapInsert (fuel + 1)) it
      (P := fun h' => h'.size = h.size ∧ h'.count.toNat ≤ h.count.toNat + if it.isLive then 1 else 0)
      (fun _ => ⟨rfl, Nat.le_add_right _ _⟩) fun k v hkv => by
        have hlive : it.isLive = true := by rw [Item.isLive, hkv]
        rw [hlive, if_pos rfl] at hroom ⊢
        exact hf.insert_low (by omega) (Item.slot_live.1 hkv).2 hfuel v
    obtain ⟨h₁, hstore, hf₁, hsize₁, hcount₁⟩ := hturn
    obtain ⟨h', hrest, hf', hsize', hcount'⟩ := ih hf₁ (by rw [hsize₁]; omega)
    exact ⟨h', by rw [List.foldlM_cons, hstore]; exact hrest, hf', hsize'.trans hsize₁, by omega⟩

end Rebuilt

theorem blank_rebuilt {size : UInt32} (hs : PowerSize size) : Rebuilt (Hashmap.blank size hs.pos) := by
  refine ⟨hs, fun p hp => ?_, (blank_sound hs).count_eq.ge⟩
  rw [blank_slot] at hp
  cases hp

/-- A growth comes back with a fresh table, unless the doubled size wraps to zero. -/
theorem grow_returns {h : Hashmap} (hs : PowerSize h.size) (hsize : h.size.toNat < 2 ^ 31) {fuel : ℕ}
    (hfuel : 2 ^ 33 ≤ fuel) :
    ∃ h', resizeWith (hashmapInsert (fuel + 1)) h (2 * h.size) = some (.table h') ∧ Rebuilt h' ∧
      h'.size.toNat = 2 * h.size.toNat ∧ h'.count.toNat ≤ h.liveCount := by
  have hpos := hs.pos
  have hmul : (2 * h.size).toNat = 2 * h.size.toNat := by
    rw [UInt32.toNat_mul]
    exact Nat.mod_eq_of_lt (show 2 * h.size.toNat < 2 ^ 32 by omega)
  obtain ⟨hpow, -⟩ := powerSize_double hs (by rw [hmul]; omega)
  have hle := h.liveCount_le
  rw [Hashmap.liveCount] at hle
  obtain ⟨h', hfold, hf', hsize', hcount'⟩ :=
    Rebuilt.storeItems_low hfuel h.items (blank_rebuilt hpow) (by
      show 4 * (0 + h.items.countP Item.isLive) ≤ 3 * (2 * h.size).toNat
      omega)
  refine ⟨h', ?_, hf', by rw [hsize']; exact hmul, ?_⟩
  · exact (resizeWith_eq_table hpow.pos).2 hfold
  · have hzero : (Hashmap.blank (2 * h.size) hpow.pos).count.toNat = 0 := rfl
    rw [hzero, Nat.zero_add] at hcount'
    exact hcount'

/-- After a growth the insertion ends, although its first slot and first key are those of the old table. -/
private theorem insert_high_returns {h : Hashmap} (hs : PowerSize h.size) (hhigh : h.loadTooHigh = true)
    (hsize : h.size.toNat < 2 ^ 31) {key : Key} (hkey : key.length ≤ KEY_MAXLEN) {fuel : ℕ} (hfuel : 2 ^ 33 ≤ fuel)
    (value : UInt32) :
    ∃ h₁ r, Rebuilt h₁ ∧ h₁.size.toNat = 2 * h.size.toNat ∧ h₁.count.toNat ≤ h.liveCount ∧
      hashmapInsert (fuel + 2) h key value = some r ∧
      insertFrom (fuel + 1) h₁ key value (hash key h.size) (h.item (hash key h.size)).key = some r := by
  obtain ⟨h₁, hgrow, hf₁, hsize₁, hcount₁⟩ := grow_returns hs hsize hfuel
  have hle := h.liveCount_le
  have hpos := hs.pos
  have hfuel₁ : 2 ^ 33 ≤ fuel + 1 := by omega
  obtain ⟨r, hr⟩ := (hf₁.hasRoom (by omega) key).insertFrom_returns hf₁.power hfuel₁ value
    (hash key h.size) (h.item (hash key h.size)).key
  refine ⟨h₁, r, hf₁, hsize₁, hcount₁, ?_, hr⟩
  rw [hashmapInsert, if_neg (by omega), if_pos hhigh]
  rw [bind_toTable.2 hgrow]
  exact hr

namespace Rebuilt

variable {h : Hashmap} {key : Key}

/-- An insertion into a fresh table, which may grow it. -/
theorem insert (hf : Rebuilt h) (hsize : h.loadTooHigh = true → h.size.toNat < 2 ^ 31) (hkey : key ≠ TOMBSTONE)
    {fuel : ℕ} (hfuel : 2 ^ 33 ≤ fuel) (value : UInt32) :
    ∃ r, hashmapInsert (fuel + 2) h key value = some r ∧ Rebuilt r.1 ∧ r.1.count.toNat ≤ h.count.toNat + 1 := by
  have hfuel₁ : 2 ^ 33 ≤ fuel + 1 := by omega
  by_cases hhigh : h.loadTooHigh = true
  · by_cases hlong : key.length > KEY_MAXLEN
    · exact ⟨(h, -1), by rw [hashmapInsert, if_pos hlong], hf, Nat.le_succ _⟩
    · obtain ⟨h₁, r, hf₁, hsize₁, hcount₁, hr, hfrom⟩ :=
        insert_high_returns hf.power hhigh (hsize hhigh) (Nat.not_lt.1 hlong) hfuel value
      have hle := h.liveCount_le
      have hpos := hf.power.pos
      have hlive := hf.liveCount_le
      obtain ⟨r', hr', hf', -, hcount'⟩ := hf₁.insertFrom (by omega) hkey hfuel₁ value
        (hash key h.size) (h.item (hash key h.size)).key
      obtain rfl := Option.some.inj (hr'.symm.trans hfrom)
      exact ⟨r', hr, hf', by omega⟩
  · have hlow : 4 * h.count.toNat < 3 * h.size.toNat := by
      rw [Bool.not_eq_true, Hashmap.loadTooHigh, decide_eq_false_iff_not] at hhigh
      omega
    obtain ⟨r, hr, hf', -, hcount⟩ := hf.insert_low hlow hkey hfuel₁ value
    exact ⟨r, hr, hf', hcount⟩

/-- Storing items, with growths on the way. -/
theorem storeItems {fuel : ℕ} (hfuel : 2 ^ 33 ≤ fuel) (L : List Item) :
    ∀ {h : Hashmap}, Rebuilt h → 4 * (h.count.toNat + L.countP Item.isLive) ≤ 3 * 2 ^ 31 →
      ∃ h', L.foldlM (storeItem (hashmapInsert (fuel + 2))) h = some h' ∧ Rebuilt h' := by
  induction L with
  | nil => exact fun hf _ => ⟨_, rfl, hf⟩
  | cons it L ih =>
    intro h hf hroom
    rw [List.countP_cons] at hroom
    have hturn := hf.storeItem_returns (hashmapInsert (fuel + 2)) it
      (P := fun h' => h'.count.toNat ≤ h.count.toNat + if it.isLive then 1 else 0)
      (fun _ => Nat.le_add_right _ _) fun k v hkv => by
        have hlive : it.isLive = true := by rw [Item.isLive, hkv]
        rw [hlive, if_pos rfl] at hroom ⊢
        refine hf.insert (fun hhigh => ?_) (Item.slot_live.1 hkv).2 hfuel v
        -- the largest table takes three quarters of `2 ^ 31` items
        rw [Hashmap.loadTooHigh, decide_eq_true_iff] at hhigh
        omega
    obtain ⟨h₁, hstore, hf₁, hcount₁⟩ := hturn
    obtain ⟨h', hrest, hf'⟩ := ih hf₁ (by omega)
    exact ⟨h', by rw [List.foldlM_cons, hstore]; exact hrest, hf'⟩

end Rebuilt

/-- A resizing comes back when the items need no table of more than `2 ^ 31` slots. -/
theorem resize_returns {h : Hashmap} {newSize : UInt32} (hs : PowerSize newSize)
    (hlive : 4 * h.liveCount ≤ 3 * 2 ^ 31) :
    ∃ fuel h', hashmapResize fuel h newSize = some (.table h') := by
  obtain ⟨h', hfold, -⟩ := Rebuilt.storeItems (Nat.le_refl (2 ^ 33)) h.items (blank_rebuilt hs) (by
    show 4 * (0 + h.items.countP Item.isLive) ≤ _
    rw [Nat.zero_add]
    exact hlive)
  exact ⟨2 ^ 33 + 2, h', (resizeWith_eq_table hs.pos).2 hfold⟩

/-! ### The sizes of reached tables -/

private theorem resizeWith_powerSize {insert : Hashmap → Key → UInt32 → Option (Hashmap × Int)}
    (hinsert : ∀ h k v r, PowerSize h.size → insert h k v = some r → PowerSize r.1.size) {h h' : Hashmap}
    {newSize : UInt32} (hs : PowerSize newSize) (hr : resizeWith insert h newSize = some (.table h')) :
    PowerSize h'.size := by
  rw [resizeWith_eq_table hs.pos] at hr
  refine Loop.foldlM_of_some (fun h => PowerSize h.size) (fun it h h₁ hpow hstore => ?_) h.items hs hr
  unfold storeItem at hstore
  split at hstore
  · cases hstore
    exact hpow
  · split at hstore
    · cases hstore
      exact hpow
    · obtain ⟨r, hins, rfl⟩ := Option.map_eq_some_iff.1 hstore
      exact hinsert h _ _ r hpow hins

private theorem insertFrom_size {fuel : ℕ} {h : Hashmap} {key : Key} {value index : UInt32} {cur : Option Key}
    {r : Hashmap × Int} (hr : insertFrom fuel h key value index cur = some r) : r.1.size = h.size := by
  rcases insertFrom_eq_some hr with rfl | ⟨pos, rfl⟩ <;> rfl

/-- A growth that comes back was to a size that a word holds. -/
private theorem grown_powerSize {insert : Hashmap → Key → UInt32 → Option (Hashmap × Int)} {h h' : Hashmap}
    (hs : PowerSize h.size) (hr : resizeWith insert h (2 * h.size) = some (.table h')) :
    PowerSize (2 * h.size) ∧ h.size.toNat < 2 ^ 31 := by
  obtain ⟨hpow, hdouble⟩ := powerSize_double hs (pos_of_resizeWith hr)
  have hlt := (2 * h.size).toNat_lt
  exact ⟨hpow, by omega⟩

private theorem hashmapInsert_powerSize (fuel : ℕ) :
    ∀ h key value r, PowerSize h.size → hashmapInsert fuel h key value = some r → PowerSize r.1.size := by
  induction fuel with
  | zero => exact fun _ _ _ _ _ hr => nomatch hr
  | succ fuel ih =>
    intro h key value r hs hr
    rw [hashmapInsert] at hr
    split at hr
    · cases hr
      exact hs
    · dsimp only at hr
      split at hr
      · split at hr
        · cases hr
        · rename_i h₁ hgrown
          have hgrow := bind_toTable.1 hgrown
          rw [insertFrom_size hr]
          exact resizeWith_powerSize ih (grown_powerSize hs hgrow).1 hgrow
      · rw [insertFrom_size hr]
        exact hs

theorem HashmapCall.Returns.powerSize {c : HashmapCall} {h h' : Hashmap} {a : HashmapAnswer}
    (hr : c.Returns h a h') (hs : PowerSize h.size) : PowerSize h'.size := by
  obtain ⟨fuel, hr⟩ := hr
  cases c with
  | insert k v =>
    obtain ⟨r, hins, heq⟩ := Option.map_eq_some_iff.1 hr
    cases heq
    exact hashmapInsert_powerSize fuel h k v r hs hins
  | increase k d =>
    obtain ⟨h₁, hinc, heq⟩ := Option.map_eq_some_iff.1 hr
    cases heq
    unfold hashmapIncrease at hinc
    dsimp only at hinc
    split at hinc
    · obtain ⟨r, hins, rfl⟩ := Option.map_eq_some_iff.1 hinc
      exact hashmapInsert_powerSize fuel h k d r hs hins
    · cases hinc
      exact hs
  | get k =>
    cases hr
    exact hs
  | find k =>
    cases hr
    exact hs
  | remove k =>
    obtain ⟨r, hrem, heq⟩ := Option.map_eq_some_iff.1 hr
    cases heq
    unfold hashmapRemove at hrem
    dsimp only at hrem
    split at hrem
    · cases hrem
      exact hs
    · split at hrem
      · rename_i hlow
        obtain ⟨h₂, hres, rfl⟩ := Option.map_eq_some_iff.1 hrem
        rw [Hashmap.loadTooLow, Bool.and_eq_true, decide_eq_true_eq] at hlow
        obtain ⟨hpow, -⟩ := powerSize_half hs (UInt32.lt_iff_toNat_lt.1 hlow.1)
        exact resizeWith_powerSize (hashmapInsert_powerSize fuel) hpow (bind_toTable.1 hres)
      · cases hrem
        exact hs

theorem Reached.powerSize {guard : Hashmap → HashmapCall → Prop} {n : UInt32} {h : Hashmap}
    (hr : Reached guard n h) : PowerSize h.size := by
  induction hr with
  | create hc => exact (hashmapCreate_spec hc).1.power
  | call _ _ hcall ih => exact hcall.powerSize ih

/-! ### Which calls end -/

theorem hashmapInsert_returns_iff {h : Hashmap} (hs : PowerSize h.size) {key : Key} (hk : key.length ≤ KEY_MAXLEN)
    (value : UInt32) : (∃ fuel r, hashmapInsert fuel h key value = some r) ↔ InsertEnds h key := by
  unfold InsertEnds
  by_cases hhigh : h.loadTooHigh = true
  · rw [if_pos hhigh]
    constructor
    · rintro ⟨fuel, r, hr⟩
      rcases fuel with _ | fuel
      · cases hr
      rw [hashmapInsert, if_neg (by omega), if_pos hhigh] at hr
      cases hgrow : (resizeWith (hashmapInsert fuel) h (2 * h.size)).bind Resized.toTable with
      | none =>
        rw [hgrow] at hr
        cases hr
      | some h₁ => exact (grown_powerSize hs (bind_toTable.1 hgrow)).2
    · intro hsize
      obtain ⟨-, r, -, -, -, hr, -⟩ := insert_high_returns hs hhigh hsize hk (Nat.le_refl _) value
      exact ⟨_, r, hr⟩
  · rw [if_neg hhigh]
    constructor
    · rintro ⟨fuel, r, hr⟩
      rcases fuel with _ | fuel
      · cases hr
      rw [hashmapInsert, if_neg (by omega), if_neg hhigh] at hr
      obtain ⟨r', hloop⟩ := insertFrom_returns_iff.1 ⟨r, hr⟩
      by_contra hroom
      have hhome : ¬ Halts (h.item (hash key h.size)).key key := fun hhalt =>
        hroom ⟨_, item_mem h (by rw [← probe_zero]; exact probe_lt hs.pos key 0), hhalt⟩
      have hnone := insertLoop_none hroom (hash key h.size) fuel 0 (hash key h.size) _ none hhome
      exact Option.some_ne_none r' (hloop.symm.trans hnone)
    · intro hroom
      obtain ⟨r, hr⟩ := hroom.insertFrom_returns hs (Nat.le_refl _) value (hash key h.size)
        (h.item (hash key h.size)).key
      exact ⟨2 ^ 33 + 1, r, by rw [hashmapInsert, if_neg (by omega), if_neg hhigh]; exact hr⟩

/-- A removal comes back when the live keys fit into a table of `2 ^ 31` slots: it inserts them again. -/
private theorem hashmapRemove_returns {h : Hashmap} (hs : PowerSize h.size) (hlive : 4 * h.liveCount ≤ 3 * 2 ^ 31)
    (key : Key) : ∃ a h', (HashmapCall.remove key).Returns h a h' := by
  have hmark : (⟨some TOMBSTONE, 0⟩ : Item).isLive = false := by
    rw [Item.isLive, Item.slot_removed.2 rfl]
  simp only [HashmapCall.Returns, HashmapCall.exec, Option.map_eq_some_iff, Prod.mk.injEq, hashmapRemove]
  split
  · exact ⟨_, _, 0, _, rfl, rfl, rfl⟩
  · split
    · rename_i hlow
      rw [Hashmap.loadTooLow, Bool.and_eq_true, decide_eq_true_eq] at hlow
      obtain ⟨hpow, -⟩ := powerSize_half hs (UInt32.lt_iff_toNat_lt.1 hlow.1)
      have hle := liveCount_setItem_le h (UInt32.ofNat (hashmapFind h key).toNat) ⟨some TOMBSTONE, 0⟩
      rw [hmark, if_neg Bool.false_ne_true, Nat.add_zero] at hle
      obtain ⟨fuel, h₂, hres⟩ := resize_returns (h := (h.setItem (UInt32.ofNat (hashmapFind h key).toNat)
        ⟨some TOMBSTONE, 0⟩).setCount (h.count - 1)) hpow (by rw [Hashmap.setCount_liveCount]; omega)
      exact ⟨_, _, fuel, _, Option.map_eq_some_iff.2 ⟨h₂, bind_toTable.2 hres, rfl⟩, rfl, rfl⟩
    · exact ⟨_, _, 0, _, rfl, rfl, rfl⟩

/-- In every reached table an insertion comes back exactly when the table grows or has room for the key, and the
insertions of a removal come back as long as the live keys fit into a table of `2 ^ 31` slots. -/
theorem insertions_end (n : UInt32) (_hn : 1 ≤ n) {h : Hashmap}
    (hr : Reached (fun _ c => c.key.length ≤ KEY_MAXLEN) n h) {key : Key} (hk : key.length ≤ KEY_MAXLEN) :
    (∀ value, (∃ a h', (HashmapCall.insert key value).Returns h a h') ↔ InsertEnds h key) ∧
      (∀ incr, (∃ a h', (HashmapCall.increase key incr).Returns h a h') ↔
        hashmapFind h key = -1 → InsertEnds h key) ∧
      (4 * h.liveCount ≤ 3 * 2 ^ 31 → ∃ a h', (HashmapCall.remove key).Returns h a h') := by
  have hs := hr.powerSize
  refine ⟨fun value => ?_, fun incr => ?_, fun hlive => hashmapRemove_returns hs hlive key⟩
  · rw [← hashmapInsert_returns_iff hs hk value]
    simp only [HashmapCall.Returns, HashmapCall.exec, Option.map_eq_some_iff, Prod.mk.injEq]
    constructor
    · rintro ⟨-, -, fuel, r, hins, -, -⟩
      exact ⟨fuel, r, hins⟩
    · rintro ⟨fuel, r, hins⟩
      exact ⟨_, _, fuel, r, hins, rfl, rfl⟩
  · rw [← hashmapInsert_returns_iff hs hk incr, ← hashmapFind_neg_iff h key]
    simp only [HashmapCall.Returns, HashmapCall.exec, Option.map_eq_some_iff, Prod.mk.injEq, hashmapIncrease]
    split
    · rename_i hneg
      simp only [Option.map_eq_some_iff]
      constructor
      · rintro ⟨-, -, fuel, -, ⟨r, hins, -⟩, -⟩ -
        exact ⟨fuel, r, hins⟩
      · intro hins
        obtain ⟨fuel, r, hins⟩ := hins hneg
        exact ⟨_, _, fuel, _, ⟨r, hins, rfl⟩, rfl, rfl⟩
    · rename_i hpos
      exact ⟨fun _ hneg => absurd hneg hpos, fun _ => ⟨_, _, 0, _, rfl, rfl, rfl⟩⟩

/-- A table of size four after two insertions and a removal. -/
private def usedTable : Hashmap where
  size := 4
  count := 1
  items := [⟨none, 0⟩, ⟨none, 0⟩, ⟨some TOMBSTONE, 0⟩, ⟨some [98], 8⟩]
  items_length := rfl
  size_pos := by decide

private theorem reached_usedTable : Reached (fun _ c => c.key.length ≤ KEY_MAXLEN) 4 usedTable := by
  have hcreate : Reached (fun _ c => c.key.length ≤ KEY_MAXLEN) 4 (Hashmap.blank 4 (by decide)) := .create rfl
  have hfirst := hcreate.call (c := .insert [97] 7) (by decide) ⟨9, rfl⟩
  have hsecond := hfirst.call (c := .insert [98] 8) (by decide) ⟨9, rfl⟩
  exact hsecond.call (c := .remove [97]) (by decide) ⟨9, rfl⟩

/-- The used table takes another key. -/
theorem insertions_end_used : ∃ a h', (HashmapCall.insert [99] 2).Returns usedTable a h' := by
  have hkey : ([99] : Key).length ≤ KEY_MAXLEN := by decide
  exact ((insertions_end 4 (by decide) reached_usedTable hkey).1 2).2 (by decide)

/-- The table that a removal of the only key of a table of size one leaves. -/
private def markedTable : Hashmap where
  size := 1
  count := 0
  items := [⟨some TOMBSTONE, 0⟩]
  items_length := rfl
  size_pos := by decide

private theorem reached_markedTable : Reached (fun _ c => c.key.length ≤ KEY_MAXLEN) 1 markedTable := by
  have hcreate : Reached (fun _ c => c.key.length ≤ KEY_MAXLEN) 1 (Hashmap.blank 1 (by decide)) := .create rfl
  have hinsert := hcreate.call (c := .insert [97] 7) (by decide) ⟨9, rfl⟩
  exact hinsert.call (c := .remove [97]) (by decide) ⟨9, rfl⟩

/-- In a table of size one the insertion after a removal never ends. -/
theorem mark_fills_table :
    ¬ ∀ n : UInt32, 1 ≤ n → ∀ h, Reached (fun _ c => c.key.length ≤ KEY_MAXLEN) n h →
      ∀ key : Key, key.length ≤ KEY_MAXLEN → ∀ value, ∃ fuel r, hashmapInsert fuel h key value = some r := by
  intro hall
  have hends := hall 1 (by decide) markedTable reached_markedTable [98] (by decide) 7
  rw [hashmapInsert_returns_iff reached_markedTable.powerSize (by decide)] at hends
  exact absurd hends (by decide)

end NyanChat
