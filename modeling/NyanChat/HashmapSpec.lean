import NyanChat.Probes

/-!
# What the hash map operations do to a sound table

For a sound table and a valid key: `hashmap_find` answers the position of the key or `-1` (`hashmapFind_cases`),
an insertion that probes the table it reads adds the binding of an absent key (`insertFrom_cases`), a resizing
keeps the bindings and leaves no removed mark (`hashmapResize_spec`), and a removal takes one binding away
(`hashmapRemove_spec`).
-/

namespace NyanChat

open OpenAddressing

theorem ofNat_add_one (i : ℕ) : UInt32.ofNat i + 1 = UInt32.ofNat (i + 1) := (UInt32.ofNat_add i 1).symm

namespace Hashmap

/-- In a sound table the comparison of the code recognises the slot that holds the key. -/
theorem Sound.sameKey_item {h : Hashmap} (hs : h.Sound) {key k' : Key} (hk : ValidKey key) {pos : UInt32}
    (hc : (h.item pos).key = some k') :
    sameKey k' key = true ↔ h.slot pos.toNat = .live key (h.item pos).value := by
  rw [← slot_item, Item.slot_live]
  by_cases ht : k' = TOMBSTONE
  · subst ht
    constructor
    · intro h'
      rw [sameKey_comm, hk.not_tombstone] at h'
      cases h'
    · rintro ⟨he, hne⟩
      rw [he] at hc
      exact absurd (Option.some_inj.1 hc) hne
  · have hslot : h.slot pos.toNat = .live k' (h.item pos).value := by
      rw [← slot_item, Item.slot_live]
      exact ⟨by rw [← hc], ht⟩
    rw [sameKey_iff (hs.short hslot) hk.1]
    constructor
    · rintro rfl
      exact ⟨by rw [← hc], hk.2⟩
    · rintro ⟨he, -⟩
      rw [he] at hc
      exact (Option.some_inj.1 hc).symm

theorem slot_of_key_none {h : Hashmap} {pos : UInt32} (hc : (h.item pos).key = none) :
    h.slot pos.toNat = .empty := Item.slot_empty.2 hc

theorem slot_ne_empty {h : Hashmap} {pos : UInt32} {k : Key} (hc : (h.item pos).key = some k) :
    h.slot pos.toNat ≠ .empty := by
  rw [← slot_item, ne_eq, Item.slot_empty, hc]
  exact nofun

/-- A key that differs from the one searched is passed. -/
theorem Sound.passed_succ {h : Hashmap} (hs : h.Sound) {key k' : Key} (hk : ValidKey key) {i : ℕ}
    (hp : Passed (probing h.size hs.power) h.slot key i) (hc : (h.item (probe key h.size i)).key = some k')
    (hne : ¬ sameKey k' key = true) : Passed (probing h.size hs.power) h.slot key (i + 1) := by
  refine hp.succ (slot_ne_empty hc) fun v hv => hne ?_
  rw [hs.sameKey_item hk hc]
  have hval := (Item.slot_live.1 (show (h.item (probe key h.size i)).slot = .live key v from hv)).1
  rw [hval]
  exact hv

theorem Sound.passed_of_skips {h : Hashmap} (hs : h.Sound) {key : Key} (hk : ValidKey key) {i : ℕ}
    (hskip : Skips h key i) : Passed (probing h.size hs.power) h.slot key i := by
  induction i with
  | zero => exact passed_zero
  | succ i ih =>
    have hlast := hskip i (Nat.lt_succ_self i)
    have hp := ih fun j hj => hskip j (Nat.lt_succ_of_lt hj)
    cases hc : (h.item (probe key h.size i)).key with
    | none =>
      rw [hc] at hlast
      exact absurd (halts_none key) hlast
    | some k' =>
      rw [hc, halts_some] at hlast
      exact hs.passed_succ hk hp hc hlast

end Hashmap

/-! ### Searching -/

/-- `hashmap_find` answers the position of a bound key and `-1` for every other key. -/
theorem hashmapFind_cases {h : Hashmap} (hs : h.Sound) {key : Key} (hk : ValidKey key) :
    (∃ p v, hashmapFind h key = (p : ℕ) ∧ h.slot p = .live key v) ∨
      (hashmapFind h key = -1 ∧ ∀ v, ¬ Binds h.slot key v) := by
  rcases hashmapFind_walk h key with ⟨i, k', hfind, hfound⟩ | ⟨hfind, i, hskip, hend⟩
  · exact Or.inl ⟨_, _, hfind, (hs.sameKey_item hk hfound.item).1 hfound.same⟩
  · refine Or.inr ⟨hfind, hs.table.not_binds_of_passed (hs.passed_of_skips hk hskip) ?_⟩
    rcases hend with hnone | hlen
    · exact Or.inl (Hashmap.slot_of_key_none hnone)
    · exact Or.inr (Nat.le_of_eq hlen.symm)

theorem item_of_live {h : Hashmap} (hs : h.Sound) {p : ℕ} {k : Key} {v : UInt32} (hp : h.slot p = .live k v) :
    (UInt32.ofNat p).toNat = p ∧ h.item (UInt32.ofNat p) = ⟨some k, v⟩ := by
  have hlt := hs.slot_lt hp
  have hp' : (UInt32.ofNat p).toNat = p := by
    rw [UInt32.toNat_ofNat']
    exact Nat.mod_eq_of_lt (by have := h.size.toNat_lt; omega)
  have hslot : (h.item (UInt32.ofNat p)).slot = .live k v := by rw [Hashmap.slot_item, hp', hp]
  exact ⟨hp', (Item.slot_live.1 hslot).1⟩

theorem hashmapFind_eq {h : Hashmap} (hs : h.Sound) {m : Key → Option UInt32} (hm : Denotes h.slot m) {key : Key}
    (hk : ValidKey key) :
    (∃ p v, hashmapFind h key = (p : ℕ) ∧ h.slot p = .live key v ∧ m key = some v) ∨
      (hashmapFind h key = -1 ∧ m key = none) := by
  rcases hashmapFind_cases hs hk with ⟨p, v, hp, hlive⟩ | ⟨h1, hno⟩
  · exact Or.inl ⟨p, v, hp, hlive, hm.eq_some hlive⟩
  · exact Or.inr ⟨h1, hm.eq_none hno⟩

theorem hashmapFind_ne_iff {h : Hashmap} (hs : h.Sound) {m : Key → Option UInt32} (hm : Denotes h.slot m)
    {key : Key} (hk : ValidKey key) : hashmapFind h key ≠ -1 ↔ ∃ v, m key = some v := by
  rcases hashmapFind_eq hs hm hk with ⟨p, v, hp, -, hv⟩ | ⟨h1, hno⟩
  · exact ⟨fun _ => ⟨v, hv⟩, fun _ => by omega⟩
  · exact ⟨fun h' => absurd h1 h', fun ⟨v, hv⟩ => by rw [hno] at hv; cases hv⟩

/-- `hashmap_get` answers the bound value, or zero. -/
theorem hashmapGet_eq {h : Hashmap} (hs : h.Sound) {m : Key → Option UInt32} (hm : Denotes h.slot m) {key : Key}
    (hk : ValidKey key) : hashmapGet h key = (m key).getD 0 := by
  unfold hashmapGet
  rcases hashmapFind_eq hs hm hk with ⟨p, v, hp, hlive, hv⟩ | ⟨h1, hno⟩
  · rw [hp, if_neg (by omega), Int.toNat_natCast, (item_of_live hs hlive).2, hv]
    rfl
  · rw [h1, hno]
    rfl

/-! ### Inserting -/

/-- Where the loop of `hashmap_insert` stops, and which removed mark it remembers. -/
structure Stop (h : Hashmap) (hs : h.Sound) (key : Key) (pos : UInt32) (cur : Option Key) (tomb : Option UInt32) :
    Prop where
  stop : ∃ i, pos = probe key h.size i ∧ Passed (probing h.size hs.power) h.slot key i ∧
    ((cur = none ∧ h.slot pos.toNat = .empty) ∨ (cur ≠ none ∧ ∃ v, h.slot pos.toNat = .live key v)) ∧
    ∀ t, tomb = some t → ∃ j < i, t = probe key h.size j ∧ h.slot t.toNat = .removed

private theorem insertLoop_stop {h : Hashmap} (hs : h.Sound) {key : Key} (hk : ValidKey key) (n : ℕ) :
    ∀ i tomb r, Passed (probing h.size hs.power) h.slot key i →
      (∀ t, tomb = some t → ∃ j < i, t = probe key h.size j ∧ h.slot t.toNat = .removed) →
      insertLoop h key (hash key h.size) n (UInt32.ofNat i) (probe key h.size i)
        (h.item (probe key h.size i)).key tomb = some r → Stop h hs key r.1 r.2.1 r.2.2 := by
  induction n with
  | zero => intro i tomb r _ _ hr; cases hr
  | succ n ih =>
    intro i tomb r hp htomb hr
    cases hc : (h.item (probe key h.size i)).key with
    | none =>
      rw [hc] at hr
      cases hr
      exact ⟨i, rfl, hp, Or.inl ⟨rfl, Hashmap.slot_of_key_none hc⟩, htomb⟩
    | some k' =>
      rw [hc, insertLoop] at hr
      by_cases hsame : sameKey k' key = true
      · rw [if_pos hsame] at hr
        cases hr
        exact ⟨i, rfl, hp, Or.inr ⟨Option.some_ne_none k', _, (hs.sameKey_item hk hc).1 hsame⟩, htomb⟩
      · rw [if_neg hsame, ofNat_add_one] at hr
        refine ih (i + 1) _ r (hs.passed_succ hk hp hc hsame) ?_ hr
        -- the first removed mark of the path is remembered
        intro t ht
        by_cases hmark : (sameKey k' TOMBSTONE && tomb.isNone) = true
        · rw [if_pos hmark, Option.some_inj] at ht
          subst ht
          have hk' := sameKey_tombstone.1 (Bool.and_eq_true_iff.1 hmark).1
          subst hk'
          exact ⟨i, Nat.lt_succ_self i, rfl, Item.slot_removed.2 hc⟩
        · rw [if_neg hmark] at ht
          obtain ⟨j, hj, hrest⟩ := htomb t ht
          exact ⟨j, by omega, hrest⟩

/-- The slot that `hashmap_insert` writes: the remembered removed mark, or the empty slot. -/
private theorem Stop.free {h : Hashmap} {hs : h.Sound} {key : Key} {pos : UInt32} {tomb : Option UInt32}
    (hstop : Stop h hs key pos none tomb) :
    (∀ v, ¬ Binds h.slot key v) ∧ ∃ j, tomb.getD pos = probe key h.size j ∧
      Unbroken (probing h.size hs.power) h.slot key j ∧
      (h.slot (tomb.getD pos).toNat = .empty ∨ h.slot (tomb.getD pos).toNat = .removed) := by
  obtain ⟨i, hpos, hp, hcase, htomb⟩ := hstop.stop
  have hempty : h.slot pos.toNat = .empty := by
    rcases hcase with ⟨-, he⟩ | ⟨hne, -⟩
    · exact he
    · exact absurd rfl hne
  refine ⟨hs.table.not_binds_of_passed hp (Or.inl (by rw [hpos] at hempty; exact hempty)), ?_⟩
  cases tomb with
  | none => exact ⟨i, hpos, hp.unbroken, Or.inl hempty⟩
  | some t =>
    obtain ⟨j, hj, ht, hrem⟩ := htomb t rfl
    exact ⟨j, ht, fun l hl => hp.unbroken l (by omega), Or.inr hrem⟩

private theorem isLive_false_of_slot {it : Item} (hslot : it.slot = .empty ∨ it.slot = .removed) :
    it.isLive = false := by
  unfold Item.isLive
  rcases hslot with hslot | hslot <;> rw [hslot]

private theorem isLive_mk {k : Key} (hk : ValidKey k) (v : UInt32) : (⟨some k, v⟩ : Item).isLive = true := by
  rw [Item.isLive, Item.slot_live.2 ⟨rfl, hk.2⟩]

/-- An insertion whose first probe is read from the table that it writes: it binds an absent key, and answers zero
for a bound one. -/
theorem insertFrom_cases {h h' : Hashmap} (hs : h.Sound) {m : Key → Option UInt32} (hm : Denotes h.slot m)
    {key : Key} (hk : ValidKey key) {fuel : ℕ} {value : UInt32} {r : Int}
    (hr : insertFrom fuel h key value (hash key h.size) (h.item (hash key h.size)).key = some (h', r)) :
    (r = 1 ∧ m key = none ∧ h'.Sound ∧ Denotes h'.slot (Function.update m key (some value)) ∧ h'.size = h.size ∧
        h'.liveCount = h.liveCount + 1 ∧ ∀ p, h'.slot p = .removed → h.slot p = .removed) ∨
      (r = 0 ∧ (∃ v, m key = some v) ∧ h' = h) := by
  have hstop : ∀ r, insertLoop h key (hash key h.size) fuel 0 (hash key h.size)
      (h.item (hash key h.size)).key none = some r → Stop h hs key r.1 r.2.1 r.2.2 := by
    intro r hloop
    have h0 := probe_zero key h.size
    refine insertLoop_stop hs hk fuel 0 none r passed_zero (by simp) ?_
    rw [h0]
    exact hloop
  unfold insertFrom at hr
  split at hr
  · cases hr
  · rename_i pos tomb hloop
    cases hr
    obtain ⟨hno, j, hj, hun, hfree⟩ := (hstop _ hloop).free
    have hlt : (tomb.getD pos).toNat < h.size.toNat := by rw [hj]; exact probe_lt hs.power.pos key j
    have hnone := hm.eq_none hno
    have hlive : (h.item (tomb.getD pos)).isLive = false := isLive_false_of_slot hfree
    have hslot : (⟨some key, value⟩ : Item).slot = .live key value := Item.slot_live.2 ⟨rfl, hk.2⟩
    have hcount := h.liveCount_setItem hlt ⟨some key, value⟩
    rw [hlive, isLive_mk hk, if_neg nofun, if_pos rfl, Nat.sub_zero] at hcount
    have hnew := h.slot_setItem hlt ⟨some key, value⟩
    rw [hslot] at hnew
    refine Or.inl ⟨rfl, hnone, ⟨hs.power, ?_, ?_, ?_⟩, ?_, rfl, hcount, ?_⟩
    · rw [Hashmap.setCount_slot, hnew, hj]
      exact hs.table.place hun hno value
    · intro p k' v' hp
      rw [Hashmap.setCount_slot, hnew] at hp
      by_cases hpq : p = (tomb.getD pos).toNat
      · subst hpq
        rw [Function.update_self] at hp
        cases hp
        exact hk.1
      · rw [Function.update_of_ne hpq] at hp
        exact hs.short hp
    · have hle := h.liveCount_le
      have hbound : h.size.toNat < 2 ^ 32 := h.size.toNat_lt
      have hfull : (h.setItem (tomb.getD pos) ⟨some key, value⟩).liveCount ≤ h.size.toNat :=
        Hashmap.liveCount_le _
      rw [Hashmap.setCount_count, Hashmap.setCount_liveCount, Hashmap.setItem_count, UInt32.toNat_add, hs.count_eq,
        hcount]
      exact Nat.mod_eq_of_lt (by rw [UInt32.toNat_one]; omega)
    · rw [Hashmap.setCount_slot, hnew]
      refine hm.place ?_ hnone value
      intro k' v' hv
      rcases hfree with hfree | hfree <;> rw [hfree] at hv <;> cases hv
    · intro p hp
      rw [Hashmap.setCount_slot, hnew] at hp
      by_cases hpq : p = (tomb.getD pos).toNat
      · subst hpq
        rw [Function.update_self] at hp
        cases hp
      · rw [Function.update_of_ne hpq] at hp
        exact hp
  · rename_i pos k' tomb hloop
    cases hr
    obtain ⟨i, -, -, hcase, -⟩ := (hstop _ hloop).stop
    rcases hcase with ⟨hne, -⟩ | ⟨-, v, hv⟩
    · cases hne
    · exact Or.inr ⟨rfl, ⟨v, hm.eq_some hv⟩, rfl⟩

/-! ### Termination of insertions -/

theorem exists_empty {h : Hashmap} (hroom : h.liveCount < h.size.toNat) (hmarks : ∀ p, h.slot p ≠ .removed) :
    ∃ p < h.size.toNat, h.slot p = .empty := by
  by_contra hfull
  refine Nat.ne_of_lt hroom ?_
  rw [← h.items_length, Hashmap.liveCount, List.countP_eq_length]
  intro it hit
  obtain ⟨p, hp, rfl⟩ := List.getElem_of_mem hit
  rw [Item.isLive, ← h.slot_getElem hp]
  cases hs : h.slot p with
  | live k v => rfl
  | empty => exact absurd ⟨p, by rw [← h.items_length]; exact hp, hs⟩ hfull
  | removed => exact absurd hs (hmarks p)

/-- In a table with an empty slot and no removed marks the loop of `hashmap_insert` ends. -/
theorem insertFrom_returns {h : Hashmap} (hs : h.Sound) (hroom : h.liveCount < h.size.toNat)
    (hmarks : ∀ p, h.slot p ≠ .removed) (key : Key) (value : UInt32) :
    ∃ r, insertFrom h.size.toNat h key value (hash key h.size) (h.item (hash key h.size)).key = some r := by
  obtain ⟨p, hp, hempty⟩ := exists_empty hroom hmarks
  obtain ⟨j, hj, hprobe⟩ := exists_probe hs.power key hp
  have hhalt : Halts (h.item (probe key h.size j)).key key := by
    rw [Item.slot_empty.1 (by rw [Hashmap.slot_item, hprobe, hempty])]
    exact halts_none key
  obtain ⟨n, hn⟩ : ∃ n, h.size.toNat = n + 1 := ⟨h.size.toNat - 1, by omega⟩
  rw [insertFrom_returns_iff, hn]
  refine insertLoop_returns h key (hash key h.size) n 0 _ _ none ?_
  rcases Nat.eq_zero_or_pos j with rfl | hpos
  · rw [probe_zero] at hhalt
    exact Or.inl hhalt
  · exact Or.inr ⟨j, hpos, by omega, hhalt⟩

/-- Below the growth limit `hashmap_insert` probes the table it was given. -/
theorem hashmapInsert_low {h : Hashmap} {key : Key} (hk : ValidKey key) (hlow : h.loadTooHigh = false) (fuel : ℕ)
    (value : UInt32) :
    hashmapInsert (fuel + 1) h key value =
      insertFrom fuel h key value (hash key h.size) (h.item (hash key h.size)).key := by
  rw [hashmapInsert, if_neg (by have := hk.1; omega), if_neg (by rw [hlow]; exact nofun)]

/-! ### Resizing -/

theorem isLive_iff {it : Item} : it.isLive = true ↔ ∃ k v, it.slot = .live k v := by
  unfold Item.isLive
  cases it.slot <;> simp

private theorem update_eq_some_iff {m : Key → Option UInt32} {k : Key} (hk : m k = none) (v : UInt32) (k' : Key)
    (v' : UInt32) : Function.update m k (some v) k' = some v' ↔ m k' = some v' ∨ (k' = k ∧ v' = v) := by
  by_cases hkk : k' = k
  · subst hkk
    rw [Function.update_self, hk, Option.some_inj]
    simp [eq_comm]
  · rw [Function.update_of_ne hkk]
    simp [hkk]

/-- A live item with a new key is bound when the load stays low. -/
private theorem storeItem_live {fuel : ℕ} {h h₁ : Hashmap} (hs : h.Sound) {m : Key → Option UInt32}
    (hm : Denotes h.slot m) (hrem : ∀ p, h.slot p ≠ .removed) {it : Item} {k : Key} {v : UInt32}
    (hkv : it.slot = .live k v) (hshort : k.length ≤ KEY_MAXLEN) (hnone : m k = none)
    (hroom : 4 * (h.liveCount + 1) ≤ 3 * h.size.toNat) (hr : storeItem (hashmapInsert fuel) h it = some h₁) :
    h₁.Sound ∧ h₁.size = h.size ∧ h₁.liveCount = h.liveCount + 1 ∧ (∀ p, h₁.slot p ≠ .removed) ∧
      Denotes h₁.slot (Function.update m k (some v)) := by
  have hit := (Item.slot_live.1 hkv).1
  have hk : ValidKey k := ⟨hshort, (Item.slot_live.1 hkv).2⟩
  have hlow : h.loadTooHigh = false := by
    rw [Hashmap.loadTooHigh, decide_eq_false_iff_not, hs.count_eq]
    omega
  have hstore : storeItem (hashmapInsert fuel) h it = (hashmapInsert fuel h k v).map Prod.fst := by
    simp [hit, storeItem, hk.not_tombstone]
  rw [hstore] at hr
  obtain ⟨⟨h₂, r⟩, hins, rfl⟩ := Option.map_eq_some_iff.1 hr
  cases fuel with
  | zero => cases hins
  | succ fuel =>
    rw [hashmapInsert_low hk hlow] at hins
    rcases insertFrom_cases hs hm hk hins with ⟨-, -, hs₁, hm₁, hsize₁, hcount₁, hrem₁⟩ | ⟨-, ⟨w, hw⟩, -⟩
    · exact ⟨hs₁, hsize₁, hcount₁, fun p hp => hrem p (hrem₁ p hp), hm₁⟩
    · rw [hnone] at hw
      cases hw

/-- An item without a live key is passed over. -/
theorem storeItem_skip {fuel : ℕ} (h : Hashmap) {it : Item} (hlive : ¬ it.isLive = true) :
    storeItem (hashmapInsert fuel) h it = some h := by
  unfold storeItem
  cases hkey : it.key with
  | none => rfl
  | some k =>
    by_cases ht : sameKey k TOMBSTONE = true
    · simp [ht]
    · exact absurd (isLive_iff.2 ⟨k, it.value, Item.slot_live.2
        ⟨by rw [← hkey], fun he => ht (sameKey_tombstone.2 he)⟩⟩) hlive

/-- Storing items with pairwise different live keys into a table that has room for all of them.  The invariant of
the loop: the bindings of the table are its first ones and those of the items already stored. -/
private theorem storeItems_spec {fuel : ℕ} (L : List Item) :
    ∀ {h h' : Hashmap} {m : Key → Option UInt32}, h.Sound → Denotes h.slot m → (∀ p, h.slot p ≠ .removed) →
      (∀ it ∈ L, ∀ k v, it.slot = .live k v → k.length ≤ KEY_MAXLEN ∧ m k = none) →
      L.Pairwise (fun a b => ∀ k v w, a.slot = .live k v → b.slot ≠ .live k w) →
      4 * (h.liveCount + L.countP Item.isLive) ≤ 3 * h.size.toNat →
      L.foldlM (storeItem (hashmapInsert fuel)) h = some h' →
      h'.Sound ∧ h'.size = h.size ∧ h'.liveCount = h.liveCount + L.countP Item.isLive ∧
        (∀ p, h'.slot p ≠ .removed) ∧
        ∃ m', Denotes h'.slot m' ∧
          ∀ k v, m' k = some v ↔ m k = some v ∨ ∃ it ∈ L, it.slot = .live k v := by
  induction L with
  | nil =>
    intro h h' m hs hm hrem _ _ _ hr
    cases hr
    exact ⟨hs, rfl, rfl, hrem, m, hm, fun k v => by simp⟩
  | cons it L ih =>
    intro h h' m hs hm hrem hnew hpair hroom hr
    rw [List.pairwise_cons] at hpair
    rw [List.foldlM_cons] at hr
    have hnew' : ∀ it' ∈ L, ∀ k v, it'.slot = .live k v → k.length ≤ KEY_MAXLEN ∧ m k = none :=
      fun it' hit' => hnew it' (List.mem_cons_of_mem _ hit')
    by_cases hlive : it.isLive = true
    · obtain ⟨k, v, hkv⟩ := isLive_iff.1 hlive
      obtain ⟨hshort, hnone⟩ := hnew it (List.mem_cons_self ..) k v hkv
      have hcnt : (it :: L).countP Item.isLive = L.countP Item.isLive + 1 := List.countP_cons_of_pos hlive
      rw [hcnt] at hroom ⊢
      -- the remaining keys differ from the stored one, so they are still unbound
      obtain ⟨h₁, hstore, hr⟩ := Option.bind_eq_some_iff.1 hr
      obtain ⟨hs₁, hsize₁, hcount₁, hrem₁, hm₁⟩ := storeItem_live hs hm hrem hkv hshort hnone (by omega) hstore
      have hnew₁ : ∀ it' ∈ L, ∀ k' v', it'.slot = .live k' v' →
          k'.length ≤ KEY_MAXLEN ∧ Function.update m k (some v) k' = none := by
        intro it' hit' k' v' hk'
        refine ⟨(hnew' it' hit' k' v' hk').1, ?_⟩
        have hne : k' ≠ k := by
          rintro rfl
          exact hpair.1 it' hit' k' v v' hkv hk'
        rw [Function.update_of_ne hne]
        exact (hnew' it' hit' k' v' hk').2
      obtain ⟨hs', hsize', hcount', hrem', m', hm', hm'iff⟩ :=
        ih hs₁ hm₁ hrem₁ hnew₁ hpair.2 (by rw [hcount₁, hsize₁]; omega) hr
      refine ⟨hs', hsize'.trans hsize₁, by omega, hrem', m', hm', fun k' v' => ?_⟩
      rw [hm'iff, update_eq_some_iff hnone v, or_assoc]
      refine or_congr_right ?_
      simp only [List.mem_cons, exists_eq_or_imp, hkv, Slot.live.injEq]
      exact or_congr_left (by constructor <;> (rintro ⟨rfl, rfl⟩; exact ⟨rfl, rfl⟩))
    · rw [storeItem_skip h hlive] at hr
      have hcnt : (it :: L).countP Item.isLive = L.countP Item.isLive := List.countP_cons_of_neg hlive
      rw [hcnt] at hroom ⊢
      obtain ⟨hs', hsize', hcount', hrem', m', hm', hm'iff⟩ := ih hs hm hrem hnew' hpair.2 hroom hr
      refine ⟨hs', hsize', hcount', hrem', m', hm', fun k' v' => ?_⟩
      rw [hm'iff]
      refine or_congr_right ?_
      simp only [List.mem_cons, exists_eq_or_imp]
      exact (or_iff_right fun h' => hlive (isLive_iff.2 ⟨k', v', h'⟩)).symm

theorem blank_slot {size : UInt32} (hs : 0 < size.toNat) : (Hashmap.blank size hs).slot = fun _ => Slot.empty := by
  funext p
  have hitem : (List.replicate size.toNat Item.null).getD p Item.null = Item.null := by
    rw [List.getD_eq_getElem?_getD, List.getElem?_replicate]
    split <;> rfl
  show ((List.replicate size.toNat Item.null).getD p Item.null).slot = _
  rw [hitem]
  rfl

theorem blank_sound {size : UInt32} (hs : PowerSize size) : (Hashmap.blank size hs.pos).Sound := by
  have hslot := blank_slot hs.pos
  refine ⟨hs, by rw [hslot]; exact wellFormed_empty, fun hp => ?_, ?_⟩
  · rw [hslot] at hp
    cases hp
  · show 0 = (List.replicate size.toNat Item.null).countP Item.isLive
    rw [List.countP_replicate]
    rfl

/-- The items of a table are its slots. -/
private theorem mem_items_iff {h : Hashmap} {k : Key} {v : UInt32} :
    (∃ it ∈ h.items, it.slot = .live k v) ↔ Binds h.slot k v := by
  constructor
  · rintro ⟨it, hit, hslot⟩
    obtain ⟨p, hp, rfl⟩ := List.mem_iff_getElem.1 hit
    exact ⟨p, (h.slot_getElem hp).trans hslot⟩
  · rintro ⟨p, hp⟩
    have hlt : p < h.items.length := by rw [h.items_length]; exact Hashmap.slot_lt_of_live hp
    exact ⟨h.items[p], List.getElem_mem hlt, (h.slot_getElem hlt).symm.trans hp⟩

private theorem items_pairwise {h : Hashmap} (hk : h.Keyed) :
    h.items.Pairwise (fun a b => ∀ k v w, a.slot = .live k v → b.slot ≠ .live k w) := by
  rw [List.pairwise_iff_getElem]
  intro i j hi hj hij k v w hv hw
  have := hk.distinct ((h.slot_getElem hi).trans hv) ((h.slot_getElem hj).trans hw)
  omega

/-- Storing the first items of a table into an empty one of a power of two size with room for the live keys. -/
theorem Hashmap.Keyed.storeItems {h h₁ : Hashmap} (hk : h.Keyed) {newSize : UInt32} (hpow : PowerSize newSize)
    (hroom : 4 * h.liveCount ≤ 3 * newSize.toNat) {L R : List Item} (hL : h.items = L ++ R) {fuel : ℕ}
    (hr : L.foldlM (storeItem (hashmapInsert fuel)) (Hashmap.blank newSize hpow.pos) = some h₁) :
    h₁.Sound ∧ h₁.size = newSize ∧ h₁.liveCount = L.countP Item.isLive ∧ (∀ p, h₁.slot p ≠ .removed) ∧
      ∃ m, Denotes h₁.slot m ∧ ∀ k v, m k = some v ↔ ∃ it ∈ L, it.slot = .live k v := by
  have hblank := blank_sound hpow
  have hempty := blank_slot hpow.pos
  have hzero : (Hashmap.blank newSize hpow.pos).liveCount = 0 := hblank.count_eq.symm.trans rfl
  have hshort : ∀ it ∈ L, ∀ k v, it.slot = .live k v → k.length ≤ KEY_MAXLEN ∧ (none : Option UInt32) = none := by
    intro it hit k v hslot
    obtain ⟨p, hp⟩ := mem_items_iff.1 ⟨it, by rw [hL]; exact List.mem_append_left R hit, hslot⟩
    exact ⟨hk.short hp, rfl⟩
  have hpair := items_pairwise hk
  rw [hL] at hpair
  rw [Hashmap.liveCount, hL, List.countP_append] at hroom
  obtain ⟨hs₁, hsize, hcount, hrem, m, hm, hmiff⟩ :=
    storeItems_spec L hblank (m := fun _ => none) (by rw [hempty]; exact denotes_empty)
      (fun p hp => by rw [hempty] at hp; cases hp) hshort (List.pairwise_append.1 hpair).1
      (by rw [hzero, Nat.zero_add]; exact le_trans (by omega) hroom) hr
  exact ⟨hs₁, hsize, by rw [hcount, hzero, Nat.zero_add], hrem, m, hm, fun k v => by rw [hmiff]; simp⟩

/-- A resizing to a power of two with room for the live keys builds a sound table with the same bindings and no
removed mark. -/
theorem Hashmap.Keyed.resize {h h' : Hashmap} (hk : h.Keyed) {newSize : UInt32} (hpow : PowerSize newSize)
    (hroom : 4 * h.liveCount ≤ 3 * newSize.toNat) {fuel : ℕ} (hr : hashmapResize fuel h newSize = some (.table h')) :
    h'.Sound ∧ h'.size = newSize ∧ h'.liveCount = h.liveCount ∧
      (∀ k v, Binds h'.slot k v ↔ Binds h.slot k v) ∧ ∀ p, h'.slot p ≠ .removed := by
  rw [hashmapResize, resizeWith_eq_table hpow.pos] at hr
  obtain ⟨hs', hsize, hcount, hrem, m, hm, hmiff⟩ := hk.storeItems hpow hroom (List.append_nil _).symm hr
  refine ⟨hs', hsize, hcount, fun k v => ?_, hrem⟩
  rw [hm k v, hmiff k v, mem_items_iff]

/-- A resizing of a sound table keeps the map it denotes. -/
theorem hashmapResize_spec {h h' : Hashmap} (hs : h.Sound) {m : Key → Option UInt32} (hm : Denotes h.slot m)
    {newSize : UInt32} (hpow : PowerSize newSize) (hroom : 4 * h.liveCount ≤ 3 * newSize.toNat) {fuel : ℕ}
    (hr : hashmapResize fuel h newSize = some (.table h')) :
    h'.Sound ∧ h'.size = newSize ∧ h'.liveCount = h.liveCount ∧ Denotes h'.slot m ∧ ∀ p, h'.slot p ≠ .removed := by
  obtain ⟨hs', hsize, hcount, hbinds, hrem⟩ := hs.keyed.resize hpow hroom hr
  exact ⟨hs', hsize, hcount, fun k v => (hbinds k v).trans (hm k v), hrem⟩

end NyanChat
