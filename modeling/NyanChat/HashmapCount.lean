import NyanChat.HashmapTermination

/-!
# The count and the bindings of the hash map

A `Tidy` table counts its live items, and holds every live key once.  The calls keep this, and the bindings of the
keys other than their own, except when they write a removed mark as if it were a key, take a long key for its first
`KEY_MAXLEN` bytes, or write the slot of another entry after a growth (`HashmapCall.Harmless`, `run_tidy`).
-/

namespace NyanChat

open OpenAddressing

/-- The table counts its live items, and each live key is short and live once. -/
structure Tidy (h : Hashmap) : Prop where
  power : PowerSize h.size
  keyed : h.Keyed
  count_eq : h.count.toNat = h.liveCount

/-- The keys other than `key` have the same bindings in both tables. -/
def Frames (key : Key) (h h' : Hashmap) : Prop := ∀ k v, k ≠ key → (Binds h'.slot k v ↔ Binds h.slot k v)

/-- An insertion that grows the table writes no live slot and no second entry of its key.  Its key is in its home
slot; or the key is absent, and the home slot held another key or has an empty slot at its place in the grown table;
or the walk through the grown table meets the key. -/
def GrowsCleanly (h : Hashmap) (key : Key) : Prop :=
  let index := hash key h.size
  let home := (h.item index).key
  home = some key ∨ ∀ fuel g, hashmapResize fuel h (2 * h.size) = some (.table g) →
    (key ≠ TOMBSTONE ∧ (∀ v, ¬ Binds h.slot key v) ∧
      (home ≠ none ∧ home ≠ some TOMBSTONE ∨ (g.item index).key = none)) ∨
    (home ≠ none ∧ ∃ i, 0 < i ∧ (g.item (probeFrom index g.size i)).key = some key ∧
      ∀ j, 0 < j → j < i → (g.item (probeFrom index g.size j)).key ≠ none)

/-- An insertion that leaves the table, or adds an absent key other than the removed mark to a slot that is not
live. -/
def InsertsCleanly (h : Hashmap) (key : Key) : Prop :=
  KEY_MAXLEN < key.length ∨
    if h.loadTooHigh then GrowsCleanly h key
    else hashmapFind h key ≠ -1 ∨ (key ≠ TOMBSTONE ∧ ∀ v, ¬ Binds h.slot key v)

/-- The calls that keep the count, and touch their own key only.  A removal of the mark itself does when it makes
the table shrink, which counts the live items again. -/
def HashmapCall.Harmless (h : Hashmap) : HashmapCall → Prop
  | insert k _ => InsertsCleanly h k
  | increase k d => if hashmapFind h k = -1 then InsertsCleanly h k else k.length ≤ KEY_MAXLEN ∨ d = 0
  | get _ | find _ => True
  | remove k => hashmapFind h k = -1 ∨ ValidKey k ∨ (k = TOMBSTONE ∧ (h.setCount (h.count - 1)).loadTooLow)

variable {h g h' : Hashmap} {key : Key}

theorem Frames.refl (key : Key) (h : Hashmap) : Frames key h h := fun _ _ _ => Iff.rfl

theorem Frames.trans (hg : Frames key h g) (hg' : Frames key g h') : Frames key h h' :=
  fun k v hk => (hg' k v hk).trans (hg k v hk)

theorem sameKey_self (key : Key) : sameKey key key = true := beq_self_eq_true _

theorem Hashmap.Sound.tidy (hs : h.Sound) : Tidy h := ⟨hs.power, hs.keyed, hs.count_eq⟩

/-! ### Writing an item -/

theorem Tidy.write (ht : Tidy h) {pos : UInt32} (hpos : pos.toNat < h.size.toNat) {it : Item} {count : UInt32}
    (hnew : ∀ k v, it.slot = .live k v → k.length ≤ KEY_MAXLEN ∧ ∀ q w, h.slot q = .live k w → q = pos.toNat)
    (hcount : count.toNat + (if (h.item pos).isLive then 1 else 0) = h.liveCount + if it.isLive then 1 else 0) :
    Tidy ((h.setItem pos it).setCount count) := by
  have hslot : ∀ {p k v}, ((h.setItem pos it).setCount count).slot p = .live k v →
      (p = pos.toNat ∧ it.slot = .live k v) ∨ (p ≠ pos.toNat ∧ h.slot p = .live k v) := by
    intro p k v hp
    rw [Hashmap.setCount_slot, h.slot_setItem hpos] at hp
    rcases eq_or_ne p pos.toNat with rfl | hne
    · rw [Function.update_self] at hp
      exact Or.inl ⟨rfl, hp⟩
    · rw [Function.update_of_ne hne] at hp
      exact Or.inr ⟨hne, hp⟩
  refine ⟨ht.power, ⟨fun hp hq => ?_, fun hp => ?_⟩, ?_⟩
  · rcases hslot hp with ⟨hp', hpk⟩ | ⟨hp', hpk⟩ <;> rcases hslot hq with ⟨hq', hqk⟩ | ⟨hq', hqk⟩
    · rw [hp', hq']
    · exact absurd ((hnew _ _ hpk).2 _ _ hqk) hq'
    · exact absurd ((hnew _ _ hqk).2 _ _ hpk) hp'
    · exact ht.keyed.distinct hpk hqk
  · rcases hslot hp with ⟨-, hpk⟩ | ⟨-, hpk⟩
    · exact (hnew _ _ hpk).1
    · exact ht.keyed.short hpk
  · rw [Hashmap.setCount_count, Hashmap.setCount_liveCount, h.liveCount_setItem hpos]
    have hlive : (if (h.item pos).isLive then 1 else 0) ≤ h.liveCount := by
      split
      · rename_i hlive
        exact List.countP_pos_iff.2 ⟨h.item pos, item_mem h hpos, hlive⟩
      · exact Nat.zero_le _
    omega

/-- A written slot holds no other key before and after. -/
theorem frames_write {pos : UInt32} (hpos : pos.toNat < h.size.toNat) {it : Item}
    (hold : ∀ k v, h.slot pos.toNat = .live k v → k = key) (hnew : ∀ k v, it.slot = .live k v → k = key)
    (count : UInt32) : Frames key h ((h.setItem pos it).setCount count) := by
  intro k v hk
  rw [Hashmap.setCount_slot, h.slot_setItem hpos]
  constructor
  · rintro ⟨p, hp⟩
    rcases eq_or_ne p pos.toNat with rfl | hne
    · rw [Function.update_self] at hp
      exact absurd (hnew k v hp) hk
    · rw [Function.update_of_ne hne] at hp
      exact ⟨p, hp⟩
  · rintro ⟨p, hp⟩
    refine ⟨p, ?_⟩
    rw [Function.update_of_ne, hp]
    rintro rfl
    exact hk (hold k v hp)

private theorem not_live_of_free {p : ℕ} (hfree : h.slot p = .empty ∨ h.slot p = .removed) (k : Key) (v : UInt32) :
    h.slot p ≠ .live k v := by
  rcases hfree with hp | hp <;> rw [hp] <;> exact nofun

/-- A new key in a slot that is not live. -/
theorem Tidy.add (ht : Tidy h) (hkey : ValidKey key) (hnew : ∀ v, ¬ Binds h.slot key v) {pos : UInt32}
    (hpos : pos.toNat < h.size.toNat) (hfree : h.slot pos.toNat = .empty ∨ h.slot pos.toNat = .removed)
    (value : UInt32) :
    Tidy ((h.setItem pos ⟨some key, value⟩).setCount (h.count + 1)) ∧
      Frames key h ((h.setItem pos ⟨some key, value⟩).setCount (h.count + 1)) := by
  have hslot : (⟨some key, value⟩ : Item).slot = .live key value := Item.slot_live.2 ⟨rfl, hkey.2⟩
  have hold : (h.item pos).isLive = false := by
    rw [← h.slot_item] at hfree
    unfold Item.isLive
    rcases hfree with hp | hp <;> rw [hp]
  constructor
  · refine ht.write hpos (fun k v hk => ?_) ?_
    · rw [hslot] at hk
      cases hk
      exact ⟨hkey.1, fun q w hq => absurd ⟨q, hq⟩ (hnew w)⟩
    · -- the count does not wrap: a slot of the table is not live
      have hle := h.liveCount_le
      have hsize := h.size.toNat_lt
      have hlast := Hashmap.liveCount_le (h.setItem pos ⟨some key, value⟩)
      rw [h.liveCount_setItem hpos, hold, Item.isLive, hslot, if_neg Bool.false_ne_true, if_pos rfl,
        Hashmap.setItem_size] at hlast
      rw [hold, if_neg Bool.false_ne_true, Item.isLive, hslot, if_pos rfl, UInt32.toNat_add, UInt32.toNat_one,
        ht.count_eq, Nat.mod_eq_of_lt (by omega)]
  · refine frames_write hpos (fun k v hk => absurd hk (not_live_of_free hfree k v)) (fun k v hk => ?_) _
    rw [hslot] at hk
    cases hk
    rfl

/-! ### Inserting -/

/-- A slot where a loop stops at no key is empty. -/
private theorem slot_empty_of_key {pos : UInt32} (hkey : none = (h.item pos).key) : h.slot pos.toNat = .empty :=
  Hashmap.slot_of_key_none hkey.symm

/-- An insertion that starts at `index` with the key `home` writes this slot, or one that is not live. -/
private theorem insertLoop_writes (hs : PowerSize h.size) {index : UInt32} {home : Option Key} {n : ℕ} {pos : UInt32}
    {tomb : Option UInt32} (hloop : insertLoop h key index n 0 index home none = some (pos, none, tomb)) :
    (tomb.getD pos = index ∧ (home = none ∨ home = some TOMBSTONE)) ∨
      ((tomb.getD pos).toNat < h.size.toNat ∧
        (h.slot (tomb.getD pos).toNat = .empty ∨ h.slot (tomb.getD pos).toNat = .removed)) := by
  by_cases hhalt : Halts home key
  · rcases n with _ | n
    · cases hloop
    rw [insertLoop_of_halts hhalt] at hloop
    obtain ⟨rfl, rfl, rfl⟩ : index = pos ∧ home = none ∧ none = tomb := by simpa using hloop
    exact Or.inl ⟨rfl, Or.inl rfl⟩
  · obtain ⟨⟨j, -, hpos, -⟩, hkey, -, -, -, hmark⟩ := insertLoop_walk n 0 _ _ none _ hhalt hloop
    cases tomb with
    | none =>
      have hpos' : pos = probeFrom index h.size j := hpos
      refine Or.inr ⟨?_, Or.inl (slot_empty_of_key hkey)⟩
      show pos.toNat < h.size.toNat
      rw [hpos']
      exact probeFrom_lt hs.pos _ j
    | some t =>
      rcases hmark t rfl with hold | ⟨hcur, rfl⟩ | ⟨hcur, hlt⟩
      · cases hold
      · exact Or.inl ⟨rfl, Or.inr hcur⟩
      · exact Or.inr ⟨hlt, Or.inr (Item.slot_removed.2 hcur)⟩

/-- The slot that an insertion into the table it read writes. -/
private theorem insertLoop_free (hs : PowerSize h.size) {n : ℕ} {pos : UInt32} {tomb : Option UInt32}
    (hloop : insertLoop h key (hash key h.size) n 0 (hash key h.size) (h.item (hash key h.size)).key none =
      some (pos, none, tomb)) :
    (tomb.getD pos).toNat < h.size.toNat ∧
      (h.slot (tomb.getD pos).toNat = .empty ∨ h.slot (tomb.getD pos).toNat = .removed) := by
  have hhome : (hash key h.size).toNat < h.size.toNat := by
    rw [← probe_zero]
    exact probe_lt hs.pos key 0
  rcases insertLoop_writes hs hloop with ⟨hpos, hcur⟩ | hwrites
  · rw [hpos]
    exact ⟨hhome, hcur.imp Hashmap.slot_of_key_none Item.slot_removed.2⟩
  · exact hwrites

/-- The loop of an insertion meets a key that `hashmap_find` finds. -/
private theorem insertLoop_found {i : ℕ} {k' : Key} (hfound : FoundAt h key i k') {n : ℕ}
    {r : UInt32 × Option Key × Option UInt32}
    (hloop : insertLoop h key (hash key h.size) n 0 (hash key h.size) (h.item (hash key h.size)).key none = some r) :
    r.2.1 ≠ none := by
  have hzero : probe key h.size 0 = hash key h.size := probe_zero key h.size
  have hhalti : Halts (h.item (probe key h.size i)).key key := by
    rw [hfound.item, halts_some]
    exact hfound.same
  by_cases hhalt : Halts (h.item (hash key h.size)).key key
  · obtain rfl : i = 0 := by
      by_contra hne
      exact hfound.skips 0 (Nat.pos_of_ne_zero hne) (by rw [hzero]; exact hhalt)
    rcases n with _ | n
    · cases hloop
    rw [insertLoop_of_halts hhalt] at hloop
    obtain rfl := Option.some.inj hloop
    rw [← hzero, hfound.item]
    exact Option.some_ne_none k'
  · obtain ⟨⟨j, hj, hpos, hpassed⟩, hkey, hhaltj, -⟩ := insertLoop_walk n 0 _ _ none _ hhalt hloop
    -- both loops stop at the first slot of the walk that halts them
    rcases Nat.lt_trichotomy i j with hlt | rfl | hgt
    · rcases Nat.eq_zero_or_pos i with rfl | hi
      · rw [hzero] at hhalti
        exact absurd hhalti hhalt
      · exact absurd hhalti (hpassed i hi hlt)
    · have hpos' : r.1 = probe key h.size i := hpos
      rw [hkey, hpos', hfound.item]
      exact Option.some_ne_none k'
    · have hpos' : r.1 = probe key h.size j := hpos
      rw [hkey, hpos'] at hhaltj
      exact absurd hhaltj (hfound.skips j hgt)

/-- The end of an insertion, when a write goes to a slot that is not live and the key is absent. -/
private theorem Tidy.insertFrom (ht : Tidy h) {fuel : ℕ} {value index : UInt32} {cur : Option Key}
    {r : Hashmap × Int} (hr : NyanChat.insertFrom fuel h key value index cur = some r)
    (hfree : ∀ pos tomb, insertLoop h key index fuel 0 index cur none = some (pos, none, tomb) →
      ValidKey key ∧ (∀ v, ¬ Binds h.slot key v) ∧ (tomb.getD pos).toNat < h.size.toNat ∧
        (h.slot (tomb.getD pos).toNat = .empty ∨ h.slot (tomb.getD pos).toNat = .removed)) :
    Tidy r.1 ∧ Frames key h r.1 := by
  unfold NyanChat.insertFrom at hr
  split at hr
  · cases hr
  · rename_i pos tomb hloop
    cases hr
    obtain ⟨hkey, hnew, hpos, hslot⟩ := hfree pos tomb hloop
    exact ht.add hkey hnew hpos hslot value
  · cases hr
    exact ⟨ht, Frames.refl key h⟩

/-- The slot that an insertion writes in the table that it grew. -/
private theorem insertLoop_grown (hs : g.Sound) (hunmarked : ∀ p, g.slot p ≠ .removed) {index : UInt32}
    (hindex : index.toNat < g.size.toNat) {home : Option Key}
    (hhome : home ≠ none ∧ home ≠ some TOMBSTONE ∨ (g.item index).key = none) {n : ℕ} {pos : UInt32}
    {tomb : Option UInt32} (hloop : insertLoop g key index n 0 index home none = some (pos, none, tomb)) :
    (tomb.getD pos).toNat < g.size.toNat ∧ g.slot (tomb.getD pos).toNat = .empty := by
  rcases insertLoop_writes hs.power hloop with ⟨hpos, hcur⟩ | ⟨hlt, hslot⟩
  · rw [hpos]
    rcases hhome with ⟨hne, hmark⟩ | hempty
    · exact absurd hcur (not_or.2 ⟨hne, hmark⟩)
    · exact ⟨hindex, Hashmap.slot_of_key_none hempty⟩
  · exact ⟨hlt, hslot.resolve_right (hunmarked _)⟩

/-- An insertion that grows the table. -/
private theorem Tidy.insert_grown (ht : Tidy h) (hkey : key.length ≤ KEY_MAXLEN) (hclean : GrowsCleanly h key)
    {fuel : ℕ} {value : UInt32} (hgrow : hashmapResize fuel h (2 * h.size) = some (.table g)) {r : Hashmap × Int}
    (hr : NyanChat.insertFrom fuel g key value (hash key h.size) (h.item (hash key h.size)).key = some r) :
    Tidy r.1 ∧ Frames key h r.1 := by
  obtain ⟨hpow, hdouble⟩ := powerSize_double ht.power (pos_of_resizeWith hgrow)
  have hle := h.liveCount_le
  obtain ⟨hs, hsize, -, hbinds, hunmarked⟩ := ht.keyed.resize hpow (by omega) hgrow
  have hgrown : Frames key h g := fun k v _ => hbinds k v
  have hindex : (hash key h.size).toNat < g.size.toNat := by
    have hlt := probe_lt ht.power.pos key 0
    rw [probe_zero] at hlt
    rw [hsize]
    omega
  have hfinish : Tidy r.1 ∧ Frames key g r.1 := by
    refine hs.tidy.insertFrom hr fun pos tomb hloop => ?_
    rcases hclean with hhome | hclean
    · -- the key that was read in the home slot stops the loop
      rw [hhome] at hloop
      rcases fuel with _ | fuel
      · cases hloop
      rw [insertLoop_of_halts (halts_some.2 (sameKey_self key))] at hloop
      exact absurd hloop (by simp)
    · rcases hclean fuel g hgrow with ⟨hne, hnew, hhome⟩ | ⟨hhome, i, hi, hmeets, hpassed⟩
      · obtain ⟨hpos, hslot⟩ := insertLoop_grown hs hunmarked hindex hhome hloop
        exact ⟨⟨hkey, hne⟩, fun v hv => hnew v ((hbinds key v).1 hv), hpos, Or.inl hslot⟩
      · exfalso
        by_cases hhalt : Halts (h.item (hash key h.size)).key key
        · rcases fuel with _ | fuel
          · cases hloop
          rw [insertLoop_of_halts hhalt] at hloop
          exact hhome (by simpa using congrArg (fun r => r.map fun r => r.2.1) hloop)
        · obtain ⟨⟨j, hj, hpos, hearlier⟩, hkeyj, -⟩ := insertLoop_walk fuel 0 _ _ none _ hhalt hloop
          have hpos' : pos = probeFrom (hash key h.size) g.size j := hpos
          have hnone : (g.item (probeFrom (hash key h.size) g.size j)).key = none := by rw [← hpos']; exact hkeyj.symm
          rcases Nat.lt_trichotomy i j with hlt | rfl | hgt
          · exact hearlier i hi hlt (by rw [hmeets]; exact halts_some.2 (sameKey_self key))
          · rw [hmeets] at hnone
            cases hnone
          · exact hpassed j hj hgt hnone
  exact ⟨hfinish.1, hgrown.trans hfinish.2⟩

theorem Tidy.insert (ht : Tidy h) (hclean : InsertsCleanly h key) {fuel : ℕ} {value : UInt32} {r : Hashmap × Int}
    (hr : hashmapInsert fuel h key value = some r) : Tidy r.1 ∧ Frames key h r.1 := by
  rcases fuel with _ | fuel
  · cases hr
  rw [hashmapInsert] at hr
  by_cases hlong : key.length > KEY_MAXLEN
  · rw [if_pos hlong] at hr
    cases hr
    exact ⟨ht, Frames.refl key h⟩
  · have hclean := hclean.resolve_left hlong
    rw [if_neg hlong] at hr
    dsimp only at hr
    split at hr
    · rename_i hhigh
      rw [if_pos hhigh] at hclean
      split at hr
      · cases hr
      · rename_i g hgrow
        exact ht.insert_grown (Nat.not_lt.1 hlong) hclean (bind_toTable.1 hgrow) hr
    · rename_i hlow
      rw [if_neg hlow] at hclean
      refine ht.insertFrom hr fun pos tomb hloop => ?_
      rcases hclean with hfind | ⟨hne, hnew⟩
      · rcases hashmapFind_walk h key with ⟨i, k', -, hfound⟩ | ⟨hno, -⟩
        · exact absurd rfl (insertLoop_found hfound hloop)
        · exact absurd hno hfind
      · obtain ⟨hpos, hslot⟩ := insertLoop_free ht.power hloop
        exact ⟨⟨Nat.not_lt.1 hlong, hne⟩, hnew, hpos, hslot⟩

/-! ### Increasing and removing -/

/-- The item that `hashmap_find` finds, and its key. -/
private theorem find_item (hs : PowerSize h.size) (hfind : hashmapFind h key ≠ -1) :
    ∃ pos, UInt32.ofNat (hashmapFind h key).toNat = pos ∧ pos.toNat < h.size.toNat ∧
      ∃ k', (h.item pos).key = some k' ∧ sameKey k' key = true := by
  rcases hashmapFind_walk h key with ⟨i, k', hpos, hfound⟩ | ⟨hno, -⟩
  · refine ⟨probe key h.size i, ?_, probe_lt hs.pos key i, k', hfound.item, hfound.same⟩
    rw [hpos, Int.toNat_natCast, UInt32.ofNat_toNat]
  · exact absurd hno hfind

/-- A short key is found as it is. -/
private theorem Tidy.eq_of_sameKey (ht : Tidy h) {pos : UInt32} {k' : Key} (hitem : (h.item pos).key = some k')
    (hkey : key.length ≤ KEY_MAXLEN) (hsame : sameKey k' key = true) : k' = key := by
  by_cases hmark : k' = TOMBSTONE
  · subst hmark
    exact (sameKey_iff (by decide) hkey).1 hsame
  · have hlive : h.slot pos.toNat = .live k' (h.item pos).value := by
      rw [← h.slot_item, Item.slot_live]
      exact ⟨by rw [← hitem], hmark⟩
    exact (sameKey_iff (ht.keyed.short hlive) hkey).1 hsame

private theorem setItem_item (h : Hashmap) {pos : UInt32} (hpos : pos.toNat < h.size.toNat) :
    h.setItem pos (h.item pos) = h := by
  have hlt : pos.toNat < h.items.length := by rw [h.items_length]; exact hpos
  rw [h.item_getElem hlt]
  obtain ⟨size, count, items, hlen, hsize⟩ := h
  simp only [Hashmap.setItem, Hashmap.mk.injEq, true_and]
  exact List.set_getElem_self hlt

/-- Another value for the key of a slot. -/
private theorem Tidy.setValue (ht : Tidy h) {pos : UInt32} (hpos : pos.toNat < h.size.toNat)
    (hitem : (h.item pos).key = some key) (value : UInt32) :
    Tidy (h.setItem pos ⟨some key, value⟩) ∧ Frames key h (h.setItem pos ⟨some key, value⟩) := by
  have hlive : (⟨some key, value⟩ : Item).isLive = (h.item pos).isLive := by
    by_cases hmark : sameKey key TOMBSTONE = true <;> simp [Item.isLive, Item.slot, hitem, hmark]
  have hslot : ∀ {k v}, (⟨some key, value⟩ : Item).slot = .live k v →
      k = key ∧ h.slot pos.toNat = .live k (h.item pos).value := by
    intro k v hk
    obtain ⟨heq, hne⟩ := Item.slot_live.1 hk
    cases heq
    refine ⟨rfl, ?_⟩
    rw [← h.slot_item, Item.slot_live]
    exact ⟨by rw [← hitem], hne⟩
  constructor
  · have hcount := ht.count_eq
    have htidy : Tidy ((h.setItem pos ⟨some key, value⟩).setCount h.count) := by
      refine ht.write hpos (fun k v hk => ?_) (by rw [hlive, hcount])
      exact ⟨ht.keyed.short (hslot hk).2, fun q w hq => ht.keyed.distinct hq (hslot hk).2⟩
    exact htidy
  · refine frames_write hpos (fun k v hk => ?_) (fun k v hk => (hslot hk).1) h.count
    rw [← h.slot_item, Item.slot_live] at hk
    rw [hk.1] at hitem
    exact Option.some.inj hitem

theorem Tidy.increase (ht : Tidy h) {d : UInt32} (hinsert : hashmapFind h key = -1 → InsertsCleanly h key)
    (hkey : hashmapFind h key ≠ -1 → key.length ≤ KEY_MAXLEN ∨ d = 0) {fuel : ℕ}
    (hr : hashmapIncrease fuel h key d = some h') : Tidy h' ∧ Frames key h h' := by
  unfold hashmapIncrease at hr
  dsimp only at hr
  split at hr
  · rename_i hneg
    obtain ⟨r, hins, rfl⟩ := Option.map_eq_some_iff.1 hr
    exact ht.insert (hinsert ((hashmapFind_neg_iff h key).1 hneg)) hins
  · rename_i hnonneg
    have hfind : hashmapFind h key ≠ -1 := fun hno => hnonneg (by omega)
    obtain ⟨pos, hposeq, hpos, k', hitem, hsame⟩ := find_item ht.power hfind
    rw [hposeq] at hr
    cases hr
    rcases hkey hfind with hshort | rfl
    · obtain rfl := ht.eq_of_sameKey hitem hshort hsame
      rw [hitem]
      exact ht.setValue hpos hitem _
    · rw [UInt32.add_zero, setItem_item h hpos]
      exact ⟨ht, Frames.refl key h⟩

/-- The mark of a removal changes no binding of another key, and none at all over a mark. -/
private theorem frames_mark {pos : UInt32} (hpos : pos.toNat < h.size.toNat) (hitem : (h.item pos).key = some key)
    (count : UInt32) : Frames key h ((h.setItem pos ⟨some TOMBSTONE, 0⟩).setCount count) := by
  refine frames_write hpos (fun k v hk => ?_) (fun k v hk => ?_) count
  · rw [← h.slot_item, Item.slot_live] at hk
    rw [hk.1] at hitem
    exact Option.some.inj hitem
  · rw [Item.slot_removed.2 rfl] at hk
    cases hk

/-- The removal of a key, before the table shrinks. -/
private theorem Tidy.mark (ht : Tidy h) (hkey : ValidKey key) {pos : UInt32} (hpos : pos.toNat < h.size.toNat)
    (hitem : (h.item pos).key = some key) : Tidy ((h.setItem pos ⟨some TOMBSTONE, 0⟩).setCount (h.count - 1)) := by
  have hmark : (⟨some TOMBSTONE, 0⟩ : Item).slot = .removed := Item.slot_removed.2 rfl
  have hlive : (h.item pos).isLive = true := by
    rw [Item.isLive, Item.slot_live.2 ⟨by rw [← hitem], hkey.2⟩]
  have hpositive : 0 < h.liveCount := List.countP_pos_iff.2 ⟨h.item pos, item_mem h hpos, hlive⟩
  have hone : (1 : UInt32) ≤ h.count := by
    rw [UInt32.le_iff_toNat_le, ht.count_eq]
    exact hpositive
  refine ht.write hpos (fun k v hk => ?_) ?_
  · rw [hmark] at hk
    cases hk
  · rw [hlive, if_pos rfl, Item.isLive, hmark, UInt32.toNat_sub_of_le _ _ hone, ht.count_eq]
    exact Nat.sub_add_cancel hpositive

/-- A shrink of a table whose count is at least the number of its live items. -/
private theorem shrink_tidy (hk : h.Keyed) (hpow : PowerSize h.size) (hlow : h.loadTooLow = true)
    (hcount : h.liveCount ≤ h.count.toNat + 1) {fuel : ℕ} (hr : hashmapResize fuel h (h.size / 2) = some (.table h')) :
    Tidy h' ∧ Frames key h h' := by
  rw [Hashmap.loadTooLow, Bool.and_eq_true, decide_eq_true_eq, decide_eq_true_eq] at hlow
  obtain ⟨hpow', hhalf⟩ := powerSize_half hpow (UInt32.lt_iff_toNat_lt.1 hlow.1)
  have hsize : 2 < h.size.toNat := UInt32.lt_iff_toNat_lt.1 hlow.1
  obtain ⟨hs, -, -, hbinds, -⟩ := hk.resize hpow' (by omega) hr
  exact ⟨hs.tidy, fun k v _ => hbinds k v⟩

theorem Tidy.remove (ht : Tidy h) (hharmless : hashmapFind h key = -1 ∨ ValidKey key ∨
      (key = TOMBSTONE ∧ (h.setCount (h.count - 1)).loadTooLow)) {fuel : ℕ} {r : Hashmap × UInt32}
    (hr : hashmapRemove fuel h key = some r) : Tidy r.1 ∧ Frames key h r.1 := by
  unfold hashmapRemove at hr
  dsimp only at hr
  split at hr
  · cases hr
    exact ⟨ht, Frames.refl key h⟩
  · rename_i hnonneg
    have hfind : hashmapFind h key ≠ -1 := fun hno => hnonneg (by omega)
    obtain ⟨pos, hposeq, hpos, k', hitem, hsame⟩ := find_item ht.power hfind
    have hshort : key.length ≤ KEY_MAXLEN := by
      rcases hharmless with hno | hvalid | ⟨rfl, -⟩
      · exact absurd hno hfind
      · exact hvalid.1
      · decide
    obtain rfl := ht.eq_of_sameKey hitem hshort hsame
    have hframes := frames_mark hpos hitem (h.count - 1)
    rw [hposeq] at hr
    rcases hharmless with hno | hvalid | ⟨rfl, hlow⟩
    · exact absurd hno hfind
    · have hmarked := ht.mark hvalid hpos hitem
      split at hr
      · rename_i hlow
        obtain ⟨h₂, hres, rfl⟩ := Option.map_eq_some_iff.1 hr
        have hcount := hmarked.count_eq
        obtain ⟨htidy, hframes'⟩ :=
          shrink_tidy hmarked.keyed ht.power hlow (by rw [hcount]; omega) (bind_toTable.1 hres)
        exact ⟨htidy, hframes.trans hframes'⟩
      · cases hr
        exact ⟨hmarked, hframes⟩
    · -- the mark is written over a mark, and the shrink counts the live items again
      have hkeyed : ((h.setItem pos ⟨some TOMBSTONE, 0⟩).setCount (h.count - 1)).Keyed :=
        ⟨(ht.setValue hpos hitem 0).1.keyed.distinct, (ht.setValue hpos hitem 0).1.keyed.short⟩
      have hlow' : ((h.setItem pos ⟨some TOMBSTONE, 0⟩).setCount (h.count - 1)).loadTooLow = true := hlow
      rw [Hashmap.setItem_count, if_pos hlow'] at hr
      obtain ⟨h₂, hres, rfl⟩ := Option.map_eq_some_iff.1 hr
      have hcount : ((h.setItem pos ⟨some TOMBSTONE, 0⟩).setCount (h.count - 1)).liveCount ≤
          (h.count - 1).toNat + 1 := by
        have hle := liveCount_setItem_le h pos ⟨some TOMBSTONE, 0⟩
        have hnat : h.count.toNat ≤ (h.count - 1).toNat + 1 := by
          have hsub : (h.count - 1 + 1).toNat ≤ (h.count - 1).toNat + 1 := by
            rw [UInt32.toNat_add, UInt32.toNat_one]
            exact Nat.mod_le _ _
          rwa [UInt32.sub_add_cancel] at hsub
        rw [Item.isLive, Item.slot_removed.2 rfl, if_neg Bool.false_ne_true, Nat.add_zero, ← ht.count_eq] at hle
        rw [Hashmap.setCount_liveCount]
        omega
      obtain ⟨htidy, hframes'⟩ := shrink_tidy hkeyed ht.power hlow' hcount (bind_toTable.1 hres)
      exact ⟨htidy, hframes.trans hframes'⟩

/-! ### Runs -/

/-- One harmless call. -/
theorem Tidy.step (ht : Tidy h) {c : HashmapCall} (hharmless : c.Harmless h) {a : HashmapAnswer}
    (hr : c.Returns h a h') : Tidy h' ∧ Frames c.key h h' := by
  obtain ⟨fuel, hr⟩ := hr
  cases c with
  | insert k v =>
    obtain ⟨r, hins, heq⟩ := Option.map_eq_some_iff.1 hr
    cases heq
    exact ht.insert hharmless hins
  | increase k d =>
    obtain ⟨h₁, hinc, heq⟩ := Option.map_eq_some_iff.1 hr
    cases heq
    have hsplit : if hashmapFind h k = -1 then InsertsCleanly h k else k.length ≤ KEY_MAXLEN ∨ d = 0 := hharmless
    split at hsplit
    · rename_i hno
      exact ht.increase (fun _ => hsplit) (fun hfound => absurd hno hfound) hinc
    · rename_i hfound
      exact ht.increase (fun hno => absurd hno hfound) (fun _ => hsplit) hinc
  | get k =>
    cases hr
    exact ⟨ht, Frames.refl k h⟩
  | find k =>
    cases hr
    exact ⟨ht, Frames.refl k h⟩
  | remove k =>
    obtain ⟨r, hrem, heq⟩ := Option.map_eq_some_iff.1 hr
    cases heq
    exact ht.remove hharmless hrem

theorem Reached.tidy {n : UInt32} (hr : Reached (fun h c => c.Harmless h) n h) : Tidy h := by
  induction hr with
  | create hc => exact (hashmapCreate_spec hc).1.tidy
  | call _ hharmless hcall ih => exact (ih.step hharmless hcall).1

/-- In every table of a run of harmless calls the count is the number of live slots, no two live slots hold equal
keys, and a harmless call leaves the bindings of the other keys. -/
theorem run_tidy (n : UInt32) (_hn : 1 ≤ n) (hr : Reached (fun h c => c.Harmless h) n h) :
    h.count.toNat = h.liveCount ∧
      (∀ p q k v w, h.slot p = .live k v → h.slot q = .live k w → p = q) ∧
      ∀ (c : HashmapCall) a h', c.Harmless h → c.Returns h a h' →
        ∀ k v, k ≠ c.key → (Binds h'.slot k v ↔ Binds h.slot k v) := by
  have ht := hr.tidy
  exact ⟨ht.count_eq, fun p q k v w => ht.keyed.distinct, fun c a h' hharmless hcall => (ht.step hharmless hcall).2⟩

/-- One key in a table of size four. -/
private theorem oneKey_counted :
    ((hashmapCreate 4).bind fun h => (hashmapInsert 9 h [97] 2).map fun r => r.1.liveCount) = some 1 := by
  decide

theorem run_tidy_four : ∃ h, Reached (fun h c => c.Harmless h) 4 h ∧ h.count.toNat = 1 := by
  obtain ⟨h, h0, hr⟩ := Option.bind_eq_some_iff.1 oneKey_counted
  obtain ⟨r, hins, hlive⟩ := Option.map_eq_some_iff.1 hr
  have hempty : ∀ v, ¬ Binds h.slot [97] v := fun v hv => by
    have hnone := ((hashmapCreate_spec h0).2 [97] v).1 hv
    cases hnone
  have hlow : h.loadTooHigh = false := by
    cases h0
    decide
  have hharmless : (HashmapCall.insert [97] 2).Harmless h := by
    refine Or.inr ?_
    rw [if_neg (by rw [hlow]; exact Bool.false_ne_true)]
    exact Or.inr ⟨by decide, hempty⟩
  have hreached := (Reached.create h0).call hharmless ⟨9, Option.map_eq_some_iff.2 ⟨r, hins, rfl⟩⟩
  exact ⟨r.1, hreached, (run_tidy 4 (by decide) hreached).1.trans hlive⟩

/-- The fourth key of a table of size four is written over the first one. -/
private theorem fourthKey_overwrites :
    ((hashmapCreate 4).bind fun h =>
      (hashmapInsert 9 h [105] 1).bind fun r => (hashmapInsert 9 r.1 [106] 2).bind fun r =>
      (hashmapInsert 9 r.1 [101] 3).bind fun r => (hashmapInsert 9 r.1 [97] 4).map fun r =>
      (r.1.count.toNat, r.1.liveCount)) = some (4, 3) := by
  decide

/-- Without the condition a growth can overwrite the entry of another key, and the count is too large. -/
theorem growth_overwrites_entry :
    ¬ ∀ n : UInt32, 1 ≤ n → ∀ h, Reached (fun _ _ => True) n h →
      h.count.toNat = h.liveCount ∧
        (∀ p q k v w, h.slot p = .live k v → h.slot q = .live k w → p = q) ∧
        ∀ (c : HashmapCall) a h', c.Returns h a h' →
          ∀ k v, k ≠ c.key → (Binds h'.slot k v ↔ Binds h.slot k v) := by
  intro hall
  obtain ⟨h, h0, hr⟩ := Option.bind_eq_some_iff.1 fourthKey_overwrites
  obtain ⟨r₁, h₁, hr⟩ := Option.bind_eq_some_iff.1 hr
  obtain ⟨r₂, h₂, hr⟩ := Option.bind_eq_some_iff.1 hr
  obtain ⟨r₃, h₃, hr⟩ := Option.bind_eq_some_iff.1 hr
  obtain ⟨r₄, h₄, hr⟩ := Option.map_eq_some_iff.1 hr
  have insert {h : Hashmap} {r : Hashmap × Int} {k : Key} {v : UInt32} (hh : Reached (fun _ _ => True) 4 h)
      (hins : hashmapInsert 9 h k v = some r) : Reached (fun _ _ => True) 4 r.1 :=
    hh.call (c := .insert k v) trivial ⟨9, Option.map_eq_some_iff.2 ⟨r, hins, rfl⟩⟩
  have hreached := insert (insert (insert (insert (Reached.create h0) h₁) h₂) h₃) h₄
  obtain ⟨hcount, hlive⟩ := Prod.mk.inj hr
  have heq := (hall 4 (by decide) r₄.1 hreached).1
  omega

end NyanChat
