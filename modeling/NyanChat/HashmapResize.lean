import NyanChat.HashmapCount
import NyanChat.JenkinsHash

/-!
# Resizing and removing

What `hashmap_resize` and `hashmap_remove` do to the entries of a table.  A resizing of a `Tidy` table, whatever its
removed marks and its chains, rebuilds every chain under the new modulus, and no insertion it makes finds the load too
high.  Only a doubled size that wraps to zero, or a live key of the full length, which a longer string is taken for,
breaks it (`hashmapResize_rebuilds_iff`).  A removal from a sound table takes one entry away and cuts no chain
(`hashmapRemove_removes`).
-/

namespace NyanChat

open OpenAddressing

/-- `hashmap_find` and `hashmap_get` answer for `key` as a set of entries says. -/
def AnswersAs (h : Hashmap) (entries : Key → UInt32 → Prop) (key : Key) : Prop :=
  (∀ v, entries key v → (∃ p : ℕ, hashmapFind h key = p ∧ h.slot p = .live key v) ∧ hashmapGet h key = v) ∧
    ((∀ v, ¬ entries key v) → hashmapFind h key = -1 ∧ hashmapGet h key = 0)

/-- The comparison of the code takes no other key of the table for `key`. -/
def Unmistaken (h : Hashmap) (key : Key) : Prop := ∀ k v, Binds h.slot k v → sameKey k key = true → k = key

/-- The two resizings the map performs: the size that the code computes, and the size it asks for. -/
inductive ResizeRequest (h : Hashmap) : UInt32 → ℕ → Prop
  | double : h.count.toNat ≤ h.size.toNat → ResizeRequest h (2 * h.size) (2 * h.size.toNat)
  | half : 2 < h.size.toNat → 4 * h.count.toNat < h.size.toNat → ResizeRequest h (h.size / 2) (h.size.toNat / 2)

/-- No insertion of the resizing finds the load too high. -/
def NoNestedResize (fuel : ℕ) (h : Hashmap) (newSize : UInt32) : Prop :=
  ∀ (hs : 0 < newSize.toNat) (L R : List Item) (it : Item) (h₁ : Hashmap), h.items = L ++ it :: R →
    L.foldlM (storeItem (hashmapInsert fuel)) (Hashmap.blank newSize hs) = some h₁ → h₁.loadTooHigh = false

variable {h h' : Hashmap} {key : Key}

/-! ### Lookups -/

theorem hashmapGet_of_neg (hfind : hashmapFind h key = -1) : hashmapGet h key = 0 := by
  rw [hashmapGet, hfind]
  rfl

theorem Hashmap.Sound.answersAs (hs : h.Sound) (hk : ValidKey key) : AnswersAs h (Binds h.slot) key := by
  rcases hashmapFind_cases hs hk with ⟨p, v, hfind, hlive⟩ | ⟨hfind, hno⟩
  · refine ⟨?_, fun hno => absurd ⟨p, hlive⟩ (hno v)⟩
    rintro w ⟨q, hq⟩
    obtain rfl := hs.table.distinct hlive hq
    obtain rfl := (Slot.live.inj (hlive.symm.trans hq)).2
    refine ⟨⟨p, hfind, hlive⟩, ?_⟩
    rw [hashmapGet, hfind, if_neg (by omega), Int.toNat_natCast, (item_of_live hs hlive).2]
  · exact ⟨fun v hv => absurd hv (hno v), fun _ => ⟨hfind, hashmapGet_of_neg hfind⟩⟩

/-- In a table without removed marks only a live key that the comparison takes for `key` is found. -/
theorem hashmapFind_unmarked (hrem : ∀ p, h.slot p ≠ .removed)
    (hno : ∀ k v, Binds h.slot k v → sameKey k key = false) : hashmapFind h key = -1 := by
  rcases hashmapFind_walk h key with ⟨i, k', -, hfound⟩ | ⟨hfind, -⟩
  · have hmark : k' ≠ TOMBSTONE := by
      rintro rfl
      exact hrem _ (Item.slot_removed.2 hfound.item)
    have hlive : (h.item (probe key h.size i)).slot = .live k' (h.item (probe key h.size i)).value :=
      Item.slot_live.2 ⟨by rw [← hfound.item], hmark⟩
    have hsame := hno k' _ ⟨_, hlive⟩
    rw [hfound.same] at hsame
    cases hsame
  · exact hfind

/-- In a sound table without removed marks the lookups are right for every string. -/
theorem Hashmap.Sound.answersAs_unmarked (hs : h.Sound) (hrem : ∀ p, h.slot p ≠ .removed)
    (hkey : Unmistaken h key) : AnswersAs h (Binds h.slot) key := by
  by_cases hk : ValidKey key
  · exact hs.answersAs hk
  · have hno : ∀ v, ¬ Binds h.slot key v := by
      rintro v ⟨p, hp⟩
      exact hk ⟨hs.short hp, (Item.slot_live.1 hp).2⟩
    have hfind : hashmapFind h key = -1 := by
      refine hashmapFind_unmarked hrem fun k v hkv => ?_
      by_contra hsame
      rw [Bool.not_eq_false] at hsame
      obtain rfl := hkey k v hkv hsame
      exact hno v hkv
    exact ⟨fun v hv => absurd hv (hno v), fun _ => ⟨hfind, hashmapGet_of_neg hfind⟩⟩

theorem AnswersAs.congr {entries entries' : Key → UInt32 → Prop} (hans : AnswersAs h entries key)
    (heq : ∀ v, entries key v ↔ entries' key v) : AnswersAs h entries' key :=
  ⟨fun v hv => hans.1 v ((heq v).2 hv), fun hno => hans.2 fun v hv => hno v ((heq v).1 hv)⟩

/-! ### Resizing -/

/-- The new size is a power of two with room for every live key below the growth limit. -/
private theorem ResizeRequest.room {newSize : UInt32} {n : ℕ} (ht : Tidy h) (hreq : ResizeRequest h newSize n)
    (hfit : n < 2 ^ 32) : PowerSize newSize ∧ newSize.toNat = n ∧ 4 * h.liveCount < 3 * newSize.toNat := by
  have hlive := ht.count_eq
  have hpos := ht.power.pos
  cases hreq with
  | double hcount =>
    have hmul : (2 * h.size).toNat = 2 * h.size.toNat := by
      rw [UInt32.toNat_mul]
      exact Nat.mod_eq_of_lt hfit
    obtain ⟨hpow, -⟩ := powerSize_double ht.power (by omega)
    exact ⟨hpow, hmul, by omega⟩
  | half hsize hcount =>
    obtain ⟨hpow, hhalf⟩ := powerSize_half ht.power hsize
    exact ⟨hpow, by omega, by omega⟩

/-- At every step the load is that of the items stored so far, so it stays below the growth limit. -/
private theorem Hashmap.Keyed.noNestedResize (hk : h.Keyed) {newSize : UInt32} (hpow : PowerSize newSize)
    (hroom : 4 * h.liveCount < 3 * newSize.toNat) (fuel : ℕ) : NoNestedResize fuel h newSize := by
  intro _ L R it h₁ hitems hstored
  obtain ⟨hs₁, hsize₁, hcount₁, -⟩ := hk.storeItems hpow hroom.le hitems hstored
  have hle : L.countP Item.isLive ≤ h.liveCount := by
    rw [Hashmap.liveCount, hitems, List.countP_append]
    exact Nat.le_add_right _ _
  rw [Hashmap.loadTooHigh, decide_eq_false_iff_not, hs₁.count_eq, hcount₁, hsize₁]
  omega

/-- What `hashmap_resize` is asked for: it comes back with a table of `n` slots without removed marks that counts its
entries and answers for every key as the live entries of the old table say, and resizes nothing on the way. -/
def Rebuilds (h : Hashmap) (newSize : UInt32) (n : ℕ) : Prop :=
  (∃ fuel r, hashmapResize fuel h newSize = some r) ∧
    ∀ fuel r, hashmapResize fuel h newSize = some r →
      ∃ h', r = .table h' ∧ h'.size.toNat = n ∧ (∀ p, h'.slot p ≠ .removed) ∧ h'.count.toNat = h.liveCount ∧
        h'.liveCount = h.liveCount ∧ NoNestedResize fuel h newSize ∧ ∀ key, AnswersAs h' (Binds h.slot) key

/-- No live key has all the bytes that `strncmp` compares, so that none is taken for a longer string. -/
def KeysBelowMaxlen (h : Hashmap) : Prop := ∀ k v, Binds h.slot k v → k.length < KEY_MAXLEN

/-- A resizing of the map, when its new size fits in a word: the result is a table that answers for every key that is
not mistaken for a live one. -/
private theorem hashmapResize_rebuilds (ht : Tidy h) {newSize : UInt32} {n : ℕ} (hreq : ResizeRequest h newSize n)
    (hfit : n < 2 ^ 32) :
    (∃ fuel r, hashmapResize fuel h newSize = some r) ∧
      ∀ fuel r, hashmapResize fuel h newSize = some r →
        ∃ h', r = .table h' ∧ h'.size.toNat = n ∧ (∀ p, h'.slot p ≠ .removed) ∧ h'.count.toNat = h.liveCount ∧
          h'.liveCount = h.liveCount ∧ NoNestedResize fuel h newSize ∧ h'.Sound ∧
            (∀ k v, Binds h'.slot k v ↔ Binds h.slot k v) ∧
            ∀ key, Unmistaken h key → AnswersAs h' (Binds h.slot) key := by
  obtain ⟨hpow, hsize, hroom⟩ := hreq.room ht hfit
  refine ⟨?_, fun fuel r hr => ?_⟩
  · obtain ⟨fuel, h', hr⟩ := resize_returns (h := h) hpow (by
      obtain ⟨k, hk, hword⟩ := hpow
      have hle : 2 ^ k ≤ 2 ^ 31 := Nat.pow_le_pow_right (by decide) (by omega)
      omega)
    exact ⟨fuel, _, hr⟩
  · obtain ⟨h', rfl⟩ : ∃ h', r = .table h' := by
      rw [hashmapResize, resizeWith, dif_pos hpow.pos] at hr
      obtain ⟨h', -, rfl⟩ := Option.map_eq_some_iff.1 hr
      exact ⟨h', rfl⟩
    obtain ⟨hs', hsize', hlive', hbinds, hrem⟩ := ht.keyed.resize hpow hroom.le hr
    refine ⟨h', rfl, by rw [hsize', hsize], hrem, by rw [hs'.count_eq, hlive'], hlive',
      ht.keyed.noNestedResize hpow hroom fuel, hs', hbinds, fun key hkey => ?_⟩
    have hkey' : Unmistaken h' key := fun k v hkv => hkey k v ((hbinds k v).1 hkv)
    exact (hs'.answersAs_unmarked hrem hkey').congr fun v => hbinds key v

/-- A key that is shorter than the comparison is taken for no other string. -/
private theorem eq_of_sameKey_of_short {k : Key} (hk : k.length < KEY_MAXLEN) (hsame : sameKey k key = true) :
    k = key := by
  rw [sameKey, beq_iff_eq, List.take_of_length_le hk.le] at hsame
  have hlen := congrArg List.length hsame
  rw [List.length_take] at hlen
  rw [hsame, List.take_of_length_le (by omega)]

private theorem KeysBelowMaxlen.unmistaken (hshort : KeysBelowMaxlen h) (key : Key) : Unmistaken h key :=
  fun k v hkv hsame => eq_of_sameKey_of_short (hshort k v hkv) hsame

/-- `strncmp` does not look behind the first `KEY_MAXLEN` bytes. -/
private theorem sameKey_append (hlen : key.length = KEY_MAXLEN) (s k : Key) : sameKey k (key ++ s) = sameKey k key := by
  rw [sameKey, sameKey, ← hlen, List.take_left, List.take_length]

/-- A live key of the full length is also found under some longer string. -/
private theorem found_longer (hs : h.Sound) {k : Key} {v : UInt32} (hkv : Binds h.slot k v)
    (hlen : k.length = KEY_MAXLEN) : ∃ key, KEY_MAXLEN < key.length ∧ hashmapFind h key ≠ -1 := by
  obtain ⟨s, hne, -, hhash⟩ := exists_append_hash k
  have hvalid : ValidKey k := ⟨hlen.le, fun hmark => absurd (hmark ▸ hlen) (by decide)⟩
  obtain ⟨p, hfind, -⟩ := ((hs.answersAs hvalid).1 v hkv).1
  refine ⟨k ++ s, ?_, ?_⟩
  · rw [List.length_append, hlen]
    exact Nat.lt_add_of_pos_right (List.length_pos_of_ne_nil hne)
  · rw [hashmapFind_congr hhash (sameKey_append hlen s), hfind]
    omega

/-- A resizing of the map does what it is asked for exactly when the new size fits in a word and no live key has the
full length. -/
theorem hashmapResize_rebuilds_iff (ht : Tidy h) {newSize : UInt32} {n : ℕ} (hreq : ResizeRequest h newSize n) :
    Rebuilds h newSize n ↔ n < 2 ^ 32 ∧ KeysBelowMaxlen h := by
  constructor
  · rintro ⟨⟨fuel, r, hr⟩, hall⟩
    obtain ⟨h', rfl, hsize, hrest⟩ := hall fuel r hr
    have hfit : n < 2 ^ 32 := hsize ▸ h'.size.toNat_lt
    refine ⟨hfit, fun k v hkv => ?_⟩
    obtain ⟨h'', heq, -, -, -, -, -, hs', hbinds, -⟩ := (hashmapResize_rebuilds ht hreq hfit).2 fuel _ hr
    obtain rfl := Resized.table.inj heq
    obtain ⟨p, hp⟩ := hkv
    refine Nat.lt_of_le_of_ne (ht.keyed.short hp) fun hlen => ?_
    -- the longer string is no key of the old table, and the new one must not find it
    obtain ⟨key, hkey, hfound⟩ := found_longer hs' ((hbinds k v).2 ⟨p, hp⟩) hlen
    refine hfound ((hrest.2.2.2.2 key).2 fun w hw => ?_).1
    obtain ⟨q, hq⟩ := hw
    have hshort := ht.keyed.short hq
    omega
  · rintro ⟨hfit, hshort⟩
    obtain ⟨hreturns, hall⟩ := hashmapResize_rebuilds ht hreq hfit
    refine ⟨hreturns, fun fuel r hr => ?_⟩
    obtain ⟨h', hr', hsize, hrem, hcount, hlive, hnested, -, -, hans⟩ := hall fuel r hr
    exact ⟨h', hr', hsize, hrem, hcount, hlive, hnested, fun key => hans key (hshort.unmistaken key)⟩

/-- A table of two slots with a removed mark on the way to its only key. -/
private def markedPair : Hashmap where
  size := 2
  count := 1
  items := [⟨some TOMBSTONE, 0⟩, ⟨some [97], 2⟩]
  items_length := rfl
  size_pos := by decide

private theorem markedPair_live {p : ℕ} {k : Key} {v : UInt32} (hp : markedPair.slot p = .live k v) :
    p = 1 ∧ k = [97] ∧ v = 2 := by
  rcases p with _ | _ | p
  · cases hp
  · cases hp
    exact ⟨rfl, rfl, rfl⟩
  · cases hp

private theorem markedPair_sound : markedPair.Sound := by
  refine ⟨⟨1, by decide, rfl⟩, ⟨fun hp => ?_, fun hp hq => ?_⟩, fun hp => ?_, rfl⟩
  · obtain ⟨rfl, rfl, -⟩ := markedPair_live hp
    refine ⟨1, by decide, by decide, fun j hj => ?_⟩
    obtain rfl : j = 0 := by omega
    exact nofun
  · rw [(markedPair_live hp).1, (markedPair_live hq).1]
  · rw [(markedPair_live hp).2.1]
    decide

/-- The removed mark is gone from the doubled table, and the key behind it is found. -/
theorem hashmapResize_rebuilds_two : Rebuilds markedPair (2 * markedPair.size) 4 := by
  refine (hashmapResize_rebuilds_iff markedPair_sound.tidy (.double (by decide))).2 ⟨by decide, ?_⟩
  rintro k v ⟨p, hp⟩
  rw [(markedPair_live hp).2.1]
  decide

/-- A key of `KEY_MAXLEN` bytes, the longest that `hashmap_insert` takes. -/
def longestKey : Key := List.replicate KEY_MAXLEN 97

def longestTable : Hashmap where
  size := 1
  count := 1
  items := [⟨some longestKey, 7⟩]
  items_length := rfl
  size_pos := Nat.one_pos

private theorem longestTable_live {p : ℕ} {k : Key} {v : UInt32} (hp : longestTable.slot p = .live k v) :
    p = 0 ∧ k = longestKey := by
  rcases p with _ | p
  · obtain ⟨hitem, -⟩ := Item.slot_live.1 hp
    exact ⟨rfl, (Option.some.inj (congrArg Item.key hitem)).symm⟩
  · cases hp

private theorem longestTable_tidy : Tidy longestTable := by
  refine ⟨⟨0, by decide, rfl⟩, ⟨fun hp hq => ?_, fun hp => ?_⟩, by decide⟩
  · rw [(longestTable_live hp).1, (longestTable_live hq).1]
  · rw [(longestTable_live hp).2, longestKey, List.length_replicate]

/-- After its doubling, a search of a longer string finds the longest key. -/
private theorem longer_found :
    ((hashmapResize 5 longestTable 2).bind Resized.toTable).map (fun h' => hashmapFind h' (longestKey ++ [98])) =
      some 1 := by
  decide +kernel

/-- Of an empty table, a resizing to zero leaves a table of size zero. -/
private theorem blank_resize_zero {size : UInt32} (hs : 0 < size.toNat) (fuel : ℕ) :
    hashmapResize fuel (Hashmap.blank size hs) 0 = some .empty := by
  have hskips : (Hashmap.blank size hs).items.all skipsItem = true := by
    rw [List.all_eq_true]
    intro it hit
    rw [List.eq_of_mem_replicate hit]
    rfl
  rw [hashmapResize, resizeWith, dif_neg (by decide), if_pos hskips]

/-- The doubled size of a table of `2 ^ 31` slots wraps to zero, and a table with a key of `KEY_MAXLEN` bytes finds
it under a longer string too. -/
theorem resize_of_largest_and_longest :
    (¬ ∀ h newSize n, Tidy h → ResizeRequest h newSize n →
        ∀ fuel r, hashmapResize fuel h newSize = some r → ∃ h', r = .table h' ∧ h'.size.toNat = n) ∧
      ¬ ∀ h newSize n, Tidy h → ResizeRequest h newSize n → ∀ fuel h', hashmapResize fuel h newSize = some (.table h') →
        ∀ key, AnswersAs h' (Binds h.slot) key := by
  constructor
  · intro hall
    have hpow : PowerSize 2147483648 := ⟨31, by decide, rfl⟩
    have hzero : 2 * (Hashmap.blank 2147483648 hpow.pos).size = 0 := (by decide : (2 * 2147483648 : UInt32) = 0)
    obtain ⟨h', hr, -⟩ := hall _ _ _ (blank_sound hpow).tidy (.double (Nat.zero_le _)) 0 .empty
      (by rw [hzero, blank_resize_zero])
    cases hr
  · intro hall
    obtain ⟨h', hr, hfind⟩ := Option.map_eq_some_iff.1 longer_found
    have hans := hall _ _ _ longestTable_tidy (.double (by decide)) 5 h' (bind_toTable.1 hr) (longestKey ++ [98])
    refine absurd (hans.2 fun v => ?_).1 (by rw [hfind]; decide)
    rintro ⟨p, hp⟩
    have hlen := congrArg List.length (longestTable_live hp).2
    rw [List.length_append, List.length_singleton] at hlen
    omega

/-! ### Removing -/

/-- A removal comes back: the smaller table it asks for has room. -/
private theorem Hashmap.Sound.remove_returns (hs : h.Sound) (hk : ValidKey key) :
    ∃ fuel r, hashmapRemove fuel h key = some r := by
  obtain ⟨m, hm⟩ := hs.table.exists_denotes
  rcases hashmapFind_cases hs hk with ⟨p, v, hfind, hlive⟩ | ⟨hfind, -⟩
  · obtain ⟨hs₁, -, -⟩ := mark_spec hs hm hlive
    have hpos : ¬ (p : Int) < 0 := by omega
    simp only [hashmapRemove, hfind, Int.toNat_natCast, if_neg hpos]
    split
    · rename_i hlow
      rw [Hashmap.setItem_count, Hashmap.loadTooLow, Bool.and_eq_true, decide_eq_true_eq, decide_eq_true_eq,
        hs₁.count_eq] at hlow
      obtain ⟨hpow, -⟩ := powerSize_half hs₁.power (UInt32.lt_iff_toNat_lt.1 hlow.1)
      have hlive := hlow.2
      have hword := h.size.toNat_lt
      rw [Hashmap.setCount_size, Hashmap.setItem_size] at hlive
      obtain ⟨fuel, h₂, hres⟩ := resize_returns hpow (hlive.le.trans (by omega))
      exact ⟨fuel, _, Option.map_eq_some_iff.2 ⟨h₂, bind_toTable.2 hres, rfl⟩⟩
    · exact ⟨0, _, rfl⟩
  · exact ⟨0, (h, 0), by simp only [hashmapRemove, hfind]; rfl⟩

/-- A removal comes back.  For a key of the table it answers its value; after it the key is not found, every other key
is found as before, the count is one less and the table is sound, shrunk or not.  Without the key nothing changes. -/
theorem hashmapRemove_removes (hs : h.Sound) (hk : ValidKey key) :
    (∃ fuel r, hashmapRemove fuel h key = some r) ∧
      ∀ fuel h' v, hashmapRemove fuel h key = some (h', v) →
        (∀ w, Binds h.slot key w → v = w ∧ h'.Sound ∧ h'.count.toNat + 1 = h.count.toNat ∧
          hashmapFind h' key = -1 ∧ ∀ k, ValidKey k → k ≠ key → AnswersAs h' (Binds h.slot) k) ∧
        ((∀ w, ¬ Binds h.slot key w) → v = 0 ∧ h' = h) := by
  refine ⟨hs.remove_returns hk, fun fuel h' v hr => ?_⟩
  obtain ⟨m, hm⟩ := hs.table.exists_denotes
  rcases hashmapRemove_cases hs hm hk hr with ⟨hv, hs', hm', hlive⟩ | ⟨hno, rfl, rfl⟩
  · have hbound := (hm key v).2 hv
    refine ⟨fun w hw => ?_, fun hno => absurd hbound (hno v)⟩
    have hvw := ((hm key w).1 hw).symm.trans hv
    have hgone : ∀ w, ¬ Binds h'.slot key w := fun w hw' => by
      rw [hm' key w, Function.update_self] at hw'
      cases hw'
    refine ⟨(Option.some.inj hvw).symm, hs', by rw [hs'.count_eq, hs.count_eq, hlive],
      ((hs'.answersAs hk).2 hgone).1, fun k hk' hne => (hs'.answersAs hk').congr fun u => ?_⟩
    rw [hm' k u, Function.update_of_ne hne, hm k u]
  · refine ⟨fun w hw => ?_, fun _ => ⟨rfl, rfl⟩⟩
    rw [hm key w, hno] at hw
    cases hw

/-- The only key of a table of two slots, behind a removed mark. -/
theorem hashmapRemove_removes_two :
    ∃ fuel h', hashmapRemove fuel markedPair [97] = some (h', 2) ∧ h'.count = 0 ∧ hashmapFind h' [97] = -1 := by
  have hkey : ValidKey [97] := by decide
  obtain ⟨⟨fuel, ⟨h', v⟩, hr⟩, hall⟩ := hashmapRemove_removes markedPair_sound hkey
  obtain ⟨rfl, -, hcount, hfind, -⟩ := (hall fuel h' v hr).1 2 ⟨1, rfl⟩
  refine ⟨fuel, h', hr, ?_, hfind⟩
  rw [← UInt32.toNat_inj]
  exact Nat.succ.inj hcount

end NyanChat
