import NyanChat.HashmapTable

/-!
# The probe loops in any table

What the loops of `hashmap_find` and `hashmap_insert` do in a table of a power of two size, with nothing assumed
about its items.  Both stop at a key that `Halts` them.  The walk of an insertion comes back to its first slot
(`exists_later_probe`), so it ends when any slot of the table halts it, also when its first key was read from
another table (`insertLoop_returns`), and never when no slot does (`insertLoop_none`).
-/

namespace NyanChat

/-- The loops stop at this key of an item: `NULL`, or the key they search. -/
def Halts (cur : Option Key) (key : Key) : Prop := ∀ k', cur = some k' → sameKey k' key = true

instance (cur : Option Key) (key : Key) : Decidable (Halts cur key) :=
  match cur with
  | none => isTrue nofun
  | some k' => decidable_of_iff (sameKey k' key = true) ⟨fun h _ he => Option.some.inj he ▸ h, fun h => h k' rfl⟩

theorem halts_none (key : Key) : Halts none key := nofun

theorem halts_some {k' key : Key} : Halts (some k') key ↔ sameKey k' key = true :=
  ⟨fun h => h k' rfl, fun h _ he => Option.some.inj he ▸ h⟩

/-- Some slot of the table is empty or holds `key`. -/
def Hashmap.HasRoom (h : Hashmap) (key : Key) : Prop := ∃ it ∈ h.items, Halts it.key key

instance (h : Hashmap) (key : Key) : Decidable (h.HasRoom key) :=
  inferInstanceAs (Decidable (∃ it ∈ h.items, Halts it.key key))

/-! ### The walk of a loop -/

/-- The first slot of a walk is met again on it. -/
private theorem tri_last_mod (k a : ℕ) :
    (a + Triangular.tri (2 ^ (k + 1) - 1)) % 2 ^ k = a % 2 ^ k := by
  have hpos : 0 < 2 ^ (k + 1) := Nat.two_pow_pos (k + 1)
  have htri : Triangular.tri (2 ^ (k + 1) - 1) = (2 ^ (k + 1) - 1) * 2 ^ k := by
    rw [Triangular.tri, Nat.sub_add_cancel hpos, Nat.pow_succ, ← Nat.mul_assoc, Nat.mul_div_cancel _ (by decide)]
  rw [htri, Nat.add_mul_mod_self_right]

/-- Every slot is on every walk after its first step. -/
theorem exists_later_probe {size : UInt32} (hs : PowerSize size) (index : UInt32) {p : ℕ} (hp : p < size.toNat) :
    ∃ i, 0 < i ∧ i < 2 * size.toNat ∧ (probeFrom index size i).toNat = p := by
  obtain ⟨k, hk, hs⟩ := hs
  rw [hs] at hp ⊢
  obtain ⟨i, hi, hwalk⟩ := Triangular.exists_triangular_add k index.toNat p hp
  rcases Nat.eq_zero_or_pos i with rfl | hpos
  · have hpow : 2 ^ (k + 1) = 2 * 2 ^ k := Nat.pow_succ'
    have hone : 0 < 2 ^ k := Nat.two_pow_pos k
    refine ⟨2 ^ (k + 1) - 1, by omega, by omega, ?_⟩
    rw [probeFrom_toNat hk hs, tri_last_mod, ← hwalk]
    rfl
  · exact ⟨i, hpos, by omega, by rw [probeFrom_toNat hk hs, hwalk]⟩

theorem probeFrom_lt {size : UInt32} (hs : 0 < size.toNat) (index : UInt32) (i : ℕ) :
    (probeFrom index size i).toNat < size.toNat := by
  rw [probeFrom, UInt32.toNat_mod]
  exact Nat.mod_lt _ hs

theorem item_mem (h : Hashmap) {pos : UInt32} (hpos : pos.toNat < h.size.toNat) : h.item pos ∈ h.items := by
  have hlen : pos.toNat < h.items.length := by rw [h.items_length]; exact hpos
  rw [h.item_getElem hlen]
  exact List.getElem_mem hlen

/-- A table with room has a slot on the walk that halts the search, after the first step. -/
theorem Hashmap.HasRoom.exists_probe {h : Hashmap} (hs : PowerSize h.size) {key : Key} (hroom : h.HasRoom key)
    (index : UInt32) : ∃ i, 0 < i ∧ i < 2 * h.size.toNat ∧ Halts (h.item (probeFrom index h.size i)).key key := by
  obtain ⟨it, hit, hhalt⟩ := hroom
  obtain ⟨p, hp, rfl⟩ := List.getElem_of_mem hit
  obtain ⟨i, hi, hlt, hprobe⟩ := exists_later_probe hs index (p := p) (by rw [← h.items_length]; exact hp)
  refine ⟨i, hi, hlt, ?_⟩
  rw [Hashmap.item, hprobe, List.getD_eq_getElem?_getD, List.getElem?_eq_getElem hp]
  exact hhalt

/-! ### Searching -/

/-- The first `i` slots of the probe sequence of `key` do not halt its search. -/
def Skips (h : Hashmap) (key : Key) (i : ℕ) : Prop := ∀ j < i, ¬ Halts (h.item (probe key h.size j)).key key

theorem skips_zero (h : Hashmap) (key : Key) : Skips h key 0 := fun j hj => absurd hj (Nat.not_lt_zero j)

theorem Skips.succ {h : Hashmap} {key : Key} {i : ℕ} (hskip : Skips h key i)
    (hi : ¬ Halts (h.item (probe key h.size i)).key key) : Skips h key (i + 1) := by
  intro j hj
  rcases Nat.lt_succ_iff_lt_or_eq.1 hj with hj | rfl
  · exact hskip j hj
  · exact hi

/-- The slot where a search of `key` ends: it holds a key that the comparison takes for `key`. -/
structure FoundAt (h : Hashmap) (key : Key) (i : ℕ) (k' : Key) : Prop where
  skips : Skips h key i
  item : (h.item (probe key h.size i)).key = some k'
  same : sameKey k' key = true

private theorem findLoop_walk (h : Hashmap) (key : Key) (n : ℕ) :
    ∀ i, i + n = h.size.toNat → Skips h key i →
      (∃ j k', findLoop h key (hash key h.size) n (UInt32.ofNat i) (probe key h.size i)
          (h.item (probe key h.size i)).key = ((probe key h.size j).toNat : ℕ) ∧ FoundAt h key j k') ∨
      (findLoop h key (hash key h.size) n (UInt32.ofNat i) (probe key h.size i)
          (h.item (probe key h.size i)).key = -1 ∧
        ∃ j, Skips h key j ∧ ((h.item (probe key h.size j)).key = none ∨ j = h.size.toNat)) := by
  induction n with
  | zero => exact fun i hi hskip => Or.inr ⟨rfl, i, hskip, Or.inr hi⟩
  | succ n ih =>
    intro i hi hskip
    cases hc : (h.item (probe key h.size i)).key with
    | none => exact Or.inr ⟨rfl, i, hskip, Or.inl hc⟩
    | some k' =>
      unfold findLoop
      by_cases hsame : sameKey k' key = true
      · rw [if_pos hsame]
        exact Or.inl ⟨i, k', rfl, hskip, hc, hsame⟩
      · have hsucc : UInt32.ofNat i + 1 = UInt32.ofNat (i + 1) := (UInt32.ofNat_add i 1).symm
        rw [if_neg hsame, hsucc]
        refine ih (i + 1) (by omega) (hskip.succ ?_)
        rw [hc, halts_some]
        exact hsame

/-- `hashmap_find` answers the position of the first slot on the path of the key that holds it, if it comes before
every empty slot, and `-1` otherwise. -/
theorem hashmapFind_walk (h : Hashmap) (key : Key) :
    (∃ i k', hashmapFind h key = ((probe key h.size i).toNat : ℕ) ∧ FoundAt h key i k') ∨
      (hashmapFind h key = -1 ∧
        ∃ i, Skips h key i ∧ ((h.item (probe key h.size i)).key = none ∨ i = h.size.toNat)) := by
  have h0 := findLoop_walk h key h.size.toNat 0 (Nat.zero_add _) (skips_zero h key)
  rw [probe_zero] at h0
  exact h0

theorem hashmapFind_neg_iff (h : Hashmap) (key : Key) :
    hashmapFind h key < 0 ↔ hashmapFind h key = -1 := by
  rcases hashmapFind_walk h key with ⟨i, k', hfind, -⟩ | ⟨hfind, -⟩ <;> rw [hfind] <;> omega

private theorem findLoop_sameKeys (h : Hashmap) {key key' : Key} (hsame : ∀ k, sameKey k key' = sameKey k key)
    (index : UInt32) (n : ℕ) (i currentPos : UInt32) (currentKey : Option Key) :
    findLoop h key' index n i currentPos currentKey = findLoop h key index n i currentPos currentKey := by
  induction n generalizing i currentPos currentKey with
  | zero => rfl
  | succ n ih =>
    cases currentKey with
    | none => rfl
    | some k =>
      simp only [findLoop, hsame]
      split
      · rfl
      · exact ih _ _ _

/-- A search tells two keys apart only by their hashes and by what `strncmp` answers for them. -/
theorem hashmapFind_congr {h : Hashmap} {key key' : Key}
    (hhash : jenkinsOneAtATimeHash key' = jenkinsOneAtATimeHash key)
    (hsame : ∀ k, sameKey k key' = sameKey k key) : hashmapFind h key' = hashmapFind h key := by
  have hindex : hash key' h.size = hash key h.size := by rw [hash, hash, hhash]
  simp only [hashmapFind, hindex]
  exact findLoop_sameKeys h hsame _ _ _ _ _

/-! ### The slots that a search looks at -/

/-- The loop of `hashmap_find` with the positions at which it looks, in their order. -/
def findLoopSeen (h : Hashmap) (key : Key) (index : UInt32) : ℕ → UInt32 → UInt32 → Option Key → Int × List UInt32
  | 0, _, _, _ => (-1, [])
  | _ + 1, _, currentPos, none => (-1, [currentPos])
  | n + 1, i, currentPos, some currentKey =>
    if sameKey currentKey key then (currentPos.toNat, [currentPos])
    else
      let nextPos := (index + jump (i + 1)) % h.size
      let rest := findLoopSeen h key index n (i + 1) nextPos (h.item nextPos).key
      (rest.1, currentPos :: rest.2)

def hashmapFindSeen (h : Hashmap) (key : Key) : Int × List UInt32 :=
  let index := hash key h.size
  findLoopSeen h key index h.size.toNat 0 index (h.item index).key

theorem findLoopSeen_fst (h : Hashmap) (key : Key) (index : UInt32) (n : ℕ) :
    ∀ i pos cur, (findLoopSeen h key index n i pos cur).1 = findLoop h key index n i pos cur := by
  induction n with
  | zero => exact fun i pos cur => rfl
  | succ n ih =>
    intro i pos cur
    cases cur with
    | none => rfl
    | some k' =>
      unfold findLoopSeen findLoop
      split
      · rfl
      · exact ih _ _ _

theorem hashmapFindSeen_fst (h : Hashmap) (key : Key) : (hashmapFindSeen h key).1 = hashmapFind h key :=
  findLoopSeen_fst h key _ _ _ _ _

/-- A loop that finds nothing has met an empty slot, or looked at every position of its walk. -/
private theorem findLoopSeen_all {h : Hashmap} {key : Key} {index : UInt32} (n : ℕ) :
    ∀ i r, findLoopSeen h key index n (UInt32.ofNat i) (probeFrom index h.size i)
        (h.item (probeFrom index h.size i)).key = r → r.1 = -1 →
      (∃ pos ∈ r.2, (h.item pos).key = none) ∨ r.2 = (List.range' i n).map (probeFrom index h.size) := by
  induction n with
  | zero =>
    rintro i r rfl -
    exact Or.inr rfl
  | succ n ih =>
    rintro i r rfl hlost
    cases hc : (h.item (probeFrom index h.size i)).key with
    | none => exact Or.inl ⟨probeFrom index h.size i, List.mem_singleton_self _, hc⟩
    | some k' =>
      rw [hc] at hlost
      unfold findLoopSeen at hlost ⊢
      have hsucc : UInt32.ofNat i + 1 = UInt32.ofNat (i + 1) := (UInt32.ofNat_add i 1).symm
      by_cases hsame : sameKey k' key = true
      · rw [if_pos hsame] at hlost
        exact absurd hlost (by simp)
      · rw [if_neg hsame] at hlost ⊢
        rw [hsucc] at hlost ⊢
        rcases ih (i + 1) _ rfl hlost with ⟨pos, hpos, hnull⟩ | hall
        · exact Or.inl ⟨pos, List.mem_cons_of_mem _ hpos, hnull⟩
        · right
          rw [List.range'_succ, List.map_cons, ← hall]
          rfl

theorem probeFrom_perm {size : UInt32} (hs : PowerSize size) (index : UInt32) :
    ((List.range size.toNat).map fun i => (probeFrom index size i).toNat).Perm (List.range size.toNat) := by
  obtain ⟨k, hk, hs⟩ := hs
  rw [hs, List.map_congr_left fun i _ => probeFrom_toNat hk hs index i]
  exact Triangular.walk_perm k index.toNat

/-- In a table of a power of two size the probe positions from any index meet every slot exactly once, so a search
that finds nothing has seen an empty slot or every slot. -/
theorem probes_meet_every_slot_once {size : UInt32} (hs : PowerSize size) :
    (∀ (index : UInt32) (p : ℕ), p < size.toNat →
      ∃! i, i < size.toNat ∧ (probeFrom index size i).toNat = p) ∧
    ∀ (h : Hashmap) (key : Key), h.size = size → hashmapFind h key = -1 →
      (∃ pos ∈ (hashmapFindSeen h key).2, (h.item pos).key = none) ∨
        ((hashmapFindSeen h key).2.map UInt32.toNat).Perm (List.range size.toNat) := by
  constructor
  · intro index p hp
    obtain ⟨k, hk, hsize⟩ := hs
    rw [hsize] at hp ⊢
    obtain ⟨i, hi, hwalk⟩ := Triangular.exists_triangular_add k index.toNat p hp
    refine ⟨i, ⟨hi, by rw [probeFrom_toNat hk hsize, hwalk]⟩, fun j hj => ?_⟩
    obtain ⟨hj, hsame⟩ := hj
    rw [probeFrom_toNat hk hsize, ← hwalk] at hsame
    exact Triangular.add_tri_mod_injective hj hi hsame
  · rintro h key rfl hlost
    rw [← hashmapFindSeen_fst] at hlost
    have hstart : probeFrom (hash key h.size) h.size 0 = hash key h.size := probe_zero key h.size
    have hseen := @findLoopSeen_all h key (hash key h.size) h.size.toNat 0 (hashmapFindSeen h key) (by rw [hstart]; rfl)
      hlost
    refine hseen.imp_right fun hall => ?_
    rw [hall, List.map_map, ← List.range_eq_range']
    exact probeFrom_perm hs (hash key h.size)

/-- A table of four slots that are all taken by other keys. -/
theorem probes_meet_every_slot_once_four :
    let h : Hashmap := ⟨4, 4, [⟨some [97], 1⟩, ⟨some [98], 2⟩, ⟨some [99], 3⟩, ⟨some [100], 4⟩], rfl, by decide⟩
    hashmapFind h [101] = -1 ∧ ((hashmapFindSeen h [101]).2.map UInt32.toNat).Perm (List.range 4) := by
  refine ⟨by decide, ((probes_meet_every_slot_once ⟨2, by decide, rfl⟩).2 _ [101] rfl (by decide)).resolve_left ?_⟩
  decide

/-! ### When the loop of an insertion ends -/

theorem insertLoop_of_halts {h : Hashmap} {key : Key} {index : UInt32} {n : ℕ} {i pos : UInt32} {cur : Option Key}
    {tomb : Option UInt32} (hcur : Halts cur key) :
    insertLoop h key index (n + 1) i pos cur tomb = some (pos, cur, tomb) := by
  cases cur with
  | none => rfl
  | some k' => rw [insertLoop, if_pos (hcur k' rfl)]

theorem insertLoop_of_not_halts {h : Hashmap} {key : Key} {index : UInt32} {n i : ℕ} {pos : UInt32}
    {cur : Option Key} {tomb : Option UInt32} (hcur : ¬ Halts cur key) :
    insertLoop h key index (n + 1) (UInt32.ofNat i) pos cur tomb =
      insertLoop h key index n (UInt32.ofNat (i + 1)) (probeFrom index h.size (i + 1))
        (h.item (probeFrom index h.size (i + 1))).key
        (if cur = some TOMBSTONE ∧ tomb = none then some pos else tomb) := by
  cases cur with
  | none => exact absurd (halts_none key) hcur
  | some k' =>
    have hsucc : UInt32.ofNat i + 1 = UInt32.ofNat (i + 1) := (UInt32.ofNat_add i 1).symm
    rw [insertLoop, if_neg fun hsame => hcur (halts_some.2 hsame), hsucc]
    simp only [Bool.and_eq_true, sameKey_tombstone, Option.isNone_iff_eq_none, Option.some_inj]
    rfl

theorem insertLoop_returns (h : Hashmap) (key : Key) (index : UInt32) (n : ℕ) :
    ∀ i pos cur tomb, (Halts cur key ∨ ∃ j, i < j ∧ j ≤ i + n ∧ Halts (h.item (probeFrom index h.size j)).key key) →
      ∃ r, insertLoop h key index (n + 1) (UInt32.ofNat i) pos cur tomb = some r := by
  induction n with
  | zero =>
    rintro i pos cur tomb (hcur | ⟨j, hij, hj, -⟩)
    · exact ⟨_, insertLoop_of_halts hcur⟩
    · omega
  | succ n ih =>
    intro i pos cur tomb hend
    by_cases hcur : Halts cur key
    · exact ⟨_, insertLoop_of_halts hcur⟩
    · obtain ⟨j, hij, hj, hhalt⟩ := hend.resolve_left hcur
      rw [insertLoop_of_not_halts hcur]
      refine ih (i + 1) _ _ _ ?_
      rcases Nat.lt_or_ge (i + 1) j with hlt | hge
      · exact Or.inr ⟨j, hlt, by omega, hhalt⟩
      · obtain rfl : j = i + 1 := by omega
        exact Or.inl hhalt

theorem insertFrom_returns_iff {fuel : ℕ} {h : Hashmap} {key : Key} {value index : UInt32} {cur : Option Key} :
    (∃ r, insertFrom fuel h key value index cur = some r) ↔
      ∃ r, insertLoop h key index fuel 0 index cur none = some r := by
  unfold insertFrom
  split
  · rename_i hloop
    simp [hloop]
  · rename_i hloop
    simp [hloop]
  · rename_i hloop
    simp [hloop]

/-- The loop never ends when neither the key it read nor any slot halts it. -/
theorem insertLoop_none {h : Hashmap} {key : Key} (hroom : ¬ h.HasRoom key) (index : UInt32) (n : ℕ) :
    ∀ i pos cur tomb, ¬ Halts cur key → insertLoop h key index n (UInt32.ofNat i) pos cur tomb = none := by
  induction n with
  | zero => exact fun i pos cur tomb _ => rfl
  | succ n ih =>
    intro i pos cur tomb hcur
    rw [insertLoop_of_not_halts hcur]
    refine ih (i + 1) _ _ _ fun hhalt => hroom ?_
    exact ⟨_, item_mem h (probeFrom_lt h.size_pos index (i + 1)), hhalt⟩

/-- How the loop of an insertion ends that its first key does not halt: at the first step of the walk that does. -/
structure Walked (h : Hashmap) (key : Key) (index : UInt32) (i : ℕ) (pos : UInt32) (cur : Option Key)
    (tomb : Option UInt32) (r : UInt32 × Option Key × Option UInt32) : Prop where
  step : ∃ j, i < j ∧ r.1 = probeFrom index h.size j ∧
    ∀ l, i < l → l < j → ¬ Halts (h.item (probeFrom index h.size l)).key key
  key_eq : r.2.1 = (h.item r.1).key
  halts : Halts r.2.1 key
  kept : ∀ t, tomb = some t → r.2.2 = some t
  first : cur = some TOMBSTONE → tomb = none → r.2.2 = some pos
  mark : ∀ t, r.2.2 = some t →
    tomb = some t ∨ (cur = some TOMBSTONE ∧ t = pos) ∨ (h.item t).key = some TOMBSTONE ∧ t.toNat < h.size.toNat

theorem insertLoop_walk {h : Hashmap} {key : Key} {index : UInt32} (n : ℕ) :
    ∀ i pos cur tomb r, ¬ Halts cur key →
      insertLoop h key index n (UInt32.ofNat i) pos cur tomb = some r → Walked h key index i pos cur tomb r := by
  induction n with
  | zero => exact fun _ _ _ _ _ _ hr => nomatch hr
  | succ n ih =>
    intro i pos cur tomb r hcur hr
    rw [insertLoop_of_not_halts hcur] at hr
    -- the mark that is remembered after this turn
    obtain ⟨tomb', htomb'⟩ : ∃ t, t = if cur = some TOMBSTONE ∧ tomb = none then some pos else tomb := ⟨_, rfl⟩
    rw [← htomb'] at hr
    have hkept : ∀ t, tomb = some t → tomb' = some t := by
      rintro t rfl
      rw [htomb', if_neg (fun hmark => Option.some_ne_none t hmark.2)]
    have hfirst : cur = some TOMBSTONE → tomb = none → tomb' = some pos := fun hc ht => by
      rw [htomb', if_pos ⟨hc, ht⟩]
    have hmark : ∀ t, tomb' = some t → tomb = some t ∨ (cur = some TOMBSTONE ∧ t = pos) := by
      intro t ht
      rw [htomb'] at ht
      split at ht
      · rename_i hcond
        exact Or.inr ⟨hcond.1, (Option.some.inj ht).symm⟩
      · exact Or.inl ht
    by_cases hnext : Halts (h.item (probeFrom index h.size (i + 1))).key key
    · rcases n with _ | n
      · cases hr
      rw [insertLoop_of_halts hnext] at hr
      cases hr
      refine ⟨⟨i + 1, Nat.lt_succ_self i, rfl, fun l hl hlt => by omega⟩, rfl, hnext, hkept, hfirst, fun t ht => ?_⟩
      exact (hmark t ht).imp_right Or.inl
    · obtain ⟨⟨j, hj, hpos, hpassed⟩, hkey, hhalts, hkept', -, hmark'⟩ := ih (i + 1) _ _ tomb' r hnext hr
      refine ⟨⟨j, by omega, hpos, fun l hl hlt => ?_⟩, hkey, hhalts, fun t ht => hkept' t (hkept t ht),
        fun hc ht => hkept' pos (hfirst hc ht), fun t ht => ?_⟩
      · rcases Nat.lt_or_ge (i + 1) l with hlater | hle
        · exact hpassed l hlater hlt
        · obtain rfl : l = i + 1 := by omega
          exact hnext
      · rcases hmark' t ht with hold | ⟨hmarked, rfl⟩ | hmarked
        · exact (hmark t hold).imp_right Or.inl
        · exact Or.inr (Or.inr ⟨hmarked, probeFrom_lt h.size_pos index (i + 1)⟩)
        · exact Or.inr (Or.inr hmarked)

end NyanChat
