import NyanChat.Hashmap
import NyanChat.Library.Triangular
import NyanChat.Library.OpenAddressing

/-!
# The hash map as an open-addressing table

A `Hashmap` is read as a table of slots (`Hashmap.slot`) whose paths are the probe sequences of the code
(`probing`; in a table of a power of two size the 32-bit computation visits every slot).  `Hashmap.Sound` is the
invariant of the tables the operations build; each operation gets one lemma that says what it answers and what it
does to the bindings of a sound table.
-/

namespace NyanChat

open OpenAddressing

/-! ### Keys -/

/-- The keys a finite map can be keyed by: short enough to be compared whole, and not the removed mark. -/
def ValidKey (k : Key) : Prop := k.length ≤ KEY_MAXLEN ∧ k ≠ TOMBSTONE

theorem sameKey_iff {a b : Key} (ha : a.length ≤ KEY_MAXLEN) (hb : b.length ≤ KEY_MAXLEN) :
    sameKey a b = true ↔ a = b := by
  rw [sameKey, beq_iff_eq, List.take_of_length_le ha, List.take_of_length_le hb]

theorem sameKey_comm (a b : Key) : sameKey a b = sameKey b a := by
  rw [Bool.eq_iff_iff, sameKey, sameKey, beq_iff_eq, beq_iff_eq, eq_comm]

theorem sameKey_tombstone {k : Key} : sameKey k TOMBSTONE = true ↔ k = TOMBSTONE := by
  by_cases hk : k.length ≤ KEY_MAXLEN
  · exact sameKey_iff hk (by decide)
  · constructor
    · intro h
      rw [sameKey, beq_iff_eq] at h
      have hlen := congrArg List.length h
      rw [List.length_take, Nat.min_eq_left (by omega)] at hlen
      exact absurd hlen (by decide)
    · rintro rfl
      exact absurd (by decide) hk

theorem ValidKey.not_tombstone {k : Key} (hk : ValidKey k) : sameKey k TOMBSTONE = false := by
  rw [Bool.eq_false_iff, ne_eq, sameKey_tombstone]
  exact hk.2

/-! ### The probe sequence -/

/-- The sizes the code builds: powers of two of a 32-bit word. -/
def PowerSize (size : UInt32) : Prop := ∃ k < 32, size.toNat = 2 ^ k

/-- `(index + jump(i)) % h->size` -/
def probeFrom (index size : UInt32) (i : ℕ) : UInt32 := (index + jump (UInt32.ofNat i)) % size

/-- The probe sequence from the home slot of a key. -/
def probe (key : Key) (size : UInt32) (i : ℕ) : UInt32 := (hash key size + jump (UInt32.ofNat i)) % size

theorem jump_toNat_mod {k : ℕ} (hk : k < 32) (i : ℕ) :
    (jump (UInt32.ofNat i)).toNat % 2 ^ k = Triangular.tri i % 2 ^ k := by
  have htoNat : (jump (UInt32.ofNat i)).toNat = i * (i + 1) % 2 ^ 32 / 2 := by
    simp only [jump, UInt32.toNat_div, UInt32.toNat_mul, UInt32.toNat_add, UInt32.toNat_ofNat',
      UInt32.reduceToNat]
    rw [Nat.mod_add_mod, ← Nat.mul_mod]
  rw [htoNat, Triangular.wrapped_half_mod hk]

theorem probeFrom_toNat {size : UInt32} {k : ℕ} (hk : k < 32) (hs : size.toNat = 2 ^ k) (index : UInt32) (i : ℕ) :
    (probeFrom index size i).toNat = (index.toNat + Triangular.tri i) % 2 ^ k := by
  have hdvd : 2 ^ k ∣ 2 ^ 32 := Nat.pow_dvd_pow 2 hk.le
  rw [probeFrom, UInt32.toNat_mod, UInt32.toNat_add, hs, Nat.mod_mod_of_dvd _ hdvd, Nat.add_mod, jump_toNat_mod hk,
    ← Nat.add_mod]

theorem probe_toNat {size : UInt32} {k : ℕ} (hk : k < 32) (hs : size.toNat = 2 ^ k) (key : Key) (i : ℕ) :
    (probe key size i).toNat = ((hash key size).toNat + Triangular.tri i) % 2 ^ k :=
  probeFrom_toNat hk hs (hash key size) i

theorem probe_zero (key : Key) (size : UInt32) : probe key size 0 = hash key size := by
  have hjump : jump (UInt32.ofNat 0) = 0 := by decide
  rw [probe, hash, hjump, UInt32.add_zero, ← UInt32.toNat_inj, UInt32.toNat_mod, UInt32.toNat_mod, Nat.mod_mod]

theorem probe_lt {size : UInt32} (hs : 0 < size.toNat) (key : Key) (i : ℕ) :
    (probe key size i).toNat < size.toNat := by
  rw [probe, UInt32.toNat_mod]
  exact Nat.mod_lt _ hs

/-- Every slot of a table of a power of two size is on every path, within `size` steps. -/
theorem exists_probe {size : UInt32} (hs : PowerSize size) (key : Key) {p : ℕ} (hp : p < size.toNat) :
    ∃ i < size.toNat, (probe key size i).toNat = p := by
  obtain ⟨k, hk, hs⟩ := hs
  rw [hs] at hp ⊢
  obtain ⟨i, hi, h⟩ := Triangular.exists_triangular_add k (hash key size).toNat p hp
  exact ⟨i, hi, by rw [probe_toNat hk hs, h]⟩

theorem PowerSize.pos {size : UInt32} (hs : PowerSize size) : 0 < size.toNat := by
  obtain ⟨k, _, hs⟩ := hs
  rw [hs]
  exact Nat.two_pow_pos k

/-- The paths of the code. -/
def probing (size : UInt32) (hs : PowerSize size) : Probing Key ℕ where
  path key i := (probe key size i).toNat
  steps := size.toNat
  exhaustive key i := exists_probe hs key (probe_lt hs.pos key i)

/-! ### Slots -/

def Item.slot (it : Item) : Slot Key UInt32 :=
  match it.key with
  | none => .empty
  | some k => if sameKey k TOMBSTONE then .removed else .live k it.value

def Item.isLive (it : Item) : Bool :=
  match it.slot with
  | .live _ _ => true
  | _ => false

namespace Hashmap

def slot (h : Hashmap) (p : ℕ) : Slot Key UInt32 := (h.items.getD p Item.null).slot

/-- The number of live items. -/
def liveCount (h : Hashmap) : ℕ := h.items.countP Item.isLive

/-- The invariant of the tables that the operations build from valid keys. -/
structure Sound (h : Hashmap) : Prop where
  power : PowerSize h.size
  table : WellFormed (probing h.size power) h.slot
  short : ∀ {p k v}, h.slot p = .live k v → k.length ≤ KEY_MAXLEN
  count_eq : h.count.toNat = h.liveCount

/-- Every live key is short and live once. -/
structure Keyed (h : Hashmap) : Prop where
  distinct : ∀ {p q k v w}, h.slot p = .live k v → h.slot q = .live k w → p = q
  short : ∀ {p k v}, h.slot p = .live k v → k.length ≤ KEY_MAXLEN

theorem Sound.keyed {h : Hashmap} (hs : h.Sound) : h.Keyed := ⟨hs.table.distinct, hs.short⟩

@[simp] theorem setItem_size (h : Hashmap) (pos : UInt32) (it : Item) : (h.setItem pos it).size = h.size := rfl

@[simp] theorem setItem_count (h : Hashmap) (pos : UInt32) (it : Item) : (h.setItem pos it).count = h.count := rfl

@[simp] theorem setCount_size (h : Hashmap) (c : UInt32) : (h.setCount c).size = h.size := rfl

@[simp] theorem setCount_count (h : Hashmap) (c : UInt32) : (h.setCount c).count = c := rfl

@[simp] theorem setCount_slot (h : Hashmap) (c : UInt32) : (h.setCount c).slot = h.slot := rfl

@[simp] theorem setCount_liveCount (h : Hashmap) (c : UInt32) : (h.setCount c).liveCount = h.liveCount := rfl

theorem slot_item (h : Hashmap) (pos : UInt32) : (h.item pos).slot = h.slot pos.toNat := rfl

theorem slot_getElem (h : Hashmap) {p : ℕ} (hp : p < h.items.length) : h.slot p = h.items[p].slot := by
  rw [slot, List.getD_eq_getElem?_getD, List.getElem?_eq_getElem hp, Option.getD_some]

theorem item_getElem (h : Hashmap) {pos : UInt32} (hpos : pos.toNat < h.items.length) :
    h.item pos = h.items[pos.toNat] := by
  rw [item, List.getD_eq_getElem?_getD, List.getElem?_eq_getElem hpos, Option.getD_some]

/-- Outside the table nothing is written. -/
theorem setItem_of_ge (h : Hashmap) {pos : UInt32} (hpos : ¬ pos.toNat < h.size.toNat) (it : Item) :
    h.setItem pos it = h := by
  obtain ⟨size, count, items, hlen, hsize⟩ := h
  simp only [setItem, mk.injEq, true_and]
  exact List.set_eq_of_length_le (by rw [hlen]; exact Nat.not_lt.1 hpos)

theorem slot_setItem (h : Hashmap) {pos : UInt32} (hpos : pos.toNat < h.size.toNat) (it : Item) :
    (h.setItem pos it).slot = Function.update h.slot pos.toNat it.slot := by
  funext q
  have hlen : pos.toNat < h.items.length := by rw [h.items_length]; exact hpos
  by_cases hq : q = pos.toNat
  · subst hq
    rw [Function.update_self]
    simp [slot, setItem, List.getD_eq_getElem?_getD, hlen]
  · rw [Function.update_of_ne hq]
    simp [slot, setItem, List.getD_eq_getElem?_getD, List.getElem?_set_ne (Ne.symm hq)]

theorem liveCount_setItem (h : Hashmap) {pos : UInt32} (hpos : pos.toNat < h.size.toNat) (it : Item) :
    (h.setItem pos it).liveCount =
      h.liveCount - (if (h.item pos).isLive then 1 else 0) + (if it.isLive then 1 else 0) := by
  have hlen : pos.toNat < h.items.length := by rw [h.items_length]; exact hpos
  have hitem : h.item pos = h.items[pos.toNat] := by
    simp [item, List.getD_eq_getElem?_getD, hlen]
  rw [hitem]
  exact List.countP_set hlen

theorem liveCount_le (h : Hashmap) : h.liveCount ≤ h.size.toNat := by
  rw [← h.items_length]
  exact List.countP_le_length

/-- Nothing is live outside the table. -/
theorem slot_lt_of_live {h : Hashmap} {p : ℕ} {k : Key} {v : UInt32} (hp : h.slot p = .live k v) :
    p < h.size.toNat := by
  by_contra hge
  have hnone : h.items[p]? = none := List.getElem?_eq_none (by rw [h.items_length]; omega)
  rw [slot, List.getD_eq_getElem?_getD, hnone] at hp
  cases hp

theorem Sound.slot_lt {h : Hashmap} (_hs : h.Sound) {p : ℕ} {k : Key} {v : UInt32} (hp : h.slot p = .live k v) :
    p < h.size.toNat := slot_lt_of_live hp

/-- A live slot counts. -/
theorem Sound.liveCount_pos {h : Hashmap} (hs : h.Sound) {p : ℕ} {k : Key} {v : UInt32}
    (hp : h.slot p = .live k v) : 0 < h.liveCount := by
  have hlt : p < h.items.length := by rw [h.items_length]; exact hs.slot_lt hp
  refine List.countP_pos_iff.2 ⟨h.items[p], List.getElem_mem hlt, ?_⟩
  rw [h.slot_getElem hlt] at hp
  rw [Item.isLive, hp]

end Hashmap

theorem Item.slot_empty {it : Item} : it.slot = .empty ↔ it.key = none := by
  unfold Item.slot
  split
  · simp_all
  · split <;> simp_all

theorem Item.slot_removed {it : Item} : it.slot = .removed ↔ it.key = some TOMBSTONE := by
  unfold Item.slot
  split
  · simp_all
  · rename_i k hk
    rw [hk, Option.some_inj, ← sameKey_tombstone]
    split <;> simp_all

theorem Item.slot_live {it : Item} {k : Key} {v : UInt32} :
    it.slot = .live k v ↔ it = ⟨some k, v⟩ ∧ k ≠ TOMBSTONE := by
  obtain ⟨key, value⟩ := it
  cases key with
  | none => simp [Item.slot]
  | some k' =>
    rw [ne_eq, ← sameKey_tombstone]
    simp only [Item.slot, Item.mk.injEq, Option.some_inj]
    constructor
    · intro h
      split at h
      · cases h
      · cases h
        exact ⟨⟨rfl, rfl⟩, by assumption⟩
    · rintro ⟨⟨rfl, rfl⟩, h⟩
      rw [if_neg h]

end NyanChat
