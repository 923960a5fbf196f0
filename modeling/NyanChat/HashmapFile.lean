import NyanChat.JenkinsHash
import NyanChat.Probes
import NyanChat.Wire

/-!
# The hash map in a file

`write_hashmap_to_file` writes the records of the table as they lie in memory: a record holds the address of its key,
not the text.  A process that reads the file has the same addresses, and its searches compare with what its own memory
holds there.  So the map that is read answers like the written one exactly when the texts are still found at the
addresses (`KeepsTexts`), and a file that ends early is refused only before its first whole record
(`stored_hashmap_iff`).

The padding of a record is part of it.  Allocations succeed.
-/

namespace NyanChat

/-- The string that a process reads at an address, `none` when it can read none. -/
abbrev Memory := UInt64 → Option Key

/-- An `Item` as it lies in memory: the address of the key, the value and four bytes of padding. -/
structure StoredItem where
  key : UInt64
  value : UInt32
  padding : UInt32
deriving DecidableEq, Repr

structure StoredHashmap where
  size : UInt32
  count : UInt32
  items : List StoredItem
  items_length : items.length = size.toNat

/-- `sizeof(Item)` -/
abbrev SIZEOF_ITEM : ℕ := 16

def addressBytes (a : UInt64) : List UInt8 :=
  wordBytes (UInt32.ofNat a.toNat) ++ wordBytes (UInt32.ofNat (a.toNat / 2 ^ 32))

def bytesAddress (bytes : List UInt8) : UInt64 :=
  UInt64.ofNat ((bytesWord (bytes.take 4)).toNat + 2 ^ 32 * (bytesWord ((bytes.drop 4).take 4)).toNat)

namespace StoredItem

/-- What `calloc` puts into every item. -/
def null : StoredItem := ⟨0, 0, 0⟩

def toBytes (it : StoredItem) : List UInt8 := addressBytes it.key ++ (wordBytes it.value ++ wordBytes it.padding)

def ofBytes (bytes : List UInt8) : StoredItem :=
  ⟨bytesAddress (bytes.take 8), bytesWord ((bytes.drop 8).take 4), bytesWord ((bytes.drop 12).take 4)⟩

end StoredItem

def writeHashmapToFile (h : StoredHashmap) : List UInt8 :=
  wordBytes h.size ++ (wordBytes h.count ++ h.items.flatMap StoredItem.toBytes)

/-- `fread`: the number of whole elements that were read, the bytes that were read and the rest of the file. -/
def fread (size nmemb : ℕ) (file : List UInt8) : ℕ × List UInt8 × List UInt8 :=
  let bytes := file.take (size * nmemb)
  (bytes.length / size, bytes, file.drop (size * nmemb))

/-- The records of an array that held zeros before the bytes were read into it. -/
def readItems : ℕ → List UInt8 → List StoredItem
  | 0, _ => []
  | n + 1, bytes =>
    let record := bytes.take SIZEOF_ITEM
    StoredItem.ofBytes (record ++ List.replicate (SIZEOF_ITEM - record.length) 0) ::
      readItems n (bytes.drop SIZEOF_ITEM)

theorem length_readItems (n : ℕ) : ∀ bytes, (readItems n bytes).length = n := by
  induction n with
  | zero => exact fun _ => rfl
  | succ n ih => exact fun bytes => congrArg Nat.succ (ih _)

/-- `none` is `NULL`. -/
def readHashmapFromFile (file : List UInt8) : Option StoredHashmap :=
  let (read, size, file) := fread 4 1 file
  if read = 0 then none
  else
    let (read, count, file) := fread 4 1 file
    if read = 0 then none
    else
      let size := bytesWord size
      let (read, bytes, _) := fread SIZEOF_ITEM size.toNat file
      if read = 0 then none
      else some ⟨size, bytesWord count, readItems size.toNat bytes, length_readItems _ _⟩

def StoredHashmap.item (h : StoredHashmap) (pos : UInt32) : StoredItem := h.items.getD pos.toNat StoredItem.null

/-- The loop of `hashmap_find` in a process: `none` when it reads a string at an address where there is none. -/
def findLoopIn (m : Memory) (h : StoredHashmap) (key : Key) (index : UInt32) :
    ℕ → UInt32 → UInt32 → UInt64 → Option Int
  | 0, _, _, _ => some (-1)
  | n + 1, i, currentPos, address =>
    if address = 0 then some (-1)
    else do
      let currentKey ← m address
      if sameKey currentKey key then return currentPos.toNat
      else
        let currentPos := (index + jump (i + 1)) % h.size
        findLoopIn m h key index n (i + 1) currentPos (h.item currentPos).key

def hashmapFindIn (m : Memory) (h : StoredHashmap) (key : Key) : Option Int :=
  let index := hash key h.size
  findLoopIn m h key index h.size.toNat 0 index (h.item index).key

def hashmapGetIn (m : Memory) (h : StoredHashmap) (key : Key) : Option UInt32 := do
  let pos ← hashmapFindIn m h key
  return if pos = -1 then 0 else (h.item (UInt32.ofNat pos.toNat)).value

/-! ### What a process sees -/

def StoredItem.seen (m : Memory) (it : StoredItem) : Option Item :=
  if it.key = 0 then some ⟨none, it.value⟩ else (m it.key).map fun k => ⟨some k, it.value⟩

/-- The stored map is the map `h` in a process with this memory. -/
structure Sees (m : Memory) (t : StoredHashmap) (h : Hashmap) : Prop where
  size : t.size = h.size
  count : t.count = h.count
  items : t.items.map (StoredItem.seen m) = h.items.map some

/-- `hashmap_find` and `hashmap_get` answer in a process for every string as they do in `h`. -/
def AnswersLike (m : Memory) (t : StoredHashmap) (h : Hashmap) : Prop :=
  ∀ key : Key, 0 ∉ key → hashmapFindIn m t key = some (hashmapFind h key) ∧
    hashmapGetIn m t key = some (hashmapGet h key)

/-- Some search stops at the key of this slot. -/
def StopsAt (h : Hashmap) (p : UInt32) : Prop :=
  ∃ key i k, 0 ∉ key ∧ i < h.size.toNat ∧ FoundAt h key i k ∧ probe key h.size i = p

/-- The first `KEY_MAXLEN` bytes of the key of an item. -/
def Item.text (it : Item) : Option Key := it.key.map (List.take KEY_MAXLEN)

/-- The process can read a string at every address of the stored map, and it has the text of the key in `h`, except in
slots where no search stops. -/
def KeepsTexts (m : Memory) (t : StoredHashmap) (h : Hashmap) : Prop :=
  ∃ h', Sees m t h' ∧ ∀ p, (h'.item p).text = (h.item p).text ∨ ¬ StopsAt h p ∧ ¬ StopsAt h' p

/-! ### The bytes of the file -/

private theorem length_wordBytes (w : UInt32) : (wordBytes w).length = 4 := rfl

private theorem bytesAddress_addressBytes (a : UInt64) : bytesAddress (addressBytes a) = a := by
  have hlow : (addressBytes a).take 4 = wordBytes (UInt32.ofNat a.toNat) := rfl
  have hhigh : ((addressBytes a).drop 4).take 4 = wordBytes (UInt32.ofNat (a.toNat / 2 ^ 32)) := rfl
  have hlt := a.toNat_lt
  rw [bytesAddress, hlow, hhigh, bytesWord_wordBytes, bytesWord_wordBytes, UInt32.toNat_ofNat', UInt32.toNat_ofNat',
    ← UInt64.toNat_inj, UInt64.toNat_ofNat']
  omega

namespace StoredItem

theorem length_toBytes (it : StoredItem) : it.toBytes.length = SIZEOF_ITEM := rfl

theorem ofBytes_toBytes (it : StoredItem) : ofBytes it.toBytes = it := by
  have hkey : it.toBytes.take 8 = addressBytes it.key := rfl
  have hvalue : (it.toBytes.drop 8).take 4 = wordBytes it.value := rfl
  have hpadding : (it.toBytes.drop 12).take 4 = wordBytes it.padding := rfl
  rw [ofBytes, hkey, hvalue, hpadding, bytesAddress_addressBytes, bytesWord_wordBytes, bytesWord_wordBytes]

end StoredItem

private theorem length_records (items : List StoredItem) :
    (items.flatMap StoredItem.toBytes).length = SIZEOF_ITEM * items.length := by
  rw [List.length_flatMap, List.map_congr_left fun it _ => it.length_toBytes, List.map_const', List.sum_replicate_nat,
    Nat.mul_comm]

private theorem readItems_records (items : List StoredItem) :
    readItems items.length (items.flatMap StoredItem.toBytes) = items := by
  induction items with
  | nil => rfl
  | cons it items ih =>
    have htake : (it.toBytes ++ items.flatMap StoredItem.toBytes).take SIZEOF_ITEM = it.toBytes :=
      List.take_left' it.length_toBytes
    have hdrop : (it.toBytes ++ items.flatMap StoredItem.toBytes).drop SIZEOF_ITEM = items.flatMap StoredItem.toBytes :=
      List.drop_left' it.length_toBytes
    rw [List.flatMap_cons, List.length_cons, readItems, htake, hdrop, ih, it.length_toBytes, Nat.sub_self,
      List.replicate_zero, List.append_nil, it.ofBytes_toBytes]

/-- A file with all the bytes. -/
private theorem fread_whole {size nmemb : ℕ} (hs : 0 < size) {bytes : List UInt8} (hlen : bytes.length = size * nmemb)
    (rest : List UInt8) : fread size nmemb (bytes ++ rest) = (nmemb, bytes, rest) := by
  rw [fread, List.take_left' hlen, List.drop_left' hlen, hlen, Nat.mul_div_cancel_left _ hs]

/-- The whole file gives the map back, with its addresses. -/
theorem read_written (t : StoredHashmap) (hsize : 0 < t.size.toNat) :
    readHashmapFromFile (writeHashmapToFile t) = some t := by
  have hsizes := fread_whole (Nat.succ_pos 3) ((length_wordBytes t.size).trans (Nat.mul_one 4).symm)
    (wordBytes t.count ++ t.items.flatMap StoredItem.toBytes)
  have hcounts := fread_whole (Nat.succ_pos 3) ((length_wordBytes t.count).trans (Nat.mul_one 4).symm)
    (t.items.flatMap StoredItem.toBytes)
  have hrecords := fread_whole (by decide : 0 < SIZEOF_ITEM)
    ((length_records t.items).trans (congrArg _ t.items_length)) []
  rw [List.append_nil] at hrecords
  simp only [readHashmapFromFile, writeHashmapToFile, hsizes, hcounts, bytesWord_wordBytes, hrecords]
  rw [if_neg Nat.one_ne_zero, if_neg Nat.one_ne_zero, if_neg hsize.ne']
  obtain ⟨size, count, items, hlen⟩ := t
  simp only [Option.some_inj, StoredHashmap.mk.injEq, true_and]
  rw [← hlen]
  exact readItems_records items

/-- What is read of a file that ends early. -/
private theorem read_eq_none_iff (file : List UInt8) :
    readHashmapFromFile file = none ↔ file.length < 8 ∨
      min (SIZEOF_ITEM * (bytesWord (file.take 4)).toNat) (file.length - 8) < SIZEOF_ITEM := by
  simp only [readHashmapFromFile, fread, SIZEOF_ITEM, Nat.mul_one, List.length_take, List.length_drop, List.drop_drop]
  split
  · simp only [true_iff]
    omega
  · split
    · simp only [true_iff]
      omega
    · split
      · simp only [true_iff]
        omega
      · simp only [reduceCtorEq, false_iff]
        omega

/-- A file that ends early is refused only before its first whole record. -/
theorem read_prefix_eq_none_iff (t : StoredHashmap) {n : ℕ} (hn : n < (writeHashmapToFile t).length) :
    readHashmapFromFile ((writeHashmapToFile t).take n) = none ↔ n < 24 := by
  have hlen : (writeHashmapToFile t).length = 8 + SIZEOF_ITEM * t.size.toNat := by
    rw [writeHashmapToFile, List.length_append, List.length_append, length_records, t.items_length, length_wordBytes,
      length_wordBytes]
    omega
  rw [read_eq_none_iff, List.length_take, Nat.min_eq_left hn.le]
  by_cases hfour : n < 8
  · omega
  · have hsize : (((writeHashmapToFile t).take n).take 4) = wordBytes t.size := by
      rw [List.take_take, Nat.min_eq_left (by omega), writeHashmapToFile]
      exact List.take_left' (length_wordBytes t.size)
    have hitem : SIZEOF_ITEM = 16 := rfl
    rw [hitem] at hlen ⊢
    rw [hsize, bytesWord_wordBytes]
    omega

/-! ### Searches in a process -/

section Searches

variable {m m' : Memory} {t : StoredHashmap} {h h' : Hashmap}

namespace Sees

theorem item (hs : Sees m t h) (p : UInt32) : (t.item p).seen m = some (h.item p) := by
  have hget := congrArg (fun l => l[p.toNat]?) hs.items
  rw [StoredHashmap.item, Hashmap.item, List.getD_eq_getElem?_getD, List.getD_eq_getElem?_getD]
  rw [List.getElem?_map, List.getElem?_map] at hget
  cases ht : t.items[p.toNat]? with
  | none =>
    rw [ht] at hget
    rw [Option.map_eq_none_iff.1 hget.symm]
    rfl
  | some it =>
    rw [ht] at hget
    obtain ⟨it', hh, hit'⟩ := Option.map_eq_some_iff.1 hget.symm
    rw [hh]
    exact hit'.symm

theorem key_cases (hs : Sees m t h) (p : UInt32) :
    (t.item p).key = 0 ∧ (h.item p).key = none ∨
      (t.item p).key ≠ 0 ∧ ∃ k, m (t.item p).key = some k ∧ (h.item p).key = some k := by
  have hitem := hs.item p
  unfold StoredItem.seen at hitem
  split at hitem
  · rename_i hzero
    exact Or.inl ⟨hzero, by rw [← Option.some.inj hitem]⟩
  · rename_i hzero
    obtain ⟨k, hk, hkey⟩ := Option.map_eq_some_iff.1 hitem
    exact Or.inr ⟨hzero, k, hk, by rw [← hkey]⟩

theorem value (hs : Sees m t h) (p : UInt32) : (h.item p).value = (t.item p).value := by
  have hitem := hs.item p
  unfold StoredItem.seen at hitem
  split at hitem
  · rw [← Option.some.inj hitem]
  · obtain ⟨k, -, hkey⟩ := Option.map_eq_some_iff.1 hitem
    rw [← hkey]

private theorem findLoop (hs : Sees m t h) (key : Key) (index : UInt32) (n : ℕ) :
    ∀ i pos, findLoopIn m t key index n i pos (t.item pos).key =
      some (NyanChat.findLoop h key index n i pos (h.item pos).key) := by
  induction n with
  | zero => exact fun _ _ => rfl
  | succ n ih =>
    intro i pos
    rcases hs.key_cases pos with ⟨hzero, hnone⟩ | ⟨hzero, k, hk, hsome⟩
    · rw [hnone, findLoopIn, if_pos hzero, NyanChat.findLoop]
    · rw [hsome, findLoopIn, if_neg hzero, hk, NyanChat.findLoop]
      by_cases hsame : sameKey k key = true
      · simp only [Option.bind_eq_bind, Option.bind_some, if_pos hsame]
        rfl
      · simp only [Option.bind_eq_bind, Option.bind_some, if_neg hsame]
        rw [hs.size]
        exact ih (i + 1) _

theorem find (hs : Sees m t h) (key : Key) : hashmapFindIn m t key = some (hashmapFind h key) := by
  rw [hashmapFindIn, hs.size]
  exact hs.findLoop key _ _ _ _

theorem get (hs : Sees m t h) (key : Key) : hashmapGetIn m t key = some (hashmapGet h key) := by
  rw [hashmapGetIn, hs.find, hashmapGet]
  simp only [Option.bind_eq_bind, Option.bind_some, hs.value]
  rfl

end Sees

theorem exists_sees (hsize : 0 < t.size.toNat) (hread : ∀ it ∈ t.items, ∃ item, it.seen m = some item) :
    ∃ h, Sees m t h := by
  refine ⟨⟨t.size, t.count, t.items.map fun it => (it.seen m).getD Item.null, ?_, hsize⟩, rfl, rfl, ?_⟩
  · rw [List.length_map, t.items_length]
  · rw [List.map_map]
    refine List.map_congr_left fun it hit => ?_
    obtain ⟨item, hitem⟩ := hread it hit
    rw [Function.comp, hitem, Option.getD_some]

private theorem toNat_slot {size : UInt32} {p : ℕ} (hp : p < size.toNat) : (UInt32.ofNat p).toNat = p :=
  UInt32.toNat_ofNat_of_lt' (hp.trans size.toNat_lt)

/-- Every slot is the home slot of some string, so a process that answers every search can read every address. -/
theorem AnswersLike.readable (hans : AnswersLike m t h) {it : StoredItem} (hit : it ∈ t.items) :
    ∃ item, it.seen m = some item := by
  obtain ⟨p, hp, rfl⟩ := List.mem_iff_getElem.1 hit
  have hp' := hp
  rw [t.items_length] at hp'
  have hpos := toNat_slot hp'
  obtain ⟨key, hkey, hhome⟩ := exists_key_home (hpos.trans_lt hp')
  have hfind := (hans key hkey).1
  have hitem : t.item (UInt32.ofNat p) = t.items[p] := by
    rw [StoredHashmap.item, hpos, List.getD_eq_getElem?_getD, List.getElem?_eq_getElem hp, Option.getD_some]
  obtain ⟨n, hn⟩ : ∃ n, t.size.toNat = n + 1 := ⟨t.size.toNat - 1, by omega⟩
  rw [hashmapFindIn, hhome, hn, findLoopIn, hitem] at hfind
  unfold StoredItem.seen
  by_cases hzero : (t.items[p]).key = 0
  · rw [if_pos hzero]
    exact ⟨_, rfl⟩
  · rw [if_neg hzero] at hfind ⊢
    obtain ⟨k, hk, -⟩ := Option.bind_eq_some_iff.1 hfind
    rw [hk]
    exact ⟨_, rfl⟩

/-! ### When two tables are searched alike -/

theorem sameKey_of_text {it it' : Item} {k k' : Key} (hk : it.key = some k) (hk' : it'.key = some k')
    (htext : it'.text = it.text) (key : Key) : sameKey k' key = sameKey k key := by
  rw [Item.text, Item.text, hk, hk'] at htext
  rw [sameKey, sameKey, Option.some.inj htext]

theorem text_of_sameKey {it it' : Item} {k k' key : Key} (hk : it.key = some k) (hk' : it'.key = some k')
    (hsame : sameKey k key = true) (hsame' : sameKey k' key = true) : it'.text = it.text := by
  rw [sameKey, beq_iff_eq] at hsame hsame'
  rw [Item.text, Item.text, hk, hk', Option.map_some, Option.map_some, hsame, hsame']

/-- The first slot on the path that holds the key is the answer. -/
theorem FoundAt.find {key k : Key} {i : ℕ} (hfound : FoundAt h key i k) (hi : i < h.size.toNat) :
    hashmapFind h key = ((probe key h.size i).toNat : ℕ) := by
  have hhalt : Halts (h.item (probe key h.size i)).key key := by
    rw [hfound.item, halts_some]
    exact hfound.same
  rcases hashmapFind_walk h key with ⟨j, k', hfind, hfound'⟩ | ⟨-, j, hskip, hend⟩
  · have hhalt' : Halts (h.item (probe key h.size j)).key key := by
      rw [hfound'.item, halts_some]
      exact hfound'.same
    rcases Nat.lt_trichotomy i j with hlt | rfl | hlt
    · exact absurd hhalt (hfound'.skips i hlt)
    · exact hfind
    · exact absurd hhalt' (hfound.skips j hlt)
  · rcases Nat.lt_trichotomy i j with hlt | rfl | hlt
    · exact absurd hhalt (hskip i hlt)
    · rcases hend with hnone | hsize
      · rw [hfound.item] at hnone
        cases hnone
      · omega
    · rcases hend with hnone | hsize
      · exact absurd (hnone ▸ halts_none key) (hfound.skips j hlt)
      · omega

/-- Where a search of one table stops, a table with the same answers has the same text. -/
private theorem StopsAt.text_eq (hsame : ∀ key : Key, 0 ∉ key → hashmapFind h' key = hashmapFind h key) {p : UInt32}
    (hstop : StopsAt h p) : (h'.item p).text = (h.item p).text := by
  obtain ⟨key, i, k, hkey, hi, hfound, rfl⟩ := hstop
  have hfind := (hsame key hkey).trans (hfound.find hi)
  rcases hashmapFind_walk h' key with ⟨j, k', hfind', hfound'⟩ | ⟨hfind', -⟩
  · have hpos : probe key h'.size j = probe key h.size i := by
      rw [← UInt32.toNat_inj]
      exact Int.ofNat.inj (hfind'.symm.trans hfind)
    have hitem' := hfound'.item
    rw [hpos] at hitem'
    exact text_of_sameKey hfound.item hitem' hfound.same hfound'.same
  · rw [hfind'] at hfind
    omega

/-- Two searches go the same way while the texts they compare are the same or are not the ones they look for. -/
private theorem findLoop_congr (hsize : h'.size = h.size)
    (hnull : ∀ p, (h'.item p).key = none ↔ (h.item p).key = none)
    (htexts : ∀ p, (h'.item p).text = (h.item p).text ∨ ¬ StopsAt h p ∧ ¬ StopsAt h' p) {key : Key} (hkey : 0 ∉ key)
    (n : ℕ) : ∀ i, i + n = h.size.toNat → Skips h key i → Skips h' key i →
      findLoop h' key (hash key h.size) n (UInt32.ofNat i) (probe key h.size i) (h'.item (probe key h.size i)).key =
        findLoop h key (hash key h.size) n (UInt32.ofNat i) (probe key h.size i) (h.item (probe key h.size i)).key := by
  induction n with
  | zero => exact fun _ _ _ _ => rfl
  | succ n ih =>
    intro i hi hskip hskip'
    cases hc : (h.item (probe key h.size i)).key with
    | none => rw [(hnull _).2 hc]; rfl
    | some k =>
      obtain ⟨k', hc'⟩ := Option.ne_none_iff_exists'.1 fun hnone =>
        Option.some_ne_none k (hc.symm.trans ((hnull _).1 hnone))
      have hsame : sameKey k' key = sameKey k key := by
        rcases htexts (probe key h.size i) with htext | ⟨hstop, hstop'⟩
        · exact sameKey_of_text hc hc' htext key
        · have hk : sameKey k key = false := by
            by_contra htrue
            rw [Bool.not_eq_false] at htrue
            exact hstop ⟨key, i, k, hkey, by omega, ⟨hskip, hc, htrue⟩, rfl⟩
          have hk' : sameKey k' key = false := by
            by_contra htrue
            rw [Bool.not_eq_false] at htrue
            exact hstop' ⟨key, i, k', hkey, by rw [hsize]; omega, ⟨hskip', by rw [hsize]; exact hc', htrue⟩,
              by rw [hsize]⟩
          rw [hk, hk']
      rw [hc']
      unfold findLoop
      by_cases htrue : sameKey k key = true
      · rw [if_pos htrue, if_pos (hsame.trans htrue)]
      · have hsucc : UInt32.ofNat i + 1 = UInt32.ofNat (i + 1) := (UInt32.ofNat_add i 1).symm
        have hnext : ¬ Halts (h.item (probe key h.size i)).key key := by
          rw [hc, halts_some]
          exact htrue
        have hnext' : ¬ Halts (h'.item (probe key h'.size i)).key key := by
          rw [hsize, hc', halts_some, hsame]
          exact htrue
        rw [if_neg htrue, if_neg (by rw [hsame]; exact htrue), hsucc, hsize]
        exact ih (i + 1) (by omega) (hskip.succ hnext) (hskip'.succ hnext')

/-- Two tables of one size with the same empty slots are searched alike exactly when their texts are the same where a
search stops. -/
theorem find_eq_iff (hsize : h'.size = h.size) (hnull : ∀ p, (h'.item p).key = none ↔ (h.item p).key = none) :
    (∀ key : Key, 0 ∉ key → hashmapFind h' key = hashmapFind h key) ↔
      ∀ p, (h'.item p).text = (h.item p).text ∨ ¬ StopsAt h p ∧ ¬ StopsAt h' p := by
  constructor
  · intro hsame p
    by_cases htext : (h'.item p).text = (h.item p).text
    · exact Or.inl htext
    · exact Or.inr ⟨fun hstop => htext (hstop.text_eq hsame),
        fun hstop => htext (hstop.text_eq fun key hkey => (hsame key hkey).symm).symm⟩
  · intro htexts key hkey
    have hloop := findLoop_congr hsize hnull htexts hkey h.size.toNat 0 (Nat.zero_add _) (skips_zero h key)
      (skips_zero h' key)
    rw [probe_zero] at hloop
    rw [hashmapFind, hsize]
    exact hloop

theorem answersLike_iff (hs : Sees m t h) : AnswersLike m' t h ↔ KeepsTexts m' t h := by
  have hnull : ∀ {h'}, Sees m' t h' → ∀ p, (h'.item p).key = none ↔ (h.item p).key = none := by
    intro h' hs' p
    rcases hs.key_cases p with ⟨hzero, hnone⟩ | ⟨hzero, k, -, hk⟩ <;>
      rcases hs'.key_cases p with ⟨hzero', hnone'⟩ | ⟨hzero', k', -, hk'⟩
    · rw [hnone, hnone']
    · exact absurd hzero hzero'
    · exact absurd hzero' hzero
    · rw [hk, hk']
      simp
  constructor
  · intro hans
    obtain ⟨h', hs'⟩ := exists_sees (by rw [hs.size]; exact h.size_pos) fun it => hans.readable
    refine ⟨h', hs', (find_eq_iff (hs'.size.symm.trans hs.size) (hnull hs')).1 fun key hkey => ?_⟩
    exact Option.some.inj ((hs'.find key).symm.trans (hans key hkey).1)
  · rintro ⟨h', hs', htexts⟩ key hkey
    have hfind := (find_eq_iff (hs'.size.symm.trans hs.size) (hnull hs')).2 htexts key hkey
    refine ⟨(hs'.find key).trans (congrArg some hfind), (hs'.get key).trans (congrArg some ?_)⟩
    rw [hashmapGet, hashmapGet, hfind, hs'.value, hs.value]

/-- Only a map without keys keeps its texts in every process: another process may have no string at an address. -/
private theorem keepsTexts_everywhere_iff (hs : Sees m t h) :
    (∀ m', KeepsTexts m' t h) ↔ ∀ it ∈ h.items, it.key = none := by
  have hpair : ∀ it ∈ t.items, ∃ item ∈ h.items, it.seen m = some item := by
    intro it hit
    have hmem := List.mem_map_of_mem (f := StoredItem.seen m) hit
    rw [hs.items] at hmem
    obtain ⟨item, hitem, heq⟩ := List.mem_map.1 hmem
    exact ⟨item, hitem, heq.symm⟩
  constructor
  · intro hkeeps item hitem
    obtain ⟨h', hs', -⟩ := hkeeps fun _ => none
    obtain ⟨p, hp, rfl⟩ := List.mem_iff_getElem.1 hitem
    rw [h.items_length] at hp
    have hpos := toNat_slot hp
    have hget : h.item (UInt32.ofNat p) = h.items[p] := by
      rw [h.item_getElem (by rw [hpos, h.items_length]; exact hp)]
      simp only [hpos]
    rw [← hget]
    rcases hs'.key_cases (UInt32.ofNat p) with ⟨hzero, -⟩ | ⟨-, k, hk, -⟩
    · rcases hs.key_cases (UInt32.ofNat p) with ⟨-, hnone⟩ | ⟨hne, -⟩
      · exact hnone
      · exact absurd hzero hne
    · cases hk
  · intro hnull m'
    refine ⟨h, ⟨hs.size, hs.count, ?_⟩, fun p => Or.inl rfl⟩
    rw [← hs.items]
    refine List.map_congr_left fun it hit => ?_
    obtain ⟨item, hitem, hseen⟩ := hpair it hit
    have hkey := hnull item hitem
    unfold StoredItem.seen at hseen ⊢
    split at hseen
    · rename_i hzero
      rw [if_pos hzero, if_pos hzero]
    · obtain ⟨k, -, hk⟩ := Option.map_eq_some_iff.1 hseen
      rw [← hk] at hkey
      cases hkey

/-- A written map that is read in another process answers like the written one exactly when the texts of its keys are
found at the same addresses there; in every process, exactly when it has no keys.  A file that ends early is refused
exactly when it ends before its first whole record. -/
theorem stored_hashmap_iff (hs : Sees m t h) :
    (∀ m', (∃ t', readHashmapFromFile (writeHashmapToFile t) = some t' ∧ AnswersLike m' t' h) ↔ KeepsTexts m' t h) ∧
    ((∀ m', ∃ t', readHashmapFromFile (writeHashmapToFile t) = some t' ∧ AnswersLike m' t' h) ↔
      ∀ it ∈ h.items, it.key = none) ∧
    ∀ n < (writeHashmapToFile t).length, readHashmapFromFile ((writeHashmapToFile t).take n) = none ↔ n < 24 := by
  have hread := read_written t (by rw [hs.size]; exact h.size_pos)
  have hfull : ∀ m', (∃ t', readHashmapFromFile (writeHashmapToFile t) = some t' ∧ AnswersLike m' t' h) ↔
      KeepsTexts m' t h := by
    intro m'
    rw [← answersLike_iff hs, hread]
    simp
  refine ⟨hfull, ?_, fun n hn => read_prefix_eq_none_iff t hn⟩
  rw [← keepsTexts_everywhere_iff hs]
  exact forall_congr' hfull

end Searches

/-- A map with two keys, as a process has it in memory. -/
def storedPair : StoredHashmap where
  size := 4
  count := 2
  items := [StoredItem.null, StoredItem.null, ⟨4096, 2, 0⟩, ⟨4098, 10, 0⟩]
  items_length := rfl

def pairMemory : Memory := fun a => if a = 4096 then some [97] else if a = 4098 then some [98] else none

private theorem four_pos : 0 < (4 : UInt32).toNat := by decide

private def tablePair : Hashmap where
  size := 4
  count := 2
  items := [Item.null, Item.null, ⟨some [97], 2⟩, ⟨some [98], 10⟩]
  items_length := rfl
  size_pos := four_pos

private theorem sees_tablePair : Sees pairMemory storedPair tablePair := ⟨rfl, rfl, rfl⟩

/-- The process that wrote the map reads it back, and refuses a file that ends in the first record. -/
theorem stored_hashmap_iff_pair :
    (∃ t', readHashmapFromFile (writeHashmapToFile storedPair) = some t' ∧ AnswersLike pairMemory t' tablePair) ∧
      readHashmapFromFile ((writeHashmapToFile storedPair).take 23) = none := by
  obtain ⟨hfull, -, hshort⟩ := stored_hashmap_iff sees_tablePair
  exact ⟨(hfull pairMemory).2 ⟨tablePair, sees_tablePair, fun _ => Or.inl rfl⟩,
    (hshort 23 (by decide)).2 (by decide)⟩

/-- Of the file without its last record a map without the second key is read, and in a process with nothing at the
address of a key a search reads there. -/
theorem file_loses_entries :
    hashmapFindIn pairMemory storedPair [98] = some 3 ∧
      56 < (writeHashmapToFile storedPair).length ∧
      (∃ t', readHashmapFromFile ((writeHashmapToFile storedPair).take 56) = some t' ∧
        hashmapFindIn pairMemory t' [98] = some (-1)) ∧
      ∃ t', readHashmapFromFile (writeHashmapToFile storedPair) = some t' ∧
        hashmapFindIn (fun _ => none) t' [98] = none := by
  have hcut : (readHashmapFromFile ((writeHashmapToFile storedPair).take 56)).map
      (fun t' => hashmapFindIn pairMemory t' [98]) = some (some (-1)) := by decide
  refine ⟨by decide, by decide, ?_, storedPair, read_written storedPair (by decide), by decide⟩
  obtain ⟨t', hread, hfind⟩ := Option.map_eq_some_iff.1 hcut
  exact ⟨t', hread, hfind⟩

end NyanChat
