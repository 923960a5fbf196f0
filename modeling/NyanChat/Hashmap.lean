import Mathlib.Data.UInt

/-!
# The hash map

The open-addressing hash map of `hashmap.c`: string keys, `uint` values, table sizes that are powers of two, probing
by triangular numbers, removed marks.

A key is the list of the bytes before its NUL.  `NULL` is `none`.  The loop of `hashmap_insert` has no bound and
`hashmap_insert` and `hashmap_resize` call each other, so these functions take a fuel and return `none` when it
runs out; a call of the C function returns when some fuel gives a result.
-/

namespace NyanChat

/-- A string key: its bytes without the final NUL. -/
abbrev Key := List UInt8

/-- The mark left by a removal, the string `"$"`. -/
def TOMBSTONE : Key := [36]

def KEY_MAXLEN : ℕ := 256

structure Item where
  key : Option Key
  value : UInt32
deriving DecidableEq, Repr

/-- What `calloc` puts into every item. -/
def Item.null : Item := ⟨none, 0⟩

structure Hashmap where
  size : UInt32
  count : UInt32
  items : List Item
  items_length : items.length = size.toNat
  size_pos : 0 < size.toNat

/-- `strncmp(a, b, KEY_MAXLEN) == 0` -/
def sameKey (a b : Key) : Bool := a.take KEY_MAXLEN == b.take KEY_MAXLEN

/-- `hash += key[i]`: a `char` is signed and is widened before it is added. -/
def addChar (h : UInt32) (c : UInt8) : UInt32 := h + c.toInt8.toInt32.toUInt32

def jenkinsOneAtATimeHash (key : Key) : UInt32 :=
  let h := key.foldl (fun h c =>
    let h := addChar h c
    let h := h + (h <<< 10)
    h ^^^ (h >>> 6)) 0
  let h := h + (h <<< 3)
  let h := h ^^^ (h >>> 11)
  h + (h <<< 15)

def hash (key : Key) (size : UInt32) : UInt32 := jenkinsOneAtATimeHash key % size

def jump (i : UInt32) : UInt32 := (i * (i + 1)) / 2

/-- `ceil(log2(n))` for `n ≥ 1` -/
def ceilLog2 (n : ℕ) : ℕ := if n ≤ 1 then 0 else (n - 1).log2 + 1

/-- A table of `size` null items. -/
def Hashmap.blank (size : UInt32) (h : 0 < size.toNat) : Hashmap where
  size := size
  count := 0
  items := List.replicate size.toNat Item.null
  items_length := List.length_replicate
  size_pos := h

/-- `1 << ceil(log2(size))`; the shift is undefined when it is longer than the word, and then nothing is created. -/
def hashmapCreate (size : UInt32) : Option Hashmap :=
  let s := 1 <<< UInt32.ofNat (ceilLog2 size.toNat)
  if h : ceilLog2 size.toNat < 32 ∧ 0 < s.toNat then some (Hashmap.blank s h.2) else none

namespace Hashmap

def item (h : Hashmap) (pos : UInt32) : Item := h.items.getD pos.toNat Item.null

/-- `h->items[pos] = it` -/
def setItem (h : Hashmap) (pos : UInt32) (it : Item) : Hashmap where
  size := h.size
  count := h.count
  items := h.items.set pos.toNat it
  items_length := by rw [List.length_set, h.items_length]
  size_pos := h.size_pos

def setCount (h : Hashmap) (count : UInt32) : Hashmap := { h with count := count }

/-- `(double)h->count / (double)h->size >= LOAD`: the quotient by a power of two is exact. -/
def loadTooHigh (h : Hashmap) : Bool := 4 * h.count.toNat ≥ 3 * h.size.toNat

/-- `h->size > 2 && (double)h->count / (double)h->size < 1 - LOAD` -/
def loadTooLow (h : Hashmap) : Bool := h.size > 2 && 4 * h.count.toNat < h.size.toNat

end Hashmap

/-- The loop of `hashmap_find`; `n` is `h->size - i`. -/
def findLoop (h : Hashmap) (key : Key) (index : UInt32) : ℕ → UInt32 → UInt32 → Option Key → Int
  | 0, _, _, _ => -1
  | _ + 1, _, _, none => -1
  | n + 1, i, currentPos, some currentKey =>
    if sameKey currentKey key then currentPos.toNat
    else
      let currentPos := (index + jump (i + 1)) % h.size
      findLoop h key index n (i + 1) currentPos (h.item currentPos).key

def hashmapFind (h : Hashmap) (key : Key) : Int :=
  let index := hash key h.size
  findLoop h key index h.size.toNat 0 index (h.item index).key

def hashmapGet (h : Hashmap) (key : Key) : UInt32 :=
  let pos := hashmapFind h key
  if pos = -1 then 0 else (h.item (UInt32.ofNat pos.toNat)).value

/-- The loop of `hashmap_insert`.  It stops at a `NULL` key or at `key` and answers the position, the key found there
and `id_tombstone`. -/
def insertLoop (h : Hashmap) (key : Key) (index : UInt32) :
    ℕ → UInt32 → UInt32 → Option Key → Option UInt32 → Option (UInt32 × Option Key × Option UInt32)
  | 0, _, _, _, _ => none
  | _ + 1, _, currentPos, none, idTombstone => some (currentPos, none, idTombstone)
  | n + 1, i, currentPos, some currentKey, idTombstone =>
    if sameKey currentKey key then some (currentPos, some currentKey, idTombstone)
    else
      let idTombstone :=
        if sameKey currentKey TOMBSTONE && idTombstone.isNone then some currentPos else idTombstone
      let currentPos := (index + jump (i + 1)) % h.size
      insertLoop h key index n (i + 1) currentPos (h.item currentPos).key idTombstone

/-- One turn of the loop of `hashmap_resize`, with `insert` for its call of `hashmap_insert`. -/
def storeItem (insert : Hashmap → Key → UInt32 → Option (Hashmap × Int)) (h : Hashmap) (it : Item) :
    Option Hashmap :=
  match it.key with
  | none => some h
  | some k => if sameKey k TOMBSTONE then some h else (insert h k it.value).map Prod.fst

/-- What `hashmap_resize` leaves: a table, or one of size 0, on which the other functions are undefined. -/
inductive Resized
  | table (h : Hashmap)
  | empty

def Resized.toTable : Resized → Option Hashmap
  | table h => some h
  | empty => none

/-- `hashmap_resize` inserts nothing for this item, or a key that is too long.  Every other insertion into a table of
size 0 takes a remainder by zero. -/
def skipsItem (it : Item) : Bool :=
  match it.key with
  | none => true
  | some k => sameKey k TOMBSTONE || KEY_MAXLEN < k.length

/-- `hashmap_resize` -/
def resizeWith (insert : Hashmap → Key → UInt32 → Option (Hashmap × Int)) (h : Hashmap) (newSize : UInt32) :
    Option Resized :=
  if hs : 0 < newSize.toNat then (h.items.foldlM (storeItem insert) (Hashmap.blank newSize hs)).map .table
  else if h.items.all skipsItem then some .empty else none

theorem bind_toTable {r : Option Resized} {h : Hashmap} : r.bind Resized.toTable = some h ↔ r = some (.table h) := by
  rcases r with _ | _ | _ <;> simp [Resized.toTable]

theorem resizeWith_eq_table {insert : Hashmap → Key → UInt32 → Option (Hashmap × Int)} {h h' : Hashmap}
    {newSize : UInt32} (hs : 0 < newSize.toNat) : resizeWith insert h newSize = some (.table h') ↔
      h.items.foldlM (storeItem insert) (Hashmap.blank newSize hs) = some h' := by
  simp [resizeWith, hs]

theorem pos_of_resizeWith {insert : Hashmap → Key → UInt32 → Option (Hashmap × Int)} {h h' : Hashmap}
    {newSize : UInt32} (hr : resizeWith insert h newSize = some (.table h')) : 0 < newSize.toNat := by
  by_contra hzero
  rw [resizeWith, dif_neg hzero] at hr
  split at hr <;> cases hr

/-- The rest of `hashmap_insert` after the resizing: `index` and `currentKey` were read before it. -/
def insertFrom (fuel : ℕ) (h : Hashmap) (key : Key) (value : UInt32) (index : UInt32) (currentKey : Option Key) :
    Option (Hashmap × Int) :=
  match insertLoop h key index fuel 0 index currentKey none with
  | none => none
  | some (currentPos, none, idTombstone) =>
    -- the key does not exist: replace the tombstone, or fill the empty case
    let h := h.setItem (idTombstone.getD currentPos) ⟨some key, value⟩
    some (h.setCount (h.count + 1), 1)
  | some (_, some _, _) => some (h, 0)

def hashmapInsert : ℕ → Hashmap → Key → UInt32 → Option (Hashmap × Int)
  | 0, _, _, _ => none
  | fuel + 1, h, key, value =>
    if key.length > KEY_MAXLEN then some (h, -1)
    else
      -- both are read from the table before it grows
      let index := hash key h.size
      let currentKey := (h.item index).key
      if h.loadTooHigh then
        -- a table of size 0 has no items to go on with
        match (resizeWith (hashmapInsert fuel) h (2 * h.size)).bind Resized.toTable with
        | none => none
        | some h => insertFrom fuel h key value index currentKey
      else insertFrom fuel h key value index currentKey

def hashmapResize (fuel : ℕ) (h : Hashmap) (newSize : UInt32) : Option Resized :=
  resizeWith (hashmapInsert fuel) h newSize

def hashmapIncrease (fuel : ℕ) (h : Hashmap) (key : Key) (incr : UInt32) : Option Hashmap :=
  let i := hashmapFind h key
  if i < 0 then (hashmapInsert fuel h key incr).map Prod.fst
  else
    let pos := UInt32.ofNat i.toNat
    some (h.setItem pos { h.item pos with value := (h.item pos).value + incr })

def hashmapRemove (fuel : ℕ) (h : Hashmap) (key : Key) : Option (Hashmap × UInt32) :=
  let i := hashmapFind h key
  if i < 0 then some (h, 0)
  else
    let pos := UInt32.ofNat i.toNat
    let value := (h.item pos).value
    let h := h.setItem pos ⟨some TOMBSTONE, 0⟩
    let h := h.setCount (h.count - 1)
    if h.loadTooLow then ((hashmapResize fuel h (h.size / 2)).bind Resized.toTable).map (·, value)
    else some (h, value)

end NyanChat
