import Mathlib.Data.UInt
import Mathlib.Data.List.TakeWhile

/-!
# Messages and C strings

The `Message` of `tcp_connection.h` with its constants, and the string functions the programs use on its fixed-size
arrays.  An access outside an array and the reading of an array that holds no NUL are undefined; the functions
answer `none` there.
-/

namespace NyanChat

/-! ### Constants -/

abbrev MAX_NAME_LENGTH : ℕ := 64

abbrev MIN_NAME_LENGTH : ℕ := 4

abbrev MAX_MSG_LENGTH : ℕ := 512

abbrev CODE_LENGTH : ℕ := 256

abbrev MSG_NULL : Int32 := -1

abbrev MSG_STD_CLIENT_SERVER : Int32 := 0

abbrev MSG_SERVER_CLIENT : Int32 := 1

abbrev MSG_CONNECTION_CLIENT : Int32 := 2

abbrev MSG_ERROR : Int32 := 4

abbrev MSG_ACK_POS : Int32 := 5

abbrev MSG_ACK_NEG : Int32 := 6

abbrev MSG_WELL_CONNECTED : Int32 := 8

abbrev MSG_CLIENT_CONNECTED : Int32 := 9

abbrev MSG_CLIENT_DISCONNECTED : Int32 := 10

abbrev MSG_FLAG_DEFAULT_CHANNEL : Int32 := 0

/-! ### Character arrays -/

/-- The string in a buffer: the bytes before its first NUL. -/
def stringIn (bytes : List UInt8) : Option (List UInt8) :=
  if 0 ∈ bytes then some (bytes.takeWhile (· ≠ 0)) else none

/-- The string of an array. -/
def cstr {n : ℕ} (a : Vector UInt8 n) : Option (List UInt8) := stringIn a.toList

/-- `strcmp(a, b) == 0`, on the buffers of the two strings -/
def strcmpEqual : List UInt8 → List UInt8 → Option Bool
  | a :: as, b :: bs => if a ≠ b then some false else if a = 0 then some true else strcmpEqual as bs
  | _, _ => none

/-- `a` with the given bytes written over its first ones. -/
def overlay {n : ℕ} (a : Vector UInt8 n) (bytes : List UInt8) : Vector UInt8 n :=
  Vector.ofFn fun i => bytes.getD i (a.get i)

def strcpy {n : ℕ} (dst : Vector UInt8 n) (src : List UInt8) : Option (Vector UInt8 n) :=
  if src.length < n then some (overlay dst (src ++ [0])) else none

/-- The ASCII bytes of a text. -/
def ascii (s : String) : List UInt8 := s.toList.map fun c => c.toNat.toUInt8

/-! ### The structure -/

structure Message where
  msgType : Int32
  /-- Which message an acknowledgment is about. -/
  msgId : Int32
  /-- The pseudo of the client. -/
  srcPseudo : Vector UInt8 MAX_NAME_LENGTH
  /-- The index of the client in the poll table of the proxy, filled by the proxy. -/
  proxyClientSocket : Int32
  dstFlag : Int32
  dst : Vector UInt8 MAX_NAME_LENGTH
  msgLength : UInt32
  msg : Vector UInt8 MAX_MSG_LENGTH
  control : Vector UInt8 MAX_MSG_LENGTH
  /-- One byte for each `bool`. -/
  error : Vector UInt8 MAX_MSG_LENGTH
  nbRetransmission : Int32
deriving DecidableEq

/-- A message of zero bytes, as `calloc` gives it. -/
def Message.zero : Message where
  msgType := 0
  msgId := 0
  srcPseudo := Vector.replicate _ 0
  proxyClientSocket := 0
  dstFlag := 0
  dst := Vector.replicate _ 0
  msgLength := 0
  msg := Vector.replicate _ 0
  control := Vector.replicate _ 0
  error := Vector.replicate _ 0
  nbRetransmission := 0

def initEmptyMessage (m : Message) : Message :=
  { m with
    msgType := MSG_NULL
    msgId := -1
    proxyClientSocket := -1
    msgLength := 0
    dstFlag := 0
    dst := overlay m.dst [0]
    srcPseudo := overlay m.srcPseudo [0]
    nbRetransmission := 0 }

def copyMessage (dest src : Message) : Option Message := do
  let srcPseudo ← strcpy dest.srcPseudo (← cstr src.srcPseudo)
  let dst ← strcpy dest.dst (← cstr src.dst)
  let msg ← strcpy dest.msg (← cstr src.msg)
  let control ← strcpy dest.control (← cstr src.control)
  return { dest with
    msgType := src.msgType
    msgId := src.msgId
    srcPseudo := srcPseudo
    proxyClientSocket := src.proxyClientSocket
    dstFlag := src.dstFlag
    dst := dst
    msgLength := src.msgLength
    msg := msg
    control := control }

/-! ### Strings in arrays -/

theorem getElem_overlay {n : ℕ} (a : Vector UInt8 n) (bytes : List UInt8) {i : ℕ} (hi : i < n) :
    (overlay a bytes)[i] = bytes.getD i a[i] := by
  simp [overlay, Vector.get]

theorem takeWhile_of_not_mem {s : List UInt8} (hs : 0 ∉ s) : s.takeWhile (· ≠ 0) = s :=
  List.takeWhile_eq_self_iff.2 fun _ hb => decide_eq_true fun h0 => hs (h0 ▸ hb)

theorem takeWhile_append_zero (s t : List UInt8) : (s ++ 0 :: t).takeWhile (· ≠ 0) = s.takeWhile (· ≠ 0) := by
  induction s with
  | nil => exact List.takeWhile_cons_of_neg (by simp)
  | cons b s ih => rw [List.cons_append, List.takeWhile_cons, List.takeWhile_cons, ih]

theorem stringIn_append_zero (s t : List UInt8) : stringIn (s ++ 0 :: t) = some (s.takeWhile (· ≠ 0)) := by
  rw [stringIn, if_pos (by simp), takeWhile_append_zero]

theorem stringIn_append {s : List UInt8} (hs : 0 ∉ s) (t : List UInt8) : stringIn (s ++ 0 :: t) = some s := by
  rw [stringIn_append_zero, takeWhile_of_not_mem hs]

private theorem toList_overlay {n : ℕ} (a : Vector UInt8 n) {bytes : List UInt8} (h : bytes.length ≤ n) :
    (overlay a bytes).toList = bytes ++ a.toList.drop bytes.length := by
  apply List.ext_getElem
  · simp
    omega
  · intro i h₁ h₂
    have hi : i < n := by simpa using h₁
    rw [Vector.getElem_toList, getElem_overlay a bytes hi, List.getD_eq_getElem?_getD]
    by_cases hb : i < bytes.length
    · rw [List.getElem_append_left hb, List.getElem?_eq_getElem hb]
      rfl
    · rw [List.getElem_append_right (by omega), List.getElem?_eq_none (by omega), List.getElem_drop,
        Vector.getElem_toList]
      simp [show bytes.length + (i - bytes.length) = i by omega]

/-- Copying a string into an array with room for it makes it the string of the array. -/
theorem cstr_overlay {n : ℕ} (a : Vector UInt8 n) {s : List UInt8} (hs : 0 ∉ s) (hlen : s.length < n) :
    cstr (overlay a (s ++ [0])) = some s := by
  have hlist : (overlay a (s ++ [0])).toList = s ++ 0 :: a.toList.drop (s.length + 1) := by
    rw [toList_overlay a (by simp; omega)]
    simp
  rw [cstr, hlist, stringIn_append hs]

theorem stringIn_eq_some {bytes s : List UInt8} (h : stringIn bytes = some s) : 0 ∉ s ∧ ∃ t, bytes = s ++ 0 :: t := by
  unfold stringIn at h
  split at h
  · rename_i hmem
    obtain ⟨s', t, hsplit, hnot⟩ := List.eq_append_cons_of_mem hmem
    cases h
    rw [hsplit, takeWhile_append_zero, takeWhile_of_not_mem hnot]
    exact ⟨hnot, t, rfl⟩
  · cases h

theorem cstr_spec {n : ℕ} {a : Vector UInt8 n} {s : List UInt8} (h : cstr a = some s) :
    0 ∉ s ∧ s.length < n ∧ ∃ t, a.toList = s ++ 0 :: t := by
  obtain ⟨hnot, t, ht⟩ := stringIn_eq_some h
  have hlen := congrArg List.length ht
  rw [Vector.length_toList, List.length_append, List.length_cons] at hlen
  exact ⟨hnot, by omega, t, ht⟩

theorem cstr_ne_none_iff {n : ℕ} {a : Vector UInt8 n} : cstr a ≠ none ↔ ∃ i : Fin n, a[i.val] = 0 := by
  rw [cstr, stringIn, ite_ne_right_iff, and_iff_left (Option.some_ne_none _), Vector.mem_toList_iff,
    Vector.mem_iff_getElem]
  exact ⟨fun ⟨i, hi, h⟩ => ⟨⟨i, hi⟩, h⟩, fun ⟨i, h⟩ => ⟨i.val, i.2, h⟩⟩

/-- An array holds a string when it begins with it and its NUL. -/
theorem cstr_eq_some_iff {n : ℕ} {a : Vector UInt8 n} {s : List UInt8} :
    cstr a = some s ↔ 0 ∉ s ∧ a.toList.take (s.length + 1) = s ++ [0] := by
  constructor
  · intro h
    obtain ⟨hnot, -, t, ht⟩ := cstr_spec h
    refine ⟨hnot, ?_⟩
    rw [ht, List.append_cons, List.take_left' (by simp)]
  · rintro ⟨hnot, htake⟩
    have hsplit : a.toList = s ++ 0 :: a.toList.drop (s.length + 1) := by
      have h := List.take_append_drop (s.length + 1) a.toList
      rw [htake, ← List.append_cons] at h
      exact h.symm
    rw [cstr, hsplit, stringIn_append hnot]

/-- Two arrays hold one string when they have the same bytes up to its NUL. -/
theorem cstr_eq_iff {n : ℕ} {a b : Vector UInt8 n} {s : List UInt8} (ha : cstr a = some s) :
    cstr b = some s ↔ ∀ i (hi : i < n), i ≤ s.length → b[i] = a[i] := by
  obtain ⟨hnot, hlen, -⟩ := cstr_spec ha
  rw [cstr_eq_some_iff] at ha ⊢
  rw [← ha.2]
  constructor
  · rintro ⟨-, htake⟩ i hi his
    have hget := congrArg (fun l => l[i]?) htake
    simpa [List.getElem?_take, Nat.lt_succ_of_le his, hi] using hget
  · intro hall
    refine ⟨hnot, List.ext_getElem (by simp) fun i h₁ h₂ => ?_⟩
    have hi : i < n ∧ i ≤ s.length := by
      simp at h₁
      omega
    simpa using hall i hi.1 hi.2

/-- The bytes that are copied with the NUL of a string hold the string. -/
theorem stringIn_take {bytes s : List UInt8} (h : stringIn bytes = some s) {n : ℕ} (hn : s.length < n) :
    stringIn (bytes.take n) = some s := by
  obtain ⟨hnot, t, rfl⟩ := stringIn_eq_some h
  have hsplit : (s ++ 0 :: t).take n = s ++ 0 :: t.take (n - s.length - 1) := by
    obtain ⟨k, rfl⟩ : ∃ k, n = s.length + (k + 1) := ⟨n - s.length - 1, by omega⟩
    rw [List.take_append, List.take_of_length_le (by omega), Nat.add_sub_cancel_left, List.take_succ_cons,
      Nat.add_sub_cancel]
  rw [hsplit, stringIn_append hnot]

/-- Comparing two strings compares them as wholes. -/
theorem strcmpEqual_eq {a b s t : List UInt8} (ha : stringIn a = some s) (hb : stringIn b = some t) :
    strcmpEqual a b = some (decide (s = t)) := by
  obtain ⟨hs, a', rfl⟩ := stringIn_eq_some ha
  obtain ⟨ht, b', rfl⟩ := stringIn_eq_some hb
  clear ha hb
  induction s generalizing t with
  | nil =>
    cases t with
    | nil => simp [strcmpEqual]
    | cons y t =>
      have hy : (0 : UInt8) ≠ y := fun h => ht (h ▸ List.mem_cons_self)
      simp [strcmpEqual, hy]
  | cons x s ih =>
    have hx : x ≠ 0 := fun h => hs (h ▸ List.mem_cons_self)
    cases t with
    | nil => simp [strcmpEqual, hx]
    | cons y t =>
      rw [List.mem_cons, not_or] at hs ht
      simp only [List.cons_append, strcmpEqual]
      by_cases hxy : x = y
      · subst hxy
        simp [hx, ih hs.2 ht.2]
      · simp [hxy]

end NyanChat
