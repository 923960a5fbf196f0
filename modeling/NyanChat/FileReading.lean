import NyanChat.Message

/-!
# Reading a file at once

`readFile` reads a whole file into a new buffer.  Its callers stop at the answer `-1`, but a file that cannot be opened
gives `0`, the answer of a success, without a buffer.  The length of the file is kept in 32 bits, so that only the
first bytes of some very large files are read.  Otherwise a success means the whole file, and a failure leaves the
buffer of the caller alone (`readFile_reads_iff`).
-/

namespace NyanChat

def OP_FAILURE : Int := -1

def OP_SUCCESS : Int := 0

/-- What the calls that `read_file` makes answer. -/
structure FileCalls where
  /-- The content of the file that `fopen` opens. -/
  fopen : Option (List UInt8)
  fseekEnd : Bool
  ftell : Bool
  fseekSet : Bool
  malloc : Bool
  /-- The bytes that `fread` can read before an error. -/
  fread : ℕ

/-- The answer, and `*content` with `*len` when they are set. -/
structure FileRead where
  ret : Int
  out : Option (List UInt8 × ℕ)
deriving DecidableEq

/-- The position at the end of a file, which must fit in a `long`. -/
def FileCalls.tell (c : FileCalls) (data : List UInt8) : Int :=
  if c.ftell ∧ data.length < 2 ^ 63 then data.length else -1

def readFile (c : FileCalls) : FileRead :=
  match c.fopen with
  | none => ⟨0, none⟩
  | some data =>
    if c.fseekEnd = false then ⟨OP_FAILURE, none⟩
    else
      let length := Int32.ofInt (c.tell data)
      if length = -1 then ⟨OP_FAILURE, none⟩
      else if c.fseekSet = false then ⟨OP_FAILURE, none⟩
      else if c.malloc = false then ⟨OP_FAILURE, none⟩
      else
        -- the length as a `size_t`
        let size := (length.toInt % 2 ^ 64).toNat
        let read := min c.fread (min size data.length)
        if read ≠ size then ⟨OP_FAILURE, none⟩ else ⟨OP_SUCCESS, some (data.take read, size)⟩

/-- A success sets the whole content of the file, and every other answer is a failure that sets nothing, so that a
caller that goes on after any answer but `-1` has a buffer. -/
structure FileCalls.Reads (c : FileCalls) (r : FileRead) : Prop where
  success : r.ret = OP_SUCCESS ↔ ∃ data, c.fopen = some data ∧ r.out = some (data, data.length)
  failure : r.ret ≠ OP_SUCCESS → r.ret = OP_FAILURE ∧ r.out = none
  guarded : r.ret ≠ -1 → r.out ≠ none

/-- The file can be opened, and its length is not cut to a smaller one, or some call fails. -/
def FileCalls.Readable (c : FileCalls) : Prop :=
  ∃ data, c.fopen = some data ∧ (data.length < 2 ^ 32 ∨ 2 ^ 31 ≤ data.length % 2 ^ 32 ∨ 2 ^ 63 ≤ data.length ∨
    c.fseekEnd = false ∨ c.ftell = false ∨ c.fseekSet = false ∨ c.malloc = false ∨ c.fread < data.length % 2 ^ 32)

variable {c : FileCalls} {data : List UInt8}

private theorem reads_failure (c : FileCalls) : c.Reads ⟨OP_FAILURE, none⟩ where
  success := ⟨fun h => absurd h (by decide), fun ⟨_, _, h⟩ => by cases h⟩
  failure := fun _ => ⟨rfl, rfl⟩
  guarded := fun h => absurd rfl h

private theorem reads_success (h : c.fopen = some data) : c.Reads ⟨OP_SUCCESS, some (data, data.length)⟩ where
  success := ⟨fun _ => ⟨data, h, rfl⟩, fun _ => rfl⟩
  failure := fun hne => absurd rfl hne
  guarded := fun _ h => by cases h

/-- A length as an `int32_t`. -/
private theorem toInt_length (n : ℕ) :
    (Int32.ofInt n).toInt = if n % 2 ^ 32 < 2 ^ 31 then ((n % 2 ^ 32 : ℕ) : Int) else (n % 2 ^ 32 : ℕ) - 2 ^ 32 := by
  rw [Int32.toInt_ofInt, Int.bmod_def, show Int32.size = 2 ^ 32 from rfl]
  split <;> split <;> omega

/-- Every call before the reading succeeds. -/
structure FileCalls.Opened (c : FileCalls) (data : List UInt8) : Prop where
  fopen : c.fopen = some data
  fseekEnd : c.fseekEnd = true
  ftell : c.ftell = true
  fits : data.length < 2 ^ 63
  fseekSet : c.fseekSet = true
  malloc : c.malloc = true

/-- A call before the reading fails. -/
private theorem readFile_early (hopen : c.fopen = some data) (hnot : ¬ c.Opened data) :
    readFile c = ⟨OP_FAILURE, none⟩ := by
  rw [readFile, hopen]
  dsimp only
  by_cases hend : c.fseekEnd = false
  · rw [if_pos hend]
  rw [if_neg hend]
  by_cases htell : c.ftell = true ∧ data.length < 2 ^ 63
  · split
    · rfl
    · by_cases hset : c.fseekSet = false
      · rw [if_pos hset]
      · rw [if_neg hset]
        refine if_pos (Bool.eq_false_iff.2 fun hmalloc => hnot ?_)
        exact ⟨hopen, Bool.eq_true_of_not_eq_false hend, htell.1, htell.2, Bool.eq_true_of_not_eq_false hset, hmalloc⟩
  · have hminus : c.tell data = -1 := if_neg htell
    rw [hminus, if_pos (by decide)]

private theorem readFile_opened (h : c.Opened data) :
    readFile c = if data.length % 2 ^ 32 < 2 ^ 31 ∧ data.length % 2 ^ 32 ≤ c.fread then
      ⟨OP_SUCCESS, some (data.take (data.length % 2 ^ 32), data.length % 2 ^ 32)⟩ else ⟨OP_FAILURE, none⟩ := by
  have hlen := toInt_length data.length
  have hpos : c.tell data = data.length := if_pos ⟨h.ftell, h.fits⟩
  have hfits := h.fits
  rw [readFile, h.fopen]
  dsimp only
  rw [hpos, h.fseekEnd, h.fseekSet, h.malloc, if_neg Bool.noConfusion, if_neg (c := true = false) Bool.noConfusion]
  generalize Int32.ofInt data.length = length at hlen ⊢
  by_cases hsmall : data.length % 2 ^ 32 < 2 ^ 31
  · rw [if_pos hsmall] at hlen
    have hne : length ≠ -1 := by
      rintro rfl
      have hminus : (-1 : Int32).toInt = -1 := rfl
      omega
    have hsize : (length.toInt % 2 ^ 64).toNat = data.length % 2 ^ 32 := by omega
    have hle : data.length % 2 ^ 32 ≤ data.length := Nat.mod_le _ _
    rw [if_neg hne, if_neg Bool.noConfusion]
    simp only [hsize, Nat.min_eq_left hle]
    by_cases hread : data.length % 2 ^ 32 ≤ c.fread
    · rw [if_neg (not_not.2 (Nat.min_eq_right hread)), if_pos ⟨hsmall, hread⟩, Nat.min_eq_right hread]
    · rw [if_pos (by omega), if_neg fun hboth => hread hboth.2]
  · rw [if_neg hsmall] at hlen
    have hfails : ¬ (data.length % 2 ^ 32 < 2 ^ 31 ∧ data.length % 2 ^ 32 ≤ c.fread) := fun hboth => hsmall hboth.1
    rw [if_neg hfails]
    split
    · rfl
    · rw [if_neg Bool.noConfusion]
      -- a negative length is a larger size than that of any file
      have hsize : 2 ^ 63 ≤ (length.toInt % 2 ^ 64).toNat := by omega
      exact if_pos (by omega)

/-- For every file and every answer of the calls: `read_file` does what it says exactly when the file can be opened and
its length is not cut. -/
theorem readFile_reads_iff (c : FileCalls) : c.Reads (readFile c) ↔ c.Readable := by
  cases hopen : c.fopen with
  | none =>
    have hrun : readFile c = ⟨0, none⟩ := by rw [readFile, hopen]
    rw [hrun]
    constructor
    · intro h
      exact absurd rfl (h.guarded (show (0 : Int) ≠ -1 by decide))
    · rintro ⟨data, hdata, -⟩
      rw [hopen] at hdata
      cases hdata
  | some data =>
    have hreadable : c.Readable ↔ (data.length < 2 ^ 32 ∨ 2 ^ 31 ≤ data.length % 2 ^ 32 ∨ 2 ^ 63 ≤ data.length ∨
        c.fseekEnd = false ∨ c.ftell = false ∨ c.fseekSet = false ∨ c.malloc = false ∨
        c.fread < data.length % 2 ^ 32) := by
      refine ⟨fun ⟨data', hdata', h⟩ => ?_, fun h => ⟨data, hopen, h⟩⟩
      rw [hopen] at hdata'
      cases hdata'
      exact h
    rw [hreadable]
    by_cases hopened : c.Opened data
    · rw [readFile_opened hopened]
      have hfits := hopened.fits
      by_cases hread : data.length % 2 ^ 32 < 2 ^ 31 ∧ data.length % 2 ^ 32 ≤ c.fread
      · rw [if_pos hread]
        by_cases hsmall : data.length < 2 ^ 32
        · rw [Nat.mod_eq_of_lt hsmall, List.take_length]
          exact iff_of_true (reads_success hopen) (Or.inl hsmall)
        · refine iff_of_false (fun h => ?_) ?_
          · obtain ⟨data', hdata', hout⟩ := h.success.1 rfl
            rw [hopen] at hdata'
            cases hdata'
            have hlen := (Prod.mk.inj (Option.some.inj hout)).2
            omega
          · simp only [hopened.fseekEnd, hopened.ftell, hopened.fseekSet, hopened.malloc, Bool.true_eq_false, false_or]
            omega
      · rw [if_neg hread]
        exact iff_of_true (reads_failure c) (by omega)
    · rw [readFile_early hopen hopened]
      refine iff_of_true (reads_failure c) ?_
      by_contra hno
      simp only [not_or, Nat.not_lt, Nat.not_le, Bool.not_eq_false] at hno
      obtain ⟨-, -, hfits, hend, htell, hset, hmalloc, -⟩ := hno
      exact hopened ⟨hopen, hend, htell, hfits, hset, hmalloc⟩

/-- Every call succeeds, but the file cannot be opened. -/
def missingFile : FileCalls := ⟨none, true, true, true, true, 0⟩

/-- The caller goes on, and there is no buffer. -/
theorem missing_file_is_success :
    readFile missingFile = ⟨OP_SUCCESS, none⟩ ∧ ¬ missingFile.Reads (readFile missingFile) :=
  ⟨rfl, fun h => h.guarded (show (0 : Int) ≠ -1 by decide) rfl⟩

end NyanChat
