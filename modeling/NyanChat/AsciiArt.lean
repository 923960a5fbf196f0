import NyanChat.Message
import NyanChat.Library.Lines

/-!
# Loading an ascii art

`loadAsciiArt` reads a file twice: `getFileStats` counts its lines and finds the longest one, and `readFileLine` reads
each line into a row of one byte more.  A row has no room for the newline that `fgets` also reads, so that the file is
loaded as it should only when its longest line is the last one and has no newline (`loadAsciiArt_loads_iff`).  A
function answers `none` when it accesses an array outside its bounds, when a counter leaves the range of an `int`, or
when the fuel of its loop runs out.
-/

namespace NyanChat

open Lines

abbrev BUFSIZ : ℕ := 8192

abbrev NEWLINE : UInt8 := 10

/-- `fgets` into an array of at least two bytes: the bytes that are read, before a NUL, and the rest of the file. -/
def fgets (size : ℕ) (file : List UInt8) : Option (List UInt8 × List UInt8) :=
  let read := takeLine NEWLINE (size - 1) file
  if read = [] then none else some (read, file.drop read.length)

/-- The length of the string in a buffer that holds a NUL. -/
def strlen (buffer : List UInt8) : ℕ := (buffer.takeWhile (· ≠ 0)).length

/-- `buffer[strlen(buffer) - 1] == '\n'` -/
def endsInNewline (buffer : List UInt8) : Option Bool :=
  if strlen buffer = 0 then none else (buffer[strlen buffer - 1]?).map fun b => decide (b = NEWLINE)

/-- The loop of `get_file_stats`: the number of lines and the longest length. -/
def getFileStats : ℕ → List UInt8 → ℕ → ℕ → Option (ℕ × ℕ)
  | 0, _, _, _ => none
  | fuel + 1, file, numLines, maxLength =>
    match fgets BUFSIZ file with
    | none => some (numLines, maxLength)
    | some (read, rest) =>
      if numLines + 1 < 2 ^ 31 then do
        let newline ← endsInNewline (read ++ [0])
        let currentLength := if newline then strlen (read ++ [0]) - 1 else strlen (read ++ [0])
        getFileStats fuel rest (numLines + 1) (max maxLength currentLength)
      else none

/-- What `read_file_line` leaves: the answer, the line and the rest of the file. -/
structure LineRead where
  ret : Int
  line : List UInt8
  rest : List UInt8

def readFileLine (file line : List UInt8) (maxLength : ℕ) : Option LineRead :=
  match fgets (maxLength + 1) file with
  | none => some ⟨-1, line, file⟩
  | some (read, rest) =>
    if read.length < line.length then do
      let line := read ++ 0 :: line.drop (read.length + 1)
      let newline ← endsInNewline line
      return ⟨0, if newline then line.set (strlen line - 1) 0 else line, rest⟩
    else none

/-- The rows of the art from some line on; a row behind a failure is not allocated. -/
def readRows (tx : ℕ) : ℕ → List UInt8 → Option (List (Option (List UInt8)))
  | 0, _ => some []
  | n + 1, file => do
    let r ← readFileLine file (List.replicate tx 0) tx
    if r.ret = -1 then return some r.line :: List.replicate n none
    else return some (r.line.set (tx - 1) 0) :: (← readRows tx n r.rest)

structure AsciiArt where
  tx : ℕ
  ty : ℕ
  art : List (Option (List UInt8))
deriving DecidableEq

/-- `load_ascii_art` on the content of a file, when all allocations succeed. -/
def loadAsciiArt (fuel : ℕ) (file : List UInt8) : Option AsciiArt := do
  let (ty, maxLength) ← getFileStats fuel file 0 0
  let tx := maxLength + 1
  let art ← readRows tx ty file
  return ⟨tx, ty, art⟩

/-! ### One line -/

variable {file rest : List UInt8} {x : List UInt8 × Bool} {ls : List (List UInt8 × Bool)} {tx n m : ℕ}

/-- The row of a line: its characters, then zeros. -/
def padded (tx : ℕ) (line : List UInt8) : List UInt8 := line ++ List.replicate (tx - line.length) 0

/-- A row has room for the line with its end, and the newline is found at the end of a string. -/
structure RowFits (tx : ℕ) (x : List UInt8 × Bool) : Prop where
  room : (whole NEWLINE x).length < tx
  first : x.1.head? ≠ some 0
  newline : x.2 = true → 0 ∉ x.1

theorem strlen_append (buffer rest : List UInt8) :
    strlen (buffer ++ 0 :: rest) = (buffer.takeWhile (· ≠ 0)).length := by
  rw [strlen, takeWhile_append_zero]

/-- The characters before the first NUL are a part of the text, and all of it only without a NUL. -/
theorem length_takeWhile_lt {l : List UInt8} (h : 0 ∈ l) : (l.takeWhile (· ≠ 0)).length < l.length := by
  refine Nat.lt_of_le_of_ne (List.takeWhile_prefix _).length_le fun heq => ?_
  have hself := (List.takeWhile_prefix (l := l) (· ≠ 0)).eq_of_length heq
  simpa using List.takeWhile_eq_self_iff.1 hself 0 h

/-- The check for a newline looks at the last character before the first NUL. -/
theorem endsInNewline_append (read tail : List UInt8) :
    endsInNewline (read ++ 0 :: tail) = if (read.takeWhile (· ≠ 0)).length = 0 then none
      else (read[(read.takeWhile (· ≠ 0)).length - 1]?).map fun b => decide (b = NEWLINE) := by
  have hle := (List.takeWhile_prefix (l := read) (· ≠ 0)).length_le
  rw [endsInNewline, strlen_append]
  split
  · rfl
  · rw [List.getElem?_append_left (by omega)]

theorem fgets_eq (hn : 0 < n) (h : lines NEWLINE file = x :: ls) :
    fgets (n + 1) file = some ((whole NEWLINE x).take n, file.drop ((whole NEWLINE x).take n).length) := by
  obtain ⟨-, hne, htake, -⟩ := lines_eq_cons h
  rw [fgets, Nat.add_sub_cancel, htake]
  refine if_neg fun hnil => hne ?_
  rcases List.take_eq_nil_iff.1 hnil with h0 | h0
  · omega
  · exact h0

theorem fgets_nil (n : ℕ) : fgets (n + 1) [] = none := by
  rw [fgets, Nat.add_sub_cancel]
  cases n <;> rfl

/-- A line that fits is read into its row. -/
theorem readFileLine_fits (h : lines NEWLINE file = x :: ls) (hfits : RowFits tx x) :
    ∃ rest, lines NEWLINE rest = ls ∧ readFileLine file (List.replicate tx 0) tx = some ⟨0, padded tx x.1, rest⟩ := by
  obtain ⟨hnot, hne, -, rest, hfile, hrest, -⟩ := lines_eq_cons h
  have hroom := hfits.room
  refine ⟨rest, hrest, ?_⟩
  have hfgets := fgets_eq (n := tx) (by omega) h
  rw [List.take_of_length_le hroom.le] at hfgets
  have hdrop : file.drop (whole NEWLINE x).length = rest := by rw [hfile, List.drop_left]
  rw [hdrop] at hfgets
  rw [readFileLine, hfgets]
  dsimp only
  rw [List.length_replicate, if_pos hroom, List.drop_replicate, endsInNewline_append]
  obtain ⟨line, newline⟩ := x
  cases newline with
  | false =>
    -- the last character before a NUL is one of the line
    have hwhole : whole NEWLINE (line, false) = line := rfl
    rw [hwhole] at hroom hne ⊢
    obtain ⟨b, tail, rfl⟩ := List.exists_cons_of_ne_nil hne
    have hb : b ≠ 0 := fun h0 => hfits.first (by rw [h0]; rfl)
    have hpos : ((b :: tail).takeWhile (· ≠ 0)).length ≠ 0 := by
      rw [List.takeWhile_cons_of_pos (by simpa using hb), List.length_cons]
      omega
    have hle := (List.takeWhile_prefix (l := b :: tail) (· ≠ 0)).length_le
    rw [if_neg hpos, List.getElem?_eq_getElem (by omega)]
    have hchar : (b :: tail)[((b :: tail).takeWhile (· ≠ 0)).length - 1] ≠ NEWLINE := fun heq =>
      hnot (heq ▸ List.getElem_mem _)
    simp only [Option.map_some, Option.bind_eq_bind, Option.bind_some, decide_eq_false hchar, Bool.false_eq_true,
      if_false]
    rw [padded, ← List.replicate_succ]
    exact congrArg some (congrArg (LineRead.mk 0 · rest) (congrArg ((b :: tail) ++ List.replicate · 0) (by omega)))
  | true =>
    have hwhole : whole NEWLINE (line, true) = line ++ [NEWLINE] := rfl
    have hzero : 0 ∉ line ++ [NEWLINE] := by
      rw [List.mem_append, not_or]
      exact ⟨hfits.newline rfl, by decide⟩
    rw [hwhole] at hroom ⊢
    rw [List.length_append, List.length_singleton] at hroom
    rw [takeWhile_of_not_mem hzero, strlen_append, takeWhile_of_not_mem hzero, List.length_append,
      List.length_singleton, if_neg (Nat.succ_ne_zero _), Nat.add_sub_cancel, List.getElem?_concat_length]
    simp only [Option.map_some, Option.bind_eq_bind, Option.bind_some, decide_true, if_true]
    rw [padded, List.append_assoc, List.set_append_right _ _ (Nat.le_refl _), Nat.sub_self, List.singleton_append,
      List.set_cons_zero, ← List.replicate_succ, ← List.replicate_succ]
    exact congrArg some (congrArg (LineRead.mk 0 · rest) (congrArg (line ++ List.replicate · 0) (by omega)))

/-- A line that does not fit is not read into its row. -/
theorem readFileLine_not_fits (htx : 0 < tx) (h : lines NEWLINE file = x :: ls) (hfits : ¬ RowFits tx x) {r : LineRead}
    (hrun : readFileLine file (List.replicate tx 0) tx = some r) :
    r.ret ≠ -1 ∧ r.line.set (tx - 1) 0 ≠ padded tx x.1 := by
  obtain ⟨hnot, hne, -, -⟩ := lines_eq_cons h
  rw [readFileLine, fgets_eq htx h] at hrun
  dsimp only at hrun
  rw [List.length_replicate] at hrun
  split at hrun
  · rename_i hroom
    rw [List.length_take] at hroom
    have hlt : (whole NEWLINE x).length < tx := by omega
    rw [List.take_of_length_le hlt.le, List.drop_replicate, endsInNewline_append] at hrun
    obtain ⟨newline, hends, hrun⟩ := Option.bind_eq_some_iff.1 hrun
    cases hrun
    refine ⟨show (0 : Int) ≠ -1 by decide, fun heq => hfits ⟨hlt, ?_, ?_⟩⟩
    · -- the check would look before the line
      intro hfirst
      obtain ⟨tail, htail⟩ : ∃ tail, whole NEWLINE x = 0 :: tail := by
        obtain ⟨line, e⟩ := x
        obtain ⟨tail, rfl⟩ := List.head?_eq_some_iff.1 hfirst
        cases e with
        | false => exact ⟨tail, rfl⟩
        | true => exact ⟨tail ++ [NEWLINE], rfl⟩
      rw [htail, List.takeWhile_cons_of_neg (by simp), List.length_nil, if_pos rfl] at hends
      cases hends
    · intro hx hzero
      obtain ⟨line, e⟩ := x
      cases hx
      have hwhole : whole NEWLINE (line, true) = line ++ [NEWLINE] := rfl
      have hshort : (line.takeWhile (· ≠ 0)).length < line.length := length_takeWhile_lt hzero
      rw [hwhole, List.takeWhile_append, if_neg (Nat.ne_of_lt hshort)] at hends
      rw [hwhole, List.length_append, List.length_singleton] at hlt
      split at hends
      · cases hends
      · -- the newline behind the NUL is not found, and stays
        have hchar : (line)[(line.takeWhile (· ≠ 0)).length - 1] ≠ NEWLINE := fun heq =>
          hnot (heq ▸ List.getElem_mem _)
        rw [List.getElem?_append_left (by omega), List.getElem?_eq_getElem (by omega), Option.map_some,
          decide_eq_false hchar] at hends
        cases hends
        rw [if_neg Bool.false_ne_true, hwhole, padded] at heq
        have hget := congrArg (·[line.length]?) heq
        dsimp only at hget
        rw [List.getElem?_set_ne (by omega), List.append_assoc, List.getElem?_append_right (Nat.le_refl _),
          Nat.sub_self, List.getElem?_append_right (Nat.le_refl _), Nat.sub_self, List.getElem?_replicate,
          if_pos (by omega)] at hget
        exact absurd (Option.some.inj hget) (by decide)
  · cases hrun

theorem padded_set (hroom : x.1.length < tx) : (padded tx x.1).set (tx - 1) 0 = padded tx x.1 := by
  rw [padded, List.set_append_right _ _ (by omega), List.set_replicate_self]

/-- The rows are the lines exactly when each line fits. -/
theorem readRows_eq_iff (htx : 0 < tx) (h : lines NEWLINE file = ls) :
    readRows tx ls.length file = some (ls.map fun x => some (padded tx x.1)) ↔ ∀ x ∈ ls, RowFits tx x := by
  induction ls generalizing file with
  | nil => exact iff_of_true rfl fun x hx => by cases hx
  | cons x ls ih =>
    rw [List.length_cons, readRows, List.forall_mem_cons]
    by_cases hfits : RowFits tx x
    · obtain ⟨rest, hrest, hrun⟩ := readFileLine_fits h hfits
      have hlen : x.1.length < tx := by
        have hroom := hfits.room
        rw [whole] at hroom
        split at hroom
        · rw [List.length_append] at hroom
          omega
        · exact hroom
      rw [hrun, and_iff_right hfits, ← ih hrest]
      simp only [Option.bind_eq_bind, Option.bind_some, padded_set hlen]
      rw [if_neg (by decide)]
      cases readRows tx ls.length rest with
      | none => exact ⟨fun h => (by cases h), fun h => by cases h⟩
      | some rows => simp
    · refine iff_of_false (fun hrun => ?_) fun hall => hfits hall.1
      obtain ⟨r, hr, hrun⟩ := Option.bind_eq_some_iff.1 hrun
      obtain ⟨hret, hne⟩ := readFileLine_not_fits htx h hfits hr
      rw [if_neg hret] at hrun
      obtain ⟨rows, -, hrows⟩ := Option.bind_eq_some_iff.1 hrun
      have hhead := Option.some.inj hrows
      rw [List.map_cons, List.cons.injEq] at hhead
      exact hne (Option.some.inj hhead.1)

/-! ### Counting -/

/-- A turn of the loop of `getFileStats`, on the first line. -/
private theorem getFileStats_turn (h : lines NEWLINE file = x :: ls) (fuel n m : ℕ) :
    getFileStats (fuel + 1) file n m = if n + 1 < 2 ^ 31 then
      (endsInNewline ((whole NEWLINE x).take (BUFSIZ - 1) ++ [0])).bind fun newline =>
        getFileStats fuel (file.drop ((whole NEWLINE x).take (BUFSIZ - 1)).length) (n + 1)
          (max m (if newline then strlen ((whole NEWLINE x).take (BUFSIZ - 1) ++ [0]) - 1
            else strlen ((whole NEWLINE x).take (BUFSIZ - 1) ++ [0])))
      else none := by
  have hfgets : fgets BUFSIZ file = _ := fgets_eq (n := BUFSIZ - 1) (by decide) h
  rw [getFileStats, hfgets]
  rfl

/-- The length of a line that is read in one piece and has no NUL. -/
private theorem length_counted (hne : whole NEWLINE x ≠ []) (hnot : NEWLINE ∉ x.1) (hzero : 0 ∉ x.1) :
    endsInNewline (whole NEWLINE x ++ [0]) = some x.2 ∧
      (if x.2 then strlen (whole NEWLINE x ++ [0]) - 1 else strlen (whole NEWLINE x ++ [0])) = x.1.length := by
  obtain ⟨line, e⟩ := x
  cases e with
  | false =>
    have hwhole : whole NEWLINE (line, false) = line := rfl
    have hzero : 0 ∉ line := hzero
    rw [hwhole] at hne ⊢
    have hpos : 0 < line.length := List.length_pos_of_ne_nil hne
    have hchar : (line)[line.length - 1] ≠ NEWLINE := fun heq => hnot (heq ▸ List.getElem_mem _)
    rw [endsInNewline_append, strlen_append, takeWhile_of_not_mem hzero, if_neg hpos.ne',
      List.getElem?_eq_getElem (by omega), Option.map_some, decide_eq_false hchar]
    exact ⟨rfl, rfl⟩
  | true =>
    have hwhole : whole NEWLINE (line, true) = line ++ [NEWLINE] := rfl
    have hzero' : 0 ∉ line ++ [NEWLINE] := by
      rw [List.mem_append, not_or]
      exact ⟨hzero, by decide⟩
    rw [hwhole, endsInNewline_append, strlen_append, takeWhile_of_not_mem hzero', List.length_append,
      List.length_singleton, if_neg (Nat.succ_ne_zero _), Nat.add_sub_cancel, List.getElem?_concat_length]
    exact ⟨rfl, rfl⟩

/-- A counted length is at most that of the line, and that of the line only if the line is read in one piece and has no
NUL. -/
private theorem length_counted_le {newline : Bool}
    (hends : endsInNewline ((whole NEWLINE x).take (BUFSIZ - 1) ++ [0]) = some newline) {c : ℕ}
    (hc : c = if newline then strlen ((whole NEWLINE x).take (BUFSIZ - 1) ++ [0]) - 1
      else strlen ((whole NEWLINE x).take (BUFSIZ - 1) ++ [0])) :
    c ≤ x.1.length ∧ (c = x.1.length → 0 ∉ x.1 ∧ x.1.length < BUFSIZ) := by
  have hread : (whole NEWLINE x).take (BUFSIZ - 1) <+: whole NEWLINE x := List.take_prefix _ _
  have hreadlen := List.length_take_le (BUFSIZ - 1) (whole NEWLINE x)
  have hline := prefix_whole NEWLINE x
  have hwholelen := length_whole NEWLINE x
  have hended := Bool.toNat_le x.2
  generalize (whole NEWLINE x).take (BUFSIZ - 1) = read at *
  have htext := List.takeWhile_prefix (l := read) (· ≠ 0)
  have htextlen := htext.length_le
  have hnonzero : 0 ∉ read.takeWhile (· ≠ 0) := fun h0 => by simpa using List.mem_takeWhile_imp h0
  rw [strlen_append] at hc
  rw [endsInNewline_append] at hends
  split at hends
  · cases hends
  rename_i hpos
  rcases Nat.lt_or_ge x.1.length (read.takeWhile (· ≠ 0)).length with hlt | hge
  · -- the newline is among the characters, so that all of the line is
    have htlen := hread.length_le
    have hall : read.takeWhile (· ≠ 0) = whole NEWLINE x := (htext.trans hread).eq_of_length (by omega)
    have hzero : 0 ∉ x.1 := fun h0 => hnonzero (hall ▸ hline.subset h0)
    have hwhole : whole NEWLINE x = x.1 ++ [NEWLINE] := by
      rw [hall] at hlt
      exact if_pos (Bool.toNat_eq_one.1 (by omega))
    obtain rfl : read = x.1 ++ [NEWLINE] := by
      rw [← hwhole]
      exact hread.eq_of_length (by omega)
    rw [hall, hwhole, List.length_append, List.length_singleton, Nat.add_sub_cancel] at hc hends
    rw [List.getElem?_concat_length, Option.map_some, decide_eq_true rfl] at hends
    rw [← Option.some.inj hends, if_pos rfl] at hc
    rw [hall, hwhole, List.length_append, List.length_singleton] at htextlen
    rw [List.length_append, List.length_singleton] at hreadlen
    exact ⟨hc.le, fun _ => ⟨hzero, by omega⟩⟩
  · refine ⟨by rw [hc]; split <;> omega, fun heq => ?_⟩
    have hlen : (read.takeWhile (· ≠ 0)).length = x.1.length := by
      rw [heq] at hc
      split at hc <;> omega
    have hsame : read.takeWhile (· ≠ 0) = x.1 :=
      (List.prefix_of_prefix_length_le (htext.trans hread) hline hlen.le).eq_of_length hlen
    rw [← hsame]
    exact ⟨hnonzero, by omega⟩

/-- The lines are counted when each of them is read in one piece and has no NUL. -/
theorem getFileStats_eq (h : lines NEWLINE file = ls)
    (hls : ∀ x ∈ ls, (whole NEWLINE x).length < BUFSIZ ∧ 0 ∉ x.1) (fuel : ℕ) (hfuel : ls.length < fuel)
    (hn : n + ls.length < 2 ^ 31) :
    getFileStats fuel file n m = some (n + ls.length, ls.foldl (fun m x => max m x.1.length) m) := by
  induction ls generalizing file fuel n m with
  | nil =>
    obtain ⟨fuel, rfl⟩ := Nat.exists_eq_succ_of_ne_zero (Nat.ne_of_gt hfuel)
    rw [lines_eq_nil h, getFileStats, show fgets BUFSIZ [] = none from fgets_nil (BUFSIZ - 1)]
    rfl
  | cons x ls ih =>
    obtain ⟨fuel, rfl⟩ := Nat.exists_eq_succ_of_ne_zero (Nat.ne_of_gt (Nat.zero_lt_of_lt hfuel))
    obtain ⟨hnot, hne, -, rest, hfile, hrest, -⟩ := lines_eq_cons h
    obtain ⟨hshort, hzero⟩ := hls x List.mem_cons_self
    obtain ⟨hends, hlen⟩ := length_counted hne hnot hzero
    rw [List.length_cons] at hfuel hn
    have hdrop : file.drop (whole NEWLINE x).length = rest := by rw [hfile, List.drop_left]
    rw [getFileStats_turn h, if_pos (by omega), List.take_of_length_le (by omega), hends, Option.bind_some, hlen, hdrop,
      ih hrest (fun y hy => hls y (List.mem_cons_of_mem x hy)) fuel (by omega) (by omega), List.length_cons,
      List.foldl_cons, Nat.add_right_comm, Nat.add_assoc]

/-- A rest of a line is shorter than the line. -/
private theorem lines_drop {l : List UInt8} (hnot : NEWLINE ∉ x.1) {k : ℕ} (hk : 0 < k)
    (hlt : k < (whole NEWLINE x).length) (hx : x.2 = false → l = []) :
    ∃ y, y.1.length < x.1.length ∧ lines NEWLINE ((whole NEWLINE x).drop k ++ l) = y :: lines NEWLINE l := by
  obtain ⟨line, e⟩ := x
  cases e with
  | false =>
    have hwhole : whole NEWLINE (line, false) = line := rfl
    rw [hwhole] at hlt ⊢
    have hnil : line.drop k ≠ [] := by
      rw [ne_eq, List.drop_eq_nil_iff]
      omega
    rw [hx rfl, List.append_nil, lines_of_not_mem (fun hmem => hnot (List.mem_of_mem_drop hmem)) hnil]
    refine ⟨_, ?_, rfl⟩
    rw [List.length_drop]
    exact Nat.sub_lt (Nat.zero_lt_of_lt hlt) hk
  | true =>
    have hwhole : whole NEWLINE (line, true) = line ++ [NEWLINE] := rfl
    rw [hwhole] at hlt ⊢
    rw [List.length_append, List.length_singleton] at hlt
    rw [List.drop_append_of_le_length (by omega), List.append_assoc, List.singleton_append,
      lines_append_sep (fun hmem => hnot (List.mem_of_mem_drop hmem))]
    refine ⟨_, ?_, rfl⟩
    rw [List.length_drop]
    dsimp only
    omega

/-- The longest length belongs to a line, which has no NUL and is read in one piece if it is as long. -/
theorem getFileStats_longest {fuel : ℕ} {r : ℕ × ℕ} (hrun : getFileStats fuel file n m = some r) :
    (r.1 = n ∨ r.1 < 2 ^ 31) ∧ (r.2 = m ∨ ∃ x ∈ lines NEWLINE file, r.2 ≤ x.1.length ∧
      (r.2 = x.1.length → 0 ∉ x.1 ∧ x.1.length < BUFSIZ)) := by
  induction fuel generalizing file n m with
  | zero => cases hrun
  | succ fuel ih =>
    cases h : lines NEWLINE file with
    | nil =>
      rw [lines_eq_nil h, getFileStats, show fgets BUFSIZ [] = none from fgets_nil (BUFSIZ - 1)] at hrun
      cases hrun
      exact ⟨Or.inl rfl, Or.inl rfl⟩
    | cons x ls =>
      rw [getFileStats_turn h] at hrun
      split at hrun
      · rename_i hn
        obtain ⟨newline, hends, hrun⟩ := Option.bind_eq_some_iff.1 hrun
        obtain ⟨hle, hmax⟩ := length_counted_le hends rfl
        obtain ⟨hnot, hne, -, l', hfile, hl', hlast⟩ := lines_eq_cons h
        -- the lines that are left are those behind this one, after a rest of it
        have hrest : ∀ y ∈ lines NEWLINE (file.drop ((whole NEWLINE x).take (BUFSIZ - 1)).length),
            y ∈ ls ∨ y.1.length < x.1.length := by
          intro y hy
          rw [hfile, List.drop_append_of_le_length (List.take_prefix _ _).length_le, List.length_take] at hy
          rcases Nat.lt_or_ge (BUFSIZ - 1) (whole NEWLINE x).length with hlong | hshort
          · rw [Nat.min_eq_left hlong.le] at hy
            obtain ⟨z, hz, hlines⟩ := lines_drop hnot (by decide) hlong hlast
            rw [hlines, hl', List.mem_cons] at hy
            rcases hy with rfl | hy
            · exact Or.inr hz
            · exact Or.inl hy
          · rw [Nat.min_eq_right hshort, List.drop_length, List.nil_append, hl'] at hy
            exact Or.inl hy
        obtain ⟨hcount, hlongest⟩ := ih hrun
        refine ⟨Or.inr (by omega), ?_⟩
        rcases hlongest with hlongest | ⟨y, hy, hyle, hymax⟩
        · rcases Nat.le_total m (if newline then strlen ((whole NEWLINE x).take (BUFSIZ - 1) ++ [0]) - 1
            else strlen ((whole NEWLINE x).take (BUFSIZ - 1) ++ [0])) with hle' | hle'
          · rw [Nat.max_eq_right hle'] at hlongest
            rw [hlongest]
            exact Or.inr ⟨x, List.mem_cons_self, hle, hmax⟩
          · rw [Nat.max_eq_left hle'] at hlongest
            exact Or.inl hlongest
        · rcases hrest y hy with hy | hlt
          · exact Or.inr ⟨y, List.mem_cons_of_mem x hy, hyle, hymax⟩
          · exact Or.inr ⟨x, List.mem_cons_self, by omega, fun heq => by omega⟩
      · cases hrun

/-! ### The art -/

/-- Each line is in a row of its own. -/
structure AsciiArt.Holds (a : AsciiArt) (file : List UInt8) : Prop where
  ty : a.ty = (lines NEWLINE file).length
  art : a.art = (lines NEWLINE file).map fun x => some (padded a.tx x.1)

/-- The file is empty, or its last line has no newline and is the longest one. -/
def Loadable (file : List UInt8) : Prop :=
  file = [] ∨ 0 ∉ file ∧ (lines NEWLINE file).length < 2 ^ 31 ∧
    ∃ last, (lines NEWLINE file).getLast? = some (last, false) ∧ last.length < BUFSIZ ∧
      ∀ x ∈ (lines NEWLINE file).dropLast, x.1.length < last.length

/-- Rows with one byte more than the longest counted length have room for the lines only if the last one, without a
newline, has this length. -/
private theorem exists_longest {longest : ℕ} (hne : lines NEWLINE file ≠ [])
    (hfits : ∀ x ∈ lines NEWLINE file, RowFits (longest + 1) x)
    (hlongest : longest = 0 ∨ ∃ x ∈ lines NEWLINE file, longest ≤ x.1.length ∧
      (longest = x.1.length → 0 ∉ x.1 ∧ x.1.length < BUFSIZ)) :
    ∃ x ∈ lines NEWLINE file, x.2 = false ∧ longest = x.1.length ∧ 0 ∉ x.1 ∧ x.1.length < BUFSIZ := by
  rcases hlongest with hzero | ⟨x, hx, hle, hmax⟩
  · obtain ⟨x, ls, hlines⟩ := List.exists_cons_of_ne_nil hne
    have hroom := (hfits x (hlines ▸ List.mem_cons_self)).room
    have hpos := List.length_pos_of_ne_nil (lines_eq_cons hlines).2.1
    omega
  · have hroom := (hfits x hx).room
    rw [length_whole] at hroom
    have hlen : longest = x.1.length := by omega
    have hflag : x.2 = false := Bool.toNat_eq_zero.1 (by omega)
    obtain ⟨hzero, hsize⟩ := hmax hlen
    exact ⟨x, hx, hflag, hlen, hzero, hsize⟩

private theorem loadable_of_holds {fuel : ℕ} {a : AsciiArt} (hrun : loadAsciiArt fuel file = some a)
    (h : a.Holds file) : Loadable file := by
  obtain ⟨⟨ty, longest⟩, hstats, hrun⟩ := Option.bind_eq_some_iff.1 hrun
  obtain ⟨art, hrows, hrun⟩ := Option.bind_eq_some_iff.1 hrun
  cases hrun
  have hty : ty = (lines NEWLINE file).length := h.ty
  have hart : art = (lines NEWLINE file).map fun x => some (padded (longest + 1) x.1) := h.art
  rw [hty, hart] at hrows
  have hfits := (readRows_eq_iff (Nat.zero_lt_succ longest) rfl).1 hrows
  obtain ⟨hcount, hlongest⟩ := getFileStats_longest hstats
  rcases eq_or_ne (lines NEWLINE file) [] with hnil | hne
  · exact Or.inl (lines_eq_nil hnil)
  · obtain ⟨x, hx, hflag, hlen, hzero, hsize⟩ := exists_longest hne hfits hlongest
    have hlast := getLast?_lines hx hflag
    -- a line with its newline is at most as long as the longest line
    have hothers : ∀ y ∈ (lines NEWLINE file).dropLast, y.1.length < x.1.length := by
      intro y hy
      have hroom := (hfits y (List.dropLast_subset _ hy)).room
      rw [length_whole, lines_dropLast hy, Bool.toNat_true] at hroom
      omega
    refine Or.inr ⟨fun h0 => ?_, ?_, x.1, ?_, hsize, hothers⟩
    · obtain ⟨y, hy, hy0⟩ := (mem_iff_mem_lines (show (0 : UInt8) ≠ NEWLINE by decide)).1 h0
      rcases Bool.eq_false_or_eq_true y.2 with hended | hended
      · exact (hfits y hy).newline hended hy0
      · have hlast' := getLast?_lines hy hended
        rw [hlast] at hlast'
        obtain rfl := Option.some.inj hlast'
        exact hzero hy0
    · rw [← hty]
      rcases hcount with h0 | hlt
      · rw [show ty = 0 from h0]
        decide
      · exact hlt
    · rw [hlast, ← hflag]

private theorem foldl_max_le {b : ℕ} (hm : m ≤ b) (hls : ∀ x ∈ ls, x.1.length ≤ b) :
    ls.foldl (fun m x => max m x.1.length) m ≤ b := by
  induction ls generalizing m with
  | nil => exact hm
  | cons x ls ih =>
    rw [List.foldl_cons]
    exact ih (Nat.max_le.2 ⟨hm, hls x List.mem_cons_self⟩) fun y hy => hls y (List.mem_cons_of_mem x hy)

private theorem holds_of_loadable {fuel : ℕ} (hfuel : file.length < fuel) (h : Loadable file) :
    ∃ a, loadAsciiArt fuel file = some a ∧ a.Holds file := by
  have hcount := length_lines_le NEWLINE file
  rcases h with rfl | ⟨hzero, hnum, last, hlast, hsize, hothers⟩
  · have hstats := getFileStats_eq (n := 0) (m := 0) (rfl : lines NEWLINE [] = []) (fun x hx => by cases hx) fuel hfuel
      (by decide)
    exact ⟨⟨1, 0, []⟩, by rw [loadAsciiArt, hstats]; rfl, rfl, rfl⟩
  · have hne : lines NEWLINE file ≠ [] := fun hnil => by
      rw [hnil] at hlast
      cases hlast
    have hsplit : lines NEWLINE file = (lines NEWLINE file).dropLast ++ [(last, false)] := by
      rw [List.getLast?_eq_getLast_of_ne_nil hne] at hlast
      rw [← Option.some.inj hlast, List.dropLast_append_getLast hne]
    -- a line with its end is at most as long as the last one
    have hwhole : ∀ x ∈ lines NEWLINE file, (whole NEWLINE x).length ≤ last.length := by
      intro x hx
      rw [hsplit, List.mem_append, List.mem_singleton] at hx
      rcases hx with hx | rfl
      · have hlt := hothers x hx
        rw [whole, if_pos (lines_dropLast hx), List.length_append, List.length_singleton]
        omega
      · exact Nat.le_refl _
    have hnozero : ∀ x ∈ lines NEWLINE file, 0 ∉ x.1 := fun x hx h0 =>
      hzero ((mem_iff_mem_lines (show (0 : UInt8) ≠ NEWLINE by decide)).2 ⟨x, hx, h0⟩)
    have hstats := getFileStats_eq (n := 0) (m := 0) (rfl : lines NEWLINE file = lines NEWLINE file)
      (fun x hx => ⟨Nat.lt_of_le_of_lt (hwhole x hx) hsize, hnozero x hx⟩) fuel (by omega) (by omega)
    have hlongest : (lines NEWLINE file).foldl (fun m x => max m x.1.length) 0 = last.length := by
      rw [hsplit, List.foldl_append, List.foldl_cons, List.foldl_nil]
      exact Nat.max_eq_right (foldl_max_le (Nat.zero_le _) fun x hx => (hothers x hx).le)
    rw [Nat.zero_add, hlongest] at hstats
    have hsplit : lines NEWLINE file = lines NEWLINE file := rfl
    have hrows := (readRows_eq_iff (Nat.zero_lt_succ last.length) hsplit).2 fun x hx =>
      ⟨Nat.lt_succ_of_le (hwhole x hx), fun hfirst => hnozero x hx (List.mem_of_mem_head? hfirst),
        fun _ => hnozero x hx⟩
    refine ⟨⟨last.length + 1, _, (lines NEWLINE file).map fun x => some (padded (last.length + 1) x.1)⟩, ?_, rfl, rfl⟩
    rw [loadAsciiArt, hstats]
    simp only [Option.bind_eq_bind, Option.bind_some]
    rw [hrows]
    rfl

/-- For every file: it is loaded, with a row for each line and no access outside a row, exactly when it is empty or its
last line has no newline and is the longest one. -/
theorem loadAsciiArt_loads_iff (file : List UInt8) {fuel : ℕ} (hfuel : file.length < fuel) :
    (∃ a, loadAsciiArt fuel file = some a ∧ a.Holds file) ↔ Loadable file :=
  ⟨fun ⟨_, hrun, h⟩ => loadable_of_holds hrun h, holds_of_loadable hfuel⟩

theorem loadAsciiArt_loads_line :
    ∃ a, loadAsciiArt 3 (ascii "ab") = some a ∧ a.Holds (ascii "ab") :=
  (loadAsciiArt_loads_iff (ascii "ab") (by decide)).2 (Or.inr ⟨by decide, by decide, ascii "ab", by decide, by decide,
    fun x hx => by cases hx⟩)

/-- The content of the shipped `logo_main.txt`. -/
def logoMain : List UInt8 :=
  ascii " |\\ | \\ /  /\\  |\\ |   |-  |_|  /\\  -|-     /\\ /\\   " ++ NEWLINE ::
    ascii " | \\|  |  /  \\ | \\|   |-  | | /  \\  |    (= owo =) "

/-- The lines of the shipped file have the same length, and the NUL behind the first one is written outside its row. -/
theorem logoMain_leaves_row :
    (lines NEWLINE logoMain).map (fun x => x.1.length) = [51, 51] ∧ loadAsciiArt 104 logoMain = none := by
  refine ⟨by decide +kernel, ?_⟩
  have hnone : (loadAsciiArt 104 logoMain).isNone = true := by decide +kernel
  exact Option.isNone_iff_eq_none.1 hnone

end NyanChat
