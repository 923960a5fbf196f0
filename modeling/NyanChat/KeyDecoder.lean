import NyanChat.ClientAnsi

/-!
# The keys of the raw terminal

In raw mode the main loop reads a key from the bytes of `stdin`.  The keys of one byte that the editor treats as special
are rewritten to the marker of a sequence before the test for it, so the loop reads on behind them
(`readKey`).  A `read` waits a tenth of a second for a byte; whether one arrives in time is an argument, and so are the
bytes that the arrays `seq` and `buffer` hold before they are written.

A key is delivered right when the bytes that were read are those of one key and the event is its own.  This is so in
exactly the runs in which no byte arrives in time behind a key of one byte, and behind the escape byte either none or
the bytes of a known sequence (`keys_delivered_iff`).
-/

namespace NyanChat.Ansi

def CARRIAGE_RETURN : UInt8 := 13

def TABULATION : UInt8 := 9

def BACKSPACE : UInt8 := 127

def K_PAGE_UP : UInt8 := 117

def K_PAGE_DOWN : UInt8 := 100

def K_HOME : UInt8 := 104

def K_END : UInt8 := 102

def K_ESCAPE : UInt8 := 48

def K_TABULATION : UInt8 := 116

/-- The first bytes of `buffer`, which `on_stdin` reads a key from. -/
structure KeyBuffer where
  first : UInt8
  second : UInt8
  third : UInt8
deriving DecidableEq, Repr

/-- What the reads of one key meet: whether a byte arrives in time for each of the three behind the first, and what the
arrays held before. -/
structure Reads where
  arrives₀ : Bool
  arrives₁ : Bool
  arrives₂ : Bool
  seq₀ : UInt8
  seq₁ : UInt8
  buffer : KeyBuffer

/-- `read(STDIN_FILENO, &seq[i], 1)` -/
def readByte (arrives : Bool) : List UInt8 → Option UInt8 × List UInt8
  | [] => (none, [])
  | b :: rest => if arrives then (some b, rest) else (none, b :: rest)

/-- The rewriting of `\r`, `\t`, `\e` and the backspace. -/
def singleKey (b : UInt8) : Option UInt8 :=
  if b = CARRIAGE_RETURN then some K_ENTER
  else if b = TABULATION then some K_TABULATION
  else if b = ESCAPE then some K_ESCAPE
  else if b = BACKSPACE then some K_BACKSPACE
  else none

/-- The keys `[`, a digit and `~`. -/
def tildeKey (digit : UInt8) : Option (UInt8 × UInt8) :=
  if digit = 49 then some (SPECIAL_CHAR_KEYS, K_HOME)
  else if digit = 51 then some (SPECIAL_CHAR_KEYS, K_DELETE)
  else if digit = 52 then some (SPECIAL_CHAR_KEYS, K_END)
  else if digit = 53 then some (SPECIAL_CHAR_KEYS, K_PAGE_UP)
  else if digit = 54 then some (SPECIAL_CHAR_KEYS, K_PAGE_DOWN)
  else if digit = 55 then some (SPECIAL_CHAR_KEYS, K_HOME)
  else if digit = 56 then some (SPECIAL_CHAR_KEYS, K_END)
  else none

/-- The keys `[` and a letter. -/
def bracketKey (letter : UInt8) : Option (UInt8 × UInt8) :=
  if letter = 65 then some (SPECIAL_CHAR_ARROW, ARROW_TOP)
  else if letter = 66 then some (SPECIAL_CHAR_ARROW, ARROW_BOTTOM)
  else if letter = 68 then some (SPECIAL_CHAR_ARROW, ARROW_LEFT)
  else if letter = 67 then some (SPECIAL_CHAR_ARROW, ARROW_RIGHT)
  else if letter = 72 then some (SPECIAL_CHAR_KEYS, K_HOME)
  else if letter = 70 then some (SPECIAL_CHAR_KEYS, K_END)
  else none

/-- The keys `O` and a letter. -/
def oKey (letter : UInt8) : Option (UInt8 × UInt8) :=
  if letter = 72 then some (SPECIAL_CHAR_KEYS, K_HOME)
  else if letter = 70 then some (SPECIAL_CHAR_KEYS, K_END)
  else none

/-- The key `?` and `M`. -/
def questionKey (letter : UInt8) : Option (UInt8 × UInt8) :=
  if letter = 77 then some (SPECIAL_CHAR_KEYS, K_ENTER) else none

/-- `buffer[1]` and `buffer[2]` are written for a key. -/
def KeyBuffer.put (buffer : KeyBuffer) (key : Option (UInt8 × UInt8)) : KeyBuffer :=
  match key with
  | none => buffer
  | some (second, third) => ⟨buffer.first, second, third⟩

/-- The tests of `seq` that need no further byte, and are made also when nothing was read into it. -/
def pairKey (seq₀ seq₁ : UInt8) : Option (UInt8 × UInt8) :=
  if seq₀ = 79 then oKey seq₁ else if seq₀ = 63 then questionKey seq₁ else none

/-- The bytes behind the marker: the buffer and the bytes that are left. -/
def readSequence (r : Reads) (buffer : KeyBuffer) (behind : List UInt8) : KeyBuffer × List UInt8 :=
  let (b₀, rest) := readByte r.arrives₀ behind
  let (b₁, rest) := if b₀.isSome then readByte r.arrives₁ rest else (none, rest)
  let seq₀ := b₀.getD r.seq₀
  let seq₁ := b₁.getD r.seq₁
  if b₁.isSome ∧ seq₀ = 91 then
    if 48 ≤ seq₁ ∧ seq₁ ≤ 57 then
      let (b₂, rest) := readByte r.arrives₂ rest
      (if b₂ = some 126 then buffer.put (tildeKey seq₁) else buffer, rest)
    else (buffer.put (bracketKey seq₁), rest)
  else (buffer.put (pairKey seq₀ seq₁), rest)

/-- The key that starts with `b`: the buffer for `on_stdin` and the bytes that are left. -/
def readKey (r : Reads) (b : UInt8) (behind : List UInt8) : KeyBuffer × List UInt8 :=
  let buffer := { r.buffer with first := b }
  let buffer := match singleKey b with
    | some key => ⟨ESCAPE, SPECIAL_CHAR_KEYS, key⟩
    | none => buffer
  if buffer.first = ESCAPE then readSequence r buffer behind else (buffer, behind)

/-! ### Runs -/

/-- A key that is read: its first byte and the bytes behind it. -/
structure KeyStep where
  reads : Reads
  byte : UInt8
  behind : List UInt8

namespace KeyStep

def event (k : KeyStep) : KeyBuffer := (readKey k.reads k.byte k.behind).1

def rest (k : KeyStep) : List UInt8 := (readKey k.reads k.byte k.behind).2

/-- The bytes that are read for the key. -/
def consumed (k : KeyStep) : List UInt8 := (k.byte :: k.behind).take (k.behind.length + 1 - k.rest.length)

end KeyStep

/-- The keys that are read from a stream, each with its own timing, and the bytes that are left. -/
def keySteps : List Reads → List UInt8 → List KeyStep × List UInt8
  | [], stream => ([], stream)
  | _ :: _, [] => ([], [])
  | r :: reads, b :: behind =>
    let k : KeyStep := ⟨r, b, behind⟩
    let (ks, left) := keySteps reads k.rest
    (k :: ks, left)

/-! ### What a key should do -/

/-- The event of a key of one byte. -/
def OwnEvent (b : UInt8) (e : KeyBuffer) : Prop :=
  match singleKey b with
  | some key => e = ⟨ESCAPE, SPECIAL_CHAR_KEYS, key⟩
  | none => e.first = b

/-- The known sequences behind the escape byte. -/
def sequenceKey : List UInt8 → Option (UInt8 × UInt8)
  | [seq₀, seq₁] => if seq₀ = 91 then bracketKey seq₁ else pairKey seq₀ seq₁
  | [seq₀, seq₁, seq₂] => if seq₀ = 91 ∧ seq₂ = 126 then tildeKey seq₁ else none
  | _ => none

namespace KeyStep

/-- A byte other than the escape byte is a key by itself. -/
def DeliversByte (k : KeyStep) : Prop := k.byte ≠ ESCAPE → k.consumed = [k.byte] ∧ OwnEvent k.byte k.event

/-- The escape byte is a key by itself, or the start of a known sequence. -/
def DeliversSequence (k : KeyStep) : Prop :=
  k.byte = ESCAPE → (k.consumed = [ESCAPE] ∧ OwnEvent ESCAPE k.event) ∨
    ∃ tail second third, k.consumed = ESCAPE :: tail ∧ sequenceKey tail = some (second, third) ∧
      k.event = ⟨ESCAPE, second, third⟩

/-- No byte arrives in time behind the first, and what `seq` held before is not taken for another key. -/
def Alone (k : KeyStep) : Prop :=
  (k.reads.arrives₀ = false ∨ k.behind = []) ∧
    ∀ key, singleKey k.byte = some key →
      pairKey k.reads.seq₀ k.reads.seq₁ = none ∨
        pairKey k.reads.seq₀ k.reads.seq₁ = some (SPECIAL_CHAR_KEYS, key)

/-- All bytes of a known sequence arrive in time. -/
def Complete (k : KeyStep) : Prop :=
  k.reads.arrives₀ = true ∧ k.reads.arrives₁ = true ∧
    (sequenceKey (k.behind.take 2) ≠ none ∨ k.reads.arrives₂ = true ∧ sequenceKey (k.behind.take 3) ≠ none)

def FitsByte (k : KeyStep) : Prop := k.byte ≠ ESCAPE → singleKey k.byte ≠ none → k.Alone

def FitsSequence (k : KeyStep) : Prop := k.byte = ESCAPE → k.Alone ∨ k.Complete

end KeyStep

/-! ### The bytes behind the marker -/

theorem readByte_none {arrives : Bool} {l : List UInt8} (h : arrives = false ∨ l = []) :
    readByte arrives l = (none, l) := by
  cases l with
  | nil => rfl
  | cons b l =>
    obtain rfl := h.resolve_right (List.cons_ne_nil b l)
    rfl

theorem readByte_cases (arrives : Bool) (l : List UInt8) :
    (arrives = false ∨ l = []) ∨ ∃ b rest, arrives = true ∧ l = b :: rest := by
  cases l with
  | nil => exact Or.inl (Or.inr rfl)
  | cons b rest =>
    cases arrives with
    | false => exact Or.inl (Or.inl rfl)
    | true => exact Or.inr ⟨b, rest, rfl, rfl⟩

theorem readSequence_alone {r : Reads} {behind : List UInt8} (h : r.arrives₀ = false ∨ behind = [])
    (buffer : KeyBuffer) : readSequence r buffer behind = (buffer.put (pairKey r.seq₀ r.seq₁), behind) := by
  simp [readSequence, readByte_none h]

private theorem tildeKey_digit {digit : UInt8} (h : tildeKey digit ≠ none) : 48 ≤ digit ∧ digit ≤ 57 := by
  by_contra hnot
  refine h ?_
  unfold tildeKey
  split_ifs <;> first | rfl | (subst_vars; exact absurd (by decide) hnot)

private theorem bracketKey_digit {digit : UInt8} (h : 48 ≤ digit ∧ digit ≤ 57) : bracketKey digit = none := by
  unfold bracketKey
  split_ifs <;> first | rfl | (subst_vars; exact absurd h (by decide))

/-- The bytes `tail` are read behind the marker.  They are a known sequence exactly when all bytes of one arrive, and
then the key of the sequence is put. -/
private structure SequenceRead (r : Reads) (buffer : KeyBuffer) (bytes tail : List UInt8) : Prop where
  nonempty : tail ≠ []
  read : bytes = tail ++ (readSequence r buffer bytes).2
  event : ∀ key, sequenceKey tail = some key → (readSequence r buffer bytes).1 = buffer.put (some key)
  complete : sequenceKey tail ≠ none ↔ r.arrives₁ = true ∧
    (sequenceKey (bytes.take 2) ≠ none ∨ r.arrives₂ = true ∧ sequenceKey (bytes.take 3) ≠ none)

section

variable {r : Reads} {buffer : KeyBuffer} {x y z : UInt8} {l : List UInt8}

private theorem readByte_arrived {arrives : Bool} (h : arrives = true) (b : UInt8) (l : List UInt8) :
    readByte arrives (b :: l) = (some b, l) := by
  rw [h]
  rfl

/-- The second read times out. -/
private theorem sequenceRead_one (h₀ : r.arrives₀ = true) (hnone : r.arrives₁ = false ∨ l = []) :
    SequenceRead r buffer (x :: l) [x] := by
  have hrun : (readSequence r buffer (x :: l)).2 = l := by
    simp [readSequence, readByte_arrived h₀, readByte_none hnone]
  refine ⟨List.cons_ne_nil _ _, by rw [hrun]; rfl, ?_, ?_, ?_⟩
  · intro key hkey
    cases hkey
  · intro hknown
    exact absurd rfl hknown
  · rintro ⟨h₁, hknown⟩
    obtain rfl := hnone.resolve_left (by simp [h₁])
    rcases hknown with hknown | ⟨-, hknown⟩ <;> exact absurd rfl hknown

/-- Behind `[` and a digit the third read times out. -/
private theorem sequenceRead_digit (h₀ : r.arrives₀ = true) (h₁ : r.arrives₁ = true) (hdigit : 48 ≤ y ∧ y ≤ 57)
    (hnone : r.arrives₂ = false ∨ l = []) : SequenceRead r buffer (91 :: y :: l) [91, y] := by
  have hrun : (readSequence r buffer (91 :: y :: l)).2 = l := by
    simp [readSequence, readByte_arrived h₀, readByte_arrived h₁, readByte_none hnone, hdigit]
  have hunknown : sequenceKey [91, y] = none := bracketKey_digit hdigit
  refine ⟨List.cons_ne_nil _ _, by rw [hrun]; rfl, ?_, ?_, ?_⟩
  · intro key hkey
    rw [hunknown] at hkey
    cases hkey
  · intro hknown
    exact absurd hunknown hknown
  · rintro ⟨-, hknown | ⟨h₂, hknown⟩⟩
    · exact absurd hunknown hknown
    · obtain rfl := hnone.resolve_left (by simp [h₂])
      exact absurd hunknown hknown

/-- `[`, a digit and a third byte. -/
private theorem sequenceRead_tilde (h₀ : r.arrives₀ = true) (h₁ : r.arrives₁ = true) (h₂ : r.arrives₂ = true)
    (hdigit : 48 ≤ y ∧ y ≤ 57) : SequenceRead r buffer (91 :: y :: z :: l) [91, y, z] := by
  have hrun : readSequence r buffer (91 :: y :: z :: l) =
      (if some z = some 126 then buffer.put (tildeKey y) else buffer, l) := by
    simp [readSequence, readByte_arrived h₀, readByte_arrived h₁, readByte_arrived h₂, hdigit]
  have hunknown : sequenceKey [91, y] = none := bracketKey_digit hdigit
  refine ⟨List.cons_ne_nil _ _, by rw [hrun]; rfl, ?_, ?_, ?_⟩
  · intro key hkey
    have hz : (91 : UInt8) = 91 ∧ z = 126 := by
      by_contra hz
      rw [sequenceKey, if_neg hz] at hkey
      cases hkey
    rw [sequenceKey, if_pos hz] at hkey
    rw [hrun, if_pos (congrArg some hz.2), hkey]
  · intro hknown
    exact ⟨h₁, Or.inr ⟨h₂, hknown⟩⟩
  · rintro ⟨-, hknown | ⟨-, hknown⟩⟩
    · exact absurd hunknown hknown
    · exact hknown

/-- Two bytes that are read as the sequence they are; a third one makes no other sequence of them. -/
private theorem sequenceRead_two (h₁ : r.arrives₁ = true)
    (hrun : readSequence r buffer (x :: y :: l) = (buffer.put (sequenceKey [x, y]), l))
    (hthree : ∀ z, sequenceKey [x, y] = none → sequenceKey [x, y, z] = none) :
    SequenceRead r buffer (x :: y :: l) [x, y] := by
  refine ⟨List.cons_ne_nil _ _, by rw [hrun]; rfl, ?_, ?_, ?_⟩
  · intro key hkey
    rw [hrun, ← hkey]
  · intro hknown
    exact ⟨h₁, Or.inl hknown⟩
  · rintro ⟨-, hknown | ⟨-, hknown⟩⟩
    · exact hknown
    · cases l with
      | nil => exact hknown
      | cons z l => exact fun hnone => hknown (hthree z hnone)

/-- `[` and no digit. -/
private theorem sequenceRead_letter (h₀ : r.arrives₀ = true) (h₁ : r.arrives₁ = true) (hdigit : ¬ (48 ≤ y ∧ y ≤ 57)) :
    SequenceRead r buffer (91 :: y :: l) [91, y] := by
  have hkeys : sequenceKey [91, y] = bracketKey y := rfl
  refine sequenceRead_two h₁ ?_ fun z _ => ?_
  · rw [hkeys]
    simp [readSequence, readByte_arrived h₀, readByte_arrived h₁, hdigit]
  · have htilde : tildeKey y = none := by
      by_contra hne
      exact hdigit (tildeKey_digit hne)
    show (if (91 : UInt8) = 91 ∧ z = 126 then tildeKey y else none) = none
    rw [htilde, ite_self]

private theorem sequenceRead_pair (h₀ : r.arrives₀ = true) (h₁ : r.arrives₁ = true) (hx : x ≠ 91) :
    SequenceRead r buffer (x :: y :: l) [x, y] := by
  have hkeys : sequenceKey [x, y] = pairKey x y := if_neg hx
  refine sequenceRead_two h₁ ?_ fun z _ => if_neg fun h => hx h.1
  rw [hkeys]
  simp [readSequence, readByte_arrived h₀, readByte_arrived h₁, hx]

private theorem readSequence_arrived (buffer : KeyBuffer) (x : UInt8) (l : List UInt8) (h₀ : r.arrives₀ = true) :
    ∃ tail, SequenceRead r buffer (x :: l) tail := by
  rcases readByte_cases r.arrives₁ l with hnone | ⟨y, l, h₁, rfl⟩
  · exact ⟨_, sequenceRead_one h₀ hnone⟩
  · by_cases hx : x = 91
    · subst hx
      by_cases hdigit : 48 ≤ y ∧ y ≤ 57
      · rcases readByte_cases r.arrives₂ l with hnone | ⟨z, l, h₂, rfl⟩
        · exact ⟨_, sequenceRead_digit h₀ h₁ hdigit hnone⟩
        · exact ⟨_, sequenceRead_tilde h₀ h₁ h₂ hdigit⟩
      · exact ⟨_, sequenceRead_letter h₀ h₁ hdigit⟩
    · exact ⟨_, sequenceRead_pair h₀ h₁ hx⟩

end

/-! ### One key -/

theorem readKey_ordinary {r : Reads} {b : UInt8} (h : singleKey b = none) (behind : List UInt8) :
    readKey r b behind = ({ r.buffer with first := b }, behind) := by
  have hb : b ≠ ESCAPE := by
    rintro rfl
    cases h
  simp [readKey, h, hb]

theorem readKey_special {r : Reads} {b key : UInt8} (h : singleKey b = some key) (behind : List UInt8) :
    readKey r b behind = readSequence r ⟨ESCAPE, SPECIAL_CHAR_KEYS, key⟩ behind := by
  simp [readKey, h]

theorem KeyBuffer.put_eq_iff (first second third : UInt8) (key : Option (UInt8 × UInt8)) :
    (KeyBuffer.mk first second third).put key = ⟨first, second, third⟩ ↔
      key = none ∨ key = some (second, third) := by
  rcases key with - | ⟨second', third'⟩
  · simp [KeyBuffer.put]
  · simp [KeyBuffer.put]

namespace KeyStep

theorem consumed_eq {k : KeyStep} {tail : List UInt8} (h : k.behind = tail ++ k.rest) :
    k.consumed = k.byte :: tail := by
  have hlength := congrArg List.length h
  rw [List.length_append] at hlength
  have hread : k.behind.length + 1 - k.rest.length = (k.byte :: tail).length := by
    rw [List.length_cons]
    omega
  have hbytes : k.byte :: k.behind = (k.byte :: tail) ++ k.rest := congrArg (k.byte :: ·) h
  rw [consumed, hread, hbytes, List.take_left]

theorem ordinary {k : KeyStep} (h : singleKey k.byte = none) :
    k.consumed = [k.byte] ∧ OwnEvent k.byte k.event ∧ k.behind = k.rest := by
  have hkey := readKey_ordinary (r := k.reads) h k.behind
  have hrest : k.behind = [] ++ k.rest := by rw [rest, hkey, List.nil_append]
  refine ⟨consumed_eq hrest, ?_, hrest⟩
  rw [OwnEvent, h]
  show k.event.first = k.byte
  rw [event, hkey]

/-- The bytes behind the marker are read as those of a sequence. -/
theorem special {k : KeyStep} {key : UInt8} (h : singleKey k.byte = some key) :
    (k.consumed = [k.byte] ∧
        k.event = KeyBuffer.put ⟨ESCAPE, SPECIAL_CHAR_KEYS, key⟩ (pairKey k.reads.seq₀ k.reads.seq₁) ∧
        (k.reads.arrives₀ = false ∨ k.behind = []) ∧ k.behind = k.rest) ∨
      ∃ tail, tail ≠ [] ∧ k.behind = tail ++ k.rest ∧ k.reads.arrives₀ = true ∧ k.behind ≠ [] ∧
        (∀ second third, sequenceKey tail = some (second, third) → k.event = ⟨ESCAPE, second, third⟩) ∧
        (sequenceKey tail ≠ none ↔ k.Complete) := by
  have hkey := readKey_special (r := k.reads) h k.behind
  rcases readByte_cases k.reads.arrives₀ k.behind with hnone | ⟨x, l, harrives, hbehind⟩
  · rw [readSequence_alone hnone] at hkey
    have hrest : k.behind = [] ++ k.rest := by rw [rest, hkey, List.nil_append]
    exact Or.inl ⟨consumed_eq hrest, by rw [event, hkey], hnone, hrest⟩
  · obtain ⟨tail, htail, hread, hknown, hcomplete⟩ :=
      readSequence_arrived ⟨ESCAPE, SPECIAL_CHAR_KEYS, key⟩ x l harrives
    rw [← hbehind, ← hkey] at hread hknown
    refine Or.inr ⟨tail, htail, hread, harrives, by rw [hbehind]; exact List.cons_ne_nil x l, ?_, ?_⟩
    · intro second third hsequence
      exact hknown _ hsequence
    · rw [hcomplete, ← hbehind, Complete, and_iff_right harrives]

/-- A key that the editor treats as special is delivered as a key of one byte exactly when it comes alone. -/
theorem single_iff {k : KeyStep} {key : UInt8} (h : singleKey k.byte = some key) :
    k.consumed = [k.byte] ∧ OwnEvent k.byte k.event ↔ k.Alone := by
  have hown : OwnEvent k.byte k.event ↔ k.event = ⟨ESCAPE, SPECIAL_CHAR_KEYS, key⟩ := by rw [OwnEvent, h]
  rcases special h with ⟨hconsumed, hevent, hnone, -⟩ | ⟨tail, htail, hread, harrives, hbehind, -, -⟩
  · rw [and_iff_right hconsumed, hown, hevent, KeyBuffer.put_eq_iff, Alone, and_iff_right hnone, h]
    constructor
    · intro hpair key' hkey'
      cases hkey'
      exact hpair
    · intro hpair
      exact hpair key rfl
  · constructor
    · rintro ⟨hconsumed, -⟩
      rw [consumed_eq hread] at hconsumed
      exact absurd (List.cons.inj hconsumed).2 htail
    · rintro ⟨hfalse | hnil, -⟩
      · rw [harrives] at hfalse
        cases hfalse
      · exact absurd hnil hbehind

theorem deliversByte_iff (k : KeyStep) : k.DeliversByte ↔ k.FitsByte := by
  refine imp_congr_right fun _ => ?_
  cases h : singleKey k.byte with
  | none =>
    obtain ⟨hconsumed, hevent, -⟩ := ordinary h
    exact iff_of_true ⟨hconsumed, hevent⟩ fun hkey => absurd rfl hkey
  | some key =>
    rw [single_iff h]
    exact ⟨fun halone _ => halone, fun halone => halone (Option.some_ne_none key)⟩

theorem deliversSequence_iff (k : KeyStep) : k.DeliversSequence ↔ k.FitsSequence := by
  refine forall_congr' fun hbyte => ?_
  have h : singleKey k.byte = some K_ESCAPE := by rw [hbyte]; rfl
  have hsingle := single_iff h
  rw [hbyte] at hsingle
  rw [hsingle]
  refine or_congr_right ?_
  rcases special h with ⟨hconsumed, -, hnone, -⟩ | ⟨tail, -, hread, -, -, hknown, hcomplete⟩
  · constructor
    · rintro ⟨tail, second, third, hread, hsequence, -⟩
      rw [hconsumed, hbyte] at hread
      obtain rfl := (List.cons.inj hread).2
      cases hsequence
    · rintro ⟨harrives, -, hsequence⟩
      obtain hnil := hnone.resolve_left (by simp [harrives])
      rw [hnil] at hsequence
      rcases hsequence with hsequence | ⟨-, hsequence⟩ <;> exact absurd rfl hsequence
  · rw [← hcomplete]
    constructor
    · rintro ⟨tail', second, third, hconsumed, hsequence, -⟩
      rw [consumed_eq hread] at hconsumed
      rw [(List.cons.inj hconsumed).2, hsequence]
      exact Option.some_ne_none _
    · intro hsequence
      obtain ⟨⟨second, third⟩, hsome⟩ := Option.ne_none_iff_exists'.mp hsequence
      exact ⟨tail, second, third, by rw [consumed_eq hread, hbyte], hsome, hknown second third hsome⟩

/-- No byte is skipped and none is read twice. -/
theorem consumed_append_rest (k : KeyStep) : k.consumed ++ k.rest = k.byte :: k.behind := by
  have hread : ∃ tail, k.behind = tail ++ k.rest := by
    cases h : singleKey k.byte with
    | none => exact ⟨[], (ordinary h).2.2⟩
    | some key =>
      rcases special h with ⟨-, -, -, hrest⟩ | ⟨tail, -, hrest, -⟩
      · exact ⟨[], hrest⟩
      · exact ⟨tail, hrest⟩
  obtain ⟨tail, hrest⟩ := hread
  rw [consumed_eq hrest, List.cons_append, ← hrest]

end KeyStep

/-! ### Runs of the loop -/

theorem keySteps_cons (r : Reads) (reads : List Reads) (b : UInt8) (behind : List UInt8) :
    keySteps (r :: reads) (b :: behind) = (⟨r, b, behind⟩ :: (keySteps reads (KeyStep.rest ⟨r, b, behind⟩)).1,
      (keySteps reads (KeyStep.rest ⟨r, b, behind⟩)).2) := rfl

theorem keySteps_bytes (reads : List Reads) (stream : List UInt8) :
    (keySteps reads stream).1.flatMap KeyStep.consumed ++ (keySteps reads stream).2 = stream := by
  induction reads generalizing stream with
  | nil => rfl
  | cons r reads ih =>
    cases stream with
    | nil => rfl
    | cons b behind =>
      rw [keySteps_cons, List.flatMap_cons, List.append_assoc, ih]
      exact KeyStep.consumed_append_rest ⟨r, b, behind⟩

/-- The keys of one byte are delivered as such in exactly the runs in which each of them that the editor treats as
special comes alone, and all keys in exactly those in which also each escape byte comes alone or with a known
sequence. -/
theorem keys_delivered_iff (reads : List Reads) (stream : List UInt8) :
    (keySteps reads stream).1.flatMap KeyStep.consumed ++ (keySteps reads stream).2 = stream ∧
      ((∀ k ∈ (keySteps reads stream).1, k.DeliversByte) ↔ ∀ k ∈ (keySteps reads stream).1, k.FitsByte) ∧
      ((∀ k ∈ (keySteps reads stream).1, k.DeliversByte ∧ k.DeliversSequence) ↔
        ∀ k ∈ (keySteps reads stream).1, k.FitsByte ∧ k.FitsSequence) := by
  refine ⟨keySteps_bytes reads stream, ?_, ?_⟩
  · exact forall₂_congr fun k _ => k.deliversByte_iff
  · exact forall₂_congr fun k _ => and_congr k.deliversByte_iff k.deliversSequence_iff

/-- All bytes arrive at once, and the arrays hold zeros. -/
def pasted : Reads := ⟨true, true, true, 0, 0, ⟨0, 0, 0⟩⟩

/-- The text `\rab` is pasted: it is one key, and both letters are lost. -/
theorem pasted_letters_lost :
    (keySteps [pasted, pasted, pasted] [CARRIAGE_RETURN, 97, 98]).1.map KeyStep.event =
        [⟨ESCAPE, SPECIAL_CHAR_KEYS, K_ENTER⟩] ∧
      (keySteps [pasted, pasted, pasted] [CARRIAGE_RETURN, 97, 98]).1.map KeyStep.consumed =
        [[CARRIAGE_RETURN, 97, 98]] ∧
      ¬∀ k ∈ (keySteps [pasted, pasted, pasted] [CARRIAGE_RETURN, 97, 98]).1, k.DeliversByte := by
  refine ⟨by decide, by decide, fun h => ?_⟩
  have hconsumed := (h ⟨pasted, CARRIAGE_RETURN, [97, 98]⟩ (List.mem_cons_self ..) (by decide)).1
  exact absurd hconsumed (by decide)

end NyanChat.Ansi
