import NyanChat.Syndrome

/-!
# Error correction

What `add_control_bits` and `code_correct_error` do to a whole message (`addControlBits_eq`,
`codeCorrectError_eq`), and what the correction makes of a message in which at most one bit of each codeword was
flipped: a flipped text bit is corrected, a flipped control bit is attributed to a pattern on the text byte.
-/

namespace NyanChat

open Loop

/-! ### The loops over a message -/

/-- The message `m` with the control bytes of its text. -/
def withControl (m : Message) : Message :=
  { m with control := written (fun i => textSyndrome m.msg[i.val]) m.control m.msgLength.toNat }

theorem addControlBits_eq {m : Message} (hlen : m.msgLength.toNat ≤ MAX_MSG_LENGTH) :
    addControlBits m = some (withControl m) := by
  obtain ⟨m', hm', hinv⟩ := foldlM_range (f := addControlByte) (s := m)
    (fun k s => s = { m with control := written (fun i => textSyndrome m.msg[i.val]) m.control k })
    (n := m.msgLength.toNat) (by rw [written_zero])
    (by
      rintro k hk s rfl
      have hk' : k < MAX_MSG_LENGTH := by omega
      refine ⟨_, dif_pos hk', ?_⟩
      have hset := written_set (fun i : Fin MAX_MSG_LENGTH => textSyndrome m.msg[i.val]) m.control hk'
      rw [← hset]
      rfl)
  rw [addControlBits, hm', hinv, withControl]

/-- The pattern that `code_correct_error` finds for the codeword `i`. -/
def errorPattern (S : Syndromes) (m : Message) (i : Fin MAX_MSG_LENGTH) : UInt16 :=
  lookup S (decodeLfsr P (codeword m.msg[i.val] m.control[i.val]))

/-- The message that `code_correct_error` leaves after `k` turns. -/
def corrected (S : Syndromes) (m : Message) (k : ℕ) : Message :=
  { m with
    msg := written (fun i => m.msg[i.val] ^^^ (errorPattern S m i).toUInt8) m.msg k
    error := written (fun i => if weight (errorPattern S m i) ≤ CORRECTION then 0 else 1) m.error k }

/-- No codeword before `k` has a pattern beyond the correction capacity. -/
def AllCorrectable (S : Syndromes) (m : Message) (k : ℕ) : Prop :=
  ∀ i : Fin MAX_MSG_LENGTH, i.val < k → weight (errorPattern S m i) ≤ CORRECTION

instance (S : Syndromes) (m : Message) (k : ℕ) : Decidable (AllCorrectable S m k) :=
  inferInstanceAs (Decidable (∀ i : Fin MAX_MSG_LENGTH, i.val < k → _))

private theorem allCorrectable_succ {S : Syndromes} {m : Message} {k : ℕ} (hk : k < MAX_MSG_LENGTH) :
    AllCorrectable S m (k + 1) ↔ AllCorrectable S m k ∧ weight (errorPattern S m ⟨k, hk⟩) ≤ CORRECTION := by
  constructor
  · exact fun h => ⟨fun i hi => h i (by omega), h ⟨k, hk⟩ (Nat.lt_succ_self k)⟩
  · rintro ⟨h, hw⟩ i hi
    rcases Nat.lt_succ_iff_lt_or_eq.1 hi with hi | hi
    · exact h i hi
    · obtain rfl : i = ⟨k, hk⟩ := Fin.ext hi
      exact hw

/-- One turn: the byte `k` has not been touched by the turns before. -/
private theorem correctByte_corrected (S : Syndromes) (m : Message) {k : ℕ} (hk : k < MAX_MSG_LENGTH) (rc : Int) :
    correctByte S (corrected S m k, rc) k =
      some (corrected S m (k + 1), if weight (errorPattern S m ⟨k, hk⟩) ≤ CORRECTION then rc else -1) := by
  have hread : (corrected S m k).msg[k] = m.msg[k] := by
    rw [corrected, getElem_written, if_neg (Nat.lt_irrefl k)]
  have hmsg := written_set (fun i => m.msg[i.val] ^^^ (errorPattern S m i).toUInt8) m.msg hk
  have herror := written_set (fun i => if weight (errorPattern S m i) ≤ CORRECTION then (0 : UInt8) else 1)
    m.error hk
  rw [correctByte, dif_pos hk]
  have hcontrol : (corrected S m k).control = m.control := by rw [corrected]
  simp only [hread, hcontrol]
  have herr : lookup S (decodeLfsr P (codeword m.msg[k] m.control[k])) = errorPattern S m ⟨k, hk⟩ := by
    rw [errorPattern]
  rw [herr]
  by_cases hw : weight (errorPattern S m ⟨k, hk⟩) ≤ CORRECTION
  · rw [if_pos hw] at herror ⊢
    rw [if_pos hw, corrected, corrected, ← hmsg, ← herror]
  · rw [if_neg hw] at herror ⊢
    rw [if_neg hw, corrected, corrected, ← hmsg, ← herror]

theorem codeCorrectError_eq (S : Syndromes) {m : Message} (hlen : m.msgLength.toNat ≤ MAX_MSG_LENGTH) :
    codeCorrectError S m =
      some (corrected S m m.msgLength.toNat, if AllCorrectable S m m.msgLength.toNat then 0 else -1) := by
  obtain ⟨st, hst, hinv⟩ := foldlM_range (f := correctByte S) (s := (m, 0))
    (fun k st => st = (corrected S m k, if AllCorrectable S m k then 0 else -1)) (n := m.msgLength.toNat)
    (by
      have hzero : AllCorrectable S m 0 := fun i hi => absurd hi (Nat.not_lt_zero _)
      rw [if_pos hzero, corrected, written_zero, written_zero])
    (by
      rintro k hk st rfl
      have hk' : k < MAX_MSG_LENGTH := by omega
      refine ⟨_, correctByte_corrected S m hk' _, ?_⟩
      by_cases hw : weight (errorPattern S m ⟨k, hk'⟩) ≤ CORRECTION <;>
        simp [allCorrectable_succ hk', hw])
  rw [codeCorrectError, hst, hinv]

theorem codeCorrectError_length {S : Syndromes} {m : Message} {r : Message × Int}
    (h : codeCorrectError S m = some r) :
    m.msgLength.toNat ≤ MAX_MSG_LENGTH := by
  refine foldlM_range_of_some (fun k _ => k ≤ MAX_MSG_LENGTH) h (Nat.zero_le _) fun i _ st st' _ hstep => ?_
  unfold correctByte at hstep
  split at hstep
  · assumption
  · cases hstep

theorem errorPattern_zero (m : Message) (i : Fin MAX_MSG_LENGTH) : errorPattern zeroSyndromes m i = 0 := by
  rw [errorPattern, zeroSyndromes, lookup, Vector.getElem_replicate]

/-- With the table that was never created every message is accepted as it is. -/
theorem codeCorrectError_zero {m : Message} {r : Message × Int} (h : codeCorrectError zeroSyndromes m = some r) :
    r = ({ m with error := written (fun _ => 0) m.error m.msgLength.toNat }, 0) := by
  have hlen := codeCorrectError_length h
  have hweight : weight 0 ≤ CORRECTION := by decide
  have hall : AllCorrectable zeroSyndromes m m.msgLength.toNat := fun i _ => by rw [errorPattern_zero]; exact hweight
  have hmsg : written (fun i => m.msg[i.val] ^^^ (errorPattern zeroSyndromes m i).toUInt8) m.msg m.msgLength.toNat =
      m.msg := by
    apply Vector.ext
    intro i hi
    rw [getElem_written, errorPattern_zero]
    split
    · exact UInt8.xor_zero
    · rfl
  rw [codeCorrectError_eq _ hlen, if_pos hall, corrected, hmsg] at h
  simp only [errorPattern_zero, if_pos hweight] at h
  exact (Option.some.inj h).symm

/-! ### Noise -/

/-- `m` with the bits of `noise i` flipped in its codeword `i`, for every codeword of the text. -/
def addNoise (noise : ℕ → UInt16) (m : Message) : Message :=
  { m with
    msg := written (fun i => m.msg[i.val] ^^^ (noise i >>> 8).toUInt8) m.msg m.msgLength.toNat
    control := written (fun i => m.control[i.val] ^^^ (noise i).toUInt8) m.control m.msgLength.toNat }

/-- The message `m`, sent with control bytes through `noise`, is accepted and corrected to the text of `m`. -/
def CorrectsAll (noise : ℕ → UInt16) (m : Message) : Prop :=
  ∃ sent fixed, addControlBits m = some sent ∧
    codeCorrectError createSyndromeArray (addNoise noise sent) = some (fixed, 0) ∧
    ∀ i (h : i < MAX_MSG_LENGTH), i < m.msgLength.toNat → fixed.error[i] = 0 ∧ fixed.msg[i] = m.msg[i]

/-- A single flipped bit either hits the text byte or gives the control byte the syndrome of a pattern of several
bits. -/
private theorem noise_cases {w : UInt16} (h : bitCount w ≤ 1) :
    (w.toUInt8 = 0 ∧ weight (w >>> 8).toUInt8.toUInt16 ≤ CORRECTION) ∨
      ((w >>> 8).toUInt8 = 0 ∧ w.toUInt8 ≠ 0 ∧
        ∀ e, textSyndrome e = w.toUInt8 → CORRECTION < weight e.toUInt16) := by
  have htext : ∀ b < 8, (chgNthBit b 0).toUInt8 = 0 ∧
      weight (chgNthBit b 0 >>> 8).toUInt8.toUInt16 ≤ CORRECTION := by decide
  have hcontrol : ∀ b < 16, 8 ≤ b → (chgNthBit b 0 >>> 8).toUInt8 = 0 ∧ (chgNthBit b 0).toUInt8 ≠ 0 := by decide
  have hpattern : ∀ e : UInt8, ∀ b < 16, 8 ≤ b → textSyndrome e = (chgNthBit b 0).toUInt8 →
      CORRECTION < weight e.toUInt16 := forall_byte (by decide +kernel)
  rcases eq_of_bitCount_le_one h with rfl | ⟨b, hb, rfl⟩
  · exact Or.inl (by decide)
  · rcases Nat.lt_or_ge b 8 with h8 | h8
    · exact Or.inl (htext b h8)
    · exact Or.inr ⟨(hcontrol b hb h8).1, (hcontrol b hb h8).2, fun e he => hpattern e b hb h8 he⟩

/-- What a receiver makes of `m` sent through `noise`. -/
def received (noise : ℕ → UInt16) (m : Message) : Message :=
  corrected createSyndromeArray (addNoise noise (withControl m)) m.msgLength.toNat

theorem errorPattern_addNoise (noise : ℕ → UInt16) (m : Message) {i : Fin MAX_MSG_LENGTH}
    (hi : i.val < m.msgLength.toNat) {e : UInt8}
    (he : textSyndrome e = textSyndrome (noise i >>> 8).toUInt8 ^^^ (noise i).toUInt8) :
    errorPattern createSyndromeArray (addNoise noise (withControl m)) i = e.toUInt16 := by
  have hmsg : (addNoise noise (withControl m)).msg[i.val] = m.msg[i.val] ^^^ (noise i >>> 8).toUInt8 := by
    rw [addNoise, withControl, getElem_written, if_pos hi]
  have hcontrol : (addNoise noise (withControl m)).control[i.val] =
      textSyndrome m.msg[i.val] ^^^ (noise i).toUInt8 := by
    rw [addNoise, withControl, getElem_written, if_pos hi, getElem_written, if_pos hi]
  have hsyn : decodeLfsr P (codeword (addNoise noise (withControl m)).msg[i.val]
      (addNoise noise (withControl m)).control[i.val]) = textSyndrome e := by
    rw [hmsg, hcontrol, syndrome_of_noise, he]
  rw [errorPattern, hsyn, createSyndromeArray_get]

private theorem correctsAll_iff (noise : ℕ → UInt16) {m : Message} (hlen : m.msgLength.toNat ≤ MAX_MSG_LENGTH) :
    CorrectsAll noise m ↔
      AllCorrectable createSyndromeArray (addNoise noise (withControl m)) m.msgLength.toNat ∧
      ∀ i (h : i < MAX_MSG_LENGTH), i < m.msgLength.toNat →
        (received noise m).error[i] = 0 ∧ (received noise m).msg[i] = m.msg[i] := by
  have hlength : (addNoise noise (withControl m)).msgLength = m.msgLength := by rw [addNoise, withControl]
  have hfix := codeCorrectError_eq createSyndromeArray (m := addNoise noise (withControl m)) (by rwa [hlength])
  rw [hlength, ← received] at hfix
  constructor
  · rintro ⟨sent, fixed, hsent, hfixed, hall⟩
    obtain rfl : withControl m = sent := Option.some.inj ((addControlBits_eq hlen).symm.trans hsent)
    obtain ⟨rfl, hrc⟩ := Prod.mk.inj (Option.some.inj (hfix.symm.trans hfixed))
    refine ⟨?_, hall⟩
    by_contra hbad
    rw [if_neg hbad] at hrc
    exact absurd hrc (by decide)
  · rintro ⟨hok, hall⟩
    rw [if_pos hok] at hfix
    exact ⟨withControl m, received noise m, addControlBits_eq hlen, hfix, hall⟩

private theorem single_flip_corrected {noise : ℕ → UInt16} {m : Message} {i : ℕ} (hi : i < MAX_MSG_LENGTH)
    (hlt : i < m.msgLength.toNat) (hnoise : bitCount (noise i) ≤ 1) (hcontrol : (noise i).toUInt8 = 0) :
    weight (errorPattern createSyndromeArray (addNoise noise (withControl m)) ⟨i, hi⟩) ≤ CORRECTION ∧
      (received noise m).error[i] = 0 ∧ (received noise m).msg[i] = m.msg[i] := by
  have hpattern : errorPattern createSyndromeArray (addNoise noise (withControl m)) ⟨i, hi⟩ =
      (noise i >>> 8).toUInt8.toUInt16 :=
    errorPattern_addNoise noise m hlt (by rw [hcontrol, UInt8.xor_zero])
  have hweight : weight (noise i >>> 8).toUInt8.toUInt16 ≤ CORRECTION := by
    rcases noise_cases hnoise with ⟨-, hw⟩ | ⟨-, hne, -⟩
    · exact hw
    · exact absurd hcontrol hne
  have hmsg : (addNoise noise (withControl m)).msg[i] = m.msg[i] ^^^ (noise i >>> 8).toUInt8 := by
    rw [addNoise, withControl, getElem_written, if_pos hlt]
  refine ⟨hpattern ▸ hweight, ?_, ?_⟩
  · rw [received, corrected, getElem_written, if_pos hlt, hpattern, if_pos hweight]
  · rw [received, corrected, getElem_written, if_pos hlt, hpattern, hmsg, UInt8.toUInt8_toUInt16, UInt8.xor_assoc,
      UInt8.xor_self, UInt8.xor_zero]

/-- A flipped control bit is attributed to a pattern of several text bits. -/
private theorem control_flip_rejected {noise : ℕ → UInt16} {m : Message} {i : ℕ} (hi : i < MAX_MSG_LENGTH)
    (hlt : i < m.msgLength.toNat) (hnoise : bitCount (noise i) ≤ 1) (hcontrol : (noise i).toUInt8 ≠ 0) :
    CORRECTION < weight (errorPattern createSyndromeArray (addNoise noise (withControl m)) ⟨i, hi⟩) := by
  rcases noise_cases hnoise with ⟨hzero, -⟩ | ⟨htext, -, hall⟩
  · exact absurd hzero hcontrol
  · obtain ⟨e, he⟩ := textSyndrome_surjective (noise i).toUInt8
    have hpattern : errorPattern createSyndromeArray (addNoise noise (withControl m)) ⟨i, hi⟩ = e.toUInt16 := by
      refine errorPattern_addNoise noise m hlt ?_
      rw [htext, he, show textSyndrome 0 = 0 by decide, UInt8.zero_xor]
    rw [hpattern]
    exact hall e he

private theorem not_correctsAll {noise : ℕ → UInt16} {m : Message} (hlen : m.msgLength.toNat ≤ MAX_MSG_LENGTH)
    {i : ℕ} (hi : i < m.msgLength.toNat) (hnoise : bitCount (noise i) ≤ 1) (hcontrol : (noise i).toUInt8 ≠ 0) :
    ¬ CorrectsAll noise m := by
  rw [correctsAll_iff noise hlen]
  rintro ⟨hok, -⟩
  have hi' : i < MAX_MSG_LENGTH := Nat.lt_of_lt_of_le hi hlen
  exact absurd (hok ⟨i, hi'⟩ hi) (Nat.not_le.2 (control_flip_rejected hi' hi hnoise hcontrol))

/-- One flipped bit in each codeword is corrected exactly when no control bit is among them. -/
theorem single_flips_corrected_iff {noise : ℕ → UInt16} {m : Message} (hlen : m.msgLength.toNat ≤ MAX_MSG_LENGTH)
    (hnoise : ∀ i < m.msgLength.toNat, bitCount (noise i) ≤ 1) :
    CorrectsAll noise m ↔ ∀ i < m.msgLength.toNat, (noise i).toUInt8 = 0 := by
  constructor
  · intro h i hi
    by_contra hcontrol
    exact not_correctsAll hlen hi (hnoise i hi) hcontrol h
  · intro hcontrol
    have hone := fun i (hi : i < MAX_MSG_LENGTH) hlt => single_flip_corrected hi hlt (hnoise i hlt) (hcontrol i hlt)
    exact (correctsAll_iff noise hlen).2 ⟨fun i hi => (hone i i.2 hi).1, fun i hi hlt => (hone i hi hlt).2⟩

/-- A message of the single letter `a`. -/
def letterMessage : Message := { Message.zero with msgLength := 1, msg := overlay (Vector.replicate _ 0) (ascii "a") }

theorem single_flips_corrected_iff_letter :
    bitCount (chgNthBit 3 0) ≤ 1 ∧ CorrectsAll (fun _ => chgNthBit 3 0) letterMessage := by
  have hnoise : bitCount (chgNthBit 3 0) ≤ 1 := by decide
  exact ⟨hnoise, (single_flips_corrected_iff (m := letterMessage) (by decide) fun _ _ => hnoise).2 fun _ _ => by decide⟩

/-- The last control bit of the letter is flipped. -/
theorem control_flip_not_corrected :
    letterMessage.msgLength.toNat ≤ MAX_MSG_LENGTH ∧ bitCount (chgNthBit 15 0) ≤ 1 ∧
      ¬ CorrectsAll (fun _ => chgNthBit 15 0) letterMessage := by
  have hnoise : bitCount (chgNthBit 15 0) ≤ 1 := by decide
  exact ⟨by decide, hnoise, not_correctsAll (i := 0) (by decide) (by decide) hnoise (by decide)⟩

end NyanChat
