import NyanChat.ErrorCorrection

/-!
# Noise

What `code_insert_error` makes of a message (`codeInsertError_eq`).  A text byte comes out as it went in exactly when
no call of `rand()` flips one of its eight bits (`noisyByte_eq_iff`).
-/

namespace NyanChat

open Loop

/-! ### The bits of a codeword -/

private theorem getLsbD_chgNthBit (w : UInt16) {n b : ℕ} (hn : n < 16) (hb : b < 16) :
    (chgNthBit b w).toBitVec.getLsbD (15 - n) = (w.toBitVec.getLsbD (15 - n) ^^ decide (n = b)) := by
  have hzero : chgNthBit b w = w ^^^ chgNthBit b 0 := by rw [chgNthBit, chgNthBit, UInt16.zero_xor]
  have hbit : (chgNthBit b 0).toBitVec.getLsbD (15 - n) = decide (n = b) := by
    rw [Bool.eq_iff_iff, ← getNthBit_eq_one, getNthBit_chgNthBit_zero hn hb, decide_eq_true_iff]
  rw [hzero, UInt16.toBitVec_xor, BitVec.getLsbD_xor, hbit]

/-- Each bit of a codeword is flipped when its call of `rand()` says so. -/
theorem getLsbD_flipBits (rands : ℕ → ℕ) (cw : UInt16) {n : ℕ} (hn : n < 16) :
    (flipBits rands cw).toBitVec.getLsbD (15 - n) = (cw.toBitVec.getLsbD (15 - n) ^^ isNoise (rands n)) := by
  have hall := foldl_range (f := fun cw b => if isNoise (rands b) then chgNthBit b cw else cw) (s := cw) (n := 16)
    (fun k w => ∀ n < 16, w.toBitVec.getLsbD (15 - n) =
      (cw.toBitVec.getLsbD (15 - n) ^^ (decide (n < k) && isNoise (rands n))))
    (fun n _ => by simp)
    (by
      intro b hb w hw n hn
      by_cases hnb : n = b
      · subst hnb
        cases hnoise : isNoise (rands n) <;> simp [hw n hn, getLsbD_chgNthBit w hn hn]
      · have hlt : decide (n < b + 1) = decide (n < b) := decide_eq_decide.2 (by omega)
        rw [hlt]
        cases hnoise : isNoise (rands b) <;> simp [hw n hn, getLsbD_chgNthBit w hn hb, hnb])
  have hbit := hall n hn
  rw [decide_eq_true hn, Bool.true_and] at hbit
  exact hbit

private theorem highByte_eq_iff (v w : UInt16) :
    (v >>> 8).toUInt8 = (w >>> 8).toUInt8 ↔
      ∀ n < 8, v.toBitVec.getLsbD (15 - n) = w.toBitVec.getLsbD (15 - n) := by
  have hbit : ∀ (u : UInt16) (i : ℕ), i < 8 → (u >>> 8).toUInt8.toBitVec.getLsbD i = u.toBitVec.getLsbD (8 + i) := by
    intro u i hi
    simp [hi]
  constructor
  · intro heq n hn
    have h := congrArg (fun x : UInt8 => x.toBitVec.getLsbD (7 - n)) heq
    simp only [hbit _ _ (show 7 - n < 8 by omega)] at h
    rwa [show 8 + (7 - n) = 15 - n by omega] at h
  · intro hall
    apply UInt8.toBitVec_inj.1
    apply BitVec.eq_of_getLsbD_eq
    intro i hi
    rw [hbit v i hi, hbit w i hi]
    have h := hall (7 - i) (by omega)
    rwa [show 15 - (7 - i) = 8 + i by omega] at h

private theorem highByte_codeword (text control : UInt8) : (codeword text control >>> 8).toUInt8 = text := by
  apply UInt8.toBitVec_inj.1
  apply BitVec.eq_of_getLsbD_eq
  intro i hi
  have h16 : 8 + i < 16 := by omega
  have hi16 : i < 16 := by omega
  rw [codeword_eq_xor]
  simp [textWord, hi, h16, hi16]

/-- The codeword `i` of a message after the noise. -/
def noisyWord (rands : ℕ → ℕ) (m : Message) (i : Fin MAX_MSG_LENGTH) : UInt16 :=
  flipBits (fun b => rands (16 * i.val + b)) (codeword (m.msg.get i) (m.control.get i))

/-- No call of `rand()` flips a bit of the text byte `i`. -/
def TextSpared (rands : ℕ → ℕ) (i : ℕ) : Prop := ∀ b < 8, isNoise (rands (16 * i + b)) = false

theorem noisyByte_eq_iff (rands : ℕ → ℕ) (m : Message) (i : Fin MAX_MSG_LENGTH) :
    (noisyWord rands m i >>> 8).toUInt8 = m.msg.get i ↔ TextSpared rands i := by
  have hcodeword := highByte_codeword (m.msg.get i) (m.control.get i)
  have hbyte := highByte_eq_iff (noisyWord rands m i) (codeword (m.msg.get i) (m.control.get i))
  rw [hcodeword] at hbyte
  refine hbyte.trans (forall₂_congr fun n hn => ?_)
  rw [noisyWord, getLsbD_flipBits _ _ (by omega)]
  cases isNoise (rands (16 * i.val + n)) <;> simp

/-! ### A whole message -/

/-- The message that `code_insert_error` leaves after `k` turns. -/
def disturbed (rands : ℕ → ℕ) (m : Message) (k : ℕ) : Message :=
  { m with
    msg := written (fun i => (noisyWord rands m i >>> 8).toUInt8) m.msg k
    control := written (fun i => (noisyWord rands m i &&& (0xff : UInt16)).toUInt8) m.control k }

section
variable (rands : ℕ → ℕ) (m : Message) (k : ℕ)

@[simp] theorem disturbed_msgType : (disturbed rands m k).msgType = m.msgType := by rw [disturbed]

@[simp] theorem disturbed_msgLength : (disturbed rands m k).msgLength = m.msgLength := by rw [disturbed]

@[simp] theorem disturbed_srcPseudo : (disturbed rands m k).srcPseudo = m.srcPseudo := by rw [disturbed]

@[simp] theorem disturbed_proxyClientSocket : (disturbed rands m k).proxyClientSocket = m.proxyClientSocket := by
  rw [disturbed]

@[simp] theorem disturbed_dstFlag : (disturbed rands m k).dstFlag = m.dstFlag := by rw [disturbed]

theorem disturbed_zero : disturbed rands m 0 = m := by rw [disturbed, written_zero, written_zero]

end

/-- One turn: the codeword `k` has not been touched by the turns before. -/
private theorem insertErrorByte_disturbed (rands : ℕ → ℕ) (m : Message) {k : ℕ} (hk : k < MAX_MSG_LENGTH) :
    insertErrorByte rands (disturbed rands m k) k = some (disturbed rands m (k + 1)) := by
  have hmsg : (disturbed rands m k).msg[k] = m.msg[k] := by
    rw [disturbed, getElem_written, if_neg (Nat.lt_irrefl k)]
  have hcontrol : (disturbed rands m k).control[k] = m.control[k] := by
    rw [disturbed, getElem_written, if_neg (Nat.lt_irrefl k)]
  have hword : flipBits (fun b => rands (16 * k + b)) (codeword m.msg[k] m.control[k]) =
      noisyWord rands m ⟨k, hk⟩ := by
    rw [noisyWord]
    rfl
  have hset := written_set (fun i => (noisyWord rands m i >>> 8).toUInt8) m.msg hk
  have hset' := written_set (fun i => (noisyWord rands m i &&& (0xff : UInt16)).toUInt8) m.control hk
  rw [insertErrorByte, dif_pos hk]
  simp only [hmsg, hcontrol, hword]
  rw [disturbed, disturbed, ← hset, ← hset']

theorem codeInsertError_eq (rands : ℕ → ℕ) {m : Message} (hlen : m.msgLength.toNat ≤ MAX_MSG_LENGTH) :
    codeInsertError rands m = some (disturbed rands m m.msgLength.toNat) := by
  obtain ⟨m', hm', hinv⟩ := foldlM_range (f := insertErrorByte rands) (s := m)
    (fun k s => s = disturbed rands m k) (n := m.msgLength.toNat)
    (disturbed_zero rands m).symm
    (by
      rintro k hk s rfl
      exact ⟨_, insertErrorByte_disturbed rands m (by omega), rfl⟩)
  rw [codeInsertError, hm', hinv]

theorem codeInsertError_length {rands : ℕ → ℕ} {m m' : Message} (h : codeInsertError rands m = some m') :
    m.msgLength.toNat ≤ MAX_MSG_LENGTH := by
  refine foldlM_range_of_some (fun k _ => k ≤ MAX_MSG_LENGTH) h (Nat.zero_le _) fun i _ s s' _ hstep => ?_
  unfold insertErrorByte at hstep
  split at hstep
  · assumption
  · cases hstep

end NyanChat
