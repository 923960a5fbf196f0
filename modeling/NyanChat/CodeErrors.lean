import NyanChat.Message
import NyanChat.Bits

/-!
# The error code

The functions of `code_errors.c`: the shift-register encoder and decoder of the polynomial code, the syndrome table,
and the loops that add, check and disturb the control bytes of a message.  A codeword is the text byte followed by
the control byte.
-/

namespace NyanChat

/-- `X^8 + X^7 + X^5 + X^4 + X^3 + 1` -/
def P : UInt16 := 0b110111001

def CORRECTION : ℕ := 1

abbrev Nc : ℕ := 256

/-- The table of the syndromes. -/
abbrev Syndromes := Vector UInt16 Nc

/-- The register and the shifted polynomial after turn `i` of the loop of `decode_lfsr`. -/
def lfsrStep (st : UInt16 × UInt16) (i : ℕ) : UInt16 × UInt16 :=
  (if getNthBit i st.1 ≠ 0 then st.1 ^^^ st.2 else st.1, st.2 >>> 1)

def decodeLfsr (P m : UInt16) : UInt8 := ((List.range 8).foldl lfsrStep (m, P <<< 7)).1.toUInt8

def encodeLfsr (P m : UInt16) : UInt16 := m + (decodeLfsr P m).toUInt16

/-- `S[syndrome]` -/
def lookup (S : Syndromes) (syndrome : UInt8) : UInt16 :=
  have h : syndrome.toNat < Nc := syndrome.toNat_lt
  S[syndrome.toNat]

/-- `S[syndrome] &= e` -/
def syndromeStep (S : Syndromes) (e : ℕ) : Syndromes :=
  let syndrome := decodeLfsr P (UInt16.ofNat e <<< 8)
  have h : syndrome.toNat < Nc := syndrome.toNat_lt
  S.set syndrome.toNat (lookup S syndrome &&& UInt16.ofNat e) h

/-- `create_syndrome_array`: each syndrome of a pattern on the text byte gets its pattern. -/
def createSyndromeArray : Syndromes :=
  (List.range (Nc - 1)).foldl syndromeStep (Vector.replicate Nc (UInt16.ofNat (Nc - 1)))

/-- The table of a program that never calls `create_syndrome_array`: a global starts with zeros. -/
def zeroSyndromes : Syndromes := Vector.replicate Nc 0

/-- `msg[i] << C`, as the 16-bit argument of `decode_lfsr`: the widened sign does not reach the low 16 bits. -/
def textWord (b : UInt8) : UInt16 := b.toUInt16 <<< 8

/-- One turn of `add_control_bits`. -/
def addControlByte (m : Message) (i : ℕ) : Option Message :=
  if h : i < MAX_MSG_LENGTH then some { m with control := m.control.set i (decodeLfsr P (textWord m.msg[i])) h }
  else none

def addControlBits (m : Message) : Option Message :=
  (List.range m.msgLength.toNat).foldlM addControlByte m

/-- `codeword(msg, i)` of a text byte and a control byte -/
def codeword (text control : UInt8) : UInt16 := textWord text + control.toUInt16

/-- One turn of `code_correct_error`, on the message and the return code. -/
def correctByte (S : Syndromes) (st : Message × Int) (i : ℕ) : Option (Message × Int) :=
  if h : i < MAX_MSG_LENGTH then
    let m := st.1
    let syndrome := decodeLfsr P (codeword m.msg[i] m.control[i])
    let err := lookup S syndrome
    let text := m.msg.set i (m.msg[i] ^^^ err.toUInt8) h
    if weight err ≤ CORRECTION then some ({ m with msg := text, error := m.error.set i 0 h }, st.2)
    else some ({ m with msg := text, error := m.error.set i 1 h }, -1)
  else none

/-- `code_correct_error` with the syndrome table `S`: the message it leaves and its return code. -/
def codeCorrectError (S : Syndromes) (m : Message) : Option (Message × Int) :=
  (List.range m.msgLength.toNat).foldlM (correctByte S) (m, 0)

/-- The largest result of `rand()`. -/
def RAND_MAX : ℕ := 2147483647

/-- `((double)rand() / RAND_MAX) < BIT_ERROR_RATE`, the rate being one hundredth. -/
def isNoise (r : ℕ) : Bool := 100 * r < RAND_MAX

/-- The bits of a codeword that 16 calls of `rand()` flip, the first one deciding bit 0. -/
def flipBits (rands : ℕ → ℕ) (cw : UInt16) : UInt16 :=
  (List.range 16).foldl (fun cw b => if isNoise (rands b) then chgNthBit b cw else cw) cw

/-- One turn of `code_insert_error`; `rands` are the results of all the calls of `rand()` in the loop. -/
def insertErrorByte (rands : ℕ → ℕ) (m : Message) (i : ℕ) : Option Message :=
  if h : i < MAX_MSG_LENGTH then
    let cw := flipBits (fun b => rands (16 * i + b)) (codeword m.msg[i] m.control[i])
    some { m with
      msg := m.msg.set i (cw >>> 8).toUInt8 h
      control := m.control.set i (cw &&& (0xff : UInt16)).toUInt8 h }
  else none

def codeInsertError (rands : ℕ → ℕ) (m : Message) : Option Message :=
  (List.range m.msgLength.toNat).foldlM (insertErrorByte rands) m

end NyanChat
