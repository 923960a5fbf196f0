import NyanChat.Message
import NyanChat.Library.Blocks

/-!
# Messages as bytes

The `sizeof(Message)` bytes that `send` writes and `recv` fills: the fields of the packed structure one after the
other, the integers with their least significant byte first.
-/

namespace NyanChat

/-- The bytes of a 32-bit integer. -/
def wordBytes (w : UInt32) : List UInt8 :=
  [w.toNat.toUInt8, (w.toNat / 256).toUInt8, (w.toNat / 65536).toUInt8, (w.toNat / 16777216).toUInt8]

def bytesWord (bytes : List UInt8) : UInt32 :=
  UInt32.ofNat (bytes.foldr (fun b n => b.toNat + 256 * n) 0)

theorem bytesWord_wordBytes (w : UInt32) : bytesWord (wordBytes w) = w := by
  apply UInt32.toNat_inj.1
  have hw := w.toNat_lt
  simp [bytesWord, wordBytes, UInt32.toNat_ofNat']
  omega

/-- The array of a byte list. -/
def bytesVector (n : ℕ) (bytes : List UInt8) : Vector UInt8 n := Vector.ofFn fun i => bytes.getD i 0

theorem bytesVector_toList {n : ℕ} (a : Vector UInt8 n) : bytesVector n a.toList = a := by
  apply Vector.ext
  intro i hi
  simp [bytesVector]

namespace Message

/-- The bytes of the fields. -/
def fields (m : Message) : List (List UInt8) :=
  [wordBytes m.msgType.toUInt32, wordBytes m.msgId.toUInt32, m.srcPseudo.toList,
    wordBytes m.proxyClientSocket.toUInt32, wordBytes m.dstFlag.toUInt32, m.dst.toList, wordBytes m.msgLength,
    m.msg.toList, m.control.toList, m.error.toList, wordBytes m.nbRetransmission.toUInt32]

/-- The sizes of the fields. -/
def fieldSizes : List ℕ :=
  [4, 4, MAX_NAME_LENGTH, 4, 4, MAX_NAME_LENGTH, 4, MAX_MSG_LENGTH, MAX_MSG_LENGTH, MAX_MSG_LENGTH, 4]

/-- `sizeof(Message)` -/
def size : ℕ := fieldSizes.sum

def toBytes (m : Message) : List UInt8 := m.fields.flatten

def ofFields : List (List UInt8) → Message
  | [msgType, msgId, srcPseudo, socket, dstFlag, dst, msgLength, msg, control, error, nbRetransmission] =>
    { msgType := (bytesWord msgType).toInt32
      msgId := (bytesWord msgId).toInt32
      srcPseudo := bytesVector _ srcPseudo
      proxyClientSocket := (bytesWord socket).toInt32
      dstFlag := (bytesWord dstFlag).toInt32
      dst := bytesVector _ dst
      msgLength := bytesWord msgLength
      msg := bytesVector _ msg
      control := bytesVector _ control
      error := bytesVector _ error
      nbRetransmission := (bytesWord nbRetransmission).toInt32 }
  | _ => zero

def ofBytes (bytes : List UInt8) : Message := ofFields (fieldSizes.splitLengths bytes)

theorem size_eq : size = 1688 := rfl

private theorem map_length_fields (m : Message) : m.fields.map List.length = fieldSizes := by
  simp [fields, fieldSizes, wordBytes]

theorem toBytes_length (m : Message) : m.toBytes.length = size := by
  rw [toBytes, List.length_flatten, map_length_fields, size]

private theorem ofFields_fields (m : Message) : ofFields m.fields = m := by
  simp [ofFields, fields, bytesWord_wordBytes, bytesVector_toList]

/-- The receiver of the bytes of a message has the message. -/
theorem ofBytes_toBytes (m : Message) : ofBytes m.toBytes = m := by
  rw [ofBytes, toBytes, ← map_length_fields m, Blocks.splitLengths_map_length, ofFields_fields]

end Message

/-- `recv` into a message: the received bytes replace the first ones, the others stay. -/
def recvInto (m : Message) (bytes : List UInt8) : Message :=
  Message.ofBytes (bytes ++ m.toBytes.drop bytes.length)

/-- A message received in one piece replaces whatever was there. -/
theorem recvInto_toBytes (m sent : Message) : recvInto m sent.toBytes = sent := by
  have hrest : m.toBytes.drop sent.toBytes.length = [] :=
    List.drop_eq_nil_of_le (by rw [Message.toBytes_length, Message.toBytes_length])
  rw [recvInto, hrest, List.append_nil, Message.ofBytes_toBytes]

end NyanChat
