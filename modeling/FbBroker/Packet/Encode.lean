import FbBroker.Core.Bytes

/-!
Contract: MQTT packet types, messages and the encoders of `mqtt_encode.c`.

An encoder is modelled by the bytes it leaves at the start of its buffer; no
bytes where it returns 0.

Does not own the decoder, nor the work queue links of a message.
-/

set_option autoImplicit false

namespace FbBroker.Packet

/-- `msg_type_t`, with the enumerator that counts the types. -/
inductive MsgType where
  | none
  | connect
  | connack
  | publish
  | puback
  | pubrec
  | pubrel
  | pubcomp
  | subscribe
  | suback
  | unsubscribe
  | unsuback
  | pingreq
  | pingresp
  | disconnect
  | numTypes
deriving DecidableEq, Repr

/-- The enumerator of a value of the four type bits. -/
def MsgType.ofCode : Nat → MsgType
  | 0 => .none
  | 1 => .connect
  | 2 => .connack
  | 3 => .publish
  | 4 => .puback
  | 5 => .pubrec
  | 6 => .pubrel
  | 7 => .pubcomp
  | 8 => .subscribe
  | 9 => .suback
  | 10 => .unsubscribe
  | 11 => .unsuback
  | 12 => .pingreq
  | 13 => .pingresp
  | 14 => .disconnect
  | _ => .numTypes

def MsgType.code : MsgType → Nat
  | .none => 0
  | .connect => 1
  | .connack => 2
  | .publish => 3
  | .puback => 4
  | .pubrec => 5
  | .pubrel => 6
  | .pubcomp => 7
  | .subscribe => 8
  | .suback => 9
  | .unsubscribe => 10
  | .unsuback => 11
  | .pingreq => 12
  | .pingresp => 13
  | .disconnect => 14
  | .numTypes => 15

/-- `header_byte_t`. -/
structure Header where
  msgType : MsgType
  dup : Nat
  qos : Nat
  retain : Nat
deriving DecidableEq, Repr

/-- How the parser reads a header byte. -/
def Header.ofByte (byte : Byte) : Header where
  msgType := .ofCode (byte.toNat >>> 4)
  dup := if byte.toNat &&& 8 = 0 then 0 else 1
  qos := (byte.toNat >>> 1) &&& 3
  retain := if byte.toNat &&& 1 = 1 then 1 else 0

/-- The part of `message_st` that is sent: flags, topic and payload, whose
lengths are `topic_len` and `payload_len`. -/
structure Message where
  dup : Nat
  origQos : Nat
  retain : Nat
  packetId : Nat
  topic : List Byte
  payload : List Byte
deriving DecidableEq, Repr

/-! ### Fields -/

/-- The room `encode_publish` asks for: an upper bound of the packet's size. -/
def packetLen (remLen : Nat) : Nat :=
  let remLen := remLen + 1
  if remLen < 128 then remLen + 1
  else if remLen < 16384 then remLen + 2
  else if remLen < 2097151 then remLen + 3
  else remLen + 4

def encodeHeaderByte (type : MsgType) (dup qos retain : Nat) : Byte :=
  UInt8.ofNat ((type.code <<< 4) ||| (dup <<< 3) ||| (qos <<< 1) ||| retain)

/-- Seven bits a byte, low bits first; the top bit tells that more follow. -/
def encodeRemLen (length : Nat) : List Byte :=
  if length / 128 > 0 then UInt8.ofNat (length % 128 ||| 0x80) :: encodeRemLen (length / 128)
  else [UInt8.ofNat (length % 128)]
termination_by length
decreasing_by omega

def encodeShort (anInt : Nat) : List Byte :=
  [UInt8.ofNat (anInt / 256), UInt8.ofNat (anInt % 256)]

def encodeString (string : List Byte) : List Byte :=
  encodeShort string.length ++ string

/-! ### Packets -/

def mqttPingResponse : List Byte :=
  [UInt8.ofNat (MsgType.pingresp.code <<< 4), 0]

def encodeConack (sessionPresent rc : Byte) : List Byte :=
  [encodeHeaderByte .connack 0 0 0] ++ encodeRemLen 2 ++ [sessionPresent, rc]

def encodeAck (len : Nat) (packettype : MsgType) (dup packetid : Nat) : List Byte :=
  if len < 4 then []
  else
    [encodeHeaderByte packettype dup (if packettype = .pubrel then 1 else 0) 0] ++ encodeRemLen 2 ++
      encodeShort packetid

def publishLen (qos topicLen payloadLen : Nat) : Nat :=
  2 + topicLen + payloadLen + if qos > 0 then 2 else 0

def encodePublish (len : Nat) (mp : Message) (qos msgId : Nat) : List Byte :=
  let remLen := publishLen qos mp.topic.length mp.payload.length
  if packetLen remLen > len then []
  else
    [encodeHeaderByte .publish mp.dup qos mp.retain] ++ encodeRemLen remLen ++
      encodeString mp.topic ++ (if qos > 0 then encodeShort msgId else []) ++ mp.payload

def encodeSuback (buflen packetid : Nat) (grantedQoss : List Nat) : List Byte :=
  if buflen < 2 + grantedQoss.length then []
  else
    [UInt8.ofNat (MsgType.suback.code <<< 4)] ++ encodeRemLen (2 + grantedQoss.length) ++
      encodeShort packetid ++ grantedQoss.map UInt8.ofNat

def encodeUnsuback (packetid : Nat) : List Byte :=
  [UInt8.ofNat (MsgType.unsuback.code <<< 4)] ++ encodeRemLen 2 ++ encodeShort packetid

/-! ### What the fields decode to -/

theorem MsgType.ofCode_code (type : MsgType) : MsgType.ofCode type.code = type := by
  cases type <;> rfl

/-- The header byte is read back as it was built. -/
theorem Header.ofByte_encodeHeaderByte (type : MsgType) {dup qos retain : Nat} (dupBit : dup ≤ 1)
    (qosBits : qos ≤ 3) (retainBit : retain ≤ 1) :
    Header.ofByte (encodeHeaderByte type dup qos retain) = ⟨type, dup, qos, retain⟩ := by
  have dupCases : dup = 0 ∨ dup = 1 := by omega
  have qosCases : qos = 0 ∨ qos = 1 ∨ qos = 2 ∨ qos = 3 := by omega
  have retainCases : retain = 0 ∨ retain = 1 := by omega
  rcases dupCases with rfl | rfl <;> rcases qosCases with rfl | rfl | rfl | rfl <;>
    rcases retainCases with rfl | rfl <;> cases type <;> rfl

/-- The header of an encoded packet. -/
def headerOf (packet : List Byte) : Header :=
  Header.ofByte (packet.headD 0)

theorem headerOf_encodeConack (sessionPresent rc : Byte) :
    headerOf (encodeConack sessionPresent rc) = ⟨.connack, 0, 0, 0⟩ :=
  Header.ofByte_encodeHeaderByte .connack (by decide) (by decide) (by decide)

theorem headerOf_encodeAck {len : Nat} (room : 4 ≤ len) {packettype : MsgType}
    (notPubrel : packettype ≠ .pubrel) (packetid : Nat) :
    headerOf (encodeAck len packettype 0 packetid) = ⟨packettype, 0, 0, 0⟩ := by
  rw [encodeAck, if_neg (by omega), if_neg notPubrel]
  exact Header.ofByte_encodeHeaderByte packettype (by decide) (by decide) (by decide)

theorem headerOf_encodePublish {len : Nat} {mp : Message} {qos : Nat} (dupBit : mp.dup ≤ 1)
    (qosBits : qos ≤ 3) (retainBit : mp.retain ≤ 1) (msgId : Nat) :
    headerOf (encodePublish len mp qos msgId) = ⟨.publish, mp.dup, qos, mp.retain⟩ ∨
      encodePublish len mp qos msgId = [] := by
  unfold encodePublish
  dsimp only
  split
  · exact .inr rfl
  · exact .inl (Header.ofByte_encodeHeaderByte .publish dupBit qosBits retainBit)

theorem headerOf_encodeSuback {buflen : Nat} {packetid : Nat} {grantedQoss : List Nat}
    (encoded : encodeSuback buflen packetid grantedQoss ≠ []) :
    headerOf (encodeSuback buflen packetid grantedQoss) = ⟨.suback, 0, 0, 0⟩ := by
  unfold encodeSuback at encoded ⊢
  split
  · rename_i short
    exact absurd (if_pos short) encoded
  · show Header.ofByte (UInt8.ofNat (MsgType.suback.code <<< 4)) = _
    decide

theorem headerOf_encodeUnsuback (packetid : Nat) :
    headerOf (encodeUnsuback packetid) = ⟨.unsuback, 0, 0, 0⟩ := by
  show Header.ofByte (UInt8.ofNat (MsgType.unsuback.code <<< 4)) = _
  decide

theorem headerOf_mqttPingResponse : headerOf mqttPingResponse = ⟨.pingresp, 0, 0, 0⟩ := rfl

theorem encodeRemLen_eq (length : Nat) :
    encodeRemLen length =
      if length < 128 then [UInt8.ofNat length]
      else UInt8.ofNat (length % 128 + 128) :: encodeRemLen (length / 128) := by
  rw [encodeRemLen]
  have more : (length / 128 > 0) = ¬ length < 128 := by
    rw [eq_iff_iff]
    omega
  have topBit : length % 128 ||| 0x80 = length % 128 + 128 := by
    have small : length % 128 < 2 ^ 7 := Nat.mod_lt _ (by decide)
    rw [Nat.or_comm, ← Nat.two_pow_add_eq_or_of_lt small 1]
    omega
  by_cases short : length < 128
  · rw [if_neg (by simpa [more] using short), if_pos short, Nat.mod_eq_of_lt short]
  · rw [if_pos (by simpa [more] using short), if_neg short, topBit]

theorem encodeRemLen_ne_nil (length : Nat) : encodeRemLen length ≠ [] := by
  rw [encodeRemLen_eq]
  split <;> simp

/-- A length of `k + 1` digits to the base 128 takes no more bytes. -/
theorem length_encodeRemLen_le {k length : Nat} (small : length < 128 ^ (k + 1)) :
    (encodeRemLen length).length ≤ k + 1 := by
  induction k generalizing length with
  | zero =>
      rw [encodeRemLen_eq, if_pos (by simpa using small)]
      simp
  | succ k inductionHypothesis =>
      rw [encodeRemLen_eq]
      split
      · simp
      · have fewer : length / 128 < 128 ^ (k + 1) := by
          rw [Nat.div_lt_iff_lt_mul (by decide), ← Nat.pow_succ]
          exact small
        rw [List.length_cons]
        exact Nat.succ_le_succ (inductionHypothesis fewer)

/-- A packet that fits into the buffer by its size passes the check of
`encode_publish`, up to the sizes at which the estimate is one byte too large. -/
theorem packetLen_le {remLen len : Nat} (fits : 1 + (encodeRemLen remLen).length + remLen ≤ len)
    (room : 130 ≤ len) (small : len < 16384) : packetLen remLen ≤ len := by
  unfold packetLen
  rw [encodeRemLen_eq] at fits
  split at fits
  · simp only [List.length_singleton] at fits
    dsimp only
    split_ifs <;> omega
  · have := List.length_pos_iff.mpr (encodeRemLen_ne_nil (remLen / 128))
    simp only [List.length_cons] at fits
    dsimp only
    split_ifs <;> omega

/-- A PUBLISH is encoded if it fits the buffer. -/
theorem encodePublish_ne_nil_iff {len qos msgId : Nat} {mp : Message} :
    encodePublish len mp qos msgId ≠ [] ↔
      packetLen (publishLen qos mp.topic.length mp.payload.length) ≤ len := by
  unfold encodePublish
  dsimp only
  split
  · rename_i large
    simpa using large
  · rename_i room
    simpa using room

/-- A PUBLISH is as long as its length field says. -/
theorem length_encodePublish (len : Nat) (mp : Message) (qos msgId : Nat) :
    encodePublish len mp qos msgId = [] ∨
      packetLen (publishLen qos mp.topic.length mp.payload.length) ≤ len ∧
        (encodePublish len mp qos msgId).length =
          1 + (encodeRemLen (publishLen qos mp.topic.length mp.payload.length)).length +
            publishLen qos mp.topic.length mp.payload.length := by
  unfold encodePublish
  dsimp only
  split
  · exact .inl rfl
  · rename_i fits
    refine .inr ⟨by omega, ?_⟩
    generalize encodeRemLen _ = remLen
    unfold publishLen
    split <;> simp [encodeString, encodeShort] <;> omega

end FbBroker.Packet
