import FbBroker.Packet.Encode

/-!
Contract: the encoders of `mqtt_encode.c` as writers into a buffer.

A buffer is what has been written at each index, with the pointer the encoders move on.
Sizes are computed in `int` and `unsigned int`, as in C, and wrap.

Owns which bytes of its buffer an encoder writes, what it returns, and when its own
estimate of the packet's size is the size.

Does not own the contents of the packets, which are those of the encoders by lists.
-/

set_option autoImplicit false

namespace FbBroker.Packet

variable {bytes : List Byte}

/-! ### Buffers -/

/-- The bytes written so far by their index, and `ptr - buf`. -/
structure Buffer where
  mem : Nat → Option Byte
  ptr : Nat

namespace Buffer

/-- A buffer nothing has been written to. -/
def fresh : Buffer where
  mem _ := none
  ptr := 0

/-- `*ptr++ = byte`. -/
def put (buf : Buffer) (byte : Byte) : Buffer where
  mem := Function.update buf.mem buf.ptr (some byte)
  ptr := buf.ptr + 1

/-- `memcpy(ptr, bytes, n)` and `ptr += n`. -/
def copy (buf : Buffer) (bytes : List Byte) : Buffer :=
  bytes.foldl put buf

/-- The bytes have been written to the start of the buffer, and nothing else. -/
structure Holds (buf : Buffer) (bytes : List Byte) : Prop where
  mem : ∀ index, buf.mem index = bytes[index]?
  ptr : buf.ptr = bytes.length

private theorem holds_fresh : fresh.Holds [] :=
  ⟨fun _ => rfl, rfl⟩

theorem Holds.put {buf : Buffer} (holds : buf.Holds bytes) (byte : Byte) :
    (buf.put byte).Holds (bytes ++ [byte]) := by
  refine ⟨fun index => ?_, by simp [Buffer.put, holds.ptr]⟩
  by_cases last : index = bytes.length
  · rw [last]
    simp [Buffer.put, holds.ptr]
  · rw [Buffer.put, holds.ptr]
    dsimp only
    rw [Function.update_of_ne last, holds.mem]
    grind

theorem Holds.copy {buf : Buffer} {front : List Byte} (holds : buf.Holds front) (bytes : List Byte) :
    (buf.copy bytes).Holds (front ++ bytes) := by
  induction bytes generalizing buf front with
  | nil => simpa [Buffer.copy] using holds
  | cons byte bytes inductionHypothesis =>
      rw [List.append_cons]
      exact inductionHypothesis (holds.put byte)

end Buffer

/-! ### Machine integers -/

/-- A value in an `int`. -/
def int32 (value : Int) : Int :=
  value.bmod (2 ^ 32)

/-- A value in an `unsigned int`. -/
def uint32 (value : Int) : Nat :=
  (value % 2 ^ 32).toNat

/-- A value in an `unsigned char`. -/
def uchar (value : Int) : Byte :=
  UInt8.ofNat (value % 256).toNat

/-- `packet_len` on its machine types. -/
def packetLen32 (remLen : Nat) : Nat :=
  let remLen := int32 remLen
  let remLen := remLen + 1
  uint32 (if remLen < 128 then remLen + 1
    else if remLen < 16384 then remLen + 2
    else if remLen < 2097151 then remLen + 3
    else remLen + 4)

/-- `publish_len` on its machine types. -/
def publishLen32 (qos topicLen payloadLen : Nat) : Nat :=
  let len := 2 + (topicLen : Int) + int32 payloadLen
  uint32 (if qos > 0 then len + 2 else len)

private theorem int32_of_lt {value : Nat} (small : value < 2 ^ 31) : int32 value = value := by
  rw [int32, Int.bmod_def]
  split <;> omega

private theorem int32_of_ge {value : Nat} (large : 2 ^ 31 ≤ value) (machine : value < 2 ^ 32) :
    int32 value = (value : Int) - 2 ^ 32 := by
  rw [int32, Int.bmod_def]
  split <;> omega

private theorem packetLen32_eq {remLen : Nat} (small : remLen < 2 ^ 31) : packetLen32 remLen = packetLen remLen := by
  rw [packetLen32, packetLen, int32_of_lt small, uint32]
  split_ifs <;> omega

/-- The estimate for a length that is negative as an `int`. -/
theorem packetLen32_of_ge {remLen : Nat} (large : 2 ^ 31 ≤ remLen) (machine : remLen < 2 ^ 32) :
    packetLen32 remLen = (remLen + 2) % 2 ^ 32 := by
  rw [packetLen32, int32_of_ge large machine, uint32]
  split_ifs <;> omega

private theorem publishLen32_eq {qos topicLen payloadLen : Nat} (machine : payloadLen < 2 ^ 32) :
    publishLen32 qos topicLen payloadLen = publishLen qos topicLen payloadLen % 2 ^ 32 := by
  unfold publishLen publishLen32
  rcases Nat.lt_or_ge payloadLen (2 ^ 31) with small | large
  · rw [int32_of_lt small, uint32]
    split_ifs <;> omega
  · rw [int32_of_ge large machine, uint32]
    split_ifs <;> omega

/-! ### Encoders -/

namespace Buffer

/-- `encode_rem_len`: a negative length ends the loop like 0 does. -/
def encodeRemLen (buf : Buffer) (length : Int) : Buffer :=
  let d := uchar (length.tmod 128)
  if length.tdiv 128 > 0 then (buf.put (d ||| 0x80)).encodeRemLen (length.tdiv 128) else buf.put d
termination_by length.natAbs
decreasing_by
  rename_i more
  have positive : 0 < length.natAbs := by
    rcases Nat.eq_zero_or_pos length.natAbs with zero | positive
    · simp [Int.natAbs_eq_zero.mp zero] at more
    · exact positive
  rw [Int.natAbs_tdiv]
  exact Nat.div_lt_self positive (by decide)

def encodeShort (buf : Buffer) (anInt : Nat) : Buffer :=
  (buf.put (UInt8.ofNat (anInt / 256))).put (UInt8.ofNat (anInt % 256))

def encodeString (buf : Buffer) (string : List Byte) : Buffer :=
  let buf := buf.encodeShort string.length
  if string.length > 0 then buf.copy string else buf

/-- `return ptr - buf`, an `unsigned int`. -/
def ret (buf : Buffer) : Nat × Buffer :=
  (buf.ptr % 2 ^ 32, buf)

/-- A buffer that is too short is logged, and written to. -/
def encodeConack (_len : Nat) (sessionPresent rc : Byte) : Nat × Buffer :=
  let buf := fresh.put (encodeHeaderByte .connack 0 0 0)
  let buf := buf.encodeRemLen 2
  ((buf.put sessionPresent).put rc).ret

def encodeAck (len : Nat) (packettype : MsgType) (dup packetid : Nat) : Nat × Buffer :=
  if len < 4 then (0, fresh)
  else
    let buf := fresh.put (encodeHeaderByte packettype dup (if packettype = .pubrel then 1 else 0) 0)
    let buf := buf.encodeRemLen 2
    (buf.encodeShort packetid).ret

def encodePublish (len : Nat) (mp : Message) (qos msgId : Nat) : Nat × Buffer :=
  let remLen := publishLen32 qos mp.topic.length mp.payload.length
  if packetLen32 remLen > len then (0, fresh)
  else
    let buf := fresh.put (encodeHeaderByte .publish mp.dup qos mp.retain)
    let buf := buf.encodeRemLen (int32 remLen)
    let buf := buf.encodeString mp.topic
    let buf := if qos > 0 then buf.encodeShort msgId else buf
    (buf.copy mp.payload).ret

def encodeSuback (buflen : Nat) (packetid : Nat) (grantedQoss : List Nat) : Nat × Buffer :=
  let count := grantedQoss.length
  if buflen < int32 (2 + count) then (0, fresh)
  else
    let buf := fresh.put (UInt8.ofNat (MsgType.suback.code <<< 4))
    let buf := buf.encodeRemLen (int32 (2 + count))
    let buf := buf.encodeShort packetid
    (buf.copy (grantedQoss.map UInt8.ofNat)).ret

end Buffer

/-! ### Packets -/

/-- The bytes of an acknowledgement. -/
def ackBytes (packettype : MsgType) (dup packetid : Nat) : List Byte :=
  [encodeHeaderByte packettype dup (if packettype = .pubrel then 1 else 0) 0] ++ encodeRemLen 2 ++
    encodeShort packetid

/-- The bytes of a PUBLISH. -/
def publishBytes (mp : Message) (qos msgId : Nat) : List Byte :=
  [encodeHeaderByte .publish mp.dup qos mp.retain] ++
    encodeRemLen (publishLen qos mp.topic.length mp.payload.length) ++ encodeString mp.topic ++
    (if qos > 0 then encodeShort msgId else []) ++ mp.payload

/-- The bytes of a SUBACK. -/
def subackBytes (packetid : Nat) (grantedQoss : List Nat) : List Byte :=
  [UInt8.ofNat (MsgType.suback.code <<< 4)] ++ encodeRemLen (2 + grantedQoss.length) ++
    encodeShort packetid ++ grantedQoss.map UInt8.ofNat

private theorem encodeAck_eq (len : Nat) (packettype : MsgType) (dup packetid : Nat) :
    encodeAck len packettype dup packetid = if len < 4 then [] else ackBytes packettype dup packetid :=
  rfl

theorem encodePublish_eq (len : Nat) (mp : Message) (qos msgId : Nat) :
    encodePublish len mp qos msgId =
      if len < packetLen (publishLen qos mp.topic.length mp.payload.length) then []
      else publishBytes mp qos msgId :=
  rfl

theorem encodeSuback_eq (buflen packetid : Nat) (grantedQoss : List Nat) :
    encodeSuback buflen packetid grantedQoss =
      if buflen < 2 + grantedQoss.length then [] else subackBytes packetid grantedQoss :=
  rfl

/-- The size of a packet with this remaining length. -/
def packetSize (remLen : Nat) : Nat :=
  1 + (encodeRemLen remLen).length + remLen

private theorem length_publish (mp : Message) (qos msgId : Nat) (header : Byte) (digits : List Byte) :
    ([header] ++ digits ++ encodeString mp.topic ++ (if qos > 0 then encodeShort msgId else []) ++
      mp.payload).length = 1 + digits.length + publishLen qos mp.topic.length mp.payload.length := by
  unfold publishLen
  split <;> simp [encodeString, encodeShort] <;> omega

theorem length_suback (packetid : Nat) (grantedQoss : List Nat) (header : Byte) (digits : List Byte) :
    ([header] ++ digits ++ encodeShort packetid ++ grantedQoss.map UInt8.ofNat).length =
      1 + digits.length + (2 + grantedQoss.length) := by
  simp [encodeShort]
  omega

private theorem length_publishBytes (mp : Message) (qos msgId : Nat) :
    (publishBytes mp qos msgId).length =
      packetSize (publishLen qos mp.topic.length mp.payload.length) :=
  length_publish mp qos msgId _ _

private theorem length_subackBytes (packetid : Nat) (grantedQoss : List Nat) :
    (subackBytes packetid grantedQoss).length = packetSize (2 + grantedQoss.length) :=
  length_suback packetid grantedQoss _ _

private theorem encodeRemLen_two : encodeRemLen 2 = [2] := by
  rw [encodeRemLen_eq]
  rfl

/-! ### What the encoders write -/

/-- An encoder has written these bytes, and returns how many they are as an `unsigned int`. -/
structure Writes (result : Nat × Buffer) (bytes : List Byte) : Prop where
  holds : result.2.Holds bytes
  returned : result.1 = bytes.length % 2 ^ 32

theorem Buffer.Holds.writes {buf : Buffer} (holds : buf.Holds bytes) :
    Writes buf.ret bytes :=
  ⟨holds, congrArg (· % 2 ^ 32) holds.ptr⟩

private theorem writes_nothing : Writes (0, Buffer.fresh) [] :=
  ⟨Buffer.holds_fresh, rfl⟩

private theorem uchar_natCast (value : Nat) : uchar value = UInt8.ofNat value := by
  rw [uchar, show ((value : Int) % 256).toNat = value % 256 by omega]
  exact UInt8.ofNat_mod_size

/-- The bytes `encode_rem_len` writes for an `int`. -/
def remLenBytes (length : Int) : List Byte :=
  if length < 0 then [uchar (length.tmod 128)] else encodeRemLen length.toNat

private theorem remLenBytes_of_nonneg (length : Nat) : remLenBytes length = encodeRemLen length :=
  if_neg (Int.not_lt.mpr (Int.natCast_nonneg length))

theorem Buffer.Holds.encodeRemLen {buf : Buffer} (holds : buf.Holds bytes) (length : Int) :
    (buf.encodeRemLen length).Holds (bytes ++ remLenBytes length) := by
  rcases Int.lt_or_le length 0 with negative | nonneg
  · have last : ¬ length.tdiv 128 > 0 := by grind
    rw [Buffer.encodeRemLen, if_neg last, remLenBytes, if_pos negative]
    exact holds.put _
  · obtain ⟨length, rfl⟩ := Int.eq_ofNat_of_zero_le nonneg
    rw [remLenBytes_of_nonneg]
    induction length using Nat.strongRecOn generalizing buf bytes with
    | ind length inductionHypothesis =>
        have digit : ((length : Int).tmod 128) = ((length % 128 : Nat) : Int) := rfl
        have digits : ((length : Int).tdiv 128) = ((length / 128 : Nat) : Int) := rfl
        rw [Buffer.encodeRemLen, Packet.encodeRemLen, digit, digits, uchar_natCast]
        by_cases more : length / 128 > 0
        · rw [if_pos (by exact_mod_cast more), if_pos more, UInt8.ofNat_or, List.append_cons]
          exact inductionHypothesis (length / 128) (by omega) (holds.put _) (Int.natCast_nonneg _)
        · rw [if_neg (by exact_mod_cast more), if_neg more]
          exact holds.put _

theorem Buffer.Holds.encodeShort {buf : Buffer} (holds : buf.Holds bytes) (anInt : Nat) :
    (buf.encodeShort anInt).Holds (bytes ++ Packet.encodeShort anInt) := by
  have written := (holds.put (UInt8.ofNat (anInt / 256))).put (UInt8.ofNat (anInt % 256))
  rwa [List.append_assoc] at written

theorem Buffer.Holds.encodeString {buf : Buffer} (holds : buf.Holds bytes)
    (string : List Byte) : (buf.encodeString string).Holds (bytes ++ Packet.encodeString string) := by
  rw [Packet.encodeString, ← List.append_assoc]
  have short := holds.encodeShort string.length
  unfold Buffer.encodeString
  dsimp only
  split
  · exact short.copy string
  · rename_i empty
    obtain rfl : string = [] := List.eq_nil_of_length_eq_zero (by omega)
    rwa [List.append_nil]

private theorem writes_encodeConack (len : Nat) (sessionPresent rc : Byte) :
    Writes (Buffer.encodeConack len sessionPresent rc) (encodeConack sessionPresent rc) := by
  have header := Buffer.holds_fresh.put (encodeHeaderByte .connack 0 0 0)
  have written := (((header.encodeRemLen (2 : Nat)).put sessionPresent).put rc).writes
  rw [remLenBytes_of_nonneg] at written
  rwa [List.append_assoc] at written

private theorem writes_encodeAck (len : Nat) (packettype : MsgType) (dup packetid : Nat) :
    Writes (Buffer.encodeAck len packettype dup packetid) (encodeAck len packettype dup packetid) := by
  unfold Buffer.encodeAck encodeAck
  split
  · exact writes_nothing
  · have front := (Buffer.holds_fresh.put
      (encodeHeaderByte packettype dup (if packettype = .pubrel then 1 else 0) 0)).encodeRemLen (2 : Nat)
    rw [remLenBytes_of_nonneg] at front
    exact (front.encodeShort packetid).writes

/-- What `encode_suback` writes behind its check. -/
def subackWritten (packetid : Nat) (grantedQoss : List Nat) : List Byte :=
  [UInt8.ofNat (MsgType.suback.code <<< 4)] ++ remLenBytes (int32 (2 + grantedQoss.length)) ++
    encodeShort packetid ++ grantedQoss.map UInt8.ofNat

private theorem writes_encodeSuback (buflen packetid : Nat) (grantedQoss : List Nat) :
    Writes (Buffer.encodeSuback buflen packetid grantedQoss)
      (if buflen < (int32 (2 + grantedQoss.length)).toNat then []
        else subackWritten packetid grantedQoss) := by
  unfold Buffer.encodeSuback
  dsimp only
  by_cases short : (buflen : Int) < int32 (2 + grantedQoss.length)
  · rw [if_pos short, if_pos (by omega)]
    exact writes_nothing
  · rw [if_neg short, if_neg (by omega)]
    exact ((((Buffer.holds_fresh.put _).encodeRemLen _).encodeShort packetid).copy _).writes

/-- What `encode_publish` writes behind its check, with the length field it computed. -/
def publishWritten (mp : Message) (qos msgId : Nat) : List Byte :=
  [encodeHeaderByte .publish mp.dup qos mp.retain] ++
    remLenBytes (int32 (publishLen32 qos mp.topic.length mp.payload.length)) ++ encodeString mp.topic ++
    (if qos > 0 then encodeShort msgId else []) ++ mp.payload

private theorem writes_encodePublish (len : Nat) (mp : Message) (qos msgId : Nat) :
    Writes (Buffer.encodePublish len mp qos msgId)
      (if len < packetLen32 (publishLen32 qos mp.topic.length mp.payload.length) then []
        else publishWritten mp qos msgId) := by
  unfold Buffer.encodePublish publishWritten
  dsimp only
  split
  · exact writes_nothing
  · have front := ((Buffer.holds_fresh.put (encodeHeaderByte .publish mp.dup qos mp.retain)).encodeRemLen
      (int32 (publishLen32 qos mp.topic.length mp.payload.length))).encodeString mp.topic
    split
    · exact ((front.encodeShort msgId).copy mp.payload).writes
    · rw [List.append_nil]
      exact (front.copy mp.payload).writes

/-- Below 2^31 bytes the buffer gets the packet of the encoder by lists. -/
theorem writes_encodePublish_small {mp : Message} {qos : Nat}
    (small : publishLen qos mp.topic.length mp.payload.length < 2 ^ 31) (len msgId : Nat) :
    Writes (Buffer.encodePublish len mp qos msgId) (encodePublish len mp qos msgId) := by
  have machine : mp.payload.length < 2 ^ 32 := by
    unfold publishLen at small
    omega
  have length : publishLen32 qos mp.topic.length mp.payload.length =
      publishLen qos mp.topic.length mp.payload.length := by
    rw [publishLen32_eq machine, Nat.mod_eq_of_lt (by omega)]
  have writes := writes_encodePublish len mp qos msgId
  rw [publishWritten, length, packetLen32_eq small, int32_of_lt small, remLenBytes_of_nonneg] at writes
  exact writes

/-! ### Respecting the length of the buffer -/

/-- An encoder respects the length it is given: it writes no byte outside, returns exactly
the number of bytes written, and 0 exactly if the packet is longer than the buffer. -/
structure Respects (len : Nat) (result : Nat × Buffer) (packet : List Byte) : Prop where
  inside : ∀ index, len ≤ index → result.2.mem index = none
  returned : ∀ index, result.2.mem index ≠ none ↔ index < result.1
  zero : result.1 = 0 ↔ len < packet.length

theorem Writes.respects_iff {result : Nat × Buffer} (writes : Writes result bytes)
    {len : Nat} (machine : len < 2 ^ 32) {packet : List Byte} :
    Respects len result packet ↔ bytes.length ≤ len ∧ (bytes.length = 0 ↔ len < packet.length) := by
  have written : ∀ index, result.2.mem index = none ↔ bytes.length ≤ index := by
    intro index
    rw [writes.holds.mem, List.getElem?_eq_none_iff]
  have returned : bytes.length ≤ len → result.1 = bytes.length := by
    intro inside
    rw [writes.returned, Nat.mod_eq_of_lt (by omega)]
  constructor
  · intro respects
    have inside := (written len).mp (respects.inside len le_rfl)
    exact ⟨inside, returned inside ▸ respects.zero⟩
  · rintro ⟨inside, zero⟩
    refine ⟨fun index outside => (written index).mpr (inside.trans outside), fun index => ?_, ?_⟩
    · rw [Ne, written, returned inside, Nat.not_le]
    · rw [returned inside]
      exact zero

/-- An encoder that asks for `room` before it writes. -/
theorem respects_guarded {len room : Nat} (machine : len < 2 ^ 32) {result : Nat × Buffer}
    {bytes packet : List Byte} (some : 0 < bytes.length)
    (writes : Writes result (if len < room then [] else bytes)) :
    Respects len result packet ↔ (len < room → len < packet.length) ∧
      (room ≤ len → bytes.length ≤ len ∧ packet.length ≤ len) := by
  rw [writes.respects_iff machine]
  split
  · simp
    omega
  · omega

/-! ### The estimates -/

/-- The length of `k + 1` digits to the base 128 takes more than `k` bytes. -/
theorem lt_length_encodeRemLen {k length : Nat} (large : 128 ^ k ≤ length) :
    k < (encodeRemLen length).length := by
  induction k generalizing length with
  | zero => exact List.length_pos_iff.mpr (encodeRemLen_ne_nil length)
  | succ k inductionHypothesis =>
      have more : 128 ^ k ≤ length / 128 := by
        rw [Nat.le_div_iff_mul_le (by decide), ← Nat.pow_succ]
        exact large
      have two : ¬ length < 128 := by
        have := Nat.one_le_pow k 128 (by decide)
        rw [Nat.pow_succ] at large
        omega
      rw [encodeRemLen_eq, if_neg two, List.length_cons]
      exact Nat.succ_lt_succ (inductionHypothesis more)

private theorem length_encodeRemLen_eq {k length : Nat} (large : 128 ^ k ≤ length) (small : length < 128 ^ (k + 1)) :
    (encodeRemLen length).length = k + 1 :=
  Nat.le_antisymm (length_encodeRemLen_le small) (lt_length_encodeRemLen large)

/-- The remaining lengths at which `packet_len` takes one byte more than the packet. -/
def overestimated : List Nat :=
  [127, 16383, 2097150, 2097151]

private theorem packetSize_of_ge {remLen : Nat} (large : 2 ^ 28 ≤ remLen) (small : remLen < 2 ^ 35) :
    packetSize remLen = remLen + 6 := by
  rw [packetSize, length_encodeRemLen_eq (show 128 ^ 4 ≤ remLen by omega) (by omega)]
  omega

/-- The estimate is at most one byte too large below 2^28, and one byte too small above. -/
theorem packetLen_eq {remLen : Nat} (small : remLen < 2 ^ 35) :
    (remLen ∈ overestimated ∧ remLen < 2 ^ 28 ∧ packetLen remLen = packetSize remLen + 1) ∨
      (remLen ∉ overestimated ∧ remLen < 2 ^ 28 ∧ packetLen remLen = packetSize remLen) ∨
      (remLen ∉ overestimated ∧ 2 ^ 28 ≤ remLen ∧ packetLen remLen = remLen + 5) := by
  unfold packetLen packetSize overestimated
  simp only [List.mem_cons, List.not_mem_nil, or_false]
  rcases Nat.lt_or_ge remLen 128 with one | two
  · rw [encodeRemLen_eq, if_pos one, List.length_singleton]
    split_ifs <;> omega
  rcases Nat.lt_or_ge remLen 16384 with two' | three
  · rw [length_encodeRemLen_eq (show 128 ^ 1 ≤ remLen by omega) (by omega)]
    split_ifs <;> omega
  rcases Nat.lt_or_ge remLen 2097152 with three' | four
  · rw [length_encodeRemLen_eq (show 128 ^ 2 ≤ remLen by omega) (by omega)]
    split_ifs <;> omega
  rcases Nat.lt_or_ge remLen (2 ^ 28) with four' | five
  · rw [length_encodeRemLen_eq (show 128 ^ 3 ≤ remLen by omega) (by omega)]
    split_ifs <;> omega
  · split_ifs <;> omega

/-! ### The encoders -/

/-- The lengths of a buffer that `encode_publish` respects for a PUBLISH with this remaining
length: `packet_len` is the size of the packet up to one byte below 2^31, a length field of one
byte is written above, and from 2^32 - 2 on the estimate wraps. -/
def PublishFits (len remLen : Nat) : Prop :=
  if remLen < 2 ^ 28 then remLen ∈ overestimated → len ≠ packetSize remLen
  else if remLen < 2 ^ 31 then len ≠ remLen + 5
  else if remLen < 2 ^ 32 - 2 then len < remLen + 2 ∨ remLen + 6 ≤ len
  else if remLen < 2 ^ 32 then len < remLen + 2 - 2 ^ 32
  else len < packetLen (remLen - 2 ^ 32)

private theorem encodePublish_respects_iff {len : Nat} (machine : len < 2 ^ 32) (mp : Message) (qos msgId : Nat)
    (topic : mp.topic.length < 2 ^ 16) (payload : mp.payload.length < 2 ^ 32) :
    Respects len (Buffer.encodePublish len mp qos msgId) (publishBytes mp qos msgId) ↔
      PublishFits len (publishLen qos mp.topic.length mp.payload.length) := by
  have length : (publishWritten mp qos msgId).length = _ := length_publish mp qos msgId _ _
  rw [respects_guarded machine (by omega) (writes_encodePublish len mp qos msgId), length,
    length_publishBytes, publishLen32_eq payload]
  have bound : publishLen qos mp.topic.length mp.payload.length < 2 ^ 32 + 2 ^ 17 := by
    unfold publishLen
    split <;> omega
  generalize publishLen qos mp.topic.length mp.payload.length = remLen at bound
  unfold PublishFits
  rcases Nat.lt_or_ge remLen (2 ^ 31) with small | large
  · -- nothing wraps
    rw [Nat.mod_eq_of_lt (by omega), packetLen32_eq small, int32_of_lt small, remLenBytes_of_nonneg,
      ← packetSize]
    rcases packetLen_eq (show remLen < 2 ^ 35 by omega) with
      ⟨listed, below, same⟩ | ⟨listed, below, same⟩ | ⟨-, above, same⟩
    · rw [if_pos below]
      simp only [listed, true_imp_iff]
      omega
    · rw [if_pos below]
      simp only [listed, false_imp_iff, iff_true]
      omega
    · rw [if_neg (Nat.not_lt.mpr above), if_pos small, packetSize_of_ge above (by omega)]
      omega
  · rw [packetSize_of_ge (by omega) (by omega), if_neg (by omega), if_neg (by omega)]
    by_cases negative : remLen < 2 ^ 32
    · rw [Nat.mod_eq_of_lt negative, packetLen32_of_ge large negative, int32_of_ge large negative,
        remLenBytes, if_pos (by omega), List.length_singleton, if_pos negative]
      split_ifs <;> omega
    · have wrapped : remLen % 2 ^ 32 = remLen - 2 ^ 32 := by omega
      rw [wrapped, packetLen32_eq (by omega), if_neg (by omega), if_neg negative]
      omega

/-- `2 + count` must be an `int`; then the check asks for two bytes too few. -/
theorem encodeSuback_respects_iff {len : Nat} (machine : len < 2 ^ 31) (packetid : Nat)
    (grantedQoss : List Nat) (count : grantedQoss.length < 2 ^ 31) :
    Respects len (Buffer.encodeSuback len packetid grantedQoss) (subackBytes packetid grantedQoss) ↔
      2 + grantedQoss.length < 2 ^ 31 ∧
        (len < 2 + grantedQoss.length ∨ packetSize (2 + grantedQoss.length) ≤ len) := by
  have cast : (2 + grantedQoss.length : Int) = ((2 + grantedQoss.length : Nat) : Int) := by omega
  have length : (subackWritten packetid grantedQoss).length = _ := length_suback packetid grantedQoss _ _
  rw [respects_guarded (by omega) (by omega) (writes_encodeSuback len packetid grantedQoss), length,
    length_subackBytes, cast]
  rcases Nat.lt_or_ge (2 + grantedQoss.length) (2 ^ 31) with small | large
  · rw [int32_of_lt small, remLenBytes_of_nonneg, ← packetSize, Int.toNat_natCast]
    have : 2 + grantedQoss.length < packetSize (2 + grantedQoss.length) := by
      unfold packetSize
      omega
    omega
  · rw [int32_of_ge large (by omega)]
    omega

end FbBroker.Packet
