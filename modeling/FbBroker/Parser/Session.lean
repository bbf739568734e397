import Mathlib.Logic.Function.Basic
import FbBroker.Packet.Encode

/-!
Contract: the parser record of `mqtt_parser.h`.

Owns the states of the parser, the fields of `mqtt_parser_t` and the fields of
the client that the parser fills in, and the requests it hands to callbacks.

`connect`, `subscribe` and `publish` are members of a union. They are kept apart,
since each field is written before it is read within one packet, but for two of
`connect_st`. A CONNECT without a password leaves in `password` what was there
before, so the one member that reaches it, `qos` of a SUBSCRIBE, is written to
both. `will_topic` is never written; what it holds comes from members that
overlap it, pointers among them. It is copied to the will, whose topic no
function reads, and the theorems on CONNECT hold for any content of it.

Arrays are functions from indices, and each write states the size it is checked
against.
-/

set_option autoImplicit false

namespace FbBroker.Parser

open FbBroker.Packet

/-- `MAX_ID_LEN`. -/
def maxIdLen : Nat := 127
/-- `MAX_TOPIC_LEN`. -/
def maxTopicLen : Nat := 127
/-- `MAX_PAYLOAD_LEN`. -/
def maxPayloadLen : Nat := 4096
/-- `MAX_NUM_TOPICS`. -/
def maxNumTopics : Nat := 10

/-- The first bytes of an array. -/
def bytes (length : Nat) (array : Nat → Byte) : List Byte :=
  (List.range length).map array

inductive ConnectState where
  | packetId0 | packetId1
  | protocol0 | protocol1 | protocol2
  | version
  | flags
  | keepAlive0 | keepAlive1
  | clientId0 | clientId1 | clientId2
  | willTopic0 | willTopic1 | willTopic2
  | willPayload0 | willPayload1 | willPayload2
  | username0 | username1 | username2
  | password0 | password1 | password2
deriving DecidableEq, Repr

inductive SubscribeState where
  | packetId0 | packetId1
  | topic0 | topic1 | topic2
  | topicQos
deriving DecidableEq, Repr

inductive UnsubscribeState where
  | packetId0 | packetId1
  | topic0 | topic1 | topic2
deriving DecidableEq, Repr

inductive PublishState where
  | topic0 | topic1 | topic2
  | packetId0 | packetId1
  | payload
deriving DecidableEq, Repr

/-- The `S_` enumerators of `mqtt_parser.c`, grouped by packet. -/
inductive PState where
  | header
  | remLen
  | connect (state : ConnectState)
  | subscribe (state : SubscribeState)
  | unsubscribe (state : UnsubscribeState)
  | publish (state : PublishState)
deriving DecidableEq, Repr

/-- A `message_st` while the parser fills it. -/
structure Draft where
  topicLen : Nat
  payloadLen : Nat
  dup : Nat
  origQos : Nat
  retain : Nat
  packetId : Nat
  /-- `topic_len + 1` bytes -/
  topic : Nat → Byte
  /-- `payload_len + 1` bytes -/
  payload : Nat → Byte

/-- `message_create` when the allocation succeeds. -/
def messageCreate (topicLen payloadLen dup origQos retain packetId : Nat) : Draft where
  topicLen := topicLen
  payloadLen := payloadLen
  dup := dup
  origQos := origQos
  retain := retain
  packetId := packetId
  topic := fun _ => 0
  payload := fun _ => 0

def Draft.message (draft : Draft) : Message where
  dup := draft.dup
  origQos := draft.origQos
  retain := draft.retain
  packetId := draft.packetId
  topic := bytes draft.topicLen draft.topic
  payload := bytes draft.payloadLen draft.payload

/-- The fields of `connect_st` that are used. -/
structure ConnectSt where
  will : Bool
  usernamePresent : Bool
  passwordPresent : Bool
  /-- 7 bytes -/
  protocol : Nat → Byte
  u16 : Nat
  willTopicLen : Nat
  /-- `MAX_TOPIC_LEN + 1` bytes -/
  willTopic : Nat → Byte
  /-- `MAX_ID_LEN + 1` bytes -/
  password : Nat → Byte

/-- `subscribe_st`; its arrays have `MAX_NUM_TOPICS` elements. -/
structure SubscribeSt where
  packetId : Nat
  u16 : Nat
  numFilters : Nat
  filterLengths : Nat → Nat
  /-- each of `filter_lengths + 1` bytes -/
  filters : Nat → Nat → Byte
  qos : Nat → Nat

/-- What a write of `qos[n]` makes of `connect.password`: with pointers of eight
bytes, `qos` begins at 128 in the union and `password` at 146, so that they
overlap from the fifth filter on. -/
def overlayQos (n : Nat) (qos : Byte) (password : Nat → Byte) : Nat → Byte := fun i =>
  if 146 + i < 128 + 4 * n ∨ 128 + 4 * n + 4 ≤ 146 + i then password i
  else if 146 + i = 128 + 4 * n then qos
  else 0

/-- `publish_s`. -/
structure PublishSt where
  topicLen : Nat
  payloadLen : Nat
  /-- `MAX_TOPIC_LEN + 1` bytes -/
  topic : Nat → Byte
  mp : Option Draft

/-- The parser record, and the fields of the client it writes. -/
structure Session where
  state : PState
  header : Header
  /-- `uint32_t` -/
  remLen : Nat
  multiplier : Nat
  /-- `uint16_t` -/
  i : Nat
  connect : ConnectSt
  subscribe : SubscribeSt
  publish : PublishSt
  keepAlive : Nat
  clientIdLen : Nat
  /-- `MAX_ID_LEN + 1` bytes -/
  clientId : Nat → Byte
  /-- `MAX_TOPIC_LEN + 1` bytes -/
  willTopic : Nat → Byte
  willMp : Option Draft
  usernameLen : Nat
  /-- `MAX_ID_LEN + 1` bytes -/
  username : Nat → Byte

/-- The record after `memset` and `mqtt_parser_init`. -/
def mqttParserInit : Session where
  state := .header
  header := ⟨.none, 0, 0, 0⟩
  remLen := 0
  multiplier := 0
  i := 0
  connect := ⟨false, false, false, fun _ => 0, 0, 0, fun _ => 0, fun _ => 0⟩
  subscribe := ⟨0, 0, 0, fun _ => 0, fun _ _ => 0, fun _ => 0⟩
  publish := ⟨0, 0, fun _ => 0, none⟩
  keepAlive := 0
  clientIdLen := 0
  clientId := fun _ => 0
  willTopic := fun _ => 0
  willMp := none
  usernameLen := 0
  username := fun _ => 0

/-- The callbacks of `mqtt_parser_callbacks_t`; what they are given is in the
record. -/
inductive Request where
  | connect
  | subscribe
  | unsubscribe
  | publish
  | ping
deriving DecidableEq, Repr

/-- What one round of the parser's loop does next. -/
inductive Outcome where
  /-- go on with the next byte -/
  | next (s : Session)
  /-- return from `mqtt_parser_execute` -/
  | ret (s : Session) (rv : Int)
  /-- run a callback; return 1 if it fails, else go back to `S_HEADER` -/
  | call (s : Session) (request : Request)
  /-- close the client, go back to `S_HEADER` and return 0 -/
  | disconnect (s : Session)
  | stop (fault : Fault)

/-! ### Array lemmas -/

private theorem bytes_succ (length : Nat) (array : Nat → Byte) :
    bytes (length + 1) array = bytes length array ++ [array length] := by
  simp [bytes, List.range_succ]

@[simp] theorem length_bytes (length : Nat) (array : Nat → Byte) :
    (bytes length array).length = length := by
  simp [bytes]

/-- A write behind the bytes read does not change them. -/
theorem bytes_update_of_le {length index : Nat} (array : Nat → Byte) (byte : Byte)
    (behind : length ≤ index) :
    bytes length (Function.update array index byte) = bytes length array := by
  refine List.map_congr_left fun position inside => ?_
  rw [Function.update_of_ne]
  have := List.mem_range.mp inside
  omega

/-- Writing the next byte extends what has been written. -/
theorem bytes_succ_update (length : Nat) (array : Nat → Byte) (byte : Byte) :
    bytes (length + 1) (Function.update array length byte) = bytes length array ++ [byte] := by
  rw [bytes_succ, bytes_update_of_le array byte (Nat.le_refl length), Function.update_self]

theorem take_bytes {array : Nat → Byte} {k length : Nat} (inside : k ≤ length) :
    (bytes length array).take k = bytes k array := by
  rw [bytes, bytes, ← List.map_take, List.take_range, Nat.min_eq_left inside]

/-- The C string in an array is that of the bytes before a NUL. -/
theorem cstr_bytes {array : Nat → Byte} {k size : Nat} {text : List Byte} (inside : k < size)
    (reads : bytes k array = text) (nul : array k = 0) : cstr (bytes size array) = cstr text := by
  have front : (bytes size array).take (k + 1) = text ++ [0] := by
    rw [take_bytes inside, bytes_succ, reads, nul]
  rw [← List.take_append_drop (k + 1) (bytes size array), front, cstr_append_of_mem (by simp)]
  by_cases hasNul : (0 : Byte) ∈ text
  · rw [cstr_append_of_mem hasNul]
  · rw [cstr_append hasNul, cstr_eq_self hasNul]
    simp [cstr]

end FbBroker.Parser
