import Mathlib.Data.Nat.Digits.Lemmas
import FbBroker.Parser.Bounds

/-!
Contract: the length arithmetic of the parser.

Owns the bytes of the remaining length and their MQTT value, the subtractions each
round makes from it, and the streams in which none of this arithmetic wraps around:
those whose fixed headers have no fifth length byte, whose SUBSCRIBE and UNSUBSCRIBE
packets declare room for a packet id, and whose PUBLISH packets declare room for the
topic they announce. The parser checks none of the three.

Does not own the account of the bytes behind the remaining length.
-/

set_option autoImplicit false

namespace FbBroker.Parser

open FbBroker.Packet FbBroker.Lib

variable {allowAnonymous mallocOk : Bool} {s : Session} {b : Byte} {bytes : List Byte}

/-! ### Remaining lengths -/

/-- `(*buf & 128) != 0`. -/
def continues (b : Byte) : Bool :=
  b.toNat &&& 128 ≠ 0

/-- The value MQTT gives the bytes of a remaining length: seven bits each, the lowest
first. -/
def mqttLength (bytes : List Byte) : Nat :=
  Nat.ofDigits 128 (bytes.map fun b => b.toNat % 128)

/-- A stream and the bytes of the last remaining length in it. -/
structure Measured where
  stream : Stream
  lengthBytes : List Byte

abbrev Measured.session (m : Measured) : Session :=
  m.stream.session

/-- The length bytes behind one more byte. -/
def Measured.lengthBytesAfter (m : Measured) (b : Byte) : List Byte :=
  match m.session.state with
  | .header => []
  | .remLen => m.lengthBytes ++ [b]
  | _ => m.lengthBytes

def Measured.step (allowAnonymous : Bool) (m : Measured) (input : Input) : Option Measured :=
  (m.stream.step allowAnonymous input).map fun stream => ⟨stream, m.lengthBytesAfter input.byte⟩

/-- The streams of `streams`, measured. -/
def measured (allowAnonymous : Bool) : System Measured Input where
  init m := m = ⟨.initial, []⟩
  step := Measured.step allowAnonymous

/-! ### Exact arithmetic -/

/-- What a PUBLISH has behind its length beside the topic and the payload. -/
def publishOverhead (s : Session) : Nat :=
  if s.header.qos ≠ 0 then 4 else 2

/-- The subtractions of a round, as minuend and amount. -/
def subtractions (s : Session) (b : Byte) : List (Nat × Nat) :=
  match s.state with
  | .subscribe .packetId1 => [(s.remLen, 2)]
  | .unsubscribe .packetId1 => [(s.remLen, 2)]
  | .subscribe .topicQos =>
      if b.toNat > 2 then [] else [(s.remLen, s.subscribe.filterLengths s.subscribe.numFilters + 3)]
  | .unsubscribe .topic2 =>
      if incr16 s.subscribe.u16 = s.subscribe.filterLengths s.subscribe.numFilters then
        [(s.remLen, s.subscribe.filterLengths s.subscribe.numFilters + 2)]
      else []
  | .publish .topic2 =>
      if incr16 s.i = s.publish.topicLen then [(s.remLen, s.publish.topicLen + publishOverhead s)] else []
  | _ => []

/-- What they are for: the payload length of a PUBLISH, the remaining length of another
packet. -/
def counter (state : PState) (s : Session) : Nat :=
  match state with
  | .publish _ => s.publish.payloadLen
  | _ => s.remLen

/-- The next length byte is one of at most four, and `rem_len` and `multiplier` take it
in without an overflow. -/
structure TakesLength (bytes : List Byte) (s : Session) (b : Byte) : Prop where
  short : (bytes ++ [b]).length ≤ 4
  continued : ∀ byte ∈ bytes, continues byte
  product : (b.toNat &&& 127) * s.multiplier < 2 ^ 31
  multiplier : s.multiplier * 128 < 2 ^ 31
  value : s.remLen + (b.toNat &&& 127) * s.multiplier = mqttLength (bytes ++ [b])
  small : mqttLength (bytes ++ [b]) < 2 ^ 28

/-- The bytes are a whole remaining length of at most four, and this is their value. -/
structure Decoded (bytes : List Byte) (declared : Nat) : Prop where
  short : bytes.length ≤ 4
  ends : ∃ front last, bytes = front ++ [last] ∧ (∀ byte ∈ front, continues byte) ∧ continues last = false
  value : declared = mqttLength bytes
  small : declared < 2 ^ 28

/-- The arithmetic of the round over this byte is exact, and the packet it belongs to
has the length it declares. -/
structure Exact (m : Measured) (b : Byte) : Prop where
  length : m.session.state = .remLen → TakesLength m.lengthBytes m.session b
  declared : m.session.state.packet ≠ none → Decoded m.lengthBytes m.stream.frame.declared
  subtraction : ∀ minuend amount, (minuend, amount) ∈ subtractions m.session b → amount ≤ minuend

/-! ### Lengths that fit -/

/-- The packet types that begin with a packet id. -/
def beginsWithId (type : MsgType) : Bool :=
  type == .subscribe || type == .unsubscribe

/-- A length byte ends the remaining length or is not the fourth; a SUBSCRIBE or an
UNSUBSCRIBE declares at least the two bytes of its packet id; a PUBLISH declares at least
the fields in front of its payload. -/
def LengthsFit (m : Measured) (input : Input) : Prop :=
  match m.session.state with
  | .remLen =>
      if continues input.byte then m.lengthBytes.length < 3
      else beginsWithId m.session.header.msgType → 2 ≤ mqttLength (m.lengthBytes ++ [input.byte])
  | .publish .topic1 =>
      low m.session.publish.topicLen input.byte + publishOverhead m.session ≤ m.stream.frame.declared
  | _ => True

instance (m : Measured) (input : Input) : Decidable (LengthsFit m input) := by
  unfold LengthsFit
  split <;> infer_instance

/-! ### Decoding -/

private theorem mqttLength_append (bytes : List Byte) (b : Byte) :
    mqttLength (bytes ++ [b]) = mqttLength bytes + b.toNat % 128 * 128 ^ bytes.length := by
  rw [mqttLength, List.map_append, Nat.ofDigits_append, List.length_map, List.map_singleton,
    Nat.ofDigits_singleton, Nat.mul_comm (128 ^ bytes.length)]
  rfl

theorem mqttLength_lt (bytes : List Byte) : mqttLength bytes < 128 ^ bytes.length := by
  have below := Nat.ofDigits_lt_base_pow_length (show 1 < 128 by decide)
    (l := bytes.map fun b => b.toNat % 128) (by
      intro digit member
      obtain ⟨b, -, rfl⟩ := List.mem_map.mp member
      exact Nat.mod_lt _ (by decide))
  rwa [List.length_map] at below

private theorem mqttLength_small (short : bytes.length ≤ 4) : mqttLength bytes < 2 ^ 28 :=
  (mqttLength_lt bytes).trans_le (Nat.pow_le_pow_right (by decide) short)

/-- At most three length bytes have been read, and all of them continue. -/
structure ReadsLength (bytes : List Byte) (s : Session) : Prop where
  short : bytes.length ≤ 3
  continued : ∀ byte ∈ bytes, continues byte
  remLen : s.remLen = mqttLength bytes
  multiplier : s.multiplier = 128 ^ bytes.length

theorem ReadsLength.takes (reading : ReadsLength bytes s) (b : Byte) :
    TakesLength bytes s b := by
  have low : b.toNat &&& 127 = b.toNat % 128 := Nat.and_two_pow_sub_one_eq_mod b.toNat 7
  have bound : 128 ^ bytes.length ≤ 128 ^ 3 := Nat.pow_le_pow_right (by decide) reading.short
  have digit : b.toNat % 128 < 128 := Nat.mod_lt _ (by decide)
  have short : (bytes ++ [b]).length ≤ 4 := by
    have := reading.short
    simp
    omega
  refine ⟨short, reading.continued, ?_, ?_, ?_, mqttLength_small short⟩
  · rw [low, reading.multiplier]
    calc b.toNat % 128 * 128 ^ bytes.length ≤ 128 * 128 ^ 3 := Nat.mul_le_mul digit.le bound
      _ < 2 ^ 31 := by decide
  · rw [reading.multiplier]
    omega
  · rw [low, reading.multiplier, reading.remLen, mqttLength_append]

/-- The session behind a length byte that does not wrap. -/
theorem ReadsLength.remLenByte (reading : ReadsLength bytes s) (b : Byte) :
    Parser.remLenByte s b =
      let s := { s with remLen := mqttLength (bytes ++ [b]), multiplier := 128 ^ (bytes ++ [b]).length }
      if continues b then .next s else dispatch s := by
  have takes := reading.takes b
  have small := takes.small
  unfold Parser.remLenByte
  rw [takes.value, Nat.mod_eq_of_lt (small.trans (by decide)),
    Nat.mod_eq_of_lt (takes.multiplier.trans (by decide)), reading.multiplier, List.length_append,
    List.length_singleton, ← Nat.pow_succ]
  by_cases more : b.toNat &&& 128 = 0 <;> simp [continues, more]

/-! ### Rounds -/

/-- Where a packet still has a subtraction ahead that nothing checks, its declared length
leaves room for it. -/
def Session.Roomy (s : Session) : Prop :=
  match s.state with
  | .subscribe .packetId0 => 2 ≤ s.remLen
  | .subscribe .packetId1 => 2 ≤ s.remLen
  | .unsubscribe .packetId0 => 2 ≤ s.remLen
  | .unsubscribe .packetId1 => 2 ≤ s.remLen
  | .publish .topic2 => s.publish.topicLen + publishOverhead s ≤ s.remLen
  | _ => True

private theorem topicDone_subtracts {payloadLen : Nat}
    (computed : sub32 s.remLen (s.publish.topicLen + publishOverhead s) = payloadLen) :
    (topicDone mallocOk s).Ensures (fun next => next.publish.payloadLen = payloadLen)
      fun last _ => last.publish.payloadLen = payloadLen := by
  unfold topicDone
  by_cases withId : s.header.qos ≠ 0
  · simp only [publishOverhead, if_pos withId] at computed ⊢
    rw [computed]
    exact meets_ite (fun _ => trivial) fun _ => meets_ite (fun _ => rfl) fun _ => trivial
  · simp only [publishOverhead, if_neg withId] at computed ⊢
    rw [computed]
    exact meets_ite (fun _ => trivial) fun _ => meets_ite (fun _ => rfl) fun _ => trivial

/-- A round makes these subtractions. -/
theorem parserByte_subtracts
    {minuend amount left : Nat} (subtracts : (minuend, amount) ∈ subtractions s b)
    (value : sub32 minuend amount = left) :
    (parserByte allowAnonymous mallocOk s b).Ensures (fun next => counter s.state next = left)
      fun last _ => counter s.state last = left := by
  unfold subtractions at subtracts
  unfold parserByte
  cases here : s.state with
  | header => simp [here] at subtracts
  | remLen => simp [here] at subtracts
  | connect state => simp [here] at subtracts
  | subscribe state =>
      rw [here] at subtracts
      cases state with
      | packetId1 =>
          obtain ⟨rfl, rfl⟩ := Prod.mk.inj (List.mem_singleton.mp subtracts)
          simp only [subscribeByte, value]
          rfl
      | topicQos =>
          obtain ⟨known, only⟩ := List.mem_ite_nil_left.mp subtracts
          obtain ⟨rfl, rfl⟩ := Prod.mk.inj (List.mem_singleton.mp only)
          simp only [subscribeByte, value]
          refine meets_ite (fun _ => trivial) fun _ => meets_ite (fun _ => ?_) fun _ => trivial
          exact meets_ite (fun _ => rfl) fun _ => rfl
      | _ => cases subtracts
  | unsubscribe state =>
      rw [here] at subtracts
      cases state with
      | packetId1 =>
          obtain ⟨rfl, rfl⟩ := Prod.mk.inj (List.mem_singleton.mp subtracts)
          simp only [unsubscribeByte, value]
          rfl
      | topic2 =>
          obtain ⟨last, only⟩ := List.mem_ite_nil_right.mp subtracts
          obtain ⟨rfl, rfl⟩ := Prod.mk.inj (List.mem_singleton.mp only)
          simp only [unsubscribeByte, filterByte, value]
          refine meets_ite (fun _ => ensures_store fun _ => ?_) fun _ => trivial
          refine meets_ite (fun _ => ?_) fun more => absurd last more
          exact meets_ite (fun _ => rfl) fun _ => rfl
      | _ => cases subtracts
  | publish state =>
      rw [here] at subtracts
      cases state with
      | topic2 =>
          obtain ⟨last, only⟩ := List.mem_ite_nil_right.mp subtracts
          obtain ⟨rfl, rfl⟩ := Prod.mk.inj (List.mem_singleton.mp only)
          simp only [publishByte]
          refine ensures_store fun _ => meets_ite (fun _ => ensures_store fun _ => ?_) fun more => absurd last more
          exact topicDone_subtracts value
      | _ => cases subtracts

private theorem subscribeByte_roomy {state : SubscribeState}
    (here : s.state = .subscribe state) (roomy : s.Roomy) :
    (subscribeByte mallocOk s b state).Ensures Session.Roomy fun _ _ => True := by
  rw [Session.Roomy, here] at roomy
  cases state with
  | packetId0 => exact roomy
  | packetId1 => trivial
  | topic0 => trivial
  | topic1 =>
      exact meets_ite (fun _ => trivial) fun _ => meets_ite (fun _ => trivial) fun _ =>
        meets_ite (fun _ => trivial) fun _ => trivial
  | topic2 =>
      refine meets_ite (fun _ => ensures_store fun _ => ?_) fun _ => trivial
      refine meets_ite (fun _ => trivial) fun _ => ?_
      simp [Session.Roomy, here]
  | topicQos =>
      exact meets_ite (fun _ => trivial) fun _ =>
        meets_ite (fun _ => meets_ite (fun _ => trivial) fun _ => trivial) fun _ => trivial

private theorem unsubscribeByte_roomy {state : UnsubscribeState}
    (here : s.state = .unsubscribe state) (roomy : s.Roomy) :
    (unsubscribeByte mallocOk s b state).Ensures Session.Roomy fun _ _ => True := by
  rw [Session.Roomy, here] at roomy
  cases state with
  | packetId0 => exact roomy
  | packetId1 => trivial
  | topic0 => trivial
  | topic1 =>
      exact meets_ite (fun _ => trivial) fun _ => meets_ite (fun _ => trivial) fun _ =>
        meets_ite (fun _ => trivial) fun _ => trivial
  | topic2 =>
      refine meets_ite (fun _ => ensures_store fun _ => ?_) fun _ => trivial
      refine meets_ite (fun _ => ?_) fun _ => ?_
      · exact meets_ite (fun _ => trivial) fun _ => trivial
      · simp [Session.Roomy, here]

private theorem publishByte_roomy {state : PublishState} (here : s.state = .publish state) (roomy : s.Roomy)
    (fits : state = .topic1 → low s.publish.topicLen b + publishOverhead s ≤ s.remLen) :
    (publishByte mallocOk s b state).Ensures Session.Roomy fun _ _ => True := by
  rw [Session.Roomy, here] at roomy
  cases state with
  | topic0 => trivial
  | topic1 => exact meets_ite (fun _ => trivial) fun _ => fits rfl
  | topic2 =>
      simp only [publishByte]
      refine ensures_store fun _ => meets_ite (fun _ => ensures_store fun _ => ?_) fun _ => ?_
      · unfold topicDone
        by_cases withId : s.header.qos ≠ 0
        · simp only [if_pos withId]
          exact meets_ite (fun _ => trivial) fun _ => meets_ite (fun _ => trivial) fun _ => trivial
        · simp only [if_neg withId]
          exact meets_ite (fun _ => trivial) fun _ => meets_ite (fun _ => trivial) fun _ => trivial
      · simp only [meets_next, Session.Roomy, here]
        exact roomy
  | packetId0 =>
      cases allocated : s.publish.mp <;> simp [publishByte, allocated, Session.Roomy]
  | packetId1 =>
      cases allocated : s.publish.mp <;> simp [publishByte, allocated, Session.Roomy]
  | payload =>
      cases allocated : s.publish.mp with
      | none => simp [publishByte, allocated]
      | some mp =>
          simp only [publishByte, allocated]
          refine ensures_store fun _ => meets_ite (fun _ => ensures_store fun _ => trivial) fun _ => ?_
          simp [Session.Roomy, here]

private theorem dispatch_roomy (room : beginsWithId s.header.msgType → 2 ≤ s.remLen) :
    (dispatch s).Ensures Session.Roomy fun _ _ => True := by
  unfold dispatch
  cases type : s.header.msgType <;> simp_all [Session.Roomy, beginsWithId]

/-- What is known of a stream whose lengths fit. -/
structure Lengthy (m : Measured) : Prop where
  inPacket : InPacket m.stream.frame m.session
  reading : m.session.state = .remLen → ReadsLength m.lengthBytes m.session
  decoded : m.session.state.packet ≠ none → Decoded m.lengthBytes m.stream.frame.declared
  roomy : m.session.Roomy

/-- Every round of a stream whose lengths fit is exact. -/
theorem Lengthy.exact {m : Measured} (lengthy : Lengthy m) (b : Byte) : Exact m b := by
  refine ⟨fun here => (lengthy.reading here).takes b, lengthy.decoded, fun minuend amount member => ?_⟩
  have inPacket := lengthy.inPacket
  have roomy := lengthy.roomy
  unfold InPacket at inPacket
  unfold Session.Roomy at roomy
  unfold subtractions at member
  cases here : m.session.state with
  | header => simp [here] at member
  | remLen => simp [here] at member
  | connect state => simp [here] at member
  | subscribe state =>
      rw [here] at inPacket roomy member
      cases state with
      | packetId1 =>
          obtain ⟨rfl, rfl⟩ := Prod.mk.inj (List.mem_singleton.mp member)
          exact roomy
      | topicQos =>
          obtain ⟨-, only⟩ := List.mem_ite_nil_left.mp member
          obtain ⟨rfl, rfl⟩ := Prod.mk.inj (List.mem_singleton.mp only)
          exact inPacket.1.2.2
      | _ => cases member
  | unsubscribe state =>
      rw [here] at inPacket roomy member
      cases state with
      | packetId1 =>
          obtain ⟨rfl, rfl⟩ := Prod.mk.inj (List.mem_singleton.mp member)
          exact roomy
      | topic2 =>
          obtain ⟨-, only⟩ := List.mem_ite_nil_right.mp member
          obtain ⟨rfl, rfl⟩ := Prod.mk.inj (List.mem_singleton.mp only)
          exact (Nat.le_succ _).trans inPacket.1.2.2
      | _ => cases member
  | publish state =>
      rw [here] at roomy member
      cases state with
      | topic2 =>
          obtain ⟨-, only⟩ := List.mem_ite_nil_right.mp member
          obtain ⟨rfl, rfl⟩ := Prod.mk.inj (List.mem_singleton.mp only)
          exact roomy
      | _ => cases member

/-! ### Streams -/

/-- The stream behind a byte within a packet or in front of it, or at the end of a
packet. -/
theorem Stream.step_cases {stream next : Stream} {input : Input}
    (stepped : stream.step allowAnonymous input = some next) :
    parserByte allowAnonymous input.mallocOk stream.session input.byte = .next next.session ∧
        next.frame = stream.frame.count stream.session.state next.session ∨
      next.session.state = .header := by
  unfold Stream.step at stepped
  split at stepped
  · rename_i s round
    obtain rfl := Option.some.inj stepped
    exact .inl ⟨round, rfl⟩
  · split at stepped
    · cases stepped
    · obtain rfl := Option.some.inj stepped
      exact .inr rfl
  · cases stepped

private theorem lengthy_header {m : Measured} (here : m.session.state = .header) : Lengthy m where
  inPacket := by simp [InPacket, here]
  reading := by simp [here]
  decoded := by simp [here, PState.packet]
  roomy := by simp [Session.Roomy, here]

private theorem lengthy_remLen {m : Measured} (here : m.session.state = .remLen)
    (reading : ReadsLength m.lengthBytes m.session) : Lengthy m where
  inPacket := by simp [InPacket, here]
  reading := fun _ => reading
  decoded := by simp [here, PState.packet]
  roomy := by simp [Session.Roomy, here]

/-- The byte behind the fixed header's first one begins a remaining length. -/
theorem headerByte_reading (b : Byte) :
    (headerByte s b).Ensures (fun next => next.state = .remLen ∧ ReadsLength [] next) fun _ _ => True := by
  refine meets_ite (fun _ => trivial) fun _ => meets_ite (fun _ => trivial) fun _ => ?_
  exact ⟨rfl, by simp, by simp, rfl, rfl⟩

private theorem dispatch_packet (s : Session) :
    (dispatch s).Ensures (fun next => next.state.packet ≠ none ∧ next.remLen = s.remLen) fun _ _ => True := by
  unfold dispatch
  split <;> simp [PState.packet]

/-- A length byte that fits is followed by the next one or by the packet. -/
theorem remLenByte_lengthy (here : s.state = .remLen) (reading : ReadsLength bytes s)
    (fits : if continues b then bytes.length < 3
      else beginsWithId s.header.msgType → 2 ≤ mqttLength (bytes ++ [b])) :
    (Parser.remLenByte s b).Ensures (fun next => next.Roomy ∧
        (next.state = .remLen ∧ ReadsLength (bytes ++ [b]) next ∨
          next.state.packet ≠ none ∧ Decoded (bytes ++ [b]) next.remLen)) fun _ _ => True := by
  have takes := reading.takes b
  rw [reading.remLenByte]
  by_cases more : continues b
  · rw [if_pos more] at fits
    simp only [more, if_true, meets_next]
    refine ⟨by simp [Session.Roomy, here], .inl ⟨here, ?_, ?_, rfl, rfl⟩⟩
    · rw [List.length_append, List.length_singleton]
      exact fits
    · intro byte member
      rcases List.mem_append.mp member with earlier | last
      · exact reading.continued byte earlier
      · rw [List.mem_singleton.mp last]
        exact more
  · rw [if_neg more] at fits
    simp only [more, Bool.false_eq_true, if_false]
    have both := Outcome.Ensures.and (dispatch_roomy (show beginsWithId { s with
      remLen := mqttLength (bytes ++ [b]), multiplier := 128 ^ (bytes ++ [b]).length }.header.msgType → _ from
        fits)) (dispatch_packet _)
    refine both.mono ?_ fun _ _ _ => trivial
    rintro next ⟨roomy, inPacket, remLen⟩
    refine ⟨roomy, .inr ⟨inPacket, ⟨takes.short, ⟨bytes, b, rfl, reading.continued, by simpa using more⟩,
      remLen, ?_⟩⟩⟩
    rw [remLen]
    exact takes.small

/-- Behind a byte within a packet the remaining length stays what it was. -/
theorem Lengthy.packet {m : Measured} (lengthy : Lengthy m) (inPacket : m.session.state.packet ≠ none)
    (fits : m.session.state = .publish .topic1 →
      low m.session.publish.topicLen b + publishOverhead m.session ≤ m.stream.frame.declared) :
    (parserByte allowAnonymous mallocOk m.session b).Ensures Session.Roomy fun _ _ => True := by
  have framed := lengthy.inPacket
  unfold InPacket at framed
  cases here : m.session.state with
  | header => simp [here, PState.packet] at inPacket
  | remLen => simp [here, PState.packet] at inPacket
  | connect state =>
      refine (parserByte_packet inPacket).mono (fun next stays => ?_) fun _ _ _ => trivial
      rw [here] at stays
      unfold Session.Roomy
      cases after : next.state <;> simp_all [PState.packet]
  | subscribe state =>
      rw [parserByte, here]
      exact subscribeByte_roomy here lengthy.roomy
  | unsubscribe state =>
      rw [parserByte, here]
      exact unsubscribeByte_roomy here lengthy.roomy
  | publish state =>
      rw [parserByte, here]
      refine publishByte_roomy here lengthy.roomy fun isTopic1 => ?_
      subst isTopic1
      rw [here] at framed
      rw [framed.1]
      exact fits here

/-- The account of the packet goes on behind a byte. -/
theorem Lengthy.inPacket_next {m : Measured}
    (lengthy : Lengthy m) (round : parserByte allowAnonymous mallocOk m.session b = .next s) :
    InPacket (m.stream.frame.count m.session.state s) s := by
  have framed : (parserByte allowAnonymous mallocOk m.session b).Ensures _ _ :=
    parserByte_framed lengthy.inPacket
  rw [round] at framed
  exact framed

/-- A byte that fits keeps what is known. -/
theorem lengthy_step {m next : Measured} {input : Input} (lengthy : Lengthy m)
    (fits : LengthsFit m input) (stepped : m.step allowAnonymous input = some next) : Lengthy next := by
  obtain ⟨stream, steps, rfl⟩ := Option.map_eq_some_iff.mp stepped
  rcases Stream.step_cases steps with ⟨round, frame⟩ | ended
  swap
  · exact lengthy_header ended
  have inPacket := lengthy.inPacket_next round
  have account : InPacket stream.frame stream.session := frame ▸ inPacket
  by_cases within : m.session.state.packet = none
  · unfold LengthsFit at fits
    unfold parserByte at round
    cases here : m.session.state with
    | header =>
        have reads : (headerByte m.session input.byte).Ensures _ _ := headerByte_reading input.byte
        simp only [here] at round
        rw [round] at reads
        refine lengthy_remLen reads.1 ?_
        rw [Measured.lengthBytesAfter, here]
        exact reads.2
    | remLen =>
        rw [here] at fits
        have reads : (remLenByte m.session input.byte).Ensures _ _ :=
          remLenByte_lengthy here (lengthy.reading here) fits
        simp only [here] at round frame
        rw [round] at reads
        obtain ⟨roomy, goesOn⟩ := reads
        have lengthBytes : m.lengthBytesAfter input.byte = m.lengthBytes ++ [input.byte] := by
          rw [Measured.lengthBytesAfter, here]
        rcases goesOn with ⟨state, reading⟩ | ⟨inside, decoded⟩
        · exact lengthy_remLen state (lengthBytes ▸ reading)
        · refine ⟨account, fun state => ?_, fun _ => ?_, roomy⟩
          · exact absurd (by rw [state]; rfl) inside
          · rw [lengthBytes, frame]
            exact decoded
    | _ => simp [here, PState.packet] at within
  · have stays : (parserByte allowAnonymous input.mallocOk m.session input.byte).Ensures _ _ :=
      parserByte_packet within
    have roomy : (parserByte allowAnonymous input.mallocOk m.session input.byte).Ensures _ _ :=
      lengthy.packet within fun here => by simpa [LengthsFit, here] using fits
    rw [round] at stays roomy
    have same : m.lengthBytesAfter input.byte = m.lengthBytes ∧ stream.frame.declared = m.stream.frame.declared := by
      rw [frame, Measured.lengthBytesAfter]
      cases here : m.session.state <;>
        simp_all [PState.packet, Frame.count]
    refine ⟨account, fun state => ?_, fun _ => ?_, roomy⟩
    · have outside : stream.session.state.packet = none := congrArg PState.packet state
      exact absurd (stays.symm.trans outside) within
    · rw [same.1, same.2]
      exact lengthy.decoded within

/-- In streams whose lengths fit, every remaining length has at most four bytes and the
value MQTT gives them, and no arithmetic on it wraps around. -/
theorem length_arithmetic_exact {allowAnonymous : Bool} {m : Measured}
    (reached : ((measured allowAnonymous).restrict LengthsFit).Reachable m) (b : Byte) : Exact m b := by
  have initially : ∀ m, ((measured allowAnonymous).restrict LengthsFit).init m → Lengthy m := by
    intro m initial
    obtain rfl : m = ⟨.initial, []⟩ := initial
    exact lengthy_header rfl
  have lengthy : Lengthy m := reached.invariant initially fun m input next _ holds stepped =>
    have ⟨fits, steps⟩ := System.restrict_step.mp stepped
    lengthy_step holds fits steps
  exact lengthy.exact b

/-- A SUBSCRIBE with one filter, whose length takes four bytes, up to the QoS of the
filter. -/
theorem length_arithmetic_exact_subscribe :
    ∃ m, ((measured false).restrict LengthsFit).Reachable m ∧ m.session.state = .subscribe .topicQos ∧
      m.lengthBytes = [0x86, 0x80, 0x80, 0] ∧ subtractions m.session 1 = [(4, 4)] ∧ Exact m 1 := by
  have ran : (((measured false).restrict LengthsFit).run ⟨.initial, []⟩
      (feed [0x82, 0x86, 0x80, 0x80, 0, 0, 1, 0, 1, 97])).map (fun m =>
        (m.session.state, m.lengthBytes, subtractions m.session 1)) =
          some (.subscribe .topicQos, [0x86, 0x80, 0x80, 0], [(4, 4)]) := by
    decide +kernel
  obtain ⟨m, final, seen⟩ := Option.map_eq_some_iff.mp ran
  simp only [Prod.mk.injEq] at seen
  obtain ⟨here, lengthBytes, subtracts⟩ := seen
  have reached := System.Reachable.run (.start rfl) final
  exact ⟨m, reached, here, lengthBytes, subtracts, length_arithmetic_exact reached 1⟩

/-- What a stream of bytes leads to. -/
def measuredAfter (bytes : List Byte) : Option Measured :=
  (measured false).run ⟨.initial, []⟩ (feed bytes)

/-- A round that is not exact, behind these bytes. -/
theorem not_exact_of_run {Seen : Type} (bytes : List Byte) {view : Measured → Seen} {seen : Seen}
    (ran : (measuredAfter bytes).map view = some seen) (inexact : ∀ m, view m = seen → ¬Exact m b) :
    ∃ m, (measured false).Reachable m ∧ view m = seen ∧ ¬Exact m b := by
  obtain ⟨m, final, here⟩ := Option.map_eq_some_iff.mp ran
  exact ⟨m, .run (.start rfl) final, here, inexact m here⟩

/-- A fifth length byte is taken; a SUBSCRIBE that declares no byte, an UNSUBSCRIBE that
declares one and a PUBLISH that declares fewer bytes than its topic takes make the
subtraction wrap around. -/
theorem length_arithmetic_wraps :
    (∃ m, (measured false).Reachable m ∧
        (m.session.state, m.lengthBytes) = (.remLen, [0x80, 0x80, 0x80, 0x80]) ∧ ¬Exact m 1) ∧
      (∃ m, (measured false).Reachable m ∧
        (m.session.state, subtractions m.session 1) = (.subscribe .packetId1, [(0, 2)]) ∧ ¬Exact m 1) ∧
      (∃ m, (measured false).Reachable m ∧
        (m.session.state, subtractions m.session 1) = (.unsubscribe .packetId1, [(1, 2)]) ∧ ¬Exact m 1) ∧
      ∃ m, (measured false).Reachable m ∧
        (m.session.state, subtractions m.session 97) = (.publish .topic2, [(2, 3)]) ∧ ¬Exact m 97 := by
  refine ⟨not_exact_of_run [0x30, 0x80, 0x80, 0x80, 0x80] (by decide +kernel) ?_,
    not_exact_of_run [0x82, 0, 0] (by decide +kernel) ?_,
    not_exact_of_run [0xA2, 1, 0] (by decide +kernel) ?_,
    not_exact_of_run [0x30, 2, 0, 1] (by decide +kernel) ?_⟩
  · intro m seen exact
    obtain ⟨state, lengthBytes⟩ := Prod.mk.inj seen
    have short := (exact.length state).short
    rw [lengthBytes] at short
    exact absurd short (by decide)
  all_goals
    intro m seen exact
    have fits := exact.subtraction _ _ (by rw [(Prod.mk.inj seen).2]; exact List.mem_singleton_self _)
    exact absurd fits (by decide)

end FbBroker.Parser
