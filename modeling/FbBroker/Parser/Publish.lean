import FbBroker.Parser.Fields

/-!
Contract: the parser reads back what `encode_publish` writes.

Owns one lemma for each field of a PUBLISH, saying where the bytes of the field
take the parser, and what becomes of a whole packet: it is handed over as it was
encoded, it is rejected where the message cannot be allocated, and with a payload
of 65536 bytes or more its end is never found.

Does not own other packets, nor what the callback does with the message.
-/

set_option autoImplicit false

namespace FbBroker.Parser

open FbBroker.Packet FbBroker.Lib
open Host (Parses)

variable {allowAnonymous mallocOk : Bool}

/-! ### The topic -/

/-- The parser is behind some bytes of the topic. -/
structure AtTopic (username : Nat → Byte) (header : Header) (remLen topicLen : Nat) (read : List Byte)
    (s : Session) : Prop where
  state : s.state = .publish .topic2
  username : s.username = username
  header : s.header = header
  remLen : s.remLen = remLen
  topicLen : s.publish.topicLen = topicLen
  i : s.i = read.length
  topic : bytes read.length s.publish.topic = read

/-- The parser is behind the topic, with the part of the message it has read. -/
structure AtBody (username : Nat → Byte) (state : PublishState) (mp : Message) (size : Nat)
    (s : Session) : Prop where
  state : s.state = .publish state
  username : s.username = username
  payloadLen : s.publish.payloadLen = size
  i : s.i = mp.payload.length
  draft : ∃ draft, s.publish.mp = some draft ∧ draft.payloadLen = size ∧
    Draft.message { draft with payloadLen := mp.payload.length } = mp

private theorem parses_topicLen {s : Session} (atTopicLen : s.state = .publish .topic0) {length : Nat}
    (positive : 0 < length) (short : length ≤ maxTopicLen) :
    ∃ next, Parses allowAnonymous mallocOk s (encodeShort length) (.next next) ∧
      AtTopic s.username s.header s.remLen length [] next := by
  have value := low_high_encodeShort (show length < 2 ^ 16 by unfold maxTopicLen at short; omega)
  have notEmpty : ¬ (length = 0 ∨ length > maxTopicLen) := by omega
  refine ⟨{ s with publish.topicLen := length, i := 0, state := .publish .topic2 }, ?_,
    ⟨rfl, rfl, rfl, rfl, rfl, rfl, rfl⟩⟩
  have first : parserByte allowAnonymous mallocOk s (UInt8.ofNat (length / 256)) =
      .next { s with
        publish.topicLen := high (UInt8.ofNat (length / 256)), state := .publish .topic1 } := by
    simp [parserByte, atTopicLen, publishByte]
  refine parses_short first ?_
  simp [parserByte, publishByte, value, notEmpty]

section Topic

variable {username : Nat → Byte} {header : Header} {remLen topicLen payloadLen : Nat} {s : Session}

private theorem parserByte_topic_more {read : List Byte} (here : AtTopic username header remLen topicLen read s)
    (more : read.length + 1 < topicLen) (short : topicLen ≤ maxTopicLen) (b : Byte) :
    ∃ next, parserByte allowAnonymous mallocOk s b = .next next ∧
      AtTopic username header remLen topicLen (read ++ [b]) next := by
  obtain ⟨state, user, head, rem, len, i, topic⟩ := here
  have index : incr16 s.i = read.length + 1 := by
    rw [i, incr16_of_lt (by unfold maxTopicLen at short; omega)]
  have room : s.i < maxTopicLen + 1 := by omega
  have notLast : read.length + 1 ≠ s.publish.topicLen := by omega
  refine ⟨{ s with publish.topic := Function.update s.publish.topic s.i b, i := read.length + 1 },
    ?_, ⟨state, user, head, rem, len, by simp, ?_⟩⟩
  · simp [parserByte, state, publishByte, store, room, index, notLast]
  · rw [List.length_append, List.length_singleton, i, bytes_succ_update, topic]

/-- Behind the topic: the payload takes the rest of the packet, and the message is
allocated. -/
theorem topicDone_drafts (short : s.publish.topicLen ≤ maxTopicLen)
    (declared : s.remLen = publishLen s.header.qos s.publish.topicLen payloadLen)
    (positive : 0 < payloadLen) (fits : publishLen s.header.qos s.publish.topicLen payloadLen < 2 ^ 32) :
    ∃ refused, topicDone mallocOk s =
      if mallocOk then
        .next { s with
          publish.payloadLen := payloadLen
          publish.mp := some { messageCreate s.publish.topicLen payloadLen s.header.dup s.header.qos
            s.header.retain 0 with topic := s.publish.topic }
          i := 0
          state := .publish (if s.header.qos = 0 then .payload else .packetId0) }
      else .ret refused 1 := by
  have small : s.publish.topicLen ≤ 127 := short
  have notEmpty : payloadLen ≠ 0 := by omega
  unfold publishLen at declared fits
  unfold topicDone
  by_cases plain : s.header.qos = 0
  · have length : sub32 s.remLen (s.publish.topicLen + 2) = payloadLen := by
      rw [if_neg (by omega)] at declared fits
      rw [declared, sub32_of_le (by omega) (by omega)]
      omega
    refine ⟨{ s with
      publish.payloadLen := payloadLen, i := 0, state := .publish .payload }, ?_⟩
    simp only [plain, length, notEmpty, ne_eq, not_true_eq_false, if_false, if_true]
  · have length : sub32 s.remLen (s.publish.topicLen + 4) = payloadLen := by
      rw [if_pos (by omega)] at declared fits
      rw [declared, sub32_of_le (by omega) (by omega)]
      omega
    refine ⟨{ s with
      publish.payloadLen := payloadLen, i := 0, state := .publish .packetId0 }, ?_⟩
    simp only [plain, length, notEmpty, ne_eq, not_false_eq_true, if_false, if_true]

/-- The last byte of the topic: the message is allocated, or the packet is rejected. -/
theorem parserByte_topic_last {read : List Byte}
    (here : AtTopic username header (publishLen header.qos topicLen payloadLen) topicLen read s)
    (last : read.length + 1 = topicLen) (short : topicLen ≤ maxTopicLen) (positive : 0 < payloadLen)
    (fits : publishLen header.qos topicLen payloadLen < 2 ^ 32) (b : Byte) :
    ∃ next refused, parserByte allowAnonymous mallocOk s b =
        (if mallocOk then .next next else .ret refused 1) ∧
      AtBody username (if header.qos = 0 then .payload else .packetId0)
        { dup := header.dup, origQos := header.qos, retain := header.retain, packetId := 0
          topic := read ++ [b], payload := [] } payloadLen next := by
  obtain ⟨state, user, rfl, rem, len, i, topic⟩ := here
  have index : incr16 s.i = topicLen := by
    rw [i, incr16_of_lt (by unfold maxTopicLen at short; omega), last]
  have room : s.i < maxTopicLen + 1 := by omega
  have roomEnd : topicLen < maxTopicLen + 1 := by omega
  have written : bytes topicLen
      (Function.update (Function.update s.publish.topic s.i b) topicLen 0) = read ++ [b] := by
    rw [bytes_update_of_le _ _ (Nat.le_refl topicLen), ← last, i, bytes_succ_update, topic]
  have reaches : parserByte allowAnonymous mallocOk s b =
      topicDone mallocOk { s with
        publish.topic := Function.update (Function.update s.publish.topic s.i b) topicLen 0
        i := topicLen } := by
    simp [parserByte, state, publishByte, store, room, index, len, roomEnd]
  subst len
  obtain ⟨refused, done⟩ : ∃ refused, topicDone mallocOk { s with
      publish.topic := Function.update (Function.update s.publish.topic s.i b) s.publish.topicLen 0
      i := s.publish.topicLen } = if mallocOk then _ else .ret refused 1 :=
    topicDone_drafts short rem positive fits
  refine ⟨_, refused, reaches.trans done, ⟨rfl, user, rfl, rfl, _, rfl, rfl, ?_⟩⟩
  simp only [Draft.message, messageCreate, written]
  rfl

private theorem parses_topic {topic : List Byte} (nonempty : topic ≠ [])
    (here : AtTopic username header (publishLen header.qos topic.length payloadLen) topic.length [] s)
    (short : topic.length ≤ maxTopicLen) (positive : 0 < payloadLen)
    (fits : publishLen header.qos topic.length payloadLen < 2 ^ 32) :
    ∃ next refused, Parses allowAnonymous mallocOk s topic
        (if mallocOk then .next next else .ret refused 1) ∧
      AtBody username (if header.qos = 0 then .payload else .packetId0)
        { dup := header.dup, origQos := header.qos, retain := header.retain, packetId := 0
          topic := topic, payload := [] } payloadLen next := by
  have copied : ∃ outcome, Parses allowAnonymous mallocOk s topic outcome ∧
      ∃ next refused, outcome = (if mallocOk then .next next else .ret refused 1) ∧
        AtBody username (if header.qos = 0 then .payload else .packetId0)
          { dup := header.dup, origQos := header.qos, retain := header.retain, packetId := 0
            topic := topic, payload := [] } payloadLen next := by
    refine parses_copy
      (AtTopic username header (publishLen header.qos topic.length payloadLen) topic.length)
      ?_ ?_ nonempty here
    · intro read s b there more
      exact parserByte_topic_more there more short b
    · intro read s b there whole
      rw [← whole] at short fits there ⊢
      exact parserByte_topic_last there (by simp) short positive fits b
  obtain ⟨outcome, parses, next, refused, ends, body⟩ := copied
  exact ⟨next, refused, ends ▸ parses, body⟩

end Topic

/-! ### The packet id and the payload -/

section Body

variable {username : Nat → Byte} {mp : Message} {payloadLen : Nat} {s : Session}

private theorem parses_packetId (here : AtBody username .packetId0 mp payloadLen s) {msgId : Nat}
    (small : msgId < 2 ^ 16) :
    ∃ next, Parses allowAnonymous mallocOk s (encodeShort msgId) (.next next) ∧
      AtBody username .payload { mp with packetId := msgId } payloadLen next := by
  obtain ⟨state, user, len, i, draft, drafted, room, read⟩ := here
  refine ⟨{ s with
      publish.mp := some { draft with packetId := msgId }, state := .publish .payload }, ?_,
    ⟨rfl, user, len, i, _, rfl, room, ?_⟩⟩
  · have first : parserByte allowAnonymous mallocOk s (UInt8.ofNat (msgId / 256)) =
        .next { s with
          publish.mp := some { draft with packetId := high (UInt8.ofNat (msgId / 256)) }
          state := .publish .packetId1 } := by
      simp [parserByte, state, publishByte, drafted]
    refine parses_short first ?_
    simp [parserByte, publishByte, low_high_encodeShort small]
  · exact congrArg (fun mp : Message => { mp with packetId := msgId }) read

/-- What a write behind the bytes read so far makes of the message. -/
theorem message_write {draft : Draft} (read : { draft with payloadLen := mp.payload.length }.message = mp)
    (b : Byte) :
    { draft with
      payload := Function.update draft.payload mp.payload.length b
      payloadLen := (mp.payload ++ [b]).length }.message = { mp with payload := mp.payload ++ [b] } := by
  obtain ⟨dup, origQos, retain, packetId, topic, payload⟩ := mp
  simp only [Draft.message, Message.mk.injEq] at read ⊢
  obtain ⟨rfl, rfl, rfl, rfl, rfl, written⟩ := read
  refine ⟨rfl, rfl, rfl, rfl, rfl, ?_⟩
  rw [List.length_append, List.length_singleton, bytes_succ_update, written]

private theorem parserByte_payload_more (here : AtBody username .payload mp payloadLen s)
    (more : mp.payload.length + 1 < payloadLen) (fits : payloadLen < 2 ^ 16) (b : Byte) :
    ∃ next, parserByte allowAnonymous mallocOk s b = .next next ∧
      AtBody username .payload { mp with payload := mp.payload ++ [b] } payloadLen next := by
  obtain ⟨state, user, len, i, draft, drafted, room, read⟩ := here
  have index : incr16 s.i = mp.payload.length + 1 := by rw [i, incr16_of_lt (by omega)]
  have inside : s.i < draft.payloadLen + 1 := by omega
  have notLast : mp.payload.length + 1 ≠ s.publish.payloadLen := by omega
  refine ⟨{ s with
      publish.mp := some { draft with payload := Function.update draft.payload s.i b }
      i := mp.payload.length + 1 }, ?_, ⟨state, user, len, by simp, _, rfl, room, ?_⟩⟩
  · simp [parserByte, state, publishByte, drafted, store, inside, index, notLast]
  · rw [i]
    exact message_write read b

/-- The last byte of the payload: the message goes to the callback. -/
theorem parserByte_payload_last (here : AtBody username .payload mp payloadLen s)
    (last : mp.payload.length + 1 = payloadLen) (fits : payloadLen < 2 ^ 16) (b : Byte) :
    ∃ final draft, parserByte allowAnonymous mallocOk s b = .call final .publish ∧
      final.username = username ∧ final.publish.mp = some draft ∧
      draft.message = { mp with payload := mp.payload ++ [b] } := by
  obtain ⟨state, user, len, i, draft, drafted, room, read⟩ := here
  have index : incr16 s.i = payloadLen := by rw [i, incr16_of_lt (by omega), last]
  have inside : s.i < draft.payloadLen + 1 := by omega
  have insideEnd : payloadLen < draft.payloadLen + 1 := by omega
  refine ⟨{ s with
      publish.mp := some { draft with
        payload := Function.update (Function.update draft.payload s.i b) payloadLen 0 }
      i := payloadLen },
    { draft with payload := Function.update (Function.update draft.payload s.i b) payloadLen 0 },
    ?_, user, rfl, ?_⟩
  · simp [parserByte, state, publishByte, drafted, store, inside, index, len, insideEnd]
  · have written := message_write read b
    have length : (mp.payload ++ [b]).length = payloadLen := by simpa using last
    rw [← written, length, i]
    -- the terminating NUL lies behind the payload
    simp only [Draft.message, room, bytes_update_of_le _ _ (Nat.le_refl payloadLen)]

private theorem parses_payload {payload : List Byte} (nonempty : payload ≠ []) (fits : payload.length < 2 ^ 16)
    (here : AtBody username .payload { mp with payload := [] } payload.length s) :
    ∃ final draft, Parses allowAnonymous mallocOk s payload (.call final .publish) ∧
      final.username = username ∧ final.publish.mp = some draft ∧
      draft.message = { mp with payload } := by
  have copied : ∃ outcome, Parses allowAnonymous mallocOk s payload outcome ∧
      ∃ final draft, outcome = .call final .publish ∧ final.username = username ∧
        final.publish.mp = some draft ∧ draft.message = { mp with payload } := by
    refine parses_copy
      (fun read => AtBody username .payload { mp with payload := read } payload.length)
      ?_ ?_ nonempty here
    · intro read s b there more
      exact parserByte_payload_more there more fits b
    · intro read s b there whole
      rw [← whole] at fits there ⊢
      exact parserByte_payload_last there (by simp) fits b
  obtain ⟨outcome, parses, final, draft, ends, user, drafted, read⟩ := copied
  exact ⟨final, draft, ends ▸ parses, user, drafted, read⟩

/-- The parser is in a payload whose length is out of reach of its counter. -/
structure InLongPayload (s : Session) : Prop where
  state : s.state = .publish .payload
  long : 2 ^ 16 ≤ s.publish.payloadLen
  i : s.i < 2 ^ 16
  draft : ∃ draft, s.publish.mp = some draft ∧ draft.payloadLen = s.publish.payloadLen

private theorem parserByte_payload_long (here : InLongPayload s) (b : Byte) :
    ∃ next, parserByte allowAnonymous mallocOk s b = .next next ∧ InLongPayload next := by
  obtain ⟨state, long, i, draft, drafted, length⟩ := here
  have inside : s.i < draft.payloadLen + 1 := by omega
  have narrow := incr16_lt s.i
  have notLast : incr16 s.i ≠ s.publish.payloadLen := by omega
  refine ⟨{ s with
      publish.mp := some { draft with payload := Function.update draft.payload s.i b }
      i := incr16 s.i }, ?_, ⟨state, long, narrow, _, rfl, length⟩⟩
  simp [parserByte, state, publishByte, drafted, store, inside, notLast]

/-- Such a payload is not left, however many bytes follow. -/
theorem parses_payload_long {rest : List Byte} (nonempty : rest ≠ []) (here : InLongPayload s) :
    ∃ next, Parses allowAnonymous mallocOk s rest (.next next) ∧ InLongPayload next := by
  have copied : ∃ outcome, Parses allowAnonymous mallocOk s rest outcome ∧
      ∃ next, outcome = .next next ∧ InLongPayload next :=
    parses_copy (fun _ => InLongPayload) (fun _ _ b there _ => parserByte_payload_long there b)
      (fun _ _ b there _ => parserByte_payload_long there b) nonempty here
  obtain ⟨outcome, parses, next, ends, there⟩ := copied
  exact ⟨next, ends ▸ parses, there⟩

end Body

/-! ### Packets -/

/-- A PUBLISH packet with retain 0. -/
def publishPacket (mp : Message) (qos msgId : Nat) : List Byte :=
  (encodeHeaderByte .publish mp.dup qos 0 ::
    encodeRemLen (publishLen qos mp.topic.length mp.payload.length)) ++
    (encodeShort mp.topic.length ++ mp.topic) ++ (if qos > 0 then encodeShort msgId else []) ++
    mp.payload

/-- A message with flags and a topic the parser takes, and a payload that is not
empty. -/
structure Wellformed (mp : Message) : Prop where
  topicPositive : 0 < mp.topic.length
  topicShort : mp.topic.length ≤ maxTopicLen
  payloadPositive : 0 < mp.payload.length
  dup : mp.dup ≤ 1
  retain : mp.retain = 0

/-- The message that comes back: the QoS is the one it was sent with, and without one
there is no packet id. -/
def received (mp : Message) (qos msgId : Nat) : Message :=
  { mp with origQos := qos, packetId := if qos > 0 then msgId else 0 }

section Packet

variable {s : Session} {mp : Message} {qos msgId : Nat}

/-- The topic of a PUBLISH is read, and the message is allocated or the packet
rejected. -/
theorem parses_publish_topic (atHeader : s.state = .header) (wellformed : Wellformed mp)
    (qosBits : qos ≤ 3) (small : publishLen qos mp.topic.length mp.payload.length < 2 ^ 32) :
    ∃ next refused, Parses allowAnonymous mallocOk s
        ((encodeHeaderByte .publish mp.dup qos 0 ::
          encodeRemLen (publishLen qos mp.topic.length mp.payload.length)) ++
          (encodeShort mp.topic.length ++ mp.topic))
        (if mallocOk then .next next else .ret refused 1) ∧
      AtBody s.username (if qos = 0 then .payload else .packetId0)
        { dup := mp.dup, origQos := qos, retain := mp.retain, packetId := 0
          topic := mp.topic, payload := [] } mp.payload.length next := by
  obtain ⟨topicPositive, topicShort, payloadPositive, dupBit, noRetain⟩ := wellformed
  obtain ⟨multiplier, afterHeader⟩ : ∃ multiplier, Parses allowAnonymous mallocOk s _ _ :=
    parses_fixedHeader atHeader (show bodyState .publish = some _ from rfl) dupBit qosBits small
  obtain ⟨atTopic, afterTopicLen, inTopic⟩ : ∃ next, Parses allowAnonymous mallocOk _ _ (.next next) ∧ _ :=
    parses_topicLen (s := { s with
      header := ⟨.publish, mp.dup, qos, 0⟩
      remLen := publishLen qos mp.topic.length mp.payload.length
      multiplier := multiplier
      state := .publish .topic0 })
    rfl topicPositive topicShort
  obtain ⟨next, refused, afterTopic, inBody⟩ := parses_topic (List.length_pos_iff.mp topicPositive)
    inTopic topicShort payloadPositive small
  refine ⟨next, refused, afterHeader.append (afterTopicLen.append afterTopic), ?_⟩
  rw [noRetain]
  exact inBody

/-- With the message allocated, the payload is reached. -/
theorem parses_publish_front (atHeader : s.state = .header) (wellformed : Wellformed mp)
    (qosBits : qos ≤ 3) (idBits : msgId < 2 ^ 16)
    (small : publishLen qos mp.topic.length mp.payload.length < 2 ^ 32) :
    ∃ next, Parses allowAnonymous true s
        ((encodeHeaderByte .publish mp.dup qos 0 ::
          encodeRemLen (publishLen qos mp.topic.length mp.payload.length)) ++
          (encodeShort mp.topic.length ++ mp.topic) ++ (if qos > 0 then encodeShort msgId else []))
        (.next next) ∧
      AtBody s.username .payload { received mp qos msgId with payload := [] } mp.payload.length next := by
  obtain ⟨atBody, _, afterTopic, inBody⟩ : ∃ next refused, Parses allowAnonymous true s _ _ ∧ _ :=
    parses_publish_topic atHeader wellformed qosBits small
  by_cases plain : qos = 0
  · rw [if_pos plain] at inBody
    refine ⟨atBody, ?_, ?_⟩
    · rw [if_neg (by omega), List.append_nil]
      exact afterTopic
    · simpa [received, plain, wellformed.retain] using inBody
  · rw [if_neg plain] at inBody
    have positive : qos > 0 := by omega
    obtain ⟨next, afterPacketId, body⟩ : ∃ next, Parses allowAnonymous true atBody _ (.next next) ∧ _ :=
      parses_packetId inBody idBits
    refine ⟨next, ?_, ?_⟩
    · rw [if_pos positive]
      exact Parses.append afterTopic afterPacketId
    · simpa [received, positive, wellformed.retain] using body

/-- A PUBLISH with a payload within reach of the counter is handed over. -/
theorem parses_publishPacket (atHeader : s.state = .header) (wellformed : Wellformed mp)
    (qosBits : qos ≤ 3) (idBits : msgId < 2 ^ 16) (payloadShort : mp.payload.length < 2 ^ 16) :
    ∃ final draft, Parses allowAnonymous true s (publishPacket mp qos msgId) (.call final .publish) ∧
      final.username = s.username ∧ final.publish.mp = some draft ∧
      draft.message = received mp qos msgId := by
  have topicSmall : mp.topic.length ≤ 127 := wellformed.topicShort
  have small : publishLen qos mp.topic.length mp.payload.length < 2 ^ 32 := by
    unfold publishLen
    split <;> omega
  obtain ⟨atPayload, front, inPayload⟩ : ∃ next, Parses allowAnonymous true s _ (.next next) ∧ _ :=
    parses_publish_front atHeader wellformed qosBits idBits small
  obtain ⟨final, draft, afterPayload, user, drafted, read⟩ := parses_payload
    (List.length_pos_iff.mp wellformed.payloadPositive) payloadShort inPayload
  exact ⟨final, draft, front.append afterPayload, user, drafted, read⟩

/-- One with a longer payload is not, and the parser stays in it. -/
theorem parses_publishPacket_long (atHeader : s.state = .header) (wellformed : Wellformed mp)
    (qosBits : qos ≤ 3) (idBits : msgId < 2 ^ 16)
    (small : publishLen qos mp.topic.length mp.payload.length < 2 ^ 32)
    (payloadLong : 2 ^ 16 ≤ mp.payload.length) :
    ∃ next, Parses allowAnonymous true s (publishPacket mp qos msgId) (.next next) ∧
      next.state = .publish .payload := by
  obtain ⟨atPayload, front, state, _, length, i, draft, drafted, room, _⟩ :
      ∃ next, Parses allowAnonymous true s _ (.next next) ∧ _ :=
    parses_publish_front atHeader wellformed qosBits idBits small
  have inPayload : InLongPayload atPayload :=
    ⟨state, length ▸ payloadLong, by rw [i]; exact Nat.two_pow_pos 16, draft, drafted,
      room.trans length.symm⟩
  obtain ⟨next, stays, inside⟩ := parses_payload_long
    (List.length_pos_iff.mp wellformed.payloadPositive) inPayload
  exact ⟨next, front.append stays, inside.state⟩

end Packet

/-! ### The round trip -/

/-- A message of the sizes the parser takes. -/
structure Publishable (mp : Message) : Prop extends Wellformed mp where
  payloadShort : mp.payload.length < 2 ^ 16

/-- What `encode_publish` writes where the packet fits its buffer. -/
theorem encodePublish_eq {mp : Message} (noRetain : mp.retain = 0) {qos msgId len : Nat}
    (encoded : encodePublish len mp qos msgId ≠ []) :
    encodePublish len mp qos msgId = publishPacket mp qos msgId := by
  unfold encodePublish at encoded ⊢
  dsimp only at encoded ⊢
  split at encoded
  · exact absurd rfl encoded
  · rename_i fits
    rw [if_neg fits, noRetain]
    simp [publishPacket, encodeString]

/-- All but the last byte of an encoded PUBLISH move the parser on; the last one hands the
message over. -/
theorem parse_encodePublish (allowAnonymous : Bool) {s : Session} (atHeader : s.state = .header)
    {mp : Message} (publishable : Publishable mp) {qos msgId len : Nat} (qosBits : qos ≤ 3)
    (idBits : msgId < 2 ^ 16) (encoded : encodePublish len mp qos msgId ≠ []) :
    ∃ front b next final draft, encodePublish len mp qos msgId = front ++ [b] ∧
      Host.advance allowAnonymous s front = some next ∧
      parserByte allowAnonymous true next b = .call final .publish ∧
      final.username = s.username ∧ final.publish.mp = some draft ∧
      draft.message = received mp qos msgId := by
  obtain ⟨final, draft, parses, user, drafted, read⟩ :
      ∃ final draft, Parses allowAnonymous true s _ (.call final .publish) ∧ _ :=
    parses_publishPacket atHeader publishable.toWellformed qosBits idBits publishable.payloadShort
  obtain ⟨front, b, next, parts, moves, calls⟩ := parses.advance
  rw [encodePublish_eq publishable.retain encoded]
  exact ⟨front, b, next, final, draft, parts, moves, calls, user, drafted, read⟩

/-- A PUBLISH is read back as it was encoded: over any host that serves the allocation and
whose callback returns 0, the encoded bytes are consumed, `on_recv_publish` is called
once, on the message that was encoded, and the next packet is awaited. -/
theorem publish_round_trip {State : Type} {host : Host State} {At : Session → State → Prop}
    (answers : host.Answers true At)
    (serves : ∀ s state, At s state →
      ∃ later kept, (host.callback s .publish).run state = (.ok 0, later) ∧ At kept later)
    {s : Session} {state : State} (stored : At s state) (atHeader : s.state = .header)
    (mp : Message) (publishable : Publishable mp) (qos msgId len : Nat) (qosBits : qos ≤ 2)
    (idBits : msgId < 2 ^ 16) (encoded : encodePublish len mp qos msgId ≠ []) :
    ∃ final draft last later,
      (host.traced.mqttParserExecute (encodePublish len mp qos msgId)).run (state, []) =
          (.ok 0, later, [.callback final .publish]) ∧
        final.publish.mp = some draft ∧ draft.topicLen = mp.topic.length ∧
        draft.payloadLen = mp.payload.length ∧ draft.message = received mp qos msgId ∧
        At last later ∧ last.state = .header := by
  obtain ⟨final, draft, parses, _, drafted, read⟩ :
      ∃ final draft, Parses host.allowAnonymous true s _ (.call final .publish) ∧ _ :=
    parses_publishPacket atHeader publishable.toWellformed (qosBits.trans (by decide)) idBits
      publishable.payloadShort
  have topicLen : draft.topicLen = mp.topic.length := by
    simpa [Draft.message, received] using congrArg (fun mp => mp.topic.length) read
  have payloadLen : draft.payloadLen = mp.payload.length := by
    simpa [Draft.message, received] using congrArg (fun mp => mp.payload.length) read
  obtain ⟨later, runs, waits⟩ := answers.execute_call stored parses (serves final)
  obtain ⟨last, held, header⟩ := waits rfl
  rw [encodePublish_eq publishable.retain encoded]
  exact ⟨final, draft, last, later, runs, drafted, topicLen, payloadLen, read, held, header⟩

/-- The shortest PUBLISH of QoS 1. -/
theorem publish_round_trip_short :
    ∃ final draft later,
      ((Host.recorder false).traced.mqttParserExecute [0x32, 6, 0, 1, 97, 0, 7, 98]).run
          (mqttParserInit, []) = (.ok 0, later, [.callback final .publish]) ∧
        final.publish.mp = some draft ∧ draft.message = ⟨0, 1, 0, 7, [97], [98]⟩ := by
  have bytes : encodePublish 1500 ⟨0, 1, 0, 0, [97], [98]⟩ 1 7 = [0x32, 6, 0, 1, 97, 0, 7, 98] := by
    decide +kernel
  obtain ⟨final, draft, _, later, runs, drafted, _, _, read, _⟩ :=
    publish_round_trip (Host.recorder_answers false) (fun s state same => ⟨state, s, rfl, same⟩)
      (Eq.refl mqttParserInit) rfl ⟨0, 1, 0, 0, [97], [98]⟩
      ⟨⟨by decide, by decide, by decide, by decide, rfl⟩, by decide⟩ 1 7 1500 (by decide)
      (by decide) (by rw [bytes]; simp)
  rw [bytes] at runs
  exact ⟨final, draft, later, runs, drafted, read⟩

/-- The message of a PUBLISH packet, as a parser that has read nothing before finds it. -/
def decodePublish (packet : List Byte) : Option Message :=
  match ((Host.recorder false).traced.mqttParserExecute packet).run (mqttParserInit, []) with
  | (.ok 0, _, [.callback s .publish]) => s.publish.mp.map Draft.message
  | _ => none

theorem decodePublish_encodePublish {mp : Message} (publishable : Publishable mp) {qos msgId len : Nat}
    (qosBits : qos ≤ 3) (idBits : msgId < 2 ^ 16) (encoded : encodePublish len mp qos msgId ≠ []) :
    decodePublish (encodePublish len mp qos msgId) = some (received mp qos msgId) := by
  obtain ⟨final, draft, parses, _, drafted, read⟩ :
      ∃ final draft, Parses false true mqttParserInit _ (.call final .publish) ∧ _ :=
    parses_publishPacket rfl publishable.toWellformed qosBits idBits publishable.payloadShort
  obtain ⟨later, runs, _⟩ := (Host.recorder_answers false).execute_call
    (Eq.refl mqttParserInit) parses (Host.recorder_returns false final .publish)
  rw [decodePublish, encodePublish_eq publishable.retain encoded, runs]
  simp [drafted, read]

/-! ### Payloads of any size -/

/-- What should become of a PUBLISH: its last byte, and no other, hands the topic and the
payload to `on_recv_publish`, behind whose success the next packet is awaited, or the
packet is rejected with an error. -/
def PublishSettled {State : Type} (host : Host State) (At : Session → State → Prop) (state : State)
    (mp : Message) (qos msgId : Nat) : Prop :=
  (∃ called draft quiet later rv,
    (host.traced.mqttParserExecute (publishPacket mp qos msgId).dropLast).run (state, []) =
        (.ok 0, quiet, []) ∧
      (host.traced.mqttParserExecute (publishPacket mp qos msgId)).run (state, []) =
        (.ok rv, later, [.callback called .publish]) ∧
      called.publish.mp = some draft ∧ draft.message.topic = mp.topic ∧
      draft.message.payload = mp.payload ∧ (rv = 0 → ∃ last, At last later ∧ last.state = .header)) ∨
  ∃ later rv, rv ≠ 0 ∧
    (host.traced.mqttParserExecute (publishPacket mp qos msgId)).run (state, []) = (.ok rv, later, [])

section Sizes

variable {State : Type} {host : Host State} {At : Session → State → Prop} {s : Session} {state : State}
  {mp : Message} {qos msgId : Nat}

private theorem publishSettled_of_short (answers : host.Answers true At) (stored : At s state)
    (atHeader : s.state = .header) (wellformed : Wellformed mp) (qosBits : qos ≤ 2)
    (idBits : msgId < 2 ^ 16) (short : mp.payload.length < 2 ^ 16) {rv : Nat}
    (returns : ∀ called, host.CallbackReturns At called .publish rv) :
    PublishSettled host At state mp qos msgId := by
  obtain ⟨called, draft, parses, _, drafted, read⟩ :
      ∃ called draft, Parses host.allowAnonymous true s _ (.call called .publish) ∧ _ :=
    parses_publishPacket atHeader wellformed (qosBits.trans (by decide)) idBits short
  obtain ⟨quiet, front⟩ := answers.execute_dropLast stored parses
  obtain ⟨later, runs, waits⟩ := answers.execute_call stored parses (returns called)
  refine .inl ⟨called, draft, quiet, later, _, front, runs, drafted, ?_, ?_, ?_⟩
  · rw [read]
    rfl
  · rw [read]
    rfl
  · intro succeeds
    apply waits
    by_contra fails
    rw [if_neg fails] at succeeds
    exact absurd succeeds (by decide)

/-- Where the message cannot be allocated the packet is rejected behind its topic. -/
theorem publishSettled_of_failed (answers : host.Answers false At) (stored : At s state)
    (atHeader : s.state = .header) (wellformed : Wellformed mp) (qosBits : qos ≤ 2)
    (small : publishLen qos mp.topic.length mp.payload.length < 2 ^ 28)
    (refuses : ∀ s state, At s state → ∃ later, (host.refused s).run state = (.ok (), later)) :
    PublishSettled host At state mp qos msgId := by
  obtain ⟨_, refused, parses, _⟩ : ∃ next refused, Parses host.allowAnonymous false s _ _ ∧ _ :=
    parses_publish_topic atHeader wellformed (qosBits.trans (by decide)) (by omega)
  obtain ⟨later, runs⟩ := answers.execute_ret stored parses (refuses refused)
    ((if qos > 0 then encodeShort msgId else []) ++ mp.payload)
  refine .inr ⟨later, 1, by decide, ?_⟩
  rw [publishPacket, List.append_assoc]
  exact runs

/-- A PUBLISH is settled by its last byte exactly if its payload is within reach of the
16-bit counter, or if it is rejected because its message cannot be allocated. -/
theorem publish_settled_iff {mallocOk : Bool} (answers : host.Answers mallocOk At) (stored : At s state)
    (atHeader : s.state = .header) (wellformed : Wellformed mp) (qosBits : qos ≤ 2)
    (idBits : msgId < 2 ^ 16) (small : publishLen qos mp.topic.length mp.payload.length < 2 ^ 28)
    {rv : Nat} (returns : ∀ called, host.CallbackReturns At called .publish rv)
    (refuses : ∀ s state, At s state → ∃ later, (host.refused s).run state = (.ok (), later)) :
    PublishSettled host At state mp qos msgId ↔ mp.payload.length < 2 ^ 16 ∨ mallocOk = false := by
  cases mallocOk with
  | false =>
      refine iff_of_true ?_ (.inr rfl)
      exact publishSettled_of_failed answers stored atHeader wellformed qosBits small refuses
  | true =>
      by_cases short : mp.payload.length < 2 ^ 16
      · refine iff_of_true ?_ (.inl short)
        exact publishSettled_of_short answers stored atHeader wellformed qosBits idBits short returns
      · refine iff_of_false ?_ (by simpa using short)
        -- the loop returns 0 behind the last byte, without a call
        obtain ⟨next, parses, _⟩ : ∃ next, Parses host.allowAnonymous true s _ (.next next) ∧ _ :=
          parses_publishPacket_long atHeader wellformed (qosBits.trans (by decide)) idBits (by omega)
            (by omega)
        obtain ⟨later, runs, _⟩ := answers.execute_next stored parses
        intro settled
        rcases settled with ⟨_, _, _, _, _, _, calls, _⟩ | ⟨_, rv, isError, returned⟩
        · rw [runs] at calls
          exact absurd (congrArg (fun result => result.2.2) calls) (by simp)
        · rw [runs] at returned
          exact isError (Except.ok.inj (congrArg Prod.fst returned)).symm

/-- The shortest PUBLISH. -/
theorem publish_settled_iff_short :
    PublishSettled (Host.recorder false) (fun s state => s = state) mqttParserInit
        ⟨0, 0, 0, 0, [97], [98]⟩ 0 0 ↔ [98].length < 2 ^ 16 ∨ true = false :=
  publish_settled_iff (Host.recorder_answers false) (Eq.refl mqttParserInit) rfl
    ⟨by decide, by decide, by decide, by decide, rfl⟩ (by decide) (by decide) (by decide)
    (fun called => Host.recorder_returns false called .publish) (fun _ state _ => ⟨state, rfl⟩)

/-- A PUBLISH with a payload of 65536 bytes: its last byte leaves the parser in the
payload, and no callback has been called. -/
theorem publish_stays_in_payload :
    ∃ later, ((Host.recorder false).traced.mqttParserExecute
        (publishPacket ⟨0, 0, 0, 0, [97], List.replicate 65536 98⟩ 0 0)).run (mqttParserInit, []) =
          (.ok 0, later, []) ∧ later.state = .publish .payload := by
  have length : (List.replicate 65536 (98 : Byte)).length = 65536 := List.length_replicate
  have wellformed : Wellformed ⟨0, 0, 0, 0, [97], List.replicate 65536 98⟩ :=
    ⟨by decide, by decide, by rw [length]; decide, by decide, rfl⟩
  obtain ⟨next, parses, stays⟩ : ∃ next, Parses false true mqttParserInit
      (publishPacket ⟨0, 0, 0, 0, [97], List.replicate 65536 98⟩ 0 0) (.next next) ∧ _ :=
    parses_publishPacket_long rfl wellformed (by decide) (by decide)
      (by rw [length]; decide) (by rw [length]; decide)
  obtain ⟨later, runs, same⟩ := (Host.recorder_answers false).execute_next
    (Eq.refl mqttParserInit) parses
  exact ⟨later, runs, same ▸ stays⟩

end Sizes

end FbBroker.Parser
