import Mathlib.Data.List.Basic
import FbBroker.Parser.Bounds

/-!
Contract: a PUBLISH writes inside the block its message is allocated in.

Owns the layout of the block of `message_create`, the list of the writes of each
round of a PUBLISH, which overruns exactly where one of them is outside, and the
invariant that keeps them inside: the topic fits its
array, and the payload counter, narrower than the payload length, wraps around
below it. A PUBLISH overruns nothing, whatever lengths it announces.

Does not own the contents of the message.
-/

set_option autoImplicit false

namespace FbBroker.Parser

open FbBroker.Packet FbBroker.Lib

variable {allowAnonymous mallocOk : Bool} {s : Session} {b : Byte}

/-! ### The block of a message -/

/-- `sizeof(message_st)` where pointers have eight bytes. -/
def sizeofMessage : Nat := 1336

/-- `MESSAGE_SIZE`, a `size_t`. -/
def messageSize (topicLen payloadLen : Nat) : Nat :=
  (sizeofMessage + topicLen + payloadLen + 2) % 2 ^ 64

/-- `mp->topic`, as an offset in the block. -/
def topicOffset : Nat := sizeofMessage

/-- `mp->payload`, as an offset in the block. -/
def payloadOffset (topicLen : Nat) : Nat := sizeofMessage + topicLen + 1

/-- An indexed write of the PUBLISH states. -/
inductive Write where
  /-- `u.publish.topic[index]` -/
  | topic (index : Nat)
  /-- `mp->topic[index]`, in a block for the two lengths -/
  | messageTopic (topicLen payloadLen index : Nat)
  /-- `mp->payload[index]`, in a block for the two lengths -/
  | messagePayload (topicLen payloadLen index : Nat)
deriving DecidableEq, Repr

/-- The write is inside its array or block; one to the payload lies behind the
topic and its NUL, one to the topic in front of the payload. -/
def Write.InBounds : Write → Prop
  | .topic index => index < maxTopicLen + 1
  | .messageTopic topicLen payloadLen index =>
      topicOffset + index < messageSize topicLen payloadLen ∧
        topicOffset + index < payloadOffset topicLen
  | .messagePayload topicLen payloadLen index =>
      payloadOffset topicLen + index < messageSize topicLen payloadLen ∧
        topicOffset + topicLen < payloadOffset topicLen + index

/-- The payload length computed behind the topic. -/
def computedPayloadLen (s : Session) : Nat :=
  sub32 s.remLen (s.publish.topicLen + if s.header.qos ≠ 0 then 4 else 2)

/-- The writes of `message_create` and of the copy of the topic. -/
def createWrites (topicLen payloadLen : Nat) : List Write :=
  .messageTopic topicLen payloadLen topicLen :: .messagePayload topicLen payloadLen payloadLen ::
    (List.range topicLen).map (.messageTopic topicLen payloadLen)

/-- The indexed writes of a round of a PUBLISH. -/
def publishWrites (mallocOk : Bool) (s : Session) : PublishState → List Write
  | .topic2 =>
      .topic s.i ::
        if incr16 s.i = s.publish.topicLen then
          .topic (incr16 s.i) ::
            if computedPayloadLen s ≠ 0 ∧ mallocOk then
              createWrites s.publish.topicLen (computedPayloadLen s)
            else []
        else []
  | .payload =>
      match s.publish.mp with
      | none => []
      | some mp =>
          .messagePayload mp.topicLen mp.payloadLen s.i ::
            if incr16 s.i = s.publish.payloadLen then
              [.messagePayload mp.topicLen mp.payloadLen (incr16 s.i)]
            else []
  | _ => []

/-- The index is inside the array that the write names. -/
def Write.Inside : Write → Prop
  | .topic index => index < maxTopicLen + 1
  | .messageTopic topicLen _ index => index < topicLen + 1
  | .messagePayload _ payloadLen index => index < payloadLen + 1

private theorem Write.InBounds.inside {write : Write} (bounds : write.InBounds) : write.Inside := by
  cases write with
  | topic index => exact bounds
  | messageTopic topicLen payloadLen index =>
      have front := bounds.2
      rw [topicOffset, payloadOffset] at front
      rw [Write.Inside]
      omega
  | messagePayload topicLen payloadLen index =>
      have fits := Nat.lt_of_lt_of_le bounds.1 (Nat.mod_le _ _)
      rw [payloadOffset] at fits
      rw [Write.Inside]
      omega

private theorem inside_createWrites {topicLen payloadLen : Nat} {write : Write}
    (member : write ∈ createWrites topicLen payloadLen) : write.Inside := by
  simp only [createWrites, List.mem_cons, List.mem_map, List.mem_range] at member
  rcases member with nul | nul | ⟨index, inside, copied⟩
  · exact nul ▸ Nat.lt_succ_self _
  · exact nul ▸ Nat.lt_succ_self _
  · exact copied ▸ Nat.lt_succ_of_lt inside

private theorem store_overruns_iff {size index : Nat} {array : Nat → Byte} {rest : (Nat → Byte) → Outcome} :
    store size array index b rest = .stop .outOfBounds ↔
      ¬ index < size ∨ rest (Function.update array index b) = .stop .outOfBounds := by
  by_cases inside : index < size <;> simp [store, inside]

private theorem topicDone_goes_on {fault : Fault} : topicDone mallocOk s ≠ .stop fault := by
  unfold topicDone
  grind

/-- A round overruns an array exactly if one of the writes listed for it is outside. -/
theorem publishByte_overruns_iff {state : PublishState} :
    publishByte mallocOk s b state = .stop .outOfBounds ↔
      ∃ write ∈ publishWrites mallocOk s state, ¬ write.Inside := by
  cases state with
  | topic2 =>
      rw [publishByte, publishWrites, store_overruns_iff, List.exists_mem_cons_iff]
      refine or_congr Iff.rfl ?_
      dsimp only
      split
      · rw [store_overruns_iff, List.exists_mem_cons_iff]
        refine or_congr Iff.rfl (iff_of_false topicDone_goes_on ?_)
        rintro ⟨write, member, outside⟩
        split at member
        · exact outside (inside_createWrites member)
        · exact absurd member List.not_mem_nil
      · simp
  | payload =>
      cases allocated : s.publish.mp with
      | none => simp [publishByte, publishWrites, allocated]
      | some mp =>
          simp only [publishByte, publishWrites, allocated, store_overruns_iff, List.exists_mem_cons_iff]
          refine or_congr Iff.rfl ?_
          split <;> simp [store_overruns_iff, Write.Inside]
  | _ => grind [publishByte, publishWrites]

private theorem messageSize_eq {topicLen payloadLen : Nat} (topicShort : topicLen ≤ maxTopicLen)
    (payloadShort : payloadLen < 2 ^ 32) :
    messageSize topicLen payloadLen = sizeofMessage + topicLen + payloadLen + 2 := by
  rw [maxTopicLen] at topicShort
  rw [messageSize, sizeofMessage]
  omega

/-- Any index up to the NUL of the topic is inside the block, in front of the
payload. -/
theorem inBounds_messageTopic {topicLen payloadLen index : Nat} (topicShort : topicLen ≤ maxTopicLen)
    (payloadShort : payloadLen < 2 ^ 32) (inside : index ≤ topicLen) :
    (Write.messageTopic topicLen payloadLen index).InBounds := by
  rw [Write.InBounds, messageSize_eq topicShort payloadShort, topicOffset, payloadOffset]
  omega

/-- Any index up to the NUL of the payload is inside the block, behind the
topic. -/
theorem inBounds_messagePayload {topicLen payloadLen index : Nat} (topicShort : topicLen ≤ maxTopicLen)
    (payloadShort : payloadLen < 2 ^ 32) (inside : index ≤ payloadLen) :
    (Write.messagePayload topicLen payloadLen index).InBounds := by
  rw [Write.InBounds, messageSize_eq topicShort payloadShort, topicOffset, payloadOffset]
  omega

private theorem inBounds_createWrites {topicLen payloadLen : Nat} (topicShort : topicLen ≤ maxTopicLen)
    (payloadShort : payloadLen < 2 ^ 32) :
    ∀ write ∈ createWrites topicLen payloadLen, write.InBounds := by
  intro write member
  simp only [createWrites, List.mem_cons, List.mem_map, List.mem_range] at member
  rcases member with nul | nul | ⟨index, inside, copied⟩
  · subst nul
    exact inBounds_messageTopic topicShort payloadShort (Nat.le_refl topicLen)
  · subst nul
    exact inBounds_messagePayload topicShort payloadShort (Nat.le_refl payloadLen)
  · subst copied
    exact inBounds_messageTopic topicShort payloadShort inside.le

/-! ### PUBLISH -/

/-- The message has been allocated for the lengths of the packet. -/
structure Drafted (s : Session) : Prop where
  topicShort : s.publish.topicLen ≤ maxTopicLen
  positive : 0 < s.publish.payloadLen
  narrow : s.publish.payloadLen < 2 ^ 32
  draft : ∃ mp, s.publish.mp = some mp ∧ mp.topicLen = s.publish.topicLen ∧
    mp.payloadLen = s.publish.payloadLen

/-- In the states behind the topic length the counters are within the arrays;
the payload may be longer than its counter reaches. -/
def Session.PublishBounded (s : Session) : Prop :=
  match s.state with
  | .publish .topic2 => Filling s.i s.publish.topicLen maxTopicLen
  | .publish .packetId0 => s.i = 0 ∧ Drafted s
  | .publish .packetId1 => s.i = 0 ∧ Drafted s
  | .publish .payload => s.i < s.publish.payloadLen ∧ Drafted s
  | _ => True

private theorem publishBounded_packet : PacketInvariant .publish Session.PublishBounded where
  elsewhere := by
    intro s outside
    unfold Session.PublishBounded
    split <;> first
      | exact absurd (congrArg PState.packet ‹_›) outside
      | trivial
  begins := by
    intro s
    unfold dispatch
    split <;> trivial

/-- The session behind the allocation of a message. -/
def withDraft (s : Session) (payloadLen : Nat) (state : PublishState) : Session :=
  { s with
    publish.payloadLen := payloadLen
    publish.mp := some { messageCreate s.publish.topicLen payloadLen s.header.dup s.header.qos
      s.header.retain 0 with topic := s.publish.topic }
    i := 0
    state := .publish state }

private theorem withDraft_drafted {payloadLen : Nat} {state : PublishState}
    (short : s.publish.topicLen ≤ maxTopicLen) (positive : payloadLen ≠ 0)
    (narrow : payloadLen < 2 ^ 32) : Drafted (withDraft s payloadLen state) :=
  ⟨short, Nat.pos_of_ne_zero positive, narrow, _, rfl, rfl, rfl⟩

private theorem topicDone_bounded (short : s.publish.topicLen ≤ maxTopicLen) :
    (topicDone mallocOk s).Within Session.PublishBounded := by
  unfold topicDone
  by_cases withId : s.header.qos ≠ 0
  · have narrow := sub32_lt s.remLen (s.publish.topicLen + 4)
    simp only [if_pos withId]
    refine meets_ite (fun _ => trivial) fun positive => meets_ite (fun _ => ?_) fun _ => trivial
    have drafted : Drafted (withDraft s _ .packetId0) := withDraft_drafted short positive narrow
    exact ⟨rfl, drafted⟩
  · have narrow := sub32_lt s.remLen (s.publish.topicLen + 2)
    simp only [if_neg withId]
    refine meets_ite (fun _ => trivial) fun positive => meets_ite (fun _ => ?_) fun _ => trivial
    have drafted : Drafted (withDraft s _ .payload) := withDraft_drafted short positive narrow
    exact ⟨drafted.positive, drafted⟩

private theorem publishByte_bounded {state : PublishState}
    (here : s.state = .publish state) (bounded : s.PublishBounded) :
    (publishByte mallocOk s b state).Within Session.PublishBounded := by
  rw [Session.PublishBounded, here] at bounded
  cases state with
  | topic0 => trivial
  | topic1 => exact meets_ite (fun _ => trivial) fun announced => Filling.start announced
  | topic2 =>
      simp only [publishByte]
      refine within_store bounded.room (meets_ite (fun last => ?_) fun more => ?_)
      · exact within_store (bounded.roomEnd last) (topicDone_bounded bounded.bounded)
      · simp only [meets_next, Session.PublishBounded, here]
        exact bounded.next (by decide) more
  | packetId0 =>
      obtain ⟨start, short, positive, narrow, mp, drafted, topicLen, payloadLen⟩ := bounded
      simp only [publishByte, drafted]
      exact ⟨start, short, positive, narrow, _, rfl, topicLen, payloadLen⟩
  | packetId1 =>
      obtain ⟨start, short, positive, narrow, mp, drafted, topicLen, payloadLen⟩ := bounded
      simp only [publishByte, drafted]
      exact ⟨start ▸ positive, short, positive, narrow, _, rfl, topicLen, payloadLen⟩
  | payload =>
      obtain ⟨inside, short, positive, narrow, mp, drafted, topicLen, payloadLen⟩ := bounded
      -- a counter that wraps around falls back below the length
      have counter : incr16 s.i ≤ s.i + 1 := Nat.mod_le _ _
      simp only [publishByte, drafted]
      refine within_store (by omega) (meets_ite (fun last => ?_) fun more => ?_)
      · exact within_store (by omega) trivial
      · simp only [meets_next, Session.PublishBounded, here]
        refine ⟨?_, short, positive, narrow, _, rfl, topicLen, payloadLen⟩
        show incr16 s.i < s.publish.payloadLen
        omega

private theorem parserByte_publish_bounded
    (inPacket : s.state.packet = some .publish) (bounded : s.PublishBounded) :
    (parserByte allowAnonymous mallocOk s b).Within Session.PublishBounded := by
  unfold parserByte
  cases here : s.state with
  | publish state => exact publishByte_bounded here bounded
  | _ => simp [here, PState.packet] at inPacket

private theorem publishBounded_reachable {stream : Stream}
    (reached : (streams allowAnonymous).Reachable stream) : stream.session.PublishBounded :=
  publishBounded_packet.reachable
    (fun _ _ inPacket bounded _ => parserByte_publish_bounded inPacket bounded)
    (Lib.System.Reachable.restrict_always (fun (_ : Stream) (_ : Input) => trivial) reached)

/-- The writes a round makes are inside the arrays and the block. -/
private theorem inBounds_publishWrites {state : PublishState} (bounded : s.PublishBounded)
    (here : s.state = .publish state) (mallocOk : Bool) :
    ∀ write ∈ publishWrites mallocOk s state, write.InBounds := by
  rw [Session.PublishBounded, here] at bounded
  intro write member
  cases state with
  | topic2 =>
      have narrow : computedPayloadLen s < 2 ^ 32 := sub32_lt _ _
      rw [publishWrites, List.mem_cons] at member
      rcases member with byte | behind
      · subst byte
        exact bounded.room
      · split at behind
        · rename_i last
          rcases List.mem_cons.mp behind with nul | created
          · subst nul
            exact bounded.roomEnd last
          · split at created
            · exact inBounds_createWrites bounded.bounded narrow write created
            · exact absurd created List.not_mem_nil
        · exact absurd behind List.not_mem_nil
  | payload =>
      obtain ⟨inside, short, -, narrow, mp, drafted, topicLen, payloadLen⟩ := bounded
      simp only [publishWrites, drafted, topicLen, payloadLen] at member
      rcases List.mem_cons.mp member with byte | behind
      · subst byte
        exact inBounds_messagePayload short narrow inside.le
      · split at behind
        · rename_i last
          rw [List.mem_singleton.mp behind]
          exact inBounds_messagePayload short narrow last.le
        · exact absurd behind List.not_mem_nil
  | _ => exact absurd member List.not_mem_nil

/-- In every stream, whatever lengths it announces, a round of a PUBLISH writes
inside the topic array and the allocated block only, and the payload behind the
topic and its NUL. -/
theorem publish_buffers_in_bounds {allowAnonymous : Bool} {stream : Stream} {state : PublishState}
    (reached : (streams allowAnonymous).Reachable stream)
    (here : stream.session.state = .publish state) (input : Input) :
    parserByte allowAnonymous input.mallocOk stream.session input.byte ≠ .stop .outOfBounds ∧
      ∀ write ∈ publishWrites input.mallocOk stream.session state, write.InBounds := by
  have bounds := inBounds_publishWrites (publishBounded_reachable reached) here input.mallocOk
  refine ⟨fun overrun => ?_, bounds⟩
  simp only [parserByte, here] at overrun
  obtain ⟨write, member, outside⟩ := publishByte_overruns_iff.mp overrun
  exact outside (bounds write member).inside

/-- A PUBLISH that declares fewer bytes than its topic takes: the payload length wraps
around. -/
theorem publish_buffers_in_bounds_wrapped :
    ∃ stream, (streams false).Reachable stream ∧ stream.session.state = .publish .payload ∧
      stream.session.publish.payloadLen = 2 ^ 32 - 1 ∧
      parserByte false true stream.session 98 ≠ .stop .outOfBounds := by
  have ran : ((streams false).run .initial (feed [0x30, 2, 0, 1, 97])).any (fun stream =>
      stream.session.state == .publish .payload && stream.session.publish.payloadLen == 2 ^ 32 - 1) =
        true := by
    decide +kernel
  obtain ⟨stream, final, found⟩ := Option.any_eq_true _ _ |>.mp ran
  obtain ⟨position, wrapped⟩ := Bool.and_eq_true_iff.mp found
  have here := eq_of_beq position
  have reached := System.Reachable.run (.start rfl) final
  exact ⟨stream, reached, here, eq_of_beq wrapped,
    (publish_buffers_in_bounds reached here ⟨98, true, 0⟩).1⟩

end FbBroker.Parser
