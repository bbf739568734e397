import FbBroker.Parser.Frame
import FbBroker.Parser.Framing

/-!
Contract: the indexed writes of the parser stay inside their arrays.

Owns the invariant that ties the counter of each field to the announced length
and to the size of the array it is copied into, per packet and over whole
streams. A CONNECT overruns the protocol name it announces as empty, and a
SUBSCRIBE or UNSUBSCRIBE its arrays with an eleventh filter or an empty one.

Does not own the block of a message, nor what the callbacks write.
-/

set_option autoImplicit false

namespace FbBroker.Parser

open FbBroker.Packet FbBroker.Lib

variable {allowAnonymous mallocOk : Bool} {s : Session} {b : Byte} {stream : Stream} {input : Input}

/-! ### Counters -/

/-- A counter below the length it is compared with for equality, and that
length within a bound. -/
structure Filling (i length bound : Nat) : Prop where
  inside : i < length
  bounded : length ≤ bound

theorem Filling.start {length bound : Nat} (announced : ¬ (length = 0 ∨ length > bound)) :
    Filling 0 length bound :=
  ⟨by omega, by omega⟩

/-- A counter that has not met its length is still below it. -/
theorem Filling.next {i length bound : Nat} (filling : Filling i length bound)
    (narrow : bound < 2 ^ 16) (more : incr16 i ≠ length) : Filling (incr16 i) length bound := by
  obtain ⟨inside, bounded⟩ := filling
  rw [incr16_of_lt (by omega)] at more ⊢
  exact ⟨by omega, bounded⟩

theorem Filling.room {i length bound : Nat} (filling : Filling i length bound) : i < bound + 1 :=
  filling.inside.trans_le (filling.bounded.trans (Nat.le_succ bound))

/-- The terminating NUL lies behind the last byte. -/
theorem Filling.roomEnd {i length bound : Nat} (filling : Filling i length bound)
    (last : incr16 i = length) : incr16 i < bound + 1 :=
  last ▸ Nat.lt_succ_of_le filling.bounded

/-! ### Rounds without a fault -/

/-- The round has no fault, and the session it goes on with satisfies a
condition. -/
abbrev Outcome.Within (onNext : Session → Prop) : Outcome → Prop :=
  Outcome.Meets ⟨onNext, fun _ _ => True, fun _ _ => True, fun _ => True, fun _ => False⟩

theorem within_store {size i : Nat} {array : Nat → Byte}
    {rest : (Nat → Byte) → Outcome} {onNext : Session → Prop} (room : i < size)
    (follows : (rest (Function.update array i b)).Within onNext) :
    (store size array i b rest).Within onNext :=
  meets_store (fun _ => follows) fun outside => outside room

theorem Outcome.Within.no_overrun {outcome : Outcome} {onNext : Session → Prop}
    (within : outcome.Within onNext) : outcome ≠ .stop .outOfBounds := by
  intro stops
  rw [stops] at within
  exact within

theorem Outcome.Within.next {outcome : Outcome} {onNext : Session → Prop}
    (within : outcome.Within onNext) (goesOn : outcome = .next s) : onNext s := by
  rw [goesOn] at within
  exact within

/-! ### Packets -/

/-- The packet a state belongs to; none in front of its dispatch. -/
def PState.packet : PState → Option MsgType
  | .header => none
  | .remLen => none
  | .connect _ => some .connect
  | .subscribe _ => some .subscribe
  | .unsubscribe _ => some .unsubscribe
  | .publish _ => some .publish

/-- A round goes on within the packet. -/
theorem parserByte_packet (inPacket : s.state.packet ≠ none) :
    (parserByte allowAnonymous mallocOk s b).Ensures
      (fun next => next.state.packet = s.state.packet) fun _ _ => True := by
  unfold parserByte
  cases here : s.state with
  | header => simp [here, PState.packet] at inPacket
  | remLen => simp [here, PState.packet] at inPacket
  | _ state =>
      -- every state of the four packets, down to the sessions its tests lead to
      cases state <;> simp only [connectByte, clientIdDone, subscribeByte, unsubscribeByte, filterLength,
          filterByte, publishByte, topicDone] <;>
        repeat' first
          | exact congrArg PState.packet here
          | rfl
          | trivial
          | refine ensures_store fun _ => ?_
          | refine meets_ite (fun _ => ?_) fun _ => ?_
          | split

/-- The session behind a byte: the parser went on with it, or a callback
succeeded and the next packet is awaited. -/
theorem Stream.step_session {stream next : Stream}
    (stepped : stream.step allowAnonymous input = some next) :
    parserByte allowAnonymous input.mallocOk stream.session input.byte = .next next.session ∨
      ∃ s request, parserByte allowAnonymous input.mallocOk stream.session input.byte =
        .call s request ∧ next.session = { s with state := .header } := by
  unfold Stream.step at stepped
  split at stepped
  · rename_i s round
    obtain rfl := Option.some.inj stepped
    exact .inl round
  · rename_i s request round
    split at stepped
    · exact absurd stepped (by simp)
    · obtain rfl := Option.some.inj stepped
      exact .inr ⟨s, request, round, rfl⟩
  · exact absurd stepped (by simp)

/-- The values the callbacks rely on are in range all along a stream. -/
theorem Session.Ok.reachable (reached : (streams allowAnonymous).Reachable stream) : stream.session.Ok := by
  induction reached with
  | start isInitial =>
      rw [isInitial]
      exact mqttParserInit_ok
  | @next stream next input _ stepped ok =>
      have ensures : (parserByte allowAnonymous input.mallocOk stream.session input.byte).Ensures
          Session.Ok fun last _ => last.Ok := parserByte_ok ok
      rcases Stream.step_session stepped with goesOn | ⟨s, request, calls, session⟩
      · rw [goesOn] at ensures
        exact ensures
      · rw [calls] at ensures
        rw [session]
        exact ensures.toHeader

/-- A condition on the states of one packet that holds where the packet begins. -/
structure PacketInvariant (packet : MsgType) (inv : Session → Prop) : Prop where
  elsewhere : ∀ {s : Session}, s.state.packet ≠ some packet → inv s
  begins : ∀ {s : Session}, (dispatch s).Ensures inv fun _ _ => True

/-- Outside the packet a round keeps the condition. -/
theorem PacketInvariant.outside {packet : MsgType} {inv : Session → Prop}
    (invariant : PacketInvariant packet inv)
    (outside : s.state.packet ≠ some packet) :
    (parserByte allowAnonymous mallocOk s b).Ensures inv fun _ _ => True := by
  by_cases inPacket : s.state.packet = none
  · unfold parserByte
    cases here : s.state with
    | header =>
        refine meets_ite (fun _ => trivial) fun _ => meets_ite (fun _ => trivial) fun _ => ?_
        exact invariant.elsewhere (by simp [PState.packet])
    | remLen =>
        refine meets_ite (fun _ => invariant.begins) fun _ => ?_
        exact invariant.elsewhere (by simp [here, PState.packet])
    | _ => simp [here, PState.packet] at inPacket
  · refine (parserByte_packet inPacket).mono (fun next stays => ?_) fun _ _ _ => trivial
    exact invariant.elsewhere (stays ▸ outside)

/-- A condition that the rounds of the packet keep holds in every reachable
session. -/
theorem PacketInvariant.reachable {packet : MsgType} {inv : Session → Prop}
    (invariant : PacketInvariant packet inv) {allowed : Stream → Input → Prop}
    [∀ stream input, Decidable (allowed stream input)]
    (inside : ∀ stream input, stream.session.state.packet = some packet → inv stream.session →
      allowed stream input →
      (parserByte allowAnonymous input.mallocOk stream.session input.byte).Within inv)
    (reached : ((streams allowAnonymous).restrict allowed).Reachable stream) :
    inv stream.session := by
  induction reached with
  | start isInitial =>
      rw [isInitial]
      exact invariant.elsewhere (by simp [Stream.initial, mqttParserInit, PState.packet])
  | @next stream next input _ stepped holds =>
      obtain ⟨meets, steps⟩ := System.restrict_step.mp stepped
      rcases Stream.step_session steps with goesOn | ⟨s, request, calls, session⟩
      · by_cases here : stream.session.state.packet = some packet
        · exact (inside stream input here holds meets).next goesOn
        · have ensures : (parserByte allowAnonymous input.mallocOk stream.session input.byte).Ensures
              inv fun _ _ => True := invariant.outside here
          rw [goesOn] at ensures
          exact ensures
      · rw [session]
        exact invariant.elsewhere (by simp [PState.packet])

/-! ### Overruns -/

/-- The next byte makes the parser write outside an array. -/
def overruns (state : PState) (b : Byte) (stream : Stream) : Bool :=
  stream.session.state == state &&
    match parserByte false true stream.session b with
    | .stop .outOfBounds => true
    | _ => false

private theorem overrun_of_run {bytes : List Byte} {state : PState}
    (ran : ((streams false).run .initial (feed bytes)).any (overruns state b) = true) :
    ∃ stream, (streams false).Reachable stream ∧ stream.session.state = state ∧
      parserByte false true stream.session b = .stop .outOfBounds := by
  obtain ⟨stream, final, found⟩ := Option.any_eq_true _ _ |>.mp ran
  obtain ⟨here, outside⟩ := Bool.and_eq_true_iff.mp found
  refine ⟨stream, .run (.start rfl) final, eq_of_beq here, ?_⟩
  split at outside
  · assumption
  · exact absurd outside Bool.false_ne_true

/-! ### CONNECT -/

/-- In the states that copy a field of a CONNECT the counter is within the
field's array. -/
def ConnectBounded (s : Session) : ConnectState → Prop
  | .packetId0 => False
  | .packetId1 => False
  | .protocol2 => Filling s.i s.connect.u16 6
  | .clientId2 => Filling s.i s.clientIdLen maxIdLen
  | .willTopic2 => Filling s.i s.connect.willTopicLen (maxTopicLen + 1)
  | .willPayload2 =>
      Filling s.i s.connect.u16 maxPayloadLen ∧
        ∃ mp, s.willMp = some mp ∧ mp.payloadLen = s.connect.u16
  | .username2 => Filling s.i s.usernameLen maxIdLen
  | .password2 => Filling s.i s.connect.u16 maxIdLen
  | _ => True

def Session.ConnectBounded (s : Session) : Prop :=
  match s.state with
  | .connect state => Parser.ConnectBounded s state
  | _ => True

theorem Session.ConnectBounded.of_state {state : ConnectState}
    (here : s.state = .connect state) (bounded : Parser.ConnectBounded s state) : s.ConnectBounded := by
  rw [Session.ConnectBounded, here]
  exact bounded

/-- The length of a protocol name is not 0 where its second byte arrives. -/
def NamesProtocol (stream : Stream) (input : Input) : Prop :=
  stream.session.state = .connect .protocol1 → low stream.session.connect.u16 input.byte ≠ 0

instance (stream : Stream) (input : Input) : Decidable (NamesProtocol stream input) := by
  unfold NamesProtocol
  infer_instance

private theorem clientIdDone_bounded :
    (clientIdDone allowAnonymous s).Within Session.ConnectBounded := by
  refine meets_ite (fun _ => trivial) fun _ => meets_ite (fun _ => trivial) fun _ => ?_
  exact meets_ite (fun _ => trivial) fun _ => meets_ite (fun _ => trivial) fun _ => trivial

private theorem connectByte_bounded
    {state : ConnectState} (here : s.state = .connect state) (bounded : ConnectBounded s state)
    (named : state = .protocol1 → low s.connect.u16 b ≠ 0) :
    (connectByte allowAnonymous mallocOk s b state).Within Session.ConnectBounded := by
  cases state with
  | packetId0 => exact bounded.elim
  | packetId1 => exact bounded.elim
  | protocol1 =>
      exact meets_ite (fun _ => trivial) fun short =>
        Filling.start fun announced => announced.elim (named rfl) short
  | protocol2 =>
      simp only [connectByte]
      refine within_store bounded.room (meets_ite (fun _ => trivial) fun more => ?_)
      exact .of_state here (bounded.next (by decide) more)
  | version =>
      exact meets_ite (fun _ => trivial) fun _ => meets_ite (fun _ => trivial) fun _ => trivial
  | clientId1 => exact meets_ite (fun _ => trivial) fun announced => Filling.start announced
  | clientId2 =>
      simp only [connectByte]
      refine within_store bounded.room (meets_ite (fun last => ?_) fun more => ?_)
      · exact within_store (bounded.roomEnd last) clientIdDone_bounded
      · exact .of_state here (bounded.next (by decide) more)
  | willTopic1 => exact meets_ite (fun _ => trivial) fun announced => Filling.start announced
  | willTopic2 =>
      simp only [connectByte]
      -- the check admits a topic that fills the array, for there is no NUL behind it
      refine within_store (bounded.inside.trans_le bounded.bounded)
        (meets_ite (fun _ => trivial) fun more => ?_)
      exact .of_state here (bounded.next (by decide) more)
  | willPayload1 =>
      refine meets_ite (fun _ => trivial) fun announced => meets_ite (fun _ => ?_) fun _ => trivial
      exact ⟨.start announced, _, rfl, rfl⟩
  | willPayload2 =>
      obtain ⟨filling, mp, allocated, payloadLen⟩ := bounded
      have room : s.i < mp.payloadLen + 1 := by
        have := filling.inside
        omega
      simp only [connectByte, allocated]
      refine within_store room (meets_ite (fun _ => ?_) fun more => ?_)
      · exact meets_ite (fun _ => trivial) fun _ => trivial
      · exact .of_state here ⟨filling.next (by decide) more, _, rfl, payloadLen⟩
  | username1 => exact meets_ite (fun _ => trivial) fun announced => Filling.start announced
  | username2 =>
      simp only [connectByte]
      refine within_store bounded.room (meets_ite (fun last => ?_) fun more => ?_)
      · exact within_store (bounded.roomEnd last) trivial
      · exact .of_state here (bounded.next (by decide) more)
  | password1 => exact meets_ite (fun _ => trivial) fun announced => Filling.start announced
  | password2 =>
      simp only [connectByte]
      refine within_store bounded.room (meets_ite (fun last => ?_) fun more => ?_)
      · exact within_store (bounded.roomEnd last) trivial
      · exact .of_state here (bounded.next (by decide) more)
  | _ => trivial

private theorem connectBounded_packet : PacketInvariant .connect Session.ConnectBounded where
  elsewhere := by
    intro s outside
    unfold Session.ConnectBounded
    split <;> first
      | exact absurd (congrArg PState.packet ‹_›) outside
      | trivial
  begins := by
    intro s
    unfold dispatch
    split <;> trivial

/-- A round of a CONNECT whose protocol name is not empty has no fault. -/
theorem parserByte_connect_bounded
    (inPacket : stream.session.state.packet = some .connect) (bounded : stream.session.ConnectBounded)
    (named : NamesProtocol stream input) :
    (parserByte allowAnonymous input.mallocOk stream.session input.byte).Within
      Session.ConnectBounded := by
  unfold parserByte
  cases here : stream.session.state with
  | connect state =>
      rw [Session.ConnectBounded, here] at bounded
      exact connectByte_bounded here bounded fun second => named (here.trans (by rw [second]))
  | _ => simp [here, PState.packet] at inPacket

/-- In every stream whose CONNECTs announce a protocol name that is not empty,
no round of a CONNECT writes outside an array. -/
theorem connect_buffers_in_bounds {allowAnonymous : Bool} {stream : Stream} {state : ConnectState}
    (reached : ((streams allowAnonymous).restrict NamesProtocol).Reachable stream)
    (here : stream.session.state = .connect state) (input : Input)
    (named : NamesProtocol stream input) :
    parserByte allowAnonymous input.mallocOk stream.session input.byte ≠ .stop .outOfBounds := by
  have bounded : stream.session.ConnectBounded :=
    connectBounded_packet.reachable (fun _ _ => parserByte_connect_bounded) reached
  have inPacket : stream.session.state.packet = some .connect := by rw [here]; rfl
  exact (parserByte_connect_bounded inPacket bounded named).no_overrun

/-- Behind the first bytes of a protocol name of four. -/
theorem connect_buffers_in_bounds_name :
    ∃ stream, ((streams false).restrict NamesProtocol).Reachable stream ∧
      stream.session.state = .connect .protocol2 ∧
      parserByte false true stream.session 81 ≠ .stop .outOfBounds := by
  obtain ⟨stream, ran, here⟩ : ∃ stream,
      ((streams false).restrict NamesProtocol).run .initial (feed [0x10, 19, 0, 4, 77]) = some stream ∧
      stream.session.state = .connect .protocol2 :=
    ⟨_, rfl, rfl⟩
  have reached := System.Reachable.run (.start rfl) ran
  refine ⟨stream, reached, here, connect_buffers_in_bounds reached here ⟨81, true, 0⟩ ?_⟩
  intro second
  rw [here] at second
  exact absurd second (by decide)

/-- A CONNECT that announces an empty protocol name: the counter passes 0 before
it is compared, and the eighth byte of the name lies behind its array. -/
theorem connect_overruns_protocol :
    ∃ stream, (streams false).Reachable stream ∧ stream.session.state = .connect .protocol2 ∧
      parserByte false true stream.session 8 = .stop .outOfBounds := by
  have ran : ((streams false).run .initial (feed [0x10, 20, 0, 0, 1, 2, 3, 4, 5, 6, 7])).any
      (overruns (.connect .protocol2) 8) = true := by
    decide +kernel
  exact overrun_of_run ran

/-! ### SUBSCRIBE and UNSUBSCRIBE -/

/-- The filter being copied has a place in the arrays and a counter within its
allocation. -/
def FilterBounded (s : Session) : Prop :=
  s.subscribe.numFilters < maxNumTopics ∧
    Filling s.subscribe.u16 (s.subscribe.filterLengths s.subscribe.numFilters) (2 ^ 16 - 1)

/-- A filter whose length is being read has a place in the arrays. -/
def FilterBegun (s : Session) : Prop :=
  s.subscribe.numFilters < maxNumTopics ∧ s.subscribe.u16 < 2 ^ 16

def Session.SubscribeBounded (s : Session) : Prop :=
  match s.state with
  | .subscribe .topic1 => FilterBegun s
  | .subscribe .topic2 => FilterBounded s
  | .subscribe .topicQos => s.subscribe.numFilters < maxNumTopics
  | _ => True

def Session.UnsubscribeBounded (s : Session) : Prop :=
  match s.state with
  | .unsubscribe .topic1 => FilterBegun s
  | .unsubscribe .topic2 => FilterBounded s
  | _ => True

/-- A filter begins where fewer than `MAX_NUM_TOPICS` have been read. -/
def FilterCounted (s : Session) : Prop :=
  s.state = .subscribe .topic0 ∨ s.state = .unsubscribe .topic0 →
    s.subscribe.numFilters < maxNumTopics

/-- The length of a filter is not 0 where its second byte arrives. -/
def FilterNamed (s : Session) (b : Byte) : Prop :=
  s.state = .subscribe .topic1 ∨ s.state = .unsubscribe .topic1 → low s.subscribe.u16 b ≠ 0

/-- The filters of a packet are at most `MAX_NUM_TOPICS`, and none is empty. -/
def FiltersFit (stream : Stream) (input : Input) : Prop :=
  FilterCounted stream.session ∧ FilterNamed stream.session input.byte

instance (stream : Stream) (input : Input) : Decidable (FiltersFit stream input) := by
  unfold FiltersFit FilterCounted FilterNamed
  infer_instance

private theorem filterLength_bounded {topic2 : PState}
    {onNext : Session → Prop} (begun : FilterBegun s) (named : low s.subscribe.u16 b ≠ 0)
    (follows : ∀ next : Session, next.state = topic2 → FilterBounded next → onNext next) :
    (filterLength mallocOk s b topic2).Within onNext := by
  obtain ⟨room, short⟩ := begun
  have narrow := low_lt short b
  simp only [filterLength]
  refine meets_ite (fun _ => trivial) fun _ => meets_ite (fun _ => trivial) fun _ => ?_
  rw [if_pos room]
  refine follows _ rfl ⟨room, ?_⟩
  simp only [Function.update_self]
  exact .start (by omega)

private theorem filterByte_bounded {done : Session → Outcome}
    {onNext : Session → Prop} (bounded : FilterBounded s)
    (last : ∀ next : Session, next.subscribe.numFilters < maxNumTopics → (done next).Within onNext)
    (more : ∀ next : Session, next.state = s.state → FilterBounded next → onNext next) :
    (filterByte s b done).Within onNext := by
  obtain ⟨room, filling⟩ := bounded
  simp only [filterByte]
  rw [if_pos room]
  refine within_store (filling.inside.trans (Nat.lt_succ_self _)) ?_
  refine meets_ite (fun _ => last _ room) fun notLast => ?_
  exact more _ rfl ⟨room, filling.next (by decide) notLast⟩

private theorem subscribeByte_bounded {state : SubscribeState}
    (here : s.state = .subscribe state) (bounded : s.SubscribeBounded) (counted : FilterCounted s)
    (named : FilterNamed s b) : (subscribeByte mallocOk s b state).Within Session.SubscribeBounded := by
  rw [Session.SubscribeBounded, here] at bounded
  cases state with
  | packetId0 => trivial
  | packetId1 => trivial
  | topic0 => exact ⟨counted (.inl here), high_lt b⟩
  | topic1 =>
      refine filterLength_bounded bounded (named (.inl here)) fun next there filter => ?_
      rw [Session.SubscribeBounded, there]
      exact filter
  | topic2 =>
      rw [subscribeByte]
      refine filterByte_bounded bounded (fun next room => room) fun next there filter => ?_
      rw [Session.SubscribeBounded, there, here]
      exact filter
  | topicQos =>
      simp only [subscribeByte]
      refine meets_ite (fun _ => trivial) fun _ => ?_
      rw [if_pos bounded]
      exact meets_ite (fun _ => trivial) fun _ => trivial

private theorem unsubscribeByte_bounded {state : UnsubscribeState}
    (here : s.state = .unsubscribe state) (bounded : s.UnsubscribeBounded) (counted : FilterCounted s)
    (named : FilterNamed s b) :
    (unsubscribeByte mallocOk s b state).Within Session.UnsubscribeBounded := by
  rw [Session.UnsubscribeBounded, here] at bounded
  cases state with
  | packetId0 => trivial
  | packetId1 => trivial
  | topic0 => exact ⟨counted (.inr here), high_lt b⟩
  | topic1 =>
      refine filterLength_bounded bounded (named (.inr here)) fun next there filter => ?_
      rw [Session.UnsubscribeBounded, there]
      exact filter
  | topic2 =>
      rw [unsubscribeByte]
      refine filterByte_bounded bounded (fun next room => ?_) fun next there filter => ?_
      · exact meets_ite (fun _ => trivial) fun _ => trivial
      · rw [Session.UnsubscribeBounded, there, here]
        exact filter

private theorem subscribeBounded_packet : PacketInvariant .subscribe Session.SubscribeBounded where
  elsewhere := by
    intro s outside
    unfold Session.SubscribeBounded
    split <;> first
      | exact absurd (congrArg PState.packet ‹_›) outside
      | trivial
  begins := by
    intro s
    unfold dispatch
    split <;> trivial

private theorem unsubscribeBounded_packet : PacketInvariant .unsubscribe Session.UnsubscribeBounded where
  elsewhere := by
    intro s outside
    unfold Session.UnsubscribeBounded
    split <;> first
      | exact absurd (congrArg PState.packet ‹_›) outside
      | trivial
  begins := by
    intro s
    unfold dispatch
    split <;> trivial

/-- The session is in the middle of a SUBSCRIBE or an UNSUBSCRIBE. -/
def PState.isFilters : PState → Bool
  | .subscribe _ => true
  | .unsubscribe _ => true
  | _ => false

private theorem parserByte_subscribe_bounded (inPacket : stream.session.state.packet = some .subscribe)
    (bounded : stream.session.SubscribeBounded) (fit : FiltersFit stream input) :
    (parserByte allowAnonymous input.mallocOk stream.session input.byte).Within
      Session.SubscribeBounded := by
  unfold parserByte
  cases here : stream.session.state with
  | subscribe state => exact subscribeByte_bounded here bounded fit.1 fit.2
  | _ => simp [here, PState.packet] at inPacket

private theorem parserByte_unsubscribe_bounded
    (inPacket : stream.session.state.packet = some .unsubscribe)
    (bounded : stream.session.UnsubscribeBounded) (fit : FiltersFit stream input) :
    (parserByte allowAnonymous input.mallocOk stream.session input.byte).Within
      Session.UnsubscribeBounded := by
  unfold parserByte
  cases here : stream.session.state with
  | unsubscribe state => exact unsubscribeByte_bounded here bounded fit.1 fit.2
  | _ => simp [here, PState.packet] at inPacket

/-- In every stream whose SUBSCRIBEs and UNSUBSCRIBEs have at most
`MAX_NUM_TOPICS` filters, none of them empty, no round of one writes outside an
array or a filter's allocation, and no callback is handed more filters than the
arrays hold. -/
theorem filter_buffers_in_bounds {allowAnonymous : Bool} {stream : Stream}
    (reached : ((streams allowAnonymous).restrict FiltersFit).Reachable stream)
    (here : stream.session.state.isFilters = true) (input : Input)
    (fit : FiltersFit stream input) :
    parserByte allowAnonymous input.mallocOk stream.session input.byte ≠ .stop .outOfBounds ∧
      ∀ s request,
        parserByte allowAnonymous input.mallocOk stream.session input.byte = .call s request →
          s.subscribe.numFilters ≤ maxNumTopics := by
  constructor
  · cases position : stream.session.state with
    | subscribe state =>
        have inPacket : stream.session.state.packet = some .subscribe := by rw [position]; rfl
        have bounded : stream.session.SubscribeBounded :=
          subscribeBounded_packet.reachable (fun _ _ => parserByte_subscribe_bounded) reached
        exact (parserByte_subscribe_bounded inPacket bounded fit).no_overrun
    | unsubscribe state =>
        have inPacket : stream.session.state.packet = some .unsubscribe := by rw [position]; rfl
        have bounded : stream.session.UnsubscribeBounded :=
          unsubscribeBounded_packet.reachable (fun _ _ => parserByte_unsubscribe_bounded) reached
        exact (parserByte_unsubscribe_bounded inPacket bounded fit).no_overrun
    | _ => simp [position, PState.isFilters] at here
  · intro s request calls
    have ensures : (parserByte allowAnonymous input.mallocOk stream.session input.byte).Ensures
        Session.Ok fun last _ => last.Ok := parserByte_ok (.reachable reached.of_restrict)
    rw [calls] at ensures
    exact ensures.filters

/-- In a SUBSCRIBE with a second filter. -/
theorem filter_buffers_in_bounds_second :
    ∃ stream, ((streams false).restrict FiltersFit).Reachable stream ∧
      stream.session.state = .subscribe .topic2 ∧ stream.session.subscribe.numFilters = 1 ∧
      parserByte false true stream.session 98 ≠ .stop .outOfBounds := by
  obtain ⟨stream, ran, here, second⟩ : ∃ stream,
      ((streams false).restrict FiltersFit).run .initial
        (feed [0x82, 10, 0, 1, 0, 1, 97, 0, 0, 1]) = some stream ∧
      stream.session.state = .subscribe .topic2 ∧ stream.session.subscribe.numFilters = 1 :=
    ⟨_, rfl, rfl, rfl⟩
  have reached := System.Reachable.run (.start rfl) ran
  refine ⟨stream, reached, here, second, (filter_buffers_in_bounds reached ?_ ⟨98, true, 0⟩ ?_).1⟩
  · rw [here]
    rfl
  · simp [FiltersFit, FilterCounted, FilterNamed, here]

/-- A SUBSCRIBE with ten filters that goes on to another, and one with an empty filter,
whose allocation of one byte takes no second one. -/
theorem filter_buffers_overrun :
    (∃ stream, (streams false).Reachable stream ∧ stream.session.state = .subscribe .topic1 ∧
      parserByte false true stream.session 1 = .stop .outOfBounds) ∧
    ∃ stream, (streams false).Reachable stream ∧ stream.session.state = .subscribe .topic2 ∧
      parserByte false true stream.session 98 = .stop .outOfBounds := by
  have eleventh : ((streams false).run .initial
      (feed ([0x82, 46, 0, 1] ++ (List.replicate 10 [0, 1, 97, 0]).flatten ++ [0]))).any
        (overruns (.subscribe .topic1) 1) = true := by
    decide +kernel
  have empty : ((streams false).run .initial (feed [0x82, 10, 0, 1, 0, 0, 97])).any
      (overruns (.subscribe .topic2) 98) = true := by
    decide +kernel
  exact ⟨overrun_of_run eleventh, overrun_of_run empty⟩

end FbBroker.Parser
