import FbBroker.Lib.System
import FbBroker.Parser.Step

/-!
Contract: where the parser takes a packet to end.

Owns the byte accounting of the parser over whole streams: the remaining
length a packet declares, the bytes consumed behind that field, and the length
of the fields of a CONNECT. PUBLISH and SUBSCRIBE are held to the length they
declare; an UNSUBSCRIBE never completes; a CONNECT ends with its last field and
a PINGREQ with its header, whatever they declare.

Does not own what the callbacks do: their return codes are inputs.
-/

set_option autoImplicit false

namespace FbBroker.Parser

open FbBroker.Packet FbBroker.Lib

variable {allowAnonymous mallocOk : Bool} {s : Session} {b : Byte} {declared consumed : Nat}

/-- A packet the parser completed: the remaining length it declared and the
bytes consumed behind that field. -/
structure Frame where
  declared : Nat
  consumed : Nat
deriving DecidableEq, Repr

/-- A parser and the account of the stream it has read. -/
structure Stream where
  session : Session
  /-- the packet being read -/
  frame : Frame
  /-- the packets completed -/
  completed : List Frame

/-- One byte, with the answers its round meets: whether `malloc` succeeds and
what the callback returns. -/
structure Input where
  byte : Byte
  mallocOk : Bool
  rv : Int

/-- The account behind one more byte, which took the parser from `before` to
the session `s`. -/
def Frame.count (frame : Frame) (before : PState) (s : Session) : Frame :=
  match before with
  | .header => frame
  | .remLen => ⟨s.remLen, 0⟩
  | _ => { frame with consumed := frame.consumed + 1 }

/-- One round over a stream; it ends where `mqtt_parser_execute` returns, since
the client is closed then. -/
def Stream.step (allowAnonymous : Bool) (stream : Stream) (input : Input) : Option Stream :=
  match parserByte allowAnonymous input.mallocOk stream.session input.byte with
  | .next s => some { stream with session := s, frame := stream.frame.count stream.session.state s }
  | .call s _ =>
      if input.rv ≠ 0 then none
      else
        let frame := stream.frame.count stream.session.state s
        some { session := { s with state := .header }, frame,
               completed := stream.completed ++ [frame] }
  | _ => none

/-- A parser that has read nothing. -/
def Stream.initial : Stream :=
  ⟨mqttParserInit, ⟨0, 0⟩, []⟩

/-- Byte streams to a parser from `mqtt_parser_init` on. -/
def streams (allowAnonymous : Bool) : System Stream Input where
  init stream := stream = .initial
  step := Stream.step allowAnonymous

/-- Bytes that meet no failure. -/
def feed (bytes : List Byte) : List Input :=
  bytes.map fun byte => ⟨byte, true, 0⟩

/-! ### The length of a CONNECT -/

/-- The protocol name the parser accepted. -/
def protocolLen (s : Session) : Nat :=
  if bytes 4 s.connect.protocol = lit "MQTT" then 4 else 6

/-- The bytes up to the end of the client id. -/
def clientIdEnd (s : Session) : Nat :=
  2 + protocolLen s + 1 + 1 + 2 + 2 + s.clientIdLen

def willPayloadLen (s : Session) : Nat :=
  match s.willMp with
  | some mp => mp.payloadLen
  | none => 0

/-- The bytes up to the end of the will. -/
def willEnd (s : Session) : Nat :=
  clientIdEnd s +
    if s.connect.will then 2 + s.connect.willTopicLen + 2 + willPayloadLen s else 0

/-- The sum of the lengths of the fields a CONNECT carries. -/
def connectLength (s : Session) : Nat :=
  willEnd s + if s.connect.usernamePresent then 2 + s.usernameLen + 2 + s.connect.u16 else 0

/-- What the packet being read announces is within the length it declares, as
far as the parser does not check that itself: it counts no byte of a CONNECT,
takes the two bytes of a length or packet id for granted, lets an empty filter
through and has a payload index of 16 bits. -/
def Announced (frame : Frame) (s : Session) : Prop :=
  match s.state with
  | .header => True
  | .remLen => True
  | .connect _ => frame.consumed ≤ frame.declared
  | .subscribe state =>
      2 ≤ frame.declared ∧
        (state = .topic2 → 0 < s.subscribe.filterLengths s.subscribe.numFilters)
  | .unsubscribe state =>
      2 ≤ frame.declared ∧
        (state = .topic2 → 0 < s.subscribe.filterLengths s.subscribe.numFilters)
  | .publish .topic0 => 2 ≤ frame.declared
  | .publish .topic1 => 2 ≤ frame.declared
  | .publish .topic2 => 2 + s.publish.topicLen ≤ frame.declared
  | .publish _ => s.publish.payloadLen < 2 ^ 16

instance (frame : Frame) (s : Session) : Decidable (Announced frame s) := by
  unfold Announced
  split <;> infer_instance

/-- The packet being read announces what it can hold, and the packet this byte
completes, if it is a CONNECT or a PINGREQ, declares the length of its
fields. -/
def Honest (allowAnonymous : Bool) (stream : Stream) (input : Input) : Prop :=
  match parserByte allowAnonymous input.mallocOk stream.session input.byte with
  | .next s => Announced (stream.frame.count stream.session.state s) s
  | .call s .connect => s.remLen = connectLength s
  | .call s .ping => s.remLen = 0
  | _ => True

instance (allowAnonymous : Bool) (stream : Stream) (input : Input) :
    Decidable (Honest allowAnonymous stream input) := by
  unfold Honest
  split <;> infer_instance

/-! ### The account of each packet -/

/-- Behind `consumed` bytes of a CONNECT. -/
def ConnectFramed (s : Session) (consumed : Nat) : ConnectState → Prop
  | .packetId0 => False
  | .packetId1 => False
  | .protocol0 => consumed = 0
  | .protocol1 => consumed = 1
  | .protocol2 => consumed = 2 + s.i ∧ s.i ≤ 7
  | .version => consumed = 2 + s.connect.u16
  | .flags => consumed = 2 + protocolLen s + 1
  | .keepAlive0 => consumed = 2 + protocolLen s + 1 + 1
  | .keepAlive1 => consumed = 2 + protocolLen s + 1 + 1 + 1
  | .clientId0 => consumed = 2 + protocolLen s + 1 + 1 + 2
  | .clientId1 => consumed = 2 + protocolLen s + 1 + 1 + 3
  | .clientId2 => consumed + s.clientIdLen = clientIdEnd s + s.i
  | .willTopic0 => s.connect.will ∧ consumed = clientIdEnd s
  | .willTopic1 => s.connect.will ∧ consumed = clientIdEnd s + 1
  | .willTopic2 => s.connect.will ∧ consumed = clientIdEnd s + 2 + s.i
  | .willPayload0 => s.connect.will ∧ consumed = clientIdEnd s + 2 + s.connect.willTopicLen
  | .willPayload1 => s.connect.will ∧ consumed = clientIdEnd s + 2 + s.connect.willTopicLen + 1
  | .willPayload2 =>
      s.connect.will ∧ consumed = clientIdEnd s + 2 + s.connect.willTopicLen + 2 + s.i ∧
        willPayloadLen s = s.connect.u16 ∧ s.i < s.connect.u16 ∧ s.connect.u16 ≤ maxPayloadLen
  | .username0 => s.connect.usernamePresent ∧ consumed = willEnd s
  | .username1 => s.connect.usernamePresent ∧ consumed = willEnd s + 1
  | .username2 => s.connect.usernamePresent ∧ consumed = willEnd s + 2 + s.i
  | .password0 => s.connect.usernamePresent ∧ consumed = willEnd s + 2 + s.usernameLen
  | .password1 => s.connect.usernamePresent ∧ consumed = willEnd s + 2 + s.usernameLen + 1
  | .password2 => s.connect.usernamePresent ∧ consumed = willEnd s + 2 + s.usernameLen + 2 + s.i

/-- What a round over a CONNECT byte leaves. -/
def ConnectNext (s : Session) (consumed : Nat) (next : Session) : Prop :=
  next.remLen = s.remLen ∧
    ∃ state, next.state = .connect state ∧ ConnectFramed next (consumed + 1) state

/-- What it leaves when it completes the packet. -/
def ConnectDone (s : Session) (consumed : Nat) (last : Session) (request : Request) : Prop :=
  request = .connect ∧ last.remLen = s.remLen ∧ consumed + 1 = connectLength last

private theorem protocolLen_of_version (accepted : s.connect.u16 = 4 ∧ bytes 4 s.connect.protocol = lit "MQTT" ∨
      s.connect.u16 = 6 ∧ bytes 6 s.connect.protocol = lit "MQIsdp") :
    protocolLen s = s.connect.u16 := by
  unfold protocolLen
  rcases accepted with ⟨length, name⟩ | ⟨length, name⟩
  · rw [if_pos name, length]
  · have cut : bytes 4 s.connect.protocol = (lit "MQIsdp").take 4 := by
      rw [← name]
      simp [bytes, List.range_succ]
    rw [if_neg (by rw [cut]; decide), length]

/-- The client id is followed by the will, by the user name or by nothing. -/
theorem clientIdDone_framed {consumed : Nat} (count : consumed + 1 = clientIdEnd s) :
    (clientIdDone allowAnonymous s).Ensures (ConnectNext s consumed) (ConnectDone s consumed) := by
  refine meets_ite (fun will => ⟨rfl, _, rfl, will, count⟩) fun noWill => ?_
  have ended : willEnd s = clientIdEnd s := by simp [willEnd, noWill]
  refine meets_ite (fun username => ⟨rfl, _, rfl, username, count.trans ended.symm⟩) fun noName => ?_
  refine meets_ite (fun _ => trivial) fun _ => meets_ite (fun _ => trivial) fun _ => ?_
  exact ⟨rfl, rfl, by simpa [connectLength, noName, ended] using count⟩

/-- A byte of the protocol name. -/
private theorem protocol2_framed (here : s.state = .connect .protocol2)
    (framed : ConnectFramed s consumed .protocol2) :
    (connectByte allowAnonymous mallocOk s b .protocol2).Ensures (ConnectNext s consumed)
      (ConnectDone s consumed) := by
  simp only [connectByte]
  obtain ⟨count, -⟩ := framed
  refine ensures_store fun inside => ?_
  rw [incr16_of_lt (by omega)]
  refine meets_ite (fun last => ⟨rfl, _, rfl, ?_⟩) fun _ => ⟨rfl, _, here, ?_⟩
  · simp only [ConnectFramed]
    omega
  · simp only [ConnectFramed]
    omega

/-- A byte of the client id. -/
private theorem clientId2_framed (here : s.state = .connect .clientId2)
    (framed : ConnectFramed s consumed .clientId2) :
    (connectByte allowAnonymous mallocOk s b .clientId2).Ensures (ConnectNext s consumed)
      (ConnectDone s consumed) := by
  simp only [connectByte]
  refine ensures_store fun inside => ?_
  rw [maxIdLen] at inside
  rw [incr16_of_lt (by omega)]
  refine meets_ite (fun last => ensures_store fun _ => clientIdDone_framed ?_) fun _ =>
    ⟨rfl, _, here, ?_⟩
  · simp only [ConnectFramed, clientIdEnd, protocolLen] at framed ⊢
    omega
  · simp only [ConnectFramed, clientIdEnd, protocolLen] at framed ⊢
    omega

/-- A byte of the topic of the will. -/
private theorem willTopic2_framed (here : s.state = .connect .willTopic2)
    (framed : ConnectFramed s consumed .willTopic2) :
    (connectByte allowAnonymous mallocOk s b .willTopic2).Ensures (ConnectNext s consumed)
      (ConnectDone s consumed) := by
  simp only [connectByte]
  obtain ⟨will, count⟩ := framed
  refine ensures_store fun inside => ?_
  rw [maxTopicLen] at inside
  rw [incr16_of_lt (by omega)]
  refine meets_ite (fun last => ⟨rfl, _, rfl, will, ?_⟩) fun _ => ⟨rfl, _, here, will, ?_⟩
  · rw [count, ← last]
    rfl
  · exact congrArg (· + 1) count

/-- A byte of the payload of the will, whose message is allocated. -/
private theorem willPayload2_framed (here : s.state = .connect .willPayload2)
    (framed : ConnectFramed s consumed .willPayload2) :
    (connectByte allowAnonymous mallocOk s b .willPayload2).Ensures (ConnectNext s consumed)
      (ConnectDone s consumed) := by
  obtain ⟨will, count, size, inside, small⟩ := framed
  cases allocated : s.willMp with
  | none => simp [connectByte, allocated]
  | some mp =>
      have payloadLen : mp.payloadLen = s.connect.u16 := by
        simpa [willPayloadLen, allocated] using size
      rw [maxPayloadLen] at small
      simp only [connectByte, allocated]
      refine ensures_store fun _ => ?_
      rw [incr16_of_lt (by omega)]
      refine meets_ite (fun last => meets_ite (fun username => ⟨rfl, _, rfl, username, ?_⟩)
        fun _ => trivial) fun more => ?_
      · simp only [willEnd, willPayloadLen, will, if_true, payloadLen, clientIdEnd,
          protocolLen] at count ⊢
        omega
      · have inside : s.i + 1 < s.connect.u16 := by omega
        exact ⟨rfl, _, here, will, congrArg (· + 1) count, payloadLen, inside, small⟩

/-- A byte of the user name. -/
private theorem username2_framed (here : s.state = .connect .username2)
    (framed : ConnectFramed s consumed .username2) :
    (connectByte allowAnonymous mallocOk s b .username2).Ensures (ConnectNext s consumed)
      (ConnectDone s consumed) := by
  simp only [connectByte]
  obtain ⟨username, count⟩ := framed
  refine ensures_store fun inside => ?_
  rw [maxIdLen] at inside
  rw [incr16_of_lt (by omega)]
  refine meets_ite (fun last => ensures_store fun _ => ⟨rfl, _, rfl, username, ?_⟩) fun _ =>
    ⟨rfl, _, here, username, congrArg (· + 1) count⟩
  rw [count, ← last]
  rfl

/-- A byte of the password, with which the packet ends. -/
private theorem password2_framed (here : s.state = .connect .password2)
    (framed : ConnectFramed s consumed .password2) :
    (connectByte allowAnonymous mallocOk s b .password2).Ensures (ConnectNext s consumed)
      (ConnectDone s consumed) := by
  simp only [connectByte]
  obtain ⟨username, count⟩ := framed
  refine ensures_store fun inside => ?_
  rw [maxIdLen] at inside
  rw [incr16_of_lt (by omega)]
  refine meets_ite (fun last => ensures_store fun _ => ⟨rfl, rfl, ?_⟩) fun _ =>
    ⟨rfl, _, here, username, congrArg (· + 1) count⟩
  rw [count]
  simp only [connectLength, username, if_true, ← last]
  simp only [willEnd, clientIdEnd, protocolLen, willPayloadLen]
  omega

private theorem connectByte_framed {state : ConnectState} (here : s.state = .connect state)
    (framed : ConnectFramed s consumed state) :
    (connectByte allowAnonymous mallocOk s b state).Ensures (ConnectNext s consumed)
      (ConnectDone s consumed) := by
  cases state with
  | packetId0 => trivial
  | packetId1 => trivial
  | protocol0 => exact ⟨rfl, _, rfl, congrArg (· + 1) framed⟩
  | protocol1 =>
      refine meets_ite (fun _ => trivial) fun _ => ⟨rfl, _, rfl, ?_⟩
      exact ⟨congrArg (· + 1) framed, Nat.zero_le 7⟩
  | protocol2 => exact protocol2_framed here framed
  | version =>
      refine meets_ite (fun accepted => ⟨rfl, _, rfl, ?_⟩) fun _ =>
        meets_ite (fun accepted => ⟨rfl, _, rfl, ?_⟩) fun _ => trivial
      · exact congrArg (· + 1) (framed.trans (congrArg (2 + ·)
          (protocolLen_of_version (.inl ⟨accepted.1, accepted.2.2⟩)).symm))
      · exact congrArg (· + 1) (framed.trans (congrArg (2 + ·)
          (protocolLen_of_version (.inr ⟨accepted.1, accepted.2.2⟩)).symm))
  | flags => exact ⟨rfl, _, rfl, congrArg (· + 1) framed⟩
  | keepAlive0 => exact ⟨rfl, _, rfl, congrArg (· + 1) framed⟩
  | keepAlive1 => exact ⟨rfl, _, rfl, congrArg (· + 1) framed⟩
  | clientId0 => exact ⟨rfl, _, rfl, congrArg (· + 1) framed⟩
  | clientId1 =>
      refine meets_ite (fun _ => trivial) fun _ => ⟨rfl, _, rfl, ?_⟩
      simp only [ConnectFramed, clientIdEnd, protocolLen] at framed ⊢
      omega
  | clientId2 => exact clientId2_framed here framed
  | willTopic0 => exact ⟨rfl, _, rfl, framed.1, congrArg (· + 1) framed.2⟩
  | willTopic1 =>
      refine meets_ite (fun _ => trivial) fun _ => ⟨rfl, _, rfl, framed.1, ?_⟩
      exact congrArg (· + 1) framed.2
  | willTopic2 => exact willTopic2_framed here framed
  | willPayload0 => exact ⟨rfl, _, rfl, framed.1, congrArg (· + 1) framed.2⟩
  | willPayload1 =>
      simp only [connectByte]
      refine meets_ite (fun _ => trivial) fun sized => ?_
      have bounds : 0 < low s.connect.u16 b ∧ low s.connect.u16 b ≤ maxPayloadLen := by omega
      refine meets_ite (fun _ => ⟨rfl, _, rfl, framed.1, ?_, rfl, bounds⟩) fun _ => trivial
      exact congrArg (· + 1) framed.2
  | willPayload2 => exact willPayload2_framed here framed
  | username0 => exact ⟨rfl, _, rfl, framed.1, congrArg (· + 1) framed.2⟩
  | username1 =>
      refine meets_ite (fun _ => trivial) fun _ => ⟨rfl, _, rfl, framed.1, ?_⟩
      exact congrArg (· + 1) framed.2
  | username2 => exact username2_framed here framed
  | password0 => exact ⟨rfl, _, rfl, framed.1, congrArg (· + 1) framed.2⟩
  | password1 =>
      refine meets_ite (fun _ => trivial) fun _ => ⟨rfl, _, rfl, framed.1, ?_⟩
      exact congrArg (· + 1) framed.2
  | password2 => exact password2_framed here framed

/-- The remaining length of a SUBSCRIBE or UNSUBSCRIBE is what is left of the
declared length, `ahead` bytes of the current filter not yet subtracted, unless
it wrapped around at the packet id. -/
def Remaining (s : Session) (declared consumed ahead : Nat) : Prop :=
  s.remLen < 2 ^ 32 ∧
    (consumed + s.remLen = declared + ahead ∨
      declared < 2 ∧ 2 ^ 32 ≤ s.remLen + 2 + 65538 * s.subscribe.numFilters)

/-- The filter being read is accounted for in the remaining length. -/
def FilterFits (s : Session) : Prop :=
  s.subscribe.numFilters < maxNumTopics ∧
    s.subscribe.filterLengths s.subscribe.numFilters < 2 ^ 16 ∧
    s.subscribe.filterLengths s.subscribe.numFilters + 3 ≤ s.remLen

/-- Behind `consumed` bytes of a SUBSCRIBE. -/
def SubscribeFramed (s : Session) (declared consumed : Nat) : SubscribeState → Prop
  | .packetId0 => s.remLen = declared ∧ declared < 2 ^ 32 ∧ consumed = 0
  | .packetId1 => s.remLen = declared ∧ declared < 2 ^ 32 ∧ consumed = 1
  | .topic0 => s.subscribe.numFilters ≤ maxNumTopics ∧ Remaining s declared consumed 0
  | .topic1 =>
      s.subscribe.numFilters ≤ maxNumTopics ∧ s.subscribe.u16 < 2 ^ 16 ∧
        Remaining s declared consumed 1
  | .topic2 =>
      FilterFits s ∧ Remaining s declared consumed (2 + s.subscribe.u16) ∧
        (s.subscribe.u16 < s.subscribe.filterLengths s.subscribe.numFilters ∨
          s.subscribe.filterLengths s.subscribe.numFilters = 0)
  | .topicQos =>
      FilterFits s ∧
        Remaining s declared consumed (2 + s.subscribe.filterLengths s.subscribe.numFilters)

def SubscribeNext (declared consumed : Nat) (next : Session) : Prop :=
  ∃ state, next.state = .subscribe state ∧ SubscribeFramed next declared (consumed + 1) state

def SubscribeDone (declared consumed : Nat) (_ : Session) (request : Request) : Prop :=
  request = .subscribe ∧ consumed + 1 = declared

/-- Behind the packet id the filters begin, in a SUBSCRIBE and in an
UNSUBSCRIBE. -/
private theorem packetId1_framed {declared consumed packetId : Nat} {state : PState}
    (framed : SubscribeFramed s declared consumed .packetId1) :
    SubscribeFramed { s with
      subscribe.packetId := packetId
      subscribe.numFilters := 0
      remLen := sub32 s.remLen 2
      state := state } declared (consumed + 1) .topic0 := by
  obtain ⟨length, small, rfl⟩ := framed
  refine ⟨Nat.zero_le _, sub32_lt _ _, ?_⟩
  simp only
  by_cases enough : 2 ≤ s.remLen
  · rw [sub32_of_le (by omega) enough]
    omega
  · rw [sub32_of_lt (by decide) (by omega)]
    omega

private theorem topic0_framed {state : PState}
    (framed : SubscribeFramed s declared consumed .topic0) (b : Byte) :
    SubscribeFramed { s with subscribe.u16 := high b, state := state } declared (consumed + 1)
      .topic1 := by
  obtain ⟨room, small, spare⟩ := framed
  refine ⟨room, high_lt b, small, ?_⟩
  simp only
  omega

private theorem filterLength_framed {topic2 : PState}
    (framed : SubscribeFramed s declared consumed .topic1) :
    (filterLength mallocOk s b topic2).Ensures
      (fun next => next.state = topic2 ∧ SubscribeFramed next declared (consumed + 1) .topic2)
      fun _ _ => False := by
  obtain ⟨room, short, small, spare⟩ := framed
  have length := low_lt short b
  simp only [filterLength]
  refine meets_ite (fun _ => trivial) fun fits => meets_ite (fun _ => trivial) fun _ =>
    meets_ite (fun free => ?_) fun _ => trivial
  refine ⟨rfl, ⟨free, ?_, ?_⟩, ⟨small, ?_⟩, ?_⟩ <;> simp only [Function.update_self]
  · exact length
  · omega
  · omega
  · omega

/-- A byte of a filter: it goes on, or `finish` follows its last byte. -/
private theorem filterByte_framed
    {finish : Session → Outcome} {Next : Session → Prop} {Done : Session → Request → Prop}
    (framed : SubscribeFramed s declared consumed .topic2)
    (goesOn : ∀ next, next.state = s.state →
      SubscribeFramed next declared (consumed + 1) .topic2 → Next next)
    (ends : ∀ next, SubscribeFramed next declared (consumed + 1) .topicQos →
      (finish next).Ensures Next Done) :
    (filterByte s b finish).Ensures Next Done := by
  obtain ⟨fits, ⟨small, spare⟩, position⟩ := framed
  simp only [filterByte]
  refine meets_ite (fun _ => ensures_store fun inside => ?_) fun _ => trivial
  have size := fits.2.1
  rw [incr16_of_lt (by omega)]
  refine meets_ite (fun last => ends _ ⟨fits, small, ?_⟩) fun more =>
    goesOn _ rfl ⟨fits, ⟨small, ?_⟩, ?_⟩ <;> simp only
  · omega
  · omega
  · omega

private theorem subscribeByte_framed {state : SubscribeState} (here : s.state = .subscribe state)
    (framed : SubscribeFramed s declared consumed state) :
    (subscribeByte mallocOk s b state).Ensures (SubscribeNext declared consumed)
      (SubscribeDone declared consumed) := by
  cases state with
  | packetId0 =>
      obtain ⟨length, small, rfl⟩ := framed
      exact ⟨_, rfl, length, small, rfl⟩
  | packetId1 => exact ⟨_, rfl, packetId1_framed framed⟩
  | topic0 => exact ⟨_, rfl, topic0_framed framed b⟩
  | topic1 =>
      refine (filterLength_framed framed).mono ?_ fun _ _ never => never.elim
      intro next ⟨moved, after⟩
      exact ⟨_, moved, after⟩
  | topic2 =>
      simp only [subscribeByte]
      refine filterByte_framed framed (fun next same after => ?_) fun next after => ?_
      · exact ⟨_, same.trans here, after⟩
      · exact ⟨_, rfl, after⟩
  | topicQos =>
      obtain ⟨⟨room, size, fits⟩, small, spare⟩ := framed
      simp only [subscribeByte]
      refine meets_ite (fun _ => trivial) fun _ => meets_ite (fun _ => ?_) fun _ => trivial
      rw [sub32_of_le small fits]
      rw [maxNumTopics] at room
      refine meets_ite (fun more => ⟨_, rfl, ?_, ?_, ?_⟩) fun last => ⟨rfl, ?_⟩
      · exact room
      · exact (Nat.sub_le _ _).trans_lt small
      · simp only
        omega
      · omega

/-- An UNSUBSCRIBE is read as a SUBSCRIBE without the bytes of the QoS. -/
def UnsubscribeState.asSubscribe : UnsubscribeState → SubscribeState
  | .packetId0 => .packetId0
  | .packetId1 => .packetId1
  | .topic0 => .topic0
  | .topic1 => .topic1
  | .topic2 => .topic2

def UnsubscribeNext (declared consumed : Nat) (next : Session) : Prop :=
  ∃ state, next.state = .unsubscribe state ∧
    SubscribeFramed next declared (consumed + 1) state.asSubscribe

/-- An UNSUBSCRIBE never reaches its callback: each filter leaves some of the
remaining length, so that it goes on to another one. -/
theorem unsubscribeByte_framed {state : UnsubscribeState} (here : s.state = .unsubscribe state)
    (framed : SubscribeFramed s declared consumed state.asSubscribe) :
    (unsubscribeByte mallocOk s b state).Ensures (UnsubscribeNext declared consumed)
      fun _ _ => False := by
  cases state with
  | packetId0 =>
      obtain ⟨length, small, rfl⟩ := framed
      exact ⟨_, rfl, length, small, rfl⟩
  | packetId1 => exact ⟨_, rfl, packetId1_framed framed⟩
  | topic0 => exact ⟨_, rfl, topic0_framed framed b⟩
  | topic1 =>
      refine (filterLength_framed framed).mono ?_ fun _ _ never => never
      intro next ⟨moved, after⟩
      exact ⟨_, moved, after⟩
  | topic2 =>
      simp only [unsubscribeByte]
      refine filterByte_framed framed (fun next same after => ?_) fun next after => ?_
      · exact ⟨_, same.trans here, after⟩
      · obtain ⟨⟨room, size, fits⟩, small, spare⟩ := after
        rw [sub32_of_le small (by omega)]
        refine meets_ite (fun _ => ⟨_, rfl, room, ?_, ?_⟩) fun last => ?_
        · exact (Nat.sub_le _ _).trans_lt small
        · simp only
          omega
        · omega

/-- The payload length of a PUBLISH is what `ahead` bytes leave of the declared
length, unless it is too long for the payload index to reach its end. -/
def PayloadFits (s : Session) (declared ahead : Nat) : Prop :=
  0 < s.publish.payloadLen ∧
    (2 ^ 16 ≤ s.publish.payloadLen ∨ ahead + s.publish.payloadLen = declared)

/-- Behind `consumed` bytes of a PUBLISH. -/
def PublishFramed (s : Session) (declared consumed : Nat) : PublishState → Prop
  | .topic0 => s.remLen = declared ∧ declared < 2 ^ 32 ∧ consumed = 0
  | .topic1 => s.remLen = declared ∧ declared < 2 ^ 32 ∧ consumed = 1
  | .topic2 =>
      s.remLen = declared ∧ declared < 2 ^ 32 ∧ consumed = 2 + s.i ∧
        s.i < s.publish.topicLen ∧ s.publish.topicLen ≤ maxTopicLen
  | .packetId0 => s.i = 0 ∧ PayloadFits s declared (consumed + 2)
  | .packetId1 => s.i = 0 ∧ PayloadFits s declared (consumed + 1)
  | .payload =>
      2 ^ 16 ≤ s.publish.payloadLen ∨
        consumed + s.publish.payloadLen = declared + s.i ∧ s.i < s.publish.payloadLen

def PublishNext (declared consumed : Nat) (next : Session) : Prop :=
  ∃ state, next.state = .publish state ∧ PublishFramed next declared (consumed + 1) state

def PublishDone (declared consumed : Nat) (_ : Session) (request : Request) : Prop :=
  request = .publish ∧ consumed + 1 = declared

/-- A payload length below the range of the payload index did not wrap. -/
theorem sub32_fits {declared ahead : Nat} (small : declared < 2 ^ 32) (short : ahead ≤ 131) :
    2 ^ 16 ≤ sub32 declared ahead ∨ ahead + sub32 declared ahead = declared := by
  by_cases enough : ahead ≤ declared
  · rw [sub32_of_le small enough]
    omega
  · rw [sub32_of_lt (by omega) (by omega)]
    omega

private theorem topicDone_framed (length : s.remLen = declared) (small : declared < 2 ^ 32)
    (short : s.publish.topicLen ≤ maxTopicLen) (count : consumed + 1 = 2 + s.publish.topicLen) :
    (topicDone mallocOk s).Ensures (PublishNext declared consumed)
      (PublishDone declared consumed) := by
  rw [maxTopicLen] at short
  unfold topicDone
  by_cases withId : s.header.qos ≠ 0
  · have fits := sub32_fits small (show s.publish.topicLen + 4 ≤ 131 by omega)
    simp only [if_pos withId, length]
    refine meets_ite (fun _ => trivial) fun nonempty => meets_ite (fun _ => ?_) fun _ => trivial
    refine ⟨_, rfl, rfl, ?_⟩
    simp only [PayloadFits]
    omega
  · have fits := sub32_fits small (show s.publish.topicLen + 2 ≤ 131 by omega)
    simp only [if_neg withId, length]
    refine meets_ite (fun _ => trivial) fun nonempty => meets_ite (fun _ => ?_) fun _ => trivial
    refine ⟨_, rfl, ?_⟩
    simp only [PublishFramed]
    omega

private theorem publishByte_framed {state : PublishState} (here : s.state = .publish state)
    (framed : PublishFramed s declared consumed state) :
    (publishByte mallocOk s b state).Ensures (PublishNext declared consumed)
      (PublishDone declared consumed) := by
  cases state with
  | topic0 =>
      obtain ⟨length, small, rfl⟩ := framed
      exact ⟨_, rfl, length, small, rfl⟩
  | topic1 =>
      obtain ⟨length, small, rfl⟩ := framed
      simp only [publishByte]
      refine meets_ite (fun _ => trivial) fun sized => ⟨_, rfl, length, small, rfl, ?_, ?_⟩
      · simp only
        omega
      · simp only
        omega
  | topic2 =>
      obtain ⟨length, small, count, within, short⟩ := framed
      simp only [publishByte]
      refine ensures_store fun inside => ?_
      rw [maxTopicLen] at inside
      rw [incr16_of_lt (by omega)]
      refine meets_ite (fun last => ensures_store fun _ => ?_) fun more => ?_
      · refine topicDone_framed length small short ?_
        simp only
        omega
      · have within : s.i + 1 < s.publish.topicLen := by omega
        exact ⟨_, here, length, small, congrArg (· + 1) count, within, short⟩
  | packetId0 =>
      cases allocated : s.publish.mp with
      | none => simp [publishByte, allocated]
      | some mp =>
          simp only [publishByte, allocated]
          exact ⟨_, rfl, framed⟩
  | packetId1 =>
      cases allocated : s.publish.mp with
      | none => simp [publishByte, allocated]
      | some mp =>
          simp only [publishByte, allocated]
          refine ⟨_, rfl, ?_⟩
          obtain ⟨start, nonempty, fits⟩ := framed
          simp only [PublishFramed]
          omega
  | payload =>
      cases allocated : s.publish.mp with
      | none => simp [publishByte, allocated]
      | some mp =>
          simp only [publishByte, allocated]
          refine ensures_store fun _ => meets_ite (fun last => ensures_store fun _ => ⟨rfl, ?_⟩)
            fun more => ⟨_, here, ?_⟩
          -- an index that is still below the payload length does not wrap
          · have := incr16_lt s.i
            simp only [PublishFramed] at framed
            rw [incr16] at last this
            omega
          · simp only [PublishFramed] at framed ⊢
            rw [incr16] at more ⊢
            omega

/-! ### The account of a stream -/

/-- The account of the packet being read. -/
def InPacket (frame : Frame) (s : Session) : Prop :=
  match s.state with
  | .header => True
  | .remLen => True
  | .connect state => s.remLen = frame.declared ∧ ConnectFramed s frame.consumed state
  | .subscribe state => SubscribeFramed s frame.declared frame.consumed state
  | .unsubscribe state =>
      SubscribeFramed s frame.declared frame.consumed state.asSubscribe
  | .publish state => PublishFramed s frame.declared frame.consumed state

/-- The account of a packet handed to its callback. -/
def Completes (frame : Frame) (s : Session) : Request → Prop
  | .ping => frame = ⟨s.remLen, 0⟩
  | .connect => s.remLen = frame.declared ∧ frame.consumed = connectLength s
  | .subscribe => frame.consumed = frame.declared
  | .unsubscribe => False
  | .publish => frame.consumed = frame.declared

private theorem dispatch_framed (frame : Frame) (small : s.remLen < 2 ^ 32) :
    (dispatch s).Ensures (fun next => InPacket (frame.count .remLen next) next)
      fun last request => Completes (frame.count .remLen last) last request := by
  unfold dispatch
  split
  · exact ⟨rfl, rfl⟩
  · trivial
  · rfl
  · exact ⟨rfl, small, rfl⟩
  · exact ⟨rfl, small, rfl⟩
  · exact ⟨rfl, small, rfl⟩
  · trivial

private theorem remLenByte_framed (frame : Frame) (here : s.state = .remLen) (b : Byte) :
    (remLenByte s b).Ensures (fun next => InPacket (frame.count .remLen next) next)
      fun last request => Completes (frame.count .remLen last) last request := by
  refine meets_ite (fun _ => dispatch_framed frame ?_) fun _ => ?_
  · exact Nat.mod_lt _ (by decide)
  · simp [InPacket, here]

/-- One round keeps the account. -/
theorem parserByte_framed {frame : Frame} (inPacket : InPacket frame s) :
    (parserByte allowAnonymous mallocOk s b).Ensures
      (fun next => InPacket (frame.count s.state next) next)
      fun last request => Completes (frame.count s.state last) last request := by
  unfold parserByte
  cases here : s.state with
  | header => exact meets_ite (fun _ => trivial) fun _ => meets_ite (fun _ => trivial) fun _ => trivial
  | remLen => exact remLenByte_framed frame here b
  | connect state =>
      simp only [InPacket, here] at inPacket
      refine (connectByte_framed here inPacket.2).mono ?_ ?_
      · intro next ⟨remLen, after, moved, framed⟩
        simp only [InPacket, moved]
        exact ⟨remLen.trans inPacket.1, framed⟩
      · intro last request ⟨isConnect, remLen, count⟩
        subst request
        exact ⟨remLen.trans inPacket.1, count⟩
  | subscribe state =>
      simp only [InPacket, here] at inPacket
      refine (subscribeByte_framed here inPacket).mono ?_ ?_
      · intro next ⟨after, moved, framed⟩
        simp only [InPacket, moved]
        exact framed
      · intro last request ⟨isSubscribe, count⟩
        subst request
        exact count
  | unsubscribe state =>
      simp only [InPacket, here] at inPacket
      refine (unsubscribeByte_framed here inPacket).mono ?_ fun _ _ never => never.elim
      intro next ⟨after, moved, framed⟩
      simp only [InPacket, moved]
      exact framed
  | publish state =>
      simp only [InPacket, here] at inPacket
      refine (publishByte_framed here inPacket).mono ?_ ?_
      · intro next ⟨after, moved, framed⟩
        simp only [InPacket, moved]
        exact framed
      · intro last request ⟨isPublish, count⟩
        subst request
        exact count

/-- Whatever byte comes next, `mqtt_parser_execute` returns an error at it. -/
def Refuses (allowAnonymous : Bool) (s : Session) : Prop :=
  ∀ mallocOk b, ∃ after rv, rv ≠ 0 ∧ parserByte allowAnonymous mallocOk s b = .ret after rv

/-- No filter fits into a remaining length of zero. -/
theorem filterLength_refuses (empty : s.remLen = 0) (mallocOk : Bool) (b : Byte)
    (topic2 : PState) : ∃ after rv, rv ≠ 0 ∧ filterLength mallocOk s b topic2 = .ret after rv :=
  ⟨_, 1, by decide, if_pos (by simp only [empty]; omega)⟩

/-- Behind the packet id the account of a SUBSCRIBE or UNSUBSCRIBE of two bytes
or more is exact. -/
theorem SubscribeFramed.bounded {state : SubscribeState}
    (framed : SubscribeFramed s declared consumed state) (ids : 2 ≤ declared)
    (filled : state = .topic2 → 0 < s.subscribe.filterLengths s.subscribe.numFilters) :
    consumed ≤ declared ∨ consumed = declared + 1 ∧ state = .topic1 ∧ s.remLen = 0 := by
  cases state <;> simp only [SubscribeFramed, Remaining, FilterFits] at framed <;>
    simp only [reduceCtorEq, true_and, false_and, true_implies] at filled ⊢ <;> omega

/-- A packet that announces what it can hold stays within the length it
declares, or the next byte is refused. -/
theorem InPacket.bounded {frame : Frame} (inPacket : InPacket frame s)
    (announced : Announced frame s) (allowAnonymous : Bool) :
    s.state = .header ∨ s.state = .remLen ∨ frame.consumed ≤ frame.declared ∨
      frame.consumed = frame.declared + 1 ∧ Refuses allowAnonymous s := by
  unfold InPacket at inPacket
  unfold Announced at announced
  cases here : s.state with
  | header => exact .inl rfl
  | remLen => exact .inr (.inl rfl)
  | connect state =>
      simp only [here] at announced
      exact .inr (.inr (.inl announced))
  | subscribe state =>
      simp only [here] at inPacket announced
      refine .inr (.inr ((inPacket.bounded announced.1 announced.2).imp_right (And.imp_right ?_)))
      rintro ⟨rfl, empty⟩ mallocOk b
      simp only [parserByte, here]
      exact filterLength_refuses empty mallocOk b _
  | unsubscribe state =>
      simp only [here] at inPacket announced
      refine .inr (.inr ((inPacket.bounded announced.1 fun same => announced.2 ?_).imp_right (And.imp_right ?_)))
      · cases state <;> simp_all [UnsubscribeState.asSubscribe]
      · intro ⟨same, empty⟩ mallocOk b
        obtain rfl : state = .topic1 := by cases state <;> simp_all [UnsubscribeState.asSubscribe]
        simp only [parserByte, here]
        exact filterLength_refuses empty mallocOk b _
  | publish state =>
      simp only [here] at inPacket announced
      refine .inr (.inr (.inl ?_))
      cases state <;> simp only [PublishFramed, PayloadFits] at inPacket announced <;> omega

/-- The packet being read is accounted for and announces what it can hold, and
the packets completed took the bytes they declared. -/
structure Framed (stream : Stream) : Prop where
  current : InPacket stream.frame stream.session
  announced : Announced stream.frame stream.session
  completed : ∀ frame ∈ stream.completed, frame.consumed = frame.declared

/-- A byte that meets the condition keeps the account of the stream. -/
theorem Framed.step {stream next : Stream} {input : Input}
    (framed : Framed stream) (honest : Honest allowAnonymous stream input)
    (stepped : stream.step allowAnonymous input = some next) : Framed next := by
  have ensures : (parserByte allowAnonymous input.mallocOk stream.session input.byte).Ensures _ _ :=
    parserByte_framed framed.current
  unfold Honest at honest
  unfold Stream.step at stepped
  cases round : parserByte allowAnonymous input.mallocOk stream.session input.byte with
  | next s =>
      rw [round] at ensures stepped honest
      obtain rfl := Option.some.inj stepped
      exact ⟨ensures, honest, framed.completed⟩
  | call s request =>
      rw [round] at ensures stepped honest
      simp only [Option.ite_none_left_eq_some, Option.some.injEq] at stepped
      obtain ⟨-, rfl⟩ := stepped
      set last := stream.frame.count stream.session.state s
      have exact : last.consumed = last.declared := by
        simp only [meets_call] at ensures
        cases request with
        | ping =>
            rw [show last = ⟨s.remLen, 0⟩ from ensures]
            exact honest.symm
        | connect => exact ensures.2.trans (honest.symm.trans ensures.1)
        | subscribe => exact ensures
        | unsubscribe => exact ensures.elim
        | publish => exact ensures
      refine ⟨trivial, trivial, fun frame member => ?_⟩
      rcases List.mem_append.mp member with old | new
      · exact framed.completed frame old
      · rwa [List.mem_singleton.mp new]
  | ret s rv => simp [round] at stepped
  | disconnect s => simp [round] at stepped
  | stop fault => simp [round] at stepped

/-- On every stream whose packets announce what they can hold and whose CONNECT
and PINGREQ packets declare the length of their fields, every packet the parser
completes has consumed exactly the bytes it declared. A packet that goes on
behind these bytes has taken at most one byte more, and the next one is
refused. -/
theorem completed_packets_consume_declared {allowAnonymous : Bool} {stream : Stream}
    (reached : ((streams allowAnonymous).restrict (Honest allowAnonymous)).Reachable stream) :
    (∀ frame ∈ stream.completed, frame.consumed = frame.declared) ∧
      (stream.session.state = .header ∨ stream.session.state = .remLen ∨
        stream.frame.consumed ≤ stream.frame.declared ∨
        stream.frame.consumed = stream.frame.declared + 1 ∧
          Refuses allowAnonymous stream.session) := by
  have framed : Framed stream := by
    refine reached.invariant ?_ ?_
    · intro start initial
      obtain rfl : start = .initial := initial
      exact ⟨trivial, trivial, fun _ member => absurd member List.not_mem_nil⟩
    · intro before input after _ framed stepped
      obtain ⟨honest, moved⟩ := System.restrict_step.mp stepped
      exact framed.step honest moved
  exact ⟨framed.completed, framed.current.bounded framed.announced allowAnonymous⟩

/-- A CONNECT with user name and password of the given remaining length. -/
def connectPacket (remLen : Byte) : List Byte :=
  [0x10, remLen, 0, 4] ++ lit "MQTT" ++ [4, 0xC2, 0, 60, 0, 1] ++ lit "c" ++ [0, 1] ++ lit "u" ++
    [0, 1] ++ lit "p"

/-- A CONNECT, a PUBLISH and a PINGREQ of the lengths they declare; then a
SUBSCRIBE that declares its packet id only takes one byte more. -/
theorem completed_packets_consume_declared_three_packets :
    ∃ stream, ((streams false).restrict (Honest false)).Reachable stream ∧
      stream.completed = [⟨19, 19⟩, ⟨4, 4⟩, ⟨0, 0⟩] ∧ stream.session.state = .subscribe .topic1 ∧
      stream.frame = ⟨2, 3⟩ ∧ (∀ frame ∈ stream.completed, frame.consumed = frame.declared) ∧
      Refuses false stream.session := by
  obtain ⟨stream, ran, frames, inFilter, current⟩ : ∃ stream,
      ((streams false).restrict (Honest false)).run .initial
        (feed (connectPacket 19 ++ [0x30, 4, 0, 1] ++ lit "ax" ++ [0xC0, 0] ++
          [0x82, 2, 0, 1, 0x30])) = some stream ∧
      stream.completed = [⟨19, 19⟩, ⟨4, 4⟩, ⟨0, 0⟩] ∧ stream.session.state = .subscribe .topic1 ∧
      stream.frame = ⟨2, 3⟩ :=
    ⟨_, rfl, rfl, rfl, rfl⟩
  have reached := System.Reachable.run (.start rfl) ran
  obtain ⟨completed, refuses⟩ := completed_packets_consume_declared reached
  exact ⟨stream, reached, frames, inFilter, current, completed, by simpa [inFilter, current] using refuses⟩

/-- A PINGREQ that declares two bytes consumes none of them, and a CONNECT that
declares none consumes nineteen. A PUBLISH that declares less than its topic
and a SUBSCRIBE that declares nothing go on through the packets behind them. -/
theorem completed_packets_miss_declared :
    (∃ stream, (streams false).Reachable stream ∧ stream.session.state = .header ∧
      stream.completed = [⟨2, 0⟩]) ∧
    (∃ stream, (streams false).Reachable stream ∧ stream.session.state = .header ∧
      stream.completed = [⟨0, 19⟩]) ∧
    (∃ stream, (streams false).Reachable stream ∧ stream.session.state = .publish .payload ∧
      stream.frame = ⟨2, 7⟩ ∧ stream.completed = []) ∧
    ∃ stream, (streams false).Reachable stream ∧ stream.session.state = .subscribe .topic0 ∧
      stream.frame = ⟨0, 6⟩ ∧ stream.completed = [] := by
  have reach : ∀ (sent : List Byte) (Q : Stream → Prop),
      (∃ stream, (streams false).run .initial (feed sent) = some stream ∧ Q stream) →
      ∃ stream, (streams false).Reachable stream ∧ Q stream := by
    rintro sent Q ⟨stream, ran, ends⟩
    exact ⟨stream, .run (.start rfl) ran, ends⟩
  refine ⟨reach [0xC0, 2] _ ⟨_, rfl, rfl, rfl⟩, reach (connectPacket 0) _ ⟨_, rfl, rfl, rfl⟩,
    reach [0x30, 2, 0, 1, 0x61, 0xC0, 0, 0xC0, 0] _ ⟨_, rfl, rfl, rfl, rfl⟩,
    reach [0x82, 0, 0, 1, 0, 1, 0x61, 0] _ ⟨_, rfl, rfl, rfl, rfl⟩⟩

end FbBroker.Parser
