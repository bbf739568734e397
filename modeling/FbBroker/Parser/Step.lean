import FbBroker.Parser.Session

/-!
Contract: one round of the loop of `mqtt_parser_execute`.

`parserByte` is the switch on the parser's state for one byte of the buffer,
with a definition per packet type. `++state` is written as the enumerator that
follows; the answer of a `malloc` in the round is a parameter.

Does not own the callbacks, nor the loop that runs them.
-/

set_option autoImplicit false

namespace FbBroker.Parser

open FbBroker.Packet

/-- `*buf << 8`. -/
def high (b : Byte) : Nat := b.toNat <<< 8

/-- `x |= *buf`. -/
def low (x : Nat) (b : Byte) : Nat := x ||| b.toNat

/-- `++` on a `uint16_t`. -/
def incr16 (i : Nat) : Nat := (i + 1) % 2 ^ 16

/-- `a - b` on `uint32_t`. -/
def sub32 (a b : Nat) : Nat := (a + 2 ^ 32 - b % 2 ^ 32) % 2 ^ 32

/-- Write one element of an array of the given size. -/
def store (size : Nat) (array : Nat → Byte) (i : Nat) (b : Byte)
    (rest : (Nat → Byte) → Outcome) : Outcome :=
  if i < size then rest (Function.update array i b) else .stop .outOfBounds

/-! ### The fixed header -/

def headerByte (s : Session) (b : Byte) : Outcome :=
  let header := Header.ofByte b
  let s := { s with header }
  if header.msgType = .none ∨ header.msgType = .numTypes then .ret s 1
  else if header.retain = 1 then .ret s 1
  else .next { s with remLen := 0, multiplier := 1, state := .remLen }

/-- The switch on the packet type behind the last byte of the remaining
length. -/
def dispatch (s : Session) : Outcome :=
  match s.header.msgType with
  | .connect => .next { s with state := .connect .protocol0 }
  | .disconnect => .disconnect s
  | .pingreq => .call s .ping
  | .subscribe => .next { s with state := .subscribe .packetId0 }
  | .unsubscribe => .next { s with state := .unsubscribe .packetId0 }
  | .publish => .next { s with state := .publish .topic0 }
  | _ => .ret s 1

def remLenByte (s : Session) (b : Byte) : Outcome :=
  let s := { s with
    remLen := (s.remLen + (b.toNat &&& 127) * s.multiplier) % 2 ^ 32
    multiplier := s.multiplier * 128 % 2 ^ 32 }
  if b.toNat &&& 128 = 0 then dispatch s else .next s

/-! ### CONNECT -/

/-- What follows the client id. -/
def clientIdDone (allowAnonymous : Bool) (s : Session) : Outcome :=
  if s.connect.will then .next { s with state := .connect .willTopic0 }
  else if s.connect.usernamePresent then .next { s with state := .connect .username0 }
  else if s.connect.passwordPresent then .ret s 1
  else if !allowAnonymous then .ret s 1
  else .call s .connect

def connectByte (allowAnonymous mallocOk : Bool) (s : Session) (b : Byte) :
    ConnectState → Outcome
  -- no case of the switch: the loop would spin without consuming the byte
  | .packetId0 => .stop .unbounded
  | .packetId1 => .stop .unbounded
  | .protocol0 => .next { s with connect.u16 := high b, state := .connect .protocol1 }
  | .protocol1 =>
      let s := { s with connect.u16 := low s.connect.u16 b }
      if s.connect.u16 > 6 then .ret s 1
      else .next { s with i := 0, state := .connect .protocol2 }
  | .protocol2 =>
      store 7 s.connect.protocol s.i b fun protocol =>
        let s := { s with connect.protocol := protocol, i := incr16 s.i }
        if s.i = s.connect.u16 then .next { s with state := .connect .version } else .next s
  | .version =>
      if s.connect.u16 = 4 ∧ b = 4 ∧ bytes 4 s.connect.protocol = lit "MQTT" then
        .next { s with state := .connect .flags }
      else if s.connect.u16 = 6 ∧ b = 3 ∧ bytes 6 s.connect.protocol = lit "MQIsdp" then
        .next { s with state := .connect .flags }
      else .ret s 1
  | .flags =>
      .next { s with
        connect.will := (b.toNat >>> 2) &&& 1 = 1
        connect.passwordPresent := (b.toNat >>> 6) &&& 1 = 1
        connect.usernamePresent := b.toNat >>> 7 = 1
        state := .connect .keepAlive0 }
  | .keepAlive0 => .next { s with keepAlive := high b, state := .connect .keepAlive1 }
  | .keepAlive1 => .next { s with keepAlive := low s.keepAlive b, state := .connect .clientId0 }
  | .clientId0 => .next { s with clientIdLen := high b, state := .connect .clientId1 }
  | .clientId1 =>
      let s := { s with clientIdLen := low s.clientIdLen b }
      if s.clientIdLen = 0 ∨ s.clientIdLen > maxIdLen then .ret s 1
      else .next { s with i := 0, state := .connect .clientId2 }
  | .clientId2 =>
      store (maxIdLen + 1) s.clientId s.i b fun clientId =>
        let s := { s with clientId, i := incr16 s.i }
        if s.i = s.clientIdLen then
          store (maxIdLen + 1) s.clientId s.i 0 fun clientId =>
            clientIdDone allowAnonymous { s with clientId }
        else .next s
  | .willTopic0 => .next { s with connect.willTopicLen := high b, state := .connect .willTopic1 }
  | .willTopic1 =>
      let s := { s with connect.willTopicLen := low s.connect.willTopicLen b }
      if s.connect.willTopicLen = 0 ∨ s.connect.willTopicLen > maxTopicLen + 1 then .ret s 1
      else .next { s with i := 0, state := .connect .willTopic2 }
  | .willTopic2 =>
      store (maxTopicLen + 1) s.willTopic s.i b fun willTopic =>
        let s := { s with willTopic, i := incr16 s.i }
        if s.i = s.connect.willTopicLen then .next { s with state := .connect .willPayload0 }
        else .next s
  | .willPayload0 => .next { s with connect.u16 := high b, state := .connect .willPayload1 }
  | .willPayload1 =>
      let s := { s with connect.u16 := low s.connect.u16 b }
      if s.connect.u16 = 0 ∨ s.connect.u16 > maxPayloadLen then .ret s (-1)
      else
        let s := { s with i := 0 }
        if mallocOk then
          let mp := messageCreate s.connect.willTopicLen s.connect.u16 0 s.header.qos
            s.header.retain 0
          .next { s with
            willMp := some { mp with topic := s.connect.willTopic }
            state := .connect .willPayload2 }
        else .ret s 1
  | .willPayload2 =>
      match s.willMp with
      | none => .stop .nullPointer
      | some mp =>
          store (mp.payloadLen + 1) mp.payload s.i b fun payload =>
            let s := { s with willMp := some { mp with payload }, i := incr16 s.i }
            if s.i = s.connect.u16 then
              if s.connect.usernamePresent then .next { s with state := .connect .username0 }
              else .ret s (-1)
            else .next s
  | .username0 => .next { s with usernameLen := high b, state := .connect .username1 }
  | .username1 =>
      let s := { s with usernameLen := low s.usernameLen b }
      if s.usernameLen = 0 ∨ s.usernameLen > maxIdLen then .ret s 1
      else .next { s with i := 0, state := .connect .username2 }
  | .username2 =>
      store (maxIdLen + 1) s.username s.i b fun username =>
        let s := { s with username, i := incr16 s.i }
        if s.i = s.usernameLen then
          store (maxIdLen + 1) s.username s.i 0 fun username =>
            .next { s with username, state := .connect .password0 }
        else .next s
  | .password0 => .next { s with connect.u16 := high b, state := .connect .password1 }
  | .password1 =>
      let s := { s with connect.u16 := low s.connect.u16 b }
      if s.connect.u16 = 0 ∨ s.connect.u16 > maxIdLen then .ret s 1
      else .next { s with i := 0, state := .connect .password2 }
  | .password2 =>
      store (maxIdLen + 1) s.connect.password s.i b fun password =>
        let s := { s with connect.password := password, i := incr16 s.i }
        if s.i = s.connect.u16 then
          store (maxIdLen + 1) s.connect.password s.i 0 fun password =>
            .call { s with connect.password := password } .connect
        else .next s

/-! ### SUBSCRIBE and UNSUBSCRIBE -/

/-- The allocation of the next filter; both packets check its length against
the remaining length with the byte of a requested QoS. -/
def filterLength (mallocOk : Bool) (s : Session) (b : Byte) (topic2 : PState) : Outcome :=
  let s := { s with subscribe.u16 := low s.subscribe.u16 b }
  if s.subscribe.u16 + 3 > s.remLen then .ret s 1
  else if !mallocOk then .ret s 1
  else
    let n := s.subscribe.numFilters
    if n < maxNumTopics then
      .next { s with
        subscribe.filterLengths := Function.update s.subscribe.filterLengths n s.subscribe.u16
        subscribe.filters := Function.update s.subscribe.filters n fun _ => 0
        subscribe.u16 := 0
        state := topic2 }
    else .stop .outOfBounds

/-- The next byte of a filter, and what follows its last one. -/
def filterByte (s : Session) (b : Byte) (done : Session → Outcome) : Outcome :=
  let n := s.subscribe.numFilters
  if n < maxNumTopics then
    store (s.subscribe.filterLengths n + 1) (s.subscribe.filters n) s.subscribe.u16 b fun filter =>
      let s := { s with
        subscribe.filters := Function.update s.subscribe.filters n filter
        subscribe.u16 := incr16 s.subscribe.u16 }
      if s.subscribe.u16 = s.subscribe.filterLengths n then done s else .next s
  else .stop .outOfBounds

def subscribeByte (mallocOk : Bool) (s : Session) (b : Byte) : SubscribeState → Outcome
  | .packetId0 => .next { s with subscribe.packetId := high b, state := .subscribe .packetId1 }
  | .packetId1 =>
      .next { s with
        subscribe.packetId := low s.subscribe.packetId b
        subscribe.numFilters := 0
        remLen := sub32 s.remLen 2
        state := .subscribe .topic0 }
  | .topic0 => .next { s with subscribe.u16 := high b, state := .subscribe .topic1 }
  | .topic1 => filterLength mallocOk s b (.subscribe .topic2)
  | .topic2 => filterByte s b fun s => .next { s with state := .subscribe .topicQos }
  | .topicQos =>
      if b.toNat > 2 then .ret s 1
      else
        let n := s.subscribe.numFilters
        if n < maxNumTopics then
          let s := { s with
            subscribe.qos := Function.update s.subscribe.qos n b.toNat
            connect.password := overlayQos n b s.connect.password
            remLen := sub32 s.remLen (s.subscribe.filterLengths n + 3)
            subscribe.numFilters := n + 1 }
          if s.remLen > 0 then .next { s with state := .subscribe .topic0 }
          else .call s .subscribe
        else .stop .outOfBounds

def unsubscribeByte (mallocOk : Bool) (s : Session) (b : Byte) : UnsubscribeState → Outcome
  | .packetId0 => .next { s with subscribe.packetId := high b, state := .unsubscribe .packetId1 }
  | .packetId1 =>
      .next { s with
        subscribe.packetId := low s.subscribe.packetId b
        subscribe.numFilters := 0
        remLen := sub32 s.remLen 2
        state := .unsubscribe .topic0 }
  | .topic0 => .next { s with subscribe.u16 := high b, state := .unsubscribe .topic1 }
  | .topic1 => filterLength mallocOk s b (.unsubscribe .topic2)
  | .topic2 =>
      filterByte s b fun s =>
        let n := s.subscribe.numFilters
        let s := { s with
          remLen := sub32 s.remLen (s.subscribe.filterLengths n + 2)
          subscribe.numFilters := n + 1 }
        if s.remLen > 0 then .next { s with state := .unsubscribe .topic0 }
        else .call s .unsubscribe

/-! ### PUBLISH -/

/-- Behind the topic: compute the payload length and allocate the message. -/
def topicDone (mallocOk : Bool) (s : Session) : Outcome :=
  let s :=
    if s.header.qos ≠ 0 then
      { s with
        publish.payloadLen := sub32 s.remLen (s.publish.topicLen + 4)
        state := .publish .packetId0 }
    else
      { s with
        publish.payloadLen := sub32 s.remLen (s.publish.topicLen + 2)
        state := .publish .payload }
  if s.publish.payloadLen = 0 then .ret s 1
  else
    let s := { s with i := 0 }
    if mallocOk then
      let mp := messageCreate s.publish.topicLen s.publish.payloadLen s.header.dup s.header.qos
        s.header.retain 0
      .next { s with publish.mp := some { mp with topic := s.publish.topic } }
    else .ret s 1

def publishByte (mallocOk : Bool) (s : Session) (b : Byte) : PublishState → Outcome
  | .topic0 => .next { s with publish.topicLen := high b, state := .publish .topic1 }
  | .topic1 =>
      let s := { s with publish.topicLen := low s.publish.topicLen b }
      if s.publish.topicLen = 0 ∨ s.publish.topicLen > maxTopicLen then .ret s 1
      else .next { s with i := 0, state := .publish .topic2 }
  | .topic2 =>
      store (maxTopicLen + 1) s.publish.topic s.i b fun topic =>
        let s := { s with publish.topic := topic, i := incr16 s.i }
        if s.i = s.publish.topicLen then
          store (maxTopicLen + 1) s.publish.topic s.i 0 fun topic =>
            topicDone mallocOk { s with publish.topic := topic }
        else .next s
  | .packetId0 =>
      match s.publish.mp with
      | none => .stop .nullPointer
      | some mp =>
          .next { s with
            publish.mp := some { mp with packetId := high b }
            state := .publish .packetId1 }
  | .packetId1 =>
      match s.publish.mp with
      | none => .stop .nullPointer
      | some mp =>
          .next { s with
            publish.mp := some { mp with packetId := low mp.packetId b }
            state := .publish .payload }
  | .payload =>
      match s.publish.mp with
      | none => .stop .nullPointer
      | some mp =>
          store (mp.payloadLen + 1) mp.payload s.i b fun payload =>
            let s := { s with publish.mp := some { mp with payload }, i := incr16 s.i }
            if s.i = s.publish.payloadLen then
              store (mp.payloadLen + 1) payload s.i 0 fun payload =>
                .call { s with publish.mp := some { mp with payload } } .publish
            else .next s

/-- One round of the loop of `mqtt_parser_execute`. -/
def parserByte (allowAnonymous mallocOk : Bool) (s : Session) (b : Byte) : Outcome :=
  match s.state with
  | .header => headerByte s b
  | .remLen => remLenByte s b
  | .connect state => connectByte allowAnonymous mallocOk s b state
  | .subscribe state => subscribeByte mallocOk s b state
  | .unsubscribe state => unsubscribeByte mallocOk s b state
  | .publish state => publishByte mallocOk s b state

/-! ### What a round can lead to -/

/-- What is asked of a round, for each way it can end. -/
structure Outcome.Post where
  next : Session → Prop
  ret : Session → Int → Prop
  call : Session → Request → Prop
  disconnect : Session → Prop
  stop : Fault → Prop

def Outcome.Meets (post : Outcome.Post) : Outcome → Prop
  | .next s => post.next s
  | .ret s rv => post.ret s rv
  | .call s request => post.call s request
  | .disconnect s => post.disconnect s
  | .stop fault => post.stop fault

section Meets

variable {post : Outcome.Post} {s : Session}

@[simp] theorem meets_next : (Outcome.next s).Meets post ↔ post.next s := Iff.rfl

@[simp] theorem meets_ret {rv : Int} : (Outcome.ret s rv).Meets post ↔ post.ret s rv := Iff.rfl

@[simp] theorem meets_call {request : Request} :
    (Outcome.call s request).Meets post ↔ post.call s request := Iff.rfl

@[simp] theorem meets_disconnect : (Outcome.disconnect s).Meets post ↔ post.disconnect s := Iff.rfl

@[simp] theorem meets_stop {fault : Fault} :
    (Outcome.stop fault).Meets post ↔ post.stop fault := Iff.rfl

theorem meets_ite {condition : Prop} [Decidable condition] {yes no : Outcome}
    (ifTrue : condition → yes.Meets post) (ifFalse : ¬ condition → no.Meets post) :
    (if condition then yes else no).Meets post := by
  split
  · exact ifTrue ‹_›
  · exact ifFalse ‹_›

/-- A write goes on within its bounds only. -/
theorem meets_store {size i : Nat} {array : Nat → Byte} {b : Byte}
    {rest : (Nat → Byte) → Outcome}
    (inside : i < size → (rest (Function.update array i b)).Meets post)
    (outside : ¬ i < size → post.stop .outOfBounds) : (store size array i b rest).Meets post :=
  meets_ite inside outside

end Meets

/-- The sessions a round goes on with, and those it hands to a callback,
satisfy a condition each. -/
abbrev Outcome.Ensures (onNext : Session → Prop) (onCall : Session → Request → Prop) :
    Outcome → Prop :=
  Outcome.Meets ⟨onNext, fun _ _ => True, onCall, fun _ => True, fun _ => True⟩

section Ensures

variable {onNext : Session → Prop} {onCall : Session → Request → Prop}

theorem Outcome.Ensures.mono {weakNext : Session → Prop} {weakCall : Session → Request → Prop}
    {outcome : Outcome} (ensures : outcome.Ensures onNext onCall)
    (next : ∀ s, onNext s → weakNext s) (call : ∀ s request, onCall s request → weakCall s request) :
    outcome.Ensures weakNext weakCall := by
  cases outcome with
  | next s => exact next s ensures
  | call s request => exact call s request ensures
  | ret s rv => trivial
  | disconnect s => trivial
  | stop fault => trivial

theorem Outcome.Ensures.and {alsoNext : Session → Prop} {alsoCall : Session → Request → Prop}
    {outcome : Outcome} (first : outcome.Ensures onNext onCall) (second : outcome.Ensures alsoNext alsoCall) :
    outcome.Ensures (fun s => onNext s ∧ alsoNext s) fun s request => onCall s request ∧ alsoCall s request := by
  cases outcome with
  | next s => exact ⟨first, second⟩
  | call s request => exact ⟨first, second⟩
  | ret s rv => trivial
  | disconnect s => trivial
  | stop fault => trivial

theorem ensures_store {size i : Nat} {array : Nat → Byte} {b : Byte}
    {rest : (Nat → Byte) → Outcome}
    (inside : i < size → (rest (Function.update array i b)).Ensures onNext onCall) :
    (store size array i b rest).Ensures onNext onCall :=
  meets_store inside fun _ => trivial

end Ensures

/-! ### Arithmetic of the fixed widths -/

theorem high_lt (b : Byte) : high b < 2 ^ 16 := by
  have := UInt8.toNat_lt b
  rw [high, Nat.shiftLeft_eq]
  omega

theorem low_lt {x : Nat} (small : x < 2 ^ 16) (b : Byte) : low x b < 2 ^ 16 :=
  Nat.or_lt_two_pow small ((UInt8.toNat_lt b).trans (by decide))

theorem incr16_lt (i : Nat) : incr16 i < 2 ^ 16 :=
  Nat.mod_lt _ (by decide)

theorem incr16_of_lt {i : Nat} (small : i + 1 < 2 ^ 16) : incr16 i = i + 1 :=
  Nat.mod_eq_of_lt small

theorem sub32_lt (a b : Nat) : sub32 a b < 2 ^ 32 :=
  Nat.mod_lt _ (by decide)

theorem sub32_of_le {a b : Nat} (small : a < 2 ^ 32) (le : b ≤ a) : sub32 a b = a - b := by
  rw [sub32, Nat.mod_eq_of_lt (le.trans_lt small)]
  omega

/-- A difference below zero wraps around. -/
theorem sub32_of_lt {a b : Nat} (small : b < 2 ^ 32) (lt : a < b) :
    sub32 a b = 2 ^ 32 + a - b := by
  rw [sub32, Nat.mod_eq_of_lt small]
  omega

end FbBroker.Parser
