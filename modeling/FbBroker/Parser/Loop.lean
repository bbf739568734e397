import FbBroker.Lib.System
import FbBroker.Parser.Frame

/-!
Contract: the loop of `mqtt_parser_execute` with its cursor.

Here `parser->state` is the integer it is in C, `++parser->state` adds one to it, and
each case of the switch moves the cursor into the buffer itself. An integer without a
case leaves the switch with nothing done, and the loop spins.

Owns that the switch does what `parserByte` does, that no parser reaches an integer
without a case, and that a call ends within as many iterations as it has bytes.

Does not own what the callbacks do: they may change the record, but not its state.
-/

set_option autoImplicit false

namespace FbBroker.Parser

open FbBroker.Packet FbBroker.Lib

variable {allowAnonymous mallocOk : Bool} {s : Session} {b : Byte}

/-! ### Enumerators -/

/-- The enumerators in the order of their declaration. -/
def enumerators : List PState :=
  [.header, .remLen,
    .connect .packetId0, .connect .packetId1,
    .connect .protocol0, .connect .protocol1, .connect .protocol2,
    .connect .version, .connect .flags,
    .connect .keepAlive0, .connect .keepAlive1,
    .connect .clientId0, .connect .clientId1, .connect .clientId2,
    .connect .willTopic0, .connect .willTopic1, .connect .willTopic2,
    .connect .willPayload0, .connect .willPayload1, .connect .willPayload2,
    .connect .username0, .connect .username1, .connect .username2,
    .connect .password0, .connect .password1, .connect .password2,
    .subscribe .packetId0, .subscribe .packetId1,
    .subscribe .topic0, .subscribe .topic1, .subscribe .topic2, .subscribe .topicQos,
    .unsubscribe .packetId0, .unsubscribe .packetId1,
    .unsubscribe .topic0, .unsubscribe .topic1, .unsubscribe .topic2,
    .publish .topic0, .publish .topic1, .publish .topic2,
    .publish .packetId0, .publish .packetId1,
    .publish .payload]

/-- The integer of an enumerator. -/
def PState.code : PState → Nat
  | .header => 0
  | .remLen => 1
  | .connect state => 2 + state.ctorIdx
  | .subscribe state => 26 + state.ctorIdx
  | .unsubscribe state => 32 + state.ctorIdx
  | .publish state => 37 + state.ctorIdx

/-- The enumerator of an integer, if it has one. -/
def PState.ofCode (code : Nat) : Option PState :=
  enumerators[code]?

theorem PState.ofCode_code (state : PState) : PState.ofCode state.code = some state := by
  cases state with
  | header => rfl
  | remLen => rfl
  | connect state => cases state <;> rfl
  | subscribe state => cases state <;> rfl
  | unsubscribe state => cases state <;> rfl
  | publish state => cases state <;> rfl

/-! ### The cursor -/

/-- The parser record with its `state` as an integer, and what is left of the buffer. The
state inside the record is not used. -/
structure Cursor where
  record : Session
  state : Nat
  buf : List Byte

namespace Cursor

/-- `++buf; --len`. -/
def advance (c : Cursor) : Cursor :=
  { c with buf := c.buf.tail }

/-- `++parser->state`. -/
def up (c : Cursor) : Cursor :=
  { c with state := c.state + 1 }

/-- `parser->state = S_...`. -/
def goto (c : Cursor) (state : PState) : Cursor :=
  { c with state := state.code }

def put (c : Cursor) (record : Session) : Cursor :=
  { c with record }

end Cursor

/-- How the switch is left. -/
inductive Exit where
  /-- by a `break` -/
  | leave (c : Cursor)
  | ret (c : Cursor) (rv : Int)
  /-- run a callback; return 1 if it fails, else go on with what follows it -/
  | call (c : Cursor) (request : Request) (follows : Cursor → Cursor)
  /-- close the client, go back to `S_HEADER` and return 0 -/
  | disconnect (c : Cursor)
  | stop (fault : Fault)

/-- Write one element of an array of the given size. -/
def Exit.store (size : Nat) (array : Nat → Byte) (i : Nat) (b : Byte) (rest : (Nat → Byte) → Exit) : Exit :=
  if i < size then rest (Function.update array i b) else .stop .outOfBounds

/-- A callback, and back to `S_HEADER` if it succeeds. -/
def Cursor.call (c : Cursor) (request : Request) : Exit :=
  .call c request fun c => c.goto .header

/-! ### The switch -/

namespace Cursor

def caseHeader (c : Cursor) (b : Byte) : Exit :=
  let c := c.put { c.record with header := Header.ofByte b }
  if c.record.header.msgType = .none ∨ c.record.header.msgType = .numTypes then .ret c 1
  else if c.record.header.retain = 1 then .ret c 1
  else .leave (c.put { c.record with remLen := 0, multiplier := 1 }).up.advance

def caseRemLen (c : Cursor) (b : Byte) : Exit :=
  let c := c.put { c.record with
    remLen := (c.record.remLen + (b.toNat &&& 127) * c.record.multiplier) % 2 ^ 32
    multiplier := c.record.multiplier * 128 % 2 ^ 32 }
  if b.toNat &&& 128 = 0 then
    match c.record.header.msgType with
    | .connect => .leave (c.goto (.connect .protocol0)).advance
    | .disconnect => .disconnect c
    -- the byte is consumed behind the callback
    | .pingreq => .call c .ping fun c => (c.goto .header).advance
    | .subscribe => .leave (c.goto (.subscribe .packetId0)).advance
    | .unsubscribe => .leave (c.goto (.unsubscribe .packetId0)).advance
    | .publish => .leave (c.goto (.publish .topic0)).advance
    | _ => .ret c 1
  else .leave c.advance

/-- The end of `S_CONNECT_CLIENT_ID_2`. -/
def clientIdEnds (allowAnonymous : Bool) (c : Cursor) : Exit :=
  if c.record.connect.will then .leave c.up
  else if c.record.connect.usernamePresent then .leave (c.goto (.connect .username0))
  else if c.record.connect.passwordPresent then .ret c 1
  else if !allowAnonymous then .ret c 1
  else c.call .connect

def caseConnect (allowAnonymous mallocOk : Bool) (c : Cursor) (b : Byte) : ConnectState → Exit
  | .packetId0 => .leave c
  | .packetId1 => .leave c
  | .protocol0 => .leave (c.put { c.record with connect.u16 := high b }).up.advance
  | .protocol1 =>
      let c := c.put { c.record with connect.u16 := low c.record.connect.u16 b }
      if c.record.connect.u16 > 6 then .ret c 1
      else .leave (c.put { c.record with i := 0 }).advance.up
  | .protocol2 =>
      .store 7 c.record.connect.protocol c.record.i b fun protocol =>
        let c := (c.put { c.record with connect.protocol := protocol, i := incr16 c.record.i }).advance
        if c.record.i = c.record.connect.u16 then .leave c.up else .leave c
  | .version =>
      if c.record.connect.u16 = 4 ∧ b = 4 ∧ bytes 4 c.record.connect.protocol = lit "MQTT" then
        .leave c.advance.up
      else if c.record.connect.u16 = 6 ∧ b = 3 ∧ bytes 6 c.record.connect.protocol = lit "MQIsdp" then
        .leave c.advance.up
      else .ret c 1
  | .flags =>
      .leave (c.put { c.record with
        connect.will := (b.toNat >>> 2) &&& 1 = 1
        connect.passwordPresent := (b.toNat >>> 6) &&& 1 = 1
        connect.usernamePresent := b.toNat >>> 7 = 1 }).advance.up
  | .keepAlive0 => .leave (c.put { c.record with keepAlive := high b }).up.advance
  | .keepAlive1 => .leave (c.put { c.record with keepAlive := low c.record.keepAlive b }).up.advance
  | .clientId0 => .leave (c.put { c.record with clientIdLen := high b }).up.advance
  | .clientId1 =>
      let c := c.put { c.record with clientIdLen := low c.record.clientIdLen b }
      if c.record.clientIdLen = 0 ∨ c.record.clientIdLen > maxIdLen then .ret c 1
      else .leave (c.put { c.record with i := 0 }).advance.up
  | .clientId2 =>
      .store (maxIdLen + 1) c.record.clientId c.record.i b fun clientId =>
        let c := (c.put { c.record with clientId, i := incr16 c.record.i }).advance
        if c.record.i = c.record.clientIdLen then
          .store (maxIdLen + 1) c.record.clientId c.record.i 0 fun clientId =>
            clientIdEnds allowAnonymous (c.put { c.record with clientId })
        else .leave c
  | .willTopic0 => .leave (c.put { c.record with connect.willTopicLen := high b }).up.advance
  | .willTopic1 =>
      let c := c.put { c.record with connect.willTopicLen := low c.record.connect.willTopicLen b }
      if c.record.connect.willTopicLen = 0 ∨ c.record.connect.willTopicLen > maxTopicLen + 1 then .ret c 1
      else .leave (c.put { c.record with i := 0 }).advance.up
  | .willTopic2 =>
      .store (maxTopicLen + 1) c.record.willTopic c.record.i b fun willTopic =>
        let c := (c.put { c.record with willTopic, i := incr16 c.record.i }).advance
        if c.record.i = c.record.connect.willTopicLen then .leave c.up else .leave c
  | .willPayload0 => .leave (c.put { c.record with connect.u16 := high b }).up.advance
  | .willPayload1 =>
      let c := c.put { c.record with connect.u16 := low c.record.connect.u16 b }
      if c.record.connect.u16 = 0 ∨ c.record.connect.u16 > maxPayloadLen then .ret c (-1)
      else
        let c := c.put { c.record with i := 0 }
        if mallocOk then
          let mp := messageCreate c.record.connect.willTopicLen c.record.connect.u16 0 c.record.header.qos
            c.record.header.retain 0
          .leave (c.put { c.record with
            willMp := some { mp with topic := c.record.connect.willTopic } }).advance.up
        else .ret c 1
  | .willPayload2 =>
      match c.record.willMp with
      | none => .stop .nullPointer
      | some mp =>
          .store (mp.payloadLen + 1) mp.payload c.record.i b fun payload =>
            let c := (c.put { c.record with
              willMp := some { mp with payload }, i := incr16 c.record.i }).advance
            if c.record.i = c.record.connect.u16 then
              if c.record.connect.usernamePresent then .leave c.up else .ret c (-1)
            else .leave c
  | .username0 => .leave (c.put { c.record with usernameLen := high b }).up.advance
  | .username1 =>
      let c := c.put { c.record with usernameLen := low c.record.usernameLen b }
      if c.record.usernameLen = 0 ∨ c.record.usernameLen > maxIdLen then .ret c 1
      else .leave (c.put { c.record with i := 0 }).advance.up
  | .username2 =>
      .store (maxIdLen + 1) c.record.username c.record.i b fun username =>
        let c := (c.put { c.record with username, i := incr16 c.record.i }).advance
        if c.record.i = c.record.usernameLen then
          .store (maxIdLen + 1) c.record.username c.record.i 0 fun username =>
            .leave (c.put { c.record with username }).up
        else .leave c
  | .password0 => .leave (c.put { c.record with connect.u16 := high b }).up.advance
  | .password1 =>
      let c := c.put { c.record with connect.u16 := low c.record.connect.u16 b }
      if c.record.connect.u16 = 0 ∨ c.record.connect.u16 > maxIdLen then .ret c 1
      else .leave (c.put { c.record with i := 0 }).advance.up
  | .password2 =>
      .store (maxIdLen + 1) c.record.connect.password c.record.i b fun password =>
        let c := (c.put { c.record with connect.password := password, i := incr16 c.record.i }).advance
        if c.record.i = c.record.connect.u16 then
          .store (maxIdLen + 1) c.record.connect.password c.record.i 0 fun password =>
            (c.put { c.record with connect.password := password }).call .connect
        else .leave c

/-- `S_SUBSCRIBE_TOPIC_1` and `S_UNSUBSCRIBE_TOPIC_1`. -/
def caseFilterLength (mallocOk : Bool) (c : Cursor) (b : Byte) : Exit :=
  let c := c.put { c.record with subscribe.u16 := low c.record.subscribe.u16 b }
  if c.record.subscribe.u16 + 3 > c.record.remLen then .ret c 1
  else
    let c := c.advance
    if !mallocOk then .ret c 1
    else
      let n := c.record.subscribe.numFilters
      if n < maxNumTopics then
        .leave (c.put { c.record with
          subscribe.filterLengths :=
            Function.update c.record.subscribe.filterLengths n c.record.subscribe.u16
          subscribe.filters := Function.update c.record.subscribe.filters n fun _ => 0
          subscribe.u16 := 0 }).up
      else .stop .outOfBounds

/-- `S_SUBSCRIBE_TOPIC_2` and `S_UNSUBSCRIBE_TOPIC_2`, up to the last byte of the
filter. -/
def caseFilter (c : Cursor) (b : Byte) (ends : Cursor → Exit) : Exit :=
  let n := c.record.subscribe.numFilters
  if n < maxNumTopics then
    .store (c.record.subscribe.filterLengths n + 1) (c.record.subscribe.filters n)
        c.record.subscribe.u16 b fun filter =>
      let c := (c.put { c.record with
        subscribe.filters := Function.update c.record.subscribe.filters n filter
        subscribe.u16 := incr16 c.record.subscribe.u16 }).advance
      if c.record.subscribe.u16 = c.record.subscribe.filterLengths n then ends c else .leave c
  else .stop .outOfBounds

def caseSubscribe (mallocOk : Bool) (c : Cursor) (b : Byte) : SubscribeState → Exit
  | .packetId0 => .leave (c.put { c.record with subscribe.packetId := high b }).advance.up
  | .packetId1 =>
      .leave (c.put { c.record with
        subscribe.packetId := low c.record.subscribe.packetId b
        subscribe.numFilters := 0
        remLen := sub32 c.record.remLen 2 }).advance.up
  | .topic0 => .leave (c.put { c.record with subscribe.u16 := high b }).advance.up
  | .topic1 => caseFilterLength mallocOk c b
  | .topic2 => caseFilter c b fun c => .leave (c.goto (.subscribe .topicQos))
  | .topicQos =>
      if b.toNat > 2 then .ret c 1
      else
        let n := c.record.subscribe.numFilters
        if n < maxNumTopics then
          let c := (c.put { c.record with
            subscribe.qos := Function.update c.record.subscribe.qos n b.toNat
            connect.password := overlayQos n b c.record.connect.password
            remLen := sub32 c.record.remLen (c.record.subscribe.filterLengths n + 3)
            subscribe.numFilters := n + 1 }).advance
          if c.record.remLen > 0 then .leave (c.goto (.subscribe .topic0))
          else c.call .subscribe
        else .stop .outOfBounds

def caseUnsubscribe (mallocOk : Bool) (c : Cursor) (b : Byte) : UnsubscribeState → Exit
  | .packetId0 => .leave (c.put { c.record with subscribe.packetId := high b }).advance.up
  | .packetId1 =>
      .leave (c.put { c.record with
        subscribe.packetId := low c.record.subscribe.packetId b
        subscribe.numFilters := 0
        remLen := sub32 c.record.remLen 2 }).advance.up
  | .topic0 => .leave (c.put { c.record with subscribe.u16 := high b }).advance.up
  | .topic1 => caseFilterLength mallocOk c b
  | .topic2 =>
      caseFilter c b fun c =>
        let n := c.record.subscribe.numFilters
        let c := c.put { c.record with
          remLen := sub32 c.record.remLen (c.record.subscribe.filterLengths n + 2)
          subscribe.numFilters := n + 1 }
        if c.record.remLen > 0 then .leave (c.goto (.unsubscribe .topic0))
        else c.call .unsubscribe

/-- The end of `S_PUBLISH_TOPIC_2`: the state has moved on before the payload length and
the allocation are checked. -/
def topicEnds (mallocOk : Bool) (c : Cursor) : Exit :=
  let c :=
    if c.record.header.qos ≠ 0 then
      (c.put { c.record with
        publish.payloadLen := sub32 c.record.remLen (c.record.publish.topicLen + 4) }).up
    else
      (c.put { c.record with
        publish.payloadLen := sub32 c.record.remLen (c.record.publish.topicLen + 2) }).goto (.publish .payload)
  if c.record.publish.payloadLen = 0 then .ret c 1
  else
    let c := c.put { c.record with i := 0 }
    if mallocOk then
      let mp := messageCreate c.record.publish.topicLen c.record.publish.payloadLen c.record.header.dup
        c.record.header.qos c.record.header.retain 0
      .leave (c.put { c.record with publish.mp := some { mp with topic := c.record.publish.topic } })
    else .ret c 1

def casePublish (mallocOk : Bool) (c : Cursor) (b : Byte) : PublishState → Exit
  | .topic0 => .leave (c.put { c.record with publish.topicLen := high b }).up.advance
  | .topic1 =>
      let c := c.put { c.record with publish.topicLen := low c.record.publish.topicLen b }
      if c.record.publish.topicLen = 0 ∨ c.record.publish.topicLen > maxTopicLen then .ret c 1
      else .leave (c.put { c.record with i := 0 }).advance.up
  | .topic2 =>
      .store (maxTopicLen + 1) c.record.publish.topic c.record.i b fun topic =>
        let c := (c.put { c.record with publish.topic := topic, i := incr16 c.record.i }).advance
        if c.record.i = c.record.publish.topicLen then
          .store (maxTopicLen + 1) c.record.publish.topic c.record.i 0 fun topic =>
            topicEnds mallocOk (c.put { c.record with publish.topic := topic })
        else .leave c
  | .packetId0 =>
      match c.record.publish.mp with
      | none => .stop .nullPointer
      | some mp =>
          .leave (c.put { c.record with publish.mp := some { mp with packetId := high b } }).advance.up
  | .packetId1 =>
      match c.record.publish.mp with
      | none => .stop .nullPointer
      | some mp =>
          .leave (c.put { c.record with
            publish.mp := some { mp with packetId := low mp.packetId b } }).advance.up
  | .payload =>
      match c.record.publish.mp with
      | none => .stop .nullPointer
      | some mp =>
          .store (mp.payloadLen + 1) mp.payload c.record.i b fun payload =>
            let c := (c.put { c.record with
              publish.mp := some { mp with payload }, i := incr16 c.record.i }).advance
            if c.record.i = c.record.publish.payloadLen then
              .store (mp.payloadLen + 1) payload c.record.i 0 fun payload =>
                (c.put { c.record with publish.mp := some { mp with payload } }).call .publish
            else .leave c

/-- `switch (parser->state)`, without a `default`. -/
def switch (allowAnonymous mallocOk : Bool) (c : Cursor) (b : Byte) : Exit :=
  match PState.ofCode c.state with
  | some .header => c.caseHeader b
  | some .remLen => c.caseRemLen b
  | some (.connect state) => c.caseConnect allowAnonymous mallocOk b state
  | some (.subscribe state) => c.caseSubscribe mallocOk b state
  | some (.unsubscribe state) => c.caseUnsubscribe mallocOk b state
  | some (.publish state) => c.casePublish mallocOk b state
  | none => .leave c

end Cursor

/-! ### The loop -/

/-- What an iteration meets: the answer of `malloc`, and the callbacks, each with what it
leaves of the record. -/
structure Replies where
  mallocOk : Bool
  callback : Session → Request → Session × Int
  disconnect : Session → Session

/-- An iteration goes back to the head of the loop, or the call is over. -/
inductive Iteration where
  | again (c : Cursor)
  | returned (c : Cursor) (rv : Int)
  | stopped (fault : Fault)

namespace Cursor

/-- The body of the loop on the byte under the cursor. -/
def iterate (allowAnonymous : Bool) (replies : Replies) (c : Cursor) (b : Byte) : Iteration :=
  match c.switch allowAnonymous replies.mallocOk b with
  | .leave c => .again c
  | .ret c rv => .returned c rv
  | .call c request follows =>
      let (record, rv) := replies.callback c.record request
      if rv ≠ 0 then .returned (c.put record) 1 else .again (follows (c.put record))
  | .disconnect c => .returned ((c.put (replies.disconnect c.record)).goto .header) 0
  | .stop fault => .stopped fault

/-- `while (len)`, for as many iterations as there are replies; `none` if the call has
not ended by then. -/
def loop (allowAnonymous : Bool) (c : Cursor) (replies : List Replies) : Option Iteration :=
  match c.buf, replies with
  | [], _ => some (.returned c 0)
  | _ :: _, [] => none
  | b :: _, first :: replies =>
      match c.iterate allowAnonymous first b with
      | .again c => c.loop allowAnonymous replies
      | ended => some ended

end Cursor

/-! ### The switch and the round -/

/-- A record and the integer of its state show a session. -/
structure Shows (record : Session) (code : Nat) (s : Session) : Prop where
  record : s = { record with state := s.state }
  state : code = s.state.code

/-- The switch is left the way a round ends, and the byte is consumed unless the function
returns. -/
inductive Exit.Follows (rest : List Byte) : Exit → Outcome → Prop
  | leave {record s : Session} {code : Nat} (shown : Shows record code s) :
      Follows rest (.leave ⟨record, code, rest⟩) (.next s)
  | ret {record s : Session} {code : Nat} {buf : List Byte} {rv : Int} (shown : Shows record code s) :
      Follows rest (.ret ⟨record, code, buf⟩ rv) (.ret s rv)
  | call {record s : Session} {code : Nat} {buf : List Byte} {request : Request}
      {follows : Cursor → Cursor} (shown : Shows record code s)
      (resumes : ∀ record, follows ⟨record, code, buf⟩ = ⟨record, PState.header.code, rest⟩) :
      Follows rest (.call ⟨record, code, buf⟩ request follows) (.call s request)
  | disconnect {record s : Session} {code : Nat} {buf : List Byte} (shown : Shows record code s) :
      Follows rest (.disconnect ⟨record, code, buf⟩) (.disconnect s)
  | stop (fault : Fault) : Follows rest (.stop fault) (.stop fault)

namespace Exit

variable {rest : List Byte}

private theorem follows_ite {condition : Prop} [Decidable condition] {yes no : Exit} {yes' no' : Outcome}
    (ifTrue : yes.Follows rest yes') (ifFalse : no.Follows rest no') :
    (if condition then yes else no).Follows rest (if condition then yes' else no') := by
  split
  · exact ifTrue
  · exact ifFalse

private theorem follows_store {size i : Nat} {array : Nat → Byte} {body : (Nat → Byte) → Exit}
    {round : (Nat → Byte) → Outcome}
    (inside : (body (Function.update array i b)).Follows rest (round (Function.update array i b))) :
    (Exit.store size array i b body).Follows rest (Parser.store size array i b round) :=
  follows_ite inside (.stop _)

end Exit

namespace Cursor

variable {allowAnonymous mallocOk : Bool} {record : Session} {b : Byte} {rest : List Byte}

open Exit

/-- A case that ends by itself leaves the switch the way the round ends. -/
theorem caseConnect_follows {state : ConnectState} (hasCase : state ≠ .packetId0 ∧ state ≠ .packetId1) :
    (caseConnect allowAnonymous mallocOk ⟨record, (PState.connect state).code, b :: rest⟩ b state).Follows rest
      (connectByte allowAnonymous mallocOk { record with state := .connect state } b state) := by
  cases state with
  | packetId0 => simp at hasCase
  | packetId1 => simp at hasCase
  | willPayload2 =>
      simp only [caseConnect, connectByte, put, advance, up, List.tail_cons]
      cases record.willMp with
      | none => exact .stop _
      | some mp =>
          refine follows_store (follows_ite (follows_ite ?_ ?_) ?_)
          · exact .leave ⟨rfl, rfl⟩
          · exact .ret ⟨rfl, rfl⟩
          · exact .leave ⟨rfl, rfl⟩
  | _ =>
      -- down to the sessions the tests of the case lead to
      dsimp only [caseConnect, clientIdEnds, connectByte, clientIdDone, put, advance, up, goto, call,
        List.tail_cons]
      repeat' first
        | refine follows_store ?_
        | refine follows_ite ?_ ?_
        | exact .leave ⟨rfl, rfl⟩
        | exact .ret ⟨rfl, rfl⟩
        | exact .call ⟨rfl, rfl⟩ fun _ => rfl

private theorem caseFilterLength_follows {state topic2 : PState} (following : topic2.code = state.code + 1) :
    (caseFilterLength mallocOk ⟨record, state.code, b :: rest⟩ b).Follows rest
      (filterLength mallocOk { record with state } b topic2) := by
  dsimp only [caseFilterLength, filterLength, put, advance, up, List.tail_cons]
  refine follows_ite ?_ (follows_ite ?_ (follows_ite ?_ ?_))
  · exact .ret ⟨rfl, rfl⟩
  · exact .ret ⟨rfl, rfl⟩
  · exact .leave ⟨rfl, following.symm⟩
  · exact .stop _

private theorem caseFilter_follows {state : PState} {ends : Cursor → Exit} {done : Session → Outcome}
    (follows : ∀ record, (ends ⟨record, state.code, rest⟩).Follows rest (done { record with state })) :
    (caseFilter ⟨record, state.code, b :: rest⟩ b ends).Follows rest
      (filterByte { record with state } b done) := by
  dsimp only [caseFilter, filterByte, put, advance, List.tail_cons]
  refine follows_ite (follows_store (follows_ite ?_ ?_)) ?_
  · exact follows _
  · exact .leave ⟨rfl, rfl⟩
  · exact .stop _

private theorem caseSubscribe_follows {state : SubscribeState} :
    (caseSubscribe mallocOk ⟨record, (PState.subscribe state).code, b :: rest⟩ b state).Follows rest
      (subscribeByte mallocOk { record with state := .subscribe state } b state) := by
  cases state with
  | packetId0 => exact .leave ⟨rfl, rfl⟩
  | packetId1 => exact .leave ⟨rfl, rfl⟩
  | topic0 => exact .leave ⟨rfl, rfl⟩
  | topic1 => exact caseFilterLength_follows rfl
  | topic2 =>
      rw [caseSubscribe, subscribeByte]
      exact caseFilter_follows fun _ => .leave ⟨rfl, rfl⟩
  | topicQos =>
      dsimp only [caseSubscribe, subscribeByte, put, advance, goto, call, List.tail_cons]
      refine follows_ite ?_ (follows_ite (follows_ite ?_ ?_) ?_)
      · exact .ret ⟨rfl, rfl⟩
      · exact .leave ⟨rfl, rfl⟩
      · exact .call ⟨rfl, rfl⟩ fun _ => rfl
      · exact .stop _

private theorem caseUnsubscribe_follows {state : UnsubscribeState} :
    (caseUnsubscribe mallocOk ⟨record, (PState.unsubscribe state).code, b :: rest⟩ b state).Follows rest
      (unsubscribeByte mallocOk { record with state := .unsubscribe state } b state) := by
  cases state with
  | packetId0 => exact .leave ⟨rfl, rfl⟩
  | packetId1 => exact .leave ⟨rfl, rfl⟩
  | topic0 => exact .leave ⟨rfl, rfl⟩
  | topic1 => exact caseFilterLength_follows rfl
  | topic2 =>
      rw [caseUnsubscribe, unsubscribeByte]
      refine caseFilter_follows fun record => follows_ite ?_ ?_
      · exact .leave ⟨rfl, rfl⟩
      · exact .call ⟨rfl, rfl⟩ fun _ => rfl

private theorem topicEnds_follows {buf : List Byte} :
    (topicEnds mallocOk ⟨record, (PState.publish .topic2).code, buf⟩).Follows buf
      (topicDone mallocOk { record with state := .publish .topic2 }) := by
  unfold topicEnds topicDone
  by_cases acknowledged : record.header.qos ≠ 0
  · simp only [if_pos acknowledged, put, up]
    refine follows_ite ?_ (follows_ite ?_ ?_)
    · exact .ret ⟨rfl, rfl⟩
    · exact .leave ⟨rfl, rfl⟩
    · exact .ret ⟨rfl, rfl⟩
  · simp only [if_neg acknowledged, put, goto]
    refine follows_ite ?_ (follows_ite ?_ ?_)
    · exact .ret ⟨rfl, rfl⟩
    · exact .leave ⟨rfl, rfl⟩
    · exact .ret ⟨rfl, rfl⟩

private theorem casePublish_follows {state : PublishState} :
    (casePublish mallocOk ⟨record, (PState.publish state).code, b :: rest⟩ b state).Follows rest
      (publishByte mallocOk { record with state := .publish state } b state) := by
  cases state with
  | topic0 =>
      dsimp only [casePublish, publishByte, put, advance, up, List.tail_cons]
      exact .leave ⟨rfl, rfl⟩
  | topic1 =>
      dsimp only [casePublish, publishByte, put, advance, up, List.tail_cons]
      exact follows_ite (.ret ⟨rfl, rfl⟩) (.leave ⟨rfl, rfl⟩)
  | topic2 =>
      dsimp only [casePublish, publishByte, put, advance, List.tail_cons]
      refine follows_store (follows_ite (follows_store ?_) ?_)
      · exact topicEnds_follows
      · exact .leave ⟨rfl, rfl⟩
  | packetId0 =>
      simp only [casePublish, publishByte, put, advance, up, List.tail_cons]
      cases record.publish.mp with
      | none => exact .stop _
      | some mp => exact .leave ⟨rfl, rfl⟩
  | packetId1 =>
      simp only [casePublish, publishByte, put, advance, up, List.tail_cons]
      cases record.publish.mp with
      | none => exact .stop _
      | some mp => exact .leave ⟨rfl, rfl⟩
  | payload =>
      simp only [casePublish, publishByte, put, advance, call, List.tail_cons]
      cases record.publish.mp with
      | none => exact .stop _
      | some mp =>
          refine follows_store (follows_ite (follows_store ?_) ?_)
          · exact .call ⟨rfl, rfl⟩ fun _ => rfl
          · exact .leave ⟨rfl, rfl⟩

private theorem caseRemLen_follows :
    (caseRemLen ⟨record, PState.remLen.code, b :: rest⟩ b).Follows rest
      (remLenByte { record with state := .remLen } b) := by
  dsimp only [caseRemLen, remLenByte, dispatch, put, advance, goto, List.tail_cons]
  refine follows_ite ?_ (.leave ⟨rfl, rfl⟩)
  cases record.header.msgType with
  | connect => exact .leave ⟨rfl, rfl⟩
  | publish => exact .leave ⟨rfl, rfl⟩
  | subscribe => exact .leave ⟨rfl, rfl⟩
  | unsubscribe => exact .leave ⟨rfl, rfl⟩
  | pingreq => exact .call ⟨rfl, rfl⟩ fun _ => rfl
  | disconnect => exact .disconnect ⟨rfl, rfl⟩
  | _ => exact .ret ⟨rfl, rfl⟩

end Cursor

/-- The switch has a case for the enumerator. -/
def PState.hasCase : PState → Bool
  | .connect .packetId0 => false
  | .connect .packetId1 => false
  | _ => true

/-- The integer is an enumerator with a case. -/
def HasCase (code : Nat) : Prop :=
  ∃ state, PState.ofCode code = some state ∧ state.hasCase = true

/-- In a state with a case, the switch does what the round does. -/
theorem Cursor.switch_follows {record : Session} {rest : List Byte}
    {state : PState} (hasCase : state.hasCase = true) :
    (switch allowAnonymous mallocOk ⟨record, state.code, b :: rest⟩ b).Follows rest
      (parserByte allowAnonymous mallocOk { record with state } b) := by
  unfold switch parserByte
  dsimp only
  rw [PState.ofCode_code]
  cases state with
  | header =>
      dsimp only [caseHeader, headerByte, put, advance, up, List.tail_cons]
      exact Exit.follows_ite (.ret ⟨rfl, rfl⟩) (Exit.follows_ite (.ret ⟨rfl, rfl⟩) (.leave ⟨rfl, rfl⟩))
  | remLen => exact caseRemLen_follows
  | connect state => exact caseConnect_follows (by cases state <;> simp_all [PState.hasCase])
  | subscribe state => exact caseSubscribe_follows
  | unsubscribe state => exact caseUnsubscribe_follows
  | publish state => exact casePublish_follows

theorem Cursor.loop_again {c next : Cursor} {rest : List Byte}
    {first : Replies} (bytes : c.buf = b :: rest) (goesOn : c.iterate allowAnonymous first b = .again next)
    (replies : List Replies) :
    c.loop allowAnonymous (first :: replies) = next.loop allowAnonymous replies := by
  rw [loop.eq_def, bytes]
  dsimp only
  rw [goesOn]

/-! ### Runs -/

/-- Wherever an outcome leaves the parser, the state has a case; a fault is an access
outside of an allocation. -/
abbrev Outcome.Cased : Outcome → Prop :=
  Outcome.Meets ⟨fun s => s.state.hasCase = true, fun s _ => s.state.hasCase = true,
    fun s _ => s.state.hasCase = true, fun s => s.state.hasCase = true,
    fun fault => fault = .outOfBounds ∨ fault = .nullPointer⟩

private theorem parserByte_cased
    (hasCase : s.state.hasCase = true) : (parserByte allowAnonymous mallocOk s b).Cased := by
  unfold parserByte
  cases here : s.state with
  | header => exact meets_ite (fun _ => hasCase) fun _ => meets_ite (fun _ => hasCase) fun _ => rfl
  | remLen =>
      refine meets_ite (fun _ => ?_) fun _ => hasCase
      unfold dispatch
      split <;> first | rfl | exact hasCase
  | _ state =>
      -- every state of the four packets, down to the sessions its tests lead to
      cases state <;> simp only [connectByte, clientIdDone, subscribeByte, unsubscribeByte, filterLength,
          filterByte, publishByte, topicDone] <;>
        repeat' first
          | exact hasCase
          | rfl
          | exact .inl rfl
          | exact .inr rfl
          | refine meets_store (fun _ => ?_) fun _ => .inl rfl
          | refine meets_ite (fun _ => ?_) fun _ => ?_
          | split
          | exact absurd hasCase (by rw [here]; decide)

/-- What an iteration in front of `rest` comes to: it consumes its byte or ends the call,
and leaves the parser in a state with a case unless an access is out of bounds. -/
def Iteration.Sound (rest : List Byte) : Iteration → Prop
  | .again c => HasCase c.state ∧ c.buf = rest
  | .returned c _ => HasCase c.state
  | .stopped fault => fault = .outOfBounds ∨ fault = .nullPointer

/-- The call has come to its end. -/
def Iteration.Ended : Iteration → Prop
  | .again _ => False
  | .returned c _ => HasCase c.state
  | .stopped fault => fault = .outOfBounds ∨ fault = .nullPointer

theorem PState.hasCase_code {state : PState} (hasCase : state.hasCase = true) : HasCase state.code :=
  ⟨state, PState.ofCode_code state, hasCase⟩

private theorem hasCase_header : HasCase PState.header.code :=
  PState.hasCase_code rfl

theorem HasCase.exists {code : Nat} (hasCase : HasCase code) :
    ∃ state : PState, code = state.code ∧ state.hasCase = true := by
  obtain ⟨state, enumerator, cased⟩ := hasCase
  refine ⟨state, ?_, cased⟩
  have bound : code < enumerators.length := (List.getElem?_eq_some_iff.mp enumerator).1
  have every : ∀ code < enumerators.length, (PState.ofCode code).map PState.code = some code := by decide
  have self := every code bound
  rw [enumerator] at self
  exact (Option.some.inj self).symm

theorem Cursor.iterate_sound {c : Cursor} (hasCase : HasCase c.state)
    (replies : Replies) {rest : List Byte} (bytes : c.buf = b :: rest) :
    (c.iterate allowAnonymous replies b).Sound rest := by
  obtain ⟨record, code, buf⟩ := c
  obtain ⟨state, isCode, cased⟩ := hasCase.exists
  dsimp only at isCode bytes
  subst isCode bytes
  have round : (parserByte allowAnonymous replies.mallocOk { record with state } b).Cased := parserByte_cased cased
  have follows : (switch allowAnonymous replies.mallocOk ⟨record, state.code, b :: rest⟩ b).Follows rest
      (parserByte allowAnonymous replies.mallocOk { record with state } b) := switch_follows cased
  unfold iterate
  generalize switch allowAnonymous replies.mallocOk ⟨record, state.code, b :: rest⟩ b = exit at follows
  generalize parserByte allowAnonymous replies.mallocOk { record with state } b = outcome at follows round
  cases follows with
  | leave shown => exact ⟨shown.state ▸ PState.hasCase_code round, rfl⟩
  | ret shown => exact shown.state ▸ PState.hasCase_code round
  | disconnect shown => exact hasCase_header
  | stop fault => exact round
  | call shown resumes =>
      dsimp only [put]
      split
      · exact shown.state ▸ PState.hasCase_code round
      · rw [resumes]
        exact ⟨hasCase_header, rfl⟩

/-- A call ends within as many iterations as it has bytes. -/
theorem Cursor.loop_ends {c : Cursor} (hasCase : HasCase c.state)
    {replies : List Replies} (enough : c.buf.length ≤ replies.length) :
    ∃ ended, c.loop allowAnonymous replies = some ended ∧ ended.Ended := by
  induction replies generalizing c with
  | nil =>
      have nothing : c.buf = [] := List.length_eq_zero_iff.mp (Nat.le_zero.mp enough)
      exact ⟨.returned c 0, by rw [loop.eq_def, nothing], hasCase⟩
  | cons first replies inductionHypothesis =>
      cases bytes : c.buf with
      | nil => exact ⟨.returned c 0, by rw [loop.eq_def, bytes], hasCase⟩
      | cons b rest =>
          have sound : (c.iterate allowAnonymous first b).Sound rest := iterate_sound hasCase first bytes
          cases iteration : c.iterate allowAnonymous first b with
          | again next =>
              rw [iteration] at sound
              obtain ⟨nextCase, consumed⟩ := sound
              rw [loop_again bytes iteration]
              apply inductionHypothesis nextCase
              rw [consumed]
              rw [bytes, List.length_cons, List.length_cons] at enough
              exact Nat.le_of_succ_le_succ enough
          | returned last rv =>
              rw [iteration] at sound
              exact ⟨.returned last rv, by rw [loop.eq_def, bytes]; dsimp only; rw [iteration], sound⟩
          | stopped fault =>
              rw [iteration] at sound
              exact ⟨.stopped fault, by rw [loop.eq_def, bytes]; dsimp only; rw [iteration], sound⟩

/-- A parser, inside a call or between two. -/
structure Process where
  cursor : Cursor
  inCall : Bool

inductive CallStep where
  /-- `mqtt_parser_execute` is called on a buffer -/
  | call (buf : List Byte)
  /-- the head of the loop is passed -/
  | head (replies : Replies)

def Process.step (allowAnonymous : Bool) (process : Process) : CallStep → Option Process
  | .call buf => if process.inCall then none else some ⟨{ process.cursor with buf }, true⟩
  | .head replies =>
      if process.inCall then
        match process.cursor.buf with
        | [] => some { process with inCall := false }
        | b :: _ =>
            match process.cursor.iterate allowAnonymous replies b with
            | .again c => some ⟨c, true⟩
            | .returned c _ => some ⟨c, false⟩
            | .stopped _ => none
      else none

/-- Calls of `mqtt_parser_execute` on a parser from `mqtt_parser_init` on, which sets
nothing but the state. -/
def parserCalls (allowAnonymous : Bool) : System Process CallStep where
  init process := process.cursor.state = PState.header.code ∧ process.inCall = false
  step := Process.step allowAnonymous

theorem Process.step_hasCase {process next : Process} {action : CallStep}
    (hasCase : HasCase process.cursor.state) (stepped : process.step allowAnonymous action = some next) :
    HasCase next.cursor.state := by
  cases action with
  | call buf =>
      obtain ⟨-, rfl⟩ := by simpa [Process.step] using stepped
      exact hasCase
  | head replies =>
      unfold Process.step at stepped
      dsimp only at stepped
      split at stepped
      · split at stepped
        · obtain rfl := Option.some.inj stepped
          exact hasCase
        · rename_i b rest bytes
          have sound : (process.cursor.iterate allowAnonymous replies b).Sound rest :=
            Cursor.iterate_sound hasCase replies bytes
          split at stepped
          · rename_i iteration
            rw [iteration] at sound
            obtain rfl := Option.some.inj stepped
            exact sound.1
          · rename_i iteration
            rw [iteration] at sound
            obtain rfl := Option.some.inj stepped
            exact sound
          · simp at stepped
      · simp at stepped

/-- The parser loop always ends. Whatever the buffers, the answers of `malloc` and the
callbacks are, every state reached has a case in the switch, each iteration returns or
consumes exactly one byte, and each call is over within as many iterations as it has
bytes. -/
theorem parser_loop_ends {allowAnonymous : Bool} {process : Process}
    (reached : (parserCalls allowAnonymous).Reachable process) :
    (HasCase process.cursor.state ∧ process.cursor.state ≠ (PState.connect .packetId0).code ∧
      process.cursor.state ≠ (PState.connect .packetId1).code) ∧
    (∀ replies b rest, process.cursor.buf = b :: rest →
      (process.cursor.iterate allowAnonymous replies b).Sound rest) ∧
    ∀ buf replies, buf.length ≤ replies.length →
      ∃ ended, ({ process.cursor with buf } : Cursor).loop allowAnonymous replies = some ended ∧ ended.Ended := by
  have hasCase : HasCase process.cursor.state := by
    induction reached with
    | start initial => exact initial.1 ▸ hasCase_header
    | next _ stepped inductionHypothesis => exact Process.step_hasCase inductionHypothesis stepped
  refine ⟨⟨hasCase, ?_, ?_⟩, ?_, ?_⟩
  · intro isCode
    rw [isCode] at hasCase
    exact absurd hasCase (by simp [HasCase, PState.ofCode_code, PState.hasCase])
  · intro isCode
    rw [isCode] at hasCase
    exact absurd hasCase (by simp [HasCase, PState.ofCode_code, PState.hasCase])
  · intro replies b rest bytes
    exact Cursor.iterate_sound hasCase replies bytes
  · intro buf replies enough
    exact Cursor.loop_ends (c := { process.cursor with buf }) hasCase enough

/-- In front of a PINGREQ. -/
theorem parser_loop_ends_ping :
    ∃ process, (parserCalls false).Reachable process ∧ process.cursor.buf = [192, 0] ∧
      HasCase process.cursor.state ∧ ∀ first second,
        ∃ ended, process.cursor.loop false [first, second] = some ended ∧ ended.Ended := by
  let idle : Process := ⟨⟨mqttParserInit, PState.header.code, []⟩, false⟩
  have started : (parserCalls false).Reachable idle := .start ⟨rfl, rfl⟩
  have called : (parserCalls false).step idle (.call [192, 0]) =
      some ⟨{ idle.cursor with buf := [192, 0] }, true⟩ := rfl
  have reached := started.next called
  obtain ⟨⟨hasCase, -⟩, -, ends⟩ := parser_loop_ends reached
  exact ⟨_, reached, rfl, hasCase, fun first second => ends [192, 0] [first, second] (Nat.le_refl 2)⟩

end FbBroker.Parser
