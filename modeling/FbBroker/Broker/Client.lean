import FbBroker.Broker.State

/-!
Contract: the client code of `client.c` and the write path of `client_tls.c`.

Owns closing and sending, the five parser callbacks, and the loop of
`mqtt_parser_execute` around them.

Does not own the receive path in front of `c_parse`.
-/

set_option autoImplicit false

namespace FbBroker.Broker

open FbBroker.Lib FbBroker.Packet FbBroker.Parser FbBroker.Dllist FbBroker.TrieMult
open FbBroker.Routing FbBroker.Auth

variable (cfg : Config)

/-- `workers_queue_message`. -/
def workersQueueMessage (owner : Owner) (mp : Message) : Code Unit := do
  assert (mp.dup ≤ 1)
  modify (·.queueMessage cfg owner mp)

/-! ### System messages -/

/-- The string in an identity array of the client. -/
def idString (array : Nat → Byte) : List Byte :=
  stringAt (Parser.maxIdLen + 1) array 0

/-- A `time_t` printed with `%ld`. -/
def timeText (t : Nat) : List Byte :=
  (Nat.toDigits 10 (t % 2 ^ 63)).map fun char => UInt8.ofNat char.toNat

/-- The message of a `$SYS` event: `message_create` takes the length of the topic as a
`uint16_t`; `sprintf` writes the topic, which the room for it may outlast; `memcpy` reads
`payload_len` bytes of the 256 that `snprintf` formatted into. -/
def sysMessage (topicLen : Nat) (topic payload : List Byte) : Message where
  dup := 0
  origQos := 0
  retain := 0
  packetId := 0
  topic := (topic ++ List.replicate topicLen 0).take (topicLen % 2 ^ 16)
  payload := (snprintf 256 payload ++ [0]).take payload.length

/-- Create and queue a system message of the worker, about this event. -/
def pubSys (about : Event) (worker topicLen : Nat) (topic payload : List Byte) : Code Unit := do
  if ← malloc then
    if payload.length ≤ 256 then do
      emit about
      workersQueueMessage cfg (.me worker) (sysMessage topicLen topic payload)
    else Cmd.fail .outOfBounds
  else pure ()

def sysTopic (clientId event : List Byte) : List Byte :=
  lit "$SYS/brokers/" ++ cfg.name ++ lit "/clients/" ++ clientId ++ event

/-- `strlen` of the format without its two `%s`, the broker's name and the
client id. -/
def sysTopicLen (p : Client) (event : List Byte) : Nat :=
  (sysTopic cfg [] event).length + p.session.clientIdLen

def cPubConnected (c : ClientId) : Code Unit := do
  let p ← client c
  let recvAt := ((← get).ka.timer c).recvAt
  let event := lit "/connected"
  let clientId := idString p.session.clientId
  pubSys cfg (.online c) p.worker (sysTopicLen cfg p event) (sysTopic cfg clientId event)
    (lit "\x7b\"client_id\":\"" ++ clientId ++ lit "\",\"username\":\"" ++
      idString p.session.username ++ lit "\",\"ip_address\":\"" ++ p.ipAddress ++
      lit "\",\"ts\":" ++ timeText recvAt ++ lit "\x7d")

def cPubDisconnected (c : ClientId) (reason : List Byte) : Code Unit := do
  let p ← client c
  let recvAt := ((← get).ka.timer c).recvAt
  let event := lit "/disconnected"
  let clientId := idString p.session.clientId
  pubSys cfg (.offline c) p.worker (sysTopicLen cfg p event) (sysTopic cfg clientId event)
    (lit "\x7b\"client_id\":\"" ++ clientId ++ lit "\",\"reason\":\"" ++ reason ++
      lit "\",\"ts\":" ++ timeText recvAt ++ lit "\x7d")

/-! ### Closing -/

/-- `c_unbind`: the state is set, the keep-alive tables and the worker forget the
client, and the record is freed. The code calls `ka_remove` behind
`worker_rm_client`; the two touch different data. -/
def cUnbind (c : ClientId) (reason : List Byte) : Code Unit := do
  let p ← client c
  onlyIf (p.state = .connected) (cPubDisconnected cfg c reason)
  let p ← client c
  assert (p.state ≠ .closing)
  kaRemove c
  modify (·.freeClient c { p with state := .closing })

def cDisconnectNormal (c : ClientId) (reason : List Byte) : Code Unit := do
  let _ ← client c
  cUnbind cfg c reason

/-- Disconnect if not already. -/
def cDisconnect (c : ClientId) (reason : List Byte) : Code Unit := do
  let p ← client c
  onlyIf (p.state ≠ .closing) (cUnbind cfg c reason)

/-! ### Sending -/

/-- The loop of `c_send_data_wire`; every round takes a byte at least. -/
def sendLoop (c : ClientId) : Nat → List Byte → Nat → Code Nat
  | _, [], off => pure off
  | 0, _ :: _, _ => Cmd.fail .unbounded
  | bound + 1, buf, off => do
      let _ ← client c
      match ← send c buf with
      | .full => pure (off + buf.length)
      | .short 0 => pure off
      | .short n => sendLoop c bound (buf.drop n) (off + min n buf.length)
      | .error reason => do
          cDisconnect cfg c reason
          pure 0

/-- `c_send_data_wire`: the number of bytes sent, 0 if the client was closed. -/
def cSendDataWire (c : ClientId) (buf : List Byte) : Code Nat := do
  let p ← client c
  assert (p.state ≠ .closing)
  sendLoop cfg c buf.length buf 0

/-- The header of an unmasked binary WebSocket frame. -/
def wsHeader (len : Nat) : List Byte :=
  if len < 126 then [0x82, UInt8.ofNat len]
  else [0x82, 126, UInt8.ofNat (len >>> 8), UInt8.ofNat len]

/-- `c_send_data_ws`. -/
def cSendDataWs (c : ClientId) (buf : List Byte) : Code Nat :=
  if buf.length < 2 ^ 16 then do
    let _ ← cSendDataWire cfg c (wsHeader buf.length)
    let _ ← cSendDataWire cfg c buf
    pure buf.length
  else do
    cDisconnect cfg c (lit "c_send_data_ws too big")
    pure 0

/-- Send the records the SSL layer has ready, reading the client for each. -/
def sendRecords (c : ClientId) : List (List Byte) → Code Unit
  | [] => do
      let _ ← client c
  | record :: records => do
      let _ ← client c
      let _ ← cSendDataWire cfg c record
      sendRecords c records

/-- `tls_write`. -/
def tlsWrite (c : ClientId) (buf : List Byte) : Code Nat := do
  let _ ← client c
  match ← sslWrite c buf with
  | .unfinished => pure 0
  | .full records => do
      sendRecords cfg c records
      pure buf.length
  | .short n records => do
      onlyIf (n > 0) (sendRecords cfg c records)
      pure (min n buf.length)
  | .error => do
      cDisconnect cfg c (lit "tls_write SSL_write")
      pure 0
  | .nothing => pure 0

/-- One write of `c_send_data` on the client's transport. -/
def transportWrite (c : ClientId) (buf : List Byte) : Code Nat := do
  let p ← client c
  if p.isTls then tlsWrite cfg c buf
  else if p.isWs then cSendDataWs cfg c buf
  else cSendDataWire cfg c buf

/-- The loop of `c_send_data`: what is left of the length is sent from the start
of the buffer again. -/
def sendDataLoop (c : ClientId) (buf : List Byte) : Nat → Nat → Code Nat
  | _, 0 => pure 0
  | 0, _ + 1 => Cmd.fail .unbounded
  | bound + 1, len => do
      match ← transportWrite cfg c (buf.take len) with
      | 0 => pure 1
      | rv => sendDataLoop c buf bound (len - rv)

/-- `c_send_data`: 0 on success. -/
def cSendData (c : ClientId) (buf : List Byte) : Code Nat := do
  let p ← client c
  assert (p.state ≠ .closing)
  emit (.packet c buf)
  sendDataLoop cfg c buf buf.length buf.length

/-- Answer a client and refresh its keep-alive. -/
def reply (c : ClientId) (buf : List Byte) : Code Nat := do
  match ← cSendData cfg c buf with
  | 0 => do
      kaUpdate c
      pure 0
  | _ => pure 1

/-! ### The callbacks -/

/-- What the result of `auth_auth` changes: the return code for the CONNACK. -/
def authDecided (c : ClientId) (worker : Nat) (result : AuthResult) : Code Byte := do
  modify fun b => { b with authQ := Function.update b.authQ worker result.q }
  if result.rv ≠ 0 then do
    emit (.rejected c)
    updateClient c fun p => { p with isSuper := false }
    pure 5
  else do
    emit (.accepted c)
    updateClient c fun p => { p with isSuper := result.isSuper, userIdStr := result.userIdStr }
    pure 0

/-- The part of `on_recv_connect` that decides. -/
def authenticate (c : ClientId) : Code Byte := do
  let p ← client c
  if cfg.allowAnonymous && p.session.username 0 == 0 then do
    updateClient c fun p => { p with isSuper := false }
    pure 0
  else do
    let b ← get
    match authAuth b.answers.db p.principal (b.authQ p.worker)
        (idString p.session.connect.password) with
    | .error fault => Cmd.fail fault
    | .ok result => authDecided c p.worker result

/-- What `on_recv_connect` does behind the CONNACK. -/
def connackSent (c : ClientId) (ack : Byte) : Code Unit :=
  if ack = 0 then do
    updateClient c fun p => { p with state := .connected }
    cPubConnected cfg c
    kaUpdate c
  else cDisconnect cfg c (lit "auth failed")

def onRecvConnect (c : ClientId) : Code Nat := do
  let ack ← authenticate cfg c
  match ← cSendData cfg c (encodeConack 0 ack) with
  | 0 => do
      connackSent cfg c ack
      pure 0
  | _ => pure 1

/-- Whether `auth_acl` is passed: always without authentication and for super
users. -/
def allowed (db : Database) (p : Client) (access : Access) (filter : List Byte) : Bool :=
  cfg.allowAnonymous || p.isSuper || (authAcl db p.principal access filter).1 == 0

/-- A filter of a SUBSCRIBE. -/
def filterOf (sub : SubscribeSt) (i : Nat) : List Byte :=
  bytes (sub.filterLengths i) (sub.filters i)

/-- The first subscription of the client with this filter, compared by
`strcmp`. -/
def findSub (p : Client) (filter : List Byte) : Option Nat :=
  (List.range p.numSubs).find? fun j => cstr (p.subscriptions j).filter == cstr filter

/-- Put a new subscription at the end of the client's table and into the
trie. -/
def insertSub (c : ClientId) (filter : List Byte) (qos : Nat) : Code Unit := do
  let p ← client c
  if p.numSubs < maxSubs then do
    let b ← get
    match subInsert b.listBound b.nodes (b.subs p.worker) filter (c, p.numSubs) with
    | none => Cmd.fail .unbounded
    | some (nodes, head) => do
        emit (.subscribed c)
        modify fun b =>
          { b with nodes, subs := Function.update b.subs p.worker head }
        updateClient c fun p => { p with
          subscriptions := Function.update p.subscriptions p.numSubs ⟨filter, qos⟩
          numSubs := p.numSubs + 1 }
  else Cmd.fail .outOfBounds

/-- One filter of `on_recv_subscribe`: a filter the client has sets the QoS of
the entry at the filter's index in the packet, another is added. -/
def subscribeOne (c : ClientId) (sub : SubscribeSt) (i : Nat) : Code Unit := do
  let p ← client c
  let granted := min (sub.qos i) 1
  match findSub p (filterOf sub i) with
  | some _ =>
      updateClient c fun p => { p with
        subscriptions := Function.update p.subscriptions i
          { p.subscriptions i with qos := granted } }
  | none => insertSub c (filterOf sub i) granted

/-- `auth_info` is allocated by an access check for publishing. -/
def touchAuthInfo (c : ClientId) (db : Database) (access : Access) (filter : List Byte) :
    Code Unit :=
  updateClient c fun p =>
    if cfg.allowAnonymous || p.isSuper then p
    else { p with authInfo := (authAcl db p.principal access filter).2 }

def onRecvSubscribe (c : ClientId) : Code Nat := do
  let p ← client c
  let db ← database
  let sub := p.session.subscribe
  assert (sub.numFilters ≤ maxSubs)
  if (List.range sub.numFilters).all fun i => allowed cfg db p .sub (filterOf sub i) then do
    Cmd.each (subscribeOne c sub) (List.range sub.numFilters)
    let granted := (List.range sub.numFilters).map fun i => min (sub.qos i) 1
    match encodeSuback sendBufLen sub.packetId granted with
    | [] => pure 0
    | suback => reply cfg c suback
  else do
    cDisconnect cfg c (lit "auth sub failed")
    pure 1

/-- The copies that close the gap behind a removed subscription; the list nodes
are copied with the rest of the structure. -/
def closeGap (c : ClientId) (j : Nat) (p : Client) (b : State) : State :=
  { b with
    clients := Function.update b.clients c (some { p with
      subscriptions := fun k =>
        if j ≤ k ∧ k < p.numSubs then p.subscriptions (k + 1) else p.subscriptions k
      numSubs := p.numSubs - 1 })
    nodes := fun ref =>
      if ref.1 = c ∧ j ≤ ref.2 ∧ ref.2 < p.numSubs then b.nodes (c, ref.2 + 1)
      else b.nodes ref }

/-- Take the subscription at an index out; the copies read one element behind
the last. -/
def dropSub (c : ClientId) (p : Client) (j : Nat) : Code Unit := do
  modify fun b => b.removeSub c p j
  if p.numSubs < maxSubs then modify (closeGap c j p) else Cmd.fail .outOfBounds

/-- One filter of `on_recv_unsubscribe` against the subscriptions from `j` on;
the index moves on behind a removal too. -/
def unsubscribeFrom (c : ClientId) (filter : List Byte) : Nat → Nat → Code Unit
  | 0, _ => pure ()
  | bound + 1, j => do
      let p ← client c
      if j < p.numSubs then do
        onlyIf (cstr (p.subscriptions j).filter == cstr filter) (dropSub c p j)
        unsubscribeFrom c filter bound (j + 1)
      else pure ()

def onRecvUnsubscribe (c : ClientId) : Code Nat := do
  let p ← client c
  let sub := p.session.subscribe
  assert (sub.numFilters ≤ maxSubs)
  Cmd.each (fun i => unsubscribeFrom c (filterOf sub i) maxSubs 0) (List.range sub.numFilters)
  reply cfg c (encodeUnsuback sub.packetId)

/-- The acknowledgement of a PUBLISH, if its QoS asks for one. -/
def acknowledge (c : ClientId) (mp : Message) : Code Nat :=
  if mp.origQos = 1 then reply cfg c (encodeAck sendBufLen .puback 0 mp.packetId)
  else if mp.origQos = 2 then reply cfg c (encodeAck sendBufLen .pubrec 0 mp.packetId)
  else do
    kaUpdate c
    pure 0

def onRecvPublish (c : ClientId) : Code Nat := do
  let p ← client c
  match p.session.publish.mp with
  | none => Cmd.fail .nullPointer
  | some draft => do
      let db ← database
      let mp := draft.message
      touchAuthInfo cfg c db .pub mp.topic
      if allowed cfg db p .pub mp.topic then do
        emit (.published c)
        workersQueueMessage cfg (.client c) mp
        acknowledge cfg c mp
      else pure 0

def onRecvPing (c : ClientId) : Code Nat :=
  reply cfg c mqttPingResponse

def callback (c : ClientId) : Request → Code Nat
  | .connect => onRecvConnect cfg c
  | .subscribe => onRecvSubscribe cfg c
  | .unsubscribe => onRecvUnsubscribe cfg c
  | .publish => onRecvPublish cfg c
  | .ping => onRecvPing cfg c

/-! ### Parsing -/

def setSession (c : ClientId) (s : Session) : Code Unit :=
  updateClient c fun p => { p with session := s }

/-- `parser->state = S_HEADER`. -/
def setHeader (c : ClientId) : Code Unit :=
  updateClient c fun p => { p with session.state := .header }

/-- Behind a callback: a failure is returned, else the next packet is awaited. -/
def callbackReturned (c : ClientId) : Nat → Code (Option Int)
  | 0 => do
      setHeader c
      pure none
  | _ + 1 => pure (some 1)

/-- A DISCONNECT. -/
def disconnectReceived (c : ClientId) : Code (Option Int) := do
  cDisconnectNormal cfg c (lit "disconnect")
  setHeader c
  pure (some 0)

/-- One round of the loop of `mqtt_parser_execute`; a value is what the function
returns. -/
def parserRound (c : ClientId) (byte : Byte) : Code (Option Int) := do
  let p ← client c
  match parserByte cfg.allowAnonymous (← malloc) p.session byte with
  | .next s => do
      setSession c s
      pure none
  | .ret s rv => do
      setSession c s
      emit (.refused c s.header.msgType)
      pure (some rv)
  | .call s request => do
      setSession c s
      let rv ← callback cfg c request
      callbackReturned c rv
  | .disconnect s => do
      setSession c s
      disconnectReceived cfg c
  | .stop fault => Cmd.fail fault

def mqttParserExecute (c : ClientId) : List Byte → Code Int
  | [] => pure 0
  | byte :: buf => do
      match ← parserRound cfg c byte with
      | none => mqttParserExecute c buf
      | some rv => pure rv

def cParse (c : ClientId) (buf : List Byte) : Code Unit := do
  let rv ← mqttParserExecute cfg c buf
  onlyIf (rv ≠ 0) (cDisconnect cfg c (lit "mqtt parse error"))

end FbBroker.Broker
