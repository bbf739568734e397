import FbBroker.Broker.Client
import FbBroker.Lib.System

/-!
Contract: the worker code of `worker.c` and the runs of the broker.

Owns delivery, garbage collection and the creation of clients, and the
transition system in which the workers take these steps in any order. A step is
one call of `c_parse`, one close of a lost connection, one round of the loops of
`w_deliver` and `w_gc`, or one accepted connection.

A call that touches freed memory is abandoned there and the broker goes on; any
other fault ends the process.
-/

set_option autoImplicit false

namespace FbBroker.Broker

open FbBroker.Lib FbBroker.Packet FbBroker.Parser FbBroker.Dllist FbBroker.TrieMult
open FbBroker.Routing FbBroker.Auth

variable (cfg : Config)

/-! ### Delivery -/

/-- The packet id of a delivery; `++p->msg_id` for a QoS above 0. -/
def nextMsgId (c : ClientId) (qos : Nat) : Code Nat :=
  if qos > 0 then do
    updateClient c fun p => { p with msgId := (p.msgId + 1) % 2 ^ 16 }
    pure (← client c).msgId
  else pure 0

/-- The part of `c_deliver` for a connected client. -/
def deliverTo (m : MsgId) (sp : SubRef) : Code Unit := do
  let p ← client sp.1
  let mp ← message m
  let qos := min mp.message.origQos (p.subscriptions sp.2).qos
  let msgId ← nextMsgId sp.1 qos
  let _ ← cSendData cfg sp.1 (encodePublish sendBufLen mp.message qos msgId)

def cDeliver (m : MsgId) (sp : SubRef) : Code Unit := do
  let p ← client sp.1
  onlyIf (p.state = .connected) (deliverTo cfg m sp)

/-- What a search of the worker's table reads; the list nodes are part of the
client records. -/
def table (w : Nat) : View State SubRef where
  head b := b.subs w
  node b ref := (b.clients ref.1).map fun _ => b.nodes ref

/-- `w_message_pop`. -/
def wMessagePop (w : Nat) : Code (Option MsgId) := do
  match (← get).msgQ w with
  | [] => pure none
  | m :: rest => do
      modify fun b => { b with msgQ := Function.update b.msgQ w rest }
      let _ ← message m
      pure (some m)

/-- `mp->client->worker == p`; the worker of a pseudo client is null. -/
def ownerHere (w : Nat) : Owner → Code Bool
  | .me _ => pure false
  | .client c => do
      pure ((← client c).worker == w)

/-- The message is done for this worker; its publisher's worker collects it. -/
def deliverDone (w : Nat) (m : MsgId) : Code Unit := do
  let mp ← message m
  modify (·.putMessage m { mp with notDone := Function.update mp.notDone w false })
  if ← ownerHere w mp.owner then
    modify fun b => { b with gcQ := Function.update b.gcQ w (b.gcQ w ++ [m]) }
  else pure ()

/-- One round of the loop of `w_deliver` on the message that was popped. -/
def deliverMessage (w : Nat) (m : MsgId) : Code Unit := do
  let mp ← message m
  let bound := (← get).listBound
  let _ ← subSearch (table w) (cDeliver cfg m) bound mp.message.topic
  deliverDone w m

/-- One round of `w_deliver`; whether there was a message. -/
def wDeliverRound (w : Nat) : Code Bool := do
  match ← wMessagePop w with
  | none => pure false
  | some m => do
      deliverMessage cfg w m
      pure true

/-- `message_done`: the loop runs over the servers. -/
def messageDone (mp : MsgRec) : Bool :=
  (List.range cfg.numServers).all fun i => !mp.notDone i

/-- One round of `w_gc`. -/
def wGcRound (w : Nat) : Code Unit := do
  match (← get).gcQ w with
  | [] => pure ()
  | m :: rest => do
      let mp ← message m
      if messageDone cfg mp then
        modify fun b => { b with
          gcQ := Function.update b.gcQ w rest
          messages := Function.update b.messages m none }
      else pure ()

/-! ### New clients -/

/-- The record `c_new` fills in. -/
def cNew (w : Nat) (isTls isWs : Bool) (ipAddress : List Byte) : Client where
  session := mqttParserInit
  state := .opened
  worker := w
  isTls := isTls
  isWs := isWs
  isSuper := false
  userIdStr := []
  ipAddress := ipAddress
  authInfo := false
  msgId := 0
  numSubs := 0
  subscriptions := fun _ => ⟨[], 0⟩

def workersAddClient (w : Nat) (isTls isWs : Bool) (ipAddress : List Byte) : Code Unit :=
  modify fun b => { b with
    clients := Function.update b.clients b.nextClient (some (cNew w isTls isWs ipAddress))
    nextClient := b.nextClient + 1
    nodes := fun ref => if ref.1 = b.nextClient then ⟨none, none, none⟩ else b.nodes ref
    ka := b.ka.clear b.nextClient }

/-! ### Runs -/

inductive Action where
  /-- a connection is accepted for a worker -/
  | accept (w : Nat) (isTls isWs : Bool) (ipAddress : List Byte)
  /-- bytes of a client reach `c_parse` -/
  | parse (c : ClientId) (buf : List Byte) (answers : Answers)
  /-- a client's connection is lost -/
  | drop (c : ClientId) (reason : List Byte) (answers : Answers)
  | deliver (w : Nat) (answers : Answers)
  | gc (w : Nat)

/-- A broker and whether its process has ended. -/
structure Run where
  state : State
  ended : Bool

/-- The state behind a call. A call that touches a freed record is left there, and
the broker goes on with other calls; `Finished` excludes the calls of which the
source would still parse bytes then. -/
def after {Value : Type} (call : Code Value) (b : State) : Run :=
  match call.run b with
  | (.ok _, b) => ⟨b, false⟩
  | (.error .useAfterFree, b) => ⟨b, false⟩
  | (.error _, b) => ⟨b, true⟩

/-- Calls for a client are made as long as it exists, those for a worker as long
as there are that many. -/
def step (run : Run) (action : Action) : Option Run :=
  if run.ended then none
  else
    let b := run.state
    match action with
    | .accept w isTls isWs ipAddress =>
        if w < cfg.numWorkers then some (after (workersAddClient w isTls isWs ipAddress) b) else none
    | .parse c buf answers =>
        if (b.clients c).isSome then some (after (cParse cfg c buf) { b with answers }) else none
    | .drop c reason answers =>
        if (b.clients c).isSome then some (after (cDisconnect cfg c reason) { b with answers })
        else none
    | .deliver w answers =>
        if w < cfg.numWorkers then some (after (wDeliverRound cfg w) { b with answers }) else none
    | .gc w => if w < cfg.numWorkers then some (after (wGcRound cfg w) b) else none

/-- An environment that answers nothing. -/
def silent : Answers :=
  ⟨[], [], [], fun _ => .none, fun _ _ => false⟩

/-- The broker before its first connection. -/
def start : Run where
  state :=
    { clients := fun _ => none
      nextClient := 0
      nodes := fun _ => ⟨none, none, none⟩
      subs := fun _ => .nil
      msgQ := fun _ => []
      gcQ := fun _ => []
      messages := fun _ => none
      nextMsg := 0
      authQ := fun _ => []
      ka := .initial
      answers := silent
      log := [] }
  ended := false

/-- The runs of a broker. -/
def broker : System Run Action where
  init run := run = start
  step := step cfg

/-- The smallest broker: one worker and one server. -/
def oneWorker (allowAnonymous : Bool) : Config where
  numWorkers := 1
  numServers := 1
  allowAnonymous := allowAnonymous
  name := []

end FbBroker.Broker
