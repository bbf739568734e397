import FbBroker.Auth.AuthFb
import FbBroker.KeepAlive.Wheel
import FbBroker.Parser.Step
import FbBroker.Routing.Subscription

/-!
Contract: the state of the broker.

Owns the records of clients, workers and messages, the answers of the
environment that a step consumes, the log of what can be observed from outside,
and the edits of the state that the code makes.

A client or message that has been freed is absent. Queues are the sequences the
queue module refines them to.
-/

set_option autoImplicit false

namespace FbBroker.Broker

open FbBroker.Lib FbBroker.Packet FbBroker.Parser FbBroker.Dllist FbBroker.TrieMult
open FbBroker.Routing FbBroker.Auth

abbrev ClientId := Nat
abbrev MsgId := Nat

/-- `&p->subscriptions[i]`. -/
abbrev SubRef := ClientId × Nat

/-- `MAX_SUBS`. -/
def maxSubs : Nat := 12

/-- `sizeof(c_send_buf)`. -/
def sendBufLen : Nat := 1500

/-- The fields of `config_st` that are used. -/
structure Config where
  numWorkers : Nat
  numServers : Nat
  allowAnonymous : Bool
  name : List Byte
deriving DecidableEq, Repr

/-- `client_state_et`. -/
inductive ClientState where
  | opened
  | connected
  | closing
deriving DecidableEq, Repr

/-- `subscription_st` without its list node; its `client` is the owner of the
array it stands in. -/
structure Sub where
  filter : List Byte
  qos : Nat
deriving DecidableEq, Repr

/-- The fields of `client_st` that are used; `session` has those the parser
writes. -/
structure Client where
  session : Session
  state : ClientState
  worker : Nat
  isTls : Bool
  isWs : Bool
  isSuper : Bool
  userIdStr : List Byte
  ipAddress : List Byte
  authInfo : Bool
  /-- `uint16_t` -/
  msgId : Nat
  numSubs : Nat
  /-- `MAX_SUBS` elements -/
  subscriptions : Nat → Sub

/-- The client as the auth module sees it. -/
def Client.principal (p : Client) : Principal where
  username := p.session.username
  isSuper := p.isSuper
  userIdStr := p.userIdStr
  ipAddress := p.ipAddress
  authInfo := p.authInfo

/-- `mp->client`: a client, or the pseudo client of a worker, whose `worker`
is null. -/
inductive Owner where
  | client (c : ClientId)
  | me (worker : Nat)
deriving DecidableEq, Repr

/-- A message with its delivery state. -/
structure MsgRec where
  message : Message
  owner : Owner
  notDone : Nat → Bool

/-! ### The environment -/

/-- What a call of `send` does with the bytes it is given. -/
inductive Sent where
  | full
  | short (n : Nat)
  /-- it fails; the text is the reason the code formats -/
  | error (reason : List Byte)
deriving DecidableEq, Repr

/-- What the SSL layer does with a write. -/
inductive TlsWrite where
  /-- the handshake is not finished -/
  | unfinished
  /-- all bytes are taken, or the first ones, and these records are to be sent -/
  | full (records : List (List Byte))
  | short (n : Nat) (records : List (List Byte))
  | error
  /-- nothing is taken, without an error -/
  | nothing
deriving DecidableEq, Repr

/-- The answers of the environment to the calls of one step, in order. Where a
list has run out the call succeeds. -/
structure Answers where
  mallocs : List Bool
  sends : List Sent
  tlsWrites : List TlsWrite
  db : Database
  /-- what the memory of a message holds in `not_done` -/
  stale : MsgId → Nat → Bool

def TlsWrite.isFull : TlsWrite → Bool
  | .full _ => true
  | _ => false

/-- Every write of the step is taken in full. -/
def Answers.Good (answers : Answers) : Prop :=
  (∀ answer ∈ answers.sends, answer = .full) ∧
    ∀ answer ∈ answers.tlsWrites, answer.isFull = true

instance (answers : Answers) : Decidable answers.Good :=
  inferInstanceAs (Decidable (_ ∧ _))

theorem Answers.Good.subset {answers later : Answers} (good : answers.Good)
    (fewer : later.sends ⊆ answers.sends ∧ later.tlsWrites ⊆ answers.tlsWrites) : later.Good :=
  ⟨fun answer member => good.1 answer (fewer.1 member), fun answer member => good.2 answer (fewer.2 member)⟩

def Sent.takes : Sent → Bool
  | .full => true
  | .short n => n ≠ 0
  | .error _ => false

def TlsWrite.takes : TlsWrite → Bool
  | .full _ => true
  | .short n _ => n ≠ 0
  | _ => false

/-- Every write of the step takes some bytes, so that the loops around them go on. -/
def Answers.Taken (answers : Answers) : Prop :=
  (∀ answer ∈ answers.sends, answer.takes = true) ∧ ∀ answer ∈ answers.tlsWrites, answer.takes = true

instance (answers : Answers) : Decidable answers.Taken :=
  inferInstanceAs (Decidable (_ ∧ _))

theorem Answers.Taken.subset {answers later : Answers} (taken : answers.Taken)
    (fewer : later.sends ⊆ answers.sends ∧ later.tlsWrites ⊆ answers.tlsWrites) : later.Taken :=
  ⟨fun answer member => taken.1 answer (fewer.1 member), fun answer member => taken.2 answer (fewer.2 member)⟩

theorem Answers.Good.taken {answers : Answers} (good : answers.Good) : answers.Taken := by
  refine ⟨fun answer member => good.1 answer member ▸ rfl, fun answer member => ?_⟩
  have full := good.2 answer member
  cases answer with
  | full records => rfl
  | _ => simp [TlsWrite.isFull] at full

/-- No `malloc` of the step fails. -/
def Answers.Plenty (answers : Answers) : Prop :=
  ∀ answer ∈ answers.mallocs, answer = true

instance (answers : Answers) : Decidable answers.Plenty :=
  inferInstanceAs (Decidable (∀ _ ∈ _, _))

/-! ### What can be observed -/

inductive Event where
  /-- `send` took these bytes -/
  | wire (c : ClientId) (bytes : List Byte)
  /-- the SSL layer took these bytes -/
  | plain (c : ClientId) (bytes : List Byte)
  /-- `c_send_data` was given this packet -/
  | packet (c : ClientId) (bytes : List Byte)
  /-- `auth_auth` returned 0 for a CONNECT -/
  | accepted (c : ClientId)
  /-- `auth_auth` failed for a CONNECT -/
  | rejected (c : ClientId)
  /-- `on_recv_publish` queued a message -/
  | published (c : ClientId)
  /-- `on_recv_subscribe` inserted a subscription -/
  | subscribed (c : ClientId)
  /-- the parser returned an error on a packet of this type -/
  | refused (c : ClientId) (type : MsgType)
  /-- `c_unbind` freed the client -/
  | closed (c : ClientId)
  /-- `c_pub_connected` queued its message -/
  | online (c : ClientId)
  /-- `c_pub_disconnected` queued its message -/
  | offline (c : ClientId)
deriving DecidableEq, Repr

/-! ### The state -/

structure State where
  clients : ClientId → Option Client
  nextClient : ClientId
  /-- the list nodes in the subscriptions of the clients -/
  nodes : Heap SubRef
  /-- `subs` of each worker -/
  subs : Nat → Trie SubRef
  msgQ : Nat → List MsgId
  gcQ : Nat → List MsgId
  messages : MsgId → Option MsgRec
  nextMsg : MsgId
  /-- the query buffer of each worker thread -/
  authQ : Nat → List Byte
  /-- `keep_alive` of each worker, and the fields of the clients it uses -/
  ka : KeepAlive.Wheel ClientId
  answers : Answers
  log : List Event

/-- Sequential code of the broker. -/
abbrev Code := Cmd Fault State

namespace State

def emit (b : State) (event : Event) : State :=
  { b with log := b.log ++ [event] }

def putClient (b : State) (c : ClientId) (p : Client) : State :=
  { b with clients := Function.update b.clients c (some p) }

def putMessage (b : State) (m : MsgId) (mp : MsgRec) : State :=
  { b with messages := Function.update b.messages m (some mp) }

/-- A message that has been pushed on every worker's queue: of `not_done` only the elements
of the workers have been written. -/
def freshMessage (cfg : Config) (owner : Owner) (mp : Message) (b : State) : MsgRec :=
  ⟨mp, owner, fun i => decide (i < cfg.numWorkers) || b.answers.stale b.nextMsg i⟩

/-- The message is created and pushed on every worker's queue. -/
def queueMessage (cfg : Config) (owner : Owner) (mp : Message) (b : State) : State :=
  { b with
    messages := Function.update b.messages b.nextMsg (some (b.freshMessage cfg owner mp))
    nextMsg := b.nextMsg + 1
    msgQ := fun w => if w < cfg.numWorkers then b.msgQ w ++ [b.nextMsg] else b.msgQ w }

/-- `sub_remove(&worker->subs, &p->subscriptions[i])`. -/
def removeSub (c : ClientId) (p : Client) (b : State) (i : Nat) : State :=
  let (nodes, head) := subRemove b.nodes (b.subs p.worker) (p.subscriptions i).filter (c, i)
  { b with nodes, subs := Function.update b.subs p.worker head }

/-- The client is taken out of its worker's table and freed. -/
def freeClient (c : ClientId) (p : Client) (b : State) : State :=
  let b := (List.range p.numSubs).foldl (removeSub c p) b
  { b with clients := Function.update b.clients c none, log := b.log ++ [.closed c] }

/-- A bound for the length of every subscription list. -/
def listBound (b : State) : Nat :=
  maxSubs * b.nextClient

end State

/-! ### Access to records -/

/-- Dereference a client pointer. -/
def client (c : ClientId) : Code Client := do
  match (← get).clients c with
  | some p => pure p
  | none => Cmd.fail .useAfterFree

/-- Write fields of a client. -/
def updateClient (c : ClientId) (change : Client → Client) : Code Unit := do
  let p ← client c
  modify (·.putClient c (change p))

theorem client_run {c : ClientId} {b : State} {p : Client} (present : b.clients c = some p) :
    (client c).run b = (.ok p, b) := by
  simp [client, present]

theorem client_freed {c : ClientId} {b : State} (gone : b.clients c = none) :
    (client c).run b = (.error .useAfterFree, b) := by
  simp [client, gone]

theorem updateClient_run {c : ClientId} {b : State} {p : Client} (present : b.clients c = some p)
    (change : Client → Client) :
    (updateClient c change).run b = (.ok (), b.putClient c (change p)) := by
  rw [updateClient, Cmd.bind_ok (client_run present), Cmd.run_modify]

/-- Behind a dereference the client is there, or the contract allows the fault. -/
theorem holds_client_bind {contract : Contract Fault State} {Value : Type} {post : Value → Prop}
    {c : ClientId} {b : State} {rest : Client → Code Value}
    (gone : b.clients c = none → contract.fault .useAfterFree b)
    (found : ∀ p, b.clients c = some p → contract.Holds post (rest p) b) :
    contract.Holds post (client c >>= rest) b := by
  cases present : b.clients c with
  | some p =>
      unfold Contract.Holds
      rw [Cmd.bind_ok (client_run present)]
      exact found p present
  | none =>
      unfold Contract.Holds
      rw [Cmd.bind_error (client_freed present)]
      exact ⟨contract.refl b, gone present⟩

/-- `ka_update(&p->worker->keep_alive, p, p->recv_at)`. -/
def kaUpdate (c : ClientId) : Code Unit := do
  let p ← client c
  modify fun b => { b with
    ka := KeepAlive.kaUpdate b.ka p.worker c p.session.keepAlive (b.ka.timer c).recvAt }

/-- `ka_remove(&p->worker->keep_alive, p)`. -/
def kaRemove (c : ClientId) : Code Unit := do
  let p ← client c
  match KeepAlive.kaRemove (← get).ka p.worker c p.session.keepAlive with
  | .error fault => Cmd.fail fault
  | .ok ka => modify fun b => { b with ka }

theorem kaUpdate_run {c : ClientId} {b : State} {p : Client} (present : b.clients c = some p) :
    (kaUpdate c).run b = (.ok (), { b with
      ka := KeepAlive.kaUpdate b.ka p.worker c p.session.keepAlive (b.ka.timer c).recvAt }) := by
  rw [kaUpdate, Cmd.bind_ok (client_run present), Cmd.run_modify]

theorem kaRemove_ok {c : ClientId} {b : State} {p : Client} {ka : KeepAlive.Wheel ClientId}
    (present : b.clients c = some p)
    (removed : KeepAlive.kaRemove b.ka p.worker c p.session.keepAlive = .ok ka) :
    (kaRemove c).run b = (.ok (), { b with ka }) := by
  rw [kaRemove, Cmd.bind_ok (client_run present)]
  simp [removed]

theorem kaRemove_failed {c : ClientId} {b : State} {p : Client} {fault : Fault}
    (present : b.clients c = some p)
    (failed : KeepAlive.kaRemove b.ka p.worker c p.session.keepAlive = .error fault) :
    (kaRemove c).run b = (.error fault, b) := by
  rw [kaRemove, Cmd.bind_ok (client_run present)]
  simp [failed]

/-- Dereference a message pointer. -/
def message (m : MsgId) : Code MsgRec := do
  match (← get).messages m with
  | some mp => pure mp
  | none => Cmd.fail .useAfterFree

theorem message_run {m : MsgId} {b : State} {mp : MsgRec} (found : b.messages m = some mp) :
    (message m).run b = (.ok mp, b) := by
  simp [message, found]

theorem message_freed {m : MsgId} {b : State} (gone : b.messages m = none) :
    (message m).run b = (.error .useAfterFree, b) := by
  simp [message, gone]

/-- Behind a dereference the message is there, or the contract allows the fault. -/
theorem holds_message_bind {contract : Contract Fault State} {Value : Type} {post : Value → Prop}
    {m : MsgId} {b : State} {rest : MsgRec → Code Value}
    (gone : b.messages m = none → contract.fault .useAfterFree b)
    (found : ∀ mp, b.messages m = some mp → contract.Holds post (rest mp) b) :
    contract.Holds post (message m >>= rest) b := by
  cases present : b.messages m with
  | some mp =>
      unfold Contract.Holds
      rw [Cmd.bind_ok (message_run present)]
      exact found mp present
  | none =>
      unfold Contract.Holds
      rw [Cmd.bind_error (message_freed present)]
      exact ⟨contract.refl b, gone present⟩

def assert (condition : Bool) : Code Unit :=
  if condition then pure () else Cmd.fail .assertion

theorem assert_run {condition : Bool} (holds : condition = true) (b : State) :
    (assert condition).run b = (.ok (), b) := by
  rw [assert, if_pos holds, Cmd.run_pure]

/-- An `if` without `else`. -/
def onlyIf (condition : Bool) (body : Code Unit) : Code Unit :=
  if condition then body else pure ()

def emit (event : Event) : Code Unit :=
  modify (·.emit event)

/-! ### Calls of the environment -/

/-- Whether `malloc` succeeds. -/
def malloc : Code Bool := do
  let answers := (← get).answers
  modify fun b => { b with answers.mallocs := answers.mallocs.tail }
  pure (answers.mallocs.headD true)

/-- `send` on the client's socket, of a buffer that is not empty. -/
def send (c : ClientId) (buf : List Byte) : Code Sent := do
  let answers := (← get).answers
  modify fun b => { b with answers.sends := answers.sends.tail }
  match answers.sends.headD .full with
  | .full => do
      emit (.wire c buf)
      pure .full
  | .short n => do
      emit (.wire c (buf.take n))
      pure (.short n)
  | .error reason => pure (.error reason)

/-- `SSL_write` on the client's connection. -/
def sslWrite (c : ClientId) (buf : List Byte) : Code TlsWrite := do
  let answers := (← get).answers
  modify fun b => { b with answers.tlsWrites := answers.tlsWrites.tail }
  match answers.tlsWrites.headD (.full []) with
  | .full records => do
      emit (.plain c buf)
      pure (.full records)
  | .short n records => do
      emit (.plain c (buf.take n))
      pure (.short n records)
  | answer => pure answer

def database : Code Database := do
  pure (← get).answers.db

theorem database_run (b : State) : database.run b = (.ok b.answers.db, b) :=
  rfl

end FbBroker.Broker
