import Mathlib.Logic.Relation
import FbBroker.Broker.Run

/-!
Contract: what the code of the broker can do to its state.

`Change` lists the edits a call makes, each with the condition under which it
is made and the task in whose course; every command's run is a chain of such
edits, ended or cut short by a fault. The invariants of the broker are proved
against this list, not against the code.

With `closes` false the chain closes no client. Code that is given a client
which exists, while each of its writes takes some bytes, keeps to such chains and
touches no freed memory.
-/

set_option autoImplicit false

namespace FbBroker.Broker

open FbBroker.Lib FbBroker.Packet FbBroker.Parser FbBroker.Dllist FbBroker.TrieMult
open FbBroker.Routing FbBroker.Auth

variable {d : ClientId}

/-- What a call is working on. -/
inductive Task where
  | idle
  | connect (c : ClientId)
  /-- a CONNECT, behind its CONNACK -/
  | welcome (c : ClientId)
  | subscribe (c : ClientId) (sub : SubscribeSt)
  | publish (c : ClientId) (mp : Message)
  | deliver (m : MsgId)
  /-- answering or closing a client, without writing to its record -/
  | talk

variable (cfg : Config)

/-- The packets a task sends: PUBREC answers a QoS 2 message, PUBLISH is a delivery and
carries the lower QoS of message and subscription. -/
inductive Packets (task : Task) (b : State) (c : ClientId) : List Byte → Prop
  | plain {packet : List Byte} {header : Header} (isHeader : headerOf packet = header)
      (type : header.msgType ≠ .pubrec ∧ header.msgType ≠ .publish) : Packets task b c packet
  | pubrec {mp : Message} {packet : List Byte} (publishing : task = .publish c mp)
      (qos : mp.origQos = 2) (type : (headerOf packet).msgType = .pubrec) : Packets task b c packet
  | publish {m : MsgId} {mp : MsgRec} {p : Client} (i msgId : Nat) (found : b.messages m = some mp)
      (present : b.clients c = some p) (delivering : task = .deliver m) :
      Packets task b c (encodePublish sendBufLen mp.message
        (min mp.message.origQos (p.subscriptions i).qos) msgId)

/-- The tasks that may bring a client into the connected state. -/
def Task.Connects (task : Task) (c : ClientId) : Prop :=
  task = .connect c ∨ task = .welcome c

/-- The events a task causes. A client that goes offline does so in the course of a
close, unless `ka_remove` fails in between. -/
def Emits (task : Task) (b : State) : Event → Prop
  | .wire _ _ => True
  | .plain _ _ => True
  | .packet c bytes => Packets task b c bytes
  | .accepted c => task = .connect c
  | .rejected c => task = .connect c
  | .published c => ∃ mp p, task = .publish c mp ∧ b.clients c = some p ∧
      allowed cfg b.answers.db p .pub mp.topic = true
  | .subscribed c => ∃ sub p, task = .subscribe c sub ∧ b.clients c = some p ∧
      ∀ i < sub.numFilters, allowed cfg b.answers.db p .sub (filterOf sub i) = true
  | .refused _ _ => False
  | .closed _ => False
  | .online c => task.Connects c
  | .offline _ => ¬ b.ka.Idle

/-- How a task changes a client's record. -/
structure Updates (task : Task) (b : State) (c : ClientId) (p p' : Client) : Prop where
  session : p'.session = p.session
  worker : p'.worker = p.worker
  state : p'.state = p.state ∨ task.Connects c ∧ p'.state = .connected
  rights : p'.isSuper = p.isSuper ∧ p'.userIdStr = p.userIdStr ∨
    task = .connect c ∧ (p'.isSuper = true → Event.accepted c ∈ b.log) ∧
      (p'.userIdStr = p.userIdStr ∨ Event.accepted c ∈ b.log)
  qos : ∀ i, (∃ k, (p'.subscriptions i).qos = (p.subscriptions k).qos) ∨
    ∃ sub j, task = .subscribe c sub ∧ j < sub.numFilters ∧
      (p'.subscriptions i).qos = min (sub.qos j) 1
  msgId : p'.msgId = p.msgId ∨ ∃ m, task = .deliver m

/-- The messages that code working for a client queues: those of the broker are
about a connected client. -/
def Queues (task : Task) (b : State) (c : ClientId) (mp : Message) : Owner → Prop
  | .me _ => (mp.dup = 0 ∧ mp.retain = 0) ∧ ∃ p, b.clients c = some p ∧ p.state = .connected
  | .client d => task = .publish d mp ∧ (b.clients d).isSome

/-- What a close tells: that a connected client goes offline, if there is memory for
the message. -/
def Tells (b : State) (c : ClientId) (p : Client) (told : List Event) : Prop :=
  told = [.offline c] ∧ p.state = .connected ∨
    told = [] ∧ (p.state = .connected → ¬ b.answers.Plenty)

/-- One edit of the state by code that works for a client. -/
inductive Change (closes : Bool) (task : Task) (c : ClientId) : State → State → Prop
  | ask {b : State} {answers : Answers}
      (writes : answers.sends ⊆ b.answers.sends ∧ answers.tlsWrites ⊆ b.answers.tlsWrites)
      (mallocs : answers.mallocs ⊆ b.answers.mallocs) (db : answers.db = b.answers.db) :
      Change closes task c b { b with answers }
  | query {b : State} (authQ : Nat → List Byte) : Change closes task c b { b with authQ }
  | keepAlive {b : State} {ka : KeepAlive.Wheel ClientId} (rests : b.ka.Idle → ka = b.ka) :
      Change closes task c b { b with ka }
  | emit {b : State} {event : Event} (emits : Emits cfg task b event) :
      Change closes task c b (b.emit event)
  | client {b : State} {p p' : Client} (present : b.clients c = some p)
      (updates : Updates task b c p p') (edits : task ≠ .talk) :
      Change closes task c b (b.putClient c p')
  | table {b : State} (nodes : Heap SubRef) (subs : Nat → Trie SubRef) (edits : task ≠ .talk) :
      Change closes task c b { b with nodes, subs }
  | queue {b : State} {owner : Owner} {mp : Message} (queues : Queues task b c mp owner) :
      Change closes task c b (b.queueMessage cfg owner mp)
  | retire {b : State} {msgQ gcQ : Nat → List MsgId} {messages : MsgId → Option MsgRec}
      (serves : ∃ m, task = .deliver m) (fewer : ∀ w m, m ∈ msgQ w → m ∈ b.msgQ w)
      (kept : ∀ m mp, messages m = some mp → ∃ old, b.messages m = some old ∧
        old.owner = mp.owner ∧ old.message = mp.message) :
      Change closes task c b { b with msgQ, gcQ, messages }
  | close {b : State} {p : Client} (may : closes = true)
      (present : b.clients c = some p) (nodes : Heap SubRef) (subs : Nat → Trie SubRef)
      (unlinked : (List.range p.numSubs).foldl (State.removeSub c p) b = { b with nodes, subs })
      {told : List Event} (tells : Tells b c p told) :
      Change closes task c b { b with
        nodes, subs
        clients := Function.update b.clients c none
        log := b.log ++ (told ++ [.closed c]) }

/-- A chain of edits. -/
abbrev Evolves (closes : Bool) (task : Task) (c : ClientId) : State → State → Prop :=
  Relation.ReflTransGen (Change cfg closes task c)

/-- No client is half closed, as `c_unbind` leaves none, and the keep-alive tables
are at rest. -/
structure Regular (b : State) : Prop where
  states : ∀ c p, b.clients c = some p → p.state ≠ .closing
  idle : b.ka.Idle

/-- Writes take bytes, in a regular state. -/
structure Calm (b : State) : Prop where
  taken : b.answers.Taken
  regular : Regular b

/-- The client exists and is not about to lose its connection. -/
def Ready (c : ClientId) (b : State) : Prop :=
  Calm b ∧ (b.clients c).isSome

section Chains

variable {cfg} {closes : Bool} {task : Task} {c : ClientId} {b b' : State}

theorem Change.writes (change : Change cfg closes task c b b') :
    b'.answers.sends ⊆ b.answers.sends ∧ b'.answers.tlsWrites ⊆ b.answers.tlsWrites := by
  cases change with
  | ask writes mallocs db => exact writes
  | _ => exact ⟨List.Subset.refl _, List.Subset.refl _⟩

theorem Evolves.writes (chain : Evolves cfg closes task c b b') :
    b'.answers.sends ⊆ b.answers.sends ∧ b'.answers.tlsWrites ⊆ b.answers.tlsWrites := by
  induction chain with
  | refl => exact ⟨List.Subset.refl _, List.Subset.refl _⟩
  | tail _ change inductionHypothesis =>
      exact ⟨fun _ later => inductionHypothesis.1 (change.writes.1 later), fun _ later =>
        inductionHypothesis.2 (change.writes.2 later)⟩

theorem Change.db (change : Change cfg closes task c b b') : b'.answers.db = b.answers.db := by
  cases change with
  | ask writes mallocs db => exact db
  | _ => rfl

/-- The entries of a close. -/
theorem Tells.mem {p : Client} {told : List Event} (tells : Tells b c p told) {event : Event}
    (member : event ∈ told ++ [.closed c]) : event = .offline c ∨ event = .closed c := by
  rcases tells with ⟨spoken, -⟩ | ⟨unspoken, -⟩
  · simpa [spoken] using member
  · right
    simpa [unspoken] using member

/-- Other entries were there before a close. -/
theorem Tells.mem_log {p : Client} {told : List Event} (tells : Tells b c p told) {event : Event}
    (other : event ≠ .offline c ∧ event ≠ .closed c) (logged : event ∈ b.log ++ (told ++ [.closed c])) :
    event ∈ b.log := by
  rcases List.mem_append.mp logged with old | new
  · exact old
  · rcases tells.mem new with same | same
    · exact absurd same other.1
    · exact absurd same other.2

theorem Updates.refl (task : Task) (b : State) (c : ClientId) (p : Client) : Updates task b c p p where
  session := rfl
  worker := rfl
  state := .inl rfl
  rights := .inl ⟨rfl, rfl⟩
  qos i := .inl ⟨i, rfl⟩
  msgId := .inl rfl

/-- A client of the state behind was there before. -/
theorem Change.client_before (change : Change cfg closes task c b b') {p' : Client}
    (found : b'.clients d = some p') : ∃ p, b.clients d = some p ∧ Updates task b d p p' := by
  cases change with
  | @client old new present updates =>
      by_cases same : d = c
      · subst d
        obtain rfl : new = p' := by simpa [State.putClient] using found
        exact ⟨old, present, updates⟩
      · exact ⟨p', by simpa [State.putClient, same] using found, .refl task b d p'⟩
  | close may present nodes subs =>
      by_cases same : d = c
      · simp [same] at found
      · exact ⟨p', by simpa [same] using found, .refl task b d p'⟩
  | _ => exact ⟨p', found, .refl task b d p'⟩

/-- Code that works for a client leaves the others alone. -/
theorem Change.other (change : Change cfg closes task c b b') (other : d ≠ c) :
    b'.clients d = b.clients d := by
  cases change with
  | client present updates => simp [State.putClient, other]
  | close may present nodes subs => simp [other]
  | _ => rfl

theorem Evolves.other (chain : Evolves cfg closes task c b b') (other : d ≠ c) :
    b'.clients d = b.clients d := by
  induction chain with
  | refl => rfl
  | tail _ change inductionHypothesis => exact (change.other other).trans inductionHypothesis

/-- The keep-alive tables stay as they are once they are at rest. -/
theorem Change.ka (change : Change cfg closes task c b b') (idle : b.ka.Idle) : b'.ka = b.ka := by
  cases change with
  | keepAlive rests => exact rests idle
  | _ => rfl

theorem Change.regular (change : Change cfg closes task c b b') (regular : Regular b) :
    Regular b' where
  states := by
    intro d p' found
    obtain ⟨p, present, updates⟩ := change.client_before found
    rcases updates.state with kept | ⟨_, connected⟩
    · exact kept ▸ regular.states d p present
    · simp [connected]
  idle := change.ka regular.idle ▸ regular.idle

/-- Without closing, every client stays. -/
theorem Change.present (change : Change cfg false task c b b')
    (found : (b.clients d).isSome) : (b'.clients d).isSome := by
  cases change with
  | client present updates =>
      by_cases same : d = c
      · simp [State.putClient, same]
      · simpa [State.putClient, same] using found
  | close may => simp at may
  | _ => exact found

theorem Change.log (change : Change cfg closes task c b b') : b.log <+: b'.log := by
  cases change with
  | emit emits => exact List.prefix_append _ _
  | close may present nodes subs => exact List.prefix_append _ _
  | _ => exact List.prefix_rfl

theorem Evolves.regular (chain : Evolves cfg closes task c b b') (regular : Regular b) :
    Regular b' := by
  induction chain with
  | refl => exact regular
  | tail _ change inductionHypothesis => exact change.regular inductionHypothesis

theorem Evolves.db (chain : Evolves cfg closes task c b b') : b'.answers.db = b.answers.db := by
  induction chain with
  | refl => rfl
  | tail _ change inductionHypothesis => exact change.db.trans inductionHypothesis

theorem Evolves.session (chain : Evolves cfg closes task c b b') {p' : Client}
    (found : b'.clients d = some p') :
    ∃ p, b.clients d = some p ∧ p'.session = p.session ∧ p'.worker = p.worker := by
  induction chain generalizing p' with
  | refl => exact ⟨p', found, rfl, rfl⟩
  | tail _ change inductionHypothesis =>
      obtain ⟨middle, present, updates⟩ := change.client_before found
      obtain ⟨p, before, session, worker⟩ := inductionHypothesis present
      exact ⟨p, before, updates.session.trans session, updates.worker.trans worker⟩

/-- What a task other than a CONNECT leaves of the client's rights. -/
theorem Evolves.rights (chain : Evolves cfg closes task c b b')
    (working : task ≠ .connect d) {p' : Client} (found : b'.clients d = some p') :
    ∃ p, b.clients d = some p ∧ p'.session = p.session ∧ p'.isSuper = p.isSuper ∧
      p'.userIdStr = p.userIdStr := by
  induction chain generalizing p' with
  | refl => exact ⟨p', found, rfl, rfl, rfl⟩
  | tail _ change inductionHypothesis =>
      obtain ⟨middle, present, updates⟩ := change.client_before found
      obtain ⟨p, before, session, isSuper, userIdStr⟩ := inductionHypothesis present
      obtain ⟨sameSuper, sameId⟩ := updates.rights.resolve_right fun connecting =>
        working connecting.1
      exact ⟨p, before, updates.session.trans session, sameSuper.trans isSuper,
        sameId.trans userIdStr⟩

theorem Evolves.log (chain : Evolves cfg closes task c b b') : b.log <+: b'.log := by
  induction chain with
  | refl => exact List.prefix_rfl
  | tail _ change inductionHypothesis => exact inductionHypothesis.trans change.log

/-- An event that the task does not cause was there before. -/
theorem Evolves.event_before (chain : Evolves cfg closes task c b b') {event : Event}
    (never : ∀ b, ¬ Emits cfg task b event) (stays : ∀ d, event ≠ .offline d ∧ event ≠ .closed d)
    (logged : event ∈ b'.log) : event ∈ b.log := by
  induction chain with
  | refl => exact logged
  | tail _ change inductionHypothesis =>
      apply inductionHypothesis
      cases change with
      | emit emits =>
          rcases List.mem_append.mp logged with old | new
          · exact old
          · obtain rfl := List.mem_singleton.mp new
            exact absurd emits (never _)
      | close may present nodes subs unlinked tells => exact tells.mem_log (stays _) logged
      | _ => exact logged

theorem Evolves.calm (chain : Evolves cfg closes task c b b') (calm : Calm b) : Calm b' :=
  ⟨calm.taken.subset chain.writes, chain.regular calm.regular⟩

theorem Evolves.present (chain : Evolves cfg false task c b b')
    (found : (b.clients d).isSome) : (b'.clients d).isSome := by
  induction chain with
  | refl => exact found
  | tail _ change inductionHypothesis => exact change.present inductionHypothesis

theorem Evolves.ready (chain : Evolves cfg false task c b b') (ready : Ready d b) :
    Ready d b' :=
  ⟨chain.calm ready.1, chain.present ready.2⟩

end Chains

/-! ### The contract of the client code -/

/-- The contract of code that works for a client. It touches freed memory only
where the client has been closed; without closing, it is called while the client
is ready, and neither touches freed memory nor fails an assertion. -/
def contract (closes : Bool) (task : Task) (c : ClientId) : Contract Fault State where
  rel := Evolves cfg closes task c
  pre b := closes = true ∨ Ready c b
  fault fault b :=
    closes = true ∧ (fault = .useAfterFree → b.clients c = none) ∨
      fault ≠ .useAfterFree ∧ fault ≠ .assertion
  refl _ := .refl
  trans := .trans
  keeps := by
    intro first second before chain
    cases closes with
    | true => exact .inl rfl
    | false =>
        right
        exact Evolves.ready chain (before.resolve_left (by simp))

section Rules

variable {cfg} {closes : Bool} {task : Task} {c : ClientId} {b : State} {Value : Type}
  {post : Value → Prop}

theorem evolves_one {b' : State} (change : Change cfg closes task c b b') :
    Evolves cfg closes task c b b' :=
  .single change

/-- Behind a dereference the client is there. -/
theorem holds_client {rest : Client → Code Value} (before : (contract cfg closes task c).pre b)
    (found : ∀ p, b.clients c = some p → (contract cfg closes task c).Holds post (rest p) b) :
    (contract cfg closes task c).Holds post (client c >>= rest) b := by
  refine holds_client_bind (fun gone => ?_) found
  rcases before with may | ready
  · exact .inl ⟨may, fun _ => gone⟩
  · have there := ready.2
    simp [gone] at there

theorem keeps_client {rest : Client → Code Value}
    (found : ∀ p b, (contract cfg closes task c).pre b → b.clients c = some p →
      (contract cfg closes task c).Holds post (rest p) b) :
    (contract cfg closes task c).Keeps post (client c >>= rest) :=
  fun b before => holds_client before fun p present => found p b before present

/-- Behind an edit the state is known. -/
theorem holds_modify_bind {change : State → State} {rest : PUnit → Code Value}
    (before : (contract cfg closes task c).pre b) (changes : Change cfg closes task c b (change b))
    (restHolds : (contract cfg closes task c).pre (change b) →
      (contract cfg closes task c).Holds post (rest ()) (change b)) :
    (contract cfg closes task c).Holds post (modify change >>= rest) b := by
  obtain ⟨moves, ends⟩ := restHolds ((contract cfg closes task c).keeps before (.single changes))
  exact ⟨.trans (.single changes) moves, ends⟩

theorem holds_updateClient {change : Client → Client} (edits : task ≠ .talk)
    (before : (contract cfg closes task c).pre b)
    (updates : ∀ p, b.clients c = some p → Updates task b c p (change p)) :
    (contract cfg closes task c).Holds (fun _ => True) (updateClient c change) b :=
  holds_client before fun p present =>
    .modify (evolves_one (.client present (updates p present) edits)) trivial

/-- Behind a write to the client, the written record is there. -/
theorem holds_updateClient_bind {change : Client → Client} {rest : Unit → Code Value}
    (edits : task ≠ .talk) (before : (contract cfg closes task c).pre b)
    (updates : ∀ p, b.clients c = some p → Updates task b c p (change p))
    (restHolds : ∀ p, b.clients c = some p →
      (contract cfg closes task c).pre (b.putClient c (change p)) →
      (contract cfg closes task c).Holds post (rest ()) (b.putClient c (change p))) :
    (contract cfg closes task c).Holds post (updateClient c change >>= rest) b := by
  unfold updateClient
  rw [Cmd.bind_assoc]
  refine holds_client before fun p present => ?_
  exact holds_modify_bind before (.client present (updates p present) edits) (restHolds p present)

theorem holds_assert_bind {condition : Bool} {rest : Unit → Code Value}
    (asserted : closes = true ∨ condition = true)
    (restHolds : condition = true → (contract cfg closes task c).Holds post (rest ()) b) :
    (contract cfg closes task c).Holds post (assert condition >>= rest) b := by
  cases condition with
  | true => exact restHolds rfl
  | false => exact ⟨.refl, .inl ⟨asserted.resolve_right (by simp), by simp⟩⟩

theorem asksMalloc : Change cfg closes task c b { b with answers.mallocs := b.answers.mallocs.tail } :=
  .ask ⟨List.Subset.refl _, List.Subset.refl _⟩ (fun _ => List.mem_of_mem_tail) rfl

/-- Behind `malloc` an answer has been taken. -/
theorem holds_malloc_bind {rest : Bool → Code Value}
    (restHolds : ∀ ok, (contract cfg closes task c).Holds post (rest ok)
      { b with answers.mallocs := b.answers.mallocs.tail }) :
    (contract cfg closes task c).Holds post (malloc >>= rest) b := by
  obtain ⟨moves, ends⟩ := restHolds (b.answers.mallocs.headD true)
  exact ⟨.head asksMalloc moves, ends⟩

theorem holds_onlyIf {condition : Bool} {body : Code Unit}
    (holds : condition = true → (contract cfg closes task c).Holds (fun _ => True) body b) :
    (contract cfg closes task c).Holds (fun _ => True) (onlyIf condition body) b := by
  cases condition with
  | true => exact holds rfl
  | false => exact .pure trivial

theorem holds_kaUpdate (before : (contract cfg closes task c).pre b) :
    (contract cfg closes task c).Holds (fun _ => True) (kaUpdate c) b :=
  holds_client before fun _ _ =>
    .modify (evolves_one (.keepAlive fun idle => idle.kaUpdate _ _ _)) trivial

/-- Behind `ka_remove` only the tables differ; its assertion may fail while a
client is closed. -/
theorem holds_kaRemove_bind {p : Client} {rest : Unit → Code Value} (present : b.clients c = some p)
    (restHolds : ∀ ka, (contract cfg true task c).Holds post (rest ()) { b with ka }) :
    (contract cfg true task c).Holds post (kaRemove c >>= rest) b := by
  unfold Contract.Holds
  cases removed : KeepAlive.kaRemove b.ka p.worker c p.session.keepAlive with
  | ok ka =>
      have rests : b.ka.Idle → ka = b.ka := fun idle =>
        Except.ok.inj (removed.symm.trans (idle.kaRemove _ _ _))
      obtain ⟨moves, ends⟩ := restHolds ka
      rw [Cmd.bind_ok (kaRemove_ok present removed)]
      exact ⟨.trans (.single (.keepAlive rests)) moves, ends⟩
  | error fault =>
      have asserted : fault = .assertion := KeepAlive.kaRemove_error removed
      subst fault
      rw [Cmd.bind_error (kaRemove_failed present removed)]
      exact ⟨.refl, .inl ⟨rfl, by simp⟩⟩

theorem holds_emit {event : Event} (emits : Emits cfg task b event) :
    (contract cfg closes task c).Holds (fun _ => True) (emit event) b :=
  .modify (evolves_one (.emit emits)) trivial

end Rules

end FbBroker.Broker
