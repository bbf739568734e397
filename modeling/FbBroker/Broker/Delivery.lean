import FbBroker.Broker.Sending
import FbBroker.Broker.Table
import FbBroker.Parser.Publish

/-!
Contract: a published message reaches its subscribers.

Owns the way of a message through the broker while all writes are taken: the
bytes of a PUBLISH become a message on the queue of every worker, and the worker
that takes it off sends it to the connected clients with a matching
subscription, once for each, and to nobody else.

Does not own the order of the workers' steps, nor what becomes of the message
afterwards.
-/

set_option autoImplicit false

namespace FbBroker.Broker

open FbBroker.Lib FbBroker.Packet FbBroker.Parser FbBroker.Dllist FbBroker.TrieMult
open FbBroker.Routing FbBroker.Auth

variable (cfg : Config) {c : ClientId} {b d : State} {p : Client} {m : MsgId} {mp : MsgRec}
  {events : List Event}

/-! ### The packets of a delivery -/

/-- Packet ids have been given out; the tables and the messages are as before. -/
structure Renumbered (b d : State) : Prop where
  clients : ∀ c, ∃ msgId, d.clients c = (b.clients c).map fun p => { p with msgId }
  nodes : d.nodes = b.nodes
  subs : d.subs = b.subs
  messages : d.messages = b.messages

/-- The state behind some deliveries: packet ids have been given out, answers taken and
events logged. -/
structure Stamped (b d : State) (events : List Event) : Prop extends Renumbered b d where
  msgQ : d.msgQ = b.msgQ
  gcQ : d.gcQ = b.gcQ
  nextMsg : d.nextMsg = b.nextMsg
  log : d.log = b.log ++ events
  good : d.answers.Good

/-- The packet for a subscription: the QoS is the lower one of message and subscription. -/
def Packs (b : State) (mp : Message) (ref : SubRef) (packet : List Byte) : Prop :=
  ∃ p msgId, b.clients ref.1 = some p ∧ msgId < 2 ^ 16 ∧
    packet = encodePublish sendBufLen mp (min mp.origQos (p.subscriptions ref.2).qos) msgId

/-- The events of these packets, one after the other. -/
inductive Deliveries (b : State) : List (SubRef × List Byte) → List Event → Prop
  | nil : Deliveries b [] []
  | cons {ref : SubRef} {packet : List Byte} {p : Client} {events rest : List Event}
      {sent : List (SubRef × List Byte)} (present : b.clients ref.1 = some p)
      (carried : Carried ref.1 p packet events) (others : Deliveries b sent rest) :
      Deliveries b ((ref, packet) :: sent) (events ++ rest)

theorem Deliveries.congr {sent : List (SubRef × List Byte)}
    (deliveries : Deliveries b sent events) (clients : d.clients = b.clients) :
    Deliveries d sent events := by
  induction deliveries with
  | nil => exact .nil
  | cons present carried _ inductionHypothesis =>
      exact .cons (clients ▸ present) carried inductionHypothesis

/-- The packet is encoded for every QoS up to that of the message. -/
def Fits (mp : Message) : Prop :=
  packetLen (publishLen mp.origQos mp.topic.length mp.payload.length) ≤ sendBufLen

theorem Fits.encoded {mp : Message} (fits : Fits mp) {qos : Nat} (lower : qos ≤ mp.origQos) (msgId : Nat) :
    encodePublish sendBufLen mp qos msgId ≠ [] := by
  apply encodePublish_ne_nil_iff.mpr
  unfold Fits packetLen publishLen at fits
  unfold packetLen publishLen
  dsimp only at fits ⊢
  split_ifs at fits ⊢ <;> omega

theorem Fits.packs {mp : Message} (fits : Fits mp) {ref : SubRef} {packet : List Byte}
    (packs : Packs b mp ref packet) : packet ≠ [] := by
  obtain ⟨p, msgId, -, -, isPacket⟩ := packs
  rw [isPacket]
  exact fits.encoded (Nat.min_le_left _ _) msgId

theorem Carried.congr {q : Client} {packet : List Byte}
    (carried : Carried c q packet events) (tls : q.isTls = p.isTls) (ws : q.isWs = p.isWs) :
    Carried c p packet events := by
  cases carried with
  | wire noTls noWs => exact .wire (tls ▸ noTls) (ws ▸ noWs)
  | frame noTls isWs => exact .frame (tls ▸ noTls) (ws ▸ isWs)
  | tls secure records => exact .tls (tls ▸ secure) records

namespace Renumbered

theorem refl (b : State) : Renumbered b b where
  clients c := by
    cases present : b.clients c with
    | none => exact ⟨0, rfl⟩
    | some p => exact ⟨p.msgId, rfl⟩
  nodes := rfl
  subs := rfl
  messages := rfl

theorem logged (same : Renumbered b d) (answers : Answers) (log : List Event) :
    Renumbered b { d with answers, log } :=
  ⟨same.clients, same.nodes, same.subs, same.messages⟩

/-- A packet id is given out. -/
theorem count (same : Renumbered b d) {q : Client} (present : d.clients c = some q) (msgId : Nat) :
    Renumbered b (d.putClient c { q with msgId }) where
  clients e := by
    obtain ⟨old, before⟩ := same.clients e
    by_cases here : e = c
    · subst e
      rw [present] at before
      obtain ⟨p, found, rfl⟩ := Option.map_eq_some_iff.mp before.symm
      exact ⟨msgId, by simp [State.putClient, found]⟩
    · exact ⟨old, by simpa [State.putClient, here] using before⟩
  nodes := same.nodes
  subs := same.subs
  messages := same.messages

end Renumbered

theorem Stamped.refl (good : b.answers.Good) : Stamped b b [] :=
  ⟨.refl b, rfl, rfl, rfl, by simp, good⟩

theorem Stamped.heard {events more : List Event} {d' : State} (stamped : Stamped b d events)
    (heard : Heard d d' more) : Stamped b d' (events ++ more) := by
  have same := heard.same
  refine ⟨?_, ?_, ?_, ?_, ?_, heard.good⟩
  · rw [same]
    exact stamped.logged _ _
  · rw [same]
    exact stamped.msgQ
  · rw [same]
    exact stamped.gcQ
  · rw [same]
    exact stamped.nextMsg
  · rw [same, ← List.append_assoc, ← stamped.log]

theorem Stamped.stamp (stamped : Stamped b d events) {q : Client}
    (present : d.clients c = some q) (msgId : Nat) :
    Stamped b (d.putClient c { q with msgId }) events :=
  ⟨stamped.count present msgId, stamped.msgQ, stamped.gcQ, stamped.nextMsg, stamped.log, stamped.good⟩

/-- A connected client is sent the packet for its subscription. -/
theorem deliverTo_run (stamped : Stamped b d events) {ref : SubRef}
    (present : b.clients ref.1 = some p) (notClosing : p.state ≠ .closing)
    (found : b.messages m = some mp) :
    ∃ d' more packet, (deliverTo cfg m ref).run d = (.ok (), d') ∧ Stamped b d' (events ++ more) ∧
      (packet ≠ [] → Carried ref.1 p packet more) ∧ Packs b mp.message ref packet := by
  obtain ⟨old, there⟩ := stamped.clients ref.1
  rw [present, Option.map_some] at there
  have read : (message m).run d = (.ok mp, d) := message_run (by rw [stamped.messages, found])
  -- the client's record may hold a new packet id when the packet is sent
  have sends : ∀ (e : State) (new msgId : Nat), Stamped b e events →
      e.clients ref.1 = some { p with msgId := new } → msgId < 2 ^ 16 →
      ∃ d' more packet, (cSendData cfg ref.1 (encodePublish sendBufLen mp.message
          (min mp.message.origQos (p.subscriptions ref.2).qos) msgId)).run e = (.ok 0, d') ∧
        Stamped b d' (events ++ more) ∧ (packet ≠ [] → Carried ref.1 p packet more) ∧
        Packs b mp.message ref packet := by
    intro e new msgId stamped there small
    obtain ⟨d', more, sent, heard, carried⟩ := cSendData_heard cfg there notClosing stamped.good
      (length_encodePublish_lt _ _ _)
    exact ⟨d', more, _, sent, stamped.heard heard, fun some => (carried some).congr rfl rfl, p, msgId,
      present, small, rfl⟩
  have counted := nextMsgId_run there (min mp.message.origQos (p.subscriptions ref.2).qos)
  rw [deliverTo, Cmd.bind_ok (client_run there), Cmd.bind_ok read]
  split at counted
  · obtain ⟨d', more, packet, sent, facts⟩ := sends _ _ _ (stamped.stamp there _)
      (Function.update_self _ _ _) (Nat.mod_lt _ (by decide))
    exact ⟨d', more, packet, by rw [Cmd.bind_ok counted, Cmd.bind_ok sent, Cmd.run_pure], facts⟩
  · obtain ⟨d', more, packet, sent, facts⟩ := sends d old 0 stamped there (by decide)
    exact ⟨d', more, packet, by rw [Cmd.bind_ok counted, Cmd.bind_ok sent, Cmd.run_pure], facts⟩

/-- Whether the subscription's client is connected. -/
def connectedAt (b : State) (ref : SubRef) : Bool :=
  match b.clients ref.1 with
  | some p => p.state = .connected
  | none => false

theorem cDeliver_run (stamped : Stamped b d events) {ref : SubRef}
    (present : b.clients ref.1 = some p) (found : b.messages m = some mp) :
    (connectedAt b ref = true ∧ ∃ d' more packet, (cDeliver cfg m ref).run d = (.ok (), d') ∧
      Stamped b d' (events ++ more) ∧ (packet ≠ [] → Carried ref.1 p packet more) ∧
      Packs b mp.message ref packet) ∨
    connectedAt b ref = false ∧ (cDeliver cfg m ref).run d = (.ok (), d) := by
  obtain ⟨old, there⟩ := stamped.clients ref.1
  rw [present, Option.map_some] at there
  rw [cDeliver, Cmd.bind_ok (client_run there)]
  by_cases connected : p.state = .connected
  · left
    obtain ⟨d', more, packet, ran, facts⟩ := deliverTo_run cfg stamped present (by simp [connected])
      found
    refine ⟨by simp [connectedAt, present, connected], d', more, packet, ?_, facts⟩
    simp [onlyIf, connected, ran]
  · right
    exact ⟨by simp [connectedAt, present, connected], by simp [onlyIf, connected]⟩

/-- Deliveries to a list of subscriptions reach those that are connected, in order. -/
theorem each_cDeliver {refs : List SubRef} (stamped : Stamped b d events)
    (there : ∀ ref ∈ refs, (b.clients ref.1).isSome) (found : b.messages m = some mp)
    (fits : Fits mp.message) :
    ∃ d' more sent, (Cmd.each (cDeliver cfg m) refs).run d = (.ok (), d') ∧
      Stamped b d' (events ++ more) ∧ Deliveries b sent more ∧
      sent.map Prod.fst = refs.filter (connectedAt b) ∧
      ∀ entry ∈ sent, Packs b mp.message entry.1 entry.2 := by
  induction refs generalizing d events with
  | nil => exact ⟨d, [], [], rfl, by simpa using stamped, .nil, rfl, by simp⟩
  | cons ref refs inductionHypothesis =>
      obtain ⟨p, present⟩ := Option.isSome_iff_exists.mp (there ref (by simp))
      have others := fun other member => there other (List.mem_cons_of_mem ref member)
      rcases cDeliver_run cfg stamped present found with
        ⟨connected, middle, first, packet, delivered, stamped', carried, packs⟩ | ⟨apart, skipped⟩
      · obtain ⟨d', more, sent, ran, final, rest, listed, all⟩ := inductionHypothesis stamped' others
        refine ⟨d', first ++ more, (ref, packet) :: sent, Cmd.each_cons_ok delivered ran, ?_,
          .cons present (carried (fits.packs packs)) rest, ?_, ?_⟩
        · rwa [← List.append_assoc]
        · simp [connected, listed]
        · exact List.forall_mem_cons.mpr ⟨packs, all⟩
      · obtain ⟨d', more, sent, ran, final, rest, listed, all⟩ := inductionHypothesis stamped others
        exact ⟨d', more, sent, Cmd.each_cons_ok skipped ran, final, rest, by simp [apart, listed], all⟩

/-! ### One round of a worker -/

/-- A topic without wildcards and NUL bytes that is no `$` topic. -/
structure Plain (topic : List Byte) : Prop where
  nulFree : (0 : Byte) ∉ topic
  noPlus : plus ∉ topic
  noHash : hash ∉ topic
  noDollar : topic.head? ≠ some dollar

variable {w : Nat} {live : List (SubRef × List Byte)}

/-- The subscriptions that a message with this topic is sent to. -/
def receivers (b : State) (live : List (SubRef × List Byte)) (topic : List Byte) : List SubRef :=
  (live.filter fun entry => filterMatches entry.2 topic && connectedAt b entry.1).map Prod.fst

/-- The nodes of the table are found as before. -/
theorem Renumbered.node (same : Renumbered b d) (agrees : Agrees b w live) {path : List Byte} {ref : SubRef}
    (member : ref ∈ entriesOf live path) : (table w).node d ref = some (b.nodes ref) := by
  obtain ⟨filter, listed, _⟩ := mem_entriesOf.mp member
  obtain ⟨p, present, _⟩ := (agrees.entries ref filter).mp listed
  obtain ⟨msgId, there⟩ := same.clients ref.1
  rw [present] at there
  simp [table, there, same.nodes]

theorem serves_cDeliver (agrees : Agrees d w live) (found : d.messages m = some mp) :
    Serves (table w) (cDeliver cfg m) d.nodes (d.subs w) (entriesOf live)
      fun e => ∃ events, Stamped d e events where
  head := by
    rintro e ⟨events, stamped⟩
    exact congrFun stamped.subs w
  node := by
    rintro e path ref ⟨events, stamped⟩ member
    exact stamped.node agrees member
  self := by
    intro path ref member
    obtain ⟨filter, listed, _⟩ := mem_entriesOf.mp member
    exact agrees.holds.self _ listed
  call := by
    rintro e path ref ⟨events, stamped⟩ member
    obtain ⟨filter, listed, _⟩ := mem_entriesOf.mp member
    obtain ⟨p, present, _⟩ := (agrees.entries ref filter).mp listed
    rcases cDeliver_run cfg stamped present found with
      ⟨_, e', more, _, delivered, stamped', _⟩ | ⟨_, skipped⟩
    · exact ⟨e', delivered, _, stamped'⟩
    · exact ⟨e, skipped, events, stamped⟩

/-- The search of a delivery: the matching subscriptions of connected clients are sent the
message, each once. -/
theorem subSearch_delivers {e : State} (agrees : Agrees d w live)
    (bounded : ∀ c p, d.clients c = some p → c < d.nextClient ∧ p.numSubs ≤ maxSubs)
    (found : d.messages m = some mp) (fits : Fits mp.message) (plain : Plain mp.message.topic)
    (stamped : Stamped d e []) :
    ∃ final events sent,
      (subSearch (table w) (cDeliver cfg m) d.listBound mp.message.topic).run e =
          (.ok (topicHits (entriesOf live) mp.message.topic).length, final) ∧
        Stamped d final events ∧ Deliveries d sent events ∧
        (sent.map Prod.fst).Perm (receivers d live mp.message.topic) ∧
        ∀ entry ∈ sent, Packs d mp.message entry.1 entry.2 := by
  have hits := agrees.holds.topicHits_perm plain.noPlus plain.noHash plain.noDollar
  obtain ⟨final, called, _, searched⟩ := agrees.holds.search_hits (serves_cDeliver cfg agrees found)
    (agrees.length_le bounded) plain.nulFree ⟨[], stamped⟩
  have there : ∀ ref ∈ topicHits (entriesOf live) mp.message.topic, (d.clients ref.1).isSome := by
    intro ref member
    obtain ⟨filter, listed⟩ := mem_map_fst.mp (hits.subset member)
    obtain ⟨p, present, _⟩ := (agrees.entries ref filter).mp (List.mem_of_mem_filter listed)
    simp [present]
  obtain ⟨final', events, sent, ran, stamped', deliveries, listed, packs⟩ :=
    each_cDeliver cfg stamped there found fits
  obtain rfl : final = final' := (Prod.mk.inj (called.symm.trans ran)).2
  refine ⟨final, events, sent, searched, stamped', deliveries, ?_, packs⟩
  rw [listed]
  refine (hits.filter (connectedAt d)).trans (List.Perm.of_eq ?_)
  rw [receivers, List.filter_map, List.filter_filter]
  exact congrArg (List.map Prod.fst) (List.filter_congr fun entry _ => Bool.and_comm _ _)

/-- Whether the worker is the one of the publisher. -/
def collects (w : Nat) (d : State) : Owner → Bool
  | .me _ => false
  | .client c => (d.clients c).map Client.worker = some w

/-- The message is marked done, and the worker of its publisher collects it. -/
theorem deliverDone_state (w : Nat) (found : d.messages m = some mp) :
    ((deliverDone w m).run d).2 =
      let done := d.putMessage m { mp with notDone := Function.update mp.notDone w false }
      if collects w d mp.owner then
        { done with gcQ := Function.update d.gcQ w (d.gcQ w ++ [m]) }
      else done := by
  rw [deliverDone, Cmd.bind_ok (message_run found)]
  cases owner : mp.owner with
  | me worker => simp [ownerHere, collects]
  | client c =>
      cases present : d.clients c with
      | none => simp [ownerHere, collects, client, Cmd.run_bind, State.putMessage, present]
      | some p =>
          by_cases here : p.worker = w <;>
            simp [ownerHere, collects, client, Cmd.run_bind, State.putMessage, present, here]

/-- Marking a message done logs nothing. -/
theorem deliverDone_log (w : Nat) (m : MsgId) (d : State) :
    ((deliverDone w m).run d).2.log = d.log := by
  cases found : d.messages m with
  | none => simp [deliverDone, message, Cmd.run_bind, found]
  | some mp =>
      rw [deliverDone_state w found]
      dsimp only
      split
      · rfl
      · rfl

/-- A round of `w_deliver` whose search comes to an end. -/
theorem wDeliverRound_state {rest : List MsgId} (queued : d.msgQ w = m :: rest)
    (found : d.messages m = some mp) {hits : Nat} {final : State}
    (searched : (subSearch (table w) (cDeliver cfg m) d.listBound mp.message.topic).run
      { d with msgQ := Function.update d.msgQ w rest } = (.ok hits, final)) :
    ((wDeliverRound cfg w).run d).2 = ((deliverDone w m).run final).2 := by
  let e : State := { d with msgQ := Function.update d.msgQ w rest }
  have popped : (wMessagePop w).run d = (.ok (some m), e) := by
    simp [wMessagePop, queued, message, Cmd.run_bind, found, e]
  have read : (message m).run e = (.ok mp, e) := message_run found
  have searches : (deliverMessage cfg w m).run e = (deliverDone w m).run final := by
    rw [deliverMessage, Cmd.bind_ok read, Cmd.run_get_bind]
    exact Cmd.bind_ok searched
  rw [wDeliverRound, Cmd.bind_ok popped]
  dsimp only
  rw [Cmd.run_bind, searches]
  cases done : (deliverDone w m).run final with
  | mk outcome last => cases outcome <;> rfl

/-- One round of `w_deliver`. -/
theorem wDeliverRound_delivers (agrees : Agrees d w live)
    (bounded : ∀ c p, d.clients c = some p → c < d.nextClient ∧ p.numSubs ≤ maxSubs)
    {rest : List MsgId} (queued : d.msgQ w = m :: rest) (found : d.messages m = some mp)
    (fits : Fits mp.message) (plain : Plain mp.message.topic) (good : d.answers.Good) :
    ∃ events sent, ((wDeliverRound cfg w).run d).2.log = d.log ++ events ∧ Deliveries d sent events ∧
      (sent.map Prod.fst).Perm (receivers d live mp.message.topic) ∧
      ∀ entry ∈ sent, Packs d mp.message entry.1 entry.2 := by
  have agrees' : Agrees { d with msgQ := Function.update d.msgQ w rest } w live :=
    ⟨agrees.holds, agrees.entries⟩
  obtain ⟨final, events, sent, searched, stamped, deliveries, listed, packs⟩ :=
    subSearch_delivers cfg agrees' bounded found fits plain (Stamped.refl good)
  refine ⟨events, sent, ?_, deliveries.congr rfl, listed, packs⟩
  rw [wDeliverRound_state cfg queued found searched, deliverDone_log, stamped.log]

/-! ### From the bytes to the queues -/

/-- The broker as the host of a client's parser. -/
def parserHost (c : ClientId) : Host State where
  allowAnonymous := cfg.allowAnonymous
  session := do
    let p ← client c
    pure p.session
  setSession s := setSession c s
  malloc := malloc
  refused s := emit (.refused c s.header.msgType)
  callback _ request := callback cfg c request
  disconnect _ := cDisconnectNormal cfg c (lit "disconnect")

private theorem parserHost_setHeader (c : ClientId) : (parserHost cfg c).setHeader = setHeader c := by
  unfold Host.setHeader Broker.setHeader
  refine congrArg Cmd.mk (funext fun b => ?_)
  cases present : b.clients c with
  | none => simp [parserHost, client, Cmd.run_bind, present]
  | some p => simp [parserHost, setSession, updateClient, client, Cmd.run_bind, present]

private theorem parserHost_callbackReturned (c : ClientId) (rv : Nat) :
    (parserHost cfg c).callbackReturned rv = callbackReturned c rv := by
  cases rv with
  | zero => rw [Host.callbackReturned, callbackReturned, parserHost_setHeader]
  | succ rv => rfl

private theorem parserHost_round (c : ClientId) (byte : Byte) :
    (parserHost cfg c).round byte = parserRound cfg c byte := by
  refine congrArg Cmd.mk (funext fun b => ?_)
  show ((parserHost cfg c).round byte).run b = (parserRound cfg c byte).run b
  cases present : b.clients c with
  | none => simp [Host.round, parserRound, parserHost, client, Cmd.run_bind, present]
  | some p =>
      have reads : (parserHost cfg c).session.run b = (.ok p.session, b) := by
        simp [parserHost, client, Cmd.run_bind, present]
      rw [Host.round, Cmd.bind_ok reads, parserRound, Cmd.bind_ok (client_run present)]
      refine congrArg (fun rest => (malloc >>= rest).run b) (funext fun mallocOk => ?_)
      show (parserHost cfg c).conclude (parserByte cfg.allowAnonymous mallocOk p.session byte) = _
      cases parserByte cfg.allowAnonymous mallocOk p.session byte with
      | next s => rfl
      | ret s rv => rfl
      | call s request =>
          rw [Host.conclude, funext (parserHost_callbackReturned cfg c)]
          rfl
      | disconnect s =>
          rw [Host.conclude, parserHost_setHeader]
          rfl
      | stop fault => rfl

/-- The loop of the broker is the loop over this host. -/
theorem parserHost_execute (c : ClientId) (buf : List Byte) :
    (parserHost cfg c).mqttParserExecute buf = mqttParserExecute cfg c buf := by
  induction buf with
  | nil => rfl
  | cons byte buf inductionHypothesis =>
      rw [Host.mqttParserExecute, mqttParserExecute, parserHost_round]
      congr 1
      funext value
      cases value with
      | none => exact inductionHypothesis
      | some rv => rfl

/-- The state in which the client's parser has got to a session, with allocations served. -/
def Parsing (b : State) (c : ClientId) (p : Client) (s : Session) (d : State) : Prop :=
  ∃ mallocs : List Bool, (∀ ok ∈ mallocs, ok = true) ∧
    d = { b.putClient c { p with session := s } with answers := { b.answers with mallocs } }

private theorem parserHost_answers (b : State) (c : ClientId) (p : Client) :
    (parserHost cfg c).Answers true (Parsing b c p) where
  session := by
    rintro s _ ⟨mallocs, _, rfl⟩
    simp [parserHost, client, Cmd.run_bind, State.putClient]
  setSession := by
    rintro s _ next ⟨mallocs, served, rfl⟩
    refine ⟨_, updateClient_run (p := { p with session := s }) (by simp [State.putClient]) _, mallocs,
      served, ?_⟩
    simp [State.putClient]
  malloc := by
    rintro s _ ⟨mallocs, served, rfl⟩
    refine ⟨{ b.putClient c { p with session := s } with
        answers := { b.answers with mallocs := mallocs.tail } }, ?_, mallocs.tail, ?_, rfl⟩
    · have head : mallocs.headD true = true := by
        cases mallocs with
        | nil => rfl
        | cons ok rest => exact served ok (by simp)
      show (malloc.run _) = _
      simp only [malloc, Cmd.run_get_bind, Cmd.run_modify_bind, Cmd.run_pure, head]
    · exact fun ok member => served ok (List.mem_of_mem_tail member)

/-- An acknowledgement publishes nothing. -/
theorem acknowledge_run (present : d.clients c = some p) (notClosing : p.state ≠ .closing)
    (good : d.answers.Good) (mp : Message) :
    ∃ d' events ka, (acknowledge cfg c mp).run d = (.ok 0, { d' with ka }) ∧ Heard d d' events ∧
      ∀ e, Event.published e ∉ events := by
  have replies : ∀ type, ∃ d' events ka,
      (reply cfg c (encodeAck sendBufLen type 0 mp.packetId)).run d = (.ok 0, { d' with ka }) ∧
        Heard d d' events ∧ ∀ e, Event.published e ∉ events := by
    intro type
    obtain ⟨d', events, sent, heard, carried⟩ := cSendData_carried cfg present notClosing good
      (show encodeAck sendBufLen type 0 mp.packetId ≠ [] by simp [encodeAck, sendBufLen])
      (length_encodeAck_lt _ _ _ _)
    have updated := kaUpdate_run (heard.clients ▸ present)
    exact ⟨d', events, _, (Cmd.bind_ok sent).trans (Cmd.bind_ok updated), heard, by
      cases carried <;> simp⟩
  unfold acknowledge
  split
  · exact replies .puback
  · split
    · exact replies .pubrec
    · exact ⟨d, [], _, Cmd.bind_ok (kaUpdate_run present), .refl good, by simp⟩

/-- `on_recv_publish` queues a message that is allowed to all workers, once, and returns 0. -/
theorem onRecvPublish_queues {draft : Draft} (present : d.clients c = some p)
    (drafted : p.session.publish.mp = some draft)
    (granted : allowed cfg d.answers.db p .pub draft.message.topic = true) (dup : draft.dup ≤ 1)
    (notClosing : p.state ≠ .closing) (good : d.answers.Good) :
    ∃ d', (onRecvPublish cfg c).run d = (.ok 0, d') ∧ (d'.clients c).isSome ∧
      d'.messages d.nextMsg =
        some (d.freshMessage cfg (.client c) draft.message) ∧
      (∀ w < cfg.numWorkers, d'.msgQ w = d.msgQ w ++ [d.nextMsg]) ∧
      d'.log.count (.published c) = d.log.count (.published c) + 1 := by
  -- the access check leaves its mark on the client, and no more
  obtain ⟨q, touched, open'⟩ : ∃ q, (touchAuthInfo cfg c d.answers.db .pub draft.message.topic).run d =
      (.ok (), d.putClient c q) ∧ q.state ≠ .closing := by
    refine ⟨_, updateClient_run present _, ?_⟩
    split <;> exact notClosing
  let e : State := ((d.putClient c q).emit (.published c)).queueMessage cfg (.client c) draft.message
  have there : e.clients c = some q := by simp [e, State.putClient, State.emit, State.queueMessage]
  have read : (database).run d = (.ok d.answers.db, d) := rfl
  have queued : (workersQueueMessage cfg (.client c) draft.message).run
      ((d.putClient c q).emit (.published c)) = (.ok (), e) := by
    simp [workersQueueMessage, assert, Draft.message, dup, e]
  obtain ⟨d', events, ka, acked, heard, silent⟩ := acknowledge_run cfg there open'
    (show e.answers.Good from good) draft.message
  refine ⟨{ d' with ka }, ?_, ?_, ?_, ?_, ?_⟩
  · rw [onRecvPublish, Cmd.bind_ok (client_run present), drafted]
    dsimp only
    rw [Cmd.bind_ok read, Cmd.bind_ok touched, if_pos granted, emit, Cmd.run_modify_bind,
      Cmd.bind_ok queued, acked]
  · rw [heard.clients, there]
    rfl
  · rw [heard.same]
    exact Function.update_self _ _ _
  · intro w inside
    rw [heard.same]
    exact if_pos inside
  · rw [heard.same]
    have logged : e.log = d.log ++ [.published c] := rfl
    simp [logged, List.count_eq_zero.mpr (silent c)]

/-- A PUBLISH that is allowed ends up on the queue of every worker. -/
theorem cParse_publish (present : b.clients c = some p) (notClosing : p.state ≠ .closing)
    (idle : p.session.state = .header) (good : b.answers.Good)
    (served : ∀ ok ∈ b.answers.mallocs, ok = true) {mp : Message} (publishable : Publishable mp)
    {qos msgId len : Nat} (qosBits : qos ≤ 3) (idBits : msgId < 2 ^ 16)
    (encoded : encodePublish len mp qos msgId ≠ [])
    (granted : allowed cfg b.answers.db p .pub mp.topic = true) :
    ∃ b', (cParse cfg c (encodePublish len mp qos msgId)).run b = (.ok (), b') ∧
      b'.messages b.nextMsg =
        some (b.freshMessage cfg (.client c) (received mp qos msgId)) ∧
      ∀ w < cfg.numWorkers, b'.msgQ w = b.msgQ w ++ [b.nextMsg] := by
  obtain ⟨front, byte, next, final, draft, parts, moves, calls, user, drafted, read⟩ :=
    parse_encodePublish cfg.allowAnonymous idle publishable qosBits idBits encoded
  have answers := parserHost_answers cfg b c p
  have start : Parsing b c p p.session b := by
    refine ⟨b.answers.mallocs, served, ?_⟩
    simp [State.putClient, ← present]
  obtain ⟨middle, held, follows⟩ := answers.execute_advance start moves
  obtain ⟨before, ⟨mallocs, _, rfl⟩, runs⟩ := answers.round_call held calls
  have allowed' : allowed cfg b.answers.db { p with session := final } .pub draft.message.topic = true := by
    have same : ({ p with session := final } : Client).principal = p.principal := by
      simp [Client.principal, user]
    rw [read, allowed, same]
    exact granted
  have dup : draft.dup ≤ 1 := by
    rw [show draft.dup = mp.dup from congrArg Message.dup read]
    exact publishable.dup
  obtain ⟨d, returns, there, queued, queues, _⟩ := onRecvPublish_queues cfg
    (d := { b.putClient c { p with session := final } with answers := { b.answers with mallocs } })
    (Function.update_self _ _ _) drafted allowed' dup notClosing good
  obtain ⟨q, found⟩ := Option.isSome_iff_exists.mp there
  have completes : ((parserHost cfg c).round byte).run middle =
      (.ok none, d.putClient c { q with session.state := .header }) := by
    rw [runs]
    refine (Cmd.bind_ok returns).trans ?_
    rw [parserHost_callbackReturned, callbackReturned]
    exact Cmd.bind_ok (updateClient_run found _)
  refine ⟨d.putClient c { q with session.state := .header }, ?_, ?_, queues⟩
  · have ran : (mqttParserExecute cfg c (encodePublish len mp qos msgId)).run b =
        (.ok 0, d.putClient c { q with session.state := .header }) := by
      rw [← parserHost_execute, parts, follows, Host.execute_cons_none _ completes]
      rfl
    rw [cParse, Cmd.bind_ok ran]
    rfl
  · rw [← read]
    exact queued

/-- A packet for a subscription is read back as the message, with the lower QoS. -/
theorem Packs.decodes {mp : Message} {ref : SubRef} {packet : List Byte} (packs : Packs d mp ref packet)
    (publishable : Publishable mp) (fits : Fits mp) (qosBits : mp.origQos ≤ 3) :
    ∃ q msgId, d.clients ref.1 = some q ∧ decodePublish packet =
      some { mp with origQos := min mp.origQos (q.subscriptions ref.2).qos, packetId := msgId } := by
  obtain ⟨q, msgId, present, small, rfl⟩ := packs
  have lower : min mp.origQos (q.subscriptions ref.2).qos ≤ mp.origQos := Nat.min_le_left _ _
  refine ⟨q, if min mp.origQos (q.subscriptions ref.2).qos > 0 then msgId else 0, present, ?_⟩
  exact decodePublish_encodePublish publishable (lower.trans qosBits) small (fits.encoded lower msgId)

/-- End-to-end delivery. A PUBLISH that is allowed is queued to every worker. Whenever a
worker comes to the message, every connected client with a matching subscription is sent one
PUBLISH for it, which decodes to the same topic and payload with the lower QoS, and nothing
else is sent. -/
theorem publish_reaches_subscribers (present : b.clients c = some p) (notClosing : p.state ≠ .closing)
    (idle : p.session.state = .header) (good : b.answers.Good)
    (served : ∀ ok ∈ b.answers.mallocs, ok = true) (mp : Message) (publishable : Publishable mp)
    (plain : Plain mp.topic) (qos msgId len : Nat) (qosBits : qos ≤ 2) (idBits : msgId < 2 ^ 16)
    (encoded : encodePublish len mp qos msgId ≠ [])
    (small : 1 + (encodeRemLen (publishLen qos mp.topic.length mp.payload.length)).length +
      publishLen qos mp.topic.length mp.payload.length ≤ sendBufLen)
    (granted : allowed cfg b.answers.db p .pub mp.topic = true) :
    ∃ b', (cParse cfg c (encodePublish len mp qos msgId)).run b = (.ok (), b') ∧
      b'.messages b.nextMsg =
        some (b.freshMessage cfg (.client c) (received mp qos msgId)) ∧
      ∀ w < cfg.numWorkers, b'.msgQ w = b.msgQ w ++ [b.nextMsg] ∧
        ∀ (d : State) (live : List (SubRef × List Byte)) (queued : MsgRec) (rest : List MsgId),
          Agrees d w live →
          (∀ c p, d.clients c = some p → c < d.nextClient ∧ p.numSubs ≤ maxSubs) →
          d.msgQ w = b.nextMsg :: rest → d.messages b.nextMsg = some queued →
          queued.message = received mp qos msgId → d.answers.Good →
          ∃ events sent, ((wDeliverRound cfg w).run d).2.log = d.log ++ events ∧
            Deliveries d sent events ∧ (sent.map Prod.fst).Perm (receivers d live mp.topic) ∧
            ∀ entry ∈ sent, ∃ q id, d.clients entry.1.1 = some q ∧ decodePublish entry.2 =
              some { mp with origQos := min qos (q.subscriptions entry.1.2).qos, packetId := id } := by
  obtain ⟨b', parsed, stored, queues⟩ := cParse_publish cfg present notClosing idle good served publishable
    (by omega) idBits encoded granted
  have fits : Fits (received mp qos msgId) := packetLen_le small (by decide) (by decide)
  have publishable' : Publishable (received mp qos msgId) := by
    obtain ⟨⟨topicPositive, topicShort, payloadPositive, dup, retain⟩, payloadShort⟩ := publishable
    exact ⟨⟨topicPositive, topicShort, payloadPositive, dup, retain⟩, payloadShort⟩
  refine ⟨b', parsed, stored, fun w inside => ⟨queues w inside, ?_⟩⟩
  intro d live queued rest agrees bounded waits found same good
  obtain ⟨events, sent, logged, deliveries, listed, packs⟩ := wDeliverRound_delivers cfg agrees bounded
    waits found (same ▸ fits) (same ▸ plain) good
  rw [same] at listed packs
  refine ⟨events, sent, logged, deliveries, listed, fun entry member => ?_⟩
  exact (packs entry member).decodes publishable' fits (Nat.le_succ_of_le qosBits)

/-- A client publishes to a topic that another one, which is connected, has subscribed. -/
theorem publish_reaches_subscribers_one :
    ∃ (b b' d : State) (events : List Event) (sent : List (SubRef × List Byte)),
      (cParse (oneWorker true) 0 [0x32, 6, 0, 1, 97, 0, 7, 98]).run b = (.ok (), b') ∧
        b'.msgQ 0 = [0] ∧ ((wDeliverRound (oneWorker true) 0).run d).2.log = d.log ++ events ∧
        Deliveries d sent events ∧ (1, 0) ∈ sent.map Prod.fst := by
  have bytes : encodePublish 1500 ⟨0, 1, 0, 0, [97], [98]⟩ 1 7 = [0x32, 6, 0, 1, 97, 0, 7, 98] := by
    decide +kernel
  have ran : (((tableUses (oneWorker true) 0).restrict Tidy).run start
      [.accept false false [], .accept false false [], .subscribe 1 (filtering [lit "a"]) silent]).map
        (fun run => ((run.state.clients 0).map fun p => (p.state, p.session.state),
          (run.state.clients 1).map fun p => (p.numSubs, (p.subscriptions 0).filter, p.worker))) =
      some (some (.opened, .header), some (1, lit "a", 0)) := by
    decide +kernel
  have calm : (((tableUses (oneWorker true) 0).restrict Tidy).run start
      [.accept false false [], .accept false false [], .subscribe 1 (filtering [lit "a"]) silent]).map
        (fun run => decide (run.state.answers.Good ∧ run.state.answers.mallocs = [] ∧
          run.state.msgQ 0 = [] ∧ run.state.nextMsg = 0)) = some true := by
    decide +kernel
  obtain ⟨run, reached, seen⟩ := Option.map_eq_some_iff.mp ran
  obtain ⟨publisher, subscriber⟩ := Prod.mk.inj seen
  rw [reached, Option.map_some, Option.some.injEq, decide_eq_true_eq] at calm
  obtain ⟨good, mallocs, nothing, first⟩ := calm
  obtain ⟨p, present, opened⟩ := Option.map_eq_some_iff.mp publisher
  obtain ⟨q, there, entry⟩ := Option.map_eq_some_iff.mp subscriber
  simp only [Prod.mk.injEq] at opened entry
  have linked := linked_reachable (System.Reachable.run (.start rfl) reached)
  -- the subscriber's CONNECT has been accepted
  let d : State := { run.state.putClient 1 { q with state := .connected } with
    msgQ := fun _ => [0]
    messages := fun _ => some ⟨⟨0, 1, 0, 7, [97], [98]⟩, .client 0, fun _ => true⟩ }
  have linked' : Linked 0 d := by
    have connected : Linked 0 (run.state.putClient 1 { q with state := .connected }) :=
      linked.putClient there rfl rfl fun _ => rfl
    exact connected.congr rfl rfl rfl rfl
  obtain ⟨live, agrees⟩ := linked'.agrees
  obtain ⟨b', parsed, _, queues⟩ := publish_reaches_subscribers (oneWorker true) present
    (by simp [opened]) opened.2 good (by simp [mallocs]) ⟨0, 1, 0, 0, [97], [98]⟩
    ⟨⟨by decide, by decide, by decide, by decide, rfl⟩, by decide⟩
    ⟨by decide, by decide, by decide, by decide⟩ 1 7 1500 (by decide) (by decide) (by rw [bytes]; simp)
    (by decide +kernel) rfl
  obtain ⟨queued, delivers⟩ := queues 0 (by decide)
  obtain ⟨events, sent, logged, deliveries, listed, _⟩ := delivers d live _ [] agrees
    (fun c p found => (linked'.clients c p found).2) (by rw [first]) rfl rfl good
  rw [bytes] at parsed
  refine ⟨run.state, b', d, events, sent, parsed, by rw [queued, nothing, first]; rfl, logged, deliveries,
    listed.symm.subset ?_⟩
  refine mem_map_fst.mpr ⟨lit "a", List.mem_filter.mpr ⟨?_, ?_⟩⟩
  · refine (agrees.entries _ _).mpr ⟨{ q with state := .connected }, by simp [d, State.putClient], ?_⟩
    simp [entry]
    decide
  · have connected : connectedAt d (1, 0) = true := by simp [connectedAt, d, State.putClient]
    simp only [connected, Bool.and_true]
    decide +kernel

end FbBroker.Broker
