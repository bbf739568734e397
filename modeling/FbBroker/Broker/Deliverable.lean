import FbBroker.Broker.Survival

/-!
Contract: the packet of a call of `c_deliver`, and the messages that have one.

Owns the PUBLISH that a connected client is owed for one of its subscriptions,
what `c_deliver` does with it under any answers of the environment, and the size
up to which there is one: the parser takes longer messages than the send buffer
holds, and `c_deliver` gives `c_send_data` nothing for them.

Does not own which subscriptions a message matches.
-/

set_option autoImplicit false

namespace FbBroker.Broker

open FbBroker.Lib FbBroker.Packet FbBroker.Parser

/-! ### The packet of a delivery -/

/-- What `c_deliver` encodes for a subscription. -/
structure Delivery where
  message : Message
  qos : Nat
  msgId : Nat

def Delivery.packet (delivery : Delivery) : List Byte :=
  encodePublish sendBufLen delivery.message delivery.qos delivery.msgId

/-- The counter `msg_id` behind a delivery. -/
def Client.countMsgId (p : Client) (qos : Nat) : Nat :=
  if qos > 0 then (p.msgId + 1) % 2 ^ 16 else p.msgId

/-- The delivery of a message for a subscription of the client. -/
def Client.delivery (p : Client) (mp : Message) (i : Nat) : Delivery :=
  let qos := min mp.origQos (p.subscriptions i).qos
  ⟨mp, qos, if qos > 0 then p.countMsgId qos else 0⟩

/-- The state in which the packet is sent. -/
def State.stamp (b : State) (c : ClientId) (p : Client) (qos : Nat) : State :=
  b.putClient c { p with msgId := p.countMsgId qos }

variable {cfg : Config} {c : ClientId} {b d e : State} {p : Client} {m : MsgId} {mp : MsgRec}
  {ref : SubRef}

theorem stamp_self (b : State) (c : ClientId) (p : Client) (qos : Nat) :
    (b.stamp c p qos).clients c = some { p with msgId := p.countMsgId qos } := by
  simp [State.stamp, State.putClient]

private theorem nextMsgId_stamp (present : b.clients c = some p) (mp : Message) (i : Nat) :
    (nextMsgId c (p.delivery mp i).qos).run b =
      (.ok (p.delivery mp i).msgId, b.stamp c p (p.delivery mp i).qos) := by
  rw [nextMsgId_run present]
  unfold Client.delivery State.stamp Client.countMsgId
  dsimp only
  split
  · rfl
  · rw [State.putClient, Function.update_eq_self_iff.mpr present.symm]

/-- For a connected client `c_deliver` counts, encodes and sends. -/
theorem cDeliver_eq (present : b.clients ref.1 = some p) (connected : p.state = .connected)
    (found : b.messages m = some mp) :
    let delivery := p.delivery mp.message ref.2
    (cDeliver cfg m ref).run b =
      (sendDataLoop cfg ref.1 delivery.packet delivery.packet.length delivery.packet.length >>=
          fun _ => pure ()).run
        ((b.stamp ref.1 p delivery.qos).emit (.packet ref.1 delivery.packet)) := by
  intro delivery
  rw [cDeliver, Cmd.bind_ok (client_run present), connected]
  show (deliverTo cfg m ref).run b = _
  rw [deliverTo, Cmd.bind_ok (client_run present), Cmd.bind_ok (message_run found)]
  refine (Cmd.bind_ok (nextMsgId_stamp present mp.message ref.2)).trans ?_
  show (cSendData cfg ref.1 delivery.packet >>= fun _ => pure ()).run
    (b.stamp ref.1 p delivery.qos) = _
  rw [cSendData, Cmd.bind_assoc, Cmd.bind_ok (client_run (stamp_self b ref.1 p delivery.qos)), connected]
  rfl

/-- The packet is the first thing on record behind the call, whatever the environment answers. -/
theorem cDeliver_records (present : b.clients ref.1 = some p) (connected : p.state = .connected)
    (found : b.messages m = some mp) :
    b.log ++ [.packet ref.1 (p.delivery mp.message ref.2).packet] <+:
      ((cDeliver cfg m ref).run b).2.log := by
  rw [cDeliver_eq present connected found]
  have sends : (contract cfg true .talk ref.1).Keeps (fun _ => True)
      (sendDataLoop cfg ref.1 (p.delivery mp.message ref.2).packet
          (p.delivery mp.message ref.2).packet.length (p.delivery mp.message ref.2).packet.length >>=
        fun _ => pure ()) :=
    .bind (sendDataLoop_keeps (.inl rfl) _ _ (Nat.le_refl _)) fun _ _ _ _ => .pure trivial
  exact (sends ((b.stamp ref.1 p (p.delivery mp.message ref.2).qos).emit _) (.inl rfl)).1.log

/-- Where nothing was encoded the call returns without having sent anything. -/
theorem cDeliver_dropped (present : b.clients ref.1 = some p) (connected : p.state = .connected)
    (found : b.messages m = some mp) (nothing : (p.delivery mp.message ref.2).packet = []) :
    (cDeliver cfg m ref).run b =
      (.ok (), (b.stamp ref.1 p (p.delivery mp.message ref.2).qos).emit (.packet ref.1 [])) := by
  rw [cDeliver_eq present connected found, nothing]
  rfl

/-! ### The size of a message -/

/-- The longest topic and payload, taken together, of a packet that is encoded. -/
def deliverable (qos : Nat) : Nat :=
  if qos > 0 then 1493 else 1495

theorem Delivery.packet_ne_nil_iff (delivery : Delivery) :
    delivery.packet ≠ [] ↔
      delivery.message.topic.length + delivery.message.payload.length ≤ deliverable delivery.qos := by
  rw [Delivery.packet, encodePublish_ne_nil_iff]
  unfold packetLen publishLen deliverable sendBufLen
  dsimp only
  split_ifs <;> omega

/-! ### Accepted messages -/

/-- A stored message, under an id that is not given out again. -/
def Stores (m : MsgId) (mp : Message) (b : State) : Prop :=
  m < b.nextMsg ∧ ∃ entry, b.messages m = some entry ∧ entry.message = mp

theorem Change.stores {closes : Bool} {task : Task} {message : Message}
    (change : Change cfg closes task c b d) (notServing : ∀ m, task ≠ .deliver m)
    (stores : Stores m message b) : Stores m message d := by
  obtain ⟨old, entry, found, same⟩ := stores
  cases change with
  | queue queues =>
      refine ⟨Nat.lt_succ_of_lt old, entry, ?_, same⟩
      simpa [State.queueMessage, Function.update_of_ne (Nat.ne_of_lt old)] using found
  | retire serves => exact absurd serves.choose_spec (notServing _)
  | _ => exact ⟨old, entry, found, same⟩

private theorem workersQueueMessage_ok {owner : Owner} {message : Message}
    (returns : (workersQueueMessage cfg owner message).run b = (.ok (), d)) :
    d = b.queueMessage cfg owner message := by
  unfold workersQueueMessage assert at returns
  split at returns
  · exact (Prod.mk.inj returns).2.symm
  · cases (Prod.mk.inj returns).1

/-- A PUBLISH that `on_recv_publish` takes is stored as the parser has read it. -/
theorem onRecvPublish_stores {draft : Draft} {rv : Nat} (present : b.clients c = some p)
    (drafted : p.session.publish.mp = some draft)
    (granted : allowed cfg b.answers.db p .pub draft.message.topic = true)
    (returns : (onRecvPublish cfg c).run b = (.ok rv, d)) : Stores b.nextMsg draft.message d := by
  have read : (database).run b = (.ok b.answers.db, b) := rfl
  rw [onRecvPublish, Cmd.bind_ok (client_run present), drafted] at returns
  dsimp only at returns
  rw [Cmd.bind_ok read, touchAuthInfo, Cmd.bind_ok (updateClient_run present _), if_pos granted, emit,
    Cmd.run_modify_bind] at returns
  obtain ⟨_, queued, isQueued, acknowledged⟩ := Cmd.ok_of_bind returns
  have stores : Stores b.nextMsg draft.message queued := by
    rw [workersQueueMessage_ok isQueued]
    exact ⟨Nat.lt_succ_self _, _, Function.update_self _ _ _, rfl⟩
  have chain : Evolves cfg true (.publish c draft.message) c queued
      ((acknowledge cfg c draft.message).run queued).2 :=
    (acknowledge_keeps draft.message queued (.inl rfl)).1
  rw [acknowledged] at chain
  refine Evolves.invariant (fun change => change.stores ?_) chain stores
  intro m same
  cases same

/-- A PUBLISH that was accepted is sent to a connected subscriber if and only if topic and
payload fit the send buffer; a longer one is dropped without a word. -/
theorem accepted_delivered_iff (cfg : Config) (b d : State) (c : ClientId) (p : Client) (draft : Draft)
    (rv : Nat) (present : b.clients c = some p) (drafted : p.session.publish.mp = some draft)
    (granted : allowed cfg b.answers.db p .pub draft.message.topic = true)
    (accepted : (onRecvPublish cfg c).run b = (.ok rv, d)) :
    (∃ queued, d.messages b.nextMsg = some queued ∧ queued.message = draft.message) ∧
      ∀ (e : State) (queued : MsgRec) (ref : SubRef) (q : Client),
        e.messages b.nextMsg = some queued → queued.message = draft.message →
        e.clients ref.1 = some q → q.state = .connected →
        let packet := (q.delivery draft.message ref.2).packet
        e.log ++ [.packet ref.1 packet] <+: ((cDeliver cfg b.nextMsg ref).run e).2.log ∧
          (packet ≠ [] ↔ draft.message.topic.length + draft.message.payload.length ≤
            deliverable (min draft.message.origQos (q.subscriptions ref.2).qos)) ∧
          (packet = [] → ∃ final, (cDeliver cfg b.nextMsg ref).run e = (.ok (), final) ∧
            final.log = e.log ++ [.packet ref.1 []]) := by
  refine ⟨(onRecvPublish_stores present drafted granted accepted).2, ?_⟩
  intro e queued ref q found same there connected packet
  have records : e.log ++ [.packet ref.1 (q.delivery queued.message ref.2).packet] <+:
      ((cDeliver cfg b.nextMsg ref).run e).2.log := cDeliver_records there connected found
  rw [same] at records
  refine ⟨records, Delivery.packet_ne_nil_iff _, fun nothing => ?_⟩
  refine ⟨_, cDeliver_dropped there connected found ?_, rfl⟩
  rw [same]
  exact nothing

/-- A client that has subscribed at QoS 1 publishes one byte at QoS 1. -/
theorem accepted_delivered_iff_byte :
    ∃ (b d e : State) (q : Client), (onRecvPublish (oneWorker true) 0).run b = (.ok 0, d) ∧
      e.messages 0 = d.messages 0 ∧ e.clients 0 = some q ∧
      (q.delivery ⟨0, 1, 0, 7, [97], [98]⟩ 0).packet ≠ [] ∧
      e.log ++ [.packet 0 (q.delivery ⟨0, 1, 0, 7, [97], [98]⟩ 0).packet] <+:
        ((cDeliver (oneWorker true) 0 (0, 0)).run e).2.log := by
  let draft : Draft := { messageCreate 1 1 0 1 0 7 with topic := fun _ => 97, payload := fun _ => 98 }
  let q : Client := { cNew 0 false false [] with
    state := .connected
    numSubs := 1
    subscriptions := fun _ => ⟨[97], 1⟩
    session := { mqttParserInit with publish := { mqttParserInit.publish with mp := some draft } } }
  let b : State := start.state.putClient 0 q
  have accepted : (onRecvPublish (oneWorker true) 0).run b =
      (.ok 0, ((onRecvPublish (oneWorker true) 0).run b).2) := Prod.ext (by decide +kernel) rfl
  have message : draft.message = ⟨0, 1, 0, 7, [97], [98]⟩ := by decide
  obtain ⟨⟨queued, found, same⟩, delivers⟩ :=
    accepted_delivered_iff (oneWorker true) b _ 0 q draft 0 rfl rfl rfl accepted
  let e : State := { b with messages := fun _ => some queued }
  obtain ⟨records, sent, -⟩ := delivers e queued (0, 0) q rfl same rfl rfl
  rw [message] at records sent
  exact ⟨b, _, e, q, accepted, found.symm, rfl, sent.mpr (by decide), records⟩

/-- A message of 1494 bytes, topic and payload taken together, is acknowledged with a PUBACK,
but its subscriber, of QoS 1, is sent nothing. -/
theorem accepted_dropped :
    ((broker (oneWorker true)).run start
        [.accept 0 false false [],
          .parse 0 [0x10, 13, 0, 4, 77, 81, 84, 84, 4, 2, 0, 60, 0, 1, 97] silent,
          .parse 0 [0x82, 6, 0, 9, 0, 1, 97, 1] silent,
          .parse 0 ([0x32, 218, 11, 0, 1, 97, 0, 7] ++ List.replicate 1493 98) silent,
          .deliver 0 silent, .deliver 0 silent]).map (fun run => (run.ended, run.state.log)) =
      some (false, [.packet 0 [32, 2, 0, 0], .wire 0 [32, 2, 0, 0], .online 0, .subscribed 0,
        .packet 0 [144, 3, 0, 9, 1], .wire 0 [144, 3, 0, 9, 1], .published 0,
        .packet 0 [64, 2, 0, 7], .wire 0 [64, 2, 0, 7], .packet 0 []]) := by
  decide +kernel

end FbBroker.Broker
