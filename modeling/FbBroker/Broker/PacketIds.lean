import FbBroker.Broker.Deliverable
import FbBroker.Broker.Handshake

/-!
Contract: the packet ids and the DUP flags of what a client is delivered.

Owns that no code but `c_deliver` writes the counter `msg_id` of a client or sends
it a PUBLISH, the history of those calls and its packets in the log, and the law of its
packet ids: the counter has 16 bits and passes 0, and the DUP flag is the
publisher's whatever the QoS was lowered to.

Does not own the sizes of the packets, nor whether they reach the client.
-/

set_option autoImplicit false

namespace FbBroker.Broker

open FbBroker.Lib FbBroker.Packet FbBroker.Parser FbBroker.Dllist FbBroker.TrieMult
open FbBroker.Routing FbBroker.Auth

variable {cfg : Config} {c : ClientId} {b d e : State} {p : Client} {m : MsgId} {mp : MsgRec}
  {deliveries : List Delivery} {ref : SubRef}

/-! ### Code that delivers nothing -/

def isPublish (packet : List Byte) : Bool :=
  (headerOf packet).msgType = .publish

/-- The PUBLISH packets that the log has for a client. -/
def publishesTo (c : ClientId) (log : List Event) : List (List Byte) :=
  (packetsTo c log).filter isPublish

private theorem publishesTo_append (c : ClientId) (log more : List Event) :
    publishesTo c (log ++ more) = publishesTo c log ++ publishesTo c more := by
  rw [publishesTo, packetsTo_append, List.filter_append]
  rfl

/-- The counter of every client that is there is the one it had, and no PUBLISH is sent. -/
structure SameIds (b d : State) : Prop where
  counters : ∀ c p', d.clients c = some p' → ∃ p, b.clients c = some p ∧ p'.msgId = p.msgId
  publishes : ∀ c, publishesTo c d.log = publishesTo c b.log
  next : d.nextClient = b.nextClient

namespace SameIds

theorem of_clients (same : d.clients = b.clients) (log : d.log = b.log)
    (next : d.nextClient = b.nextClient) : SameIds b d where
  counters c p' found := ⟨p', same ▸ found, rfl⟩
  publishes c := by rw [log]
  next := next

theorem trans (first : SameIds b d) (second : SameIds d e) : SameIds b e where
  counters := by
    intro c p' found
    obtain ⟨q, there, sameSecond⟩ := second.counters c p' found
    obtain ⟨p, before, sameFirst⟩ := first.counters c q there
    exact ⟨p, before, sameSecond.trans sameFirst⟩
  publishes c := (second.publishes c).trans (first.publishes c)
  next := second.next.trans first.next

theorem putClient {p' : Client} (present : b.clients c = some p) (same : p'.msgId = p.msgId) :
    SameIds b (b.putClient c p') where
  counters := by
    intro d q found
    by_cases here : d = c
    · subst d
      obtain rfl : p' = q := by simpa [State.putClient] using found
      exact ⟨p, present, same⟩
    · exact ⟨q, by simpa [State.putClient, here] using found, rfl⟩
  publishes _ := rfl
  next := rfl

/-- The clients are as before, or fewer, and what is logged is no PUBLISH. -/
theorem of_log {more : List Event} (counters : ∀ c p', d.clients c = some p' → b.clients c = some p')
    (log : d.log = b.log ++ more) (other : ∀ c packet, Event.packet c packet ∈ more → ¬ isPublish packet)
    (next : d.nextClient = b.nextClient) : SameIds b d where
  counters c p' found := ⟨p', counters c p' found, rfl⟩
  publishes c := by
    have none : publishesTo c more = [] := by
      refine List.filter_eq_nil_iff.mpr fun packet member => ?_
      obtain ⟨event, logged, sent⟩ := List.mem_filterMap.mp member
      cases event with
      | packet d bytes =>
          obtain ⟨-, rfl⟩ : d = c ∧ bytes = packet := by simpa using sent
          exact other d bytes logged
      | _ => cases sent
    rw [log, publishesTo_append, none, List.append_nil]
  next := next

end SameIds

/-- Only a delivery sends a PUBLISH. -/
private theorem packets_not_publish {task : Task} {packet : List Byte} (working : ∀ m, task ≠ .deliver m)
    (packets : Packets task b c packet) : ¬ isPublish packet := by
  cases packets with
  | plain isHeader type =>
      rw [isPublish, isHeader]
      simpa using type.2
  | pubrec publishing qos type =>
      rw [isPublish, type]
      decide
  | publish i msgId found present delivering => exact absurd delivering (working _)

theorem Change.sameIds {closes : Bool} {task : Task} (working : ∀ m, task ≠ .deliver m)
    (change : Change cfg closes task c b d) : SameIds b d := by
  cases change with
  | @emit event emits =>
      refine .of_log (fun _ _ found => found) rfl (fun e packet member => ?_) rfl
      obtain rfl := List.mem_singleton.mp member
      exact packets_not_publish working emits
  | client present updates edits =>
      exact .putClient present (updates.msgId.resolve_right fun ⟨m, delivering⟩ => working m delivering)
  | @close p may present nodes subs unlinked recorded tells =>
      refine .of_log (fun e q found => ?_) rfl (fun e packet member => ?_) rfl
      · by_cases here : e = c
        · simp [here] at found
        · simpa [here] using found
      · rcases tells.mem member with other | other <;> cases other
  | _ => exact .of_clients rfl rfl rfl

theorem Evolves.sameIds {closes : Bool} {task : Task} (working : ∀ m, task ≠ .deliver m)
    (chain : Evolves cfg closes task c b d) : SameIds b d := by
  induction chain with
  | refl => exact .of_clients rfl rfl rfl
  | tail _ change inductionHypothesis => exact inductionHypothesis.trans (change.sameIds working)

/-- The contract of such code; it may stop anywhere. -/
def counting : Contract Fault State where
  rel := SameIds
  pre _ := True
  fault _ _ := True
  refl _ := .of_clients rfl rfl rfl
  trans := SameIds.trans
  keeps _ _ := trivial

private theorem holds_sameIds {Value : Type} {command : Code Value} (same : SameIds b (command.run b).2) :
    counting.Holds (fun _ => True) command b := by
  refine ⟨same, ?_⟩
  cases command.run b with
  | mk result d => cases result <;> trivial

private theorem setHeader_sameIds (c : ClientId) : counting.Keeps (fun _ => True) (setHeader c) :=
  fun _ _ => holds_client_bind (fun _ => trivial) fun _ present => .modify (.putClient present rfl) trivial

private theorem cDisconnect_sameIds (c : ClientId) (reason : List Byte) :
    counting.Keeps (fun _ => True) (cDisconnect cfg c reason) := by
  intro b _
  have chain : Evolves cfg true .talk c b ((cDisconnect cfg c reason).run b).2 :=
    (cDisconnect_keeps reason b (.inl rfl)).1
  exact holds_sameIds (chain.sameIds (by simp))

/-- A round calls back in the course of a task other than a delivery. -/
private theorem parserRound_sameIds (c : ClientId) (byte : Byte) :
    counting.Keeps (fun _ => True) (parserRound cfg c byte) := by
  intro b _
  cases present : b.clients c with
  | none =>
      refine holds_sameIds ?_
      rw [parserRound, Cmd.bind_error (client_freed present)]
      exact .of_clients rfl rfl rfl
  | some p =>
      have parsed : ∀ s, SameIds b (b.parsed c p s) := by
        intro s
        have asked : SameIds b { b with answers.mallocs := b.answers.mallocs.tail } := .of_clients rfl rfl rfl
        have written : SameIds { b with answers.mallocs := b.answers.mallocs.tail } (b.parsed c p s) :=
          .putClient present rfl
        exact asked.trans written
      refine holds_sameIds ?_
      rw [parserRound_run present]
      cases parsing cfg b p byte with
      | next s => exact parsed s
      | ret s rv =>
          refine (parsed s).trans (.of_log (fun _ _ found => found) rfl (fun e packet member => ?_) rfl)
          cases List.mem_singleton.mp member
      | stop fault => exact .of_clients rfl rfl rfl
      | disconnect s =>
          have closes : Evolves cfg true .talk c (b.parsed c p s) _ :=
            (cDisconnectNormal_keeps (lit "disconnect") (b.parsed c p s) (.inl rfl)).1
          have received : counting.Holds (fun _ => True) (disconnectReceived cfg c) (b.parsed c p s) :=
            (holds_sameIds (closes.sameIds (by simp))).bind fun _ d _ _ =>
              (setHeader_sameIds c d trivial).bind fun _ _ _ _ => .pure trivial
          exact (parsed s).trans received.1
      | call s request =>
          have calls : Evolves cfg true (taskOf c s request) c (b.parsed c p s) _ :=
            (holds_callback (parsed_self s) (.inl rfl) (.inl rfl) (.inl rfl)).1
          have returned : counting.Holds (fun _ => True) (callback cfg c request >>= callbackReturned c)
              (b.parsed c p s) := by
            refine (holds_sameIds (calls.sameIds (taskOf_ne_deliver s request))).bind fun rv d _ _ => ?_
            cases rv with
            | zero => exact (setHeader_sameIds c d trivial).bind fun _ _ _ _ => .pure trivial
            | succ rv => exact .pure trivial
          exact (parsed s).trans returned.1

private theorem cParse_sameIds (c : ClientId) (buf : List Byte) :
    counting.Keeps (fun _ => True) (cParse cfg c buf) := by
  have executes : counting.Keeps (fun _ => True) (mqttParserExecute cfg c buf) := by
    induction buf with
    | nil => exact fun _ _ => .pure trivial
    | cons byte buf inductionHypothesis =>
        refine .bind (parserRound_sameIds c byte) fun rv _ => ?_
        cases rv with
        | none => exact inductionHypothesis
        | some rv => exact fun _ _ => .pure trivial
  refine .bind executes fun rv _ => ?_
  unfold onlyIf
  split
  · exact cDisconnect_sameIds c _
  · exact fun _ _ => .pure trivial

/-! ### The flags of the messages -/

private theorem flags_round {byte : Byte} (sound : Sound b) (there : (b.clients c).isSome) (flags : Flags b) :
    RoundEnds Flags Flags (fun _ => Flags) ((parserRound cfg c byte).run b) := by
  obtain ⟨p, present⟩ := Option.isSome_iff_exists.mp there
  have ok := sound.sessions c p present
  have calls : (parsing cfg b p byte).Ensures Session.Ok fun last _ => last.Ok := parserByte_ok ok
  have round := sound.round present cfg byte
  have called : ∀ {s request d}, parsing cfg b p byte = .call s request →
      Evolves cfg true (taskOf c s request) c (b.parsed c p s) d → Flags d := by
    intro s request d parses chain
    rw [parses] at calls
    exact chain.invariant (Flags.change (taskOf_flagged calls request)) flags
  generalize (parserRound cfg c byte).run b = outcome at round
  cases round with
  | next parses => exact flags
  | refused parses fails => exact ⟨fails, flags⟩
  | @returned s request d p' parses chain decided found =>
      have later : Flags d := called parses chain
      exact later
  | failed may parses chain => exact ⟨by decide, called parses chain⟩
  | broken parses chain fails => exact called parses chain
  | left may parses chain fails => exact chain.invariant (Flags.idle (.inl rfl)) flags
  | stopped other => exact flags

private theorem flags_persistent : Persistent cfg Flags :=
  ⟨fun _ flags => flags, fun _ _ _ _ flags => flags, Flags.idle⟩

/-! ### The deliveries to a client -/

/-- The calls of the broker, as far as a client is concerned, with the deliveries among
them: those of `c_deliver` for one of its subscriptions while it is connected. -/
inductive Served (cfg : Config) (c : ClientId) : List Delivery → State → Prop
  | fresh {b : State} (new : ∀ p, b.clients c = some p → p.msgId = 0) : Served cfg c [] b
  | accept {deliveries : List Delivery} {b : State} (w : Nat) (isTls isWs : Bool)
      (ipAddress : List Byte) (served : Served cfg c deliveries b) (other : b.nextClient ≠ c) :
      Served cfg c deliveries ((workersAddClient w isTls isWs ipAddress).run b).2
  | parse {deliveries : List Delivery} {b : State} (d : ClientId) (buf : List Byte)
      (answers : Answers) (served : Served cfg c deliveries b) :
      Served cfg c deliveries ((cParse cfg d buf).run { b with answers }).2
  | drop {deliveries : List Delivery} {b : State} (d : ClientId) (reason : List Byte)
      (answers : Answers) (served : Served cfg c deliveries b) :
      Served cfg c deliveries ((cDisconnect cfg d reason).run { b with answers }).2
  /-- the queues and the memory of messages -/
  | tidy {deliveries : List Delivery} {b d : State} (served : Served cfg c deliveries b)
      (clients : d.clients = b.clients) (log : d.log = b.log) : Served cfg c deliveries d
  /-- `c_deliver` for another client, or for this one while it is not connected -/
  | skip {deliveries : List Delivery} {b : State} (m : MsgId) (ref : SubRef)
      (served : Served cfg c deliveries b)
      (other : ∀ p, ref.1 = c → b.clients c = some p → p.state ≠ .connected) :
      Served cfg c deliveries ((cDeliver cfg m ref).run b).2
  | deliver {deliveries : List Delivery} {b : State} {p : Client} {m : MsgId} {mp : MsgRec} (i : Nat)
      (served : Served cfg c deliveries b) (present : b.clients c = some p)
      (connected : p.state = .connected) (found : b.messages m = some mp)
      (flags : mp.message.dup ≤ 1 ∧ mp.message.retain ≤ 1) :
      Served cfg c (deliveries ++ [p.delivery mp.message i]) ((cDeliver cfg m (c, i)).run b).2

/-- Those that are given a packet id. -/
def counted (deliveries : List Delivery) : List Delivery :=
  deliveries.filter (·.qos > 0)

private theorem counted_append (front : List Delivery) (delivery : Delivery) :
    counted (front ++ [delivery]) = counted front ++ if delivery.qos > 0 then [delivery] else [] := by
  unfold counted
  split <;> simp_all

/-- The counter tells how many there were, and each has the count as its id. -/
structure Counts (c : ClientId) (deliveries : List Delivery) (b : State) : Prop where
  counter : ∀ p, b.clients c = some p → p.msgId = (counted deliveries).length % 2 ^ 16
  ids : ∀ front delivery back, deliveries = front ++ delivery :: back → delivery.qos > 0 →
    delivery.msgId = ((counted front).length + 1) % 2 ^ 16
  flags : ∀ delivery ∈ deliveries, delivery.message.dup ≤ 1 ∧ delivery.message.retain ≤ 1

theorem Counts.sameIds (counts : Counts c deliveries b) (same : SameIds b d) : Counts c deliveries d := by
  refine ⟨fun p' found => ?_, counts.ids, counts.flags⟩
  obtain ⟨p, present, sameId⟩ := same.counters c p' found
  exact sameId.trans (counts.counter p present)

/-- The state in which `c_deliver` sends the packet for a connected client. -/
def posting (b : State) (ref : SubRef) (p : Client) (message : Message) : State :=
  (b.stamp ref.1 p (p.delivery message ref.2).qos).emit (.packet ref.1 (p.delivery message ref.2).packet)

theorem cDeliver_sameIds (present : b.clients ref.1 = some p)
    (connected : p.state = .connected) (found : b.messages m = some mp) :
    SameIds (posting b ref p mp.message) ((cDeliver cfg m ref).run b).2 := by
  rw [cDeliver_eq present connected found]
  have sends : Evolves cfg true .talk ref.1 (posting b ref p mp.message)
      ((sendDataLoop cfg ref.1 (p.delivery mp.message ref.2).packet
        (p.delivery mp.message ref.2).packet.length (p.delivery mp.message ref.2).packet.length).run
          (posting b ref p mp.message)).2 :=
    (sendDataLoop_keeps (.inl rfl) _ _ (Nat.le_refl _) _ (.inl rfl)).1
  have sent : counting.Holds (fun _ => True) (sendDataLoop cfg ref.1 (p.delivery mp.message ref.2).packet
      (p.delivery mp.message ref.2).packet.length (p.delivery mp.message ref.2).packet.length >>=
        fun _ => pure ()) (posting b ref p mp.message) :=
    (holds_sameIds (sends.sameIds (by simp))).bind fun _ _ _ _ => .pure trivial
  exact sent.1

/-- Otherwise nothing has happened. -/
theorem cDeliver_idle (idle : ¬ ∃ p mp, b.clients ref.1 = some p ∧ p.state = .connected ∧
    b.messages m = some mp) : ((cDeliver cfg m ref).run b).2 = b := by
  cases present : b.clients ref.1 with
  | none => rw [cDeliver, Cmd.bind_error (client_freed present)]
  | some p =>
      rw [cDeliver, Cmd.bind_ok (client_run present)]
      by_cases connected : p.state = .connected
      · simp only [onlyIf, connected, decide_true, if_true]
        rw [deliverTo, Cmd.bind_ok (client_run present)]
        cases found : b.messages m with
        | none => rw [Cmd.bind_error (message_freed found)]
        | some mp => exact absurd ⟨p, mp, present, connected, found⟩ idle
      · simp [onlyIf, connected]

/-- One more delivery has the next id. -/
theorem Counts.ids_append {new : Delivery} (counts : Counts c deliveries b)
    (next : new.qos > 0 → new.msgId = ((counted deliveries).length + 1) % 2 ^ 16)
    (front : List Delivery) (delivery : Delivery) (back : List Delivery)
    (parts : deliveries ++ [new] = front ++ delivery :: back) (above : delivery.qos > 0) :
    delivery.msgId = ((counted front).length + 1) % 2 ^ 16 := by
  rcases List.eq_nil_or_concat' back with nothing | ⟨rest, last, more⟩
  · subst nothing
    obtain ⟨before, isNew⟩ := List.append_inj' parts rfl
    obtain rfl := List.singleton_injective isNew
    rw [← before]
    exact next above
  · subst more
    rw [← List.cons_append, ← List.append_assoc] at parts
    exact counts.ids front delivery rest (List.append_inj' parts rfl).1 above

private theorem delivery_msgId (p : Client) (message : Message) (i : Nat)
    (above : (p.delivery message i).qos > 0) :
    (p.delivery message i).msgId = (p.msgId + 1) % 2 ^ 16 := by
  have positive : 0 < min message.origQos (p.subscriptions i).qos := above
  simp [Client.delivery, Client.countMsgId, positive]

theorem Counts.deliver (counts : Counts c deliveries b)
    (present : b.clients c = some p) (connected : p.state = .connected) (found : b.messages m = some mp)
    (flags : mp.message.dup ≤ 1 ∧ mp.message.retain ≤ 1) (i : Nat) :
    Counts c (deliveries ++ [p.delivery mp.message i]) ((cDeliver cfg m (c, i)).run b).2 := by
  have counter := counts.counter p present
  have stamped : Counts c (deliveries ++ [p.delivery mp.message i]) (posting b (c, i) p mp.message) := by
    refine ⟨fun q there => ?_, counts.ids_append fun above => ?_, fun delivery member => ?_⟩
    · obtain rfl := Option.some.inj ((stamp_self b c p _).symm.trans there)
      rw [counted_append]
      show p.countMsgId _ = _
      unfold Client.countMsgId
      split
      · simp [counter]
      · simpa using counter
    · rw [delivery_msgId p mp.message i above, counter, Nat.mod_add_mod]
    · rcases List.mem_append.mp member with old | new
      · exact counts.flags delivery old
      · obtain rfl := List.mem_singleton.mp new
        exact flags
  exact stamped.sameIds (@cDeliver_sameIds cfg b p m mp (c, i) present connected found)

theorem Counts.skip (counts : Counts c deliveries b)
    (other : ∀ p, ref.1 = c → b.clients c = some p → p.state ≠ .connected) :
    Counts c deliveries ((cDeliver cfg m ref).run b).2 := by
  by_cases serves : ∃ p mp, b.clients ref.1 = some p ∧ p.state = .connected ∧ b.messages m = some mp
  · obtain ⟨p, mp, present, connected, found⟩ := serves
    have apart : c ≠ ref.1 := fun same => other p same.symm (same ▸ present) connected
    have stamped : Counts c deliveries (posting b ref p mp.message) := by
      refine ⟨fun q there => counts.counter q ?_, counts.ids, counts.flags⟩
      simpa [posting, State.emit, State.stamp, State.putClient, apart] using there
    exact stamped.sameIds (cDeliver_sameIds present connected found)
  · rw [cDeliver_idle serves]
    exact counts

/-- The deliveries to a client are counted. -/
theorem Served.counts (served : Served cfg c deliveries b) :
    Counts c deliveries b := by
  induction served with
  | fresh new => exact ⟨fun p present => new p present, by simp, by simp⟩
  | @accept deliveries b w isTls isWs ipAddress served other counts =>
      refine ⟨fun p there => counts.counter p ?_, counts.ids, counts.flags⟩
      simpa [workersAddClient, other.symm] using there
  | @parse deliveries b d buf answers served counts =>
      have asked : Counts c deliveries { b with answers } := ⟨counts.counter, counts.ids, counts.flags⟩
      exact asked.sameIds (cParse_sameIds d buf _ trivial).1
  | @drop deliveries b d reason answers served counts =>
      have asked : Counts c deliveries { b with answers } := ⟨counts.counter, counts.ids, counts.flags⟩
      exact asked.sameIds (cDisconnect_sameIds d reason _ trivial).1
  | tidy served clients log counts => exact ⟨clients ▸ counts.counter, counts.ids, counts.flags⟩
  | skip m ref served other counts => exact counts.skip other
  | deliver i served present connected found flags counts =>
      exact counts.deliver present connected found flags i

/-! ### Runs of the broker -/

/-- The flags of the messages are bits, and the ids of clients are given out in order. -/
def Numbered (b : State) : Prop :=
  Flags b ∧ ∀ c p, b.clients c = some p → c < b.nextClient

/-- A history of the client that tells of every PUBLISH the log has for it. -/
structure Recorded (cfg : Config) (c : ClientId) (deliveries : List Delivery) (b : State) : Prop where
  served : Served cfg c deliveries b
  packets : publishesTo c b.log = (deliveries.map Delivery.packet).filter isPublish
  unborn : b.nextClient ≤ c → deliveries = []

theorem Recorded.sameIds (recorded : Recorded cfg c deliveries b) (same : SameIds b d)
    (served : Served cfg c deliveries d) : Recorded cfg c deliveries d where
  served := served
  packets := (same.publishes c).trans recorded.packets
  unborn := same.next ▸ recorded.unborn

/-- The contract of a round of `w_deliver`: it adds to the histories. -/
def telling (cfg : Config) : Contract Fault State where
  rel b d := Numbered b → Numbered d ∧
    ∀ c deliveries, Recorded cfg c deliveries b → ∃ more, Recorded cfg c (deliveries ++ more) d
  pre _ := True
  fault _ _ := True
  refl _ numbered := ⟨numbered, fun _ _ recorded => ⟨[], by simpa using recorded⟩⟩
  trans first second numbered := by
    obtain ⟨numbered, before⟩ := first numbered
    obtain ⟨numbered, after⟩ := second numbered
    refine ⟨numbered, fun c deliveries recorded => ?_⟩
    obtain ⟨more, recorded⟩ := before c deliveries recorded
    obtain ⟨others, recorded⟩ := after c _ recorded
    exact ⟨more ++ others, by simpa using recorded⟩
  keeps _ _ := trivial

private theorem telling_tidy (clients : d.clients = b.clients) (log : d.log = b.log)
    (next : d.nextClient = b.nextClient) (flags : Flags b → Flags d) : (telling cfg).rel b d := by
  intro numbered
  refine ⟨⟨flags numbered.1, ?_⟩, fun _ _ recorded => ⟨[], ?_⟩⟩
  · rw [clients, next]
    exact numbered.2
  · rw [List.append_nil]
    exact recorded.sameIds (.of_clients clients log next) (recorded.served.tidy clients log)

/-- The log has one more packet. -/
private theorem publishesTo_sending (b : State) (ref : SubRef) (p : Client) (message : Message) :
    publishesTo c (posting b ref p message).log = publishesTo c b.log ++
      if ref.1 = c then [(p.delivery message ref.2).packet].filter isPublish else [] := by
  refine (publishesTo_append c b.log _).trans (congrArg _ ?_)
  by_cases here : ref.1 = c <;> by_cases publish : isPublish (p.delivery message ref.2).packet <;>
    simp [publishesTo, packetsTo, here, publish]

private theorem cDeliver_recorded (numbered : Numbered b) (present : b.clients ref.1 = some p)
    (connected : p.state = .connected) (found : b.messages m = some mp)
    (recorded : Recorded cfg c deliveries b) :
    ∃ more, Recorded cfg c (deliveries ++ more) ((cDeliver cfg m ref).run b).2 := by
  have same : SameIds (posting b ref p mp.message) ((cDeliver cfg m ref).run b).2 :=
    cDeliver_sameIds present connected found
  have logged := (same.publishes c).trans (publishesTo_sending b ref p mp.message)
  have next : ((cDeliver cfg m ref).run b).2.nextClient = b.nextClient := same.next
  by_cases here : ref.1 = c
  · subst here
    refine ⟨[p.delivery mp.message ref.2],
      recorded.served.deliver ref.2 present connected found (numbered.1 m mp found), ?_, fun unborn => ?_⟩
    · rw [logged, recorded.packets, if_pos rfl, List.map_append, List.filter_append]
      rfl
    · exact absurd (numbered.2 ref.1 p present) (Nat.not_lt.mpr (next ▸ unborn))
  · refine ⟨[], ?_⟩
    rw [List.append_nil]
    refine ⟨recorded.served.skip m ref fun _ isHere => absurd isHere here, ?_, next ▸ recorded.unborn⟩
    rw [logged, recorded.packets, if_neg here, List.append_nil]

private theorem cDeliver_numbered (numbered : Numbered b) (present : b.clients ref.1 = some p)
    (connected : p.state = .connected) (found : b.messages m = some mp) :
    Numbered ((cDeliver cfg m ref).run b).2 := by
  have same : SameIds (posting b ref p mp.message) ((cDeliver cfg m ref).run b).2 :=
    cDeliver_sameIds present connected found
  refine ⟨(cDeliver_keeps ref b (.inl rfl)).1.invariant (Flags.idle (.inr ⟨_, rfl⟩)) numbered.1, ?_⟩
  intro c p' there
  obtain ⟨q, before, -⟩ := same.counters c p' there
  rw [same.next]
  by_cases here : c = ref.1
  · exact here ▸ numbered.2 ref.1 p present
  · exact numbered.2 c q (by simpa [posting, State.emit, State.stamp, State.putClient, here] using before)

private theorem cDeliver_tells (m : MsgId) (ref : SubRef) :
    (telling cfg).Keeps (fun _ => True) (cDeliver cfg m ref) := by
  intro b _
  constructor
  · by_cases serves : ∃ p mp, b.clients ref.1 = some p ∧ p.state = .connected ∧ b.messages m = some mp
    · obtain ⟨p, mp, present, connected, found⟩ := serves
      intro numbered
      exact ⟨cDeliver_numbered numbered present connected found,
        fun c deliveries recorded => cDeliver_recorded numbered present connected found recorded⟩
    · rw [cDeliver_idle serves]
      exact (telling cfg).refl b
  · cases (cDeliver cfg m ref).run b with
    | mk result d => cases result <;> trivial

private theorem ownerHere_tells (w : Nat) (owner : Owner) :
    (telling cfg).Holds (fun _ => True) (ownerHere w owner) b := by
  cases owner with
  | me worker => exact .pure trivial
  | client c => exact holds_client_bind (fun _ => trivial) fun _ _ => .pure trivial

private theorem deliverDone_tells (w : Nat) (m : MsgId) :
    (telling cfg).Keeps (fun _ => True) (deliverDone w m) := by
  intro b _
  refine holds_message_bind (fun _ => trivial) fun mp found => ?_
  have marked : (telling cfg).rel b
      (b.putMessage m { mp with notDone := Function.update mp.notDone w false }) := by
    refine telling_tidy rfl rfl rfl fun flags m' mp' there => ?_
    by_cases same : m' = m
    · subst m'
      obtain rfl : { mp with notDone := Function.update mp.notDone w false } = mp' := by
        simpa [State.putMessage] using there
      exact flags m mp found
    · exact flags m' mp' (by simpa [State.putMessage, same] using there)
  have marks : (telling cfg).Holds (fun _ => True)
      (modify (·.putMessage m { mp with notDone := Function.update mp.notDone w false }) : Code PUnit) b :=
    .modify marked trivial
  refine marks.bind fun _ d _ _ => .bind (ownerHere_tells w mp.owner) fun here e _ _ => ?_
  split
  · exact .modify (telling_tidy rfl rfl rfl fun flags => flags) trivial
  · exact .pure trivial

private theorem deliverMessage_tells (w : Nat) (m : MsgId) :
    (telling cfg).Keeps (fun _ => True) (deliverMessage cfg w m) := by
  intro b _
  refine holds_message_bind (fun _ => trivial) fun mp _ => .get_bind ?_
  have searched : (telling cfg).Holds (fun _ => True)
      (subSearch (table w) (cDeliver cfg m) b.listBound mp.message.topic) b :=
    trieMSearchMqtt_keeps (fun _ => ⟨trivial, trivial, trivial⟩) (cDeliver_tells m) _ b trivial
  exact searched.bind fun _ d _ _ => deliverDone_tells w m d trivial

private theorem wDeliverRound_tells (w : Nat) :
    (telling cfg).Keeps (fun _ => True) (wDeliverRound cfg w) := by
  have pops : (telling cfg).Keeps (fun _ => True) (wMessagePop w) := by
    intro b _
    refine .get_bind ?_
    split
    · exact .pure trivial
    · rename_i m rest queue
      have popped : (telling cfg).Holds (fun _ => True)
          (modify (fun b => { b with msgQ := Function.update b.msgQ w rest }) : Code PUnit) b :=
        .modify (telling_tidy rfl rfl rfl fun flags => flags) trivial
      exact popped.bind fun _ d _ _ => holds_message_bind (fun _ => trivial) fun _ _ => .pure trivial
  refine .bind pops fun found _ => ?_
  cases found with
  | none => exact fun _ _ => .pure trivial
  | some m => exact .bind (deliverMessage_tells w m) fun _ _ _ _ => .pure trivial

private theorem wGcRound_tells (w : Nat) : (telling cfg).Keeps (fun _ => True) (wGcRound cfg w) := by
  intro b _
  refine .get_bind ?_
  split
  · exact .pure trivial
  · rename_i m rest queue
    refine holds_message_bind (fun _ => trivial) fun mp found => ?_
    split
    · refine .modify (telling_tidy rfl rfl rfl fun flags m' mp' there => flags m' mp' ?_) trivial
      by_cases same : m' = m
      · simp [same] at there
      · simpa [same] using there
    · exact .pure trivial

/-- Every step of the broker adds to the history of a client. -/
theorem recorded_steps {action : Action} {next : Run} (numbered : Numbered b)
    (recorded : Recorded cfg c deliveries b) (steps : Steps cfg b action next) :
    ∃ deliveries', Recorded cfg c deliveries' next.state := by
  have asked : ∀ answers, SameIds b { b with answers } := fun _ => .of_clients rfl rfl rfl
  cases steps with
  | @accept w isTls isWs ipAddress worker =>
      rw [after_state]
      by_cases same : b.nextClient = c
      · obtain rfl := recorded.unborn same.le
        refine ⟨[], .fresh fun p found => ?_, recorded.packets, fun _ => rfl⟩
        have new : cNew w isTls isWs ipAddress = p := by simpa [workersAddClient, same] using found
        exact new ▸ rfl
      · exact ⟨deliveries, recorded.served.accept w isTls isWs ipAddress same, recorded.packets, fun later =>
          recorded.unborn (Nat.le_of_succ_le later)⟩
  | @parse d buf answers p present =>
      rw [after_state]
      exact ⟨deliveries, recorded.sameIds ((asked answers).trans (cParse_sameIds d buf _ trivial).1)
        (recorded.served.parse d buf answers)⟩
  | @drop d reason answers p present =>
      rw [after_state]
      exact ⟨deliveries, recorded.sameIds ((asked answers).trans (cDisconnect_sameIds d _ _ trivial).1)
        (recorded.served.drop d reason answers)⟩
  | @deliver w answers worker =>
      rw [after_state]
      have asking : Recorded cfg c deliveries { b with answers } :=
        recorded.sameIds (asked answers) (recorded.served.tidy rfl rfl)
      obtain ⟨-, tells⟩ := (wDeliverRound_tells w { b with answers } trivial).1 numbered
      exact ⟨_, (tells c deliveries asking).choose_spec⟩
  | @gc w worker =>
      rw [after_state]
      obtain ⟨-, tells⟩ := (wGcRound_tells w b trivial).1 numbered
      exact ⟨_, (tells c deliveries recorded).choose_spec⟩

/-- Every run of the broker has a history. -/
theorem reachable_recorded {run : Run} (reached : (broker cfg).Reachable run) (c : ClientId) :
    ∃ deliveries, Recorded cfg c deliveries run.state := by
  have initially : ∀ run, (broker cfg).init run →
      Flags run.state ∧ ∃ deliveries, Recorded cfg c deliveries run.state := by
    intro run initial
    obtain rfl : run = start := initial
    exact ⟨by simp [Flags, start], [], .fresh (by simp [start]), rfl, fun _ => rfl⟩
  have preserved : ∀ run action next, (broker cfg).Reachable run →
      (Flags run.state ∧ ∃ deliveries, Recorded cfg c deliveries run.state) →
      (broker cfg).step run action = some next →
      Flags next.state ∧ ∃ deliveries, Recorded cfg c deliveries next.state := by
    rintro run action next reached ⟨flags, deliveries, recorded⟩ stepped
    have steps := (step_steps stepped).2
    have sound := reachable_sound reached
    have kept : Flags next.state := flags_persistent.steps (fun sound there flags _ => flags_round sound there flags)
      sound flags (fun _ buf _ _ => along_of_forall (fun _ _ => (trivial : True)) buf _) steps
    exact ⟨kept, recorded_steps ⟨flags, sound.known⟩ recorded steps⟩
  exact (reached.invariant initially preserved).2

/-! ### The law -/

/-- What a PUBLISH must be like behind those before it: above QoS 0 its packet id is not 0 and
none of the last 65534, at QoS 0 its DUP flag is 0. -/
def Legal (front : List Delivery) (delivery : Delivery) : Prop :=
  (delivery.qos > 0 → delivery.msgId ≠ 0 ∧
    ∀ earlier ∈ (counted front).drop ((counted front).length - 65534),
      earlier.msgId ≠ delivery.msgId) ∧
  (delivery.qos = 0 → (headerOf delivery.packet).dup = 0)

/-- The ids are given out in order. -/
theorem Counts.counted_ids {deliveries front : List Delivery} (counts : Counts c deliveries b)
    (before : front <+: deliveries) {k : Nat} {delivery : Delivery}
    (here : (counted front)[k]? = some delivery) : delivery.msgId = (k + 1) % 2 ^ 16 := by
  induction front using List.reverseRecOn generalizing k with
  | nil => simp [counted] at here
  | append_singleton front last inductionHypothesis =>
      obtain ⟨back, parts⟩ := before
      rw [List.append_assoc, List.singleton_append] at parts
      rw [counted_append] at here
      by_cases old : k < (counted front).length
      · rw [List.getElem?_append_left old] at here
        exact inductionHypothesis ⟨_, parts⟩ here
      · rw [List.getElem?_append_right (Nat.le_of_not_lt old)] at here
        split at here
        · rename_i above
          have newest : k = (counted front).length := by
            have small : k - (counted front).length < 1 := (List.getElem?_eq_some_iff.mp here).1
            omega
          subst newest
          obtain rfl : last = delivery := by simpa using here
          exact counts.ids front last back parts.symm above
        · simp at here

/-- Of the ids before, the last 65534 are others. -/
theorem Counts.recent_ids {deliveries front back : List Delivery} {delivery earlier : Delivery}
    (counts : Counts c deliveries b) (parts : deliveries = front ++ delivery :: back)
    (above : delivery.qos > 0)
    (recent : earlier ∈ (counted front).drop ((counted front).length - 65534)) :
    earlier.msgId ≠ delivery.msgId := by
  obtain ⟨i, here⟩ := List.mem_iff_getElem?.mp recent
  rw [List.getElem?_drop] at here
  have inside := (List.getElem?_eq_some_iff.mp here).1
  rw [counts.counted_ids ⟨_, parts.symm⟩ here, counts.ids front delivery back parts above]
  omega

theorem Counts.legal_iff {deliveries front back : List Delivery} {delivery : Delivery}
    (counts : Counts c deliveries b) (parts : deliveries = front ++ delivery :: back)
    (encoded : delivery.packet ≠ []) :
    Legal front delivery ↔ (delivery.qos > 0 → ¬ 2 ^ 16 ∣ (counted front).length + 1) ∧
      (delivery.qos = 0 → delivery.message.dup = 0) := by
  have flags := counts.flags delivery (by simp [parts])
  refine and_congr (forall_congr' fun above => ?_) (forall_congr' fun zero => ?_)
  · have others : ∀ earlier ∈ (counted front).drop ((counted front).length - 65534),
        earlier.msgId ≠ delivery.msgId := fun earlier recent => counts.recent_ids parts above recent
    rw [and_iff_left others, counts.ids front delivery back parts above, Nat.dvd_iff_mod_eq_zero]
  · have header := (headerOf_encodePublish flags.1 (by omega : delivery.qos ≤ 3) flags.2
      delivery.msgId).resolve_right encoded
    rw [Delivery.packet, header]

/-- Every run of the broker is made of such calls, whose packets are the PUBLISH packets that
the client is sent, and in every sequence of them each PUBLISH that is encoded is legal if and
only if it is not the one behind which the counter is back at 0, and not a duplicate of a
publisher that is delivered at QoS 0. -/
theorem delivered_headers_legal_iff (cfg : Config) (c : ClientId) :
    (∀ run, (broker cfg).Reachable run → ∃ deliveries, Served cfg c deliveries run.state ∧
      publishesTo c run.state.log = (deliveries.map Delivery.packet).filter isPublish) ∧
      ∀ (deliveries : List Delivery) (b : State), Served cfg c deliveries b →
        ∀ front delivery back, deliveries = front ++ delivery :: back → delivery.packet ≠ [] →
          (Legal front delivery ↔ (delivery.qos > 0 → ¬ 2 ^ 16 ∣ (counted front).length + 1) ∧
            (delivery.qos = 0 → delivery.message.dup = 0)) := by
  constructor
  · intro run reached
    obtain ⟨deliveries, recorded⟩ := reachable_recorded reached c
    exact ⟨deliveries, recorded.served, recorded.packets⟩
  · intro deliveries b served front delivery back parts encoded
    exact served.counts.legal_iff parts encoded

/-- A client that has subscribed "a" at QoS 1 and published to it; the message waits. -/
private theorem echo_waits :
    ∃ run p mp, (broker (oneWorker true)).Reachable run ∧ run.state.clients 0 = some p ∧
      run.state.messages 1 = some mp ∧ run.state.answers.Good ∧ p.state = .connected ∧ p.msgId = 0 ∧
      (p.subscriptions 0).qos = 1 ∧ mp.message = ⟨0, 1, 0, 9, [97], [120]⟩ := by
  have ran : ((broker (oneWorker true)).run start ((echo 1 0x32).take 4)).map (fun run =>
      (decide run.state.answers.Good,
        (run.state.clients 0).map fun p => (p.state, p.msgId, (p.subscriptions 0).qos),
        (run.state.messages 1).map MsgRec.message)) =
      some (true, some (.connected, 0, 1), some ⟨0, 1, 0, 9, [97], [120]⟩) := by
    decide +kernel
  obtain ⟨run, reached, seen⟩ := Option.map_eq_some_iff.mp ran
  simp only [Prod.mk.injEq, decide_eq_true_eq, Option.map_eq_some_iff] at seen
  obtain ⟨good, ⟨p, present, connected, fresh, qos⟩, mp, found, message⟩ := seen
  exact ⟨run, p, mp, .run (.start rfl) reached, present, found, good, connected, fresh, qos, message⟩

/-- The first message a client is delivered. -/
theorem delivered_headers_legal_iff_first :
    ∃ run p mp, (broker (oneWorker true)).Reachable run ∧ run.state.clients 0 = some p ∧
      run.state.messages 1 = some mp ∧ Legal [] (p.delivery mp.message 0) := by
  obtain ⟨run, p, mp, reached, present, found, -, connected, fresh, qos, message⟩ := echo_waits
  have none : Served (oneWorker true) 0 [] run.state := .fresh fun q there => by
    obtain rfl := Option.some.inj (present.symm.trans there)
    exact fresh
  have served := none.deliver 0 present connected found (by rw [message]; decide)
  have one : (p.delivery mp.message 0).qos = 1 := by
    show min mp.message.origQos (p.subscriptions 0).qos = 1
    rw [message, qos]
    rfl
  refine ⟨run, p, mp, reached, present, found, ?_⟩
  apply ((delivered_headers_legal_iff (oneWorker true) 0).2 _ _ served [] _ [] rfl ?_).mpr
  · exact ⟨fun _ => by decide, fun zero => by simp [one] at zero⟩
  · rw [Delivery.packet_ne_nil_iff, one]
    show mp.message.topic.length + mp.message.payload.length ≤ deliverable 1
    rw [message]
    decide

/-- A stored message is delivered to a connected client, time and again. -/
theorem served_again {i : Nat} (present : b.clients c = some p)
    (connected : p.state = .connected) (fresh : p.msgId = 0) (good : b.answers.Good)
    (found : b.messages m = some mp) (flags : mp.message.dup ≤ 1 ∧ mp.message.retain ≤ 1) (n : Nat) :
    ∃ deliveries d events, Served cfg c deliveries d ∧ Stamped b d events ∧ deliveries.length = n ∧
      ∀ delivery ∈ deliveries, delivery.message = mp.message ∧
        delivery.qos = min mp.message.origQos (p.subscriptions i).qos := by
  induction n with
  | zero =>
      refine ⟨[], b, [], .fresh fun q there => ?_, .refl good, rfl, by simp⟩
      obtain rfl := Option.some.inj (present.symm.trans there)
      exact fresh
  | succ n inductionHypothesis =>
      obtain ⟨deliveries, d, events, served, stamped, length, alike⟩ := inductionHypothesis
      obtain ⟨msgId, there⟩ := stamped.clients c
      rw [present, Option.map_some] at there
      have next := served.deliver i there connected (stamped.messages ▸ found) flags
      have present' : b.clients (c, i).1 = some p := present
      rcases cDeliver_run cfg stamped present' found with
        ⟨-, d', more, packet, ran, stamped', -⟩ | ⟨apart, -⟩
      · rw [ran] at next
        refine ⟨_, d', events ++ more, next, stamped', by simp [length], fun delivery member => ?_⟩
        rcases List.mem_append.mp member with old | new
        · exact alike delivery old
        · obtain rfl := List.mem_singleton.mp new
          exact ⟨rfl, rfl⟩
      · simp [connectedAt, present, connected] at apart

/-- The 65536th message that a client is delivered at QoS 1 has packet id 0, and a message that
was published at QoS 1 with the DUP flag is delivered at QoS 0 with the DUP flag. -/
theorem delivered_headers_illegal :
    (∃ (run : Run) (deliveries front : List Delivery) (delivery : Delivery) (d : State) (events : List Event),
      (broker (oneWorker true)).Reachable run ∧ Stamped run.state d events ∧
        Served (oneWorker true) 0 deliveries d ∧ deliveries = front ++ [delivery] ∧
        deliveries.length = 2 ^ 16 ∧ delivery.packet ≠ [] ∧ delivery.qos = 1 ∧ delivery.msgId = 0) ∧
    ∃ run, (broker (oneWorker true)).Reachable run ∧
      Event.packet 0 [0x38, 4, 0, 1, 97, 120] ∈ run.state.log ∧
        headerOf [0x38, 4, 0, 1, 97, 120] = ⟨.publish, 1, 0, 0⟩ := by
  constructor
  · obtain ⟨run, p, mp, reached, present, found, good, connected, fresh, atOne, message⟩ := echo_waits
    obtain ⟨deliveries, d, events, served, stamped, length, alike⟩ :
        ∃ deliveries d events, Served (oneWorker true) 0 deliveries d ∧ Stamped run.state d events ∧ _ :=
      served_again (i := 0) present connected fresh good found (by rw [message]; decide) (2 ^ 16)
    rw [message, atOne] at alike
    rcases List.eq_nil_or_concat' deliveries with nothing | ⟨front, delivery, parts⟩
    · simp [nothing] at length
    · have all : counted front = front := by
        refine List.filter_eq_self.mpr fun other member => ?_
        rw [(alike other (by simp [parts, member])).2]
        decide
      have frontLength : front.length = 2 ^ 16 - 1 := by
        rw [parts, List.length_append, List.length_singleton] at length
        omega
      obtain ⟨isMessage, one⟩ := alike delivery (by simp [parts])
      have id := served.counts.ids front delivery [] parts (one ▸ by decide)
      rw [all, frontLength] at id
      refine ⟨run, deliveries, front, delivery, d, events, reached, stamped, served, parts, length, ?_, one, id⟩
      rw [Delivery.packet_ne_nil_iff, isMessage, one]
      decide
  · have ends : ((broker (oneWorker true)).run start (echo 0 0x3a)).map
        (fun run => decide (Event.packet 0 [0x38, 4, 0, 1, 97, 120] ∈ run.state.log)) = some true := by
      decide +kernel
    obtain ⟨run, ran, sent⟩ := Option.map_eq_some_iff.mp ends
    exact ⟨run, .run (.start rfl) ran, of_decide_eq_true sent, rfl⟩

end FbBroker.Broker
