import FbBroker.Broker.Steps

/-!
Contract: the acknowledgements of QoS 1 and 2.

Owns what a client that follows the protocol answers with, and the runs in which
the parser never refuses such an answer. `mqtt_parser_execute` has no case for
PUBACK and PUBREL, so these are the runs in which the broker never asks for one.
-/

set_option autoImplicit false

namespace FbBroker.Broker

open FbBroker.Lib FbBroker.Packet FbBroker.Parser

variable {cfg : Config} {closes : Bool} {c : ClientId} {b : State} {task : Task} {b' : State}

/-- The acknowledgements a client sends. -/
def IsAck (type : MsgType) : Prop :=
  type = .puback ∨ type = .pubrel

instance (type : MsgType) : Decidable (IsAck type) :=
  inferInstanceAs (Decidable (_ ∨ _))

/-- Whether a packet asks its receiver for an acknowledgement of a type: a PUBLISH
above QoS 0 for a PUBACK, a PUBREC for a PUBREL. -/
def asksFor (type : MsgType) (packet : List Byte) : Bool :=
  match type with
  | .puback => (headerOf packet).msgType = .publish && (headerOf packet).qos ≠ 0
  | .pubrel => (headerOf packet).msgType = .pubrec
  | _ => false

/-- A client that follows the protocol starts an acknowledgement only behind a packet
that asks for it. -/
def compliant (c : ClientId) (b : State) (byte : Byte) : Bool :=
  match b.clients c with
  | none => true
  | some p =>
      p.session.state ≠ .header || !decide (IsAck (Header.ofByte byte).msgType) ||
        b.log.any fun event =>
          match event with
          | .packet d packet => d = c && asksFor (Header.ofByte byte).msgType packet
          | _ => false

/-- Subscriptions of QoS 0 and messages below QoS 2. -/
def LowQos : Task → Prop
  | .subscribe _ sub => ∀ i < sub.numFilters, sub.qos i = 0
  | .publish _ mp => mp.origQos ≠ 2
  | _ => True

instance : ∀ task, Decidable (LowQos task)
  | .subscribe _ sub => inferInstanceAs (Decidable (∀ i < sub.numFilters, _))
  | .publish _ _ => inferInstanceAs (Decidable (_ ≠ _))
  | .idle => isTrue trivial
  | .connect _ => isTrue trivial
  | .welcome _ => isTrue trivial
  | .deliver _ => isTrue trivial
  | .talk => isTrue trivial

/-- The flags of a message to be published are bits. -/
def Flagged : Task → Prop
  | .publish _ mp => mp.dup ≤ 1 ∧ mp.retain ≤ 1
  | _ => True

/-- So are those of the messages that are stored. -/
def Flags (b : State) : Prop :=
  ∀ m mp, b.messages m = some mp → mp.message.dup ≤ 1 ∧ mp.message.retain ≤ 1

theorem Flags.change (flagged : Flagged task)
    (change : Change cfg closes task c b b') (flags : Flags b) : Flags b' := by
  cases change with
  | @queue owner mp queues =>
      intro m rec found
      by_cases new : m = b.nextMsg
      · subst new
        have same : b.freshMessage cfg owner mp = rec := by
          simpa [State.queueMessage] using found
        subst same
        cases owner with
        | me worker => exact ⟨queues.1.1 ▸ Nat.zero_le 1, queues.1.2 ▸ Nat.zero_le 1⟩
        | client d =>
            obtain ⟨working, -⟩ := queues
            subst working
            exact flagged
      · exact flags m rec (by simpa [State.queueMessage, new] using found)
  | retire serves fewer kept =>
      intro m rec found
      obtain ⟨old, before, -, sameMessage⟩ := kept m rec found
      exact sameMessage ▸ flags m old before
  | _ => exact flags

theorem Flags.idle (quiet : task = .idle ∨ ∃ m, task = .deliver m)
    (change : Change cfg closes task c b b') (flags : Flags b) : Flags b' := by
  rcases quiet with rfl | ⟨m, rfl⟩
  · exact flags.change (show Flagged .idle from trivial) change
  · exact flags.change (show Flagged (.deliver m) from trivial) change

/-! ### The invariant -/

/-- Nothing asks for an acknowledgement, none is being read, and none was refused. -/
structure Modest (b : State) : Prop where
  subscriptions : ∀ c p i, b.clients c = some p → (p.subscriptions i).qos = 0
  messages : ∀ m mp, b.messages m = some mp → mp.message.dup ≤ 1 ∧ mp.message.retain ≤ 1
  packets : ∀ c packet, Event.packet c packet ∈ b.log → ∀ type, asksFor type packet = false
  sessions : ∀ c p, b.clients c = some p → p.session.state ≠ .header →
    ¬ IsAck p.session.header.msgType
  refused : ∀ c type, Event.refused c type ∈ b.log → ¬ IsAck type

private theorem asksFor_of_type {packet : List Byte}
    (type : (headerOf packet).msgType ≠ .pubrec ∧ ((headerOf packet).msgType = .publish →
      (headerOf packet).qos = 0)) (ack : MsgType) : asksFor ack packet = false := by
  obtain ⟨noPubrec, publish⟩ := type
  cases ack with
  | puback =>
      by_cases publishes : (headerOf packet).msgType = .publish
      · simp [asksFor, publish publishes]
      · simp [asksFor, publishes]
  | pubrel => simpa [asksFor] using noPubrec
  | _ => rfl

/-- What is sent in a modest state asks for nothing. -/
theorem Modest.packet {packet : List Byte} (modest : Modest b) (low : LowQos task)
    (packets : Packets task b c packet) (ack : MsgType) : asksFor ack packet = false := by
  apply asksFor_of_type
  cases packets with
  | plain isHeader type =>
      rw [isHeader]
      exact ⟨type.1, fun publishes => absurd publishes type.2⟩
  | pubrec publishing qos type =>
      subst publishing
      exact absurd qos low
  | publish i msgId found present =>
      rw [modest.subscriptions _ _ i present, Nat.min_zero]
      obtain ⟨dup, retain⟩ := modest.messages _ _ found
      rcases headerOf_encodePublish dup (Nat.zero_le 3) retain msgId with header | nothing
      · rw [header]
        exact ⟨by simp, fun _ => rfl⟩
      · rw [nothing]
        decide

theorem Modest.change (low : LowQos task) (flagged : Flagged task)
    (change : Change cfg closes task c b b') (modest : Modest b) : Modest b' := by
  have subscriptions : ∀ d p' i, b'.clients d = some p' → (p'.subscriptions i).qos = 0 := by
    intro d p' i found
    obtain ⟨p, present, updates⟩ := change.client_before found
    rcases updates.qos i with ⟨k, same⟩ | ⟨sub, j, working, inside, same⟩
    · rw [same]
      exact modest.subscriptions d p k present
    · subst working
      rw [same, low j inside]
      rfl
  have sessions : ∀ d p', b'.clients d = some p' → p'.session.state ≠ .header →
      ¬ IsAck p'.session.header.msgType := by
    intro d p' found behind
    obtain ⟨p, present, updates⟩ := change.client_before found
    rw [updates.session] at behind ⊢
    exact modest.sessions d p present behind
  have messages : Flags b' := Flags.change flagged change modest.messages
  cases change with
  | emit emits =>
      refine ⟨subscriptions, messages, fun d packet logged => ?_, sessions, fun d type logged => ?_⟩
      · rcases List.mem_append.mp logged with old | new
        · exact modest.packets d packet old
        · obtain rfl := List.mem_singleton.mp new
          exact modest.packet low emits
      · rcases List.mem_append.mp logged with old | new
        · exact modest.refused d type old
        · obtain rfl := List.mem_singleton.mp new
          exact absurd emits (by simp [Emits])
  | close may present nodes subs unlinked tells =>
      refine ⟨subscriptions, messages, fun d packet logged => ?_, sessions, fun d type logged => ?_⟩
      · exact modest.packets d packet (tells.mem_log (by simp) logged)
      · exact modest.refused d type (tells.mem_log (by simp) logged)
  | _ => exact ⟨subscriptions, messages, modest.packets, sessions, modest.refused⟩

/-- What is done without a packet of a client. -/
theorem Modest.idle (quiet : task = .idle ∨ ∃ m, task = .deliver m)
    (change : Change cfg closes task c b b') (modest : Modest b) : Modest b' := by
  rcases quiet with same | ⟨m, same⟩
  · subst same
    exact modest.change (show LowQos .idle from trivial) trivial change
  · subst same
    exact modest.change (show LowQos (.deliver m) from trivial) trivial change

theorem Modest.answers (modest : Modest b) (answers : Answers) : Modest { b with answers } :=
  ⟨modest.subscriptions, modest.messages, modest.packets, modest.sessions, modest.refused⟩

/-- Writing a session into a client that is there. -/
theorem Modest.written {p p' : Client} (modest : Modest b) (present : b.clients c = some p)
    (log : b'.log = b.log) (messages : b'.messages = b.messages)
    (clients : b'.clients = Function.update b.clients c (some p'))
    (subscriptions : p'.subscriptions = p.subscriptions)
    (session : p'.session.state ≠ .header → ¬ IsAck p'.session.header.msgType) : Modest b' := by
  have other : ∀ d q, b'.clients d = some q → d = c ∧ q = p' ∨ b.clients d = some q := by
    intro d q found
    rw [clients] at found
    by_cases same : d = c
    · left
      subst same
      exact ⟨rfl, by simpa [eq_comm] using found⟩
    · right
      simpa [same] using found
  refine ⟨fun d q i found => ?_, messages ▸ modest.messages, log ▸ modest.packets,
    fun d q found => ?_, log ▸ modest.refused⟩
  · rcases other d q found with ⟨same, written⟩ | before
    · subst d q
      rw [subscriptions]
      exact modest.subscriptions c p i present
    · exact modest.subscriptions d q i before
  · rcases other d q found with ⟨same, written⟩ | before
    · subst d q
      exact session
    · exact modest.sessions d q before

/-! ### Rounds -/

/-- A client that follows the protocol completes packets of low QoS only. -/
def Modestly (cfg : Config) (c : ClientId) (b : State) (byte : Byte) : Prop :=
  compliant c b byte = true ∧ LowQos (roundTask cfg c b byte)

instance (byte : Byte) : Decidable (Modestly cfg c b byte) :=
  inferInstanceAs (Decidable (_ ∧ _))

section Round

variable {p : Client} {byte : Byte}

/-- Where nothing asks for an acknowledgement, the packet a round works on is none. -/
theorem header_no_ack {s : Session} (modest : Modest b) (ok : p.session.Ok)
    (present : b.clients c = some p) (follows : compliant c b byte = true)
    (left : (parsing cfg b p byte).session = some s) : ¬ IsAck s.header.msgType := by
  rw [parserByte_headerOf ok left]
  split
  · rename_i here
    intro ack
    simp only [compliant, present, here, ack, ne_eq, not_true_eq_false, decide_false, decide_true,
      Bool.not_true, Bool.or_self, Bool.false_or, List.any_eq_true] at follows
    obtain ⟨event, logged, asks⟩ := follows
    cases event with
    | packet d packet =>
        obtain ⟨-, asked⟩ : _ ∧ _ := by simpa using asks
        simp [modest.packets d packet logged] at asked
    | _ => simp at asks
  · rename_i behind
    exact modest.sessions c p present behind

theorem taskOf_flagged {s : Session} (ok : s.Ok) (request : Request) : Flagged (taskOf c s request) := by
  cases request with
  | publish =>
      cases drafted : s.publish.mp with
      | some draft =>
          obtain ⟨dup, -, retain⟩ := ok.draft draft drafted
          simpa [taskOf, drafted, Flagged] using ⟨dup, retain⟩
      | none => simp [taskOf, drafted, Flagged]
  | _ => trivial

private theorem modest_round (sound : Sound b) (there : (b.clients c).isSome) (modest : Modest b)
    (modestly : Modestly cfg c b byte) :
    RoundEnds Modest Modest (fun _ => Modest) ((parserRound cfg c byte).run b) := by
  obtain ⟨p, present⟩ := Option.isSome_iff_exists.mp there
  obtain ⟨follows, low⟩ := modestly
  have ok := sound.sessions c p present
  have calls : (parsing cfg b p byte).Ensures Session.Ok fun last _ => last.Ok := parserByte_ok ok
  have round := sound.round present cfg byte
  have parsed : ∀ s, (parsing cfg b p byte).session = some s → Modest (b.parsed c p s) := by
    intro s left
    exact modest.written present rfl rfl rfl rfl fun _ => header_no_ack modest ok present follows left
  have called : ∀ {s request d}, parsing cfg b p byte = .call s request →
      Evolves cfg true (taskOf c s request) c (b.parsed c p s) d → Modest d := by
    intro s request d parses chain
    rw [parses] at calls
    simp only [roundTask, present, parses] at low
    exact chain.invariant (Modest.change low (taskOf_flagged calls request))
      (parsed s (by rw [parses]; rfl))
  generalize (parserRound cfg c byte).run b = outcome at round
  cases round with
  | @next s parses => exact parsed s (by rw [parses]; rfl)
  | @refused s rv parses fails =>
      have left : (parsing cfg b p byte).session = some s := by rw [parses]; rfl
      have before := parsed s left
      refine ⟨fails, before.subscriptions, before.messages, fun d packet logged => ?_, before.sessions,
        fun d type logged => ?_⟩
      · exact before.packets d packet (by simpa [State.emit] using logged)
      · rcases List.mem_append.mp logged with old | new
        · exact before.refused d type old
        · obtain ⟨-, same⟩ := Event.refused.inj (List.mem_singleton.mp new)
          exact same ▸ header_no_ack modest ok present follows left
  | returned parses chain decided found =>
      exact (called parses chain).written found rfl rfl rfl rfl fun behind => absurd rfl behind
  | failed may parses chain => exact ⟨by decide, called parses chain⟩
  | broken parses chain fails => exact called parses chain
  | @left s fault d may parses chain fails =>
      exact chain.invariant (Modest.idle (.inl rfl)) (parsed s (by rw [parses]; rfl))
  | stopped other => exact modest.answers _

end Round

/-! ### Runs -/

/-- Clients follow the protocol, subscribe at QoS 0 and publish below QoS 2. -/
def Handshakes (cfg : Config) (run : Run) : Action → Prop
  | .parse c buf answers => Along cfg c (Modestly cfg c) buf { run.state with answers }
  | _ => True

instance decidableHandshakes (run : Run) : ∀ action, Decidable (Handshakes cfg run action)
  | .parse c buf answers => decidableAlong cfg c (Modestly cfg c) buf { run.state with answers }
  | .accept _ _ _ _ => isTrue trivial
  | .drop _ _ _ => isTrue trivial
  | .deliver _ _ => isTrue trivial
  | .gc _ => isTrue trivial

private theorem modest_accept (modest : Modest b) (w : Nat) (isTls isWs : Bool) (ipAddress : List Byte) :
    Modest ((workersAddClient w isTls isWs ipAddress).run b).2 := by
  have other : ∀ d q, ((workersAddClient w isTls isWs ipAddress).run b).2.clients d = some q →
      q = cNew w isTls isWs ipAddress ∨ b.clients d = some q := by
    intro d q found
    by_cases same : d = b.nextClient
    · left
      subst same
      simpa [workersAddClient, eq_comm] using found
    · right
      simpa [workersAddClient, same] using found
  refine ⟨fun d q i found => ?_, modest.messages, modest.packets, fun d q found => ?_, modest.refused⟩
  · rcases other d q found with new | before
    · subst new
      rfl
    · exact modest.subscriptions d q i before
  · rcases other d q found with new | before
    · subst new
      intro behind
      exact absurd rfl behind
    · exact modest.sessions d q before

private theorem modest_persistent : Persistent cfg Modest :=
  ⟨fun answers modest => modest.answers answers, fun w isTls isWs ipAddress modest =>
    modest_accept modest w isTls isWs ipAddress, Modest.idle⟩

/-- In every run of clients that follow the protocol, subscribe at QoS 0 and publish
below QoS 2, no acknowledgement is refused. -/
theorem acknowledgement_never_refused {run : Run}
    (reached : ((broker cfg).restrict (Handshakes cfg)).Reachable run) (c : ClientId) (type : MsgType)
    (ack : IsAck type) : Event.refused c type ∉ run.state.log := by
  have initially : ∀ run, ((broker cfg).restrict (Handshakes cfg)).init run → Modest run.state := by
    intro run initial
    obtain rfl : run = start := initial
    exact ⟨by simp [start], by simp [start], by simp [start], by simp [start], by simp [start]⟩
  have preserved : ∀ run action next, ((broker cfg).restrict (Handshakes cfg)).Reachable run →
      Modest run.state → ((broker cfg).restrict (Handshakes cfg)).step run action = some next →
      Modest next.state := by
    intro run action next reached modest stepped
    obtain ⟨handshakes, stepped⟩ := System.restrict_step.mp stepped
    refine modest_persistent.steps modest_round (reachable_sound reached.of_restrict) modest
      (fun c buf answers parses => ?_) (step_steps stepped).2
    subst parses
    exact handshakes
  intro refused
  exact (reached.invariant initially preserved).refused c type refused ack

/-- A client connects, subscribes to `a` at a QoS and publishes to it under a header. -/
def echo (granted header : Byte) : List Action :=
  [.accept 0 false false [],
    .parse 0 ([0x10, 13, 0, 4] ++ lit "MQTT" ++ [4, 2, 0, 60, 0, 1] ++ lit "c") silent,
    .parse 0 ([0x82, 6, 0, 1, 0, 1] ++ lit "a" ++ [granted]) silent,
    .parse 0 ([header, 6, 0, 1] ++ lit "a" ++ [0, 9] ++ lit "x") silent,
    .deliver 0 silent, .deliver 0 silent]

/-- A subscription of QoS 0 and a message of QoS 1. -/
theorem acknowledgement_never_refused_low :
    ∃ run, ((broker (oneWorker true)).restrict (Handshakes (oneWorker true))).run start (echo 0 0x32) =
        some run ∧ Event.packet 0 [0x30, 4, 0, 1, 97, 120] ∈ run.state.log ∧
      Event.refused 0 .puback ∉ run.state.log := by
  have ends : (((broker (oneWorker true)).restrict (Handshakes (oneWorker true))).run start
      (echo 0 0x32)).map (fun run => decide (Event.packet 0 [0x30, 4, 0, 1, 97, 120] ∈ run.state.log)) =
      some true := by decide +kernel
  obtain ⟨run, ran, sent⟩ := Option.map_eq_some_iff.mp ends
  exact ⟨run, ran, of_decide_eq_true sent,
    acknowledgement_never_refused (.run (.start rfl) ran) 0 .puback (.inl rfl)⟩

/-- A subscriber at QoS 1 answers the message it is sent and is closed for it; a
publisher at QoS 2 answers the PUBREC it is sent and is closed for it. -/
theorem acknowledgement_refused :
    (∃ run, (broker (oneWorker true)).Reachable run ∧
      Event.packet 0 [0x32, 6, 0, 1, 97, 0, 1, 120] ∈ run.state.log ∧
      Event.refused 0 .puback ∈ run.state.log ∧ Event.closed 0 ∈ run.state.log) ∧
    ∃ run, (broker (oneWorker true)).Reachable run ∧ Event.packet 0 [0x50, 2, 0, 9] ∈ run.state.log ∧
      Event.refused 0 .pubrel ∈ run.state.log ∧ Event.closed 0 ∈ run.state.log := by
  have puback : ((broker (oneWorker true)).run start
      (echo 1 0x32 ++ [.parse 0 [0x40, 2, 0, 1] silent])).map (fun run =>
        decide (Event.packet 0 [0x32, 6, 0, 1, 97, 0, 1, 120] ∈ run.state.log ∧
          Event.refused 0 .puback ∈ run.state.log ∧ Event.closed 0 ∈ run.state.log)) =
      some true := by decide +kernel
  have pubrel : ((broker (oneWorker true)).run start
      (echo 0 0x34 ++ [.parse 0 [0x62, 2, 0, 9] silent])).map (fun run =>
        decide (Event.packet 0 [0x50, 2, 0, 9] ∈ run.state.log ∧
          Event.refused 0 .pubrel ∈ run.state.log ∧ Event.closed 0 ∈ run.state.log)) =
      some true := by decide +kernel
  obtain ⟨first, ran, happens⟩ := Option.map_eq_some_iff.mp puback
  obtain ⟨second, ran', happens'⟩ := Option.map_eq_some_iff.mp pubrel
  exact ⟨⟨first, .run (.start rfl) ran, of_decide_eq_true happens⟩,
    second, .run (.start rfl) ran', of_decide_eq_true happens'⟩

end FbBroker.Broker
