import FbBroker.Broker.Output
import FbBroker.Parser.Connect

/-!
Contract: the messages of `c_pub_connected` and `c_pub_disconnected`.

Owns when the two lengths of such a message are those of what was formatted. The
length of the topic is added up from the announced length of the client id, which a
second CONNECT overwrites before it is checked, while `sprintf` stops at a NUL; the
length of the payload is what `snprintf` would have needed, while its buffer has 256
bytes.

Does not own who receives the messages.
-/

set_option autoImplicit false

namespace FbBroker.Broker

open FbBroker.Lib FbBroker.Packet FbBroker.Parser FbBroker.Auth

variable {cfg : Config} {c : ClientId} {b d : State} {p : Client}

/-! ### One message -/

/-- The text of the message about a client that has connected. -/
def greeting (p : Client) (recvAt : Nat) : List Byte :=
  lit "\x7b\"client_id\":\"" ++ idString p.session.clientId ++ lit "\",\"username\":\"" ++
    idString p.session.username ++ lit "\",\"ip_address\":\"" ++ p.ipAddress ++
    lit "\",\"ts\":" ++ timeText recvAt ++ lit "\x7d"

/-- The call queues a message that is made of this topic and of what `snprintf` leaves of this
text, with no byte behind them. -/
def Publishes (call : Code Unit) (b : State) (topic text : List Byte) : Prop :=
  ∃ d entry, call.run b = (.ok (), d) ∧ d.messages b.nextMsg = some entry ∧
    entry.message.topic = topic ∧ entry.message.payload = snprintf 256 text

theorem Publishes.congr {call other : Code Unit} {topic text : List Byte}
    (same : call.run b = other.run b) : Publishes call b topic text ↔ Publishes other b topic text := by
  unfold Publishes
  rw [same]

private theorem sysMessage_topic_iff {topicLen : Nat} {topic payload : List Byte} :
    (sysMessage topicLen topic payload).topic = topic ↔ topic.length = topicLen % 2 ^ 16 := by
  have room : topicLen % 2 ^ 16 ≤ topicLen := Nat.mod_le _ _
  constructor
  · intro same
    have length := congrArg List.length same
    simp only [sysMessage, List.length_take, List.length_append, List.length_replicate] at length
    omega
  · intro length
    rw [sysMessage, ← length]
    exact List.take_left

private theorem sysMessage_payload_iff {topicLen : Nat} {topic payload : List Byte} (inside : payload.length ≤ 256) :
    (sysMessage topicLen topic payload).payload = snprintf 256 payload ↔ payload.length ≤ 255 := by
  constructor
  · intro same
    have length := congrArg List.length same
    simp only [sysMessage, snprintf, List.length_take, List.length_append, List.length_singleton] at length
    omega
  · intro short
    have whole : snprintf 256 payload = payload := List.take_of_length_le short
    rw [sysMessage, whole]
    exact List.take_left

/-- A message is as it should be if both lengths are. -/
theorem pubSys_publishes_iff (about : Event) (worker topicLen : Nat) {topic text : List Byte}
    (memory : b.answers.mallocs.headD true = true) :
    Publishes (pubSys cfg about worker topicLen topic text) b topic text ↔
      topic.length = topicLen % 2 ^ 16 ∧ text.length ≤ 255 := by
  unfold Publishes
  rw [pubSys_run, if_pos memory]
  by_cases inside : text.length ≤ 256
  · have stored : (b.announce cfg about worker (sysMessage topicLen topic text)).messages b.nextMsg =
        some (b.freshMessage cfg (.me worker) (sysMessage topicLen topic text)) :=
      Function.update_self _ _ _
    have fitting : (sysMessage topicLen topic text).topic = topic ∧
        (sysMessage topicLen topic text).payload = snprintf 256 text ↔
        topic.length = topicLen % 2 ^ 16 ∧ text.length ≤ 255 :=
      and_congr sysMessage_topic_iff (sysMessage_payload_iff inside)
    rw [if_pos inside, ← fitting]
    constructor
    · rintro ⟨d, entry, ran, found, same⟩
      obtain ⟨-, rfl⟩ := Prod.mk.inj ran
      obtain rfl := Option.some.inj (stored.symm.trans found)
      exact same
    · intro same
      exact ⟨_, _, rfl, stored, same⟩
  · rw [if_neg inside]
    constructor
    · rintro ⟨d, entry, ran, -⟩
      cases (Prod.mk.inj ran).1
    · intro short
      omega

/-! ### The topic -/

/-- The string of a client id that was read from a CONNECT. -/
theorem idString_eq {array : Nat → Byte} {id : List Byte} (short : id.length ≤ Parser.maxIdLen)
    (reads : bytes id.length array = id) (nul : array id.length = 0) : idString array = cstr id := by
  have whole : idString array = cstr (bytes (Parser.maxIdLen + 1) array) := by
    simp [idString, stringAt, bytes]
  rw [whole, cstr_bytes (Nat.lt_succ_of_le short) reads nul]

private theorem length_idString_le (array : Nat → Byte) : (idString array).length ≤ 128 := by
  refine (cstr_isPrefix _).length_le.trans ?_
  simp [Parser.maxIdLen]

/-- The topic has the length that was added up, if the announced length is that of the string and
the sum is a `uint16_t`. -/
theorem length_sysTopic_iff {id event : List Byte} {clientIdLen : Nat} (short : id.length ≤ 128) :
    (sysTopic cfg id event).length = ((sysTopic cfg [] event).length + clientIdLen) % 2 ^ 16 ↔
      clientIdLen % 2 ^ 16 = id.length ∧ (sysTopic cfg [] event).length + id.length < 2 ^ 16 := by
  have parts : (sysTopic cfg id event).length = (sysTopic cfg [] event).length + id.length := by
    simp only [sysTopic, List.length_append, List.length_nil]
    omega
  rw [parts]
  omega

/-! ### Both messages -/

/-- The reasons of `c_disconnect` that are literals. -/
def reasons : List (List Byte) :=
  [lit "auth failed", lit "auth sub failed", lit "c_send_data_ws too big", lit "mqtt parse error",
    lit "disconnect", lit "keep-alive timeout", lit "tls_recv BIO_write rbio",
    lit "tls_recv send error", lit "tls_recv SSL_accept error", lit "tls_recv BIO_read wbio",
    lit "tls_recv SSL_read", lit "tls_write SSL_write", lit "http_parser_execute",
    lit "b64-decode-key", lit "non-upgrade http request"]

private theorem length_reasons_le : ∀ reason ∈ reasons, reason.length ≤ 25 := by
  decide

private theorem length_greeting (p : Client) (recvAt : Nat) :
    (greeting p recvAt).length = 52 + (idString p.session.clientId).length +
      (idString p.session.username).length + p.ipAddress.length + (timeText recvAt).length := by
  have parts : (lit "\x7b\"client_id\":\"").length = 14 ∧ (lit "\",\"username\":\"").length = 14 ∧
      (lit "\",\"ip_address\":\"").length = 16 ∧ (lit "\",\"ts\":").length = 7 ∧
      (lit "\x7d").length = 1 := by
    decide
  simp only [greeting, List.length_append, parts]
  omega

private theorem length_farewell (p : Client) (recvAt : Nat) (reason : List Byte) :
    (farewell p recvAt reason).length = 34 + (idString p.session.clientId).length + reason.length +
      (timeText recvAt).length := by
  have parts : (lit "\x7b\"client_id\":\"").length = 14 ∧ (lit "\",\"reason\":\"").length = 12 ∧
      (lit "\",\"ts\":").length = 7 ∧ (lit "\x7d").length = 1 := by
    decide
  simp only [farewell, List.length_append, parts]
  omega

private theorem length_sysTopic_nil (cfg : Config) (event : List Byte) :
    (sysTopic cfg [] event).length = 22 + cfg.name.length + event.length := by
  have parts : (lit "$SYS/brokers/").length = 13 ∧ (lit "/clients/").length = 9 := by decide
  simp only [sysTopic, List.length_append, parts, List.length_nil]
  omega

/-- A call that makes a message about a client. -/
theorem publishes_client_iff {call : Code Unit} {about : Event} {event text : List Byte}
    (memory : b.answers.mallocs.headD true = true)
    (runs : call.run b = (pubSys cfg about p.worker (sysTopicLen cfg p event)
      (sysTopic cfg (idString p.session.clientId) event) text).run b) :
    Publishes call b (sysTopic cfg (idString p.session.clientId) event) text ↔
      p.session.clientIdLen % 2 ^ 16 = (idString p.session.clientId).length ∧
        22 + cfg.name.length + event.length + (idString p.session.clientId).length < 2 ^ 16 ∧
        text.length ≤ 255 := by
  rw [Publishes.congr runs, pubSys_publishes_iff _ _ _ memory, sysTopicLen,
    length_sysTopic_iff (length_idString_le _), length_sysTopic_nil, and_assoc]

private theorem cPubConnected_eq (cfg : Config) (present : b.clients c = some p) :
    (cPubConnected cfg c).run b =
      (pubSys cfg (.online c) p.worker (sysTopicLen cfg p (lit "/connected"))
        (sysTopic cfg (idString p.session.clientId) (lit "/connected"))
        (greeting p (b.ka.timer c).recvAt)).run b := by
  rw [cPubConnected, Cmd.bind_ok (client_run present)]
  rfl

/-- The messages about a client are as they should be if and only if the announced length of its id
is the length of the string, the topic is not too long and the text fits its buffer. The literal
reasons always fit, and with an id read from a CONNECT the lengths agree if it has no NUL. -/
theorem sysMessages_wellFormed_iff (cfg : Config) (b : State) (c : ClientId) (p : Client)
    (reason : List Byte) (present : b.clients c = some p) (memory : b.answers.mallocs.headD true = true) :
    (Publishes (cPubConnected cfg c) b (sysTopic cfg (idString p.session.clientId) (lit "/connected"))
        (greeting p (b.ka.timer c).recvAt) ↔
      p.session.clientIdLen % 2 ^ 16 = (idString p.session.clientId).length ∧
        32 + cfg.name.length + (idString p.session.clientId).length < 2 ^ 16 ∧
        52 + (idString p.session.clientId).length + (idString p.session.username).length +
          p.ipAddress.length + (timeText (b.ka.timer c).recvAt).length ≤ 255) ∧
    (Publishes (cPubDisconnected cfg c reason) b
        (sysTopic cfg (idString p.session.clientId) (lit "/disconnected"))
        (farewell p (b.ka.timer c).recvAt reason) ↔
      p.session.clientIdLen % 2 ^ 16 = (idString p.session.clientId).length ∧
        35 + cfg.name.length + (idString p.session.clientId).length < 2 ^ 16 ∧
        34 + (idString p.session.clientId).length + reason.length +
          (timeText (b.ka.timer c).recvAt).length ≤ 255) ∧
    (∀ reason ∈ reasons, 34 + (idString p.session.clientId).length + reason.length +
      (timeText (b.ka.timer c).recvAt).length ≤ 255) ∧
    ∀ packet : ConnectPacket, packet.WellFormed → Carries packet p.session →
      (p.session.clientIdLen % 2 ^ 16 = (idString p.session.clientId).length ↔
        (0 : Byte) ∉ packet.clientId) := by
  have events : (lit "/connected").length = 10 ∧ (lit "/disconnected").length = 13 := by decide
  refine ⟨?_, ?_, fun reason member => ?_, fun packet wellFormed carries => ?_⟩
  · rw [publishes_client_iff memory (cPubConnected_eq cfg present), events.1, length_greeting]
    omega
  · rw [publishes_client_iff memory (cPubDisconnected_eq cfg present reason), events.2, length_farewell]
    omega
  · have digits := length_timeText_le (b.ka.timer c).recvAt
    have literal := length_reasons_le reason member
    have short := length_idString_le p.session.clientId
    omega
  · have short : packet.clientId.length ≤ 127 := wellFormed.clientId.2
    obtain ⟨length, reads, nul⟩ := carries.clientId
    rw [length, idString_eq wellFormed.clientId.2 reads nul, Nat.mod_eq_of_lt (by omega), eq_comm]
    exact length_cstr_eq_iff

/-- A client `a` of the user `U-1`, at the time 1700000000. -/
theorem sysMessages_wellFormed_iff_user :
    ∃ (b : State) (p : Client), b.clients 0 = some p ∧ (b.ka.timer 0).recvAt = 1700000000 ∧
      Publishes (cPubConnected (oneWorker false) 0) b (lit "$SYS/brokers//clients/a/connected")
        (greeting p 1700000000) := by
  let session : Session := { mqttParserInit with
    keepAlive := 60, clientIdLen := 1, usernameLen := 3
    clientId := fun i => (lit "a").getD i 0
    username := fun i => (lit "U-1").getD i 0
    connect := { mqttParserInit.connect with
      usernamePresent := true, passwordPresent := true, password := fun i => (lit "p").getD i 0 } }
  let p : Client := { cNew 0 false false (lit "10.0.0.1") with session, state := .connected }
  let b : State := { start.state.putClient 0 p with
    ka := { start.state.ka with timer := fun _ => ⟨1700000000, 0, 0⟩ } }
  refine ⟨b, p, rfl, rfl, ?_⟩
  exact (sysMessages_wellFormed_iff (oneWorker false) b 0 p [] rfl rfl).1.mpr
    ⟨by decide +kernel, by decide +kernel, by decide +kernel⟩

/-- For the client id `a`, NUL, `b` two bytes behind the topic are published; a connected client `a`
that announces an id of 384 bytes in a second CONNECT is disconnected with a topic of 419 bytes, of
which 36 are text; and for a client id and a user name of 127 bytes each, `memcpy` reads behind the
buffer of the payload. -/
theorem sysMessages_malformed :
    (∃ run, (broker (oneWorker true)).run start [.accept 0 false false [],
        .parse 0 [0x10, 15, 0, 4, 77, 81, 84, 84, 4, 2, 0, 60, 0, 3, 97, 0, 98] silent] = some run ∧
      (run.state.messages 0).map (·.message.topic) =
        some (lit "$SYS/brokers//clients/a/connected" ++ [0, 0])) ∧
    (∃ run, (broker (oneWorker true)).run start [.accept 0 false false [],
        .parse 0 [0x10, 13, 0, 4, 77, 81, 84, 84, 4, 2, 0, 60, 0, 1, 97] silent,
        .parse 0 [0x10, 30, 0, 4, 77, 81, 84, 84, 4, 2, 0, 60, 1, 0x80] silent] = some run ∧
      (run.state.messages 1).map (·.message.topic) =
        some (lit "$SYS/brokers//clients/a/disconnected" ++ List.replicate 383 0)) ∧
    ∃ run, (broker (oneWorker false)).run start [.accept 0 false false [],
        .parse 0 ([0x10, 143, 2, 0, 4, 77, 81, 84, 84, 4, 0xc2, 0, 60, 0, 127] ++ List.replicate 127 97 ++
            [0, 127] ++ lit "U-" ++ List.replicate 125 97 ++ [0, 1] ++ lit "p")
          { silent with
            db := fun _ => .result 3 [[some (lit "p"), some (lit "0"), some (lit "7")]] }] = some run ∧
      (run.ended, run.state.log) =
        (true, [.accepted 0, .packet 0 [32, 2, 0, 0], .wire 0 [32, 2, 0, 0]]) := by
  refine ⟨Option.map_eq_some_iff.mp ?_, Option.map_eq_some_iff.mp ?_, Option.map_eq_some_iff.mp ?_⟩
  all_goals decide +kernel

end FbBroker.Broker
