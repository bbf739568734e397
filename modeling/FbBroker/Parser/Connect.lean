import FbBroker.Parser.Fields

/-!
Contract: how the parser decodes a CONNECT packet.

Owns one lemma for each field of a CONNECT and the six ways the optional fields can
lead through the states. Anonymous clients and clients with user name and password are
decoded. A user name without a password is never handed over, a will without a user
name is rejected, and the message of a will has the topic that an earlier use of the
parser left in `u.connect.will_topic` and the flags of the fixed header.

Does not own what the callback does with the fields.
-/

set_option autoImplicit false

namespace FbBroker.Parser

open FbBroker.Packet FbBroker.Lib
open Host (Parses)

variable {allowAnonymous mallocOk : Bool} {stale : Nat → Byte}

/-! ### Packets -/

structure Will where
  topic : List Byte
  payload : List Byte
  qos : Nat
  retain : Nat
deriving DecidableEq, Repr

/-- The fields of a CONNECT packet of MQTT 3.1.1. -/
structure ConnectPacket where
  cleanSession : Bool
  keepAlive : Nat
  clientId : List Byte
  will : Option Will
  username : Option (List Byte)
  password : Option (List Byte)
deriving DecidableEq, Repr

/-- A field that is not empty and has at most so many bytes. -/
def Sized (content : List Byte) (bound : Nat) : Prop :=
  content ≠ [] ∧ content.length ≤ bound

structure Will.WellFormed (will : Will) : Prop where
  topic : Sized will.topic maxTopicLen
  payload : Sized will.payload maxPayloadLen
  qos : will.qos ≤ 2
  retain : will.retain ≤ 1

structure ConnectPacket.WellFormed (packet : ConnectPacket) : Prop where
  keepAlive : packet.keepAlive < 2 ^ 16
  clientId : Sized packet.clientId maxIdLen
  will : ∀ will, packet.will = some will → will.WellFormed
  username : ∀ username, packet.username = some username → Sized username maxIdLen
  password : ∀ password, packet.password = some password → Sized password maxIdLen
  named : packet.password.isSome → packet.username.isSome

/-- The connect flags. -/
def connectFlags (username password will cleanSession : Bool) (qos retain : Nat) : Byte :=
  UInt8.ofNat ((username.toNat <<< 7) ||| (password.toNat <<< 6) ||| (retain <<< 5) ||| (qos <<< 3) |||
    (will.toNat <<< 2) ||| (cleanSession.toNat <<< 1))

def ConnectPacket.flags (packet : ConnectPacket) : Byte :=
  connectFlags packet.username.isSome packet.password.isSome packet.will.isSome packet.cleanSession
    (packet.will.elim 0 Will.qos) (packet.will.elim 0 Will.retain)

/-- The fields up to the keep-alive. -/
def ConnectPacket.front (packet : ConnectPacket) : List Byte :=
  encodeString (lit "MQTT") ++ [4, packet.flags] ++ encodeShort packet.keepAlive

/-- The fields behind the client id. -/
def ConnectPacket.options (packet : ConnectPacket) : List Byte :=
  (packet.will.elim [] fun will => encodeString will.topic ++ encodeString will.payload) ++
    packet.username.elim [] encodeString ++ packet.password.elim [] encodeString

def ConnectPacket.body (packet : ConnectPacket) : List Byte :=
  packet.front ++ encodeString packet.clientId ++ packet.options

def ConnectPacket.encode (packet : ConnectPacket) : List Byte :=
  (encodeHeaderByte .connect 0 0 0 :: encodeRemLen packet.body.length) ++ packet.body

private theorem connectFlags_bits : ∀ (username password will cleanSession : Bool), ∀ qos < 3, ∀ retain < 2,
    ((connectFlags username password will cleanSession qos retain).toNat >>> 2 &&& 1 = 1 ↔ will) ∧
    ((connectFlags username password will cleanSession qos retain).toNat >>> 6 &&& 1 = 1 ↔ password) ∧
    ((connectFlags username password will cleanSession qos retain).toNat >>> 7 = 1 ↔ username) := by
  decide

/-! ### Fields -/

section Fields

variable {s : Session}

/-- A field that fits its array is read byte by byte; the counter, an `uint16_t`,
stays in the array and does not wrap. -/
private theorem parses_sized {content : List Byte} {bound : Nat} (sized : Sized content bound)
    (narrow : bound < 2 ^ 16) (copy : List Byte → Session) {middle : Session} {outcome : Outcome}
    (first : parserByte allowAnonymous mallocOk s (UInt8.ofNat (content.length / 256)) = .next middle)
    (second : low (high (UInt8.ofNat (content.length / 256))) (UInt8.ofNat (content.length % 256)) =
        content.length → content ≠ [] → content.length ≤ bound →
      parserByte allowAnonymous mallocOk middle (UInt8.ofNat (content.length % 256)) = .next (copy []))
    (more : ∀ read b, incr16 read.length = read.length + 1 → read.length < bound + 1 →
      read.length + 1 ≠ content.length →
        parserByte allowAnonymous mallocOk (copy read) b = .next (copy (read ++ [b])))
    (last : ∀ read b, read ++ [b] = content → incr16 read.length = content.length →
      read.length < bound + 1 → content.length < bound + 1 →
        parserByte allowAnonymous mallocOk (copy read) b = outcome) :
    Parses allowAnonymous mallocOk s (encodeString content) outcome := by
  obtain ⟨nonempty, short⟩ := sized
  refine parses_string copy first (second (low_high_encodeShort (short.trans_lt narrow)) nonempty short)
    (fun read b inside => ?_) (fun read b whole => ?_) nonempty
  · exact more read b (incr16_of_lt (by omega)) (by omega) (by omega)
  · have length : read.length + 1 = content.length := by rw [← whole]; simp
    exact last read b whole ((incr16_of_lt (by omega)).trans length) (by omega) (by omega)

/-- The session behind the client id. -/
def withClientId (s : Session) (id : List Byte) : Session :=
  { s with
    clientIdLen := id.length
    clientId := Function.update (fill s.clientId id) id.length 0
    i := id.length
    state := .connect .clientId2 }

private theorem parses_clientId (here : s.state = .connect .clientId0) {id : List Byte} (sized : Sized id maxIdLen) :
    Parses allowAnonymous mallocOk s (encodeString id)
      (clientIdDone allowAnonymous (withClientId s id)) := by
  refine parses_sized sized (by decide) (fun read => { s with
      clientIdLen := id.length, clientId := fill s.clientId read, i := read.length
      state := .connect .clientId2 }) (by rw [parserByte, here]; rfl) ?_ ?_ ?_
  · intro value nonempty short
    simp [parserByte, connectByte, value, nonempty, short]
  · intro read b index room notLast
    simp [parserByte, connectByte, store, room, index, notLast, update_fill]
  · intro read b whole index room roomEnd
    simp [parserByte, connectByte, store, room, roomEnd, index, update_fill, whole, withClientId]

/-- The session behind the topic of the will. -/
def withWillTopic (s : Session) (topic : List Byte) : Session :=
  { s with
    connect.willTopicLen := topic.length
    willTopic := fill s.willTopic topic
    i := topic.length
    state := .connect .willPayload0 }

private theorem parses_willTopic (here : s.state = .connect .willTopic0) {topic : List Byte}
    (sized : Sized topic maxTopicLen) :
    Parses allowAnonymous mallocOk s (encodeString topic) (.next (withWillTopic s topic)) := by
  refine parses_sized sized (by decide) (fun read => { s with
      connect.willTopicLen := topic.length, willTopic := fill s.willTopic read, i := read.length
      state := .connect .willTopic2 }) (by rw [parserByte, here]; rfl) ?_ ?_ ?_
  · intro value nonempty short
    simp [parserByte, connectByte, value, nonempty, Nat.le_succ_of_le short]
  · intro read b index room notLast
    simp [parserByte, connectByte, store, room, index, notLast, update_fill]
  · intro read b whole index room roomEnd
    simp [parserByte, connectByte, store, room, index, update_fill, whole, withWillTopic]

/-- The session behind the payload of the will: the message has the topic that
`u.connect.will_topic` holds and the flags of the fixed header. -/
def withWillPayload (s : Session) (payload : List Byte) : Session :=
  { s with
    connect.u16 := payload.length
    willMp := some
      { messageCreate s.connect.willTopicLen payload.length 0 s.header.qos s.header.retain 0 with
        topic := s.connect.willTopic, payload := fill (fun _ => 0) payload }
    i := payload.length
    state := .connect .willPayload2 }

private theorem parses_willPayload (here : s.state = .connect .willPayload0) {payload : List Byte}
    (sized : Sized payload maxPayloadLen) :
    Parses allowAnonymous true s (encodeString payload)
      (if s.connect.usernamePresent then
        .next { withWillPayload s payload with state := .connect .username0 }
      else .ret (withWillPayload s payload) (-1)) := by
  have narrow : payload.length < 2 ^ 16 := sized.2.trans_lt (by decide)
  refine parses_sized ⟨sized.1, Nat.le_refl payload.length⟩ narrow (fun read => { s with
      connect.u16 := payload.length
      willMp := some
        { messageCreate s.connect.willTopicLen payload.length 0 s.header.qos s.header.retain 0 with
          topic := s.connect.willTopic, payload := fill (fun _ => 0) read }
      i := read.length
      state := .connect .willPayload2 }) (by rw [parserByte, here]; rfl) ?_ ?_ ?_
  · intro value nonempty _
    simp [parserByte, connectByte, value, nonempty, sized.2, messageCreate]
  · intro read b index room notLast
    simp [parserByte, connectByte, store, messageCreate, room, index, notLast, update_fill]
  · intro read b whole index room _
    simp [parserByte, connectByte, store, messageCreate, room, index, update_fill, whole,
      withWillPayload]

/-- A will whose message cannot be allocated is rejected at the length of its payload. -/
theorem parses_willPayload_failed (here : s.state = .connect .willPayload0) {payload : List Byte}
    (sized : Sized payload maxPayloadLen) :
    ∃ refused, Parses allowAnonymous false s (encodeShort payload.length) (.ret refused 1) := by
  have value := low_high_encodeShort (sized.2.trans_lt (by decide))
  refine ⟨{ s with connect.u16 := payload.length, i := 0, state := .connect .willPayload1 },
    parses_short (by rw [parserByte, here]; rfl) ?_⟩
  simp [parserByte, connectByte, value, sized.1, sized.2]

/-- The session behind the user name. -/
def withUsername (s : Session) (username : List Byte) : Session :=
  { s with
    usernameLen := username.length
    username := Function.update (fill s.username username) username.length 0
    i := username.length
    state := .connect .password0 }

private theorem parses_username (here : s.state = .connect .username0) {username : List Byte}
    (sized : Sized username maxIdLen) :
    Parses allowAnonymous mallocOk s (encodeString username) (.next (withUsername s username)) := by
  refine parses_sized sized (by decide) (fun read => { s with
      usernameLen := username.length, username := fill s.username read, i := read.length
      state := .connect .username2 }) (by rw [parserByte, here]; rfl) ?_ ?_ ?_
  · intro value nonempty short
    simp [parserByte, connectByte, value, nonempty, short]
  · intro read b index room notLast
    simp [parserByte, connectByte, store, room, index, notLast, update_fill]
  · intro read b whole index room roomEnd
    simp [parserByte, connectByte, store, room, roomEnd, index, update_fill, whole, withUsername]

/-- The session behind the password. -/
def withPassword (s : Session) (password : List Byte) : Session :=
  { s with
    connect.u16 := password.length
    connect.password := Function.update (fill s.connect.password password) password.length 0
    i := password.length
    state := .connect .password2 }

private theorem parses_password (here : s.state = .connect .password0) {password : List Byte}
    (sized : Sized password maxIdLen) :
    Parses allowAnonymous mallocOk s (encodeString password)
      (.call (withPassword s password) .connect) := by
  refine parses_sized sized (by decide) (fun read => { s with
      connect.u16 := password.length, connect.password := fill s.connect.password read
      i := read.length, state := .connect .password2 }) (by rw [parserByte, here]; rfl) ?_ ?_ ?_
  · intro value nonempty short
    simp [parserByte, connectByte, value, nonempty, short]
  · intro read b index room notLast
    simp [parserByte, connectByte, store, room, index, notLast, update_fill]
  · intro read b whole index room roomEnd
    simp [parserByte, connectByte, store, room, roomEnd, index, update_fill, whole, withPassword]

/-- The session behind the protocol name. -/
def withProtocol (s : Session) (name : List Byte) : Session :=
  { s with
    connect.u16 := name.length
    connect.protocol := fill s.connect.protocol name
    i := name.length
    state := .connect .version }

private theorem parses_protocol (here : s.state = .connect .protocol0) {name : List Byte} (sized : Sized name 6) :
    Parses allowAnonymous mallocOk s (encodeString name) (.next (withProtocol s name)) := by
  refine parses_sized sized (by decide) (fun read => { s with
      connect.u16 := name.length, connect.protocol := fill s.connect.protocol read, i := read.length
      state := .connect .protocol2 }) (by rw [parserByte, here]; rfl) ?_ ?_ ?_
  · intro value nonempty short
    simp [parserByte, connectByte, value, short]
  · intro read b index room notLast
    simp [parserByte, connectByte, store, room, index, notLast, update_fill]
  · intro read b whole index room roomEnd
    simp [parserByte, connectByte, store, room, index, update_fill, whole, withProtocol]

/-- What the parser has read behind the keep-alive, and what an earlier use of it left in
`u.connect.will_topic`. -/
structure Begun (packet : ConnectPacket) (stale : Nat → Byte) (s : Session) : Prop where
  state : s.state = .connect .clientId0
  header : s.header = ⟨.connect, 0, 0, 0⟩
  will : s.connect.will = packet.will.isSome
  usernamePresent : s.connect.usernamePresent = packet.username.isSome
  passwordPresent : s.connect.passwordPresent = packet.password.isSome
  keepAlive : s.keepAlive = packet.keepAlive
  willTopic : s.connect.willTopic = stale

theorem ConnectPacket.WellFormed.flags_bits {packet : ConnectPacket} (wellFormed : packet.WellFormed) :
    (packet.flags.toNat >>> 2 &&& 1 = 1 ↔ packet.will.isSome) ∧
    (packet.flags.toNat >>> 6 &&& 1 = 1 ↔ packet.password.isSome) ∧
    (packet.flags.toNat >>> 7 = 1 ↔ packet.username.isSome) := by
  have qos : packet.will.elim 0 Will.qos < 3 := by
    cases present : packet.will with
    | none => decide
    | some will => exact Nat.lt_succ_of_le (wellFormed.will will present).qos
  have retain : packet.will.elim 0 Will.retain < 2 := by
    cases present : packet.will with
    | none => decide
    | some will => exact Nat.lt_succ_of_le (wellFormed.will will present).retain
  exact connectFlags_bits _ _ _ _ _ qos _ retain

private theorem parses_front (here : s.state = .connect .protocol0) (header : s.header = ⟨.connect, 0, 0, 0⟩)
    {packet : ConnectPacket} (wellFormed : packet.WellFormed) :
    ∃ next, Parses allowAnonymous mallocOk s packet.front (.next next) ∧
      Begun packet s.connect.willTopic next := by
  obtain ⟨willBit, passwordBit, usernameBit⟩ := wellFormed.flags_bits
  have name : Parses allowAnonymous mallocOk s (encodeString (lit "MQTT"))
      (.next (withProtocol s (lit "MQTT"))) :=
    parses_protocol here ⟨by decide, by decide⟩
  have version : parserByte allowAnonymous mallocOk (withProtocol s (lit "MQTT")) 4 =
      .next { withProtocol s (lit "MQTT") with state := .connect .flags } := by
    have read : bytes 4 (fill s.connect.protocol (lit "MQTT")) = lit "MQTT" :=
      bytes_fill s.connect.protocol (lit "MQTT")
    have length : (lit "MQTT").length = 4 := rfl
    simp [parserByte, withProtocol, connectByte, read, length]
  have flags : parserByte allowAnonymous mallocOk
      { withProtocol s (lit "MQTT") with state := .connect .flags } packet.flags =
      .next { withProtocol s (lit "MQTT") with
        connect.will := packet.will.isSome
        connect.passwordPresent := packet.password.isSome
        connect.usernamePresent := packet.username.isSome
        state := .connect .keepAlive0 } := by
    simp only [parserByte, connectByte, willBit, passwordBit, usernameBit, Bool.decide_eq_true]
  have keepAlive : Parses allowAnonymous mallocOk
      { withProtocol s (lit "MQTT") with
        connect.will := packet.will.isSome
        connect.passwordPresent := packet.password.isSome
        connect.usernamePresent := packet.username.isSome
        state := .connect .keepAlive0 }
      (encodeShort packet.keepAlive)
      (.next { withProtocol s (lit "MQTT") with
        connect.will := packet.will.isSome
        connect.passwordPresent := packet.password.isSome
        connect.usernamePresent := packet.username.isSome
        keepAlive := packet.keepAlive
        state := .connect .clientId0 }) := by
    refine parses_short rfl ?_
    simp [parserByte, connectByte, low_high_encodeShort wellFormed.keepAlive]
  refine ⟨_, (name.append (.more version (.last flags))).append keepAlive, ?_⟩
  exact ⟨rfl, header, rfl, rfl, rfl, rfl, rfl⟩

end Fields

/-! ### Whole packets -/

section Packets

variable {s : Session} {packet : ConnectPacket}

private theorem length_encodeString (string : List Byte) : (encodeString string).length = 2 + string.length := by
  simp [encodeString, encodeShort]
  omega

/-- A CONNECT is short enough for its remaining length. -/
theorem ConnectPacket.WellFormed.body_small (wellFormed : packet.WellFormed) :
    packet.body.length < 2 ^ 28 := by
  have id : packet.clientId.length ≤ 127 := wellFormed.clientId.2
  have will : (packet.will.elim [] fun will =>
      encodeString will.topic ++ encodeString will.payload).length ≤ 4227 := by
    cases present : packet.will with
    | none => simp
    | some will =>
        have topic : will.topic.length ≤ 127 := (wellFormed.will will present).topic.2
        have payload : will.payload.length ≤ 4096 := (wellFormed.will will present).payload.2
        simp only [Option.elim_some, List.length_append, length_encodeString]
        omega
  have username : (packet.username.elim [] encodeString).length ≤ 129 := by
    cases present : packet.username with
    | none => simp
    | some username =>
        have short : username.length ≤ 127 := (wellFormed.username username present).2
        simp only [Option.elim_some, length_encodeString]
        omega
  have password : (packet.password.elim [] encodeString).length ≤ 129 := by
    cases present : packet.password with
    | none => simp
    | some password =>
        have short : password.length ≤ 127 := (wellFormed.password password present).2
        simp only [Option.elim_some, length_encodeString]
        omega
  have front : packet.front.length = 10 := rfl
  simp only [ConnectPacket.body, ConnectPacket.options, List.length_append, length_encodeString, front]
  omega

private theorem parses_begin (atHeader : s.state = .header) (wellFormed : packet.WellFormed) :
    ∃ next, Parses allowAnonymous mallocOk s
        ((encodeHeaderByte .connect 0 0 0 :: encodeRemLen packet.body.length) ++ packet.front)
        (.next next) ∧ Begun packet s.connect.willTopic next := by
  have small := wellFormed.body_small
  obtain ⟨multiplier, fixedHeader⟩ : ∃ multiplier, Parses allowAnonymous mallocOk s _ _ :=
    parses_fixedHeader atHeader (show bodyState .connect = some _ from rfl) (Nat.zero_le 1)
      (Nat.zero_le 3) (show packet.body.length < 2 ^ 32 by omega)
  obtain ⟨next, front, begun⟩ : ∃ next, Parses allowAnonymous mallocOk
      { s with
        header := ⟨.connect, 0, 0, 0⟩, remLen := packet.body.length, multiplier
        state := .connect .protocol0 } packet.front (.next next) ∧ _ :=
    parses_front rfl rfl wellFormed
  exact ⟨next, fixedHeader.append front, begun⟩

/-- The record the callback is given has the fields of the packet. -/
structure Carries (packet : ConnectPacket) (s : Session) : Prop where
  keepAlive : s.keepAlive = packet.keepAlive
  clientId : s.clientIdLen = packet.clientId.length ∧
    bytes packet.clientId.length s.clientId = packet.clientId ∧ s.clientId packet.clientId.length = 0
  usernamePresent : s.connect.usernamePresent = packet.username.isSome
  username : ∀ username, packet.username = some username →
    s.usernameLen = username.length ∧ bytes username.length s.username = username ∧
      s.username username.length = 0
  passwordPresent : s.connect.passwordPresent = packet.password.isSome
  password : ∀ password, packet.password = some password →
    bytes password.length s.connect.password = password ∧ s.connect.password password.length = 0
  willPresent : s.connect.will = packet.will.isSome
  will : ∀ will, packet.will = some will →
    ∃ mp, s.willMp = some mp ∧ mp.message = ⟨0, will.qos, will.retain, 0, will.topic, will.payload⟩

/-- The CONNECTs that are decoded: a user name comes with a password; a will comes with a
user name, is of QoS 0 and not retained, has the topic `u.connect.will_topic` happens to
hold, and its message can be allocated. -/
structure Readable (mallocOk : Bool) (stale : Nat → Byte) (packet : ConnectPacket) : Prop where
  password : packet.username.isSome → packet.password.isSome
  will : ∀ will, packet.will = some will →
    packet.username.isSome ∧ will.qos = 0 ∧ will.retain = 0 ∧
      bytes will.topic.length stale = will.topic ∧ mallocOk = true

/-- Bytes terminated by a NUL. -/
theorem bytes_terminated (array : Nat → Byte) (content : List Byte) :
    bytes content.length (Function.update (fill array content) content.length 0) = content ∧
      Function.update (fill array content) content.length 0 content.length = 0 := by
  rw [bytes_update_of_le _ _ (Nat.le_refl _), bytes_fill]
  exact ⟨rfl, Function.update_self _ _ _⟩

/-- What becomes of a CONNECT. -/
inductive Reading (mallocOk : Bool) (s : Session) (packet : ConnectPacket) : Prop
  /-- it is handed over -/
  | calls (called : Session) (parses : Parses true mallocOk s packet.encode (.call called .connect))
      (carries : Carries packet called ↔ Readable mallocOk s.connect.willTopic packet)
  /-- its end is not found -/
  | waits (next : Session) (parses : Parses true mallocOk s packet.encode (.next next))
      (unreadable : ¬ Readable mallocOk s.connect.willTopic packet)
  /-- it is rejected -/
  | rejects (front rest : List Byte) (parts : packet.encode = front ++ rest) (refused : Session)
      (rv : Int) (isError : rv ≠ 0) (parses : Parses true mallocOk s front (.ret refused rv))
      (unreadable : ¬ Readable mallocOk s.connect.willTopic packet)

theorem ConnectPacket.WellFormed.no_password (wellFormed : packet.WellFormed)
    (anonymous : packet.username = none) : packet.password = none := by
  cases present : packet.password with
  | none => rfl
  | some password =>
      have named := wellFormed.named (by rw [present]; rfl)
      rw [anonymous] at named
      exact absurd named (by decide)

/-- Where the client id leads. -/
theorem Begun.clientId (begun : Begun packet stale s) (wellFormed : packet.WellFormed) :
    Parses true mallocOk s (encodeString packet.clientId)
      (if packet.will.isSome then
        .next { withClientId s packet.clientId with state := .connect .willTopic0 }
      else if packet.username.isSome then
        .next { withClientId s packet.clientId with state := .connect .username0 }
      else .call (withClientId s packet.clientId) .connect) := by
  have read : Parses true mallocOk s (encodeString packet.clientId) _ :=
    parses_clientId begun.state wellFormed.clientId
  simp only [clientIdDone, withClientId, begun.will, begun.usernamePresent, begun.passwordPresent] at read
  cases named : packet.username with
  | none => simpa [named, wellFormed.no_password named, withClientId] using read
  | some username => simpa [named, withClientId] using read

/-- The user name and the password behind it. -/
theorem parses_credentials (here : s.state = .connect .username0) {username password : List Byte}
    (usernameSized : Sized username maxIdLen) (passwordSized : Sized password maxIdLen) :
    Parses allowAnonymous mallocOk s (encodeString username ++ encodeString password)
      (.call (withPassword (withUsername s username) password) .connect) :=
  (parses_username here usernameSized).append (parses_password rfl passwordSized)

private theorem carries_anonymous (begun : Begun packet stale s) (noWill : packet.will = none)
    (noName : packet.username = none) (noPassword : packet.password = none) :
    Carries packet (withClientId s packet.clientId) := by
  refine ⟨begun.keepAlive, ⟨rfl, bytes_terminated _ _⟩, begun.usernamePresent, ?_,
    begun.passwordPresent, ?_, begun.will, ?_⟩
  · simp [noName]
  · simp [noPassword]
  · simp [noWill]

/-- With the credentials in place it is left to look at the will. -/
theorem carries_credentials (begun : Begun packet stale s) {front : Session}
    (same : front = { withClientId s packet.clientId with
      connect.willTopicLen := front.connect.willTopicLen, connect.u16 := front.connect.u16
      willTopic := front.willTopic, willMp := front.willMp, i := front.i, state := front.state })
    {username password : List Byte} (named : packet.username = some username)
    (secured : packet.password = some password)
    (will : ∀ will, packet.will = some will → ∃ mp, front.willMp = some mp ∧
      mp.message = ⟨0, will.qos, will.retain, 0, will.topic, will.payload⟩) :
    Carries packet (withPassword (withUsername front username) password) := by
  rw [same]
  refine ⟨begun.keepAlive, ⟨rfl, bytes_terminated _ _⟩, begun.usernamePresent, ?_,
    begun.passwordPresent, ?_, begun.will, will⟩
  · intro other known
    obtain rfl : username = other := Option.some.inj (named.symm.trans known)
    exact ⟨rfl, bytes_terminated _ _⟩
  · intro other known
    obtain rfl : password = other := Option.some.inj (secured.symm.trans known)
    exact bytes_terminated _ _

/-- The session behind a will with its client id in front. -/
def withWill (s : Session) (id : List Byte) (will : Will) : Session :=
  withWillPayload
    (withWillTopic { withClientId s id with state := .connect .willTopic0 } will.topic) will.payload

/-- The message of a will has the topic left in `u.connect.will_topic`, QoS 0 and no
retain flag. -/
theorem withWill_message (begun : Begun packet stale s) (id : List Byte) (will : Will) :
    ∃ mp, (withWill s id will).willMp = some mp ∧
      mp.message = ⟨0, 0, 0, 0, bytes will.topic.length stale, will.payload⟩ := by
  refine ⟨_, rfl, ?_⟩
  simp [Draft.message, messageCreate, withWillTopic, withClientId, begun.header, begun.willTopic]

private theorem carries_will (begun : Begun packet stale s) {will : Will}
    (willed : packet.will = some will) {username password : List Byte}
    (named : packet.username = some username) (secured : packet.password = some password) :
    Carries packet (withPassword
      (withUsername { withWill s packet.clientId will with state := .connect .username0 } username)
      password) ↔ Readable true stale packet := by
  obtain ⟨mp, drafted, message⟩ := withWill_message begun packet.clientId will
  constructor
  · intro carries
    refine ⟨fun _ => by rw [secured]; rfl, ?_⟩
    intro other known
    obtain rfl : will = other := Option.some.inj (willed.symm.trans known)
    obtain ⟨found, held, same⟩ := carries.will will willed
    obtain rfl : mp = found := Option.some.inj (drafted.symm.trans held)
    obtain ⟨-, qos, retain, -, topic, -⟩ := Message.mk.inj (message.symm.trans same)
    exact ⟨by rw [named]; rfl, qos.symm, retain.symm, topic, rfl⟩
  · intro readable
    apply carries_credentials begun rfl named secured
    intro other known
    obtain rfl : will = other := Option.some.inj (willed.symm.trans known)
    obtain ⟨-, qos, retain, topic, -⟩ := readable.will will willed
    exact ⟨mp, drafted, by rw [message, qos, retain, topic]⟩

private theorem encode_eq (packet : ConnectPacket) :
    packet.encode = (encodeHeaderByte .connect 0 0 0 :: encodeRemLen packet.body.length) ++
      packet.front ++ (encodeString packet.clientId ++ packet.options) := by
  simp [ConnectPacket.encode, ConnectPacket.body]

/-- A CONNECT without a will. -/
theorem reading_without_will (atHeader : s.state = .header) (wellFormed : packet.WellFormed)
    (noWill : packet.will = none) : Reading mallocOk s packet := by
  obtain ⟨behind, front, begun⟩ : ∃ next, Parses true mallocOk s _ (.next next) ∧ _ :=
    parses_begin atHeader wellFormed
  have id : Parses true mallocOk behind (encodeString packet.clientId) _ := begun.clientId wellFormed
  simp only [noWill, Option.isSome_none, Bool.false_eq_true, if_false] at id
  have readable : (packet.username.isSome → packet.password.isSome) →
      Readable mallocOk s.connect.willTopic packet := by
    intro secured
    exact ⟨secured, by simp [noWill]⟩
  cases named : packet.username with
  | none =>
      have noPassword := wellFormed.no_password named
      have options : packet.options = [] := by
        simp [ConnectPacket.options, noWill, named, noPassword]
      simp only [named, Option.isSome_none, Bool.false_eq_true, if_false] at id
      have parses := front.append id
      rw [← List.append_nil (encodeString packet.clientId), ← options, ← encode_eq] at parses
      exact .calls _ parses (iff_of_true (carries_anonymous begun noWill named noPassword)
        (readable (by simp [named])))
  | some username =>
      simp only [named, Option.isSome_some, if_true] at id
      have name := wellFormed.username username named
      cases secured : packet.password with
      | none =>
          have options : packet.options = encodeString username := by
            simp [ConnectPacket.options, noWill, named, secured]
          have parses := front.append (id.append (parses_username rfl name))
          rw [← options, ← encode_eq] at parses
          refine .waits _ parses fun unreadable => ?_
          simpa [named, secured] using unreadable.password
      | some password =>
          have options : packet.options = encodeString username ++ encodeString password := by
            simp [ConnectPacket.options, noWill, named, secured]
          have parses := front.append (id.append
            (parses_credentials rfl name (wellFormed.password password secured)))
          rw [← options, ← encode_eq] at parses
          refine .calls _ parses (iff_of_true ?_ (readable (by simp [secured])))
          exact carries_credentials begun rfl named secured (by simp [noWill])

/-- Where a will with the client id in front of it leads. -/
theorem Begun.will_read (begun : Begun packet stale s)
    (wellFormed : packet.WellFormed) {will : Will} (willed : packet.will = some will) :
    Parses true true s
      (encodeString packet.clientId ++ (encodeString will.topic ++ encodeString will.payload))
      (if packet.username.isSome then
        .next { withWill s packet.clientId will with state := .connect .username0 }
      else .ret (withWill s packet.clientId will) (-1)) := by
  have sized := wellFormed.will will willed
  have id : Parses true true s (encodeString packet.clientId) _ := begun.clientId wellFormed
  simp only [willed, Option.isSome_some, if_true] at id
  have whole := id.append
    ((parses_willTopic rfl sized.topic).append (parses_willPayload rfl sized.payload))
  have present : (withWillTopic
      { withClientId s packet.clientId with state := .connect .willTopic0 }
        will.topic).connect.usernamePresent = packet.username.isSome := begun.usernamePresent
  rw [present] at whole
  exact whole

/-- A will whose message cannot be allocated. -/
theorem Begun.will_failed (begun : Begun packet stale s)
    (wellFormed : packet.WellFormed) {will : Will} (willed : packet.will = some will) :
    ∃ refused, Parses true false s
      (encodeString packet.clientId ++ (encodeString will.topic ++ encodeShort will.payload.length))
      (.ret refused 1) := by
  have sized := wellFormed.will will willed
  have id : Parses true false s (encodeString packet.clientId) _ := begun.clientId wellFormed
  simp only [willed, Option.isSome_some, if_true] at id
  obtain ⟨refused, payload⟩ : ∃ refused, Parses true false
      (withWillTopic { withClientId s packet.clientId with state := .connect .willTopic0 } will.topic)
      _ (.ret refused 1) :=
    parses_willPayload_failed rfl sized.payload
  exact ⟨refused, id.append ((parses_willTopic rfl sized.topic).append payload)⟩

private theorem encode_with_will {will : Will} (willed : packet.will = some will) :
    packet.encode = (encodeHeaderByte .connect 0 0 0 :: encodeRemLen packet.body.length) ++
      packet.front ++ (encodeString packet.clientId ++
        (encodeString will.topic ++ encodeString will.payload) ++
          (packet.username.elim [] encodeString ++ packet.password.elim [] encodeString)) := by
  simp [encode_eq, ConnectPacket.options, willed]

/-- A CONNECT with a will. -/
theorem reading_with_will (atHeader : s.state = .header) (wellFormed : packet.WellFormed) {will : Will}
    (willed : packet.will = some will) : Reading mallocOk s packet := by
  obtain ⟨behind, front, begun⟩ : ∃ next, Parses true mallocOk s _ (.next next) ∧ _ :=
    parses_begin atHeader wellFormed
  cases mallocOk with
  | false =>
      obtain ⟨refused, failed⟩ := begun.will_failed wellFormed willed
      refine .rejects _ (will.payload ++ packet.username.elim [] encodeString ++
        packet.password.elim [] encodeString) ?_ refused 1 (by decide) (front.append failed) ?_
      · simp [encode_with_will willed, encodeString]
      · intro readable
        exact absurd (readable.will will willed).2.2.2.2 (by decide)
  | true =>
      have message := begun.will_read wellFormed willed
      cases named : packet.username with
      | none =>
          have noPassword := wellFormed.no_password named
          simp only [named, Option.isSome_none, Bool.false_eq_true, if_false] at message
          refine .rejects _ [] ?_ _ (-1) (by decide) (front.append message) ?_
          · simp [encode_with_will willed, named, noPassword]
          · intro readable
            simpa [named] using (readable.will will willed).1
      | some username =>
          have name := wellFormed.username username named
          simp only [named, Option.isSome_some, if_true] at message
          cases secured : packet.password with
          | none =>
              have credentials : packet.username.elim [] encodeString ++
                  packet.password.elim [] encodeString = encodeString username := by
                simp [named, secured]
              have parses := front.append (message.append (parses_username rfl name))
              rw [← credentials, ← encode_with_will willed] at parses
              refine .waits _ parses fun readable => ?_
              simpa [named, secured] using readable.password
          | some password =>
              have credentials : packet.username.elim [] encodeString ++
                  packet.password.elim [] encodeString =
                    encodeString username ++ encodeString password := by
                simp [named, secured]
              have parses := front.append (message.append
                (parses_credentials rfl name (wellFormed.password password secured)))
              rw [← credentials, ← encode_with_will willed] at parses
              exact .calls _ parses (carries_will begun willed named secured)

/-- What becomes of any well-formed CONNECT. -/
theorem reading (atHeader : s.state = .header) (wellFormed : packet.WellFormed) :
    Reading mallocOk s packet := by
  cases willed : packet.will with
  | none => exact reading_without_will atHeader wellFormed willed
  | some will => exact reading_with_will atHeader wellFormed willed

end Packets

/-! ### Decoding -/

section Decoding

variable {State : Type} {host : Host State} {At : Session → State → Prop} {s : Session} {state : State}
  {packet : ConnectPacket}

/-- What should become of a CONNECT: its last byte, and no other, calls `on_recv_connect`
once, with the fields of the packet, and the next packet is awaited. -/
def ConnectDecoded (host : Host State) (At : Session → State → Prop) (state : State)
    (packet : ConnectPacket) : Prop :=
  ∃ called quiet later last,
    (host.traced.mqttParserExecute packet.encode.dropLast).run (state, []) = (.ok 0, quiet, []) ∧
      (host.traced.mqttParserExecute packet.encode).run (state, []) =
        (.ok 0, later, [.callback called .connect]) ∧
      Carries packet called ∧ At last later ∧ last.state = .header

/-- A CONNECT to a broker that allows anonymous clients is decoded exactly if a user name
comes with a password, and a will with a user name, with QoS 0, not retained, with the topic
that `u.connect.will_topic` held before, and with memory for its message. -/
theorem connect_decoded_iff (answers : host.Answers mallocOk At) (anonymous : host.allowAnonymous = true)
    (stored : At s state) (atHeader : s.state = .header) (wellFormed : packet.WellFormed)
    (returns : ∀ called, host.CallbackReturns At called .connect 0)
    (refuses : ∀ s state, At s state → ∃ later, (host.refused s).run state = (.ok (), later)) :
    ConnectDecoded host At state packet ↔ Readable mallocOk s.connect.willTopic packet := by
  have read : Reading mallocOk s packet := reading atHeader wellFormed
  cases read with
  | calls called parses carries =>
      rw [← anonymous] at parses
      obtain ⟨quiet, front⟩ := answers.execute_dropLast stored parses
      obtain ⟨later, runs, waits⟩ := answers.execute_call stored parses (returns called)
      constructor
      · intro ⟨other, _, _, _, _, ran, carried, _⟩
        rw [runs] at ran
        have same : [Host.Call.callback called .connect] = [.callback other .connect] :=
          congrArg (fun result => result.2.2) ran
        obtain rfl : called = other := by simpa using same
        exact carries.mp carried
      · intro readable
        obtain ⟨last, held, header⟩ := waits rfl
        exact ⟨called, quiet, later, last, front, runs, carries.mpr readable, held, header⟩
  | waits next parses unreadable =>
      rw [← anonymous] at parses
      obtain ⟨later, runs, _⟩ := answers.execute_next stored parses
      refine iff_of_false ?_ unreadable
      intro ⟨_, _, _, _, _, ran, _⟩
      rw [runs] at ran
      exact absurd (congrArg (fun result => result.2.2) ran) (by simp)
  | rejects front rest parts refused rv isError parses unreadable =>
      rw [← anonymous] at parses
      obtain ⟨later, runs⟩ := answers.execute_ret stored parses (refuses refused) rest
      refine iff_of_false ?_ unreadable
      intro ⟨_, _, _, _, _, ran, _⟩
      rw [parts, runs] at ran
      exact isError (Except.ok.inj (congrArg Prod.fst ran))

/-- An anonymous client. -/
theorem connect_decoded_iff_anonymous :
    ConnectDecoded (Host.recorder true) (fun s state => s = state) mqttParserInit
        ⟨true, 60, [99], none, none, none⟩ ↔
      Readable true mqttParserInit.connect.willTopic ⟨true, 60, [99], none, none, none⟩ :=
  connect_decoded_iff (Host.recorder_answers true) rfl (Eq.refl mqttParserInit) rfl
    ⟨by decide, ⟨by decide, by decide⟩, by simp, by simp, by simp, by simp⟩
    (fun called => Host.recorder_returns true called .connect) (fun _ state _ => ⟨state, rfl⟩)

/-- A user name without a password is awaited for ever, a will without a user name is
rejected, and the message of a will has no bytes of its topic. -/
theorem connect_not_decoded :
    (∃ later, ((Host.recorder true).traced.mqttParserExecute
        (ConnectPacket.encode ⟨true, 60, [99], none, some [117], none⟩)).run (mqttParserInit, []) =
          (.ok 0, later, []) ∧ later.state = .connect .password0) ∧
    (∃ later, ((Host.recorder true).traced.mqttParserExecute
        (ConnectPacket.encode ⟨true, 60, [99], some ⟨[116], [112], 0, 0⟩, none, none⟩)).run
          (mqttParserInit, []) = (.ok (-1), later, [])) ∧
    ∃ called later, ((Host.recorder true).traced.mqttParserExecute
        (ConnectPacket.encode ⟨true, 60, [99], some ⟨[116], [112], 1, 0⟩, some [117], some [112]⟩)).run
          (mqttParserInit, []) = (.ok 0, later, [.callback called .connect]) ∧
      called.willMp.map Draft.message = some ⟨0, 0, 0, 0, [0], [112]⟩ := by
  have username : ConnectPacket.encode ⟨true, 60, [99], none, some [117], none⟩ =
      [0x10, 16, 0, 4, 77, 81, 84, 84, 4, 0x82, 0, 60, 0, 1, 99, 0, 1, 117] := by
    decide +kernel
  have will : ConnectPacket.encode ⟨true, 60, [99], some ⟨[116], [112], 0, 0⟩, none, none⟩ =
      [0x10, 19, 0, 4, 77, 81, 84, 84, 4, 6, 0, 60, 0, 1, 99, 0, 1, 116, 0, 1, 112] := by
    decide +kernel
  have both : ConnectPacket.encode ⟨true, 60, [99], some ⟨[116], [112], 1, 0⟩, some [117], some [112]⟩ =
      [0x10, 25, 0, 4, 77, 81, 84, 84, 4, 0xce, 0, 60, 0, 1, 99, 0, 1, 116, 0, 1, 112, 0, 1, 117,
        0, 1, 112] := by
    decide +kernel
  rw [username, will, both]
  exact ⟨⟨_, rfl, rfl⟩, ⟨_, rfl⟩, ⟨_, _, rfl, rfl⟩⟩

end Decoding

end FbBroker.Parser
