import FbBroker.Broker.Steps
import FbBroker.Http.Safety
import FbBroker.Ws.Frame

/-!
Contract: the WebSocket transport of `client_ws.c`.

Owns `c_ws_recv` with the callbacks of the WebSocket parser, the runs of a broker
some of whose clients are WebSocket clients, and what reaches `c_parse` in them: the
payloads of the data frames, as long as `c_parse` leaves the client open. Behind a
close the loop of `ws_parser_execute` goes on in a parser that was freed with the
client.

Does not own the parser of `http_parser.c`: here what it makes of a buffer is an
answer of the environment, and what is proved holds for every answer, those of the
parser among them.
-/

set_option autoImplicit false

namespace FbBroker.Broker

open FbBroker.Lib FbBroker.Parser FbBroker.Ws

variable (cfg : Config) {data : List Byte}

/-- The fields of `client_ws_st` that matter behind the upgrade. -/
structure ClientWs where
  upgrade : Bool
  wsParser : WsParser

/-- `c_ws_init`. -/
def cWsInit : ClientWs :=
  ⟨false, wsParserInit⟩

/-- The WebSocket records of the clients, the bytes their parsers were given, and the
buffers they passed to `c_parse`. -/
structure Sockets where
  ws : ClientId → ClientWs
  received : ClientId → List Byte
  passed : ClientId → List (List Byte)

abbrev WsCode := Cmd Fault (State × Sockets)

/-- What `http_parser_execute` makes of a buffer: the bytes it parsed, whether it
asks for an upgrade, and the response if the request is complete. -/
structure HttpAnswer where
  nparsed : Nat
  upgrade : Bool
  response : Option (List Byte)

/-- What the parser of `http_parser.c` makes of a buffer is such an answer, whatever its
callbacks return: it takes bytes of the buffer only, and can go on with the next one. -/
theorem httpParserExecute_answers {parser : Http.HttpParser} (resting : parser.Resting)
    (nonempty : data ≠ []) :
    (Http.httpParserExecute parser data).Always fun executed =>
      ∃ (next : Http.HttpParser) (http : HttpAnswer), executed = some (next, http.nparsed) ∧
        http.upgrade = next.upgrade ∧ next.Resting ∧ http.nparsed ≤ data.length := by
  refine (Http.httpParserExecute_good resting data).mono fun executed executes => ?_
  have length := List.length_pos_iff.mpr nonempty
  cases executed with
  | none => exact executes.elim
  | some result =>
      refine ⟨result.1, ⟨result.2, result.1.upgrade, none⟩, rfl, rfl, executes.1, ?_⟩
      have taken : result.2 ≤ max 1 data.length := executes.2
      simp only
      omega

/-! ### Receiving -/

/-- Read `p->ws`, which is freed with the client. -/
def clientWs (c : ClientId) : WsCode ClientWs := do
  let _ ← (client c).beside
  pure ((← get).2.ws c)

def setUpgrade (c : ClientId) (upgrade : Bool) : WsCode Unit :=
  modify fun (b, sockets) =>
    (b, { sockets with ws := Function.update sockets.ws c { sockets.ws c with upgrade } })

def setWsParser (c : ClientId) (wsParser : WsParser) : WsCode Unit :=
  modify fun (b, sockets) =>
    (b, { sockets with ws := Function.update sockets.ws c { sockets.ws c with wsParser } })

/-- `http_on_message_complete`. -/
def httpOnMessageComplete (c : ClientId) (upgrade : Bool) (response : List Byte) : Code Unit :=
  if upgrade then do
    let _ ← cSendDataWire cfg c response
  else cDisconnect cfg c (lit "non-upgrade http request")

/-- The end of the request, if it is in the buffer. -/
def httpComplete (c : ClientId) (http : HttpAnswer) : WsCode Unit :=
  match http.response with
  | none => pure ()
  | some response => (httpOnMessageComplete cfg c http.upgrade response).beside

/-- `http_parser_execute`; the parser is part of the WebSocket record. -/
def httpParserExecute (c : ClientId) (http : HttpAnswer) : WsCode Nat := do
  setUpgrade c http.upgrade
  httpComplete cfg c http
  let _ ← clientWs c
  pure http.nparsed

/-- The bytes of a buffer that the HTTP parser takes. -/
def httpBytes (c : ClientId) (upgrade : Bool) (http : HttpAnswer) : WsCode Nat :=
  if upgrade then pure 0 else httpParserExecute cfg c http

/-- The callbacks of `ws_callbacks`; all return 0. -/
def wsCallback (c : ClientId) : WsCall → WsCode Int
  | .dataPayload chunk => do
      modify fun (b, sockets) =>
        (b, { sockets with passed := Function.update sockets.passed c (sockets.passed c ++ [chunk]) })
      (cParse cfg c chunk).beside
      pure 0
  | .dataBegin _ | .dataEnd | .controlBegin _ | .controlPayload _ | .controlEnd => pure 0

/-- The write to the parser behind a callback. -/
def touchWs (c : ClientId) : WsCode Unit := do
  let _ ← clientWs c

/-- The part of `c_ws_recv` before the WebSocket parser: the bytes that are left for
it. -/
def beforeWs (c : ClientId) (data : List Byte) (http : HttpAnswer) : WsCode (Option (List Byte)) := do
  let ws ← clientWs c
  let nparsed ← httpBytes cfg c ws.upgrade http
  let ws ← clientWs c
  if ws.upgrade then pure (some (data.drop nparsed))
  else do
    (onlyIf (nparsed ≠ data.length) (cDisconnect cfg c (lit "http_parser_execute"))).beside
    pure none

/-- The call of `ws_parser_execute`; its code is ignored. -/
def feedWs (c : ClientId) (data : List Byte) : WsCode Unit := do
  let ws ← clientWs c
  modify fun (b, sockets) =>
    (b, { sockets with received := Function.update sockets.received c (sockets.received c ++ data) })
  let (_, parser) ← wsParserExecute (wsCallback cfg c) (touchWs c) ws.wsParser data
  setWsParser c parser

def cWsRecv (c : ClientId) (data : List Byte) (http : HttpAnswer) : WsCode Unit := do
  match ← beforeWs cfg c data http with
  | some rest => if rest = [] then pure () else feedWs cfg c rest
  | none => pure ()

/-! ### Runs -/

/-- A broker with its WebSocket clients. -/
structure WsRun where
  run : Run
  sockets : Sockets

inductive WsAction where
  /-- a step of the broker that receives no bytes of a WebSocket client -/
  | broker (action : Action)
  /-- bytes of a WebSocket client reach `c_ws_recv` -/
  | wsRecv (c : ClientId) (data : List Byte) (http : HttpAnswer) (answers : Answers)

/-- The records of a client that was accepted. -/
def Sockets.clear (sockets : Sockets) (c : ClientId) : Sockets where
  ws := Function.update sockets.ws c cWsInit
  received := Function.update sockets.received c []
  passed := Function.update sockets.passed c []

/-- The sockets behind a step of the broker. -/
def Sockets.stepped (sockets : Sockets) (b : State) : Action → Sockets
  | .accept _ _ _ _ => sockets.clear b.nextClient
  | _ => sockets

/-- `c_recv` hands the bytes of a WebSocket client to `c_ws_recv` and those of the
others to `c_parse`. -/
def receivesWs (b : State) (c : ClientId) : Bool :=
  (b.clients c).any Client.isWs

def wsBytes (b : State) : Action → Bool
  | .parse c _ _ => receivesWs b c
  | _ => false

/-- The run behind a call of `c_ws_recv`. -/
def wsAfter : Except Fault Unit × State × Sockets → WsRun
  | (.ok _, b, sockets) => ⟨⟨b, false⟩, sockets⟩
  | (.error .useAfterFree, b, sockets) => ⟨⟨b, false⟩, sockets⟩
  | (.error _, b, sockets) => ⟨⟨b, true⟩, sockets⟩

def wsStep (ws : WsRun) : WsAction → Option WsRun
  | .broker action =>
      if wsBytes ws.run.state action then none
      else (step cfg ws.run action).map fun run => ⟨run, ws.sockets.stepped ws.run.state action⟩
  | .wsRecv c data http answers =>
      if !ws.run.ended && receivesWs ws.run.state c then
        some (wsAfter ((cWsRecv cfg c data http).run ({ ws.run.state with answers }, ws.sockets)))
      else none

def wsStart : WsRun where
  run := start
  sockets := ⟨fun _ => cWsInit, fun _ => [], fun _ => []⟩

def wsBroker : System WsRun WsAction where
  init ws := ws = wsStart
  step := wsStep cfg

/-! ### What the transport needs of the session -/

/-- The data payloads among the callbacks. -/
def dataChunks (calls : List WsCall) : List (List Byte) :=
  calls.filterMap fun
    | .dataPayload chunk => some chunk
    | _ => none

/-- The MQTT bytes that a buffer carries. -/
def wsPayload (wsParser : WsParser) (data : List Byte) : List Byte :=
  (dataChunks (wsTrace wsParser data).calls).flatten

/-- `c_parse` takes these bytes without an error and leaves the client open. -/
def SessionStays (c : ClientId) (payload : List Byte) (b : State) : Bool :=
  match ((mqttParserExecute cfg c payload).run b).1 with
  | .ok rv => rv == 0
  | .error _ => false

/-- The session stays open over the MQTT bytes of a call of `c_ws_recv`. -/
def Uninterrupted (ws : WsRun) : WsAction → Bool
  | .broker _ => true
  | .wsRecv c data http answers =>
      match (beforeWs cfg c data http).run ({ ws.run.state with answers }, ws.sockets) with
      | (.ok (some rest), b, sockets) =>
          SessionStays cfg c (wsPayload (sockets.ws c).wsParser rest) b
      | _ => true

variable {cfg} {c : ClientId} {b : State}

theorem dataBytes_calls (calls : List WsCall) :
    dataBytes (calls.flatMap WsCall.events) = (dataChunks calls).flatten := by
  induction calls with
  | nil => rfl
  | cons call calls inductionHypothesis =>
      rw [List.flatMap_cons, dataBytes_append, inductionHypothesis]
      cases call <;> simp [WsCall.events, dataBytes, dataChunks, List.filterMap_map]

/-- A client whose parser read its bytes to the end passed on what they carry. -/
def Faithful (sockets : Sockets) (c : ClientId) : Prop :=
  (feed wsByte wsParserInit (sockets.received c)).error = none →
    (sockets.ws c).wsParser = (feed wsByte wsParserInit (sockets.received c)).state ∧
      (sockets.passed c).flatten =
        dataBytes (feed wsByte wsParserInit (sockets.received c)).events

/-- Only the upgrades differ. -/
structure SameStreams (sockets sockets' : Sockets) : Prop where
  received : sockets'.received = sockets.received
  passed : sockets'.passed = sockets.passed
  wsParser : ∀ c, (sockets'.ws c).wsParser = (sockets.ws c).wsParser

theorem Faithful.same {sockets sockets' : Sockets} (same : SameStreams sockets sockets')
    (faithful : Faithful sockets c) : Faithful sockets' c := by
  unfold Faithful
  rw [same.received, same.passed, same.wsParser]
  exact faithful

/-- Code that changes the broker on behalf of a client and leaves the streams as they
are. -/
def talkWs (cfg : Config) (c : ClientId) : Contract Fault (State × Sockets) where
  rel before after := Evolves cfg true .idle c before.1 after.1 ∧ SameStreams before.2 after.2
  pre _ := True
  fault _ _ := True
  refl _ := ⟨.refl, ⟨rfl, rfl, fun _ => rfl⟩⟩
  trans first second :=
    ⟨first.1.trans second.1,
      ⟨second.2.received.trans first.2.received, second.2.passed.trans first.2.passed,
        fun c => (second.2.wsParser c).trans (first.2.wsParser c)⟩⟩
  keeps _ _ := trivial

/-- Code of the broker beside the sockets. -/
theorem talkWs_beside {Value : Type} {command : Code Value}
    (evolves : ∀ b, Evolves cfg true .idle c b (command.run b).2) :
    (talkWs cfg c).Keeps (fun _ => True) (command.beside : WsCode Value) := by
  intro (b, sockets) _
  refine ⟨⟨evolves b, ⟨rfl, rfl, fun _ => rfl⟩⟩, ?_⟩
  unfold Contract.Ends
  split <;> trivial

private theorem talkWs_clientWs (c : ClientId) : (talkWs cfg c).Keeps (fun _ => True) (clientWs c) := by
  refine Contract.Keeps.bind (talkWs_beside fun b => ?_) fun _ _ => ?_
  · have same : ((client c).run b).2 = b := by
      unfold client
      cases present : b.clients c <;> simp [present]
    rw [same]
  · intro state _
    exact Contract.Holds.get_bind (Contract.Holds.pure trivial)

private theorem talkWs_setUpgrade (c : ClientId) (upgrade : Bool) :
    (talkWs cfg c).Keeps (fun _ => True) (setUpgrade c upgrade) := by
  intro (b, sockets) _
  refine Contract.Holds.modify ⟨.refl, rfl, rfl, fun d => ?_⟩ trivial
  by_cases same : d = c
  · subst d
    simp
  · simp [same]

private theorem httpOnMessageComplete_evolves (upgrade : Bool) (response : List Byte) (b : State) :
    Evolves cfg true .idle c b ((httpOnMessageComplete cfg c upgrade response).run b).2 := by
  unfold httpOnMessageComplete
  split
  · have wire : (contract cfg true .idle c).Keeps _ (cSendDataWire cfg c response) :=
      cSendDataWire_keeps response
    have all := Contract.Keeps.bind wire fun (_ : Nat) _ => (fun _ _ => Contract.Holds.pure trivial :
      (contract cfg true .idle c).Keeps (fun _ => True) (pure ()))
    exact (all b (.inl rfl)).1
  · exact cDisconnect_evolves _ b

private theorem talkWs_httpParserExecute (c : ClientId) (http : HttpAnswer) :
    (talkWs cfg c).Keeps (fun _ => True) (httpParserExecute cfg c http) := by
  refine (talkWs_setUpgrade c http.upgrade).bind fun _ _ => ?_
  have asks : (talkWs cfg c).Keeps (fun _ => True) (httpComplete cfg c http) := by
    unfold httpComplete
    cases http.response with
    | none => exact fun _ _ => Contract.Holds.pure trivial
    | some response => exact talkWs_beside (httpOnMessageComplete_evolves http.upgrade response)
  refine asks.bind fun _ _ => (talkWs_clientWs c).bind fun _ _ => ?_
  exact fun _ _ => Contract.Holds.pure trivial

private theorem talkWs_beforeWs (c : ClientId) (data : List Byte) (http : HttpAnswer) :
    (talkWs cfg c).Keeps (fun _ => True) (beforeWs cfg c data http) := by
  refine (talkWs_clientWs c).bind fun ws _ => ?_
  have parses : (talkWs cfg c).Keeps (fun _ => True) (httpBytes cfg c ws.upgrade http) := by
    unfold httpBytes
    split
    · exact fun _ _ => Contract.Holds.pure trivial
    · exact talkWs_httpParserExecute c http
  refine parses.bind fun nparsed _ => (talkWs_clientWs c).bind fun ws _ => ?_
  split
  · exact fun _ _ => Contract.Holds.pure trivial
  · refine (talkWs_beside fun b => ?_).bind fun _ _ _ _ => Contract.Holds.pure trivial
    unfold onlyIf
    split
    · exact cDisconnect_evolves _ b
    · exact .refl

/-! ### The calls of a buffer -/

/-- `c_parse` on the first part of bytes over which the session stays open. -/
theorem SessionStays.append {left right : List Byte} (sound : Sound b) (there : (b.clients c).isSome)
    (stays : SessionStays cfg c (left ++ right) b = true) :
    ∃ d, (mqttParserExecute cfg c left).run b = (.ok 0, d) ∧ Sound d ∧ (d.clients c).isSome ∧
      SessionStays cfg c right d = true := by
  induction left generalizing b with
  | nil => exact ⟨b, rfl, sound, there, stays⟩
  | cons byte left inductionHypothesis =>
      have keeps : RoundEnds (fun d => Sound d ∧ (d.clients c).isSome) Sound (fun _ => Sound)
          ((parserRound cfg c byte).run b) := sound_round sound there byte
      rw [SessionStays, List.cons_append, mqttParserExecute, Cmd.run_bind] at stays
      rw [mqttParserExecute, Cmd.run_bind]
      cases outcome : (parserRound cfg c byte).run b with
      | mk result d =>
          rw [outcome] at keeps stays
          cases result with
          | error fault => simp at stays
          | ok rv =>
              cases rv with
              | none => exact inductionHypothesis keeps.1 keeps.2 stays
              | some rv => exact absurd (by simpa using stays) keeps.1

/-- The session stays open over two parts if it does over the one and then over the
other. -/
theorem SessionStays.join {left right : List Byte} {d : State} (sound : Sound b)
    (there : (b.clients c).isSome) (parses : (mqttParserExecute cfg c left).run b = (.ok 0, d))
    (stays : SessionStays cfg c right d = true) : SessionStays cfg c (left ++ right) b = true := by
  induction left generalizing b with
  | nil =>
      obtain rfl : b = d := (Prod.mk.inj parses).2
      exact stays
  | cons byte left inductionHypothesis =>
      have keeps : RoundEnds (fun d => Sound d ∧ (d.clients c).isSome) Sound (fun _ => Sound)
          ((parserRound cfg c byte).run b) := sound_round sound there byte
      rw [mqttParserExecute, Cmd.run_bind] at parses
      rw [SessionStays, List.cons_append, mqttParserExecute, Cmd.run_bind]
      cases outcome : (parserRound cfg c byte).run b with
      | mk result middle =>
          rw [outcome] at keeps parses
          cases result with
          | error fault => simp at parses
          | ok rv =>
              cases rv with
              | none => exact inductionHypothesis keeps.1 keeps.2 parses
              | some rv => exact absurd (by simpa using (Prod.mk.inj parses).1) keeps.1

/-- The client is gone, or the broker with it. -/
def Ended (c : ClientId) : Except Fault Unit × State → Prop
  | (.ok _, d) => d.clients c = none
  | (.error fault, d) => fault = .useAfterFree → d.clients c = none

private theorem freed_ended {outcome : Except Fault Unit × State} (freed : Freed c outcome) : Ended c outcome := by
  cases freed with
  | closed gone => exact gone
  | crashed => exact fun same => absurd same (by decide)

/-- A round stops at the use of a client only when the client is gone. -/
theorem ended_round (sound : Sound b) (there : (b.clients c).isSome) (byte : Byte) :
    RoundEnds (fun _ => True) (fun _ => True) (fun fault d => fault = .useAfterFree → d.clients c = none)
      ((parserRound cfg c byte).run b) := by
  obtain ⟨p, present⟩ := Option.isSome_iff_exists.mp there
  have round := sound.round present cfg byte
  generalize (parserRound cfg c byte).run b = outcome at round
  cases round with
  | next | returned => trivial
  | refused parses fails => exact ⟨fails, trivial⟩
  | failed => exact ⟨by decide, trivial⟩
  | broken parses chain fails | left may parses chain fails =>
      exact fails.elim (fun may => may.2) fun other same => absurd same other.1
  | stopped other => exact fun same => absurd same other.1

/-- `c_parse` on bytes over which the session does not stay open. -/
theorem cParse_ended {buf : List Byte} (sound : Sound b) (there : (b.clients c).isSome)
    (ends : SessionStays cfg c buf b = false) : Ended c ((cParse cfg c buf).run b) := by
  obtain ⟨later, rule⟩ := mqttParserExecute_rule (fun _ => True) (fun _ => True)
    (fun fault d => fault = .useAfterFree → d.clients c = none)
    (fun d byte sound there _ _ => (ended_round sound there byte :
      RoundEnds _ _ _ ((parserRound cfg c byte).run d)))
    sound there trivial (along_of_forall (fun _ _ => (trivial : True)) buf b)
  rw [SessionStays] at ends
  rw [cParse, Cmd.run_bind]
  cases outcome : (mqttParserExecute cfg c buf).run b with
  | mk result d =>
      rw [outcome] at later rule ends
      cases result with
      | error fault => exact rule
      | ok rv =>
          have error : rv ≠ 0 := by simpa using ends
          simp only [onlyIf, ne_eq, error, not_false_eq_true, decide_true, if_true]
          cases found : d.clients c with
          | none =>
              rw [cDisconnect, Cmd.bind_error (client_freed found)]
              exact fun _ => found
          | some p => exact freed_ended (cDisconnect_freed found later.regular _)

private theorem cParse_of_execute {d : State} {buf : List Byte}
    (returns : (mqttParserExecute cfg c buf).run b = (.ok 0, d)) : (cParse cfg c buf).run b = (.ok (), d) := by
  rw [cParse, Cmd.bind_ok returns]
  rfl

private theorem clientWs_run {sockets : Sockets} (there : (b.clients c).isSome) :
    (clientWs c).run (b, sockets) = (.ok (sockets.ws c), b, sockets) := by
  obtain ⟨p, present⟩ := Option.isSome_iff_exists.mp there
  rw [clientWs, Cmd.bind_ok (Cmd.beside_run (client_run present) sockets)]
  rfl

private theorem clientWs_freed {sockets : Sockets} (gone : b.clients c = none) :
    (clientWs c).run (b, sockets) = (.error .useAfterFree, b, sockets) := by
  simp [clientWs, client, Cmd.beside, gone, Cmd.run_bind]

/-- The bytes that `c_ws_recv` leaves for the WebSocket parser are those of a client
that is there. -/
theorem beforeWs_there {data rest : List Byte} {http : HttpAnswer} {d : State} {sockets sockets' : Sockets}
    (returns : (beforeWs cfg c data http).run (b, sockets) = (.ok (some rest), d, sockets')) :
    (d.clients c).isSome := by
  obtain ⟨ws, ⟨middle, _⟩, -, returns⟩ := Cmd.ok_of_bind returns
  obtain ⟨nparsed, ⟨middle, between⟩, -, returns⟩ := Cmd.ok_of_bind returns
  obtain ⟨ws, ⟨last, _⟩, reads, returns⟩ := Cmd.ok_of_bind returns
  cases found : middle.clients c with
  | none =>
      rw [clientWs_freed found] at reads
      cases reads
  | some p =>
      have there : (middle.clients c).isSome := by simp [found]
      obtain ⟨-, same⟩ := Prod.mk.inj ((clientWs_run there).symm.trans reads)
      obtain ⟨rfl, -⟩ := Prod.mk.inj same
      split at returns
      · obtain ⟨-, same⟩ := Prod.mk.inj returns
        obtain ⟨rfl, -⟩ := Prod.mk.inj same
        exact there
      · obtain ⟨_, _, -, returns⟩ := Cmd.ok_of_bind returns
        cases returns

private theorem touchWs_run {sockets : Sockets} (there : (b.clients c).isSome) :
    (touchWs c).run (b, sockets) = (.ok (), b, sockets) := by
  rw [touchWs, Cmd.bind_ok (clientWs_run there)]
  rfl

/-- Buffers that were passed to `c_parse`. -/
def Sockets.pass (sockets : Sockets) (c : ClientId) (chunks : List (List Byte)) : Sockets :=
  { sockets with passed := Function.update sockets.passed c (sockets.passed c ++ chunks) }

@[simp] theorem Sockets.pass_nil (sockets : Sockets) (c : ClientId) : sockets.pass c [] = sockets := by
  simp [Sockets.pass]

theorem Sockets.pass_append (sockets : Sockets) (c : ClientId) (left right : List (List Byte)) :
    sockets.pass c (left ++ right) = (sockets.pass c left).pass c right := by
  simp [Sockets.pass]

private theorem dataChunks_cons (call : WsCall) (calls : List WsCall) :
    dataChunks (call :: calls) = dataChunks [call] ++ dataChunks calls := by
  simp only [dataChunks, ← List.filterMap_append, List.singleton_append]

private theorem dataChunks_only (call : WsCall) :
    (∃ chunk, call = .dataPayload chunk) ∨
      dataChunks [call] = [] ∧ ∀ cfg c, wsCallback cfg c call = pure 0 := by
  cases call with
  | dataPayload chunk => exact .inl ⟨chunk, rfl⟩
  | dataBegin | dataEnd | controlBegin | controlPayload | controlEnd => exact .inr ⟨rfl, fun _ _ => rfl⟩

/-- The callback on a payload is the call of `c_parse`. -/
theorem wsCallback_payload (chunk : List Byte) (sockets : Sockets) (b : State) :
    (wsCallback cfg c (.dataPayload chunk)).run (b, sockets) =
      ((cParse cfg c chunk).beside >>= fun _ => pure 0 : WsCode Int).run (b, sockets.pass c [chunk]) := by
  simp only [wsCallback, Cmd.run_modify_bind]
  rfl

/-- A callback on a payload over which the session stays open, or without a payload. -/
theorem answered_one {call : WsCall} (sockets : Sockets) {rest : List Byte} (sound : Sound b)
    (there : (b.clients c).isSome)
    (stays : SessionStays cfg c ((dataChunks [call]).flatten ++ rest) b = true) :
    ∃ d, (answered (wsCallback cfg c) (touchWs c) call).run (b, sockets) =
        (.ok (), d, sockets.pass c (dataChunks [call])) ∧
      Sound d ∧ (d.clients c).isSome ∧ Fewer b d ∧ SessionStays cfg c rest d = true ∧
      ∀ later, SessionStays cfg c later d = true →
        SessionStays cfg c ((dataChunks [call]).flatten ++ later) b = true := by
  obtain ⟨chunk, rfl⟩ | ⟨nothing, returns⟩ := dataChunks_only call
  · have payload : (dataChunks [.dataPayload chunk]).flatten = chunk := by simp [dataChunks]
    rw [payload] at stays
    have fewer : Fewer b ((cParse cfg c chunk).run b).2 := fewer_cParse sound there chunk
    obtain ⟨d, parses, sound', there', stays⟩ := SessionStays.append sound there stays
    rw [cParse_of_execute parses] at fewer
    refine ⟨d, ?_, sound', there', fewer, stays, fun later goesOn => ?_⟩
    swap
    · rw [payload]
      exact SessionStays.join sound there parses goesOn
    rw [answered, Cmd.run_bind, wsCallback_payload, Cmd.bind_ok (Cmd.beside_run (cParse_of_execute parses) _)]
    exact touchWs_run there'
  · rw [nothing] at stays
    refine ⟨b, ?_, sound, there, .refl b, stays, fun later stays => by rwa [nothing]⟩
    rw [nothing, Sockets.pass_nil, answered, returns, Cmd.run_pure_bind]
    exact touchWs_run there

/-- The callbacks of a buffer over whose MQTT bytes the session stays open. -/
theorem answered_run {calls : List WsCall} (sockets : Sockets) (sound : Sound b)
    (there : (b.clients c).isSome) (stays : SessionStays cfg c (dataChunks calls).flatten b = true) :
    ∃ d, (Cmd.each (answered (wsCallback cfg c) (touchWs c)) calls).run (b, sockets) =
        (.ok (), d, sockets.pass c (dataChunks calls)) ∧
      Sound d ∧ (d.clients c).isSome ∧ Fewer b d := by
  induction calls generalizing b sockets with
  | nil => exact ⟨b, by simp [Cmd.each, dataChunks], sound, there, .refl b⟩
  | cons call calls inductionHypothesis =>
      rw [dataChunks_cons, List.flatten_append] at stays
      obtain ⟨middle, first, sound, there, fewer, stays, -⟩ := answered_one sockets sound there stays
      obtain ⟨d, rest, sound, there, later⟩ := inductionHypothesis _ sound there stays
      refine ⟨d, ?_, sound, there, fewer.trans later⟩
      rw [dataChunks_cons, Sockets.pass_append]
      exact Cmd.each_cons_ok first rest

/-- A callback on a payload over which the session does not stay open. -/
theorem answered_one_ended {call : WsCall} (sockets : Sockets) (sound : Sound b) (there : (b.clients c).isSome)
    (ends : SessionStays cfg c (dataChunks [call]).flatten b = false) :
    ∃ fault d, (answered (wsCallback cfg c) (touchWs c) call).run (b, sockets) =
        (.error fault, d, sockets.pass c (dataChunks [call])) ∧
      (fault = .useAfterFree → d.clients c = none) ∧ Sound d ∧ Fewer b d := by
  obtain ⟨chunk, rfl⟩ | ⟨nothing, -⟩ := dataChunks_only call
  · have payload : (dataChunks [.dataPayload chunk]).flatten = chunk := by simp [dataChunks]
    rw [payload] at ends
    have ended : Ended c ((cParse cfg c chunk).run b) := cParse_ended sound there ends
    have fewer : Fewer b ((cParse cfg c chunk).run b).2 := fewer_cParse sound there chunk
    have later : Sound ((cParse cfg c chunk).run b).2 := sound_cParse sound there chunk
    rw [answered, Cmd.run_bind, wsCallback_payload]
    cases outcome : (cParse cfg c chunk).run b with
    | mk result d =>
        rw [outcome] at ended fewer later
        have beside := Cmd.beside_run outcome (sockets.pass c [chunk])
        cases result with
        | ok _ =>
            refine ⟨.useAfterFree, d, ?_, fun _ => ended, later, fewer⟩
            rw [Cmd.bind_ok beside]
            simp only [Cmd.run_pure]
            rw [touchWs, Cmd.bind_error (clientWs_freed ended)]
            rfl
        | error fault =>
            refine ⟨fault, d, ?_, ended, later, fewer⟩
            rw [Cmd.bind_error beside]
            rfl
  · rw [nothing] at ends
    simp [SessionStays, mqttParserExecute] at ends

/-- The callbacks of a buffer over whose MQTT bytes the session does not stay open. -/
theorem answered_ended {calls : List WsCall} (sockets : Sockets) (sound : Sound b)
    (there : (b.clients c).isSome) (ends : SessionStays cfg c (dataChunks calls).flatten b = false) :
    ∃ fault d chunks, (Cmd.each (answered (wsCallback cfg c) (touchWs c)) calls).run (b, sockets) =
        (.error fault, d, sockets.pass c chunks) ∧ chunks <+: dataChunks calls ∧
      (fault = .useAfterFree → d.clients c = none) ∧ Sound d ∧ Fewer b d := by
  induction calls generalizing b sockets with
  | nil => simp [SessionStays, dataChunks, mqttParserExecute] at ends
  | cons call calls inductionHypothesis =>
      rw [dataChunks_cons] at ends ⊢
      rw [Cmd.each]
      cases first : SessionStays cfg c (dataChunks [call]).flatten b with
      | false =>
          obtain ⟨fault, d, stops, gone⟩ := answered_one_ended sockets sound there first
          refine ⟨fault, d, dataChunks [call], ?_, List.prefix_append _ _, gone⟩
          rw [Cmd.bind_error stops]
      | true =>
          rw [← List.append_nil (dataChunks [call]).flatten] at first
          obtain ⟨middle, goes, sound, there, fewer, -, join⟩ := answered_one sockets sound there first
          have later : SessionStays cfg c (dataChunks calls).flatten middle = false := by
            by_contra stays
            rw [List.flatten_append, join _ (by simpa using stays)] at ends
            cases ends
          obtain ⟨fault, d, chunks, stops, within, gone, sound, rest⟩ :=
            inductionHypothesis (sockets.pass c (dataChunks [call])) sound there later
          refine ⟨fault, d, dataChunks [call] ++ chunks, ?_, ?_, gone, sound, fewer.trans rest⟩
          · rw [Cmd.bind_ok goes, stops, Sockets.pass_append]
          · exact (List.prefix_append_right_inj _).mpr within

private theorem wsCallback_zero (call : WsCall) (state : State × Sockets) (rc : Int) (next : State × Sockets)
    (returns : (wsCallback cfg c call).run state = (.ok rc, next)) : rc = 0 := by
  cases call with
  | dataPayload chunk =>
      obtain ⟨_, middle, _, rest⟩ := Cmd.ok_of_bind returns
      obtain ⟨_, last, _, returned⟩ := Cmd.ok_of_bind rest
      simpa using (Prod.mk.inj returned).1.symm
  | _ => simpa using (Prod.mk.inj returns).1.symm

/-- A buffer over whose MQTT bytes the session stays open. -/
theorem feedWs_run {sockets : Sockets} (sound : Sound b) (there : (b.clients c).isSome)
    (stays : SessionStays cfg c (wsPayload (sockets.ws c).wsParser data) b = true) :
    ∃ d, (feedWs cfg c data).run (b, sockets) = (.ok (), d,
        { ws := Function.update sockets.ws c
            { sockets.ws c with wsParser := (wsTrace (sockets.ws c).wsParser data).parser }
          received := Function.update sockets.received c (sockets.received c ++ data)
          passed := Function.update sockets.passed c
            (sockets.passed c ++ dataChunks (wsTrace (sockets.ws c).wsParser data).calls) }) ∧
      Sound d ∧ (d.clients c).isSome ∧ Fewer b d := by
  obtain ⟨d, calls, later⟩ := answered_run
    { sockets with received := Function.update sockets.received c (sockets.received c ++ data) }
    sound there stays
  refine ⟨d, ?_, later⟩
  rw [feedWs, Cmd.bind_ok (clientWs_run there), Cmd.run_modify_bind, Cmd.run_bind,
    wsParserExecute_run wsCallback_zero, Cmd.bind_ok calls]
  rfl

/-- A buffer over whose MQTT bytes the session does not stay open. -/
theorem feedWs_ended {sockets : Sockets} (sound : Sound b) (there : (b.clients c).isSome)
    (ends : SessionStays cfg c (wsPayload (sockets.ws c).wsParser data) b = false) :
    ∃ fault d chunks, (feedWs cfg c data).run (b, sockets) = (.error fault, d,
        { ws := sockets.ws
          received := Function.update sockets.received c (sockets.received c ++ data)
          passed := Function.update sockets.passed c (sockets.passed c ++ chunks) }) ∧
      chunks <+: dataChunks (wsTrace (sockets.ws c).wsParser data).calls ∧
      (fault = .useAfterFree → d.clients c = none) ∧ Sound d ∧ Fewer b d := by
  obtain ⟨fault, d, chunks, calls, rest⟩ := answered_ended
    { sockets with received := Function.update sockets.received c (sockets.received c ++ data) }
    sound there ends
  refine ⟨fault, d, chunks, ?_, rest⟩
  rw [feedWs, Cmd.bind_ok (clientWs_run there), Cmd.run_modify_bind, Cmd.run_bind,
    wsParserExecute_run wsCallback_zero, Cmd.bind_error calls]
  rfl

/-- What a call of `c_ws_recv` comes to. -/
inductive Receives (cfg : Config) (c : ClientId) (data : List Byte) (http : HttpAnswer) (b : State)
    (sockets : Sockets) : Except Fault Unit × State × Sockets → Prop
  /-- nothing reaches the WebSocket parser -/
  | nothing {result : Except Fault Unit} {d : State} {sockets' : Sockets}
      (idle : ∀ rest next, (beforeWs cfg c data http).run (b, sockets) = (.ok (some rest), next) → rest = [])
      (sound : Sound d) (fewer : Fewer b d) (same : SameStreams sockets sockets') :
      Receives cfg c data http b sockets (result, d, sockets')
  /-- the session stays open over the bytes that do -/
  | read {rest : List Byte} {d last : State} {sockets' : Sockets}
      (before : (beforeWs cfg c data http).run (b, sockets) = (.ok (some rest), d, sockets'))
      (same : SameStreams sockets sockets')
      (stays : SessionStays cfg c (wsPayload (sockets'.ws c).wsParser rest) d = true)
      (sound : Sound last) (there : (last.clients c).isSome) (fewer : Fewer b last) :
      Receives cfg c data http b sockets (.ok (), last,
        { ws := Function.update sockets'.ws c
            { sockets'.ws c with wsParser := (wsTrace (sockets'.ws c).wsParser rest).parser }
          received := Function.update sockets'.received c (sockets'.received c ++ rest)
          passed := Function.update sockets'.passed c
            (sockets'.passed c ++ dataChunks (wsTrace (sockets'.ws c).wsParser rest).calls) })
  /-- the session ends at one of them -/
  | ended {rest : List Byte} {d last : State} {sockets' : Sockets} {fault : Fault}
      {chunks : List (List Byte)}
      (before : (beforeWs cfg c data http).run (b, sockets) = (.ok (some rest), d, sockets'))
      (same : SameStreams sockets sockets')
      (ends : SessionStays cfg c (wsPayload (sockets'.ws c).wsParser rest) d = false)
      (within : chunks <+: dataChunks (wsTrace (sockets'.ws c).wsParser rest).calls)
      (gone : fault = .useAfterFree → last.clients c = none) (sound : Sound last) (fewer : Fewer b last) :
      Receives cfg c data http b sockets (.error fault, last,
        { ws := sockets'.ws
          received := Function.update sockets'.received c (sockets'.received c ++ rest)
          passed := Function.update sockets'.passed c (sockets'.passed c ++ chunks) })

theorem cWsRecv_receives (data : List Byte) (http : HttpAnswer) (sockets : Sockets) (sound : Sound b) :
    Receives cfg c data http b sockets ((cWsRecv cfg c data http).run (b, sockets)) := by
  have keeps : (talkWs cfg c).Keeps (fun _ => True) (beforeWs cfg c data http) := talkWs_beforeWs c data http
  have talks := (keeps (b, sockets) trivial).1
  rw [cWsRecv, Cmd.run_bind]
  cases outcome : (beforeWs cfg c data http).run (b, sockets) with
  | mk result next =>
      obtain ⟨d, sockets'⟩ := next
      rw [outcome] at talks
      obtain ⟨chain, same⟩ := talks
      have sound' : Sound d := sound.evolves chain
      match result with
      | .error fault => exact .nothing (by simp [outcome]) sound' chain.fewer same
      | .ok none => exact .nothing (by simp [outcome]) sound' chain.fewer same
      | .ok (some rest) =>
          dsimp only
          split
          · exact .nothing (by simp_all) sound' chain.fewer same
          · have there : (d.clients c).isSome := beforeWs_there outcome
            cases stays : SessionStays cfg c (wsPayload (sockets'.ws c).wsParser rest) d with
            | true =>
                obtain ⟨last, fed, sound, there, fewer⟩ := feedWs_run sound' there stays
                rw [fed]
                exact .read outcome same stays sound there (chain.fewer.trans fewer)
            | false =>
                obtain ⟨fault, last, chunks, fed, within, gone, sound, fewer⟩ :=
                  feedWs_ended sound' there stays
                rw [fed]
                exact .ended outcome same stays within gone sound (chain.fewer.trans fewer)

/-! ### Faithful streams -/

theorem Faithful.feed {sockets : Sockets} (faithful : ∀ d, Faithful sockets d) (d : ClientId) : Faithful
      { ws := Function.update sockets.ws c
          { sockets.ws c with wsParser := (wsTrace (sockets.ws c).wsParser data).parser }
        received := Function.update sockets.received c (sockets.received c ++ data)
        passed := Function.update sockets.passed c
          (sockets.passed c ++ dataChunks (wsTrace (sockets.ws c).wsParser data).calls) } d := by
  by_cases same : d = c
  · subst d
    intro reads
    simp only [Function.update_self] at reads ⊢
    obtain ⟨before, later⟩ := read_of_append reads
    obtain ⟨parser, passed⟩ := faithful c before
    rw [← parser, ← wsTrace_report] at later
    rw [feed_append, Report.andThen, before]
    dsimp only
    rw [← parser, ← wsTrace_report]
    refine ⟨rfl, ?_⟩
    rw [List.flatten_append, passed, dataBytes_append, ← dataBytes_calls]
    rfl
  · unfold Faithful
    simp only [Function.update_of_ne same]
    exact faithful d

/-- A step of a broker whose steps do not interrupt sessions. -/
theorem faithful_wsRecv {http : HttpAnswer} {sockets : Sockets} (sound : Sound b)
    (faithful : ∀ d, Faithful sockets d)
    (stays : ∀ rest d sockets', (beforeWs cfg c data http).run (b, sockets) = (.ok (some rest), d, sockets') →
      SessionStays cfg c (wsPayload (sockets'.ws c).wsParser rest) d = true) :
    Sound ((cWsRecv cfg c data http).run (b, sockets)).2.1 ∧
      ∀ d, Faithful ((cWsRecv cfg c data http).run (b, sockets)).2.2 d := by
  have receives : Receives cfg c data http b sockets ((cWsRecv cfg c data http).run (b, sockets)) :=
    cWsRecv_receives data http sockets sound
  generalize (cWsRecv cfg c data http).run (b, sockets) = outcome at receives ⊢
  cases receives with
  | nothing idle sound fewer same => exact ⟨sound, fun d => (faithful d).same same⟩
  | read before same stays sound => exact ⟨sound, Faithful.feed fun d => (faithful d).same same⟩
  | ended before same ends =>
      rw [stays _ _ _ before] at ends
      cases ends

theorem Faithful.clear {sockets : Sockets} (faithful : ∀ d, Faithful sockets d) (c d : ClientId) :
    Faithful (sockets.clear c) d := by
  by_cases same : d = c
  · subst d
    intro _
    simp [Sockets.clear, cWsInit, Lib.feed, Report.still, dataBytes]
  · unfold Faithful Sockets.clear
    simp only [Function.update_of_ne same]
    exact faithful d

theorem wsAfter_eq (outcome : Except Fault Unit × State × Sockets) :
    (wsAfter outcome).run.state = outcome.2.1 ∧ (wsAfter outcome).sockets = outcome.2.2 := by
  obtain ⟨result, b, sockets⟩ := outcome
  cases result with
  | ok value => exact ⟨rfl, rfl⟩
  | error fault => cases fault <;> exact ⟨rfl, rfl⟩

/-- What a step can be, and the run behind it. -/
inductive WsStep (cfg : Config) (ws : WsRun) : WsAction → WsRun → Prop
  | broker {action : Action} {run : Run} (runs : step cfg ws.run action = some run) :
      WsStep cfg ws (.broker action) ⟨run, ws.sockets.stepped ws.run.state action⟩
  | wsRecv {c : ClientId} (going : ws.run.ended = false) (there : (ws.run.state.clients c).isSome)
      (data : List Byte) (http : HttpAnswer) (answers : Answers) :
      WsStep cfg ws (.wsRecv c data http answers)
        (wsAfter ((cWsRecv cfg c data http).run ({ ws.run.state with answers }, ws.sockets)))

theorem wsStep_cases {ws next : WsRun} {action : WsAction} (stepped : wsStep cfg ws action = some next) :
    WsStep cfg ws action next := by
  cases action with
  | broker action =>
      rw [wsStep] at stepped
      split at stepped
      · cases stepped
      · obtain ⟨run, runs, same⟩ := Option.map_eq_some_iff.mp stepped
        subst same
        exact .broker runs
  | wsRecv c data http answers =>
      rw [wsStep] at stepped
      split at stepped
      · rename_i may
        obtain ⟨going, receives⟩ := Bool.and_eq_true_iff.mp may
        rw [receivesWs, Option.any_eq_true] at receives
        obtain ⟨p, present, -⟩ := receives
        have isNext := Option.some.inj stepped
        subst isNext
        exact .wsRecv (by simpa using going) (by simp [present]) data http answers
      · cases stepped

/-- Every step that interrupts no session keeps the streams faithful. -/
theorem faithful_step {ws next : WsRun} {action : WsAction} (sound : Sound ws.run.state)
    (faithful : ∀ d, Faithful ws.sockets d) (uninterrupted : Uninterrupted cfg ws action = true)
    (stepped : wsStep cfg ws action = some next) :
    Sound next.run.state ∧ ∀ d, Faithful next.sockets d := by
  cases wsStep_cases stepped with
  | @broker action run runs =>
      refine ⟨sound_steps sound (step_steps runs).2, fun d => ?_⟩
      cases action with
      | accept => exact Faithful.clear faithful _ d
      | _ => exact faithful d
  | @wsRecv c going there data http answers =>
      obtain ⟨state, sockets⟩ :=
        wsAfter_eq ((cWsRecv cfg c data http).run ({ ws.run.state with answers }, ws.sockets))
      rw [state, sockets]
      refine faithful_wsRecv (sound.answers answers) faithful fun rest d sockets' outcome => ?_
      simpa only [Uninterrupted, outcome] using uninterrupted

/-- In runs that interrupt no session, the buffers that were passed to `c_parse` for a
client are together the payloads of the data frames it sent, for every sequence of frames
and however its bytes were cut. -/
theorem ws_transport_transparent {ws : WsRun}
    (reached : ((wsBroker cfg).restrict fun ws action => Uninterrupted cfg ws action = true).Reachable ws)
    {frames : List WsFrame} (follows : Follows false frames)
    (sent : ws.sockets.received c = encodeFrames frames) :
    (ws.sockets.passed c).flatten = dataPayloads frames := by
  have initially : ∀ ws, ((wsBroker cfg).restrict fun ws action => Uninterrupted cfg ws action = true).init ws →
      Sound ws.run.state ∧ ∀ d, Faithful ws.sockets d := by
    intro ws initial
    obtain rfl : ws = wsStart := initial
    have reached : (broker cfg).Reachable start := .start rfl
    refine ⟨reachable_sound reached, fun d _ => ?_⟩
    simp [wsStart, cWsInit, Lib.feed, Report.still, dataBytes]
  obtain ⟨-, faithful⟩ := reached.invariant initially fun ws action next _ holds stepped =>
    faithful_step holds.1 holds.2 (System.restrict_step.mp stepped).1 (System.restrict_step.mp stepped).2
  have all : ∃ last, Reads wsByte wsParserInit (encodeFrames frames) (frames.flatMap WsFrame.events) last :=
    reads_frames follows rfl (by simp)
  obtain ⟨last, reads⟩ := all
  have result := faithful c
  unfold Faithful at result
  rw [sent, reads] at result
  rw [(result rfl).2, dataBytes_frames]

/-- The upgrade of a client: a request that is answered. -/
def upgradeWs : List WsAction :=
  [.broker (.accept 0 false true []), .wsRecv 0 (lit "GET") ⟨3, true, some (lit "101")⟩ silent]

/-- A PINGREQ in two fragments, the second one masked, with a ping between them. -/
def pingFrames : List WsFrame :=
  [⟨false, .binary, none, [0xC0], by decide, by decide, by decide⟩,
    ⟨true, .ping, none, [7], by decide, by decide, by decide⟩,
    ⟨true, .continuation, some fun _ => 5, [0], by decide, by decide, by decide⟩]

/-- It arrives in two pieces, cut inside the mask. -/
theorem ws_transport_transparent_ping :
    ∃ ws, ((wsBroker (oneWorker true)).restrict fun ws action =>
        Uninterrupted (oneWorker true) ws action = true).Reachable ws ∧
      ws.sockets.received 0 = encodeFrames pingFrames ∧ ws.sockets.passed 0 = [[0xC0], [0]] ∧
      (ws.sockets.passed 0).flatten = dataPayloads pingFrames := by
  have ends : (((wsBroker (oneWorker true)).restrict fun ws action =>
      Uninterrupted (oneWorker true) ws action = true).run wsStart
        (upgradeWs ++ [.wsRecv 0 ((encodeFrames pingFrames).take 10) ⟨0, true, none⟩ silent,
          .wsRecv 0 ((encodeFrames pingFrames).drop 10) ⟨0, true, none⟩ silent])).map
      (fun ws => (ws.sockets.received 0, ws.sockets.passed 0)) =
        some (encodeFrames pingFrames, [[0xC0], [0]]) := by
    decide +kernel
  obtain ⟨ws, ran, streams⟩ := Option.map_eq_some_iff.mp ends
  obtain ⟨received, passed⟩ := Prod.mk.inj streams
  have reached := System.Reachable.run (.start rfl) ran
  have follows : Follows false pingFrames := by simp [pingFrames, Follows]
  exact ⟨ws, reached, received, passed, ws_transport_transparent reached follows received⟩

/-- A DISCONNECT in one frame and a PINGREQ in the next. -/
def disconnectFrames : List WsFrame :=
  [⟨true, .binary, none, [0xE0, 0], by decide, by decide, by decide⟩,
    ⟨true, .binary, none, [0xC0, 0], by decide, by decide, by decide⟩]

/-- The first frame closes the client and frees the parser that reads the frames. -/
theorem ws_transport_loses_frame :
    Follows false disconnectFrames ∧ ∃ ws, (wsBroker (oneWorker true)).Reachable ws ∧
      ws.sockets.received 0 = encodeFrames disconnectFrames ∧ ws.sockets.passed 0 = [[0xE0, 0]] ∧
      (ws.sockets.passed 0).flatten ≠ dataPayloads disconnectFrames := by
  have ends : ((wsBroker (oneWorker true)).run wsStart
        (upgradeWs ++ [.wsRecv 0 (encodeFrames disconnectFrames) ⟨0, true, none⟩ silent])).map
      (fun ws => (ws.sockets.received 0, ws.sockets.passed 0)) =
        some (encodeFrames disconnectFrames, [[0xE0, 0]]) := by
    decide +kernel
  obtain ⟨ws, ran, streams⟩ := Option.map_eq_some_iff.mp ends
  obtain ⟨received, passed⟩ := Prod.mk.inj streams
  refine ⟨by simp [disconnectFrames, Follows], ws, .run (.start rfl) ran, received, passed, ?_⟩
  rw [passed]
  decide

end FbBroker.Broker
