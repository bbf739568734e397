import FbBroker.Broker.Rounds

/-!
Contract: the steps of the broker.

Owns what a round of delivery and of garbage collection may do, the rules for
the loop of `mqtt_parser_execute` and the call around it, and the invariant that
every run keeps: no client is half closed and every session is in range.
-/

set_option autoImplicit false

namespace FbBroker.Broker

open FbBroker.Lib FbBroker.Packet FbBroker.Parser FbBroker.TrieMult FbBroker.Routing

variable {cfg : Config} {closes : Bool} {c : ClientId} {b : State} {b' : State} {task : Task}

/-! ### Delivery -/

/-- The edits of a delivery, for one subscriber after the other. -/
abbrev Serving (cfg : Config) (closes : Bool) (m : MsgId) : State → State → Prop :=
  Relation.ReflTransGen fun b b' => ∃ c, Change cfg closes (.deliver m) c b b'

theorem Evolves.serving {m : MsgId} (chain : Evolves cfg closes (.deliver m) c b b') :
    Serving cfg closes m b b' := by
  induction chain with
  | refl => exact .refl
  | tail _ change inductionHypothesis => exact .tail inductionHypothesis ⟨c, change⟩

theorem Serving.calm {m : MsgId} (chain : Serving cfg closes m b b') (calm : Calm b) :
    Calm b' := by
  induction chain with
  | refl => exact calm
  | tail _ change inductionHypothesis =>
      obtain ⟨c, change⟩ := change
      exact ⟨inductionHypothesis.taken.subset change.writes, change.regular inductionHypothesis.regular⟩

/-- The contract of a delivery: a subscriber, a list node or the message may be
gone. -/
def service (cfg : Config) (closes : Bool) (m : MsgId) : Contract Fault State where
  rel := Serving cfg closes m
  pre b := closes = true ∨ Calm b
  fault fault _ := closes = true ∨ fault ≠ .assertion
  refl _ := .refl
  trans := .trans
  keeps before chain := before.imp_right fun calm => Serving.calm chain calm

section Service

variable {m : MsgId} {Value : Type} {post : Value → Prop}

private theorem holds_service {command : Code Value}
    (holds : (contract cfg closes (.deliver m) c).Holds post command b) :
    (service cfg closes m).Holds post command b := by
  obtain ⟨chain, ends⟩ := holds
  refine ⟨chain.serving, ?_⟩
  cases outcome : command.run b with
  | mk result d =>
      rw [outcome] at ends
      cases result with
      | ok value => exact ends
      | error fault => exact ends.imp And.left And.right

private theorem holds_service_client {rest : Client → Code Value}
    (found : ∀ p, b.clients c = some p → (service cfg closes m).Holds post (rest p) b) :
    (service cfg closes m).Holds post (client c >>= rest) b :=
  holds_client_bind (fun _ => .inr (by decide)) found

private theorem holds_service_message {m' : MsgId} {rest : MsgRec → Code Value}
    (found : ∀ mp, b.messages m' = some mp → (service cfg closes m).Holds post (rest mp) b) :
    (service cfg closes m).Holds post (message m' >>= rest) b :=
  holds_message_bind (fun _ => .inr (by decide)) found

private theorem holds_service_modify {change : State → State} {rest : PUnit → Code Value}
    (changes : ∃ c, Change cfg closes (.deliver m) c b (change b))
    (restHolds : (service cfg closes m).Holds post (rest ()) (change b)) :
    (service cfg closes m).Holds post (modify change >>= rest) b := by
  obtain ⟨moves, ends⟩ := restHolds
  exact ⟨.head changes moves, ends⟩

theorem length_encodePublish_lt (mp : Message) (qos msgId : Nat) :
    (encodePublish sendBufLen mp qos msgId).length < 2 ^ 16 := by
  rcases length_encodePublish sendBufLen mp qos msgId with nothing | ⟨fits, total⟩
  · simp [nothing]
  · have small : publishLen qos mp.topic.length mp.payload.length < 1500 := by
      unfold packetLen sendBufLen at fits
      dsimp only at fits
      split_ifs at fits <;> omega
    have := length_encodeRemLen_le (small.trans (show 1500 < 128 ^ (1 + 1) by decide))
    omega

theorem nextMsgId_run {p : Client} (present : b.clients c = some p) (qos : Nat) :
    (nextMsgId c qos).run b =
      if qos > 0 then
        (.ok ((p.msgId + 1) % 2 ^ 16), b.putClient c { p with msgId := (p.msgId + 1) % 2 ^ 16 })
      else (.ok 0, b) := by
  unfold nextMsgId
  split
  · simp [updateClient, client, Cmd.run_bind, present, State.putClient]
  · rfl

private theorem holds_deliverTo {sp : SubRef} (before : (service cfg closes m).pre b) :
    (service cfg closes m).Holds (fun _ => True) (deliverTo cfg m sp) b := by
  refine holds_service_client fun p present => holds_service_message fun mp found => ?_
  -- the packet that is sent, in the state behind the new message id
  have sends : ∀ b' p' msgId, (service cfg closes m).pre b' → b'.messages m = some mp →
      b'.clients sp.1 = some p' → p'.subscriptions = p.subscriptions →
      (service cfg closes m).Holds (fun _ => True) (do
        let _ ← cSendData cfg sp.1 (encodePublish sendBufLen mp.message
          (min mp.message.origQos (p.subscriptions sp.2).qos) msgId)) b' := by
    intro b' p' msgId calm found' present' same
    have ready : (contract cfg closes (.deliver m) sp.1).pre b' :=
      calm.imp_right fun calm => ⟨calm, by simp [present']⟩
    have packet : Packets (.deliver m) b' sp.1 (encodePublish sendBufLen mp.message
        (min mp.message.origQos (p.subscriptions sp.2).qos) msgId) := by
      rw [← same]
      exact .publish sp.2 msgId found' present' rfl
    exact holds_service (.bind
      (holds_cSendData ready packet (.inr (length_encodePublish_lt _ _ _))) fun _ _ _ _ => .pure trivial)
  have counted := nextMsgId_run present (min mp.message.origQos (p.subscriptions sp.2).qos)
  unfold Contract.Holds
  split at counted
  · rw [Cmd.bind_ok counted]
    have change : Change cfg closes (.deliver m) sp.1 b
        (b.putClient sp.1 { p with msgId := (p.msgId + 1) % 2 ^ 16 }) :=
      .client present ⟨rfl, rfl, .inl rfl, .inl ⟨rfl, rfl⟩, fun i => .inl ⟨i, rfl⟩, .inr ⟨m, rfl⟩⟩ nofun
    have written : (b.putClient sp.1 { p with msgId := (p.msgId + 1) % 2 ^ 16 }).clients sp.1 =
        some { p with msgId := (p.msgId + 1) % 2 ^ 16 } := by
      simp [State.putClient]
    obtain ⟨moves, ends⟩ := sends _ _ _ ((service cfg closes m).keeps before (.single ⟨_, change⟩))
      found written rfl
    exact ⟨.head ⟨_, change⟩ moves, ends⟩
  · rw [Cmd.bind_ok counted]
    exact sends b p 0 before found present rfl

theorem cDeliver_keeps (sp : SubRef) : (service cfg closes m).Keeps (fun _ => True) (cDeliver cfg m sp) := by
  intro b before
  refine holds_service_client fun p present => ?_
  unfold onlyIf
  split
  · exact holds_deliverTo before
  · exact .pure trivial

private theorem serviceFaults : SearchFaults (service cfg closes m) :=
  fun _ => ⟨.inr (by decide), .inr (by decide), .inr (by decide)⟩

private theorem ownerHere_holds (w : Nat) (owner : Owner) :
    (service cfg closes m).Holds (fun _ => True) (ownerHere w owner) b := by
  cases owner with
  | me worker => exact .pure trivial
  | client c => exact holds_service_client fun _ _ => .pure trivial

private theorem deliverDone_keeps (w : Nat) : (service cfg closes m).Keeps (fun _ => True) (deliverDone w m) := by
  intro b _
  refine holds_service_message fun mp found => holds_service_modify ⟨0, ?_⟩ ?_
  · refine .retire ⟨m, rfl⟩ (fun _ _ member => member) fun m' mp' kept => ?_
    by_cases same : m' = m
    · subst m'
      obtain rfl : { mp with notDone := Function.update mp.notDone w false } = mp' := by
        simpa using kept
      exact ⟨mp, found, rfl, rfl⟩
    · exact ⟨mp', by simpa [same] using kept, rfl, rfl⟩
  · refine .bind (ownerHere_holds w mp.owner) fun here b' _ _ => ?_
    cases here with
    | false => exact .pure trivial
    | true =>
        exact .modify (.single ⟨0, .retire ⟨m, rfl⟩ (fun _ _ member => member)
          fun m' mp' kept => ⟨mp', kept, rfl, rfl⟩⟩) trivial

private theorem deliverMessage_keeps (w : Nat) :
    (service cfg closes m).Keeps (fun _ => True) (deliverMessage cfg w m) := by
  intro b before
  refine holds_service_message fun mp _ => .get_bind ?_
  have searched : (service cfg closes m).Holds (fun _ => True)
      (subSearch (table w) (cDeliver cfg m) b.listBound mp.message.topic) b :=
    trieMSearchMqtt_keeps serviceFaults cDeliver_keeps _ b before
  exact searched.bind fun _ b' moved _ =>
    deliverDone_keeps w b' ((service cfg closes m).keeps before moved)

end Service

/-- A round of delivery serves the message at the head of the queue. -/
theorem holds_wDeliverRound (w : Nat) (before : closes = true ∨ Calm b) :
    (service cfg closes ((b.msgQ w).headD 0)).Holds (fun _ => True) (wDeliverRound cfg w) b := by
  cases queue : b.msgQ w with
  | nil =>
      have none : (wMessagePop w).run b = (.ok none, b) := by simp [wMessagePop, queue]
      unfold Contract.Holds wDeliverRound
      rw [Cmd.bind_ok none]
      exact ⟨.refl, trivial⟩
  | cons m rest =>
      have popped : ∃ c, Change cfg closes (.deliver m) c b
          { b with msgQ := Function.update b.msgQ w rest } := by
        refine ⟨0, .retire ⟨m, rfl⟩ (fun v m' member => ?_) fun m' mp' kept => ⟨mp', kept, rfl, rfl⟩⟩
        by_cases same : v = w
        · subst v
          simp only [Function.update_self] at member
          simp [queue, member]
        · simpa [same] using member
      have pops : (service cfg closes m).Holds (fun found => found = some m) (wMessagePop w) b := by
        refine .get_bind ?_
        simp only [queue]
        exact holds_service_modify popped (holds_service_message fun _ _ => .pure rfl)
      refine pops.bind fun found b' moved same => ?_
      subst same
      exact (deliverMessage_keeps w b' ((service cfg closes m).keeps before moved)).bind
        fun _ _ _ _ => .pure trivial

/-- A round of garbage collection frees at most a message. -/
theorem wGcRound_evolves (w : Nat) (c : ClientId) (b : State) :
    Evolves cfg false (.deliver 0) c b ((wGcRound cfg w).run b).2 := by
  cases queue : b.gcQ w with
  | nil => simpa [wGcRound, queue] using .refl
  | cons m rest =>
      cases found : b.messages m with
      | none => simpa [wGcRound, queue, message, Cmd.run_bind, found] using .refl
      | some mp =>
          by_cases done : messageDone cfg mp = true
          · simp only [wGcRound, queue, message, Cmd.run_bind, Cmd.run_get, found, Cmd.run_pure, done,
              if_true, Cmd.run_modify]
            refine .single (.retire ⟨0, rfl⟩ (fun _ _ member => member) fun m' mp' kept => ⟨mp', ?_, rfl, rfl⟩)
            by_cases same : m' = m
            · simp [same] at kept
            · simpa [same] using kept
          · simpa [wGcRound, queue, message, Cmd.run_bind, found, done] using .refl

theorem cDisconnect_evolves (reason : List Byte) (b : State) :
    Evolves cfg true .idle c b ((cDisconnect cfg c reason).run b).2 :=
  (cDisconnect_keeps reason b (.inl rfl)).1

/-! ### The parser loop -/

/-- A condition on every round of a call, in the state the round starts in, up to
the first round that touches a freed record. -/
def Along (cfg : Config) (c : ClientId) (meets : State → Byte → Prop) : List Byte → State → Prop
  | [], _ => True
  | byte :: buf, b =>
      meets b byte ∧
        match (parserRound cfg c byte).run b with
        | (.ok none, next) => Along cfg c meets buf next
        | _ => True

instance decidableAlong (cfg : Config) (c : ClientId) (meets : State → Byte → Prop)
    [∀ b byte, Decidable (meets b byte)] : ∀ buf b, Decidable (Along cfg c meets buf b)
  | [], _ => isTrue trivial
  | byte :: buf, b =>
      haveI : Decidable (match (parserRound cfg c byte).run b with
          | (.ok none, next) => Along cfg c meets buf next
          | _ => True) :=
        match (parserRound cfg c byte).run b with
        | (.ok none, next) => decidableAlong cfg c meets buf next
        | (.ok (some _), _) => isTrue trivial
        | (.error _, _) => isTrue trivial
      inferInstanceAs (Decidable (_ ∧ _))

/-- No byte of the buffer is left behind a round that touches the freed record of
its client. On a DISCONNECT `mqtt_parser_execute` returns, behind a rejected
CONNECT it parses on. -/
def finishes (cfg : Config) (c : ClientId) : List Byte → State → Bool
  | [], _ => true
  | byte :: buf, b =>
      match (parserRound cfg c byte).run b with
      | (.ok none, next) => finishes cfg c buf next
      | (.error .useAfterFree, _) =>
          buf.isEmpty || (b.clients c).any fun p =>
            match parsing cfg b p byte with
            | .disconnect _ => true
            | _ => false
      | _ => true

/-- A call of the parser that has nothing left to parse when it leaves. -/
def Finished (cfg : Config) (run : Run) : Action → Prop
  | .parse c buf answers => finishes cfg c buf { run.state with answers } = true
  | _ => True

instance decidableFinished (cfg : Config) (run : Run) : ∀ action, Decidable (Finished cfg run action)
  | .parse _ _ _ => inferInstanceAs (Decidable (_ = true))
  | .accept _ _ _ _ => isTrue trivial
  | .drop _ _ _ => isTrue trivial
  | .deliver _ _ => isTrue trivial
  | .gc _ => isTrue trivial

/-! ### Steps -/

theorem after_state {Value : Type} (call : Code Value) (b : State) :
    (after call b).state = (call.run b).2 := by
  unfold after
  split <;> simp_all

/-- A call that does not end the process returned or touched freed memory. -/
theorem after_ended {Value : Type} {call : Code Value} {b : State} (goesOn : (after call b).ended = false)
    {fault : Fault} (stops : (call.run b).1 = .error fault) : fault = .useAfterFree := by
  unfold after at goesOn
  split at goesOn <;> simp_all

/-- The steps of a broker, by the call that makes them. -/
inductive Steps (cfg : Config) (b : State) : Action → Run → Prop
  | accept {w : Nat} {isTls isWs : Bool} {ipAddress : List Byte} (worker : w < cfg.numWorkers) :
      Steps cfg b (.accept w isTls isWs ipAddress) (after (workersAddClient w isTls isWs ipAddress) b)
  | parse {c : ClientId} {buf : List Byte} {answers : Answers} {p : Client}
      (present : b.clients c = some p) :
      Steps cfg b (.parse c buf answers) (after (cParse cfg c buf) { b with answers })
  | drop {c : ClientId} {reason : List Byte} {answers : Answers} {p : Client}
      (present : b.clients c = some p) :
      Steps cfg b (.drop c reason answers) (after (cDisconnect cfg c reason) { b with answers })
  | deliver {w : Nat} {answers : Answers} (worker : w < cfg.numWorkers) :
      Steps cfg b (.deliver w answers) (after (wDeliverRound cfg w) { b with answers })
  | gc {w : Nat} (worker : w < cfg.numWorkers) : Steps cfg b (.gc w) (after (wGcRound cfg w) b)

theorem step_steps {run next : Run} {action : Action} (stepped : step cfg run action = some next) :
    run.ended = false ∧ Steps cfg run.state action next := by
  unfold step at stepped
  split at stepped
  · simp at stepped
  · rename_i going
    refine ⟨by simpa using going, ?_⟩
    cases action with
    | accept w isTls isWs ipAddress =>
        simp only [Option.ite_none_right_eq_some, Option.some.injEq] at stepped
        exact stepped.2 ▸ .accept stepped.1
    | parse c buf answers =>
        simp only [Option.ite_none_right_eq_some, Option.some.injEq] at stepped
        obtain ⟨p, present⟩ := Option.isSome_iff_exists.mp stepped.1
        exact stepped.2 ▸ .parse present
    | drop c reason answers =>
        simp only [Option.ite_none_right_eq_some, Option.some.injEq] at stepped
        obtain ⟨p, present⟩ := Option.isSome_iff_exists.mp stepped.1
        exact stepped.2 ▸ .drop present
    | deliver w answers =>
        simp only [Option.ite_none_right_eq_some, Option.some.injEq] at stepped
        exact stepped.2 ▸ .deliver stepped.1
    | gc w =>
        simp only [Option.ite_none_right_eq_some, Option.some.injEq] at stepped
        exact stepped.2 ▸ .gc stepped.1

/-! ### Sound states -/

theorem Evolves.invariant {Inv : State → Prop}
    (preserved : ∀ {b b'}, Change cfg closes task c b b' → Inv b → Inv b')
    (chain : Evolves cfg closes task c b b') (invariant : Inv b) : Inv b' := by
  induction chain with
  | refl => exact invariant
  | tail _ change inductionHypothesis => exact preserved change inductionHypothesis

theorem Serving.invariant {m : MsgId} {Inv : State → Prop}
    (preserved : ∀ {c b b'}, Change cfg closes (.deliver m) c b b' → Inv b → Inv b')
    (chain : Serving cfg closes m b b') (invariant : Inv b) : Inv b' := by
  induction chain with
  | refl => exact invariant
  | tail _ change inductionHypothesis =>
      obtain ⟨c, change⟩ := change
      exact preserved change inductionHypothesis

/-- What every run keeps: no client is half closed, the keep-alive tables are at
rest, all sessions are in range, and the ids of clients are given out in order. -/
structure Sound (b : State) : Prop where
  regular : Regular b
  sessions : ∀ c p, b.clients c = some p → p.session.Ok
  known : ∀ c p, b.clients c = some p → c < b.nextClient

namespace Sound

variable {p : Client}

theorem answers (sound : Sound b) (answers : Answers) : Sound { b with answers } :=
  ⟨⟨sound.regular.states, sound.regular.idle⟩, sound.sessions, sound.known⟩

theorem round (sound : Sound b) (present : b.clients c = some p) (cfg : Config) (byte : Byte) :
    Round cfg true c b p byte ((parserRound cfg c byte).run b) :=
  parserRound_round present sound.regular (sound.sessions c p present) (.inl rfl)

theorem change (change : Change cfg closes task c b b') (sound : Sound b) :
    Sound b' where
  regular := change.regular sound.regular
  sessions d p' found := by
    obtain ⟨p, present, updates⟩ := change.client_before found
    rw [updates.session]
    exact sound.sessions d p present
  known d p' found := by
    obtain ⟨p, present, -⟩ := change.client_before found
    have same : b'.nextClient = b.nextClient := by cases change <;> rfl
    exact same ▸ sound.known d p present

theorem evolves (sound : Sound b) (chain : Evolves cfg closes task c b b') :
    Sound b' :=
  chain.invariant change sound

/-- Writing a record for a client that is there. -/
theorem putClient {p' : Client} (sound : Sound b) (present : b.clients c = some p)
    (ok : p'.session.Ok) (state : p'.state = p.state) : Sound (b.putClient c p') := by
  have other : ∀ d q, (b.putClient c p').clients d = some q → d = c ∧ q = p' ∨ b.clients d = some q := by
    intro d q found
    by_cases same : d = c
    · left
      subst d
      exact ⟨rfl, by simpa [State.putClient, eq_comm] using found⟩
    · right
      simpa [State.putClient, same] using found
  refine ⟨⟨fun d q found => ?_, sound.regular.idle⟩, fun d q found => ?_, fun d q found => ?_⟩
  · rcases other d q found with ⟨same, written⟩ | before
    · subst d q
      exact state ▸ sound.regular.states c p present
    · exact sound.regular.states d q before
  · rcases other d q found with ⟨same, written⟩ | before
    · subst d q
      exact ok
    · exact sound.sessions d q before
  · rcases other d q found with ⟨same, written⟩ | before
    · subst d q
      exact sound.known c p present
    · exact sound.known d q before

theorem parsed {s : Session} (sound : Sound b) (present : b.clients c = some p) (ok : s.Ok) :
    Sound (b.parsed c p s) :=
  have asked : Sound { b with answers.mallocs := b.answers.mallocs.tail } := sound.answers _
  asked.putClient present ok rfl

theorem emit (sound : Sound b) (event : Event) : Sound (b.emit event) :=
  ⟨⟨sound.regular.states, sound.regular.idle⟩, sound.sessions, sound.known⟩

end Sound

/-! ### The rules for the parser loop -/

/-- A round goes on, returns an error or stops with a fault. -/
def RoundEnds (goesOn failed : State → Prop) (stopped : Fault → State → Prop) :
    Except Fault (Option Int) × State → Prop
  | (.ok none, d) => goesOn d
  | (.ok (some rv), d) => rv ≠ 0 ∧ failed d
  | (.error fault, d) => stopped fault d

/-- A round keeps the state sound, and the client is there as long as the loop goes
on. -/
theorem sound_round (sound : Sound b) (there : (b.clients c).isSome) (byte : Byte) :
    RoundEnds (fun d => Sound d ∧ (d.clients c).isSome) Sound (fun _ => Sound)
      ((parserRound cfg c byte).run b) := by
  obtain ⟨p, present⟩ := Option.isSome_iff_exists.mp there
  have ok := sound.sessions c p present
  have goes : (parsing cfg b p byte).Ensures Session.Ok fun last _ => last.Ok := parserByte_ok ok
  have ends : (parsing cfg b p byte).OnEnd Session.Ok := parserByte_onEnd_ok ok
  have round := sound.round present cfg byte
  generalize (parserRound cfg c byte).run b = outcome at round
  cases round with
  | next parses =>
      rw [parses] at goes
      exact ⟨sound.parsed present goes, by simp⟩
  | refused parses fails =>
      rw [parses] at ends
      exact ⟨fails, (sound.parsed present ends.2).emit _⟩
  | returned parses chain decided found =>
      rw [parses] at goes
      have later := (sound.parsed present goes).evolves chain
      exact ⟨later.putClient found (later.sessions c _ found).toHeader rfl, by simp [State.putClient]⟩
  | failed may parses chain =>
      rw [parses] at goes
      exact ⟨by decide, (sound.parsed present goes).evolves chain⟩
  | broken parses chain fails =>
      rw [parses] at goes
      exact (sound.parsed present goes).evolves chain
  | left may parses chain fails =>
      rw [parses] at ends
      exact (sound.parsed present ends).evolves chain
  | stopped other => exact sound.answers _

section Loop

variable {meets : State → Byte → Prop} (Inv failed : State → Prop) (stopped : Fault → State → Prop)

/-- The rule for the loop of `mqtt_parser_execute`, in sound states and while the
client is there. -/
theorem mqttParserExecute_rule
    (round : ∀ d byte, Sound d → (d.clients c).isSome → Inv d → meets d byte →
      RoundEnds Inv failed stopped ((parserRound cfg c byte).run d))
    {buf : List Byte} {b : State} (sound : Sound b) (there : (b.clients c).isSome) (invariant : Inv b)
    (along : Along cfg c meets buf b) :
    Sound ((mqttParserExecute cfg c buf).run b).2 ∧
      match (mqttParserExecute cfg c buf).run b with
      | (.ok rv, d) => rv = 0 ∧ (d.clients c).isSome ∧ Inv d ∨ rv ≠ 0 ∧ failed d
      | (.error fault, d) => stopped fault d := by
  induction buf generalizing b with
  | nil => exact ⟨sound, .inl ⟨rfl, there, invariant⟩⟩
  | cons byte buf inductionHypothesis =>
      obtain ⟨here, later⟩ := along
      have keeps : RoundEnds (fun d => Sound d ∧ (d.clients c).isSome) Sound (fun _ => Sound)
          ((parserRound cfg c byte).run b) := sound_round sound there byte
      have ends := round b byte sound there invariant here
      rw [mqttParserExecute, Cmd.run_bind]
      cases outcome : (parserRound cfg c byte).run b with
      | mk result d =>
          rw [outcome] at keeps ends later
          match result with
          | .ok none => exact inductionHypothesis keeps.1 keeps.2 ends later
          | .ok (some rv) => exact ⟨keeps.2, .inr ends⟩
          | .error fault => exact ⟨keeps, ends⟩

/-- The rule for `c_parse`: an error of the loop is followed by a close. -/
theorem cParse_rule (post : Except Fault Unit × State → Prop)
    (round : ∀ d byte, Sound d → (d.clients c).isSome → Inv d → meets d byte →
      RoundEnds Inv failed stopped ((parserRound cfg c byte).run d))
    (done : ∀ d, Sound d → (d.clients c).isSome → Inv d → post (.ok (), d))
    (close : ∀ d, Sound d → failed d → post ((cDisconnect cfg c (lit "mqtt parse error")).run d))
    (stop : ∀ fault d, Sound d → stopped fault d → post (.error fault, d))
    {buf : List Byte} {b : State} (sound : Sound b) (there : (b.clients c).isSome) (invariant : Inv b)
    (along : Along cfg c meets buf b) : post ((cParse cfg c buf).run b) := by
  obtain ⟨later, ends⟩ := mqttParserExecute_rule Inv failed stopped round sound there invariant along
  unfold cParse
  rw [Cmd.run_bind]
  cases outcome : (mqttParserExecute cfg c buf).run b with
  | mk result d =>
      rw [outcome] at later ends
      cases result with
      | error fault => exact stop fault d later ends
      | ok rv =>
          rcases ends with ⟨none, there, invariant⟩ | ⟨error, failed⟩
          · subst none
            exact done d later there invariant
          · simp only [onlyIf, ne_eq, error, not_false_eq_true, decide_true, if_true]
            exact close d later failed

end Loop

theorem along_of_forall {meets : State → Byte → Prop} (always : ∀ b byte, meets b byte) :
    ∀ buf b, Along cfg c meets buf b
  | [], _ => trivial
  | byte :: buf, b => by
      refine ⟨always b byte, ?_⟩
      split
      · exact along_of_forall always buf _
      · trivial

theorem RoundEnds.mono {goesOn goesOn' failed failed' : State → Prop}
    {stopped stopped' : Fault → State → Prop} {outcome : Except Fault (Option Int) × State}
    (ends : RoundEnds goesOn failed stopped outcome) (going : ∀ d, goesOn d → goesOn' d)
    (failing : ∀ d, failed d → failed' d) (stopping : ∀ fault d, stopped fault d → stopped' fault d) :
    RoundEnds goesOn' failed' stopped' outcome := by
  match outcome with
  | (.ok none, d) => exact going d ends
  | (.ok (some rv), d) => exact ⟨ends.1, failing d ends.2⟩
  | (.error fault, d) => exact stopping fault d ends

theorem sound_cParse (sound : Sound b) (there : (b.clients c).isSome) (buf : List Byte) :
    Sound ((cParse cfg c buf).run b).2 := by
  refine cParse_rule (fun _ => True) (fun _ => True) (fun _ _ => True) (fun outcome => Sound outcome.2)
    (fun d byte sound there _ _ => ?_) (fun d sound _ _ => sound)
    (fun d sound _ => sound.evolves (cDisconnect_evolves _ d)) (fun fault d sound _ => sound) sound there
    trivial (along_of_forall (fun _ _ => (trivial : True)) buf b)
  exact (sound_round sound there byte).mono (fun _ _ => trivial) (fun _ _ => trivial)
    fun _ _ _ => trivial

/-! ### Clients that are there -/

/-- Every client that is there was there before. -/
def Fewer (b d : State) : Prop :=
  ∀ e, (d.clients e).isSome → (b.clients e).isSome

theorem Fewer.refl (b : State) : Fewer b b :=
  fun _ there => there

theorem Fewer.trans {d e : State} (first : Fewer b d) (second : Fewer d e) : Fewer b e :=
  fun f there => first f (second f there)

theorem Change.fewer {d : State} (change : Change cfg closes task c b d) : Fewer b d := by
  intro e there
  obtain ⟨p', found⟩ := Option.isSome_iff_exists.mp there
  obtain ⟨p, present, -⟩ := change.client_before found
  exact Option.isSome_iff_exists.mpr ⟨p, present⟩

theorem Evolves.fewer {d : State} (chain : Evolves cfg closes task c b d) : Fewer b d :=
  chain.invariant (fun change before => before.trans change.fewer) (.refl b)

private theorem fewer_putClient (there : (b.clients c).isSome) (p' : Client) : Fewer b (b.putClient c p') := by
  intro e found
  by_cases same : e = c
  · exact same ▸ there
  · simpa [State.putClient, same] using found

private theorem fewer_round (sound : Sound b) (there : (b.clients c).isSome) (byte : Byte) :
    RoundEnds (Fewer b) (Fewer b) (fun _ => Fewer b) ((parserRound cfg c byte).run b) := by
  obtain ⟨p, present⟩ := Option.isSome_iff_exists.mp there
  have parsed : ∀ s, Fewer b (b.parsed c p s) := fun s => fewer_putClient there _
  have round := sound.round present cfg byte
  generalize (parserRound cfg c byte).run b = outcome at round
  cases round with
  | next parses => exact parsed _
  | refused parses fails => exact ⟨fails, parsed _⟩
  | returned parses chain decided found =>
      exact ((parsed _).trans chain.fewer).trans (fewer_putClient (by simp [found]) _)
  | failed may parses chain => exact ⟨by decide, (parsed _).trans chain.fewer⟩
  | broken parses chain fails => exact (parsed _).trans chain.fewer
  | left may parses chain fails => exact (parsed _).trans chain.fewer
  | stopped other => exact .refl b

theorem fewer_cParse (sound : Sound b) (there : (b.clients c).isSome) (buf : List Byte) :
    Fewer b ((cParse cfg c buf).run b).2 := by
  refine cParse_rule (Fewer b) (Fewer b) (fun _ => Fewer b) (fun outcome => Fewer b outcome.2)
    (fun d byte sound there before _ => ?_) (fun d _ _ before => before)
    (fun d _ before => before.trans (cDisconnect_evolves _ d).fewer) (fun fault d _ before => before)
    sound there (.refl b) (along_of_forall (fun _ _ => (trivial : True)) buf b)
  exact (fewer_round sound there byte).mono (fun _ later => before.trans later)
    (fun _ later => before.trans later) fun _ _ later => before.trans later

/-- Only an accept adds a client. -/
theorem steps_fewer {action : Action} {next : Run} (sound : Sound b) (steps : Steps cfg b action next) :
    ∀ e, (next.state.clients e).isSome → (b.clients e).isSome ∨
      e = b.nextClient ∧ ∃ w isTls isWs ipAddress, action = .accept w isTls isWs ipAddress := by
  intro e there
  cases steps with
  | @accept w isTls isWs ipAddress worker =>
      rw [after_state] at there
      by_cases same : e = b.nextClient
      · exact .inr ⟨same, w, isTls, isWs, ipAddress, rfl⟩
      · exact .inl (by simpa [workersAddClient, same] using there)
  | @parse c buf answers p present =>
      rw [after_state] at there
      have here : (b.clients c).isSome := by simp [present]
      exact .inl (fewer_cParse (sound.answers answers) here buf e there)
  | @drop c reason answers p present =>
      rw [after_state] at there
      exact .inl ((cDisconnect_evolves reason { b with answers }).fewer e there)
  | @deliver w answers worker =>
      rw [after_state] at there
      have serving : Serving cfg true _ { b with answers } ((wDeliverRound cfg w).run { b with answers }).2 :=
        (holds_wDeliverRound w (.inl rfl)).1
      exact .inl (serving.invariant (fun change before => before.trans change.fewer) (Fewer.refl _) e there)
  | gc worker =>
      rw [after_state] at there
      exact .inl ((wGcRound_evolves _ 0 b).fewer e there)

/-! ### Every state is sound -/

private theorem sound_accept (sound : Sound b) (w : Nat) (isTls isWs : Bool) (ipAddress : List Byte) :
    Sound ((workersAddClient w isTls isWs ipAddress).run b).2 := by
  have other : ∀ d q, ((workersAddClient w isTls isWs ipAddress).run b).2.clients d = some q →
      d = b.nextClient ∧ q = cNew w isTls isWs ipAddress ∨ b.clients d = some q := by
    intro d q found
    by_cases same : d = b.nextClient
    · left
      subst d
      exact ⟨rfl, by simpa [workersAddClient, eq_comm] using found⟩
    · right
      simpa [workersAddClient, same] using found
  have idle : ((workersAddClient w isTls isWs ipAddress).run b).2.ka.Idle :=
    sound.regular.idle.clear b.nextClient
  refine ⟨⟨fun d q found => ?_, idle⟩, fun d q found => ?_, fun d q found => ?_⟩
  · rcases other d q found with ⟨same, new⟩ | before
    · subst d q
      simp [cNew]
    · exact sound.regular.states d q before
  · rcases other d q found with ⟨same, new⟩ | before
    · subst d q
      exact mqttParserInit_ok
    · exact sound.sessions d q before
  · rcases other d q found with ⟨same, new⟩ | before
    · subst d q
      simp [workersAddClient]
    · exact (sound.known d q before).trans (by simp [workersAddClient])

theorem sound_steps {action : Action} {next : Run} (sound : Sound b) (steps : Steps cfg b action next) :
    Sound next.state := by
  cases steps with
  | accept worker =>
      rw [after_state]
      exact sound_accept sound _ _ _ _
  | parse present =>
      rw [after_state]
      exact sound_cParse (sound.answers _) (by simp [present]) _
  | drop present =>
      rw [after_state]
      exact (sound.answers _).evolves (cDisconnect_evolves _ _)
  | deliver worker =>
      rw [after_state]
      exact (holds_wDeliverRound _ (.inl rfl)).1.invariant Sound.change (sound.answers _)
  | gc worker =>
      rw [after_state]
      exact sound.evolves (wGcRound_evolves _ 0 b)

/-- An invariant that all code keeps which does not work on a packet of a client. -/
structure Persistent (cfg : Config) (Inv : State → Prop) : Prop where
  answers : ∀ {b : State} (answers : Answers), Inv b → Inv { b with answers }
  accept : ∀ {b : State} (w : Nat) (isTls isWs : Bool) (ipAddress : List Byte), Inv b →
    Inv ((workersAddClient w isTls isWs ipAddress).run b).2
  change : ∀ {closes : Bool} {task : Task} {c : ClientId} {b b' : State},
    (task = .idle ∨ ∃ m, task = .deliver m) → Change cfg closes task c b b' → Inv b → Inv b'

/-- A step keeps it, as long as every round of the parser does. -/
theorem Persistent.steps {Inv : State → Prop} {meets : ClientId → State → Byte → Prop} {action : Action}
    {next : Run} (persistent : Persistent cfg Inv)
    (round : ∀ {c d byte}, Sound d → (d.clients c).isSome → Inv d → meets c d byte →
      RoundEnds Inv Inv (fun _ => Inv) ((parserRound cfg c byte).run d))
    (sound : Sound b) (invariant : Inv b)
    (along : ∀ c buf answers, action = .parse c buf answers → Along cfg c (meets c) buf { b with answers })
    (steps : Steps cfg b action next) : Inv next.state := by
  have closing : ∀ {c d} reason, Inv d → Inv ((cDisconnect cfg c reason).run d).2 :=
    fun reason before => (cDisconnect_evolves reason _).invariant (persistent.change (.inl rfl)) before
  cases steps with
  | accept worker =>
      rw [after_state]
      exact persistent.accept _ _ _ _ invariant
  | @parse c buf answers p present =>
      rw [after_state]
      exact cParse_rule Inv Inv (fun _ => Inv) (fun outcome => Inv outcome.2)
        (fun _ _ sound there invariant met => round sound there invariant met) (fun _ _ _ kept => kept)
        (fun _ _ kept => closing _ kept) (fun _ _ _ kept => kept) (sound.answers answers) (by simp [present])
        (persistent.answers answers invariant) (along c buf answers rfl)
  | drop present =>
      rw [after_state]
      exact closing _ (persistent.answers _ invariant)
  | deliver worker =>
      rw [after_state]
      exact (holds_wDeliverRound _ (.inl rfl)).1.invariant (persistent.change (.inr ⟨_, rfl⟩))
        (persistent.answers _ invariant)
  | gc worker =>
      rw [after_state]
      exact (wGcRound_evolves _ 0 b).invariant (persistent.change (.inr ⟨0, rfl⟩)) invariant

/-- Every state a run reaches is sound. -/
theorem reachable_sound {run : Run} (reached : (broker cfg).Reachable run) : Sound run.state := by
  have initially : ∀ run, (broker cfg).init run → Sound run.state := by
    intro run initial
    obtain rfl : run = start := initial
    exact ⟨⟨by simp [start], .initial⟩, by simp [start], by simp [start]⟩
  exact reached.invariant initially fun run action next _ sound stepped =>
    sound_steps sound (step_steps stepped).2

end FbBroker.Broker
