import FbBroker.Broker.Delivery
import FbBroker.Broker.Publishers

/-!
Contract: the messages that the parser creates.

`message_create` is called behind the topic of a PUBLISH; from there on the
session holds the message until `on_recv_publish` is called with it. Owns the
count of these calls in a call of `c_parse`, and the balance between the
messages created and those handed to the workers. The balance rests on no
PUBLISH being denied by `auth_acl`: that callback drops its message.
-/

set_option autoImplicit false

namespace FbBroker.Broker

open FbBroker.Lib FbBroker.Packet FbBroker.Parser

variable {cfg : Config} {closes : Bool} {c : ClientId} {b : State} {p : Client} {d : ClientId}
  {task : Task} {byte : Byte} {b' : State}

/-! ### Counts -/

/-- Whether a round creates the message of a PUBLISH. -/
def roundCreates (cfg : Config) (c : ClientId) (b : State) (byte : Byte) : Bool :=
  match b.clients c with
  | none => false
  | some p =>
      match parsing cfg b p byte with
      | .next s => creates p.session s
      | _ => false

/-- The messages created in a call of `mqtt_parser_execute`. -/
def created (cfg : Config) (c : ClientId) : List Byte → State → Nat
  | [], _ => 0
  | byte :: buf, b =>
      (roundCreates cfg c b byte).toNat +
        match (parserRound cfg c byte).run b with
        | (.ok none, next) => created cfg c buf next
        | _ => 0

/-- The messages of the client that `on_recv_publish` has queued. -/
def published (b : State) (c : ClientId) : Nat :=
  b.log.count (.published c)

/-- The message that the client's session holds. -/
def drafts (b : State) (c : ClientId) : Nat :=
  match b.clients c with
  | none => 0
  | some p => p.session.state.drafting.toNat

/-- Whether a round completes a PUBLISH that `auth_acl` denies. -/
def roundDenied (cfg : Config) (c : ClientId) (b : State) (byte : Byte) : Bool :=
  match b.clients c with
  | none => false
  | some p =>
      match parsing cfg b p byte with
      | .call s .publish =>
          match s.publish.mp with
          | some draft => !allowed cfg b.answers.db { p with session := s } .pub draft.message.topic
          | none => false
      | _ => false

theorem drafts_some (present : b.clients c = some p) :
    drafts b c = p.session.state.drafting.toNat := by
  simp [drafts, present]

theorem drafts_none (gone : b.clients c = none) : drafts b c = 0 := by
  simp [drafts, gone]

/-! ### What leaves the counts alone -/

/-- Only the PUBLISH of a client publishes for it. -/
theorem Change.published (change : Change cfg closes task c b b')
    (working : ∀ mp, task ≠ .publish d mp) :
    Broker.published b' d = Broker.published b d := by
  cases change with
  | @emit event emits =>
      have different : event ≠ .published d := by
        intro same
        subst same
        obtain ⟨mp, p, publishing, -⟩ := emits
        exact working mp publishing
      simp [Broker.published, State.emit, List.count_append, different]
  | @close p may present nodes subs unlinked told tells =>
      have other : Event.published d ∉ told ++ [.closed c] := by
        intro member
        rcases tells.mem member with same | same <;> simp at same
      simp only [Broker.published, List.count_append, List.count_eq_zero_of_not_mem other, Nat.add_zero]
  | _ => rfl

theorem Evolves.published (chain : Evolves cfg closes task c b b')
    (working : ∀ mp, task ≠ .publish d mp) :
    Broker.published b' d = Broker.published b d := by
  induction chain with
  | refl => rfl
  | tail _ change inductionHypothesis => exact (change.published working).trans inductionHypothesis

/-- Without closing, every session holds its message. -/
theorem Change.drafts (change : Change cfg false task c b b')
    (d : ClientId) : Broker.drafts b' d = Broker.drafts b d := by
  cases found : b'.clients d with
  | some p' =>
      obtain ⟨p, present, updates⟩ := change.client_before found
      rw [drafts_some found, drafts_some present, updates.session]
  | none =>
      have absent : b.clients d = none := by
        by_contra there
        have stays := change.present (Option.isSome_iff_ne_none.mpr there)
        simp [found] at stays
      rw [drafts_none found, drafts_none absent]

private theorem taskOf_ne_publish {s : Session} {request : Request} (other : request ≠ .publish) (d : ClientId)
    (mp : Message) : taskOf c s request ≠ .publish d mp := by
  cases request <;> simp_all [taskOf]

private theorem taskOf_ne_publish_other {s : Session} {request : Request} (other : d ≠ c)
    (mp : Message) : taskOf c s request ≠ .publish d mp := by
  cases request with
  | publish => cases drafted : s.publish.mp <;> simp [taskOf, drafted, other.symm]
  | _ => simp [taskOf]

/-! ### Rounds -/

/-- A completed PUBLISH that is allowed hands its message to the workers. -/
theorem balance_publish {s : Session} (sound : Sound b) (present : b.clients c = some p)
    (good : b.answers.Good) (granted : roundDenied cfg c b byte = false)
    (parses : parsing cfg b p byte = .call s .publish) :
    ∃ d, (parserRound cfg c byte).run b = (.ok none, d) ∧ drafts d c = 0 ∧
      published d c = published b c + 1 := by
  have accounts : (parsing cfg b p byte).Accounts p.session := parserByte_accounts
  have ok : (parsing cfg b p byte).Ensures Session.Ok fun last _ => last.Ok :=
    parserByte_ok (sound.sessions c p present)
  rw [parses] at accounts ok
  obtain ⟨draft, drafted⟩ := Option.isSome_iff_exists.mp (accounts.2 rfl)
  have allow : allowed cfg b.answers.db { p with session := s } .pub draft.message.topic = true := by
    simpa [roundDenied, present, parses, drafted] using granted
  obtain ⟨d, returns, there, -, -, counted⟩ := onRecvPublish_queues cfg (parsed_self s) drafted allow
    (ok.draft draft drafted).1 (sound.regular.states c p present) good
  obtain ⟨q, found⟩ := Option.isSome_iff_exists.mp there
  have headed : (setHeader c).run d = (.ok (), d.putClient c { q with session.state := .header }) :=
    updateClient_run found _
  refine ⟨d.putClient c { q with session.state := .header }, ?_, ?_, ?_⟩
  · have called : (callback cfg c .publish).run (b.parsed c p s) = (.ok 0, d) := returns
    rw [parserRound_run present, parses]
    dsimp only
    rw [Cmd.bind_ok called, callbackReturned, Cmd.bind_ok headed, Cmd.run_pure]
  · simp [drafts, State.putClient, PState.drafting]
  · exact counted

private theorem creates_drafting {s s' : Session} (new : creates s s' = true) : s.state.drafting = false := by
  have here : s.state = .publish .topic2 := by
    simp only [creates, Bool.and_eq_true, decide_eq_true_eq] at new
    exact new.1
  rw [here]
  rfl

/-- What a round comes to: the message it creates is in the session behind it, and
one that was there has been published. A round that ends the session finds none. -/
theorem balance_round (sound : Sound b) (there : (b.clients c).isSome)
    (good : b.answers.Good) (granted : roundDenied cfg c b byte = false) :
    RoundEnds
      (fun d => published d c + drafts d c =
        published b c + drafts b c + (roundCreates cfg c b byte).toNat)
      (fun d => published d c = published b c + drafts b c + (roundCreates cfg c b byte).toNat)
      (fun fault d => fault = .useAfterFree → d.clients c = none ∧
        published d c = published b c + drafts b c + (roundCreates cfg c b byte).toNat)
      ((parserRound cfg c byte).run b) := by
  obtain ⟨p, present⟩ := Option.isSome_iff_exists.mp there
  have accounts : (parsing cfg b p byte).Accounts p.session := parserByte_accounts
  have same : ∀ s, published (b.parsed c p s) c = published b c := fun _ => rfl
  rw [drafts_some present]
  by_cases publishing : ∃ s, parsing cfg b p byte = .call s .publish
  · obtain ⟨s, parses⟩ := publishing
    obtain ⟨d, runs, empty, counted⟩ := balance_publish sound present good granted parses
    rw [parses] at accounts
    have drafting : p.session.state.drafting = true := accounts.1.mp rfl
    rw [runs]
    simp [RoundEnds, empty, counted, drafting, roundCreates, present, parses]
  · have round := sound.round present cfg byte
    -- a packet other than a PUBLISH leaves the counts as they are
    have kept : ∀ {s request d}, parsing cfg b p byte = .call s request →
        Evolves cfg true (taskOf c s request) c (b.parsed c p s) d →
        published d c = published b c + p.session.state.drafting.toNat +
          (roundCreates cfg c b byte).toNat := by
      intro s request d parses chain
      have other : request ≠ .publish := fun isPublish => publishing ⟨s, isPublish ▸ parses⟩
      rw [parses] at accounts
      have idle : p.session.state.drafting = false := by
        by_contra drafting
        exact other (accounts.1.mpr (by simpa using drafting))
      rw [chain.published (taskOf_ne_publish other c), same]
      simp [idle, roundCreates, present, parses]
    generalize (parserRound cfg c byte).run b = outcome at round
    cases round with
    | @next s parses =>
        rw [parses] at accounts
        have moves : s.state.drafting.toNat =
            p.session.state.drafting.toNat + (creates p.session s).toNat := by
          rw [show s.state.drafting = _ from accounts]
          cases new : creates p.session s with
          | false => simp
          | true => simp [creates_drafting new]
        show published (b.parsed c p s) c + drafts (b.parsed c p s) c = _
        rw [same, drafts_some (parsed_self s), moves, Nat.add_assoc]
        simp [roundCreates, present, parses]
    | @refused s rv parses fails =>
        rw [parses] at accounts
        have idle : p.session.state.drafting = false := accounts
        have logged : published ((b.parsed c p s).emit (.refused c s.header.msgType)) c =
            published b c := by
          simp [published, State.emit, List.count_append, State.parsed, State.putClient]
        exact ⟨fails, by simp [logged, idle, roundCreates, present, parses]⟩
    | @returned s request d p' parses chain decided found =>
        have headed : drafts (d.putClient c { p' with session.state := .header }) c = 0 := by
          simp [drafts, State.putClient, PState.drafting]
        show published d c + _ = _
        rw [headed, Nat.add_zero]
        exact kept parses chain
    | failed may parses chain => exact ⟨by decide, kept parses chain⟩
    | @broken s request fault d parses chain fails =>
        intro freed
        refine ⟨?_, kept parses chain⟩
        rcases fails with ⟨_, gone⟩ | ⟨other, _⟩
        · exact gone freed
        · exact absurd freed other
    | @left s fault d may parses chain fails =>
        rw [parses] at accounts
        have idle : p.session.state.drafting = false := accounts
        intro freed
        refine ⟨?_, ?_⟩
        · rcases fails with ⟨_, gone⟩ | ⟨other, _⟩
          · exact gone freed
          · exact absurd freed other
        · rw [chain.published (by simp), same]
          simp [idle, roundCreates, present, parses]
    | stopped other => exact fun freed => absurd freed other.1

private theorem good_round (sound : Sound b) (there : (b.clients c).isSome) (good : b.answers.Good) :
    RoundEnds (fun d => d.answers.Good) (fun _ => True) (fun _ _ => True)
      ((parserRound cfg c byte).run b) := by
  obtain ⟨p, present⟩ := Option.isSome_iff_exists.mp there
  have round := sound.round present cfg byte
  generalize (parserRound cfg c byte).run b = outcome at round
  cases round with
  | next parses => exact good
  | refused parses fails => exact ⟨fails, trivial⟩
  | returned parses chain decided found =>
      exact good.subset chain.writes
  | failed may parses chain => exact ⟨by decide, trivial⟩
  | broken parses chain fails => trivial
  | left may parses chain fails => trivial
  | stopped other => trivial

/-- A client as others see it: its record and what it has published. -/
def Same (d : ClientId) (b b' : State) : Prop :=
  b'.clients d = b.clients d ∧ published b' d = published b d

theorem Same.trans {b' b'' : State} (left : Same d b b') (right : Same d b' b'') :
    Same d b b'' :=
  ⟨right.1.trans left.1, right.2.trans left.2⟩

theorem Evolves.same (chain : Evolves cfg closes task c b b')
    (other : d ≠ c) (working : ∀ mp, task ≠ .publish d mp) : Same d b b' :=
  ⟨chain.other other, chain.published working⟩

/-- A round leaves the other clients alone. -/
theorem same_round (other : d ≠ c) (sound : Sound b) (there : (b.clients c).isSome) :
    RoundEnds (Same d b) (Same d b) (fun _ => Same d b) ((parserRound cfg c byte).run b) := by
  obtain ⟨p, present⟩ := Option.isSome_iff_exists.mp there
  have round := sound.round present cfg byte
  have put : ∀ e q, Same d e (e.putClient c q) := fun e q => ⟨by simp [State.putClient, other], rfl⟩
  have parsed : ∀ s, Same d b (b.parsed c p s) := fun s => ⟨by simp [State.parsed, State.putClient, other], rfl⟩
  have called : ∀ {s request e}, Evolves cfg true (taskOf c s request) c (b.parsed c p s) e → Same d b e :=
    fun chain => (parsed _).trans (chain.same other (taskOf_ne_publish_other other))
  generalize (parserRound cfg c byte).run b = outcome at round
  cases round with
  | next parses => exact parsed _
  | @refused s rv parses fails =>
      refine ⟨fails, (parsed s).1, ?_⟩
      simp [published, State.emit, List.count_append, State.parsed, State.putClient]
  | returned parses chain decided found => exact (called chain).trans (put _ _)
  | failed may parses chain => exact ⟨by decide, called chain⟩
  | broken parses chain fails => exact called chain
  | left may parses chain fails => exact (parsed _).trans (chain.same other (by simp))
  | stopped other => exact ⟨rfl, rfl⟩

/-! ### Calls -/

theorem same_cParse {buf : List Byte} (other : d ≠ c) (sound : Sound b)
    (there : (b.clients c).isSome) : Same d b ((cParse cfg c buf).run b).2 :=
  cParse_rule (Same d b) (Same d b) (fun _ => Same d b) (fun outcome => Same d b outcome.2)
    (fun _ _ sound there same _ => (same_round other sound there).mono (fun _ => same.trans)
      (fun _ => same.trans) fun _ _ => same.trans)
    (fun _ _ _ same => same)
    (fun e _ same => same.trans ((cDisconnect_evolves _ e).same other (by simp)))
    (fun _ _ _ same => same) sound there ⟨rfl, rfl⟩
    (along_of_forall (fun _ _ => (trivial : True)) buf b)

/-- The balance of a call of `mqtt_parser_execute`. -/
theorem balance_execute {buf : List Byte} (sound : Sound b) (there : (b.clients c).isSome)
    (good : b.answers.Good) (granted : Along cfg c (fun b byte => roundDenied cfg c b byte = false) buf b) :
    match (mqttParserExecute cfg c buf).run b with
    | (.ok rv, d) =>
        rv = 0 ∧ published d c + drafts d c = published b c + drafts b c + created cfg c buf b ∨
        rv ≠ 0 ∧ published d c = published b c + drafts b c + created cfg c buf b
    | (.error fault, d) => fault = .useAfterFree → d.clients c = none ∧
        published d c = published b c + drafts b c + created cfg c buf b := by
  induction buf generalizing b with
  | nil => exact .inl ⟨rfl, rfl⟩
  | cons byte buf inductionHypothesis =>
      obtain ⟨here, later⟩ := granted
      have balance := balance_round sound there good here
      have keeps : RoundEnds (fun d => Sound d ∧ (d.clients c).isSome) Sound (fun _ => Sound)
          ((parserRound cfg c byte).run b) := sound_round sound there byte
      have answers : RoundEnds (fun d => d.answers.Good) (fun _ => True) (fun _ _ => True)
          ((parserRound cfg c byte).run b) := good_round sound there good
      rw [mqttParserExecute, created, Cmd.run_bind]
      cases outcome : (parserRound cfg c byte).run b with
      | mk result d =>
          rw [outcome] at balance keeps answers later
          cases result with
          | error fault => exact balance
          | ok rv =>
              cases rv with
              | some rv => exact .inr balance
              | none =>
                  have counted : published d c + drafts d c = _ := balance
                  have rest := inductionHypothesis keeps.1 keeps.2 answers later
                  rw [counted] at rest
                  simpa only [Nat.add_assoc] using rest

private theorem sound_execute (sound : Sound b) (there : (b.clients c).isSome) (buf : List Byte) :
    Sound ((mqttParserExecute cfg c buf).run b).2 := by
  have round : ∀ d byte, Sound d → (d.clients c).isSome → True → True →
      RoundEnds (fun _ => True) (fun _ => True) (fun _ _ => True) ((parserRound cfg c byte).run d) :=
    fun d byte sound there _ _ => (sound_round sound there byte).mono (fun _ _ => trivial)
      (fun _ _ => trivial) fun _ _ _ => trivial
  exact (mqttParserExecute_rule (fun _ => True) (fun _ => True) (fun _ _ => True) round sound there
    trivial (along_of_forall (fun _ _ => trivial) buf b)).1

/-- A call of `c_disconnect` that does not end the process leaves no client. -/
theorem cDisconnect_gone (regular : Regular b) (reason : List Byte)
    (goesOn : (after (cDisconnect cfg c reason) b).ended = false) :
    ((cDisconnect cfg c reason).run b).2.clients c = none := by
  cases present : b.clients c with
  | none =>
      rw [cDisconnect, Cmd.bind_error (client_freed present)]
      exact present
  | some p =>
      have freed : Freed c ((cDisconnect cfg c reason).run b) := cDisconnect_freed present regular reason
      unfold after at goesOn
      generalize (cDisconnect cfg c reason).run b = outcome at freed goesOn
      cases freed with
      | closed gone => exact gone
      | crashed => simp at goesOn

/-- The balance of a call of `c_parse` that does not end the process. -/
theorem balance_cParse {buf : List Byte} (sound : Sound b) (there : (b.clients c).isSome)
    (good : b.answers.Good) (granted : Along cfg c (fun b byte => roundDenied cfg c b byte = false) buf b)
    (goesOn : (after (cParse cfg c buf) b).ended = false) :
    published ((cParse cfg c buf).run b).2 c + drafts ((cParse cfg c buf).run b).2 c =
      published b c + drafts b c + created cfg c buf b := by
  have balance := balance_execute sound there good granted
  have later : Sound ((mqttParserExecute cfg c buf).run b).2 := sound_execute sound there buf
  have stops : ∀ fault, ((cParse cfg c buf).run b).1 = .error fault → fault = .useAfterFree :=
    fun fault stopped => after_ended goesOn stopped
  unfold after at goesOn
  unfold cParse at goesOn stops ⊢
  rw [Cmd.run_bind] at goesOn stops ⊢
  cases outcome : (mqttParserExecute cfg c buf).run b with
  | mk result d =>
      rw [outcome] at balance later goesOn stops
      cases result with
      | error fault =>
          obtain ⟨gone, counted⟩ := balance (stops fault rfl)
          show published d c + drafts d c = _
          rw [drafts_none gone, counted]
          rfl
      | ok rv =>
          rcases balance with ⟨none, counted⟩ | ⟨error, counted⟩
          · subst none
            exact counted
          · simp only [onlyIf, ne_eq, error, not_false_eq_true, decide_true, if_true] at goesOn ⊢
            have gone := cDisconnect_gone later.regular (lit "mqtt parse error") goesOn
            rw [drafts_none gone, (cDisconnect_evolves _ d).published (by simp), counted]
            rfl

end FbBroker.Broker
