import FbBroker.Broker.Conduct
import FbBroker.Parser.Frame

/-!
Contract: the rounds of `mqtt_parser_execute` around their callbacks.

Owns the state each round of the loop starts its callback in, what the callback
may do there, and what is left of the client when the round ends.
-/

set_option autoImplicit false

namespace FbBroker.Broker

open FbBroker.Lib FbBroker.Packet FbBroker.Parser FbBroker.Auth

variable {cfg : Config} {closes : Bool} {c : ClientId} {b : State} {p : Client}

/-- What the parser makes of the next byte of a client. -/
def parsing (cfg : Config) (b : State) (p : Client) (byte : Byte) : Outcome :=
  parserByte cfg.allowAnonymous (b.answers.mallocs.headD true) p.session byte

/-- The state behind the session write of a round. -/
def State.parsed (b : State) (c : ClientId) (p : Client) (s : Session) : State :=
  ({ b with answers.mallocs := b.answers.mallocs.tail } : State).putClient c { p with session := s }

/-- A round, unfolded up to its callback. -/
theorem parserRound_run (present : b.clients c = some p) (byte : Byte) :
    (parserRound cfg c byte).run b =
      match parsing cfg b p byte with
      | .next s => (.ok none, b.parsed c p s)
      | .ret s rv => (.ok (some rv), (b.parsed c p s).emit (.refused c s.header.msgType))
      | .call s request => (callback cfg c request >>= callbackReturned c).run (b.parsed c p s)
      | .disconnect s => (disconnectReceived cfg c).run (b.parsed c p s)
      | .stop fault => (.error fault, { b with answers.mallocs := b.answers.mallocs.tail }) := by
  have asked : malloc.run b = (.ok (b.answers.mallocs.headD true),
      { b with answers.mallocs := b.answers.mallocs.tail }) := rfl
  have reads : (client c).run b = (.ok p, b) := client_run present
  have writes : ∀ s, (setSession c s).run { b with answers.mallocs := b.answers.mallocs.tail } =
      (.ok (), b.parsed c p s) := by
    intro s
    simp [setSession, updateClient, client, Cmd.run_bind, present, State.parsed]
  unfold parserRound parsing
  rw [Cmd.bind_ok reads, Cmd.bind_ok asked]
  cases parserByte cfg.allowAnonymous (b.answers.mallocs.headD true) p.session byte with
  | next s => simp [Cmd.bind_ok (writes s)]
  | ret s rv => simp [Cmd.bind_ok (writes s), emit]
  | call s request => simp [Cmd.bind_ok (writes s)]
  | disconnect s => simp [Cmd.bind_ok (writes s)]
  | stop fault => rfl

/-- What a callback works on. -/
def taskOf (c : ClientId) (s : Session) : Request → Task
  | .connect => .connect c
  | .subscribe => .subscribe c s.subscribe
  | .unsubscribe => .idle
  | .publish =>
      match s.publish.mp with
      | some draft => .publish c draft.message
      | none => .idle
  | .ping => .idle

theorem taskOf_ne_deliver (s : Session) (request : Request) (m : MsgId) :
    taskOf c s request ≠ .deliver m := by
  cases request with
  | publish => cases drafted : s.publish.mp <;> simp [taskOf, drafted]
  | _ => simp [taskOf]

/-- The task of the callback a round makes. -/
def roundTask (cfg : Config) (c : ClientId) (b : State) (byte : Byte) : Task :=
  match b.clients c with
  | none => .idle
  | some p =>
      match parsing cfg b p byte with
      | .call s request => taskOf c s request
      | _ => .idle

/-- Whether a callback turns the client away: a CONNECT that `auth_auth` fails, a
SUBSCRIBE with a filter that is not allowed. -/
def refuses (cfg : Config) (b : State) (p : Client) : Request → Bool
  | .connect => rejects cfg b p
  | .subscribe =>
      !(List.range p.session.subscribe.numFilters).all fun i =>
        allowed cfg b.answers.db p .sub (filterOf p.session.subscribe i)
  | _ => false

theorem holds_callback {request : Request} (present : b.clients c = some p)
    (before : (contract cfg closes (taskOf c p.session request) c).pre b)
    (inRange : closes = true ∨ p.session.Ok)
    (admitted : closes = true ∨ refuses cfg b p request = false) :
    (contract cfg closes (taskOf c p.session request) c).Holds (fun rv => closes = true ∨ rv = 0)
      (callback cfg c request) b := by
  have counted : closes = true ∨ p.session.subscribe.numFilters ≤ maxSubs :=
    inRange.imp_right fun ok => ok.filters.trans (by decide)
  cases request with
  | connect =>
      refine holds_onRecvConnect before (admitted.imp_right fun admits p' found => ?_)
      obtain rfl : p = p' := Option.some.inj (present.symm.trans found)
      exact admits
  | subscribe =>
      refine holds_onRecvSubscribe present before counted (admitted.imp_right fun admits => ?_)
      intro p' found i inside
      obtain rfl : p = p' := Option.some.inj (present.symm.trans found)
      have checked : (List.range p.session.subscribe.numFilters).all (fun i =>
          allowed cfg b.answers.db p .sub (filterOf p.session.subscribe i)) = true := by
        simpa [refuses] using admits
      exact List.all_eq_true.mp checked i (List.mem_range.mpr inside)
  | unsubscribe => exact holds_onRecvUnsubscribe nofun present before counted
  | publish =>
      cases drafted : p.session.publish.mp with
      | none =>
          refine holds_client before fun p' found => ?_
          obtain rfl : p = p' := Option.some.inj (present.symm.trans found)
          rw [drafted]
          exact .fail (.inr ⟨by decide, by decide⟩)
      | some draft =>
          simp only [taskOf, drafted] at before ⊢
          exact holds_onRecvPublish present drafted before
            (inRange.imp_right fun ok => (ok.draft draft drafted).1)
  | ping => exact onRecvPing_keeps b before

/-! ### Closing -/

/-- A system message changes no client and no keep-alive table, and fails only
where its payload does not fit. -/
theorem pubSys_outcome (about : Event) (worker topicLen : Nat) (topic payload : List Byte) (b : State) :
    ((pubSys cfg about worker topicLen topic payload).run b).2.clients = b.clients ∧
      ((pubSys cfg about worker topicLen topic payload).run b).2.ka = b.ka ∧
      ∀ fault, ((pubSys cfg about worker topicLen topic payload).run b).1 = .error fault →
        fault = .outOfBounds := by
  rw [pubSys_run]
  split
  · split
    · simp [State.announce, State.queueMessage, State.emit]
    · simp
  · simp

private theorem cPubDisconnected_outcome (present : b.clients c = some p) (reason : List Byte) :
    ((cPubDisconnected cfg c reason).run b).2.clients = b.clients ∧
      ((cPubDisconnected cfg c reason).run b).2.ka = b.ka ∧
      ∀ fault, ((cPubDisconnected cfg c reason).run b).1 = .error fault → fault = .outOfBounds := by
  obtain ⟨topicLen, topic, payload, runs⟩ :
      ∃ topicLen topic payload, (cPubDisconnected cfg c reason).run b = _ :=
    cPubDisconnected_run present reason
  rw [runs]
  exact pubSys_outcome _ _ _ _ _ b

/-- Closing a client that is there frees it, unless the process ends in the
course. -/
inductive Freed (c : ClientId) : Except Fault Unit × State → Prop
  | closed {b : State} (gone : b.clients c = none) : Freed c (.ok (), b)
  | crashed {b : State} : Freed c (.error .outOfBounds, b)

private theorem cUnbind_freed (present : b.clients c = some p) (regular : Regular b) (reason : List Byte) :
    Freed c ((cUnbind cfg c reason).run b) := by
  have reads : (client c).run b = (.ok p, b) := client_run present
  have body : ∀ {b' : State}, b'.clients c = some p → b'.ka = b.ka →
      Freed c ((release c).run b') := by
    intro b' found kept
    rw [release_run found (regular.states c p present), kept, regular.idle.kaRemove]
    exact .closed (by simp [State.freeClient])
  unfold cUnbind
  rw [Cmd.bind_ok reads]
  by_cases connected : p.state = .connected
  · have ⟨clients, ka, faults⟩ :
        _ ∧ _ ∧ ∀ fault, ((cPubDisconnected cfg c reason).run b).1 = .error fault → _ :=
      cPubDisconnected_outcome present reason
    simp only [onlyIf, connected, decide_true, if_true]
    rw [Cmd.run_bind]
    cases outcome : (cPubDisconnected cfg c reason).run b with
    | mk result next =>
        rw [outcome] at clients ka faults
        cases result with
        | ok value => exact body ((congrFun clients c).trans present) ka
        | error fault =>
            obtain rfl := faults fault rfl
            exact .crashed
  · simp only [onlyIf, connected, decide_false, Bool.false_eq_true, if_false, Cmd.run_pure_bind]
    exact body present rfl

theorem cDisconnect_freed (present : b.clients c = some p) (regular : Regular b)
    (reason : List Byte) : Freed c ((cDisconnect cfg c reason).run b) := by
  have reads : (client c).run b = (.ok p, b) := client_run present
  unfold cDisconnect
  rw [Cmd.bind_ok reads]
  simp only [onlyIf, ne_eq, regular.states c p present, not_false_eq_true, decide_true, if_true]
  exact cUnbind_freed present regular reason

private theorem disconnectReceived_run (present : b.clients c = some p) (regular : Regular b) :
    ∃ fault d, (disconnectReceived cfg c).run b = (.error fault, d) ∧
      Evolves cfg true .idle c b d ∧
      (fault = .useAfterFree ∧ d.clients c = none ∨ fault = .outOfBounds) := by
  have reads : (client c).run b = (.ok p, b) := client_run present
  have freed : Freed c ((cDisconnectNormal cfg c (lit "disconnect")).run b) := by
    unfold cDisconnectNormal
    rw [Cmd.bind_ok reads]
    exact cUnbind_freed present regular _
  have chain : Evolves cfg true .idle c b ((cDisconnectNormal cfg c (lit "disconnect")).run b).2 :=
    (cDisconnectNormal_keeps _ b (.inl rfl)).1
  unfold disconnectReceived
  rw [Cmd.run_bind]
  cases outcome : (cDisconnectNormal cfg c (lit "disconnect")).run b with
  | mk result d =>
      rw [outcome] at freed chain
      cases freed with
      | closed gone =>
          refine ⟨.useAfterFree, d, ?_, chain, .inl ⟨rfl, gone⟩⟩
          simp [setHeader, updateClient, client, Cmd.run_bind, gone]
      | crashed => exact ⟨.outOfBounds, d, rfl, chain, .inr rfl⟩

/-! ### Accepted connections -/

/-- The acceptance of a CONNECT is on record, without a rejection. -/
def Decided (c : ClientId) (b d : State) : Prop :=
  Event.accepted c ∈ d.log ∧ (Event.rejected c ∈ d.log → Event.rejected c ∈ b.log)

private theorem authenticate_decided (named : cfg.allowAnonymous = false) {d : State}
    (returns : (authenticate cfg c).run b = (.ok 0, d)) : Decided c b d := by
  cases present : b.clients c with
  | none => simp [authenticate, client, Cmd.run_bind, present] at returns
  | some p =>
      have reads : (client c).run b = (.ok p, b) := client_run present
      unfold authenticate at returns
      rw [Cmd.bind_ok reads] at returns
      simp only [named, Bool.false_and, Bool.false_eq_true, if_false, Cmd.run_get_bind] at returns
      cases decided : authAuth b.answers.db p.principal (b.authQ p.worker)
          (idString p.session.connect.password) with
      | error fault => simp [decided] at returns
      | ok result =>
          simp only [decided, authDecided, Cmd.run_modify_bind] at returns
          split at returns
          · simp [emit, updateClient, client, Cmd.run_bind, State.emit, present] at returns
          · have logged : b.log ++ [.accepted c] = d.log := by
              simpa [emit, updateClient, client, Cmd.run_bind, State.emit, State.putClient, present]
                using congrArg (fun outcome => outcome.2.log) returns
            unfold Decided
            rw [← logged]
            simp

/-- What is sent for a CONNECT decides nothing. -/
theorem Decided.evolves {task : Task} {d e : State} (decided : Decided c b d)
    (chain : Evolves cfg closes task c d e) (behind : task ≠ .connect c) : Decided c b e := by
  refine ⟨chain.log.subset decided.1, fun logged => decided.2 ?_⟩
  exact chain.event_before (fun _ => by simp [Emits, behind]) (by simp) logged

/-- A CONNECT behind which the client is still there was accepted. -/
theorem onRecvConnect_decided (named : cfg.allowAnonymous = false) (regular : Regular b) {d : State}
    {p' : Client} (returns : (onRecvConnect cfg c).run b = (.ok 0, d))
    (present : d.clients c = some p') : Decided c b d := by
  obtain ⟨ack, e, authenticates, returns⟩ := Cmd.ok_of_bind returns
  obtain ⟨rv, g, sent, returns⟩ := Cmd.ok_of_bind returns
  obtain ⟨packets, short⟩ := conack_packet .idle e c ack
  have chain : Evolves cfg true (.connect c) c b ((authenticate cfg c).run b).2 :=
    (holds_authenticate (.inl rfl) (.inl rfl)).1
  have sending : Evolves cfg true .idle c e ((cSendData cfg c (encodeConack 0 ack)).run e).2 :=
    (holds_cSendData (.inl rfl) packets (.inr short)).1
  rw [authenticates] at chain
  rw [sent] at sending
  cases rv with
  | succ rv => simp at returns
  | zero =>
      obtain ⟨_, last, closing, returns⟩ := Cmd.ok_of_bind returns
      obtain rfl : last = d := by simpa using returns
      have behind : Evolves cfg true (.welcome c) c g ((connackSent cfg c ack).run g).2 :=
        (connackSent_keeps (.inr rfl) (.inl rfl) g (.inl rfl)).1
      rw [closing] at behind
      by_cases accepted : ack = 0
      · subst ack
        exact ((authenticate_decided named authenticates).evolves sending (by simp)).evolves behind
          (by simp)
      · -- the client is freed behind the CONNACK, so it cannot be there
        obtain ⟨q, found, _⟩ := behind.session present
        have freed : Freed c ((connackSent cfg c ack).run g) := by
          simp only [connackSent, accepted, if_false]
          exact cDisconnect_freed found (sending.regular (chain.regular regular)) _
        rw [closing] at freed
        cases freed with
        | closed gone => simp [gone] at present

/-! ### Rounds -/

/-- Whether a round closes the client by itself: on a DISCONNECT, or where the
callback turns the client away. -/
def roundCloses (cfg : Config) (c : ClientId) (b : State) (byte : Byte) : Bool :=
  match b.clients c with
  | none => false
  | some p =>
      match parsing cfg b p byte with
      | .call s request => refuses cfg (b.parsed c p s) { p with session := s } request
      | .disconnect _ => true
      | _ => false

/-- What a round comes to: the bytes have been parsed, a callback has run, or the
client is gone. -/
inductive Round (cfg : Config) (closes : Bool) (c : ClientId) (b : State) (p : Client) (byte : Byte) :
    Except Fault (Option Int) × State → Prop
  | next {s : Session}
      (parses : parsing cfg b p byte = .next s) :
      Round cfg closes c b p byte (.ok none, b.parsed c p s)
  | refused {s : Session} {rv : Int} (parses : parsing cfg b p byte = .ret s rv) (fails : rv ≠ 0) :
      Round cfg closes c b p byte
        (.ok (some rv), (b.parsed c p s).emit (.refused c s.header.msgType))
  | returned {s : Session} {request : Request} {d : State} {p' : Client}
      (parses : parsing cfg b p byte = .call s request)
      (chain : Evolves cfg closes (taskOf c s request) c (b.parsed c p s) d)
      (decided : request = .connect → cfg.allowAnonymous = false → Decided c (b.parsed c p s) d)
      (present : d.clients c = some p') :
      Round cfg closes c b p byte (.ok none, d.putClient c { p' with session.state := .header })
  | failed {s : Session} {request : Request} {d : State} (may : closes = true)
      (parses : parsing cfg b p byte = .call s request)
      (chain : Evolves cfg closes (taskOf c s request) c (b.parsed c p s) d) :
      Round cfg closes c b p byte (.ok (some 1), d)
  | broken {s : Session} {request : Request} {fault : Fault} {d : State}
      (parses : parsing cfg b p byte = .call s request)
      (chain : Evolves cfg closes (taskOf c s request) c (b.parsed c p s) d)
      (fails : (contract cfg closes .idle c).fault fault d) : Round cfg closes c b p byte (.error fault, d)
  | left {s : Session} {fault : Fault} {d : State} (may : closes = true)
      (parses : parsing cfg b p byte = .disconnect s)
      (chain : Evolves cfg closes .idle c (b.parsed c p s) d)
      (fails : (contract cfg closes .idle c).fault fault d) : Round cfg closes c b p byte (.error fault, d)
  | stopped {fault : Fault} (other : fault ≠ .useAfterFree ∧ fault ≠ .assertion) :
      Round cfg closes c b p byte (.error fault, { b with answers.mallocs := b.answers.mallocs.tail })

theorem parsed_regular (present : b.clients c = some p) (regular : Regular b) (s : Session) :
    Regular (b.parsed c p s) where
  states := by
    intro d q found
    by_cases same : d = c
    · subst d
      obtain rfl : { p with session := s } = q := by simpa [State.parsed, State.putClient] using found
      exact regular.states c p present
    · exact regular.states d q (by simpa [State.parsed, State.putClient, same] using found)
  idle := regular.idle

@[simp] theorem parsed_self (s : Session) : (b.parsed c p s).clients c = some { p with session := s } := by
  simp [State.parsed, State.putClient]

/-- Behind a callback that kept its contract. -/
theorem callbackReturned_round {byte : Byte} {s : Session} {request : Request}
    (parses : parsing cfg b p byte = .call s request)
    (regular : Regular (b.parsed c p s))
    (before : (contract cfg closes (taskOf c s request) c).pre (b.parsed c p s))
    (holds : (contract cfg closes (taskOf c s request) c).Holds (fun rv => closes = true ∨ rv = 0)
      (callback cfg c request) (b.parsed c p s)) :
    Round cfg closes c b p byte
      ((callback cfg c request >>= callbackReturned c).run (b.parsed c p s)) := by
  obtain ⟨chain, ends⟩ := holds
  rw [Cmd.run_bind]
  cases outcome : (callback cfg c request).run (b.parsed c p s) with
  | mk result d =>
      rw [outcome] at chain ends
      cases result with
      | error fault => exact .broken parses chain ends
      | ok rv =>
          cases rv with
          | succ rv => exact .failed (by simpa [Contract.Ends] using ends) parses chain
          | zero =>
              cases present : d.clients c with
              | some p' =>
                  have written : (callbackReturned c 0).run d =
                      (.ok none, d.putClient c { p' with session.state := .header }) := by
                    simp [callbackReturned, setHeader, updateClient, client, Cmd.run_bind, present]
                  simp only [written]
                  refine .returned parses chain (fun connecting named => ?_) present
                  subst connecting
                  exact onRecvConnect_decided named regular outcome present
              | none =>
                  have stops : (callbackReturned c 0).run d = (.error .useAfterFree, d) := by
                    simp [callbackReturned, setHeader, updateClient, client, Cmd.run_bind, present]
                  simp only [stops]
                  refine .broken parses chain (.inl ⟨?_, fun _ => present⟩)
                  rcases (contract cfg closes (taskOf c s request) c).keeps before chain with may | ready
                  · exact may
                  · simpa [present] using ready.2

/-- Every round is one of these; as long as each write takes some bytes and the round does
not close by itself, nothing is closed. -/
theorem parserRound_round {byte : Byte} (present : b.clients c = some p) (regular : Regular b)
    (ok : p.session.Ok) (may : closes = true ∨ b.answers.Taken ∧ roundCloses cfg c b byte = false) :
    Round cfg closes c b p byte ((parserRound cfg c byte).run b) := by
  have ends : (parsing cfg b p byte).OnEnd Session.Ok := parserByte_onEnd_ok ok
  have calls : (parsing cfg b p byte).Ensures Session.Ok fun last _ => last.Ok := parserByte_ok ok
  rw [parserRound_run present]
  cases parses : parsing cfg b p byte with
  | next s => exact .next parses
  | ret s rv =>
      rw [parses] at ends
      exact .refused parses ends.1
  | stop fault =>
      rw [parses] at ends
      exact .stopped ends
  | disconnect s =>
      obtain ⟨fault, d, stops, chain, outcome⟩ : ∃ fault d, (disconnectReceived cfg c).run _ = _ ∧ _ ∧ _ :=
        disconnectReceived_run (parsed_self s) (parsed_regular present regular s)
      obtain rfl : closes = true := may.resolve_right fun calm => by
        simp [roundCloses, present, parses] at calm
      simp only [stops]
      refine .left rfl parses chain (.inl ⟨rfl, fun freed => ?_⟩)
      subst freed
      simpa using outcome
  | call s request =>
      rw [parses] at calls
      have before : (contract cfg closes (taskOf c s request) c).pre (b.parsed c p s) :=
        may.imp_right fun calm => ⟨⟨calm.1, parsed_regular present regular s⟩, by simp⟩
      refine callbackReturned_round parses (parsed_regular present regular s) before ?_
      refine holds_callback (parsed_self s) before (.inr calls) (may.imp_right fun calm => ?_)
      simpa [roundCloses, present, parses] using calm.2

end FbBroker.Broker
