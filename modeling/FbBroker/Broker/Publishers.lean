import FbBroker.Broker.Steps

/-!
Contract: the publishers of queued messages.

Owns the invariant that a message waiting in a `msg_q` has a publisher that is
still there, so that `w_deliver` may read `mp->client->worker`, and the steps that
keep it. `c_unbind` does not look at the queues, so the invariant rests on a
client being closed only when nothing of it is waiting.
-/

set_option autoImplicit false

namespace FbBroker.Broker

open FbBroker.Lib FbBroker.Packet FbBroker.Parser

variable {cfg : Config} {closes : Bool} {c : ClientId} {b : State}

/-- Every waiting message that a client published has its publisher. -/
def LivePublishers (cfg : Config) (b : State) : Prop :=
  ∀ w < cfg.numWorkers, ∀ m ∈ b.msgQ w, ∀ mp c, b.messages m = some mp → mp.owner = .client c →
    (b.clients c).isSome

/-- No message of the client is waiting. -/
def quiet (cfg : Config) (c : ClientId) (b : State) : Bool :=
  (List.range cfg.numWorkers).all fun w =>
    (b.msgQ w).all fun m => (b.messages m).all fun mp => mp.owner ≠ .client c

theorem quiet_iff : quiet cfg c b = true ↔
    ∀ w < cfg.numWorkers, ∀ m ∈ b.msgQ w, ∀ mp, b.messages m = some mp → mp.owner ≠ .client c := by
  simp only [quiet, List.all_eq_true, List.mem_range]
  refine forall₂_congr fun w _ => forall₂_congr fun m _ => ?_
  cases b.messages m <;> simp

/-! ### Edits -/

private theorem mem_queueMessage {owner : Owner} {mp : Message} {w : Nat} {m : MsgId} {rec : MsgRec}
    (waiting : m ∈ (b.queueMessage cfg owner mp).msgQ w)
    (found : (b.queueMessage cfg owner mp).messages m = some rec) :
    rec.owner = owner ∨ m ∈ b.msgQ w ∧ b.messages m = some rec := by
  by_cases new : m = b.nextMsg
  · subst m
    left
    have same : b.freshMessage cfg owner mp = rec := by
      simpa [State.queueMessage] using found
    exact same ▸ rfl
  · right
    refine ⟨?_, by simpa [State.queueMessage, new] using found⟩
    simp only [State.queueMessage] at waiting
    split at waiting
    · simpa [new] using waiting
    · exact waiting

/-- Edits keep the publishers, unless they close a client of whom something waits. -/
theorem LivePublishers.change {task : Task} {b' : State}
    (gentle : closes = false ∨ quiet cfg c b = true) (change : Change cfg closes task c b b')
    (live : LivePublishers cfg b) : LivePublishers cfg b' := by
  intro w worker m waiting rec d found owner
  cases change with
  | client present updates =>
      have there := live w worker m waiting rec d found owner
      by_cases same : d = c
      · simp [State.putClient, same]
      · simpa [State.putClient, same] using there
  | queue queues =>
      rcases mem_queueMessage waiting found with same | ⟨before, old⟩
      · rw [owner] at same
        subst same
        exact queues.2
      · exact live w worker m before rec d old owner
  | retire serves fewer kept =>
      obtain ⟨old, before, sameOwner, -⟩ := kept m rec found
      exact live w worker m (fewer w m waiting) old d before (sameOwner.trans owner)
  | close may present nodes subs =>
      have silence := quiet_iff.mp (gentle.resolve_left (by simp [may]))
      have other : d ≠ c := by
        intro mine
        exact silence w worker m waiting rec found (mine ▸ owner)
      simpa [other] using live w worker m waiting rec d found owner
  | _ => exact live w worker m waiting rec d found owner

/-- Only a PUBLISH of the client makes something of it wait. -/
theorem quiet_change {task : Task} {b' : State} (working : ∀ d mp, task ≠ .publish d mp)
    (change : Change cfg closes task c b b') (silence : quiet cfg c b = true) :
    quiet cfg c b' = true := by
  rw [quiet_iff] at silence ⊢
  intro w worker m waiting rec found owner
  cases change with
  | queue queues =>
      rcases mem_queueMessage waiting found with same | ⟨before, old⟩
      · rw [owner] at same
        subst same
        exact working c _ queues.1
      · exact silence w worker m before rec old owner
  | retire serves fewer kept =>
      obtain ⟨old, before, sameOwner, -⟩ := kept m rec found
      exact silence w worker m (fewer w m waiting) old before (sameOwner.trans owner)
  | _ => exact silence w worker m waiting rec found owner

/-! ### Careful closing -/

/-- What the invariants read: the queues, the messages, and which clients are
there with which worker. -/
structure SameQueues (b b' : State) : Prop where
  msgQ : b'.msgQ = b.msgQ
  gcQ : b'.gcQ = b.gcQ
  messages : b'.messages = b.messages
  nextMsg : b'.nextMsg = b.nextMsg
  workers : ∀ d, (b'.clients d).map Client.worker = (b.clients d).map Client.worker

theorem SameQueues.present {b' : State} (same : SameQueues b b') (d : ClientId) :
    (b'.clients d).isSome = (b.clients d).isSome := by
  simpa using congrArg Option.isSome (same.workers d)

theorem SameQueues.quiet {b' : State} (same : SameQueues b b') :
    quiet cfg c b' = Broker.quiet cfg c b := by
  unfold Broker.quiet
  rw [same.msgQ, same.messages]

/-- The invariant reads no more than the queues, and code other than that of the
queues keeps it as long as no client is closed of whom something waits. -/
structure Careful (cfg : Config) (Inv : State → Prop) : Prop where
  congr : ∀ {b b'}, SameQueues b b' → Inv b → Inv b'
  change : ∀ {closes task c b b'}, (∀ m, task ≠ .deliver m) →
    closes = false ∨ quiet cfg c b = true → Change cfg closes task c b b' → Inv b → Inv b'

theorem LivePublishers.careful : Careful cfg (LivePublishers cfg) where
  congr same live w worker m waiting mp d found owner := by
    rw [same.present]
    rw [same.msgQ] at waiting
    rw [same.messages] at found
    exact live w worker m waiting mp d found owner
  change _ gentle change live := live.change gentle change

namespace Careful

variable {Inv : State → Prop} {task : Task} {b' : State}

theorem evolves (careful : Careful cfg Inv) (working : ∀ m, task ≠ .deliver m)
    (chain : Evolves cfg false task c b b') (invariant : Inv b) : Inv b' :=
  chain.invariant (careful.change working (.inl rfl)) invariant

/-- While nothing of the client waits, also its close keeps the invariant. -/
theorem shuts (careful : Careful cfg Inv) (working : ∀ m, task ≠ .deliver m)
    (other : ∀ d mp, task ≠ .publish d mp) (chain : Evolves cfg closes task c b b')
    (invariant : Inv b) (silence : quiet cfg c b = true) : Inv b' ∧ quiet cfg c b' = true := by
  have preserved : ∀ {d d'}, Change cfg closes task c d d' → Inv d ∧ quiet cfg c d = true →
      Inv d' ∧ quiet cfg c d' = true := fun change held =>
    ⟨careful.change working (.inr held.2) change held.1, quiet_change other change held.2⟩
  exact chain.invariant preserved ⟨invariant, silence⟩

end Careful

/-! ### Rounds -/

theorem sameQueues_putClient {p p' : Client} (present : b.clients c = some p)
    (worker : p'.worker = p.worker) : SameQueues b (b.putClient c p') := by
  refine ⟨rfl, rfl, rfl, rfl, fun d => ?_⟩
  by_cases same : d = c
  · simp [State.putClient, same, present, worker]
  · simp [State.putClient, same]

private theorem sameQueues_parsed {p : Client} (present : b.clients c = some p) (s : Session) :
    SameQueues b (b.parsed c p s) :=
  have put : SameQueues b (b.putClient c { p with session := s }) := sameQueues_putClient present rfl
  ⟨put.msgQ, put.gcQ, put.messages, put.nextMsg, put.workers⟩

private theorem sameQueues_refused {p : Client} (present : b.clients c = some p) (s : Session) (event : Event) :
    SameQueues b ((b.parsed c p s).emit event) :=
  have same := sameQueues_parsed present s
  ⟨same.msgQ, same.gcQ, same.messages, same.nextMsg, same.workers⟩

/-- Whether a round ends the client's session: it closes the client, or the bytes
are not a packet the parser takes. -/
def roundEnds (cfg : Config) (c : ClientId) (b : State) (byte : Byte) : Bool :=
  roundCloses cfg c b byte ||
    match b.clients c with
    | none => false
    | some p =>
        match parsing cfg b p byte with
        | .ret _ _ => true
        | _ => false

private theorem roundEnds_of_refused {p : Client} {byte : Byte} {s : Session} {rv : Int}
    (present : b.clients c = some p) (parses : parsing cfg b p byte = .ret s rv) :
    roundEnds cfg c b byte = true := by
  simp [roundEnds, present, parses]

/-- A callback that turns the client away is not the one of a PUBLISH. -/
theorem refuses_task {p : Client} {s : Session} {request : Request}
    (refused : refuses cfg b p request = true) (d : ClientId) (mp : Message) :
    taskOf c s request ≠ .publish d mp := by
  cases request <;> simp_all [refuses, taskOf]

/-- A round that ends the session of its client only while nothing of it waits
keeps the invariant. -/
theorem Careful.round {Inv : State → Prop} {byte : Byte} (careful : Careful cfg Inv) (sound : Sound b)
    (there : (b.clients c).isSome) (taken : b.answers.Taken) (invariant : Inv b)
    (gentle : roundEnds cfg c b byte = true → quiet cfg c b = true) :
    RoundEnds (fun d => d.answers.Taken ∧ Inv d) (fun d => Inv d ∧ quiet cfg c d = true)
      (fun _ => Inv) ((parserRound cfg c byte).run b) := by
  obtain ⟨p, present⟩ := Option.isSome_iff_exists.mp there
  have ok := sound.sessions c p present
  have parsed : ∀ s, Inv (b.parsed c p s) := fun s => careful.congr (sameQueues_parsed present s) invariant
  cases ending : roundCloses cfg c b byte with
  | false =>
      have round : Round cfg false c b p byte ((parserRound cfg c byte).run b) :=
        parserRound_round present sound.regular ok (.inr ⟨taken, ending⟩)
      generalize (parserRound cfg c byte).run b = outcome at round
      cases round with
      | next parses => exact ⟨taken, parsed _⟩
      | @refused s rv parses fails =>
          have same := sameQueues_refused present s (.refused c s.header.msgType)
          refine ⟨fails, careful.congr same invariant, ?_⟩
          rw [same.quiet]
          exact gentle (roundEnds_of_refused present parses)
      | returned parses chain decided found =>
          have later := careful.evolves (taskOf_ne_deliver _ _) chain (parsed _)
          refine ⟨?_, careful.congr (sameQueues_putClient found rfl) later⟩
          exact taken.subset chain.writes
      | failed may => simp at may
      | broken parses chain fails => exact careful.evolves (taskOf_ne_deliver _ _) chain (parsed _)
      | left may => simp at may
      | stopped other => exact careful.congr (b := b) ⟨rfl, rfl, rfl, rfl, fun _ => rfl⟩ invariant
  | true =>
      have silence : quiet cfg c b = true := gentle (by simp [roundEnds, ending])
      have round := sound.round present cfg byte
      have parsedQuiet : ∀ s, quiet cfg c (b.parsed c p s) = true := by
        intro s
        rw [(sameQueues_parsed present s).quiet]
        exact silence
      -- the callback is not that of a PUBLISH, so what it queues is the broker's own
      have called : ∀ {s request d}, parsing cfg b p byte = .call s request →
          Evolves cfg true (taskOf c s request) c (b.parsed c p s) d → Inv d ∧ quiet cfg c d = true := by
        intro s request d parses chain
        have refused : refuses cfg (b.parsed c p s) { p with session := s } request = true := by
          simpa [roundCloses, present, parses] using ending
        exact careful.shuts (taskOf_ne_deliver _ _) (refuses_task refused) chain (parsed s)
          (parsedQuiet s)
      generalize (parserRound cfg c byte).run b = outcome at round
      cases round with
      | next parses => exact ⟨taken, parsed _⟩
      | @refused s rv parses fails =>
          have same := sameQueues_refused present s (.refused c s.header.msgType)
          exact ⟨fails, careful.congr same invariant, same.quiet.trans silence⟩
      | returned parses chain decided found =>
          refine ⟨?_, careful.congr (sameQueues_putClient found rfl) (called parses chain).1⟩
          exact taken.subset chain.writes
      | failed may parses chain => exact ⟨by decide, called parses chain⟩
      | broken parses chain fails => exact (called parses chain).1
      | left may parses chain fails =>
          exact (careful.shuts (by simp) (by simp) chain (parsed _) (parsedQuiet _)).1
      | stopped other => exact careful.congr (b := b) ⟨rfl, rfl, rfl, rfl, fun _ => rfl⟩ invariant

/-! ### Runs -/

/-- Every write takes some bytes, and a client's session ends only while none of its
messages waits. -/
def Gentle (cfg : Config) (run : Run) : Action → Prop
  | .accept _ _ _ _ => True
  | .parse c buf answers =>
      answers.Taken ∧ Along cfg c (fun b byte => roundEnds cfg c b byte = true → quiet cfg c b = true)
        buf { run.state with answers }
  | .drop c _ _ => quiet cfg c run.state = true
  | .deliver _ answers => answers.Taken
  | .gc _ => True

instance decidableGentle (run : Run) : ∀ action, Decidable (Gentle cfg run action)
  | .accept _ _ _ _ => isTrue trivial
  | .parse c buf answers =>
      haveI := decidableAlong cfg c
        (fun b byte => roundEnds cfg c b byte = true → quiet cfg c b = true) buf { run.state with answers }
      inferInstanceAs (Decidable (_ ∧ _))
  | .drop _ _ _ => inferInstanceAs (Decidable (_ = true))
  | .deliver _ answers => inferInstanceAs (Decidable answers.Taken)
  | .gc _ => isTrue trivial

theorem Careful.cDisconnect {Inv : State → Prop} (careful : Careful cfg Inv) (invariant : Inv b)
    (silence : quiet cfg c b = true) (reason : List Byte) :
    Inv ((cDisconnect cfg c reason).run b).2 :=
  (careful.shuts (by simp) (by simp) (cDisconnect_evolves reason b) invariant silence).1

theorem Careful.cParse {Inv : State → Prop} (careful : Careful cfg Inv) (sound : Sound b)
    (there : (b.clients c).isSome) (taken : b.answers.Taken) (invariant : Inv b) {buf : List Byte}
    (along : Along cfg c (fun b byte => roundEnds cfg c b byte = true → quiet cfg c b = true) buf b) :
    Inv ((cParse cfg c buf).run b).2 :=
  cParse_rule (fun d => d.answers.Taken ∧ Inv d) (fun d => Inv d ∧ quiet cfg c d = true) (fun _ => Inv)
    (fun outcome => Inv outcome.2)
    (fun _ _ sound there invariant gentle =>
      careful.round sound there invariant.1 invariant.2 gentle)
    (fun _ _ _ invariant => invariant.2)
    (fun _ _ settled => careful.cDisconnect settled.1 settled.2 _)
    (fun _ _ _ invariant => invariant) sound there ⟨taken, invariant⟩ along

private theorem publishers_steps {run next : Run} {action : Action} (sound : Sound run.state)
    (live : LivePublishers cfg run.state) (gentle : Gentle cfg run action)
    (steps : Steps cfg run.state action next) : LivePublishers cfg next.state := by
  cases steps with
  | accept worker =>
      rw [after_state]
      intro w more m waiting mp d found owner
      have before := live w more m waiting mp d found owner
      simp only [workersAddClient, Cmd.run_modify, Function.update_apply]
      split
      · rfl
      · exact before
  | @parse c buf answers p present =>
      have live : LivePublishers cfg { run.state with answers } := live
      rw [after_state]
      exact LivePublishers.careful.cParse (sound.answers answers)
        (Option.isSome_iff_exists.mpr ⟨p, present⟩) gentle.1 live gentle.2
  | @drop c reason answers p present =>
      have live : LivePublishers cfg { run.state with answers } := live
      rw [after_state]
      exact LivePublishers.careful.cDisconnect live gentle _
  | deliver worker =>
      rw [after_state]
      have calm : Calm { run.state with answers := _ } := ⟨gentle, (sound.answers _).regular⟩
      exact (holds_wDeliverRound _ (.inr calm)).1.invariant (LivePublishers.change (.inl rfl)) live
  | gc worker =>
      rw [after_state]
      exact (wGcRound_evolves _ 0 _).invariant (LivePublishers.change (.inl rfl)) live

/-- A client connects and publishes `x` under the topic `a`. -/
def publishing : List Action :=
  [.accept 0 false false [],
    .parse 0 ([0x10, 13, 0, 4] ++ lit "MQTT" ++ [4, 2, 0, 60, 0, 1] ++ lit "c") silent,
    .parse 0 ([0x30, 4, 0, 1] ++ lit "ax") silent]

end FbBroker.Broker
