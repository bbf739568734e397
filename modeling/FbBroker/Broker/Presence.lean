import FbBroker.Broker.Steps

/-!
Contract: the presence events of a client.

Owns what the log says of a client's coming and going, the invariant that ties
it to the client's record, and the runs in which the two events of a client form
at most one pair. `on_recv_connect` does not ask whether the client is connected
already, and a system message for which there is no memory is left out, so these
are the runs in which no `malloc` fails and no connected client sends a CONNECT.
-/

set_option autoImplicit false

namespace FbBroker.Broker

open FbBroker.Lib FbBroker.Packet FbBroker.Parser

variable {cfg : Config} {closes : Bool} {c : ClientId} {b : State}

/-- The presence events of a client, in order. -/
def presence (c : ClientId) (log : List Event) : List Event :=
  log.filter fun event => event = .online c ∨ event = .offline c

/-- The events of a client form at most one pair, and a client that came online and
was freed went offline. -/
def Paired (c : ClientId) (log : List Event) : Prop :=
  presence c log <+: [.online c, .offline c] ∧
    (Event.closed c ∈ log → Event.online c ∈ log → Event.offline c ∈ log)

instance (log : List Event) : Decidable (Paired c log) :=
  inferInstanceAs (Decidable (_ ∧ _))

private theorem presence_append (c : ClientId) (log entries : List Event) :
    presence c (log ++ entries) = presence c log ++ presence c entries :=
  List.filter_append ..

/-- Entries about something else. -/
theorem presence_none {entries : List Event}
    (other : ∀ event ∈ entries, event ≠ .online c ∧ event ≠ .offline c) : presence c entries = [] := by
  refine List.filter_eq_nil_iff.mpr fun event member => ?_
  simpa using other event member

/-! ### The invariant -/

/-- The state of a client's record, if there is one. -/
def standing (b : State) (c : ClientId) : Option ClientState :=
  (b.clients c).map Client.state

/-- The events that befit a client: a connected one is online, a freed one has gone
if it ever came. -/
def Befits (c : ClientId) (told : List Event) : Option ClientState → Prop
  | some .connected => told = [.online c]
  | some _ => told = []
  | none => told = [] ∨ told = [.online c, .offline c]

/-- The log tells of every client what befits it, only freed clients are closed, and
there is memory for what is to be told. -/
structure Watched (b : State) : Prop where
  befits : ∀ d, Befits d (presence d b.log) (standing b d)
  closed : ∀ d, Event.closed d ∈ b.log → standing b d = none ∧ d < b.nextClient
  unborn : ∀ d, b.nextClient ≤ d → presence d b.log = []
  plenty : b.answers.Plenty

theorem Watched.paired (watched : Watched b) (c : ClientId) : Paired c b.log := by
  have befits := watched.befits c
  have onlineIff : Event.online c ∈ b.log ↔ Event.online c ∈ presence c b.log := by
    simp [presence]
  have offlineIff : Event.offline c ∈ b.log ↔ Event.offline c ∈ presence c b.log := by
    simp [presence]
  unfold Paired
  rw [onlineIff, offlineIff]
  cases stands : standing b c with
  | none =>
      rw [stands] at befits
      rcases befits with told | told <;> simp [told]
  | some state =>
      have unclosed : Event.closed c ∉ b.log := fun closed => by
        simpa [stands] using (watched.closed c closed).1
      rw [stands] at befits
      cases state with
      | connected => simp [unclosed, show presence c b.log = [.online c] from befits]
      | opened => simp [unclosed, show presence c b.log = [] from befits]
      | closing => simp [unclosed, show presence c b.log = [] from befits]

/-- A change that leaves every client's standing and events as they are. -/
structure Undisturbed (b d : State) : Prop where
  standing : ∀ e, standing d e = standing b e
  presence : ∀ e, presence e d.log = presence e b.log
  closed : ∀ e, Event.closed e ∈ d.log → Event.closed e ∈ b.log
  next : d.nextClient = b.nextClient
  plenty : b.answers.Plenty → d.answers.Plenty

theorem Undisturbed.watched {d : State} (undisturbed : Undisturbed b d) (watched : Watched b) :
    Watched d where
  befits e := by
    rw [undisturbed.standing, undisturbed.presence]
    exact watched.befits e
  closed e logged := by
    rw [undisturbed.standing, undisturbed.next]
    exact watched.closed e (undisturbed.closed e logged)
  unborn e later := by
    rw [undisturbed.presence]
    exact watched.unborn e (undisturbed.next ▸ later)
  plenty := undisturbed.plenty watched.plenty

private theorem standing_putClient {p p' : Client} (present : b.clients c = some p) (state : p'.state = p.state)
    (e : ClientId) : standing (b.putClient c p') e = standing b e := by
  by_cases same : e = c
  · subst same
    simp [standing, State.putClient, present, state]
  · simp [standing, State.putClient, same]

theorem Undisturbed.putClient {p p' : Client} (present : b.clients c = some p)
    (state : p'.state = p.state) : Undisturbed b (b.putClient c p') :=
  ⟨standing_putClient present state, fun _ => rfl, fun _ logged => logged, rfl, fun plenty => plenty⟩

theorem Undisturbed.emit {event : Event}
    (other : ∀ e, event ≠ .online e ∧ event ≠ .offline e ∧ event ≠ .closed e) :
    Undisturbed b (b.emit event) where
  standing _ := rfl
  presence e := by
    have untold : Broker.presence e [event] = [] := by
      refine presence_none fun entry member => ?_
      rw [List.mem_singleton.mp member]
      exact ⟨(other e).1, (other e).2.1⟩
    rw [State.emit, presence_append, untold, List.append_nil]
  closed e logged := by
    rcases List.mem_append.mp logged with old | new
    · exact old
    · exact absurd (List.mem_singleton.mp new).symm (other e).2.2
  next := rfl
  plenty plenty := plenty

theorem Undisturbed.trans {d e : State} (first : Undisturbed b d) (second : Undisturbed d e) :
    Undisturbed b e where
  standing f := (second.standing f).trans (first.standing f)
  presence f := (second.presence f).trans (first.presence f)
  closed f logged := first.closed f (second.closed f logged)
  next := second.next.trans first.next
  plenty plenty := second.plenty (first.plenty plenty)

/-! ### Edits -/

/-- What a close tells about its client. -/
theorem Tells.presence {p : Client} {told : List Event} (tells : Tells b c p told) :
    presence c (told ++ [.closed c]) = told := by
  rcases tells with ⟨spoken, -⟩ | ⟨unspoken, -⟩
  · simp [spoken, Broker.presence]
  · simp [unspoken, Broker.presence]

theorem Tells.presence_other {p : Client} {told : List Event} (tells : Tells b c p told) {d : ClientId}
    (other : d ≠ c) : Broker.presence d (told ++ [.closed c]) = [] := by
  refine presence_none fun event member => ?_
  rcases tells.mem member with same | same
  · simp [same, other.symm]
  · simp [same]

/-- Behind a close the client has gone, if it ever came. -/
theorem Watched.close {p : Client} {told : List Event} {d : State} (watched : Watched b) (sound : Sound b)
    (present : b.clients c = some p) (tells : Tells b c p told)
    (clients : d.clients = Function.update b.clients c none)
    (log : d.log = b.log ++ (told ++ [.closed c])) (next : d.nextClient = b.nextClient)
    (answers : d.answers = b.answers) : Watched d := by
  have gone : standing d c = none := by simp [standing, clients]
  have others : ∀ e, e ≠ c → standing d e = standing b e := by
    intro e other
    simp [standing, clients, other]
  have untold : ∀ e, e ≠ c → presence e d.log = presence e b.log := by
    intro e other
    rw [log, presence_append, tells.presence_other other, List.append_nil]
  have stands : standing b c = some p.state := by simp [standing, present]
  refine ⟨fun e => ?_, fun e logged => ?_, fun e later => ?_, answers ▸ watched.plenty⟩
  · by_cases same : e = c
    · subst same
      have befits := watched.befits e
      rw [gone, log, presence_append, tells.presence]
      rw [stands] at befits
      rcases tells with ⟨spoken, connected⟩ | ⟨unspoken, starved⟩
      · right
        rw [connected] at befits
        rw [spoken, show presence e b.log = [.online e] from befits]
        rfl
      · left
        have unconnected : p.state ≠ .connected := fun connected => starved connected watched.plenty
        rw [unspoken, List.append_nil]
        cases state : p.state with
        | connected => exact absurd state unconnected
        | opened =>
            rw [state] at befits
            exact befits
        | closing => exact absurd state (sound.regular.states e p present)
    · rw [others e same, untold e same]
      exact watched.befits e
  · rw [next]
    rw [log] at logged
    by_cases same : e = c
    · subst same
      exact ⟨gone, sound.known e p present⟩
    · rw [others e same]
      exact watched.closed e (tells.mem_log (by simp [same]) logged)
  · have other : e ≠ c := by
      intro same
      subst same
      exact absurd (sound.known e p present) (Nat.not_lt.mpr (next ▸ later))
    rw [untold e other]
    exact watched.unborn e (next ▸ later)

/-- The edits of a task other than a CONNECT keep the log in step with the clients. -/
theorem Watched.change {task : Task} {b' : State} (working : ∀ d, ¬ task.Connects d)
    (change : Change cfg closes task c b b') (before : Watched b ∧ Sound b) : Watched b' ∧ Sound b' := by
  obtain ⟨watched, sound⟩ := before
  refine ⟨?_, sound.change change⟩
  cases change with
  | ask writes mallocs db =>
      exact ⟨watched.befits, watched.closed, watched.unborn, fun answer member =>
        watched.plenty answer (mallocs member)⟩
  | @emit event emits =>
      refine (Undisturbed.emit fun e => ⟨?_, ?_, ?_⟩).watched watched
      · intro same
        subst same
        exact working e emits
      · intro same
        subst same
        exact emits sound.regular.idle
      · intro same
        subst same
        exact emits
  | client present updates =>
      refine (Undisturbed.putClient present ?_).watched watched
      exact updates.state.resolve_right fun connecting => working c connecting.1
  | close may present nodes subs unlinked tells =>
      exact watched.close sound present tells rfl rfl rfl rfl
  | _ => exact ⟨watched.befits, watched.closed, watched.unborn, watched.plenty⟩

theorem Watched.evolves {task : Task} {b' : State} (watched : Watched b) (sound : Sound b)
    (working : ∀ d, ¬ task.Connects d) (chain : Evolves cfg closes task c b b') :
    Watched b' ∧ Sound b' :=
  chain.invariant (Watched.change working) ⟨watched, sound⟩

private theorem idle_connects (d : ClientId) : ¬ Task.Connects .idle d := by
  simp [Task.Connects]

/-- A task other than a CONNECT connects nobody. -/
theorem Evolves.unconnected {task : Task} {b' : State} (chain : Evolves cfg closes task c b b')
    {d : ClientId} (working : ¬ task.Connects d) (fresh : standing b d ≠ some .connected) :
    standing b' d ≠ some .connected := by
  induction chain with
  | refl => exact fresh
  | tail _ change inductionHypothesis =>
      intro connected
      obtain ⟨p', found, state⟩ := Option.map_eq_some_iff.mp connected
      obtain ⟨p, present, updates⟩ := change.client_before found
      have kept := updates.state.resolve_right fun connecting => working connecting.1
      exact inductionHypothesis (Option.map_eq_some_iff.mpr ⟨p, present, kept.symm.trans state⟩)

/-! ### The CONNECT -/

/-- A call that stops in freed memory leaves the log in step; one that ends the
process has told nothing twice. -/
def Halted (fault : Fault) (b : State) : Prop :=
  (fault = .useAfterFree → Watched b) ∧ ∀ c, Paired c b.log

theorem Watched.halted (watched : Watched b) (fault : Fault) : Halted fault b :=
  ⟨fun _ => watched, watched.paired⟩

/-- The decision about a CONNECT connects nobody yet. -/
theorem authDecided_undisturbed (worker : Nat) (result : Auth.AuthResult) {p : Client}
    (present : b.clients c = some p) : Undisturbed b ((authDecided c worker result).run b).2 := by
  have queried : Undisturbed b { b with authQ := Function.update b.authQ worker result.q } :=
    ⟨fun _ => rfl, fun _ => rfl, fun _ logged => logged, rfl, fun plenty => plenty⟩
  have found : ∀ event, (({ b with authQ := Function.update b.authQ worker result.q } : State).emit
      event).clients c = some p := fun _ => present
  unfold authDecided
  rw [Cmd.run_modify_bind]
  split
  · rw [emit, Cmd.run_modify_bind, Cmd.bind_ok (updateClient_run (found _) _)]
    exact (queried.trans (.emit (by simp))).trans (.putClient (found _) rfl)
  · rw [emit, Cmd.run_modify_bind, Cmd.bind_ok (updateClient_run (found _) _)]
    exact (queried.trans (.emit (by simp))).trans (.putClient (found _) rfl)

theorem Undisturbed.refl (b : State) : Undisturbed b b :=
  ⟨fun _ => rfl, fun _ => rfl, fun _ logged => logged, rfl, fun plenty => plenty⟩

private theorem authenticate_undisturbed (b : State) : Undisturbed b ((authenticate cfg c).run b).2 := by
  cases present : b.clients c with
  | none =>
      rw [authenticate, Cmd.bind_error (client_freed present)]
      exact .refl b
  | some p =>
      rw [authenticate, Cmd.bind_ok (client_run present)]
      split
      · rw [Cmd.bind_ok (updateClient_run present _)]
        exact .putClient present rfl
      · rw [Cmd.run_get_bind]
        split
        · exact .refl b
        · exact authDecided_undisturbed _ _ present

/-- The client comes online. -/
theorem Watched.online {p p' : Client} {d : State} (watched : Watched b) (present : b.clients c = some p)
    (opened : p.state = .opened) (connected : p'.state = .connected)
    (clients : d.clients = Function.update b.clients c (some p')) (log : d.log = b.log ++ [.online c])
    (next : d.nextClient = b.nextClient) (known : c < b.nextClient) (plenty : d.answers.Plenty) :
    Watched d := by
  have others : ∀ e, e ≠ c → standing d e = standing b e := by
    intro e other
    simp [standing, clients, other]
  have untold : ∀ e, e ≠ c → presence e d.log = presence e b.log := by
    intro e other
    rw [log, presence_append]
    simp [presence, other.symm]
  have stood : standing b c = some .opened := by simp [standing, present, opened]
  have stands : standing d c = some .connected := by simp [standing, clients, connected]
  refine ⟨fun e => ?_, fun e logged => ?_, fun e later => ?_, plenty⟩
  · by_cases same : e = c
    · subst same
      have befits := watched.befits e
      rw [stood] at befits
      rw [stands, log, presence_append, show presence e b.log = [] from befits]
      simp [presence, Befits]
    · rw [others e same, untold e same]
      exact watched.befits e
  · have before : Event.closed e ∈ b.log := by simpa [log] using logged
    by_cases same : e = c
    · subst same
      simpa [stood] using (watched.closed e before).1
    · rw [others e same, next]
      exact watched.closed e before
  · have other : e ≠ c := by
      intro same
      subst same
      exact absurd known (Nat.not_lt.mpr (next ▸ later))
    rw [untold e other]
    exact watched.unborn e (next ▸ later)

theorem Answers.Plenty.headD {answers : Answers} (plenty : answers.Plenty) :
    answers.mallocs.headD true = true := by
  cases mallocs : answers.mallocs with
  | nil => rfl
  | cons answer rest => exact plenty answer (by simp [mallocs])

theorem Answers.Plenty.tail {answers : Answers} (plenty : answers.Plenty) :
    ({ answers with mallocs := answers.mallocs.tail } : Answers).Plenty :=
  fun answer member => plenty answer (List.mem_of_mem_tail member)

/-- An accepted client comes online, unless the process ends over the payload of the
message. -/
theorem accepted_leads {p : Client} (watched : Watched b) (sound : Sound b)
    (present : b.clients c = some p) (fresh : p.state ≠ .connected) :
    Cmd.Leads Halted (fun _ d => Watched d) ((connackSent cfg c 0).run b) := by
  have opened : p.state = .opened := by
    cases state : p.state with
    | opened => rfl
    | connected => exact absurd state fresh
    | closing => exact absurd state (sound.regular.states c p present)
  have found : (b.putClient c { p with state := .connected }).clients c =
      some { p with state := .connected } := by
    simp [State.putClient]
  have known := sound.known c p present
  simp only [connackSent, if_true]
  rw [Cmd.bind_ok (updateClient_run present _)]
  refine Cmd.Leads.bind (fun _ d => Watched d ∧ ∃ p', d.clients c = some p') ?_ ?_
  · rw [cPubConnected, Cmd.bind_ok (client_run found), Cmd.run_get_bind, pubSys_run]
    have allocated : (b.putClient c { p with state := .connected }).answers.mallocs.headD true = true :=
      watched.plenty.headD
    rw [if_pos allocated]
    split
    · refine ⟨?_, _, found⟩
      exact watched.online present opened rfl rfl rfl rfl known watched.plenty.tail
    · exact ⟨fun freed => absurd freed (by decide), watched.paired⟩
  · intro _ d settled
    obtain ⟨watched, p', found⟩ := settled
    rw [kaUpdate_run found]
    exact ⟨watched.befits, watched.closed, watched.unborn, watched.plenty⟩

private theorem connackSent_leads (watched : Watched b) (sound : Sound b)
    (fresh : standing b c ≠ some .connected) (ack : Byte) :
    Cmd.Leads Halted (fun _ d => Watched d) ((connackSent cfg c ack).run b) := by
  by_cases accepted : ack = 0
  · subst accepted
    cases present : b.clients c with
    | none =>
        have stops : (updateClient c fun p => { p with state := .connected }).run b =
            (.error .useAfterFree, b) := by
          rw [updateClient, Cmd.bind_error (client_freed present)]
        simp only [connackSent, if_true]
        rw [Cmd.bind_error stops]
        exact watched.halted _
    | some p =>
        refine accepted_leads watched sound present fun connected => fresh ?_
        simp [standing, present, connected]
  · simp only [connackSent, accepted, if_false]
    have chain : Evolves cfg true .idle c b ((cDisconnect cfg c (lit "auth failed")).run b).2 :=
      cDisconnect_evolves _ b
    exact .of_state (watched.evolves sound idle_connects chain).1 fun fault d watched =>
      watched.halted fault

private theorem onRecvConnect_leads (watched : Watched b) (sound : Sound b)
    (fresh : standing b c ≠ some .connected) :
    Cmd.Leads Halted (fun _ d => Watched d) ((onRecvConnect cfg c).run b) := by
  have decides : Evolves cfg true (.connect c) c b ((authenticate cfg c).run b).2 :=
    (holds_authenticate (.inl rfl) (.inl rfl)).1
  have quiet : Undisturbed b ((authenticate cfg c).run b).2 := authenticate_undisturbed b
  refine Cmd.Leads.bind (fun _ d => Watched d ∧ Sound d ∧ standing d c ≠ some .connected) ?_ ?_
  · exact .of_state ⟨quiet.watched watched, sound.evolves decides, quiet.standing c ▸ fresh⟩
      fun fault d settled => settled.1.halted fault
  · intro ack d settled
    obtain ⟨watched, sound, fresh⟩ := settled
    obtain ⟨packets, short⟩ := conack_packet .idle d c ack
    have sends : Evolves cfg true .idle c d ((cSendData cfg c (encodeConack 0 ack)).run d).2 :=
      (holds_cSendData (.inl rfl) packets (.inr short)).1
    have settled := watched.evolves sound idle_connects sends
    refine Cmd.Leads.bind (fun _ d => Watched d ∧ Sound d ∧ standing d c ≠ some .connected) ?_ ?_
    · exact .of_state ⟨settled.1, settled.2, sends.unconnected (idle_connects c) fresh⟩
        fun fault d settled => settled.1.halted fault
    · intro rv d settled
      obtain ⟨watched, sound, fresh⟩ := settled
      cases rv with
      | zero =>
          exact (connackSent_leads watched sound fresh ack).bind _ fun _ d watched => watched
      | succ rv => exact watched

/-! ### Rounds -/

/-- Whether the round completes a CONNECT of a client that is connected. -/
def reconnects (cfg : Config) (c : ClientId) (b : State) (byte : Byte) : Bool :=
  match b.clients c with
  | none => false
  | some p =>
      match parsing cfg b p byte with
      | .call _ .connect => p.state = .connected
      | _ => false

section Round

variable {p : Client} {byte : Byte}

theorem Watched.parsed (watched : Watched b) (present : b.clients c = some p) (s : Session) :
    Watched (b.parsed c p s) := by
  have asked : Watched { b with answers.mallocs := b.answers.mallocs.tail } :=
    ⟨watched.befits, watched.closed, watched.unborn, watched.plenty.tail⟩
  have written : Undisturbed { b with answers.mallocs := b.answers.mallocs.tail } (b.parsed c p s) :=
    .putClient (show _ = some p from present) rfl
  exact written.watched asked

theorem Watched.toHeader (watched : Watched b) (present : b.clients c = some p) :
    Watched (b.putClient c { p with session.state := .header }) :=
  have written : Undisturbed b (b.putClient c { p with session.state := .header }) :=
    .putClient present rfl
  written.watched watched

/-- Behind the callback of a CONNECT. -/
theorem connect_round {s : Session} (watched : Watched b) (sound : Sound b) (present : b.clients c = some p)
    (parses : parsing cfg b p byte = .call s .connect) (fresh : p.state ≠ .connected) :
    RoundEnds Watched Watched Halted ((parserRound cfg c byte).run b) := by
  have calls : (parsing cfg b p byte).Ensures Session.Ok fun last _ => last.Ok :=
    parserByte_ok (sound.sessions c p present)
  rw [parses] at calls
  have unconnected : standing (b.parsed c p s) c ≠ some .connected := by
    simpa [standing] using fresh
  have leads : Cmd.Leads Halted (fun _ d => Watched d) ((onRecvConnect cfg c).run (b.parsed c p s)) :=
    onRecvConnect_leads (watched.parsed present s) (sound.parsed present calls) unconnected
  rw [parserRound_run present, parses]
  simp only [callback, Cmd.run_bind]
  cases outcome : (onRecvConnect cfg c).run (b.parsed c p s) with
  | mk result d =>
      rw [outcome] at leads
      cases result with
      | error fault => exact leads
      | ok rv =>
          have watched : Watched d := leads
          cases rv with
          | succ rv => exact ⟨by decide, watched⟩
          | zero =>
              cases found : d.clients c with
              | none =>
                  have stops : (callbackReturned c 0).run d = (.error .useAfterFree, d) := by
                    simp [callbackReturned, setHeader, updateClient, client, Cmd.run_bind, found]
                  simp only [stops]
                  exact watched.halted _
              | some p' =>
                  have written : (callbackReturned c 0).run d =
                      (.ok none, d.putClient c { p' with session.state := .header }) := by
                    simp [callbackReturned, setHeader, updateClient, client, Cmd.run_bind, found]
                  simp only [written]
                  exact watched.toHeader found

private theorem taskOf_connects {s : Session} {request : Request} (other : request ≠ .connect) (d : ClientId) :
    ¬ (taskOf c s request).Connects d := by
  cases request with
  | connect => exact absurd rfl other
  | publish =>
      cases drafted : s.publish.mp <;> simp [taskOf, drafted, Task.Connects]
  | _ => simp [taskOf, Task.Connects]

private theorem watched_round (sound : Sound b) (there : (b.clients c).isSome) (watched : Watched b)
    (fresh : reconnects cfg c b byte = false) :
    RoundEnds Watched Watched Halted ((parserRound cfg c byte).run b) := by
  obtain ⟨p, present⟩ := Option.isSome_iff_exists.mp there
  have ok := sound.sessions c p present
  by_cases connecting : ∃ s, parsing cfg b p byte = .call s .connect
  · obtain ⟨s, parses⟩ := connecting
    refine connect_round watched sound present parses fun connected => ?_
    simp [reconnects, present, parses, connected] at fresh
  · have calls : (parsing cfg b p byte).Ensures Session.Ok fun last _ => last.Ok := parserByte_ok ok
    have ends : (parsing cfg b p byte).OnEnd Session.Ok := parserByte_onEnd_ok ok
    have called : ∀ {s request d}, parsing cfg b p byte = .call s request →
        Evolves cfg true (taskOf c s request) c (b.parsed c p s) d → Watched d := by
      intro s request d parses chain
      rw [parses] at calls
      refine ((watched.parsed present s).evolves (sound.parsed present calls) (taskOf_connects ?_) chain).1
      intro connect
      subst connect
      exact connecting ⟨s, parses⟩
    have round := sound.round present cfg byte
    generalize (parserRound cfg c byte).run b = outcome at round
    cases round with
    | @next s parses => exact watched.parsed present s
    | @refused s rv parses fails =>
        exact ⟨fails, (Undisturbed.emit (by simp)).watched (watched.parsed present s)⟩
    | returned parses chain decided found =>
        exact (called parses chain).toHeader found
    | failed may parses chain => exact ⟨by decide, called parses chain⟩
    | broken parses chain fails => exact (called parses chain).halted _
    | @left s fault d may parses chain fails =>
        rw [parses] at ends
        exact ((watched.parsed present s).evolves (sound.parsed present ends) idle_connects chain).1.halted _
    | stopped other =>
        have asked : Watched { b with answers.mallocs := b.answers.mallocs.tail } :=
          ⟨watched.befits, watched.closed, watched.unborn, watched.plenty.tail⟩
        exact asked.halted _

end Round

/-! ### Runs -/

/-- No `malloc` fails, and no connected client completes a CONNECT. -/
def Introduced (cfg : Config) (run : Run) : Action → Prop
  | .parse c buf answers => answers.Plenty ∧
      Along cfg c (fun b byte => reconnects cfg c b byte = false) buf { run.state with answers }
  | .drop _ _ answers => answers.Plenty
  | .deliver _ answers => answers.Plenty
  | _ => True

instance decidableIntroduced (run : Run) : ∀ action, Decidable (Introduced cfg run action)
  | .parse c buf answers =>
      haveI := decidableAlong cfg c (fun b byte => reconnects cfg c b byte = false) buf
        { run.state with answers }
      inferInstanceAs (Decidable (_ ∧ _))
  | .drop _ _ answers => inferInstanceAs (Decidable answers.Plenty)
  | .deliver _ answers => inferInstanceAs (Decidable answers.Plenty)
  | .accept _ _ _ _ => isTrue trivial
  | .gc _ => isTrue trivial

theorem Watched.answers (watched : Watched b) {answers : Answers} (plenty : answers.Plenty) :
    Watched { b with answers } :=
  ⟨watched.befits, watched.closed, watched.unborn, plenty⟩

private theorem watched_accept (watched : Watched b) (w : Nat) (isTls isWs : Bool)
    (ipAddress : List Byte) : Watched ((workersAddClient w isTls isWs ipAddress).run b).2 := by
  have others : ∀ e, e ≠ b.nextClient →
      standing ((workersAddClient w isTls isWs ipAddress).run b).2 e = standing b e := by
    intro e other
    simp [standing, workersAddClient, other]
  have opened : standing ((workersAddClient w isTls isWs ipAddress).run b).2 b.nextClient =
      some .opened := by
    simp [standing, workersAddClient, cNew]
  refine ⟨fun e => ?_, fun e logged => ?_, fun e later => ?_, watched.plenty⟩
  · by_cases same : e = b.nextClient
    · subst same
      rw [opened]
      exact watched.unborn b.nextClient (Nat.le_refl _)
    · rw [others e same]
      exact watched.befits e
  · obtain ⟨gone, known⟩ := watched.closed e logged
    rw [others e (Nat.ne_of_lt known)]
    exact ⟨gone, known.trans (Nat.lt_succ_self _)⟩
  · exact watched.unborn e ((Nat.le_succ _).trans later)

/-- The log befits the clients while the process goes on, and is paired in any case. -/
def InStep (run : Run) : Prop :=
  (run.ended = false → Watched run.state) ∧ ∀ c, Paired c run.state.log

private theorem after_inStep {Value : Type} {call : Code Value}
    (leads : Cmd.Leads Halted (fun _ d => Watched d) (call.run b)) : InStep (after call b) := by
  unfold after
  split
  · rename_i d returns
    rw [returns] at leads
    exact ⟨fun _ => leads, Watched.paired leads⟩
  · rename_i d stops
    rw [stops] at leads
    exact ⟨fun _ => leads.1 rfl, leads.2⟩
  · rename_i fault d other stops
    rw [stops] at leads
    exact ⟨nofun, leads.2⟩

/-- A call behind which the log is in step however it ends. -/
theorem Watched.inStep {Value : Type} {call : Code Value} (watched : Watched (call.run b).2) :
    InStep (after call b) :=
  after_inStep (.of_state watched fun fault _ watched => watched.halted fault)

private theorem inStep_steps {run next : Run} {action : Action} (sound : Sound run.state)
    (watched : Watched run.state) (introduced : Introduced cfg run action)
    (steps : Steps cfg run.state action next) : InStep next := by
  cases steps with
  | accept worker => exact (watched_accept watched _ _ _ _).inStep
  | @parse c buf answers p present =>
      obtain ⟨plenty, along⟩ := introduced
      apply after_inStep
      refine cParse_rule Watched Watched Halted (Cmd.Leads Halted fun _ d => Watched d)
        (fun d byte sound there watched fresh => watched_round sound there watched fresh)
        (fun d _ _ watched => watched) (fun d sound watched => ?_) (fun fault d _ halted => halted)
        (sound.answers answers) (by simp [present]) (watched.answers plenty) along
      exact .of_state (watched.evolves sound idle_connects (cDisconnect_evolves _ d)).1
        fun fault d watched => watched.halted fault
  | drop present =>
      exact ((watched.answers introduced).evolves (sound.answers _) idle_connects
        (cDisconnect_evolves _ _)).1.inStep
  | @deliver w answers worker =>
      have served : Serving cfg true _ { run.state with answers }
          ((wDeliverRound cfg w).run { run.state with answers }).2 := (holds_wDeliverRound w (.inl rfl)).1
      have settled := served.invariant (Watched.change (by simp [Task.Connects]))
        ⟨watched.answers introduced, sound.answers answers⟩
      exact settled.1.inStep
  | @gc w worker =>
      have collected : Evolves cfg false (.deliver 0) 0 run.state ((wGcRound cfg w).run run.state).2 :=
        wGcRound_evolves w 0 run.state
      exact (watched.evolves sound (by simp [Task.Connects]) collected).1.inStep

/-- In every run in which no `malloc` fails and no connected client sends a CONNECT,
the presence events of a client form at most one pair, and a client that came online
has gone offline when it is freed. -/
theorem presence_events_paired {run : Run}
    (reached : ((broker cfg).restrict (Introduced cfg)).Reachable run) (c : ClientId) :
    Paired c run.state.log := by
  have initially : ∀ run, ((broker cfg).restrict (Introduced cfg)).init run → InStep run := by
    intro run initial
    obtain rfl : run = start := initial
    have watched : Watched start.state :=
      ⟨fun _ => .inl rfl, nofun, fun _ _ => rfl, nofun⟩
    exact ⟨fun _ => watched, watched.paired⟩
  have preserved : ∀ run action next, ((broker cfg).restrict (Introduced cfg)).Reachable run →
      InStep run → ((broker cfg).restrict (Introduced cfg)).step run action = some next →
      InStep next := by
    intro run action next reached inStep stepped
    obtain ⟨introduced, stepped⟩ := System.restrict_step.mp stepped
    obtain ⟨going, steps⟩ := step_steps stepped
    exact inStep_steps (reachable_sound reached.of_restrict) (inStep.1 going) introduced steps
  exact (reached.invariant initially preserved).2 c

/-- The bytes of a CONNECT without a user. -/
def plainConnect : List Byte :=
  [0x10, 13, 0, 4] ++ lit "MQTT" ++ [4, 2, 0, 60, 0, 1] ++ lit "c"

/-- A client connects and loses its connection. -/
theorem presence_events_paired_lost :
    ∃ run, ((broker (oneWorker true)).restrict (Introduced (oneWorker true))).run start
        [.accept 0 false false [], .parse 0 plainConnect silent, .drop 0 (lit "read") silent] = some run ∧
      presence 0 run.state.log = [.online 0, .offline 0] ∧ Event.closed 0 ∈ run.state.log ∧
      Paired 0 run.state.log := by
  have ends : (((broker (oneWorker true)).restrict (Introduced (oneWorker true))).run start
      [.accept 0 false false [], .parse 0 plainConnect silent, .drop 0 (lit "read") silent]).map
        (fun run => decide (presence 0 run.state.log = [.online 0, .offline 0] ∧
          Event.closed 0 ∈ run.state.log)) = some true := by decide +kernel
  obtain ⟨run, ran, told⟩ := Option.map_eq_some_iff.mp ends
  obtain ⟨pair, closed⟩ := of_decide_eq_true told
  exact ⟨run, ran, pair, closed, presence_events_paired (.run (.start rfl) ran) 0⟩

/-- A client that sends its CONNECT twice comes online twice. A client whose first
message finds no memory goes offline without having come. -/
theorem presence_events_unpaired :
    (∃ run, (broker (oneWorker true)).Reachable run ∧
      presence 0 run.state.log = [.online 0, .online 0] ∧ ¬ Paired 0 run.state.log) ∧
    ∃ run, (broker (oneWorker true)).Reachable run ∧
      presence 0 run.state.log = [.offline 0] ∧ ¬ Paired 0 run.state.log := by
  have twice : ((broker (oneWorker true)).run start
      [.accept 0 false false [], .parse 0 (plainConnect ++ plainConnect) silent]).map
        (fun run => decide (presence 0 run.state.log = [.online 0, .online 0] ∧
          ¬ Paired 0 run.state.log)) = some true := by decide +kernel
  -- one answer for every byte, then the one for the message
  have starved : ((broker (oneWorker true)).run start
      [.accept 0 false false [],
        .parse 0 plainConnect { silent with mallocs := List.replicate 15 true ++ [false] },
        .drop 0 (lit "read") silent]).map
        (fun run => decide (presence 0 run.state.log = [.offline 0] ∧
          ¬ Paired 0 run.state.log)) = some true := by decide +kernel
  obtain ⟨first, ran, told⟩ := Option.map_eq_some_iff.mp twice
  obtain ⟨second, ran', told'⟩ := Option.map_eq_some_iff.mp starved
  exact ⟨⟨first, .run (.start rfl) ran, of_decide_eq_true told⟩,
    second, .run (.start rfl) ran', of_decide_eq_true told'⟩

end FbBroker.Broker
