import FbBroker.Broker.Steps

/-!
Contract: what a client may do before its CONNECT is accepted.

Owns the order of the events of a client: it publishes and subscribes only
behind an acceptance and not behind a rejection. The callbacks of PUBLISH and
SUBSCRIBE do not look at the client's state, so all that stands between a client
without a name and the queues is `auth_acl`, which lets everybody at the public
topics.
-/

set_option autoImplicit false

namespace FbBroker.Broker

open FbBroker.Lib FbBroker.Packet FbBroker.Parser FbBroker.Auth

variable {cfg : Config} {closes : Bool} {c : ClientId} {b : State}
  {except : ClientId → Prop} {request : Request} {s : Session} {b' : State}

/-! ### The order of events -/

/-- The client publishes and subscribes only behind an accepted CONNECT and not
behind a rejected one. -/
def Gated (c : ClientId) (log : List Event) : Prop :=
  ∀ before event after, log = before ++ event :: after →
    event = .published c ∨ event = .subscribed c →
      Event.accepted c ∈ before ∧ Event.rejected c ∉ before

theorem Gated.concat {log : List Event} {event : Event} (gated : Gated c log)
    (behind : event = .published c ∨ event = .subscribed c →
      Event.accepted c ∈ log ∧ Event.rejected c ∉ log) : Gated c (log ++ [event]) := by
  intro before entry after split kind
  rcases split_concat split with ⟨rest, old⟩ | ⟨last, whole⟩
  · exact gated before entry rest old kind
  · subst last whole
    exact behind kind

/-- Entries about something else keep the order. -/
theorem Gated.append {log entries : List Event} (gated : Gated c log)
    (other : ∀ event ∈ entries, event ≠ .published c ∧ event ≠ .subscribed c) :
    Gated c (log ++ entries) := by
  induction entries generalizing log with
  | nil => simpa using gated
  | cons event entries inductionHypothesis =>
      have here : Gated c (log ++ [event]) := by
        refine gated.concat fun kind => absurd kind ?_
        exact not_or.mpr (other event (by simp))
      rw [← List.singleton_append, ← List.append_assoc]
      exact inductionHypothesis here fun later member => other later (by simp [member])

/-- Nothing is known about the client's user. -/
def Anonymous (p : Client) : Prop :=
  p.isSuper = false ∧ p.userIdStr = [] ∧ p.session.username 0 = 0

/-- A client that is there has not been rejected; without an acceptance it has no
rights, and no user name but the one a CONNECT is bringing. -/
def Cleared (c : ClientId) (p : Client) (log : List Event) : Prop :=
  Event.rejected c ∉ log ∧
    (Event.accepted c ∉ log → p.isSuper = false ∧ p.userIdStr = [] ∧
      (p.session.state.isConnect = false → p.session.username 0 = 0))

/-- The events are in order, only clients that were there have been rejected, and
the clients that are there are cleared, up to some. -/
structure Guarded (except : ClientId → Prop) (b : State) : Prop where
  gated : ∀ d, Gated d b.log
  known : ∀ d, Event.rejected d ∈ b.log → d < b.nextClient
  cleared : ∀ d p, ¬ except d → b.clients d = some p → Cleared d p b.log

/-- All clients are cleared. -/
abbrev AllCleared : State → Prop :=
  Guarded fun _ => False

theorem Guarded.weaken (guarded : AllCleared b) : Guarded except b :=
  ⟨guarded.gated, guarded.known, fun d p _ found => guarded.cleared d p (fun no => no) found⟩

theorem Guarded.answers (guarded : Guarded except b) (answers : Answers) :
    Guarded except { b with answers } :=
  ⟨guarded.gated, guarded.known, guarded.cleared⟩

/-- A client that is gone needs no exception. -/
theorem Guarded.of_absent (guarded : Guarded (· = c) b) (absent : b.clients c = none) : AllCleared b := by
  refine ⟨guarded.gated, guarded.known, fun d p _ found => guarded.cleared d p ?_ found⟩
  intro same
  subst same
  simp [absent] at found

/-- Entries of the log that are no rejection leave a client cleared. -/
theorem Cleared.append {p : Client} {log entries : List Event} (cleared : Cleared c p log)
    (other : Event.rejected c ∉ entries) : Cleared c p (log ++ entries) := by
  refine ⟨?_, fun unaccepted => cleared.2 fun accepted => unaccepted (List.mem_append_left _ accepted)⟩
  intro rejected
  rcases List.mem_append.mp rejected with old | new
  · exact cleared.1 old
  · exact other new

/-- A close keeps the guard of the clients that stay cleared. -/
theorem Guarded.closed {p : Client} {told : List Event}
    (guarded : Guarded except b) (tells : Tells b c p told) (log : b'.log = b.log ++ (told ++ [.closed c]))
    (next : b'.nextClient = b.nextClient)
    (kept : ∀ d p', ¬ except d → b'.clients d = some p' → Cleared d p' b.log) : Guarded except b' := by
  refine ⟨fun d => ?_, fun d rejected => ?_, fun d p' inside found => ?_⟩
  · rw [log]
    refine (guarded.gated d).append fun event member => ?_
    rcases tells.mem member with same | same <;> simp [same]
  · rw [log] at rejected
    rw [next]
    exact guarded.known d (tells.mem_log (by simp) rejected)
  · rw [log]
    refine (kept d p' inside found).append fun rejected => ?_
    rcases tells.mem rejected with same | same <;> simp at same

/-- Behind an update by a task that is no CONNECT a client is cleared as before. -/
theorem Cleared.updates {task : Task} {p p' : Client} {log : List Event} (cleared : Cleared c p log)
    (updates : Updates task b c p p') (working : task ≠ .connect c) : Cleared c p' log := by
  refine ⟨cleared.1, fun unaccepted => ?_⟩
  obtain ⟨isSuper, userIdStr⟩ := updates.rights.resolve_right fun connecting => working connecting.1
  rw [isSuper, userIdStr, updates.session]
  exact cleared.2 unaccepted

/-! ### Edits -/

/-- The edits of a task other than a CONNECT keep the guard, provided what it
publishes or subscribes is behind an acceptance. -/
theorem Guarded.change {task : Task}
    (working : ∀ d, task ≠ .connect d) (change : Change cfg closes task c b b')
    (guarded : Guarded except b)
    (behind : ∀ d event, event = .published d ∨ event = .subscribed d → Emits cfg task b event →
      Event.accepted d ∈ b.log ∧ Event.rejected d ∉ b.log) : Guarded except b' := by
  have kept : ∀ d p', ¬ except d → b'.clients d = some p' → Cleared d p' b.log := by
    intro d p' inside found
    obtain ⟨p, present, updates⟩ := change.client_before found
    exact (guarded.cleared d p inside present).updates updates (working d)
  cases change with
  | emit emits =>
      refine ⟨fun d => (guarded.gated d).concat fun kind => behind d _ kind emits, ?_, ?_⟩
      · intro d rejected
        rcases List.mem_append.mp rejected with old | new
        · exact guarded.known d old
        · obtain rfl := List.mem_singleton.mp new
          exact absurd emits (working d)
      · intro d p' inside found
        refine (kept d p' inside found).append ?_
        intro same
        obtain rfl := List.mem_singleton.mp same
        exact working d emits
  | close may present nodes subs unlinked tells => exact guarded.closed tells rfl rfl kept
  | _ => exact ⟨guarded.gated, guarded.known, kept⟩

/-- The edits of a CONNECT keep the guard of the other clients. -/
theorem Guarded.connect (change : Change cfg closes (.connect c) c b b')
    (guarded : Guarded (· = c) b ∧ c < b.nextClient) : Guarded (· = c) b' ∧ c < b'.nextClient := by
  obtain ⟨guarded, there⟩ := guarded
  have kept : ∀ d p', d ≠ c → b'.clients d = some p' → Cleared d p' b.log := by
    intro d p' other found
    obtain ⟨p, present, updates⟩ := change.client_before found
    refine (guarded.cleared d p other present).updates updates ?_
    intro same
    exact other (Task.connect.inj same).symm
  cases change with
  | emit emits =>
      refine ⟨⟨fun d => (guarded.gated d).concat ?_, ?_, ?_⟩, there⟩
      · intro kind
        rcases kind with published | subscribed
        · subst published
          simp [Emits] at emits
        · subst subscribed
          simp [Emits] at emits
      · intro d rejected
        rcases List.mem_append.mp rejected with old | new
        · exact guarded.known d old
        · obtain rfl := List.mem_singleton.mp new
          exact Task.connect.inj emits ▸ there
      · intro d p' other found
        refine (kept d p' other found).append ?_
        intro same
        obtain rfl := List.mem_singleton.mp same
        exact other (Task.connect.inj emits).symm
  | close may present nodes subs unlinked tells => exact ⟨guarded.closed tells rfl rfl kept, there⟩
  | _ => exact ⟨⟨guarded.gated, guarded.known, kept⟩, there⟩

/-- What a quiet task does. -/
theorem Guarded.idle {task : Task}
    (quiet : task = .idle ∨ ∃ m, task = .deliver m) (change : Change cfg closes task c b b')
    (guarded : Guarded except b) : Guarded except b' := by
  refine guarded.change (fun d => ?_) change fun d event kind emits => ?_
  · rcases quiet with same | ⟨m, same⟩ <;> simp [same]
  · rcases kind with same | same <;> subst same <;>
      rcases quiet with same | ⟨m, same⟩ <;> simp [Emits, same] at emits

/-! ### What a client without a name is denied -/

/-- The filter is none of the public ones, and the database has no device for the
query without a user id. -/
def denied (db : Database) (access : Access) (filter : List Byte) : Bool :=
  (!(publicTopics access).any fun topic => mqttTopicMatches topic filter) &&
    (deviceIds (db (aclQuery []))).isEmpty

private theorem allowed_of_denied (named : cfg.allowAnonymous = false) {db : Database} {p : Client}
    {access : Access} {filter : List Byte} (anonymous : Anonymous p)
    (deny : denied db access filter = true) : allowed cfg db p access filter = false := by
  obtain ⟨isSuper, userIdStr, username⟩ := anonymous
  obtain ⟨notPublic, noDevices⟩ : _ ∧ _ := by simpa [denied] using deny
  have devices : userDevices db p.principal = [] := by
    show (if _ then [] else deviceIds (db (aclQuery p.userIdStr))) = []
    rw [userIdStr, noDevices]
    simp
  have first : p.principal.username 0 ≠ 'D'.toUInt8 := by
    show p.session.username 0 ≠ _
    rw [username]
    decide
  have rejects : aclDecide db p.principal access filter = 1 := by
    unfold aclDecide
    rw [if_neg first, if_neg (by simpa using notPublic), devices]
    rfl
  have noSuper : p.principal.isSuper = false := isSuper
  simp [allowed, named, isSuper, authAcl, noSuper, rejects]

/-- The task is to publish or subscribe what a client without a name is denied. -/
def Denied (db : Database) : Task → Prop
  | .publish _ mp => denied db .pub mp.topic = true
  | .subscribe _ sub => ∃ i < sub.numFilters, denied db .sub (filterOf sub i) = true
  | _ => True

instance (db : Database) : ∀ task, Decidable (Denied db task)
  | .publish _ _ => inferInstanceAs (Decidable (_ = true))
  | .subscribe _ sub => inferInstanceAs (Decidable (∃ i < sub.numFilters, _))
  | .idle => isTrue trivial
  | .connect _ => isTrue trivial
  | .welcome _ => isTrue trivial
  | .deliver _ => isTrue trivial
  | .talk => isTrue trivial

/-- The task is behind an acceptance, or is denied to its client. -/
def Barred (task : Task) (c : ClientId) (b : State) : Prop :=
  Event.accepted c ∈ b.log ∨
    Denied b.answers.db task ∧ ∀ p, b.clients c = some p → Anonymous p

theorem Barred.change {task : Task} (working : ∀ d, task ≠ .connect d)
    (change : Change cfg closes task c b b') (barred : Barred task c b) : Barred task c b' := by
  rcases barred with accepted | ⟨deny, anonymous⟩
  · exact .inl (change.log.subset accepted)
  · refine .inr ⟨change.db ▸ deny, fun p' found => ?_⟩
    obtain ⟨p, present, updates⟩ := change.client_before found
    obtain ⟨isSuper, userIdStr⟩ := updates.rights.resolve_right fun connecting => working c connecting.1
    unfold Anonymous
    rw [isSuper, userIdStr, updates.session]
    exact anonymous p present

/-- The client a task publishes or subscribes for. -/
def Task.For (c : ClientId) : Task → Prop
  | .publish d _ => d = c
  | .subscribe d _ => d = c
  | _ => True

private theorem taskOf_for (s : Session) (request : Request) : (taskOf c s request).For c := by
  cases request with
  | publish =>
      cases drafted : s.publish.mp with
      | some draft => simp [taskOf, drafted, Task.For]
      | none => simp [taskOf, drafted, Task.For]
  | subscribe => rfl
  | _ => trivial

private theorem taskOf_ne_connect (other : request ≠ .connect) (d : ClientId) :
    taskOf c s request ≠ .connect d := by
  cases request with
  | connect => exact absurd rfl other
  | publish =>
      cases drafted : s.publish.mp with
      | some draft => simp [taskOf, drafted]
      | none => simp [taskOf, drafted]
  | _ => simp [taskOf]

/-- What a barred task publishes or subscribes is behind an acceptance. -/
theorem Barred.behind (named : cfg.allowAnonymous = false) {task : Task} (barred : Barred task c b)
    (guarded : AllCleared b) (mine : task.For c) {d : ClientId} {event : Event}
    (kind : event = .published d ∨ event = .subscribed d) (emits : Emits cfg task b event) :
    Event.accepted d ∈ b.log ∧ Event.rejected d ∉ b.log := by
  rcases kind with same | same
  · subst same
    obtain ⟨mp, p, working, present, granted⟩ := emits
    subst working
    obtain rfl : d = c := mine
    refine ⟨barred.resolve_right ?_, (guarded.cleared d p (fun no => no) present).1⟩
    intro ⟨deny, anonymous⟩
    rw [allowed_of_denied named (anonymous p present) deny] at granted
    exact absurd granted (by decide)
  · subst same
    obtain ⟨sub, p, working, present, granted⟩ := emits
    subst working
    obtain rfl : d = c := mine
    refine ⟨barred.resolve_right ?_, (guarded.cleared d p (fun no => no) present).1⟩
    intro ⟨⟨i, inside, deny⟩, anonymous⟩
    have allows := granted i inside
    rw [allowed_of_denied named (anonymous p present) deny] at allows
    exact absurd allows (by decide)

/-- A callback other than that of a CONNECT keeps all clients cleared. -/
theorem AllCleared.evolves (named : cfg.allowAnonymous = false) {task : Task}
    (working : ∀ d, task ≠ .connect d) (mine : task.For c) (chain : Evolves cfg closes task c b b')
    (guarded : AllCleared b) (barred : Barred task c b) : AllCleared b' ∧ Barred task c b' := by
  have preserved : ∀ {d d'}, Change cfg closes task c d d' → AllCleared d ∧ Barred task c d →
      AllCleared d' ∧ Barred task c d' := by
    intro d d' change kept
    exact ⟨kept.1.change working change fun e event kind emits =>
      kept.2.behind named kept.1 mine kind emits, kept.2.change working change⟩
  exact chain.invariant preserved ⟨guarded, barred⟩

/-! ### Rounds -/

/-- The packet a round completes is behind an acceptance, or denied to a client
without a name. -/
def Unprivileged (cfg : Config) (c : ClientId) (b : State) (byte : Byte) : Prop :=
  Event.accepted c ∈ b.log ∨ Denied b.answers.db (roundTask cfg c b byte)

instance (byte : Byte) : Decidable (Unprivileged cfg c b byte) :=
  inferInstanceAs (Decidable (_ ∨ _))

/-- The log and the other clients are as before. -/
theorem Guarded.written {p' : Client} (guarded : Guarded except b)
    (log : b'.log = b.log) (nextClient : b'.nextClient = b.nextClient)
    (clients : b'.clients = Function.update b.clients c (some p'))
    (cleared : except c ∨ Cleared c p' b.log) : Guarded except b' := by
  refine ⟨log ▸ guarded.gated, ?_, fun d q inside found => ?_⟩
  · rw [log, nextClient]
    exact guarded.known
  · rw [log]
    rw [clients] at found
    by_cases same : d = c
    · subst same
      obtain rfl : p' = q := by simpa using found
      exact cleared.resolve_left inside
    · exact guarded.cleared d q inside (by simpa [same] using found)

/-- A session that a round leaves outside a CONNECT has the name it had. -/
theorem Cleared.parsed {p : Client} {byte : Byte} (cleared : Cleared c p b.log)
    (ok : p.session.Ok) (parses : parsing cfg b p byte = .next s) :
    Cleared c { p with session := s } b.log := by
  refine ⟨cleared.1, fun unaccepted => ?_⟩
  obtain ⟨isSuper, userIdStr, username⟩ := cleared.2 unaccepted
  refine ⟨isSuper, userIdStr, fun outside => ?_⟩
  cases position : p.session.state.isConnect with
  | true =>
      have inside : (parsing cfg b p byte).Ensures _ _ := parserByte_inside ok position
      rw [parses] at inside
      exact absurd (inside.2.symm.trans outside) (by decide)
  | false =>
      have same : (parsing cfg b p byte).Ensures _ _ := parserByte_outside ok position
      rw [parses] at same
      rw [same.2]
      exact username position

/-- A round that completes another packet than a CONNECT is outside of one. -/
theorem anonymous_of_call {p : Client} {byte : Byte}
    (cleared : Cleared c p b.log) (ok : p.session.Ok) (parses : parsing cfg b p byte = .call s request)
    (other : request ≠ .connect) (unaccepted : Event.accepted c ∉ b.log) :
    Anonymous { p with session := s } := by
  obtain ⟨isSuper, userIdStr, username⟩ := cleared.2 unaccepted
  refine ⟨isSuper, userIdStr, ?_⟩
  cases position : p.session.state.isConnect with
  | true =>
      have inside : (parsing cfg b p byte).Ensures _ _ := parserByte_inside ok position
      rw [parses] at inside
      exact absurd inside.2.2 other
  | false =>
      have same : (parsing cfg b p byte).Ensures _ _ := parserByte_outside ok position
      rw [parses] at same
      show s.username 0 = 0
      rw [same.2.1]
      exact username position

section Round

variable {p : Client} {byte : Byte}

/-- The callback of a CONNECT keeps the others cleared. -/
theorem connect_guarded {d : State} (sound : Sound b) (present : b.clients c = some p)
    (guarded : AllCleared b) (chain : Evolves cfg closes (.connect c) c (b.parsed c p s) d) :
    Guarded (· = c) d := by
  have before : Guarded (· = c) (b.parsed c p s) := guarded.weaken.written rfl rfl rfl (.inl rfl)
  exact (chain.invariant Guarded.connect ⟨before, sound.known c p present⟩).1

/-- Any other callback keeps all of them cleared. -/
theorem callback_guarded (named : cfg.allowAnonymous = false)
    {d : State} (sound : Sound b) (present : b.clients c = some p) (guarded : AllCleared b)
    (unprivileged : Unprivileged cfg c b byte) (parses : parsing cfg b p byte = .call s request)
    (other : request ≠ .connect)
    (chain : Evolves cfg closes (taskOf c s request) c (b.parsed c p s) d) :
    AllCleared d ∧ Barred (taskOf c s request) c d := by
  have ok := sound.sessions c p present
  have cleared := guarded.cleared c p (fun no => no) present
  have written : Cleared c { p with session := s } b.log := by
    refine ⟨cleared.1, fun unaccepted => ?_⟩
    obtain ⟨isSuper, userIdStr, username⟩ := anonymous_of_call cleared ok parses other unaccepted
    exact ⟨isSuper, userIdStr, fun _ => username⟩
  have barred : Barred (taskOf c s request) c (b.parsed c p s) := by
    by_cases accepted : Event.accepted c ∈ b.log
    · exact .inl accepted
    · have deny := unprivileged.resolve_left accepted
      simp only [roundTask, present, parses] at deny
      refine .inr ⟨deny, fun q found => ?_⟩
      obtain rfl : { p with session := s } = q := by simpa using found
      exact anonymous_of_call cleared ok parses other accepted
  exact AllCleared.evolves named (taskOf_ne_connect other) (taskOf_for s request) chain
    (guarded.written rfl rfl rfl (.inr written)) barred

/-- Whatever the callback, the others are cleared. -/
theorem call_guarded (named : cfg.allowAnonymous = false)
    {d : State} (sound : Sound b) (present : b.clients c = some p) (guarded : AllCleared b)
    (unprivileged : Unprivileged cfg c b byte) (parses : parsing cfg b p byte = .call s request)
    (chain : Evolves cfg closes (taskOf c s request) c (b.parsed c p s) d) : Guarded (· = c) d := by
  by_cases connecting : request = .connect
  · subst connecting
    exact connect_guarded sound present guarded chain
  · exact (callback_guarded named sound present guarded unprivileged parses connecting chain).1.weaken

/-- Behind a callback that returned, the client is cleared too: a CONNECT that
leaves it there was accepted. -/
theorem returned_guarded (named : cfg.allowAnonymous = false)
    {d : State} {p' : Client} (sound : Sound b) (present : b.clients c = some p)
    (guarded : AllCleared b) (unprivileged : Unprivileged cfg c b byte)
    (parses : parsing cfg b p byte = .call s request)
    (chain : Evolves cfg closes (taskOf c s request) c (b.parsed c p s) d)
    (decided : request = .connect → cfg.allowAnonymous = false → Decided c (b.parsed c p s) d)
    (found : d.clients c = some p') :
    AllCleared (d.putClient c { p' with session.state := .header }) := by
  by_cases connecting : request = .connect
  · obtain ⟨accepted, rejected⟩ := decided connecting named
    subst connecting
    have others := connect_guarded sound present guarded chain
    have cleared := guarded.cleared c p (fun no => no) present
    refine ⟨others.gated, others.known, fun e q _ holds => ?_⟩
    by_cases same : e = c
    · subst same
      exact ⟨fun late => cleared.1 (rejected late), fun unaccepted => absurd accepted unaccepted⟩
    · exact others.cleared e q same (by simpa [State.putClient, same] using holds)
  · obtain ⟨all, barred⟩ :=
      callback_guarded named sound present guarded unprivileged parses connecting chain
    refine all.written rfl rfl rfl (.inr ?_)
    have cleared := all.cleared c p' (fun no => no) found
    refine ⟨cleared.1, fun unaccepted => ?_⟩
    obtain ⟨isSuper, userIdStr, username⟩ := (barred.resolve_left unaccepted).2 p' found
    exact ⟨isSuper, userIdStr, fun _ => username⟩

private theorem gate_round (named : cfg.allowAnonymous = false) (sound : Sound b)
    (there : (b.clients c).isSome) (guarded : AllCleared b) (unprivileged : Unprivileged cfg c b byte) :
    RoundEnds AllCleared (Guarded (· = c))
      (fun fault d => Guarded (· = c) d ∧ (fault = .useAfterFree → d.clients c = none))
      ((parserRound cfg c byte).run b) := by
  obtain ⟨p, present⟩ := Option.isSome_iff_exists.mp there
  have ok := sound.sessions c p present
  have cleared := guarded.cleared c p (fun no => no) present
  have round := sound.round present cfg byte
  generalize (parserRound cfg c byte).run b = outcome at round
  have parsed : ∀ s, Guarded (· = c) (b.parsed c p s) := fun s =>
    guarded.weaken.written rfl rfl rfl (.inl rfl)
  cases round with
  | next parses => exact guarded.written rfl rfl rfl (.inr (cleared.parsed ok parses))
  | @refused s rv parses fails =>
      refine ⟨fails, fun d => ((parsed s).gated d).concat (by simp), fun d rejected => ?_, ?_⟩
      · exact (parsed s).known d (by simpa [State.emit] using rejected)
      · intro d q other found
        exact ((parsed s).cleared d q other found).append (by simp)
  | returned parses chain decided found =>
      exact returned_guarded named sound present guarded unprivileged parses chain decided found
  | failed may parses chain =>
      exact ⟨by decide, call_guarded named sound present guarded unprivileged parses chain⟩
  | broken parses chain fails =>
      refine ⟨call_guarded named sound present guarded unprivileged parses chain, fun freed => ?_⟩
      exact (fails.resolve_right fun others => others.1 freed).2 freed
  | left may parses chain fails =>
      refine ⟨chain.invariant (Guarded.idle (.inl rfl)) (parsed _), fun freed => ?_⟩
      exact (fails.resolve_right fun others => others.1 freed).2 freed
  | stopped other => exact ⟨(guarded.answers _).weaken, fun freed => absurd freed other.1⟩

end Round

/-! ### Runs -/

/-- Before a client is accepted, the packets it completes are denied to it. -/
def Unaided (cfg : Config) (run : Run) : Action → Prop
  | .parse c buf answers => Along cfg c (Unprivileged cfg c) buf { run.state with answers }
  | _ => True

instance decidableUnaided (run : Run) : ∀ action, Decidable (Unaided cfg run action)
  | .parse c buf answers => decidableAlong cfg c (Unprivileged cfg c) buf { run.state with answers }
  | .accept _ _ _ _ => isTrue trivial
  | .drop _ _ _ => isTrue trivial
  | .deliver _ _ => isTrue trivial
  | .gc _ => isTrue trivial

/-- Where a call comes to: the events are in order and, unless the process ended,
all clients are cleared. -/
def GateEnds (outcome : Except Fault Unit × State) : Prop :=
  (∀ d, Gated d outcome.2.log) ∧
    ((∀ fault, outcome.1 = .error fault → fault = .useAfterFree) → AllCleared outcome.2)

/-- Closing leaves all cleared. -/
theorem gate_cDisconnect (regular : Regular b) (guarded : Guarded (· = c) b) (reason : List Byte) :
    GateEnds ((cDisconnect cfg c reason).run b) := by
  have later : Guarded (· = c) ((cDisconnect cfg c reason).run b).2 :=
    (cDisconnect_evolves reason b).invariant (Guarded.idle (.inl rfl)) guarded
  refine ⟨later.gated, fun returns => later.of_absent ?_⟩
  cases present : b.clients c with
  | none => simp [cDisconnect, client, Cmd.run_bind, present]
  | some p =>
      have freed : Freed c ((cDisconnect cfg c reason).run b) := cDisconnect_freed present regular reason
      generalize (cDisconnect cfg c reason).run b = outcome at freed returns
      cases freed with
      | closed gone => exact gone
      | crashed => exact absurd (returns _ rfl) (by decide)

private theorem gate_after {call : Code Unit} (ends : GateEnds (call.run b)) :
    (∀ d, Gated d (after call b).state.log) ∧
      ((after call b).ended = false → AllCleared (after call b).state) := by
  rw [after_state]
  exact ⟨ends.1, fun goesOn => ends.2 fun fault stops => after_ended goesOn stops⟩

private theorem gate_accept (guarded : AllCleared b) (w : Nat) (isTls isWs : Bool) (ipAddress : List Byte) :
    AllCleared ((workersAddClient w isTls isWs ipAddress).run b).2 := by
  refine ⟨guarded.gated, fun d rejected => ?_, fun d q _ found => ?_⟩
  · exact (guarded.known d rejected).trans (by simp [workersAddClient])
  · by_cases same : d = b.nextClient
    · subst same
      obtain rfl : cNew w isTls isWs ipAddress = q := by simpa [workersAddClient] using found
      refine ⟨fun rejected => absurd (guarded.known _ rejected) (Nat.lt_irrefl _), fun _ => ?_⟩
      exact ⟨rfl, rfl, fun _ => rfl⟩
    · exact guarded.cleared d q (fun no => no) (by simpa [workersAddClient, same] using found)

private theorem gate_steps (named : cfg.allowAnonymous = false) {run next : Run} {action : Action}
    (sound : Sound run.state) (guarded : AllCleared run.state) (unaided : Unaided cfg run action)
    (steps : Steps cfg run.state action next) :
    (∀ d, Gated d next.state.log) ∧ (next.ended = false → AllCleared next.state) := by
  cases steps with
  | @accept w isTls isWs ipAddress worker =>
      have later := gate_accept guarded w isTls isWs ipAddress
      rw [← after_state] at later
      exact ⟨later.gated, fun _ => later⟩
  | @parse c buf answers p present =>
      refine gate_after ?_
      exact cParse_rule AllCleared (Guarded (· = c))
        (fun fault d => Guarded (· = c) d ∧ (fault = .useAfterFree → d.clients c = none)) GateEnds
        (fun d byte sound there guarded unprivileged =>
          gate_round named sound there guarded unprivileged)
        (fun d _ _ guarded => ⟨guarded.gated, fun _ => guarded⟩)
        (fun d sound guarded => gate_cDisconnect sound.regular guarded _)
        (fun fault d _ ended => ⟨ended.1.gated, fun returns => ended.1.of_absent (ended.2 (returns fault rfl))⟩)
        (sound.answers answers) (by simp [present]) (guarded.answers answers) unaided
  | @drop c reason answers p present =>
      exact gate_after (gate_cDisconnect (sound.answers answers).regular
        (guarded.answers answers).weaken reason)
  | @deliver w answers worker =>
      have later : AllCleared ((wDeliverRound cfg w).run { run.state with answers }).2 :=
        (holds_wDeliverRound w (.inl rfl)).1.invariant (Guarded.idle (.inr ⟨_, rfl⟩))
          (guarded.answers answers)
      rw [← after_state] at later
      exact ⟨later.gated, fun _ => later⟩
  | @gc w worker =>
      have later : AllCleared ((wGcRound cfg w).run run.state).2 :=
        (wGcRound_evolves w 0 run.state).invariant (Guarded.idle (.inr ⟨0, rfl⟩)) guarded
      rw [← after_state] at later
      exact ⟨later.gated, fun _ => later⟩

/-- A database that knows one user, of the password `p`. -/
def oneUser : Database :=
  fun _ => .result 3 [[some (lit "p"), some (lit "0"), some (lit "7")]]

/-- A PUBLISH under a topic that is open to every user. -/
def relayPublish : List Byte :=
  [0x30, 20, 0, 17] ++ lit "flameboss/relay/x" ++ lit "1"

end FbBroker.Broker
