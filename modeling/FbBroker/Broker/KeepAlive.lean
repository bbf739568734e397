import FbBroker.Broker.Steps

/-!
Contract: the keep-alive tables in the running broker.

Owns the broker with a clock, whose workers also call `ka_run`, and what it
takes for a client to be monitored. No code of the broker assigns `recv_at` or
calls `ka_init`: every `ka_update` takes the burst shortcut, the tables are at
rest in every run, and no callback is there to drop a client.

Does not own the tables of a program that does maintain these data.
-/

set_option autoImplicit false

namespace FbBroker.Broker

open FbBroker.Lib FbBroker.Packet FbBroker.Parser FbBroker.Dllist

variable {cfg : Config} {c : ClientId} {b : State} {p : Client}

/-! ### The broker with a clock -/

/-- Where the broker keeps the data of `keep_alive.c`. -/
def keeper : KeepAlive.Keeper State ClientId where
  wheel := State.ka
  put b ka := { b with ka }
  keepAlive b c := (b.clients c).map fun p => p.session.keepAlive

/-- The static variable `drop_callback`. It is set by `ka_init` and
`ka_set_drop_callback`, which only the test of the module calls. -/
def dropCallback : Option (ClientId → Code Unit) := none

/-- `if (drop_callback) (*drop_callback)(p)`. -/
def callDrop (c : ClientId) : Code Unit :=
  match dropCallback with
  | some fp => fp c
  | none => pure ()

/-- `ka_run(&p->keep_alive, t)` of a worker; no bucket holds more nodes than
there have been clients. -/
def kaRun (w t : Nat) : Code Unit := do
  let b ← get
  KeepAlive.kaRun keeper callDrop w t b.nextClient

/-- A broker, the last value of `time`, and for each client the time at which
bytes of it last reached `c_parse`. -/
structure Timed where
  run : Run
  now : Nat
  heard : ClientId → Nat

inductive TimedAction where
  | act (t : Nat) (action : Action)
  | kaRun (t w : Nat)

/-- The times at which clients were heard, behind an action. -/
def hear (heard : ClientId → Nat) (t : Nat) : Action → ClientId → Nat
  | .parse c _ _ => Function.update heard c t
  | _ => heard

/-- Time is positive and does not go back. -/
def timedStep (cfg : Config) (timed : Timed) : TimedAction → Option Timed
  | .act t action =>
      if 0 < t ∧ timed.now ≤ t then
        (step cfg timed.run action).map fun run => ⟨run, t, hear timed.heard t action⟩
      else none
  | .kaRun t w =>
      if (0 < t ∧ timed.now ≤ t) ∧ w < cfg.numWorkers ∧ timed.run.ended = false then
        some { timed with run := after (kaRun w t) timed.run.state, now := t }
      else none

def timedStart : Timed :=
  ⟨start, 0, fun _ => 0⟩

def timedBroker (cfg : Config) : System Timed TimedAction where
  init timed := timed = timedStart
  step := timedStep cfg

/-! ### Monitored clients -/

/-- A `ka_run` at this time comes to the client's bucket and finds it expired. -/
def Finds (b : State) (c : ClientId) (t : Nat) : Prop :=
  b.ka.lastT ≠ t ∧ (b.ka.timer c).expiresAt ≤ t ∧
    ∃ i ∈ KeepAlive.window b.ka.lastT t,
      KeepAlive.hashValue i = KeepAlive.hashValue (b.ka.timer c).expiresAt

/-- The client is linked in its worker's table, expires behind the last time it
was heard, and is closed by a `ka_run` that finds it expired. -/
structure Monitored (timed : Timed) (c : ClientId) (p : Client) : Prop where
  linked : ∃ k ring, c ∈ ring ∧
    DList timed.run.state.ka.node ((timed.run.state.ka.table p.worker).hashTable k) ring
  later : timed.heard c < (timed.run.state.ka.timer c).expiresAt
  expires : ∀ t, 0 < t → timed.now ≤ t → Finds timed.run.state c t →
    ((kaRun p.worker t).run timed.run.state).2.clients c = none

/-- Every connected client with a keep-alive is monitored. -/
def AllMonitored (timed : Timed) : Prop :=
  ∀ c p, timed.run.state.clients c = some p → p.state = .connected → p.session.keepAlive ≠ 0 →
    Monitored timed c p

/-- With tables at rest no client is linked. -/
theorem not_monitored {timed : Timed} (idle : timed.run.state.ka.Idle) : ¬ Monitored timed c p := by
  intro monitored
  obtain ⟨k, ring, member, list⟩ := monitored.linked
  have head : none = ring.head? := (idle.bucket p.worker k).symm.trans list.chain.head_eq
  rw [List.head?_eq_none_iff.mp head.symm] at member
  exact absurd member List.not_mem_nil

/-! ### Runs with a clock -/

theorem kaRun_run (idle : b.ka.Idle) (w : Nat) {t : Nat} (positive : 0 < t) :
    ((kaRun w t).run b).2 = if b.ka.lastT = t then b else { b with ka := { b.ka with lastT := t } } := by
  rw [kaRun, Cmd.run_get_bind, KeepAlive.kaRun_idle (show (keeper.wheel b).Idle from idle) positive]
  rfl

private theorem sound_kaRun (sound : Sound b) (w : Nat) {t : Nat} (positive : 0 < t) :
    Sound ((kaRun w t).run b).2 := by
  have idle := sound.regular.idle
  rw [kaRun_run idle w positive]
  split
  · exact sound
  · exact ⟨⟨sound.regular.states, ⟨idle.timer, idle.node, idle.bucket⟩⟩, sound.sessions, sound.known⟩

/-- A step with a clock is a step of the broker or a `ka_run`. -/
theorem timedStep_cases {timed next : Timed} {action : TimedAction}
    (stepped : timedStep cfg timed action = some next) :
    (∃ t a, action = .act t a ∧ step cfg timed.run a = some next.run) ∨
      ∃ t w, action = .kaRun t w ∧ 0 < t ∧ next.run = after (kaRun w t) timed.run.state := by
  cases action with
  | act t a =>
      simp only [timedStep, Option.ite_none_right_eq_some, Option.map_eq_some_iff] at stepped
      obtain ⟨-, run, runs, same⟩ := stepped
      subst next
      exact .inl ⟨t, a, rfl, runs⟩
  | kaRun t w =>
      simp only [timedStep, Option.ite_none_right_eq_some, Option.some.injEq] at stepped
      obtain ⟨⟨⟨positive, -⟩, -⟩, same⟩ := stepped
      subst next
      exact .inr ⟨t, w, rfl, positive, rfl⟩

private theorem timed_sound {timed : Timed} (reached : (timedBroker cfg).Reachable timed) :
    Sound timed.run.state := by
  have initially : ∀ timed, (timedBroker cfg).init timed → Sound timed.run.state := by
    intro timed initial
    obtain rfl : timed = timedStart := initial
    have reached : (broker cfg).Reachable start := .start rfl
    exact reachable_sound reached
  refine reached.invariant initially fun timed action next _ sound stepped => ?_
  rcases timedStep_cases stepped with ⟨t, a, -, runs⟩ | ⟨t, w, -, positive, same⟩
  · exact sound_steps sound (step_steps runs).2
  · rw [same, after_state]
    exact sound_kaRun sound w positive

/-! ### Clients without a keep-alive -/

/-- A condition on the session of every client. -/
def Sessions (holds : Session → Prop) (b : State) : Prop :=
  ∀ c p, b.clients c = some p → holds p.session

namespace Sessions

variable {holds : Session → Prop}

theorem putClient (sessions : Sessions holds b) {p' : Client} (new : holds p'.session) :
    Sessions holds (b.putClient c p') := by
  intro d q found
  by_cases same : d = c
  · subst d
    obtain rfl : p' = q := by simpa [State.putClient] using found
    exact new
  · exact sessions d q (by simpa [State.putClient, same] using found)

theorem evolves {closes : Bool} {task : Task} {b' : State} (sessions : Sessions holds b)
    (chain : Evolves cfg closes task c b b') : Sessions holds b' := by
  intro d p' found
  obtain ⟨p, present, session, -⟩ := chain.session found
  exact session ▸ sessions d p present

theorem parsed {s : Session} (sessions : Sessions holds b) (new : holds s) :
    Sessions holds (b.parsed c p s) :=
  have asked : Sessions holds { b with answers.mallocs := b.answers.mallocs.tail } := sessions
  have written : holds ({ p with session := s } : Client).session := new
  asked.putClient written

/-- A round keeps what its byte keeps. -/
theorem round {byte : Byte} (headed : ∀ s : Session, holds s → holds { s with state := .header })
    (sound : Sound b) (present : b.clients c = some p) (sessions : Sessions holds b)
    (leaves : (parsing cfg b p byte).Leaves holds) :
    RoundEnds (Sessions holds) (Sessions holds) (fun _ => Sessions holds)
      ((parserRound cfg c byte).run b) := by
  have round := sound.round present cfg byte
  generalize (parserRound cfg c byte).run b = outcome at round
  cases round with
  | next parses =>
      rw [parses] at leaves
      exact sessions.parsed leaves
  | refused parses fails =>
      rw [parses] at leaves
      exact ⟨fails, sessions.parsed leaves⟩
  | returned parses chain decided found =>
      rw [parses] at leaves
      have later := (sessions.parsed leaves).evolves chain
      exact later.putClient (headed _ (later c _ found))
  | failed may parses chain =>
      rw [parses] at leaves
      exact ⟨by decide, (sessions.parsed leaves).evolves chain⟩
  | broken parses chain fails =>
      rw [parses] at leaves
      exact (sessions.parsed leaves).evolves chain
  | left may parses chain fails =>
      rw [parses] at leaves
      exact (sessions.parsed leaves).evolves chain
  | stopped other => exact sessions

end Sessions

/-- A byte of the keep-alive field of a CONNECT is zero. -/
def ZeroByte (c : ClientId) (b : State) (byte : Byte) : Prop :=
  match b.clients c with
  | none => True
  | some p =>
      p.session.state = .connect .keepAlive0 ∨ p.session.state = .connect .keepAlive1 → byte = 0

instance (c : ClientId) (b : State) (byte : Byte) : Decidable (ZeroByte c b byte) :=
  match found : b.clients c with
  | none => .isTrue (by simp [ZeroByte, found])
  | some p =>
      decidable_of_iff
        (p.session.state = .connect .keepAlive0 ∨ p.session.state = .connect .keepAlive1 → byte = 0)
        (by simp [ZeroByte, found])

/-- Every CONNECT that a client sends asks for no keep-alive. -/
def AsksNone (cfg : Config) (timed : Timed) : TimedAction → Prop
  | .act _ (.parse c buf answers) => Along cfg c (ZeroByte c) buf { timed.run.state with answers }
  | _ => True

instance (timed : Timed) (action : TimedAction) : Decidable (AsksNone cfg timed action) :=
  match action with
  | .act _ (.parse c buf answers) =>
      decidableAlong cfg c (ZeroByte c) buf { timed.run.state with answers }
  | .act _ (.accept _ _ _ _) => .isTrue trivial
  | .act _ (.drop _ _ _) => .isTrue trivial
  | .act _ (.deliver _ _) => .isTrue trivial
  | .act _ (.gc _) => .isTrue trivial
  | .kaRun _ _ => .isTrue trivial

private theorem keepAliveAfter_zero {s : Session} {byte : Byte} (unasked : s.keepAlive = 0)
    (zero : s.state = .connect .keepAlive0 ∨ s.state = .connect .keepAlive1 → byte = 0) :
    keepAliveAfter s byte = 0 := by
  unfold keepAliveAfter
  split
  · rename_i here
    rw [zero (.inl here)]
    rfl
  · rename_i here
    rw [zero (.inr here), unasked]
    rfl
  · exact unasked

/-- No client has a keep-alive. -/
abbrev NoKeepAlive : State → Prop :=
  Sessions fun s => s.keepAlive = 0

private theorem noKeepAlive_round {byte : Byte} (sound : Sound b) (there : (b.clients c).isSome)
    (unasked : NoKeepAlive b) (zero : ZeroByte c b byte) :
    RoundEnds NoKeepAlive NoKeepAlive (fun _ => NoKeepAlive) ((parserRound cfg c byte).run b) := by
  obtain ⟨p, present⟩ := Option.isSome_iff_exists.mp there
  have zero' : p.session.state = .connect .keepAlive0 ∨ p.session.state = .connect .keepAlive1 →
      byte = 0 := by
    simpa [ZeroByte, present] using zero
  have leaves : (parsing cfg b p byte).Leaves fun last => last.keepAlive = keepAliveAfter p.session byte :=
    parserByte_keepAlive
  rw [keepAliveAfter_zero (unasked c p present) zero'] at leaves
  exact Sessions.round (fun s unasked => unasked) sound present unasked leaves

private theorem noKeepAlive_persistent : Persistent cfg NoKeepAlive where
  answers _ unasked := unasked
  accept {b} w isTls isWs ipAddress unasked := by
    have new : (cNew w isTls isWs ipAddress).session.keepAlive = 0 := rfl
    exact unasked.putClient (c := b.nextClient) new
  change _ change unasked := unasked.evolves (.single change)

private theorem noKeepAlive_reached {timed : Timed}
    (reached : ((timedBroker cfg).restrict (AsksNone cfg)).Reachable timed) :
    NoKeepAlive timed.run.state := by
  have initially : ∀ timed, ((timedBroker cfg).restrict (AsksNone cfg)).init timed →
      NoKeepAlive timed.run.state := by
    intro timed initial
    obtain rfl : timed = timedStart := initial
    exact fun c p found => by simp [timedStart, start] at found
  refine reached.invariant initially fun timed action next reached unasked stepped => ?_
  obtain ⟨asks, steps⟩ := System.restrict_step.mp stepped
  have sound := timed_sound reached.of_restrict
  rcases timedStep_cases steps with ⟨t, a, isAct, runs⟩ | ⟨t, w, -, positive, same⟩
  · subst isAct
    refine noKeepAlive_persistent.steps noKeepAlive_round sound unasked (fun c buf answers isParse => ?_)
      (step_steps runs).2
    subst isParse
    exact asks
  · rw [same, after_state, kaRun_run sound.regular.idle w positive]
    split
    · exact unasked
    · exact unasked

/-- In every state a run reaches, all connected clients with a keep-alive are
monitored only if there are none. So it is in runs in which no CONNECT asks for
a keep-alive. -/
theorem monitored_iff_none (cfg : Config) :
    (∀ timed, (timedBroker cfg).Reachable timed →
      (AllMonitored timed ↔ ∀ c p, timed.run.state.clients c = some p → p.state = .connected →
        p.session.keepAlive = 0)) ∧
      ∀ timed, ((timedBroker cfg).restrict (AsksNone cfg)).Reachable timed → AllMonitored timed := by
  constructor
  · intro timed reached
    constructor
    · intro monitored c p present connected
      by_contra kept
      exact not_monitored (timed_sound reached).regular.idle (monitored c p present connected kept)
    · intro unasked c p present connected kept
      exact absurd (unasked c p present connected) kept
  · intro timed reached c p present _ kept
    exact absurd (noKeepAlive_reached reached c p present) kept

/-- A CONNECT of protocol version 4 with an id of one byte and this keep-alive. -/
def connectAsking (keepAlive : Byte) : List Byte :=
  [0x10, 13, 0, 4, 77, 81, 84, 84, 4, 0, 0, keepAlive, 0, 1, 97]

/-- A client connects at the time 1 and sends its CONNECT at 2. -/
def asking (keepAlive : Byte) : List TimedAction :=
  [.act 1 (.accept 0 false false []), .act 2 (.parse 0 (connectAsking keepAlive) silent)]

/-- The state behind that, with anonymous clients allowed. -/
def asked (keepAlive : Byte) : Timed :=
  (((timedBroker (oneWorker true)).run timedStart (asking keepAlive)).getD timedStart)

private theorem asked_reachable (allowed : Timed → TimedAction → Prop)
    [∀ timed action, Decidable (allowed timed action)] {keepAlive : Byte}
    (runs : (((timedBroker (oneWorker true)).restrict allowed).run timedStart
      (asking keepAlive)).isSome = true) :
    ((timedBroker (oneWorker true)).restrict allowed).Reachable (asked keepAlive) := by
  obtain ⟨final, ran⟩ := Option.isSome_iff_exists.mp runs
  have same : asked keepAlive = final := by simp [asked, System.run_of_restrict ran]
  rw [same]
  exact System.Reachable.run (.start rfl) ran

private theorem asked_sixty_reachable : (timedBroker (oneWorker true)).Reachable (asked 60) :=
  (asked_reachable (fun _ _ => True) (by decide +kernel)).of_restrict

/-- A client whose CONNECT asks for none, and one whose CONNECT asks for 60 seconds. -/
theorem monitored_iff_none_asked :
    AllMonitored (asked 0) ∧
      (AllMonitored (asked 60) ↔ ∀ c p, (asked 60).run.state.clients c = some p →
        p.state = .connected → p.session.keepAlive = 0) :=
  ⟨(monitored_iff_none (oneWorker true)).2 _ (asked_reachable _ (by decide +kernel)),
    (monitored_iff_none (oneWorker true)).1 _ asked_sixty_reachable⟩

/-- The client that asks for 60 seconds is connected and in no bucket; nothing
disconnects it, however long it is silent. -/
theorem connected_client_not_monitored :
    (timedBroker (oneWorker true)).Reachable (asked 60) ∧
      ((asked 60).run.state.clients 0).map (fun p => (p.state, p.session.keepAlive)) =
        some (.connected, 60) ∧
      (∀ w k, ((asked 60).run.state.ka.table w).hashTable k = none) ∧
      ¬ AllMonitored (asked 60) := by
  have idle := (timed_sound asked_sixty_reachable).regular.idle
  have connected : ((asked 60).run.state.clients 0).map (fun p => (p.state, p.session.keepAlive)) =
      some (.connected, 60) := by decide +kernel
  refine ⟨asked_sixty_reachable, connected, idle.bucket, fun monitored => ?_⟩
  obtain ⟨p, present, fields⟩ := Option.map_eq_some_iff.mp connected
  obtain ⟨state, keepAlive⟩ := Prod.mk.inj fields
  exact not_monitored idle (monitored 0 p present state (by simp [keepAlive]))

end FbBroker.Broker
