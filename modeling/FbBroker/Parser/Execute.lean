import FbBroker.Lib.Command
import FbBroker.Parser.Frame

/-!
Contract: the loop of `mqtt_parser_execute` over any host.

A host is what the loop needs of its surroundings: the parser record in some
state, `malloc`, the callbacks and `c_disconnect_normal`, all of them arbitrary
commands on that state. A traced host records the calls with the parser record
they are given.

Owns the loop, its independence of how a stream is cut into buffers, and the
rule for bytes that only move the parser on.

Does not own any callback.
-/

set_option autoImplicit false

namespace FbBroker.Parser

open FbBroker.Packet FbBroker.Lib

variable {packet : List Byte} {byte : Byte}

/-- The surroundings of the loop, over states `State`. -/
structure Host (State : Type) where
  allowAnonymous : Bool
  /-- read the parser record -/
  session : Cmd Fault State Session
  /-- write the parser record -/
  setSession : Session → Cmd Fault State Unit
  malloc : Cmd Fault State Bool
  /-- note that the parser returns an error -/
  refused : Session → Cmd Fault State Unit
  /-- run a callback on the parser record; 0 on success -/
  callback : Session → Request → Cmd Fault State Nat
  /-- `c_disconnect_normal` -/
  disconnect : Session → Cmd Fault State Unit

namespace Host

variable {State : Type} (host : Host State)

/-- `parser->state = S_HEADER`. -/
def setHeader : Cmd Fault State Unit := do
  let s ← host.session
  host.setSession { s with state := .header }

/-- Behind a callback: a failure is returned, else the next packet is awaited. -/
def callbackReturned : Nat → Cmd Fault State (Option Int)
  | 0 => do
      host.setHeader
      pure none
  | _ + 1 => pure (some 1)

/-- What a round does with the outcome of its byte. -/
def conclude : Outcome → Cmd Fault State (Option Int)
  | .next s => do
      host.setSession s
      pure none
  | .ret s rv => do
      host.setSession s
      host.refused s
      pure (some rv)
  | .call s request => do
      host.setSession s
      let rv ← host.callback s request
      host.callbackReturned rv
  | .disconnect s => do
      host.setSession s
      host.disconnect s
      host.setHeader
      pure (some 0)
  | .stop fault => Cmd.fail fault

/-- One round of the loop; a value is what the function returns. -/
def round (byte : Byte) : Cmd Fault State (Option Int) := do
  let s ← host.session
  let mallocOk ← host.malloc
  host.conclude (parserByte host.allowAnonymous mallocOk s byte)

def mqttParserExecute : List Byte → Cmd Fault State Int
  | [] => pure 0
  | byte :: buf => do
      match ← host.round byte with
      | none => mqttParserExecute buf
      | some rv => pure rv

/-! ### Traces -/

/-- A call the loop makes, with the parser record it hands over. -/
inductive Call where
  | callback (s : Session) (request : Request)
  | disconnect (s : Session)

/-- Append a call to the trace. -/
def record (call : Call) : Cmd Fault (State × List Call) Unit :=
  modify fun state => (state.1, state.2 ++ [call])

/-- The host that also records the calls. -/
def traced : Host (State × List Call) where
  allowAnonymous := host.allowAnonymous
  session := host.session.beside
  setSession s := (host.setSession s).beside
  malloc := host.malloc.beside
  refused s := (host.refused s).beside
  callback s request := do
    record (.callback s request)
    (host.callback s request).beside
  disconnect s := do
    record (.disconnect s)
    (host.disconnect s).beside

/-! ### Segmentation -/

theorem execute_cons_none {buf : List Byte} {state next : State}
    (goesOn : (host.round byte).run state = (.ok none, next)) :
    (host.mqttParserExecute (byte :: buf)).run state = (host.mqttParserExecute buf).run next := by
  rw [mqttParserExecute, Cmd.bind_ok goesOn]

/-- A round that makes the loop return 0 has met a DISCONNECT. -/
theorem disconnected_of_round_zero {state next : State} {calls later : List Call}
    (returns : (host.traced.round byte).run (state, calls) = (.ok (some 0), (next, later))) :
    ∃ s, Call.disconnect s ∈ later := by
  obtain ⟨s, first, _, afterRead⟩ := Cmd.ok_of_bind returns
  obtain ⟨mallocOk, second, _, concludes⟩ := Cmd.ok_of_bind afterRead
  cases outcome : parserByte host.traced.allowAnonymous mallocOk s byte with
  | next s' =>
      rw [outcome] at concludes
      obtain ⟨_, _, _, last⟩ := Cmd.ok_of_bind concludes
      simp at last
  | ret s' rv =>
      rw [outcome] at concludes
      obtain ⟨_, _, _, refuses⟩ := Cmd.ok_of_bind concludes
      obtain ⟨_, _, _, last⟩ := Cmd.ok_of_bind refuses
      have zero : rv = 0 := by simpa using congrArg Prod.fst last
      exact absurd zero (parserByte_ret outcome)
  | call s' request =>
      rw [outcome] at concludes
      obtain ⟨_, _, _, called⟩ := Cmd.ok_of_bind concludes
      obtain ⟨rv, _, _, returned⟩ := Cmd.ok_of_bind called
      cases rv with
      | zero =>
          obtain ⟨_, _, _, last⟩ := Cmd.ok_of_bind returned
          simp at last
      | succ rv => simp [callbackReturned] at returned
  | disconnect s' =>
      rw [outcome] at concludes
      obtain ⟨_, third, _, closes⟩ := Cmd.ok_of_bind concludes
      obtain ⟨_, fourth, closed, resets⟩ := Cmd.ok_of_bind closes
      obtain ⟨_, fifth, reset, last⟩ := Cmd.ok_of_bind resets
      -- the record is appended first; what follows runs beside the trace
      have recorded : fourth.2 = third.2 ++ [.disconnect s'] :=
        (congrArg (fun result => result.2.2) closed).symm
      have kept : fifth.2 = fourth.2 := by
        obtain ⟨_, _, read, written⟩ := Cmd.ok_of_bind reset
        exact (congrArg (fun result => result.2.2) written).symm.trans
          (congrArg (fun result => result.2.2) read).symm
      have final : later = fifth.2 := (congrArg (fun result => result.2.2) last).symm
      exact ⟨s', by rw [final, kept, recorded]; simp⟩
  | stop fault =>
      rw [outcome] at concludes
      simp [conclude] at concludes

/-- Parsing does not depend on how a stream is cut: a buffer that was taken without an
error and without a DISCONNECT can be joined with the next one. -/
theorem parsing_independent_of_segmentation {first second : List Byte} {state next : State} {before calls : List Call}
    (returned : (host.traced.mqttParserExecute first).run (state, before) = (.ok 0, (next, calls)))
    (noDisconnect : ∀ s, Call.disconnect s ∉ calls) :
    (host.traced.mqttParserExecute (first ++ second)).run (state, before) =
      (host.traced.mqttParserExecute second).run (next, calls) := by
  induction first generalizing state before with
  | nil =>
      obtain ⟨_, same⟩ := Prod.mk.inj returned
      rw [List.nil_append, same]
  | cons byte first inductionHypothesis =>
      obtain ⟨value, ⟨middle, during⟩, went, rest⟩ := Cmd.ok_of_bind returned
      cases value with
      | none =>
          rw [List.cons_append, execute_cons_none _ went]
          exact inductionHypothesis rest
      | some rv =>
          obtain ⟨zero, same⟩ := Prod.mk.inj rest
          obtain rfl : rv = 0 := Except.ok.inj zero
          rw [same] at went
          obtain ⟨s, closed⟩ := disconnected_of_round_zero host went
          exact absurd closed (noDisconnect s)

/-- A host that keeps the parser record only; every call succeeds. -/
def recorder (allowAnonymous : Bool) : Host Session where
  allowAnonymous := allowAnonymous
  session := get
  setSession s := set s
  malloc := pure true
  refused _ := pure ()
  callback _ _ := pure 0
  disconnect _ := pure ()

/-- A PINGREQ that arrives in two pieces behind another one. -/
theorem parsing_independent_of_segmentation_ping :
    ∃ s next,
      ((recorder false).traced.mqttParserExecute [0xc0, 0, 0xc0]).run (mqttParserInit, []) =
          (.ok 0, next, [.callback s .ping]) ∧
        ((recorder false).traced.mqttParserExecute ([0xc0, 0, 0xc0] ++ [0])).run
            (mqttParserInit, []) =
          ((recorder false).traced.mqttParserExecute [0]).run (next, [.callback s .ping]) :=
  ⟨_, _, rfl, parsing_independent_of_segmentation (recorder false) rfl (by simp)⟩

/-! ### Bytes that move the parser on -/

variable {host} {At : Session → State → Prop}

/-- The states in which the host holds a parser record that it can write, with
every `malloc` answered alike. -/
structure Answers (host : Host State) (mallocOk : Bool) (At : Session → State → Prop) : Prop where
  session : ∀ {s state}, At s state → host.session.run state = (.ok s, state)
  setSession : ∀ {s state} (next : Session), At s state →
    ∃ later, (host.setSession next).run state = (.ok (), later) ∧ At next later
  malloc : ∀ {s state}, At s state →
    ∃ later, host.malloc.run state = (.ok mallocOk, later) ∧ At s later

theorem recorder_answers (allowAnonymous : Bool) :
    (recorder allowAnonymous).Answers true fun s state => s = state where
  session same := by rw [same]; rfl
  setSession next _ := ⟨next, rfl, rfl⟩
  malloc same := ⟨_, rfl, same⟩

/-- A state next to a fixed trace. -/
def Under (At : Session → State → Prop) (calls : List Call) (s : Session)
    (state : State × List Call) : Prop :=
  At s state.1 ∧ state.2 = calls

theorem Under.intro {s : Session} {state : State} (stored : At s state) (calls : List Call) :
    Under At calls s (state, calls) :=
  ⟨stored, rfl⟩

section Rounds

variable {mallocOk : Bool}

/-- A record that is stored is stored under a trace. -/
theorem Answers.traced (answers : host.Answers mallocOk At) (calls : List Call) :
    host.traced.Answers mallocOk (Under At calls) where
  session stored := Cmd.beside_run (answers.session stored.1) _
  setSession next stored := by
    obtain ⟨later, runs, holds⟩ := answers.setSession next stored.1
    exact ⟨(later, _), Cmd.beside_run runs _, holds, stored.2⟩
  malloc stored := by
    obtain ⟨later, runs, holds⟩ := answers.malloc stored.1
    exact ⟨(later, _), Cmd.beside_run runs _, holds, stored.2⟩

theorem Answers.setHeader (answers : host.Answers mallocOk At) {s : Session} {state : State}
    (stored : At s state) :
    ∃ later, host.setHeader.run state = (.ok (), later) ∧ At { s with state := .header } later := by
  obtain ⟨later, runs, holds⟩ := answers.setSession { s with state := .header } stored
  refine ⟨later, ?_, holds⟩
  rw [Host.setHeader, Cmd.bind_ok (answers.session stored), runs]

/-- What is left of a round once its byte has been parsed. -/
theorem Answers.round (answers : host.Answers mallocOk At) {s : Session} {state : State}
    (stored : At s state) (byte : Byte) :
    ∃ later, At s later ∧ (host.round byte).run state =
      (host.conclude (parserByte host.allowAnonymous mallocOk s byte)).run later := by
  obtain ⟨later, runs, holds⟩ := answers.malloc stored
  refine ⟨later, holds, ?_⟩
  rw [Host.round, Cmd.bind_ok (answers.session stored), Cmd.bind_ok runs]

theorem Answers.round_next (answers : host.Answers mallocOk At) {s next : Session} {state : State}
    (stored : At s state)
    (parses : parserByte host.allowAnonymous mallocOk s byte = .next next) :
    ∃ later, (host.round byte).run state = (.ok none, later) ∧ At next later := by
  obtain ⟨middle, still, runs⟩ := answers.round stored byte
  obtain ⟨later, written, holds⟩ := answers.setSession next still
  refine ⟨later, ?_, holds⟩
  rw [runs, parses, conclude, Cmd.bind_ok written, Cmd.run_pure]

/-- A round that completes a packet runs the callback, and what is left follows it. -/
theorem Answers.round_call (answers : host.Answers mallocOk At) {s called : Session} {state : State}
    (stored : At s state) {request : Request}
    (parses : parserByte host.allowAnonymous mallocOk s byte = .call called request) :
    ∃ later, At called later ∧ (host.round byte).run state =
      (host.callback called request >>= host.callbackReturned).run later := by
  obtain ⟨middle, still, runs⟩ := answers.round stored byte
  obtain ⟨later, written, holds⟩ := answers.setSession called still
  refine ⟨later, holds, ?_⟩
  rw [runs, parses, conclude, Cmd.bind_ok written]

/-- A round that rejects a packet notes it and returns. -/
theorem Answers.round_ret (answers : host.Answers mallocOk At) {s last : Session} {state : State}
    (stored : At s state) {rv : Int}
    (parses : parserByte host.allowAnonymous mallocOk s byte = .ret last rv) :
    ∃ later, At last later ∧ (host.round byte).run state =
      (host.refused last >>= fun _ => pure (some rv)).run later := by
  obtain ⟨middle, still, runs⟩ := answers.round stored byte
  obtain ⟨later, written, holds⟩ := answers.setSession last still
  refine ⟨later, holds, ?_⟩
  rw [runs, parses, conclude, Cmd.bind_ok written]

/-- Behind a callback that succeeded the next packet is awaited. -/
theorem Answers.callbackReturned_zero (answers : host.Answers mallocOk At) {s : Session}
    {state : State} (stored : At s state) :
    ∃ later, (host.callbackReturned 0).run state = (.ok none, later) ∧
      At { s with state := .header } later := by
  obtain ⟨later, runs, holds⟩ := answers.setHeader stored
  refine ⟨later, ?_, holds⟩
  rw [Host.callbackReturned, Cmd.bind_ok runs, Cmd.run_pure]

end Rounds

/-! ### Bytes and the outcome of the last one -/

/-- The bytes move the parser on, up to the last one, which has the given
outcome; every allocation is answered alike. -/
inductive Parses (allowAnonymous mallocOk : Bool) : Session → List Byte → Outcome → Prop
  | last {s : Session} {byte : Byte} {outcome : Outcome}
      (parses : parserByte allowAnonymous mallocOk s byte = outcome) :
      Parses allowAnonymous mallocOk s [byte] outcome
  | more {s next : Session} {byte : Byte} {rest : List Byte} {outcome : Outcome}
      (parses : parserByte allowAnonymous mallocOk s byte = .next next)
      (follows : Parses allowAnonymous mallocOk next rest outcome) :
      Parses allowAnonymous mallocOk s (byte :: rest) outcome

section Parses

variable {allowAnonymous mallocOk : Bool} {s next : Session} {first second : List Byte} {outcome : Outcome}

theorem Parses.append (moves : Parses allowAnonymous mallocOk s first (.next next))
    (follows : Parses allowAnonymous mallocOk next second outcome) :
    Parses allowAnonymous mallocOk s (first ++ second) outcome := by
  generalize ends : Outcome.next next = middle at moves
  induction moves with
  | last parses => exact .more (parses.trans ends.symm) follows
  | more parses _ inductionHypothesis => exact .more parses (inductionHypothesis ends)

theorem Parses.ne_nil (parses : Parses allowAnonymous mallocOk s first outcome) : first ≠ [] := by
  cases parses <;> simp

/-- All bytes but the last one move the parser on. -/
theorem Parses.dropLast (parses : Parses allowAnonymous mallocOk s first outcome) :
    first.dropLast = [] ∨
      ∃ next, Parses allowAnonymous mallocOk s first.dropLast (.next next) := by
  induction parses with
  | last _ => exact .inl rfl
  | @more s next byte rest outcome moves follows inductionHypothesis =>
      rw [List.dropLast_cons_of_ne_nil follows.ne_nil]
      rcases inductionHypothesis with single | ⟨final, front⟩
      · rw [single]
        exact .inr ⟨next, .last moves⟩
      · exact .inr ⟨final, .more moves front⟩

end Parses

/-- The session behind bytes that only move the parser on, each allocation served. -/
def advance (allowAnonymous : Bool) : Session → List Byte → Option Session
  | s, [] => some s
  | s, byte :: buf =>
      match parserByte allowAnonymous true s byte with
      | .next next => advance allowAnonymous next buf
      | _ => none

theorem advance_cons {allowAnonymous : Bool} {s next : Session} {buf : List Byte}
    (parses : parserByte allowAnonymous true s byte = .next next) :
    advance allowAnonymous s (byte :: buf) = advance allowAnonymous next buf := by
  rw [advance, parses]

theorem advance_append {allowAnonymous : Bool} {s middle : Session} {front buf : List Byte}
    (moves : advance allowAnonymous s front = some middle) :
    advance allowAnonymous s (front ++ buf) = advance allowAnonymous middle buf := by
  induction front generalizing s with
  | nil =>
      obtain rfl : s = middle := Option.some.inj moves
      rfl
  | cons byte front inductionHypothesis =>
      cases parses : parserByte allowAnonymous true s byte with
      | next next =>
          rw [advance_cons parses] at moves
          rw [List.cons_append, advance_cons parses, inductionHypothesis moves]
      | _ => simp [advance, parses] at moves

/-- The last of the bytes that are parsed stands behind those that move the parser on. -/
theorem Parses.advance {allowAnonymous : Bool} {s : Session} {outcome : Outcome}
    (parses : Parses allowAnonymous true s packet outcome) :
    ∃ front byte next, packet = front ++ [byte] ∧ Host.advance allowAnonymous s front = some next ∧
      parserByte allowAnonymous true next byte = outcome := by
  induction parses with
  | last parses => exact ⟨[], _, _, rfl, rfl, parses⟩
  | @more s next byte rest outcome moves _ inductionHypothesis =>
      obtain ⟨front, last, final, parts, goesOn, ends⟩ := inductionHypothesis
      refine ⟨byte :: front, last, final, by rw [parts]; rfl, ?_, ends⟩
      rw [advance_cons moves, goesOn]

/-- The loop follows the bytes that move the parser on. -/
theorem Answers.execute_advance (answers : host.Answers true At) {s last : Session} {state : State}
    (stored : At s state) {buf : List Byte} (moves : advance host.allowAnonymous s buf = some last) :
    ∃ later, At last later ∧ ∀ rest,
      (host.mqttParserExecute (buf ++ rest)).run state = (host.mqttParserExecute rest).run later := by
  induction buf generalizing s state with
  | nil =>
      obtain rfl : s = last := Option.some.inj moves
      exact ⟨state, stored, fun _ => rfl⟩
  | cons byte buf inductionHypothesis =>
      cases parses : parserByte host.allowAnonymous true s byte with
      | next next =>
          rw [advance_cons parses] at moves
          obtain ⟨middle, runs, holds⟩ := answers.round_next stored parses
          obtain ⟨later, held, follows⟩ := inductionHypothesis holds moves
          refine ⟨later, held, fun rest => ?_⟩
          rw [List.cons_append, execute_cons_none host runs, follows]
      | _ => simp [advance, parses] at moves

/-! ### The loop over parsed bytes -/

section Loop

variable {mallocOk : Bool}

/-- The loop follows the bytes up to the round of the last one. -/
theorem Answers.execute (answers : host.Answers mallocOk At) {s : Session} {state : State}
    {outcome : Outcome} (stored : At s state)
    (parses : Parses host.allowAnonymous mallocOk s packet outcome) :
    ∃ last byte later, At last later ∧
      parserByte host.allowAnonymous mallocOk last byte = outcome ∧
      ∀ rest, (host.mqttParserExecute (packet ++ rest)).run state =
        (host.mqttParserExecute (byte :: rest)).run later := by
  induction parses generalizing state with
  | last parses => exact ⟨_, _, state, stored, parses, fun _ => rfl⟩
  | more parses _ inductionHypothesis =>
      obtain ⟨middle, runs, holds⟩ := answers.round_next stored parses
      obtain ⟨last, byte, later, held, ends, follows⟩ := inductionHypothesis holds
      refine ⟨last, byte, later, held, ends, fun rest => ?_⟩
      rw [List.cons_append, execute_cons_none host runs, follows]

/-- Bytes that only move the parser on are consumed without a call. -/
theorem Answers.execute_next (answers : host.Answers mallocOk At) {s next : Session} {state : State}
    (stored : At s state)
    (parses : Parses host.allowAnonymous mallocOk s packet (.next next)) :
    ∃ later, (host.traced.mqttParserExecute packet).run (state, []) = (.ok 0, later, []) ∧
      At next later := by
  obtain ⟨last, byte, middle, held, ends, follows⟩ :=
    (answers.traced []).execute (.intro stored []) parses
  obtain ⟨⟨later, _⟩, runs, ⟨holds, same⟩⟩ := (answers.traced []).round_next held ends
  refine ⟨later, ?_, holds⟩
  have whole := follows []
  rw [List.append_nil, execute_cons_none _ runs] at whole
  exact whole.trans (congrArg (fun calls => (Except.ok 0, later, calls)) same)

/-- All bytes but the last one are consumed without a call. -/
theorem Answers.execute_dropLast (answers : host.Answers mallocOk At) {s : Session} {state : State}
    {outcome : Outcome} (stored : At s state)
    (parses : Parses host.allowAnonymous mallocOk s packet outcome) :
    ∃ quiet, (host.traced.mqttParserExecute packet.dropLast).run (state, []) = (.ok 0, quiet, []) := by
  rcases parses.dropLast with empty | ⟨next, front⟩
  · rw [empty]
    exact ⟨state, rfl⟩
  · obtain ⟨quiet, runs, _⟩ := answers.execute_next stored front
    exact ⟨quiet, runs⟩

/-- Bytes whose last one is rejected make the loop return, without a call. -/
theorem Answers.execute_ret (answers : host.Answers mallocOk At) {s last : Session} {state : State}
    {rv : Int} (stored : At s state)
    (parses : Parses host.allowAnonymous mallocOk s packet (.ret last rv))
    (refuses : ∀ state, At last state → ∃ later, (host.refused last).run state = (.ok (), later))
    (rest : List Byte) :
    ∃ later, (host.traced.mqttParserExecute (packet ++ rest)).run (state, []) =
      (.ok rv, later, []) := by
  obtain ⟨before, byte, middle, held, ends, follows⟩ :=
    (answers.traced []).execute (.intro stored []) parses
  obtain ⟨⟨noted, _⟩, ⟨holds, rfl⟩, runs⟩ := (answers.traced []).round_ret held ends
  obtain ⟨later, refused⟩ := refuses noted holds
  refine ⟨later, ?_⟩
  have notes : (host.traced.refused last).run (noted, []) = (.ok (), later, []) :=
    Cmd.beside_run refused _
  have returns : (host.traced.round byte).run middle = (.ok (some rv), later, []) := by
    rw [runs, Cmd.bind_ok notes, Cmd.run_pure]
  rw [follows, mqttParserExecute, Cmd.bind_ok returns, Cmd.run_pure]

/-- The callback returns a value on a parser record and leaves one behind. -/
def CallbackReturns (host : Host State) (At : Session → State → Prop) (called : Session)
    (request : Request) (rv : Nat) : Prop :=
  ∀ state, At called state →
    ∃ later kept, (host.callback called request).run state = (.ok rv, later) ∧ At kept later

theorem recorder_returns (allowAnonymous : Bool) (called : Session) (request : Request) :
    (recorder allowAnonymous).CallbackReturns (fun s state => s = state) called request 0 :=
  fun state same => ⟨state, called, rfl, same⟩

/-- A packet handed to its callback: the callback is called once, its failure is
returned, and behind its success the next packet is awaited. -/
theorem Answers.execute_call (answers : host.Answers mallocOk At) {s called : Session} {state : State}
    {request : Request} {rv : Nat} (stored : At s state)
    (parses : Parses host.allowAnonymous mallocOk s packet (.call called request))
    (returns : host.CallbackReturns At called request rv) :
    ∃ later, (host.traced.mqttParserExecute packet).run (state, []) =
        (.ok (if rv = 0 then 0 else 1), later, [.callback called request]) ∧
      (rv = 0 → ∃ last, At last later ∧ last.state = .header) := by
  obtain ⟨before, byte, middle, held, ends, follows⟩ :=
    (answers.traced []).execute (.intro stored []) parses
  obtain ⟨⟨entered, _⟩, ⟨holds, rfl⟩, runs⟩ := (answers.traced []).round_call held ends
  obtain ⟨after, kept, served, keeps⟩ := returns entered holds
  have recorded : (host.traced.callback called request).run (entered, []) =
      (.ok rv, after, [.callback called request]) := Cmd.beside_run served _
  have whole := follows []
  rw [List.append_nil] at whole
  cases rv with
  | zero =>
      obtain ⟨⟨later, _⟩, resets, ⟨waits, rfl⟩⟩ :=
        (answers.traced [.callback called request]).callbackReturned_zero (.intro keeps _)
      refine ⟨later, ?_, fun _ => ⟨_, waits, rfl⟩⟩
      rw [whole, execute_cons_none _ (runs.trans ((Cmd.bind_ok recorded).trans resets))]
      rfl
  | succ rv =>
      refine ⟨after, ?_, fun never => absurd never (Nat.succ_ne_zero rv)⟩
      have fails : (host.traced.round byte).run middle =
          (.ok (some 1), after, [.callback called request]) := by
        rw [runs, Cmd.bind_ok recorded, callbackReturned, Cmd.run_pure]
      rw [whole, mqttParserExecute, Cmd.bind_ok fails, Cmd.run_pure, if_neg (Nat.succ_ne_zero rv)]

end Loop

end Host

end FbBroker.Parser
