import FbBroker.Broker.WebSocket

/-!
Contract: what a WebSocket protocol error does to a session.

Owns the bytes a client's WebSocket parser has read, the error that ends its reading,
and the runs in which nothing of a client reaches `c_parse` behind the error: those in
which no chunk that breaks the protocol leaves the session open. `c_ws_recv` ignores
the code of `ws_parser_execute`, so such a chunk is followed by the next one.

Does not own what the parser takes for an error.
-/

set_option autoImplicit false

namespace FbBroker.Broker

open FbBroker.Lib FbBroker.Parser FbBroker.Ws

/-- What the WebSocket parser makes of all bytes of a client, up to the first byte at
which it reports an error. -/
def Sockets.read (sockets : Sockets) (c : ClientId) : Report WsParser WsEvent WsError :=
  feed wsByte wsParserInit (sockets.received c)

/-- A protocol error ends the session: the client is gone, or the broker with it, and
nothing behind the error reached `c_parse`. -/
def EndsSession (ws : WsRun) (c : ClientId) : Prop :=
  (ws.sockets.read c).error ≠ none →
    (ws.run.state.clients c = none ∨ ws.run.ended = true) ∧
      (ws.sockets.passed c).flatten <+: dataBytes (ws.sockets.read c).events

/-- The chunk of a call of `c_ws_recv` keeps to the protocol, or its MQTT bytes close
the session. -/
def Orderly (cfg : Config) (ws : WsRun) : WsAction → Bool
  | .broker _ => true
  | .wsRecv c data http answers =>
      match (beforeWs cfg c data http).run ({ ws.run.state with answers }, ws.sockets) with
      | (.ok (some rest), b, sockets) =>
          (wsTrace (sockets.ws c).wsParser rest).error.isNone ||
            !SessionStays cfg c (wsPayload (sockets.ws c).wsParser rest) b
      | _ => true

variable {cfg : Config} {c : ClientId} {sockets sockets' : Sockets}

/-! ### Reading on -/

/-- The parser read all bytes of the client, and what they carry was passed on. -/
structure Whole (sockets : Sockets) (c : ClientId) : Prop where
  clean : (sockets.read c).error = none
  parser : (sockets.ws c).wsParser = (sockets.read c).state
  passed : (sockets.passed c).flatten = dataBytes (sockets.read c).events

theorem Sockets.read_same (same : SameStreams sockets sockets') (c : ClientId) :
    sockets'.read c = sockets.read c := by
  rw [Sockets.read, Sockets.read, same.received]

theorem Whole.same (same : SameStreams sockets sockets') (whole : Whole sockets c) : Whole sockets' c where
  clean := by rw [Sockets.read_same same, whole.clean]
  parser := by rw [Sockets.read_same same, same.wsParser, whole.parser]
  passed := by rw [Sockets.read_same same, same.passed, whole.passed]

/-- The bytes of one more chunk are read behind those of the earlier ones. -/
theorem Whole.read_chunk (whole : Whole sockets c) (data : List Byte) :
    feed wsByte wsParserInit (sockets.received c ++ data) =
      ⟨(sockets.read c).events ++ (wsTrace (sockets.ws c).wsParser data).report.events,
        (wsTrace (sockets.ws c).wsParser data).error, (wsTrace (sockets.ws c).wsParser data).parser⟩ := by
  have clean := whole.clean
  have parser := whole.parser
  rw [Sockets.read] at clean parser
  rw [feed_append, Report.andThen, clean]
  dsimp only
  rw [← parser, ← wsTrace_report (sockets.ws c).wsParser]
  rfl

private theorem dataBytes_report (trace : WsTrace) : dataBytes trace.report.events = (dataChunks trace.calls).flatten :=
  dataBytes_calls trace.calls

/-- What reached `c_parse` for a client: all that its bytes carry while it is there, and
never more than they carry up to the first error. -/
structure Tracks (ws : WsRun) (c : ClientId) : Prop where
  whole : ws.run.ended = false → (ws.run.state.clients c).isSome → Whole ws.sockets c
  within : (ws.sockets.passed c).flatten <+: dataBytes (ws.sockets.read c).events

theorem Tracks.endsSession {ws : WsRun} (tracks : Tracks ws c) : EndsSession ws c := by
  intro error
  refine ⟨?_, tracks.within⟩
  by_contra going
  obtain ⟨there, running⟩ := not_or.mp going
  have whole := tracks.whole (by simpa using running) (by simpa [Option.isSome_iff_ne_none] using there)
  exact error whole.clean

/-- A step that leaves the streams of a client as they are, and does not bring it back. -/
theorem Tracks.same {ws next : WsRun} (tracks : Tracks ws c) (going : ws.run.ended = false)
    (there : (next.run.state.clients c).isSome → (ws.run.state.clients c).isSome)
    (read : next.sockets.received c = ws.sockets.received c)
    (passed : next.sockets.passed c = ws.sockets.passed c)
    (parser : (next.sockets.ws c).wsParser = (ws.sockets.ws c).wsParser) : Tracks next c := by
  have same : next.sockets.read c = ws.sockets.read c := by rw [Sockets.read, Sockets.read, read]
  refine ⟨fun _ present => ?_, by rw [passed, same]; exact tracks.within⟩
  have whole := tracks.whole going (there present)
  exact ⟨same ▸ whole.clean, by rw [parser, same, whole.parser], by rw [passed, same, whole.passed]⟩

/-! ### Steps -/

/-- The streams of the other clients are left as they are. -/
theorem Tracks.other {ws next : WsRun} {d : ClientId} (tracks : Tracks ws d) (going : ws.run.ended = false)
    (fewer : Fewer ws.run.state next.run.state) (same : SameStreams ws.sockets sockets')
    (read : next.sockets.received d = sockets'.received d)
    (passed : next.sockets.passed d = sockets'.passed d)
    (parser : (next.sockets.ws d).wsParser = (sockets'.ws d).wsParser) : Tracks next d :=
  tracks.same going (fewer d) (by rw [read, same.received]) (by rw [passed, same.passed])
    (by rw [parser, same.wsParser])

/-- A chunk of which everything, or a part, reached `c_parse`. -/
theorem Whole.within_chunk (whole : Whole sockets c) {data : List Byte} {chunks : List (List Byte)}
    (within : chunks <+: dataChunks (wsTrace (sockets.ws c).wsParser data).calls) :
    (sockets.passed c ++ chunks).flatten <+:
      dataBytes (feed wsByte wsParserInit (sockets.received c ++ data)).events := by
  obtain ⟨rest, all⟩ := within
  rw [whole.read_chunk, dataBytes_append, dataBytes_report, ← all, List.flatten_append, whole.passed,
    List.flatten_append, ← List.append_assoc]
  exact List.prefix_append _ _

private theorem tracks_wsRecv {ws : WsRun} {data : List Byte} {http : HttpAnswer} {answers : Answers}
    (sound : Sound ws.run.state) (going : ws.run.ended = false) (there : (ws.run.state.clients c).isSome)
    (tracks : ∀ d, Tracks ws d)
    (orderly : Orderly cfg ws (.wsRecv c data http answers) = true) :
    let next := wsAfter ((cWsRecv cfg c data http).run ({ ws.run.state with answers }, ws.sockets))
    Sound next.run.state ∧ ∀ d, Tracks next d := by
  intro next
  have receives : Receives cfg c data http { ws.run.state with answers } ws.sockets
      ((cWsRecv cfg c data http).run ({ ws.run.state with answers }, ws.sockets)) :=
    cWsRecv_receives data http ws.sockets (sound.answers answers)
  have after := wsAfter_eq ((cWsRecv cfg c data http).run ({ ws.run.state with answers }, ws.sockets))
  generalize outcome : (cWsRecv cfg c data http).run ({ ws.run.state with answers }, ws.sockets) = result
    at receives after
  have isNext : next = wsAfter result := congrArg wsAfter outcome
  rw [isNext]
  rw [after.1]
  have whole : Whole ws.sockets c := (tracks c).whole going there
  cases receives with
  | nothing idle later fewer same =>
      refine ⟨later, fun d => (tracks d).other going (after.1 ▸ fewer) same ?_ ?_ ?_⟩ <;> rw [after.2]
  | @read rest d last sockets' before same stays later there fewer =>
      refine ⟨later, fun e => ?_⟩
      by_cases own : e = c
      · subst e
        have clean : (wsTrace (sockets'.ws c).wsParser rest).error = none := by
          simpa [Orderly, before, stays] using orderly
        have read := (whole.same same).read_chunk rest
        refine ⟨fun _ _ => ?_, ?_⟩
        · constructor
          · simp [Sockets.read, after.2, read, clean]
          · simp [Sockets.read, after.2, read]
          · simp [Sockets.read, after.2, read, dataBytes_append, dataBytes_report, (whole.same same).passed]
        · simpa [Sockets.read, after.2] using (whole.same same).within_chunk (List.prefix_refl _)
      · refine (tracks e).other going (after.1 ▸ fewer) same ?_ ?_ ?_ <;> rw [after.2] <;> simp [own]
  | @ended rest d last sockets' fault chunks before same ends within gone later fewer =>
      refine ⟨later, fun e => ?_⟩
      by_cases own : e = c
      · subst e
        refine ⟨fun running present => ?_, ?_⟩
        · have freed : fault = .useAfterFree := by
            cases fault <;> simp_all [wsAfter]
          rw [after.1, gone freed] at present
          cases present
        · simpa [Sockets.read, after.2] using (whole.same same).within_chunk within
      · refine (tracks e).other going (after.1 ▸ fewer) same ?_ ?_ ?_ <;> rw [after.2] <;> simp [own]

private theorem tracks_clear {ws next : WsRun} (tracks : Tracks ws c) (going : ws.run.ended = false) {d : ClientId}
    (fewer : c ≠ d → (next.run.state.clients c).isSome → (ws.run.state.clients c).isSome)
    (cleared : next.sockets = ws.sockets.clear d) : Tracks next c := by
  by_cases own : c = d
  · subst d
    have empty : next.sockets.read c = .still wsParserInit := by
      simp [Sockets.read, cleared, Sockets.clear, Lib.feed]
    refine ⟨fun _ _ => ⟨by rw [empty]; rfl, ?_, ?_⟩, ?_⟩
    · rw [empty, cleared]
      simp [Sockets.clear, cWsInit, Report.still]
    · rw [empty, cleared]
      simp [Sockets.clear, Report.still, dataBytes]
    · rw [cleared]
      simp [Sockets.clear]
  · refine tracks.same going (fewer own) ?_ ?_ ?_ <;> rw [cleared] <;> simp [Sockets.clear, own]

private theorem tracks_step {ws next : WsRun} {action : WsAction} (sound : Sound ws.run.state)
    (tracks : ∀ d, Tracks ws d) (orderly : Orderly cfg ws action = true)
    (stepped : wsStep cfg ws action = some next) : Sound next.run.state ∧ ∀ d, Tracks next d := by
  cases wsStep_cases stepped with
  | @broker action run runs =>
      obtain ⟨going, steps⟩ := step_steps runs
      refine ⟨sound_steps sound steps, fun d => ?_⟩
      have fewer := steps_fewer sound steps d
      cases action with
      | accept w isTls isWs ipAddress =>
          refine tracks_clear (tracks d) going (fun other present => ?_) rfl
          exact (fewer present).resolve_right fun accepted => other accepted.1
      | _ =>
          refine (tracks d).same going (fun present => ?_) rfl rfl rfl
          refine (fewer present).resolve_right ?_
          rintro ⟨-, _, _, _, _, accepts⟩
          cases accepts
  | wsRecv going there data http answers => exact tracks_wsRecv sound going there tracks orderly

/-- A chunk that breaks the protocol and leaves the session open. -/
theorem stays_wsRecv {ws : WsRun} {data : List Byte} {http : HttpAnswer} {answers : Answers}
    (sound : Sound ws.run.state) (whole : Whole ws.sockets c)
    (disorderly : Orderly cfg ws (.wsRecv c data http answers) = false) :
    ¬EndsSession (wsAfter ((cWsRecv cfg c data http).run ({ ws.run.state with answers }, ws.sockets))) c := by
  have receives : Receives cfg c data http { ws.run.state with answers } ws.sockets
      ((cWsRecv cfg c data http).run ({ ws.run.state with answers }, ws.sockets)) :=
    cWsRecv_receives data http ws.sockets (sound.answers answers)
  rw [Orderly] at disorderly
  split at disorderly
  · rename_i rest b sockets' before
    obtain ⟨errs, stays⟩ : (wsTrace (sockets'.ws c).wsParser rest).error ≠ none ∧
        SessionStays cfg c (wsPayload (sockets'.ws c).wsParser rest) b = true := by
      simpa [Option.isSome_iff_ne_none] using disorderly
    generalize (cWsRecv cfg c data http).run ({ ws.run.state with answers }, ws.sockets) = outcome at receives
    cases receives with
    | nothing idle =>
        rw [idle rest _ before] at errs
        exact absurd (by simp [wsTrace]) errs
    | @read _ _ last _ again same _ _ there =>
        obtain ⟨read, same'⟩ := Prod.mk.inj (before.symm.trans again)
        cases same'
        cases read
        intro ends
        obtain ⟨gone, -⟩ := ends (by simpa [wsAfter, Sockets.read, (whole.same same).read_chunk] using errs)
        rcases gone with gone | ended
        · replace gone : last.clients c = none := gone
          rw [gone] at there
          cases there
        · cases ended
    | ended again same ends =>
        obtain ⟨read, same'⟩ := Prod.mk.inj (before.symm.trans again)
        cases same'
        cases read
        rw [stays] at ends
        cases ends
  · cases disorderly

/-! ### Runs -/

private theorem tracks_start (c : ClientId) : Tracks wsStart c := by
  refine ⟨fun _ there => ?_, ?_⟩
  · simp [wsStart, start] at there
  · simp [wsStart]

private theorem orderly_tracks {ws : WsRun}
    (reached : ((wsBroker cfg).restrict fun ws action => Orderly cfg ws action = true).Reachable ws) :
    Sound ws.run.state ∧ ∀ d, Tracks ws d := by
  have initially : ∀ ws, ((wsBroker cfg).restrict fun ws action => Orderly cfg ws action = true).init ws →
      Sound ws.run.state ∧ ∀ d, Tracks ws d := by
    intro ws initial
    obtain rfl : ws = wsStart := initial
    have reached : (broker cfg).Reachable start := .start rfl
    exact ⟨reachable_sound reached, tracks_start⟩
  exact reached.invariant initially fun ws action next _ holds stepped =>
    have ⟨orderly, steps⟩ := System.restrict_step.mp stepped
    tracks_step holds.1 holds.2 orderly steps

/-- In runs without a chunk that breaks the protocol and leaves the session open, every
protocol error ends the session, and the first such chunk is one that does not. -/
theorem ws_error_ends_session {ws : WsRun}
    (reached : ((wsBroker cfg).restrict fun ws action => Orderly cfg ws action = true).Reachable ws) :
    (∀ c, EndsSession ws c) ∧ ∀ action next, wsStep cfg ws action = some next →
      ((∀ c, EndsSession next c) ↔ Orderly cfg ws action = true) := by
  obtain ⟨sound, tracks⟩ := orderly_tracks reached
  refine ⟨fun c => (tracks c).endsSession, fun action next stepped => ⟨fun ends => ?_, fun orderly c => ?_⟩⟩
  · cases wsStep_cases stepped with
    | broker runs => rfl
    | @wsRecv c going there data http answers =>
        by_contra disorderly
        exact stays_wsRecv sound ((tracks c).whole going there) (by simpa using disorderly) (ends c)
  · exact ((tracks_step sound tracks orderly stepped).2 c).endsSession

/-- A byte with a reserved bit behind a DISCONNECT, in one chunk. -/
theorem ws_error_ends_session_disconnect :
    ∃ ws, ((wsBroker (oneWorker true)).restrict fun ws action =>
        Orderly (oneWorker true) ws action = true).Reachable ws ∧
      (ws.sockets.read 0).error = some .reservedBitsSet ∧ ws.sockets.passed 0 = [[0xE0, 0]] ∧
      (∀ c, EndsSession ws c) ∧ ws.run.state.clients 0 = none := by
  have ends : (((wsBroker (oneWorker true)).restrict fun ws action =>
      Orderly (oneWorker true) ws action = true).run wsStart
        (upgradeWs ++ [.wsRecv 0 [0x82, 2, 0xE0, 0, 0x70] ⟨0, true, none⟩ silent])).map
      (fun ws => ((ws.sockets.read 0).error, ws.sockets.passed 0, (ws.run.state.clients 0).isSome)) =
        some (some .reservedBitsSet, [[0xE0, 0]], false) := by
    decide +kernel
  obtain ⟨ws, ran, seen⟩ := Option.map_eq_some_iff.mp ends
  simp only [Prod.mk.injEq, Option.isSome_eq_false_iff, Option.isNone_iff_eq_none] at seen
  obtain ⟨error, passed, gone⟩ := seen
  have reached := System.Reachable.run (.start rfl) ran
  exact ⟨ws, reached, error, passed, (ws_error_ends_session reached).1, gone⟩

/-- A byte with a reserved bit, and in the next chunk a PINGREQ: the client stays, and
`c_parse` gets the packet. -/
theorem ws_error_leaves_session :
    ∃ ws, (wsBroker (oneWorker true)).Reachable ws ∧ (ws.sockets.read 0).error = some .reservedBitsSet ∧
      (ws.sockets.read 0).events = [] ∧ ws.sockets.passed 0 = [[0xC0, 0]] ∧
      (ws.run.state.clients 0).isSome ∧ ws.run.ended = false ∧ ¬EndsSession ws 0 := by
  have ends : ((wsBroker (oneWorker true)).run wsStart
        (upgradeWs ++ [.wsRecv 0 [0x70] ⟨0, true, none⟩ silent,
          .wsRecv 0 [0x82, 2, 0xC0, 0] ⟨0, true, none⟩ silent])).map
      (fun ws => ((ws.sockets.read 0).error, (ws.sockets.read 0).events.isEmpty, ws.sockets.passed 0,
        (ws.run.state.clients 0).isSome, ws.run.ended)) =
        some (some .reservedBitsSet, true, [[0xC0, 0]], true, false) := by
    decide +kernel
  obtain ⟨ws, ran, seen⟩ := Option.map_eq_some_iff.mp ends
  simp only [Prod.mk.injEq, List.isEmpty_iff] at seen
  obtain ⟨error, events, passed, there, going⟩ := seen
  refine ⟨ws, .run (.start rfl) ran, error, events, passed, there, going, fun endsSession => ?_⟩
  obtain ⟨gone, -⟩ := endsSession (by simp [error])
  rcases gone with gone | ended
  · simp [gone] at there
  · simp [ended] at going

end FbBroker.Broker
