import FbBroker.Ws.Frame

/-!
Contract: a receiver that puts messages together.

Owns a receiver that feeds chunks of a stream to `ws_parser_execute` with callbacks
that record and return 0, and the messages such a receiver makes of what was
recorded. A sequence of unmasked, unfragmented binary frames is received as one
message for each frame, however the stream is cut.
-/

set_option autoImplicit false

namespace FbBroker.Ws

open FbBroker.Lib

/-! ### The receiver -/

section Receiver

variable {Fault : Type}

/-- A callback that records its call. -/
def recordCall (call : WsCall) : Cmd Fault (List WsCall) Int := do
  modify (· ++ [call])
  pure 0

/-- `ws_parser_execute` on one chunk behind the other, with the codes it returns. -/
def executeChunks : WsParser → List (List Byte) → Cmd Fault (List WsCall) (List Int)
  | _, [] => pure []
  | parser, chunk :: chunks => do
      let (code, parser) ← wsParserExecute recordCall (pure ()) parser chunk
      let codes ← executeChunks parser chunks
      pure (code :: codes)

private theorem each_recordCall (calls before : List WsCall) :
    (Cmd.each (answered recordCall (pure ())) calls : Cmd Fault (List WsCall) Unit).run before =
      (.ok (), before ++ calls) := by
  induction calls generalizing before with
  | nil => simp [Cmd.each]
  | cons call calls inductionHypothesis =>
      have recorded : (answered recordCall (pure ()) call : Cmd Fault (List WsCall) Unit).run before =
          (.ok (), before ++ [call]) := rfl
      have rest := inductionHypothesis (before ++ [call])
      rw [List.append_assoc, List.singleton_append] at rest
      exact Cmd.each_cons_ok recorded rest

/-- A stream that is read to its end is read without an error in any pieces, and the
calls say what the bytes say. -/
theorem executeChunks_run {parser next : WsParser} {chunks : List (List Byte)} {events : List WsEvent}
    (reads : Reads wsByte parser chunks.flatten events next) (before : List WsCall) :
    ∃ codes calls, (executeChunks parser chunks : Cmd Fault (List WsCall) (List Int)).run before =
        (.ok codes, before ++ calls) ∧
      (∀ code ∈ codes, code = 0) ∧ calls.flatMap WsCall.events = events := by
  induction chunks generalizing parser events before with
  | nil =>
      have nothing : events = [] := (congrArg Report.events reads).symm
      exact ⟨[], [], by simp [executeChunks], by simp, by simp [nothing]⟩
  | cons chunk chunks inductionHypothesis =>
      rw [List.flatten_cons] at reads
      obtain ⟨early, middle, late, first, second, together⟩ := reads.split
      have trace : (wsTrace parser chunk).report = ⟨early, none, middle⟩ :=
        (wsTrace_report parser chunk).trans first
      have noError : (wsTrace parser chunk).error = none := congrArg Report.error trace
      have isMiddle : (wsTrace parser chunk).parser = middle := congrArg Report.state trace
      have executed : (wsParserExecute recordCall (pure ()) parser chunk :
          Cmd Fault (List WsCall) (Int × WsParser)).run before =
            (.ok (0, middle), before ++ (wsTrace parser chunk).calls) := by
        have zero : ∀ call state rc next,
            (recordCall call : Cmd Fault (List WsCall) Int).run state = (.ok rc, next) → rc = 0 := by
          intro call state rc next returns
          exact (Except.ok.inj (Prod.mk.inj returns).1).symm
        rw [wsParserExecute_run zero, Cmd.bind_ok (each_recordCall _ _), Cmd.run_pure, isMiddle,
          WsTrace.code, noError]
        rfl
      obtain ⟨codes, calls, ran, zeros, reported⟩ :=
        inductionHypothesis second (before ++ (wsTrace parser chunk).calls)
      refine ⟨0 :: codes, (wsTrace parser chunk).calls ++ calls, ?_, by simpa using zeros, ?_⟩
      · rw [executeChunks, Cmd.bind_ok executed]
        dsimp only
        rw [Cmd.bind_ok ran, Cmd.run_pure, List.append_assoc]
      · rw [List.flatMap_append, reported, together]
        exact congrArg (· ++ late) (congrArg Report.events trace)

end Receiver

/-! ### Messages -/

/-- The messages, each with its opcode, if what was reported is a sequence of complete
ones and nothing else. The first argument is the message that is under way. -/
def readMessages : Option (Byte × List Byte) → List WsEvent → Option (List (Byte × List Byte))
  | none, [] => some []
  | none, .dataBegin opcode :: events => readMessages (some (opcode, [])) events
  | some (opcode, payload), .dataByte byte :: events =>
      readMessages (some (opcode, payload ++ [byte])) events
  | some message, .dataEnd :: events => (readMessages none events).map (message :: ·)
  | _, _ => none

private theorem readMessages_payload (opcode : Byte) (before payload : List Byte) (events : List WsEvent) :
    readMessages (some (opcode, before)) (payload.map .dataByte ++ .dataEnd :: events) =
      (readMessages none events).map ((opcode, before ++ payload) :: ·) := by
  induction payload generalizing before with
  | nil => simp [readMessages]
  | cons byte payload inductionHypothesis =>
      rw [List.map_cons, List.cons_append, readMessages, inductionHypothesis]
      simp

/-- A binary frame as a server sends it. -/
def binaryFrame (payload : List Byte) (bounded : payload.length < 2 ^ 64) : WsFrame where
  fin := true
  opcode := .binary
  mask := none
  payload := payload
  whole := fun _ => rfl
  short := by simp [Opcode.isControl]
  bounded := bounded

/-- A frame that carries a payload in one binary message. -/
def CarriesMessage (frame : WsFrame) (payload : List Byte) : Prop :=
  frame.fin = true ∧ frame.opcode = .binary ∧ frame.payload = payload

theorem CarriesMessage.events {frame : WsFrame} {payload : List Byte} (carries : CarriesMessage frame payload) :
    frame.events = .dataBegin wsFrameBinary :: (payload.map .dataByte ++ [.dataEnd]) := by
  obtain ⟨fin, opcode, rfl⟩ := carries
  simp [WsFrame.events, WsFrame.begins, WsFrame.ends, WsFrame.shows, fin, opcode, Opcode.isControl,
    Opcode.code, wsFrameBinary]

private theorem readMessages_frames {frames : List WsFrame} {payloads : List (List Byte)}
    (carry : List.Forall₂ CarriesMessage frames payloads) :
    readMessages none (frames.flatMap WsFrame.events) =
      some (payloads.map fun payload => (wsFrameBinary, payload)) := by
  induction carry with
  | nil => rfl
  | cons first rest inductionHypothesis =>
      rw [List.flatMap_cons, first.events, List.cons_append, readMessages, List.append_assoc,
        List.singleton_append, readMessages_payload, inductionHypothesis]
      rfl

private theorem follows_of_carries {frames : List WsFrame} {payloads : List (List Byte)}
    (carry : List.Forall₂ CarriesMessage frames payloads) : Follows false frames := by
  induction carry with
  | nil => trivial
  | cons first rest inductionHypothesis =>
      obtain ⟨fin, opcode, -⟩ := first
      unfold Follows
      rw [opcode, fin]
      exact ⟨rfl, inductionHypothesis⟩

/-- Frames of one binary message each are received as these messages, however their
bytes are cut. -/
theorem receives_frames {Fault : Type} {frames : List WsFrame} {payloads chunks : List (List Byte)}
    (carry : List.Forall₂ CarriesMessage frames payloads) (cut : chunks.flatten = encodeFrames frames) :
    ∃ codes calls, (executeChunks wsParserInit chunks : Cmd Fault (List WsCall) (List Int)).run [] =
        (.ok codes, calls) ∧
      (∀ code ∈ codes, code = 0) ∧ readMessages none (calls.flatMap WsCall.events) =
        some (payloads.map fun payload => (wsFrameBinary, payload)) := by
  obtain ⟨next, reads⟩ :=
    reads_frames (follows_of_carries carry) (show wsParserInit.state = .opcode from rfl) (by simp)
  rw [← cut] at reads
  obtain ⟨codes, calls, ran, zeros, reported⟩ :=
    executeChunks_run reads []
  exact ⟨codes, calls, ran, zeros, reported ▸ readMessages_frames carry⟩

end FbBroker.Ws
