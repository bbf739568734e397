import FbBroker.Core.Bytes
import FbBroker.Lib.Command
import FbBroker.Lib.Stream
import Mathlib.Logic.Function.Basic
import Mathlib.Data.Fin.Basic

/-!
Contract: the WebSocket parser of `ws_parser.c`.

Owns one iteration of the loop of `ws_parser_execute` with the callbacks it makes,
the loop itself over arbitrary callbacks, and the byte by byte view of a call: how
the bytes were cut into calls changes how payloads are cut into callbacks, and
nothing else.

Does not own frames (what a valid stream is) or what the callbacks do.
-/

set_option autoImplicit false

namespace FbBroker.Ws

open FbBroker.Lib

/-- `S_OPCODE` to `S_PAYLOAD`; the states of the length and mask bytes are numbered
as in the source. -/
inductive WsState
  | opcode
  | length
  | length16 (i : Fin 2)
  | length64 (i : Fin 8)
  | mask (i : BitVec 2)
  | payload
deriving DecidableEq, Repr

/-- The codes of `WS_PARSER_ERROR_CODES` behind `WS_OK`. -/
inductive WsError
  | reservedBitsSet
  | invalidOpcode
  | invalidContinuation
  | controlTooLong
  | nonCanonicalLength
  | fragmentedControl
deriving DecidableEq, Repr

def WsError.code : WsError → Int
  | reservedBitsSet => -1
  | invalidOpcode => -2
  | invalidContinuation => -3
  | controlTooLong => -4
  | nonCanonicalLength => -5
  | fragmentedControl => -6

def wsFrameText : Byte := 0x1
def wsFrameBinary : Byte := 0x2
def wsFrameClose : Byte := 0x8
def wsFramePing : Byte := 0x9
def wsFramePong : Byte := 0xA

/-- `ws_parser_t`; `mask_pos` is a field of two bits, so it wraps at 4. -/
structure WsParser where
  bytesRemaining : Nat
  mask : BitVec 2 → Byte
  fragment : Bool
  fin : Bool
  control : Bool
  maskFlag : Bool
  maskPos : BitVec 2
  state : WsState

/-- `ws_parser_init` on zeroed memory. -/
def wsParserInit : WsParser where
  bytesRemaining := 0
  mask := fun _ => 0
  fragment := false
  fin := false
  control := false
  maskFlag := false
  maskPos := 0
  state := .opcode

/-- The callbacks of `ws_parser_callbacks_t`, with their arguments. -/
inductive WsCall
  | dataBegin (opcode : Byte)
  | dataPayload (chunk : List Byte)
  | dataEnd
  | controlBegin (opcode : Byte)
  | controlPayload (chunk : List Byte)
  | controlEnd
deriving DecidableEq, Repr

/-! ### One iteration -/

/-- An iteration returns an error, or makes callbacks and leaves the rest of the
buffer. A callback comes with the parser as it is at that moment. -/
inductive WsRound
  | ret (parser : WsParser) (error : WsError)
  | next (calls : List (WsParser × WsCall)) (parser : WsParser) (rest : List Byte)

/-- The state behind the length. -/
def WsParser.afterLength (parser : WsParser) : WsState :=
  if parser.maskFlag then .mask 0 else .payload

/-- The label `end_of_payload`. -/
def endOfPayload (calls : List (WsParser × WsCall)) (parser : WsParser) (rest : List Byte) : WsRound :=
  .next
    (calls ++
      if parser.control || parser.fin then
        [(parser, if parser.control then .controlEnd else .dataEnd)]
      else [])
    { parser with state := .opcode } rest

/-- Go to `end_of_payload` if nothing is left of the payload. -/
def endIfEmpty (calls : List (WsParser × WsCall)) (parser : WsParser) (rest : List Byte) : WsRound :=
  if parser.state = .payload ∧ parser.bytesRemaining = 0 then endOfPayload calls parser rest
  else .next calls parser rest

/-- The loop `buff[i] ^= parser->mask[parser->mask_pos++]`. -/
def unmask (mask : BitVec 2 → Byte) (maskPos : BitVec 2) : List Byte → List Byte × BitVec 2
  | [] => ([], maskPos)
  | byte :: bytes =>
      ((byte ^^^ mask maskPos) :: (unmask mask (maskPos + 1) bytes).1,
        (unmask mask (maskPos + 1) bytes).2)

/-- The case `S_OPCODE`. -/
def opcodeRound (parser : WsParser) (byte : Byte) (buf : List Byte) : WsRound :=
  let opcode := byte &&& 0x0f
  if byte &&& 0x70 ≠ 0 then .ret parser .reservedBitsSet
  else
    let parser := { parser with fin := decide (byte &&& 0x80 ≠ 0) }
    if opcode = 0 then
      if !parser.fragment then .ret parser .invalidContinuation
      else .next [] { parser with control := false, state := .length } buf
    else if opcode &&& 0x8 ≠ 0 then
      if opcode ≠ wsFramePing ∧ opcode ≠ wsFramePong ∧ opcode ≠ wsFrameClose then
        .ret parser .invalidOpcode
      else if !parser.fin then .ret parser .fragmentedControl
      else
        let parser := { parser with control := true }
        .next [(parser, .controlBegin opcode)] { parser with state := .length } buf
    else if opcode ≠ wsFrameText ∧ opcode ≠ wsFrameBinary then .ret parser .invalidOpcode
    else
      let parser := { parser with control := false, fragment := !parser.fin }
      .next [(parser, .dataBegin opcode)] { parser with state := .length } buf

/-- The case `S_LENGTH`. -/
def lengthRound (parser : WsParser) (byte : Byte) (buf : List Byte) : WsRound :=
  let length := byte &&& 0x7f
  let parser := { parser with maskFlag := decide (byte &&& 0x80 ≠ 0), maskPos := 0 }
  if parser.control then
    if 125 < length then .ret parser .controlTooLong
    else endIfEmpty [] { parser with bytesRemaining := length.toNat, state := parser.afterLength } buf
  else if length < 126 then
    endIfEmpty [] { parser with bytesRemaining := length.toNat, state := parser.afterLength } buf
  else if length = 126 then .next [] { parser with state := .length16 0 } buf
  else .next [] { parser with state := .length64 0 } buf

/-- The last byte of a length of 16 or 64 bits, which must be at least `least`. -/
def lastLengthRound (parser : WsParser) (byte : Byte) (buf : List Byte) (least : Nat) : WsRound :=
  let parser :=
    { parser with bytesRemaining := parser.bytesRemaining ||| byte.toNat, state := parser.afterLength }
  if parser.bytesRemaining < least then .ret parser .nonCanonicalLength
  else .next [] parser buf

/-- The cases `S_LENGTH_16_0` and `S_LENGTH_16_1`. -/
def length16Round (parser : WsParser) (byte : Byte) (buf : List Byte) (i : Fin 2) : WsRound :=
  if i = 0 then
    .next [] { parser with bytesRemaining := byte.toNat <<< 8, state := .length16 1 } buf
  else lastLengthRound parser byte buf 126

/-- The cases `S_LENGTH_64_0` to `S_LENGTH_64_7`: the first assigns, the others add
their bits. -/
def length64Round (parser : WsParser) (byte : Byte) (buf : List Byte) (i : Fin 8) : WsRound :=
  if i = 0 then
    .next [] { parser with bytesRemaining := byte.toNat <<< 56, state := .length64 1 } buf
  else if i = 7 then lastLengthRound parser byte buf 65536
  else
    .next []
      { parser with
        bytesRemaining := parser.bytesRemaining ||| byte.toNat <<< (56 - 8 * i.val)
        state := .length64 (i + 1) }
      buf

/-- The cases `S_MASK_0` to `S_MASK_3`. -/
def maskRound (parser : WsParser) (byte : Byte) (buf : List Byte) (i : BitVec 2) : WsRound :=
  let parser := { parser with mask := Function.update parser.mask i byte }
  if i = 3 then endIfEmpty [] { parser with state := .payload } buf
  else .next [] { parser with state := .mask (i + 1) } buf

/-- The case `S_PAYLOAD`, with the whole buffer. -/
def payloadRound (parser : WsParser) (buf : List Byte) : WsRound :=
  let chunkLength := min buf.length parser.bytesRemaining
  let unmasked :=
    if parser.maskFlag then unmask parser.mask parser.maskPos (buf.take chunkLength)
    else (buf.take chunkLength, parser.maskPos)
  let parser := { parser with maskPos := unmasked.2 }
  let call := if parser.control then .controlPayload unmasked.1 else .dataPayload unmasked.1
  endIfEmpty [(parser, call)]
    { parser with bytesRemaining := parser.bytesRemaining - chunkLength } (buf.drop chunkLength)

/-- One iteration on a buffer that is not empty. -/
def wsRound (parser : WsParser) (byte : Byte) (buf : List Byte) : WsRound :=
  match parser.state with
  | .opcode => opcodeRound parser byte buf
  | .length => lengthRound parser byte buf
  | .length16 i => length16Round parser byte buf i
  | .length64 i => length64Round parser byte buf i
  | .mask i => maskRound parser byte buf i
  | .payload => payloadRound parser (byte :: buf)

/-! ### Progress -/

/-- What an iteration does to a byte of a header depends on the byte only, and takes
it. -/
def TakesOne (round : List Byte → WsRound) : Prop :=
  (∃ parser error, ∀ buf, round buf = .ret parser error) ∨
    ∃ calls parser, ∀ buf, round buf = .next calls parser buf

namespace TakesOne

theorem ret (parser : WsParser) (error : WsError) : TakesOne fun _ => .ret parser error :=
  .inl ⟨parser, error, fun _ => rfl⟩

theorem next (calls : List (WsParser × WsCall)) (parser : WsParser) : TakesOne (.next calls parser) :=
  .inr ⟨calls, parser, fun _ => rfl⟩

private theorem ite {condition : Prop} [Decidable condition] {left right : List Byte → WsRound}
    (first : TakesOne left) (second : TakesOne right) :
    TakesOne fun buf => if condition then left buf else right buf := by
  by_cases holds : condition
  · simpa [holds] using first
  · simpa [holds] using second

theorem endIfEmpty (calls : List (WsParser × WsCall)) (parser : WsParser) :
    TakesOne (endIfEmpty calls parser) :=
  ite (next _ _) (next _ _)

end TakesOne

private theorem wsRound_takesOne {parser : WsParser} (byte : Byte) (header : parser.state ≠ .payload) :
    TakesOne (wsRound parser byte) := by
  unfold wsRound
  cases here : parser.state with
  | opcode =>
      refine .ite (.ret _ _) (.ite (.ite (.ret _ _) (.next _ _)) (.ite ?_ ?_))
      · exact .ite (.ret _ _) (.ite (.ret _ _) (.next _ _))
      · exact .ite (.ret _ _) (.next _ _)
  | length =>
      exact .ite (.ite (.ret _ _) (.endIfEmpty _ _))
        (.ite (.endIfEmpty _ _) (.ite (.next _ _) (.next _ _)))
  | length16 i => exact .ite (.next _ _) (.ite (.ret _ _) (.next _ _))
  | length64 i => exact .ite (.next _ _) (.ite (.ite (.ret _ _) (.next _ _)) (.next _ _))
  | mask i => exact .ite (.endIfEmpty _ _) (.next _ _)
  | payload => exact absurd here header

/-- A payload of which nothing is left ends without taking a byte. -/
theorem payloadRound_empty {parser : WsParser} (here : parser.state = .payload)
    (empty : parser.bytesRemaining = 0) (buf : List Byte) :
    payloadRound parser buf =
      endOfPayload [(parser, if parser.control then .controlPayload [] else .dataPayload [])] parser buf := by
  obtain ⟨remaining, mask, fragment, fin, control, maskFlag, maskPos, state⟩ := parser
  subst here empty
  simp [payloadRound, unmask, endIfEmpty]

private theorem endIfEmpty_rest {parser next : WsParser} {calls calls' : List (WsParser × WsCall)}
    {rest rest' : List Byte} (round : endIfEmpty calls parser rest = .next calls' next rest') :
    rest' = rest := by
  unfold endIfEmpty endOfPayload at round
  split at round <;> exact (WsRound.next.inj round).2.2.symm

/-- How much a call has to do: the bytes, and at most one iteration without a byte. -/
def workLeft (parser : WsParser) (buf : List Byte) : Nat :=
  2 * buf.length + if parser.state = .payload then 1 else 0

private theorem workLeft_le (parser : WsParser) (buf : List Byte) : workLeft parser buf ≤ 2 * buf.length + 1 := by
  unfold workLeft
  split <;> omega

private theorem workLeft_lt {parser next : WsParser} {byte : Byte} {buf rest : List Byte}
    {calls : List (WsParser × WsCall)} (round : wsRound parser byte buf = .next calls next rest) :
    workLeft next rest < workLeft parser (byte :: buf) := by
  have bound := workLeft_le next rest
  by_cases here : parser.state = .payload
  · have isPayload : wsRound parser byte buf = payloadRound parser (byte :: buf) := by
      simp [wsRound, here]
    rw [isPayload] at round
    have more : workLeft parser (byte :: buf) = 2 * (buf.length + 1) + 1 := by simp [workLeft, here]
    by_cases empty : parser.bytesRemaining = 0
    · rw [payloadRound_empty here empty] at round
      obtain ⟨-, isNext, isRest⟩ := WsRound.next.inj round
      subst isNext isRest
      simp [workLeft, here]
    · have isRest := endIfEmpty_rest round
      have shorter : rest.length ≤ buf.length := by
        rw [isRest, List.length_drop, List.length_cons]
        omega
      omega
  · have isRest : rest = buf := by
      rcases wsRound_takesOne byte here with ⟨_, _, stops⟩ | ⟨_, _, goes⟩
      · rw [stops] at round
        cases round
      · rw [goes] at round
        exact (WsRound.next.inj round).2.2.symm
    have more : workLeft parser (byte :: buf) = 2 * (buf.length + 1) := by simp [workLeft, here]
    subst isRest
    omega

/-! ### A call -/

/-- The callbacks a call makes as long as they return 0, the error it returns, and the
parser it leaves. -/
structure WsTrace where
  calls : List WsCall
  error : Option WsError
  parser : WsParser

def wsTrace (parser : WsParser) : List Byte → WsTrace
  | [] => ⟨[], none, parser⟩
  | byte :: buf =>
      match round : wsRound parser byte buf with
      | .ret parser error => ⟨[], some error, parser⟩
      | .next calls parser rest =>
          have : workLeft parser rest < workLeft _ (byte :: buf) := workLeft_lt round
          { wsTrace parser rest with calls := calls.map Prod.snd ++ (wsTrace parser rest).calls }
termination_by buf => workLeft parser buf

section Execute

variable {Fault State : Type} (callback : WsCall → Cmd Fault State Int) (touch : Cmd Fault State Unit)

/-- Make callbacks. One that does not return 0 ends the call; behind the others the
parser is written, so it must still be there. -/
def makeCalls : List (WsParser × WsCall) → Cmd Fault State (Option (Int × WsParser))
  | [] => pure none
  | (parser, call) :: calls => do
      let rc ← callback call
      if rc ≠ 0 then pure (some (rc, parser))
      else do
        touch
        makeCalls calls

/-- The loop of `ws_parser_execute`, with the code it returns and the parser it
leaves. -/
def wsParserExecute (parser : WsParser) : List Byte → Cmd Fault State (Int × WsParser)
  | [] => pure (0, parser)
  | byte :: buf =>
      match round : wsRound parser byte buf with
      | .ret parser error => pure (error.code, parser)
      | .next calls parser rest => do
          have : workLeft parser rest < workLeft _ (byte :: buf) := workLeft_lt round
          match ← makeCalls callback touch calls with
          | some returned => pure returned
          | none => wsParserExecute parser rest
termination_by buf => workLeft parser buf

end Execute

/-! ### Byte by byte -/

/-- What the callbacks say, with payloads byte by byte. -/
inductive WsEvent
  | dataBegin (opcode : Byte)
  | dataByte (byte : Byte)
  | dataEnd
  | controlBegin (opcode : Byte)
  | controlByte (byte : Byte)
  | controlEnd
deriving DecidableEq, Repr

def WsCall.events : WsCall → List WsEvent
  | dataBegin opcode => [.dataBegin opcode]
  | dataPayload chunk => chunk.map .dataByte
  | dataEnd => [.dataEnd]
  | controlBegin opcode => [.controlBegin opcode]
  | controlPayload chunk => chunk.map .controlByte
  | controlEnd => [.controlEnd]

def WsTrace.report (trace : WsTrace) : Report WsParser WsEvent WsError :=
  ⟨trace.calls.flatMap WsCall.events, trace.error, trace.parser⟩

/-- A byte. -/
def wsByte (parser : WsParser) (byte : Byte) : Report WsParser WsEvent WsError :=
  (wsTrace parser [byte]).report

private theorem wsTrace_nil (parser : WsParser) : wsTrace parser [] = ⟨[], none, parser⟩ := by
  rw [wsTrace]

@[simp] theorem wsTrace_nil_report (parser : WsParser) : (wsTrace parser []).report = .still parser := by
  rw [wsTrace_nil]
  rfl

private theorem wsTrace_ret {parser stopped : WsParser} {byte : Byte} {buf : List Byte} {error : WsError}
    (round : wsRound parser byte buf = .ret stopped error) :
    wsTrace parser (byte :: buf) = ⟨[], some error, stopped⟩ := by
  rw [wsTrace]
  split
  · rename_i same
    rw [round] at same
    cases same
    rfl
  · rename_i same
    rw [round] at same
    cases same

theorem wsTrace_next {parser next : WsParser} {byte : Byte} {buf rest : List Byte}
    {calls : List (WsParser × WsCall)} (round : wsRound parser byte buf = .next calls next rest) :
    (wsTrace parser (byte :: buf)).report =
      Report.andThen ⟨(calls.map Prod.snd).flatMap WsCall.events, none, next⟩
        fun parser => (wsTrace parser rest).report := by
  rw [wsTrace]
  split
  · rename_i same
    rw [round] at same
    cases same
  · rename_i same
    rw [round] at same
    cases same
    simp [WsTrace.report, Report.andThen]

/-- An iteration that takes one byte. -/
theorem wsTrace_takesOne {parser : WsParser} {byte : Byte} (one : TakesOne (wsRound parser byte))
    (buf : List Byte) : (wsTrace parser (byte :: buf)).report =
      (wsByte parser byte).andThen fun next => (wsTrace next buf).report := by
  rcases one with ⟨stopped, error, stops⟩ | ⟨calls, next, goes⟩
  · rw [wsByte, wsTrace_ret (stops buf), wsTrace_ret (stops [])]
    rfl
  · rw [wsByte, wsTrace_next (goes buf), wsTrace_next (goes []), Report.andThen_assoc]
    simp [wsTrace_nil, WsTrace.report, Report.andThen]

/-- The parser behind one byte of a payload. -/
def WsParser.takeByte (parser : WsParser) : WsParser :=
  { parser with
    bytesRemaining := parser.bytesRemaining - 1
    maskPos := if parser.maskFlag then parser.maskPos + 1 else parser.maskPos }

/-- The event of a byte of a payload. -/
def WsParser.byteEvent (parser : WsParser) (byte : Byte) : WsEvent :=
  let byte := if parser.maskFlag then byte ^^^ parser.mask parser.maskPos else byte
  if parser.control then .controlByte byte else .dataByte byte

private theorem endIfEmpty_calls (parser : WsParser) (rest : List Byte) :
    ∃ ending next, ∀ calls, endIfEmpty calls parser rest = .next (calls ++ ending) next rest := by
  by_cases ends : parser.state = .payload ∧ parser.bytesRemaining = 0
  · exact ⟨_, _, fun calls => by rw [endIfEmpty, if_pos ends, endOfPayload]⟩
  · exact ⟨[], parser, fun calls => by rw [endIfEmpty, if_neg ends, List.append_nil]⟩

/-- The first byte of a payload of several bytes can be taken alone. -/
theorem payloadRound_cons {parser : WsParser} (byte : Byte) (buf : List Byte)
    (more : 1 < parser.bytesRemaining) : ∃ calls calls' next rest,
      payloadRound parser (byte :: buf) = .next calls next rest ∧
        payloadRound parser.takeByte buf = .next calls' next rest ∧
        (calls.map Prod.snd).flatMap WsCall.events =
          parser.byteEvent byte :: (calls'.map Prod.snd).flatMap WsCall.events := by
  have chunk : min (byte :: buf).length parser.bytesRemaining =
      min buf.length (parser.bytesRemaining - 1) + 1 := by
    rw [List.length_cons]
    omega
  have left : parser.bytesRemaining - (min buf.length (parser.bytesRemaining - 1) + 1) =
      parser.bytesRemaining - 1 - min buf.length (parser.bytesRemaining - 1) := by omega
  unfold payloadRound
  rw [chunk]
  cases masked : parser.maskFlag with
  | false =>
      simp only [WsParser.takeByte, List.take_succ_cons, List.drop_succ_cons, left, masked,
        Bool.false_eq_true, if_false]
      obtain ⟨ending, next, ends⟩ := endIfEmpty_calls _ _
      refine ⟨_, _, next, _, ends _, ends _, ?_⟩
      cases control : parser.control <;>
        simp [WsParser.byteEvent, masked, control, WsCall.events]
  | true =>
      simp only [WsParser.takeByte, List.take_succ_cons, List.drop_succ_cons, left, masked, if_true,
        unmask]
      obtain ⟨ending, next, ends⟩ := endIfEmpty_calls _ _
      refine ⟨_, _, next, _, ends _, ends _, ?_⟩
      cases control : parser.control <;>
        simp [WsParser.byteEvent, masked, control, WsCall.events]

private theorem payloadRound_nil {parser : WsParser} (more : parser.bytesRemaining ≠ 0) : ∃ calls,
    payloadRound parser [] = .next calls parser [] ∧ (calls.map Prod.snd).flatMap WsCall.events = [] := by
  obtain ⟨remaining, mask, fragment, fin, control, maskFlag, maskPos, state⟩ := parser
  replace more : remaining ≠ 0 := more
  cases control <;> simp [payloadRound, unmask, endIfEmpty, more, WsCall.events]

/-- A byte of a payload that goes on behind it. -/
theorem wsByte_payload {parser : WsParser} (here : parser.state = .payload)
    (more : 1 < parser.bytesRemaining) (byte : Byte) :
    wsByte parser byte = ⟨[parser.byteEvent byte], none, parser.takeByte⟩ := by
  obtain ⟨calls, calls', next, rest, first, later, events⟩ := payloadRound_cons byte [] more
  have left : parser.takeByte.bytesRemaining ≠ 0 := Nat.sub_ne_zero_of_lt more
  obtain ⟨_, nothing, silent⟩ := payloadRound_nil left
  rw [nothing] at later
  obtain ⟨isCalls, isNext, isRest⟩ := WsRound.next.inj later
  subst isCalls isNext isRest
  have round : wsRound parser byte [] = .next calls parser.takeByte [] := by simpa [wsRound, here] using first
  rw [wsByte, wsTrace_next round, events, silent]
  simp [Report.andThen, Report.still]

/-- A call takes its first byte before the others, however the payload is cut. -/
theorem wsTrace_cons (parser : WsParser) (byte : Byte) (buf : List Byte) :
    (wsTrace parser (byte :: buf)).report =
      (wsByte parser byte).andThen fun next => (wsTrace next buf).report := by
  by_cases here : parser.state = .payload
  · have isPayload : ∀ buf, wsRound parser byte buf = payloadRound parser (byte :: buf) := by
      simp [wsRound, here]
    rcases Nat.lt_trichotomy parser.bytesRemaining 1 with empty | last | more
    · -- the iteration only ends the payload; the byte is the next one's
      have ends : ∀ buf, wsRound parser byte buf = _ := fun buf =>
        (isPayload buf).trans (payloadRound_empty here (Nat.lt_one_iff.mp empty) (byte :: buf))
      have header : ({ parser with state := .opcode } : WsParser).state ≠ .payload := by simp
      rw [wsByte, wsTrace_next (ends buf), wsTrace_next (ends []), Report.andThen_assoc]
      simp only [Report.andThen]
      rw [wsTrace_takesOne (wsRound_takesOne byte header)]
      rfl
    · have one : ∃ calls next, ∀ buf, wsRound parser byte buf = endIfEmpty calls next buf :=
        ⟨_, _, fun buf => by
          rw [isPayload, payloadRound, last, List.length_cons, Nat.min_eq_right (Nat.le_add_left 1 _),
            List.take_succ_cons, List.take_zero, List.drop_succ_cons, List.drop_zero]⟩
      obtain ⟨calls, next, ends⟩ := one
      have same : wsRound parser byte = endIfEmpty calls next := funext ends
      exact wsTrace_takesOne (same ▸ TakesOne.endIfEmpty calls next) buf
    · rw [wsByte_payload here more]
      cases buf with
      | nil =>
          have alone := wsByte_payload here more byte
          rw [wsByte] at alone
          rw [alone]
          simp [Report.andThen, Report.still]
      | cons second buf =>
          obtain ⟨calls, calls', next, rest, first, later, events⟩ := payloadRound_cons byte (second :: buf) more
          have round : wsRound parser.takeByte second buf = .next calls' next rest := by
            simpa [wsRound, WsParser.takeByte, here] using later
          rw [wsTrace_next ((isPayload _).trans first)]
          simp only [Report.andThen, wsTrace_next round, events, List.cons_append, List.nil_append]
  · exact wsTrace_takesOne (wsRound_takesOne byte here) buf

/-- A call reads its buffer byte by byte. -/
theorem wsTrace_report (parser : WsParser) (buf : List Byte) :
    (wsTrace parser buf).report = feed wsByte parser buf := by
  induction buf generalizing parser with
  | nil => simp [feed]
  | cons byte buf inductionHypothesis =>
      rw [wsTrace_cons, feed]
      simp only [inductionHypothesis]

/-! ### Callbacks that return 0 -/

/-- The code a call returns. -/
def WsTrace.code (trace : WsTrace) : Int :=
  (trace.error.map WsError.code).getD 0

section Execute

variable {Fault State : Type} {callback : WsCall → Cmd Fault State Int} {touch : Cmd Fault State Unit}

/-- A callback, and the parser written behind it. -/
def answered (callback : WsCall → Cmd Fault State Int) (touch : Cmd Fault State Unit) (call : WsCall) :
    Cmd Fault State Unit := do
  let _ ← callback call
  touch

private theorem makeCalls_run
    (zero : ∀ call state rc next, (callback call).run state = (.ok rc, next) → rc = 0)
    (calls : List (WsParser × WsCall)) (state : State) :
    (makeCalls callback touch calls).run state =
      (Cmd.each (answered callback touch) (calls.map Prod.snd) >>= fun _ => pure none).run state := by
  induction calls generalizing state with
  | nil => rfl
  | cons head calls inductionHypothesis =>
      obtain ⟨parser, call⟩ := head
      simp only [makeCalls, List.map_cons, Cmd.each, answered, Cmd.run_bind]
      cases outcome : (callback call).run state with
      | mk result next =>
          cases result with
          | error fault => rfl
          | ok rc =>
              simp only [zero call state rc next outcome, ne_eq, not_true_eq_false, if_false, Cmd.run_bind]
              cases outcome : touch.run next with
              | mk result last =>
                  cases result with
                  | error fault => rfl
                  | ok _ =>
                      simp only [inductionHypothesis, Cmd.run_bind]

/-- With callbacks that return 0 a call makes the callbacks of its trace. -/
theorem wsParserExecute_run
    (zero : ∀ call state rc next, (callback call).run state = (.ok rc, next) → rc = 0)
    (parser : WsParser) (buf : List Byte) (state : State) :
    (wsParserExecute callback touch parser buf).run state =
      (Cmd.each (answered callback touch) (wsTrace parser buf).calls >>= fun _ =>
        pure ((wsTrace parser buf).code, (wsTrace parser buf).parser)).run state := by
  fun_induction wsTrace parser buf generalizing state with
  | case1 parser =>
      rw [wsParserExecute]
      rfl
  | case2 parser byte buf stopped error round =>
      rw [wsParserExecute]
      split
      · rename_i same
        rw [round] at same
        cases same
        rfl
      · rename_i same
        rw [round] at same
        cases same
  | case3 parser byte buf calls next rest round shorter trace inductionHypothesis =>
      rw [wsParserExecute]
      split
      · rename_i same
        rw [round] at same
        cases same
      · rename_i same
        rw [round] at same
        cases same
        simp only [Cmd.run_bind, makeCalls_run zero, Cmd.each_append_run]
        cases (Cmd.each (answered callback touch) (calls.map Prod.snd)).run state with
        | mk outcome middle =>
            cases outcome with
            | error fault => rfl
            | ok _ =>
                simp only [Cmd.run_pure, inductionHypothesis, Cmd.run_bind]
                rfl

end Execute

end FbBroker.Ws
