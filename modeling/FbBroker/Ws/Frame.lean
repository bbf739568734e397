import FbBroker.Ws.Parser

/-!
Contract: WebSocket frames and what the parser makes of them.

Owns the frames a peer may send, with their encoding, and the order in which the
fragments of a message may follow one another, and proves that the parser reads
every such sequence to its end and reports each frame: its beginning, its unmasked
payload and its end.

Does not own the code under test: encodings are stated here from the format of the
frames.
-/

set_option autoImplicit false

namespace FbBroker.Ws

open FbBroker.Lib

/-! ### Frames -/

inductive Opcode
  | continuation
  | text
  | binary
  | close
  | ping
  | pong
deriving DecidableEq, Repr

namespace Opcode

def code : Opcode → Byte
  | continuation => 0x0
  | text => 0x1
  | binary => 0x2
  | close => 0x8
  | ping => 0x9
  | pong => 0xA

def isControl : Opcode → Bool
  | continuation => false
  | text => false
  | binary => false
  | close => true
  | ping => true
  | pong => true

end Opcode

/-- A frame: a control frame is not fragmented and carries at most 125 bytes, and the
length of every payload fits 64 bits. -/
structure WsFrame where
  fin : Bool
  opcode : Opcode
  mask : Option (BitVec 2 → Byte)
  payload : List Byte
  whole : opcode.isControl = true → fin = true
  short : opcode.isControl = true → payload.length ≤ 125
  bounded : payload.length < 2 ^ 64

/-- The last `count` bytes of a number, the most significant one first. -/
def bigEndian : Nat → Nat → List Byte
  | 0, _ => []
  | count + 1, value => UInt8.ofNat (value / 256 ^ count) :: bigEndian count value

namespace WsFrame

variable (frame : WsFrame)

def firstByte : Byte :=
  (if frame.fin then 0x80 else 0) ||| frame.opcode.code

/-- The mask bit and seven bits of length. -/
def lengthByte (length : Nat) : Byte :=
  (if frame.mask.isSome then 0x80 else 0) ||| UInt8.ofNat length

/-- The shortest form of the length. -/
def lengthBytes : List Byte :=
  if frame.payload.length < 126 then [frame.lengthByte frame.payload.length]
  else if frame.payload.length < 65536 then frame.lengthByte 126 :: bigEndian 2 frame.payload.length
  else frame.lengthByte 127 :: bigEndian 8 frame.payload.length

def maskBytes : List Byte :=
  match frame.mask with
  | none => []
  | some mask => [mask 0, mask 1, mask 2, mask 3]

/-- The payload as it is sent. -/
def maskedPayload : List Byte :=
  match frame.mask with
  | none => frame.payload
  | some mask => frame.payload.mapIdx fun i byte => byte ^^^ mask (BitVec.ofNat 2 i)

def encode : List Byte :=
  frame.firstByte :: (frame.lengthBytes ++ frame.maskBytes ++ frame.maskedPayload)

/-- What a receiver should see of the first byte. -/
def begins : List WsEvent :=
  match frame.opcode with
  | .continuation => []
  | .text | .binary => [.dataBegin frame.opcode.code]
  | .close | .ping | .pong => [.controlBegin frame.opcode.code]

/-- What a receiver should see behind the last byte. -/
def ends : List WsEvent :=
  if frame.opcode.isControl then [.controlEnd] else if frame.fin then [.dataEnd] else []

/-- What a receiver should see of a byte of the payload. -/
def shows (byte : Byte) : WsEvent :=
  if frame.opcode.isControl then .controlByte byte else .dataByte byte

def events : List WsEvent :=
  frame.begins ++ frame.payload.map frame.shows ++ frame.ends

end WsFrame

/-- The frames that may follow: a message is a text or binary frame and the
continuations behind it up to a final one; control frames may stand anywhere. -/
def Follows : Bool → List WsFrame → Prop
  | _, [] => True
  | within, frame :: frames =>
      match frame.opcode with
      | .continuation => within = true ∧ Follows (!frame.fin) frames
      | .text | .binary => within = false ∧ Follows (!frame.fin) frames
      | .close | .ping | .pong => Follows within frames

/-- The byte stream of a sequence of frames. -/
def encodeFrames (frames : List WsFrame) : List Byte :=
  frames.flatMap WsFrame.encode

/-- The payloads of the data frames, one behind the other. -/
def dataPayloads (frames : List WsFrame) : List Byte :=
  (frames.filter fun frame => !frame.opcode.isControl).flatMap WsFrame.payload

/-- The payload bytes of the data frames among what was reported. -/
def dataBytes (events : List WsEvent) : List Byte :=
  events.filterMap fun
    | .dataByte byte => some byte
    | _ => none

/-! ### Headers -/

private theorem wsByte_of_next {parser next : WsParser} {byte : Byte} {calls : List (WsParser × WsCall)}
    (round : wsRound parser byte [] = .next calls next []) :
    wsByte parser byte = ⟨(calls.map Prod.snd).flatMap WsCall.events, none, next⟩ := by
  rw [wsByte, wsTrace_next round]
  simp [Report.andThen, Report.still]

/-- The parser behind the first byte of a frame. -/
def WsParser.opened (parser : WsParser) (frame : WsFrame) : WsParser :=
  { parser with
    fin := frame.fin
    control := frame.opcode.isControl
    fragment := if frame.opcode = .text ∨ frame.opcode = .binary then !frame.fin else parser.fragment
    state := .length }

private theorem firstByte_bits (frame : WsFrame) : frame.firstByte &&& 0x70 = 0 ∧
    frame.firstByte &&& 0x0f = frame.opcode.code ∧
    decide (frame.firstByte &&& 0x80 ≠ 0) = frame.fin := by
  unfold WsFrame.firstByte
  cases frame.opcode <;> cases frame.fin <;> decide

private theorem wsByte_firstByte {parser : WsParser} {frame : WsFrame} (here : parser.state = .opcode)
    (within : frame.opcode = .continuation → parser.fragment = true) :
    wsByte parser frame.firstByte = ⟨frame.begins, none, parser.opened frame⟩ := by
  obtain ⟨reserved, code, fin⟩ := firstByte_bits frame
  have round : ∃ calls, opcodeRound parser frame.firstByte [] = .next calls (parser.opened frame) [] ∧
      (calls.map Prod.snd).flatMap WsCall.events = frame.begins := by
    unfold opcodeRound WsParser.opened WsFrame.begins
    rw [if_neg (not_not.mpr reserved)]
    simp only [code, fin]
    cases opcode : frame.opcode with
    | continuation =>
        rw [within opcode]
        exact ⟨_, rfl, rfl⟩
    | text => exact ⟨_, rfl, rfl⟩
    | binary => exact ⟨_, rfl, rfl⟩
    | close | ping | pong =>
        rw [frame.whole (by rw [opcode]; rfl)]
        exact ⟨_, rfl, rfl⟩
  obtain ⟨calls, goes, reports⟩ := round
  have isRound : wsRound parser frame.firstByte [] = opcodeRound parser frame.firstByte [] := by
    simp [wsRound, here]
  rw [wsByte_of_next (isRound.trans goes), reports]

/-- The parser where the payload begins, with the end of the frame if the payload
is empty. -/
def WsParser.settled (parser : WsParser) : WsParser :=
  if parser.state = .payload ∧ parser.bytesRemaining = 0 then { parser with state := .opcode } else parser

/-- What is reported there. -/
def WsParser.settles (parser : WsParser) : List WsEvent :=
  if parser.state = .payload ∧ parser.bytesRemaining = 0 then
    if parser.control then [.controlEnd] else if parser.fin then [.dataEnd] else []
  else []

private theorem endIfEmpty_settles {calls : List (WsParser × WsCall)} {parser : WsParser} {rest : List Byte} :
    ∃ calls', endIfEmpty calls parser rest = .next calls' parser.settled rest ∧
      (calls'.map Prod.snd).flatMap WsCall.events =
        (calls.map Prod.snd).flatMap WsCall.events ++ parser.settles := by
  unfold endIfEmpty WsParser.settled WsParser.settles
  split
  · refine ⟨_, rfl, ?_⟩
    cases control : parser.control <;> cases fin : parser.fin <;> simp [WsCall.events]
  · exact ⟨calls, rfl, by simp⟩

/-- The parser behind the length of a frame. -/
def WsParser.announced (parser : WsParser) (frame : WsFrame) : WsParser :=
  { parser with
    maskFlag := frame.mask.isSome
    maskPos := 0
    bytesRemaining := frame.payload.length
    state := if frame.mask.isSome then .mask 0 else .payload }

private theorem lengthByte_bits (frame : WsFrame) {length : Nat} (bound : length < 128) :
    frame.lengthByte length &&& 0x7f = UInt8.ofNat length ∧
      decide (frame.lengthByte length &&& 0x80 ≠ 0) = frame.mask.isSome := by
  have table : ∀ (masked : Bool) (length : Fin 128),
      ((if masked then 0x80 else 0) ||| UInt8.ofNat length.val) &&& 0x7f = UInt8.ofNat length.val ∧
        decide (((if masked then 0x80 else 0) ||| UInt8.ofNat length.val) &&& (0x80 : UInt8) ≠ 0) =
          masked := by
    decide
  exact table frame.mask.isSome ⟨length, bound⟩

/-- The round of the byte with the mask bit. -/
theorem wsRound_lengthByte {parser : WsParser} {frame : WsFrame} (here : parser.state = .length)
    {length : Nat} (bound : length < 128) :
    wsRound parser (frame.lengthByte length) [] =
      let parser := { parser with maskFlag := frame.mask.isSome, maskPos := 0 }
      if parser.control then
        if 125 < length then .ret parser .controlTooLong
        else endIfEmpty [] { parser with bytesRemaining := length, state := parser.afterLength } []
      else if length < 126 then
        endIfEmpty [] { parser with bytesRemaining := length, state := parser.afterLength } []
      else if length = 126 then .next [] { parser with state := .length16 0 } []
      else .next [] { parser with state := .length64 0 } [] := by
  obtain ⟨isLength, isMask⟩ := lengthByte_bits frame bound
  have small : length < UInt8.size := Nat.lt_trans bound (by decide)
  have value : (UInt8.ofNat length).toNat = length := UInt8.toNat_ofNat_of_lt small
  have above : 125 < UInt8.ofNat length ↔ 125 < length := by rw [UInt8.lt_iff_toNat_lt, value]; rfl
  have below : UInt8.ofNat length < 126 ↔ length < 126 := by rw [UInt8.lt_iff_toNat_lt, value]; rfl
  have exactly : UInt8.ofNat length = 126 ↔ length = 126 := by rw [← UInt8.toNat_inj, value]; rfl
  simp only [wsRound, here, lengthRound, isLength, isMask, above, below, exactly, value]

/-- The length of a short payload. -/
theorem reads_shortLength {parser : WsParser} {frame : WsFrame} (here : parser.state = .length)
    (short : frame.payload.length < 126) :
    Reads wsByte parser [frame.lengthByte frame.payload.length] (parser.announced frame).settles
      (parser.announced frame).settled := by
  obtain ⟨calls, goes, reports⟩ := @endIfEmpty_settles [] (parser.announced frame) []
  have round : wsRound parser (frame.lengthByte frame.payload.length) [] =
      endIfEmpty [] (parser.announced frame) [] := by
    have small : ¬ 125 < frame.payload.length := Nat.not_lt.mpr (Nat.le_of_lt_succ short)
    rw [wsRound_lengthByte here (Nat.lt_trans short (by decide))]
    simp only [small, short, if_true, if_false, ite_self]
    rfl
  apply Reads.one
  rw [wsByte_of_next (round.trans goes), reports]
  rfl

/-! ### Long lengths -/

/-- Bits that a byte adds to a number. -/
theorem addByte (value count : Nat) :
    value / 256 ^ (count + 1) * 256 ^ (count + 1) |||
        (UInt8.ofNat (value / 256 ^ count)).toNat <<< (8 * count) =
      value / 256 ^ count * 256 ^ count := by
  have power : 256 ^ count = 2 ^ (8 * count) := by rw [Nat.pow_mul]
  have power' : 256 ^ (count + 1) = 2 ^ (8 * count + 8) := by
    rw [Nat.pow_succ, power, Nat.pow_add]
  have byte : (UInt8.ofNat (value / 256 ^ count)).toNat = value / 256 ^ count % 256 := by
    simp [UInt8.toNat_ofNat']
  have small : value / 256 ^ count % 256 * 2 ^ (8 * count) < 2 ^ (8 * count + 8) := by
    rw [Nat.pow_add, Nat.mul_comm (2 ^ (8 * count))]
    exact Nat.mul_lt_mul_of_pos_right (Nat.mod_lt _ (by decide)) (Nat.two_pow_pos _)
  have split : value / 256 ^ count = value / 256 ^ (count + 1) * 256 + value / 256 ^ count % 256 := by
    rw [Nat.pow_succ, ← Nat.div_div_eq_div_mul]
    omega
  rw [byte, Nat.shiftLeft_eq, power', ← Nat.shiftLeft_eq (value / _), ← Nat.shiftLeft_add_eq_or_of_lt small,
    Nat.shiftLeft_eq, ← power', ← power]
  calc value / 256 ^ (count + 1) * 256 ^ (count + 1) + value / 256 ^ count % 256 * 256 ^ count
      = (value / 256 ^ (count + 1) * 256 + value / 256 ^ count % 256) * 256 ^ count := by
        rw [Nat.add_mul, Nat.mul_assoc, Nat.pow_succ, Nat.mul_comm 256]
    _ = value / 256 ^ count * 256 ^ count := by rw [← split]

/-- The last byte of a length. -/
theorem reads_lastLength {parser : WsParser} {byte : Byte} (least : Nat)
    (round : ∀ buf, wsRound parser byte buf = lastLengthRound parser byte buf least) {value : Nat}
    (sum : parser.bytesRemaining ||| byte.toNat = value) (enough : least ≤ value) :
    Reads wsByte parser [byte] [] { parser with bytesRemaining := value, state := parser.afterLength } := by
  have goes : wsRound parser byte [] =
      .next [] { parser with bytesRemaining := value, state := parser.afterLength } [] := by
    rw [round, lastLengthRound, sum, if_neg (Nat.not_lt.mpr enough)]
  exact Reads.one (wsByte_of_next goes)

private theorem reads_length16 {parser : WsParser} (here : parser.state = .length16 0) {value : Nat}
    (enough : 126 ≤ value) (bound : value < 65536) :
    Reads wsByte parser (bigEndian 2 value) []
      { parser with bytesRemaining := value, state := parser.afterLength } := by
  have whole : value / 256 ^ 2 = 0 := Nat.div_eq_of_lt bound
  have high : (UInt8.ofNat (value / 256 ^ 1)).toNat <<< 8 = value / 256 ^ 1 * 256 ^ 1 := by
    rw [← addByte value 1, whole, Nat.zero_mul, Nat.zero_or]
  have low : value / 256 ^ 1 * 256 ^ 1 ||| (UInt8.ofNat (value / 256 ^ 0)).toNat = value := by
    have sum := addByte value 0
    simpa using sum
  have first : wsRound parser (UInt8.ofNat (value / 256 ^ 1)) [] =
      .next [] { parser with bytesRemaining := value / 256 ^ 1 * 256 ^ 1, state := .length16 1 } [] := by
    rw [← high]
    simp [wsRound, here, length16Round]
  exact Reads.cons (wsByte_of_next first)
    (reads_lastLength 126 (fun buf => by simp [wsRound, length16Round]) low enough)

/-- The bytes of a length of 64 bits behind the first one. -/
theorem reads_lengthRest {value : Nat} (enough : 65536 ≤ value) {count : Nat} {parser : WsParser} {i : Fin 8}
    (more : 0 < count) (behind : i ≠ 0) (place : i.val + count = 8) (here : parser.state = .length64 i)
    (sum : parser.bytesRemaining = value / 256 ^ count * 256 ^ count) :
    Reads wsByte parser (bigEndian count value) []
      { parser with bytesRemaining := value, state := parser.afterLength } := by
  induction count generalizing parser i with
  | zero => exact absurd more (Nat.lt_irrefl 0)
  | succ count inductionHypothesis =>
      have added := addByte value count
      rw [← sum] at added
      cases count with
      | zero =>
          have last : i = 7 := Fin.ext (by omega)
          refine reads_lastLength 65536 (fun buf => ?_) (by simpa using added) enough
          simp [wsRound, here, length64Round, last]
      | succ count =>
          have notLast : i ≠ 7 := by
            intro last
            rw [last] at place
            have : (7 : Fin 8).val = 7 := rfl
            omega
          have shift : 56 - 8 * i.val = 8 * (count + 1) := by omega
          have next : (i + 1).val = i.val + 1 := Fin.val_add_one_of_lt (by
            rw [Fin.lt_def]
            show i.val < 7
            omega)
          have round : wsRound parser (UInt8.ofNat (value / 256 ^ (count + 1))) [] =
              .next []
                { parser with
                  bytesRemaining := value / 256 ^ (count + 1) * 256 ^ (count + 1)
                  state := .length64 (i + 1) } [] := by
            simp only [wsRound, here, length64Round, behind, notLast, if_false, shift, added]
          refine Reads.cons (wsByte_of_next round) ?_
          refine inductionHypothesis (Nat.succ_pos _) ?_ (by omega) rfl rfl
          intro isZero
          rw [isZero] at next
          simp at next

private theorem reads_length64 {parser : WsParser} (here : parser.state = .length64 0) {value : Nat}
    (enough : 65536 ≤ value) (bound : value < 2 ^ 64) :
    Reads wsByte parser (bigEndian 8 value) []
      { parser with bytesRemaining := value, state := parser.afterLength } := by
  have whole : value / 256 ^ 8 = 0 := Nat.div_eq_of_lt bound
  have high : (UInt8.ofNat (value / 256 ^ 7)).toNat <<< 56 = value / 256 ^ 7 * 256 ^ 7 := by
    rw [← addByte value 7, whole, Nat.zero_mul, Nat.zero_or]
  have first : wsRound parser (UInt8.ofNat (value / 256 ^ 7)) [] =
      .next [] { parser with bytesRemaining := value / 256 ^ 7 * 256 ^ 7, state := .length64 1 } [] := by
    rw [← high]
    simp [wsRound, here, length64Round]
  exact Reads.cons (wsByte_of_next first)
    (reads_lengthRest enough (by decide) (by decide) (by decide) rfl rfl)

/-- The length of a frame. -/
theorem reads_length {parser : WsParser} {frame : WsFrame} (here : parser.state = .length)
    (control : parser.control = frame.opcode.isControl) :
    Reads wsByte parser frame.lengthBytes (parser.announced frame).settles
      (parser.announced frame).settled := by
  unfold WsFrame.lengthBytes
  by_cases short : frame.payload.length < 126
  · rw [if_pos short]
    exact reads_shortLength here short
  · rw [if_neg short]
    have isData : parser.control = false := by
      rw [control]
      by_contra isControl
      have := frame.short (by simpa using isControl)
      omega
    have filled : (parser.announced frame).bytesRemaining ≠ 0 := by
      show frame.payload.length ≠ 0
      omega
    have unsettled : (parser.announced frame).settled = parser.announced frame := by
      simp [WsParser.settled, filled]
    have silent : (parser.announced frame).settles = [] := by simp [WsParser.settles, filled]
    rw [unsettled, silent]
    by_cases medium : frame.payload.length < 65536
    · rw [if_pos medium]
      have round : wsRound parser (frame.lengthByte 126) [] =
          .next [] { parser with maskFlag := frame.mask.isSome, maskPos := 0, state := .length16 0 } [] := by
        rw [wsRound_lengthByte here (by decide)]
        simp [isData]
      exact Reads.cons (wsByte_of_next round) (reads_length16 rfl (Nat.not_lt.mp short) medium)
    · rw [if_neg medium]
      have round : wsRound parser (frame.lengthByte 127) [] =
          .next [] { parser with maskFlag := frame.mask.isSome, maskPos := 0, state := .length64 0 } [] := by
        rw [wsRound_lengthByte here (by decide)]
        simp [isData]
      exact Reads.cons (wsByte_of_next round) (reads_length64 rfl (Nat.not_lt.mp medium) frame.bounded)

/-! ### Masks and payloads -/

/-- The mask of a frame that has one. -/
theorem reads_mask {parser : WsParser} (here : parser.state = .mask 0) (mask : BitVec 2 → Byte) :
    Reads wsByte parser [mask 0, mask 1, mask 2, mask 3]
      ({ parser with mask, state := .payload } : WsParser).settles
      ({ parser with mask, state := .payload } : WsParser).settled := by
  have round : ∀ (parser : WsParser) (i : BitVec 2), parser.state = .mask i → i ≠ 3 →
      wsByte parser (mask i) =
        ⟨[], none, { parser with mask := Function.update parser.mask i (mask i), state := .mask (i + 1) }⟩ := by
    intro parser i here notLast
    have goes : wsRound parser (mask i) [] = .next []
        { parser with mask := Function.update parser.mask i (mask i), state := .mask (i + 1) } [] := by
      simp only [wsRound, here, maskRound, notLast, if_false]
    exact wsByte_of_next goes
  have all : Function.update (Function.update (Function.update (Function.update parser.mask 0 (mask 0))
      1 (mask 1)) 2 (mask 2)) 3 (mask 3) = mask := by
    funext i
    have cases : i = 0 ∨ i = 1 ∨ i = 2 ∨ i = 3 := by
      revert i
      decide
    rcases cases with rfl | rfl | rfl | rfl <;> rfl
  refine Reads.cons (round _ 0 here (by decide)) ?_
  refine Reads.cons (round _ 1 rfl (by decide)) ?_
  refine Reads.cons (round _ 2 rfl (by decide)) (Reads.one ?_)
  obtain ⟨calls, goes, reports⟩ := @endIfEmpty_settles [] { parser with mask, state := .payload } []
  rw [wsByte_of_next (Eq.trans ?_ goes), reports]
  · rfl
  · rw [← all]
    rfl

private theorem unmask_mapIdx (mask : BitVec 2 → Byte) (maskPos : BitVec 2) (payload : List Byte) :
    (unmask mask maskPos (payload.mapIdx fun i byte => byte ^^^ mask (maskPos + BitVec.ofNat 2 i))).1 =
      payload := by
  induction payload generalizing maskPos with
  | nil => rfl
  | cons byte payload inductionHypothesis =>
      have shifted : ∀ i, maskPos + BitVec.ofNat 2 (i + 1) = maskPos + 1 + BitVec.ofNat 2 i := by
        intro i
        rw [Nat.add_comm, BitVec.ofNat_add, BitVec.add_assoc]
        rfl
      have here : maskPos + BitVec.ofNat 2 0 = maskPos := BitVec.add_zero maskPos
      simp only [List.mapIdx_cons, unmask, here, shifted, inductionHypothesis, UInt8.xor_assoc,
        UInt8.xor_self, UInt8.xor_zero]

/-- What `S_PAYLOAD` hands to the callback. -/
theorem unmasked_payload {parser : WsParser} {frame : WsFrame} (start : parser.maskPos = 0)
    (masked : parser.maskFlag = frame.mask.isSome) (mask : ∀ m, frame.mask = some m → parser.mask = m) :
    (if parser.maskFlag then unmask parser.mask parser.maskPos frame.maskedPayload
      else (frame.maskedPayload, parser.maskPos)).1 = frame.payload := by
  unfold WsFrame.maskedPayload
  cases isMasked : frame.mask with
  | none => simp [masked, isMasked]
  | some m =>
      have recovered := unmask_mapIdx m 0 frame.payload
      simp only [BitVec.ofNat_eq_ofNat, BitVec.zero_add] at recovered
      simp only [masked, isMasked, Option.isSome_some, if_true, start, mask m isMasked]
      exact recovered

/-- The payload of a frame, unmasked. -/
theorem reads_payload {parser : WsParser} {frame : WsFrame} (here : parser.state = .payload)
    (control : parser.control = frame.opcode.isControl) (fin : parser.fin = frame.fin)
    (length : parser.bytesRemaining = frame.payload.length) (start : parser.maskPos = 0)
    (masked : parser.maskFlag = frame.mask.isSome) (mask : ∀ m, frame.mask = some m → parser.mask = m)
    (filled : frame.payload ≠ []) :
    ∃ next, Reads wsByte parser frame.maskedPayload (frame.payload.map frame.shows ++ frame.ends) next ∧
      next.state = .opcode ∧ next.fragment = parser.fragment := by
  have sameLength : frame.maskedPayload.length = frame.payload.length := by
    unfold WsFrame.maskedPayload
    cases frame.mask <;> simp
  have unmasked := unmasked_payload start masked mask
  have chunk : min frame.maskedPayload.length parser.bytesRemaining = frame.maskedPayload.length := by
    rw [length, sameLength, Nat.min_self]
  have done : parser.bytesRemaining - frame.maskedPayload.length = 0 := by
    rw [length, sameLength, Nat.sub_self]
  have round : ∃ calls next, payloadRound parser frame.maskedPayload = .next calls next [] ∧
      (calls.map Prod.snd).flatMap WsCall.events = frame.payload.map frame.shows ++ frame.ends ∧
      next.state = .opcode ∧ next.fragment = parser.fragment := by
    unfold payloadRound
    simp only [chunk, done, List.take_length, List.drop_length, unmasked, endIfEmpty, here, and_self,
      if_true, endOfPayload]
    refine ⟨_, _, rfl, ?_, rfl, rfl⟩
    simp only [control, fin, WsFrame.ends]
    have shown : ∀ isControl, frame.opcode.isControl = isControl →
        frame.shows = if isControl then WsEvent.controlByte else WsEvent.dataByte := by
      intro isControl same
      funext byte
      unfold WsFrame.shows
      cases isControl <;> simp [same]
    cases isControl : frame.opcode.isControl <;> cases frame.fin <;>
      simp [WsCall.events, shown _ isControl]
  obtain ⟨calls, next, goes, reports, atOpcode, sameFragment⟩ := round
  refine ⟨next, ?_, atOpcode, sameFragment⟩
  cases isCons : frame.maskedPayload with
  | nil =>
      rw [isCons] at sameLength
      exact absurd (List.eq_nil_of_length_eq_zero sameLength.symm) filled
  | cons byte rest =>
      have isRound : wsRound parser byte rest = .next calls next [] := by
        rw [← goes, isCons]
        simp [wsRound, here]
      unfold Reads
      rw [← wsTrace_report, wsTrace_next isRound, reports]
      simp [Report.andThen, Report.still]

/-- The payload of a frame, which may be empty. -/
theorem reads_settled {parser : WsParser} {frame : WsFrame} (here : parser.state = .payload)
    (control : parser.control = frame.opcode.isControl) (fin : parser.fin = frame.fin)
    (length : parser.bytesRemaining = frame.payload.length) (start : parser.maskPos = 0)
    (masked : parser.maskFlag = frame.mask.isSome) (mask : ∀ m, frame.mask = some m → parser.mask = m) :
    ∃ later next, Reads wsByte parser.settled frame.maskedPayload later next ∧
      parser.settles ++ later = frame.payload.map frame.shows ++ frame.ends ∧
      next.state = .opcode ∧ next.fragment = parser.fragment := by
  by_cases empty : frame.payload = []
  · have nothing : frame.maskedPayload = [] := by
      unfold WsFrame.maskedPayload
      cases frame.mask <;> simp [empty]
    have ended : parser.state = .payload ∧ parser.bytesRemaining = 0 := ⟨here, by simp [length, empty]⟩
    rw [nothing, WsParser.settled, WsParser.settles, if_pos ended, if_pos ended]
    refine ⟨[], _, .nil _, ?_, rfl, rfl⟩
    rw [empty, control, fin, List.append_nil]
    rfl
  · have more : ¬ (parser.state = .payload ∧ parser.bytesRemaining = 0) := by
      intro ended
      exact empty (List.eq_nil_of_length_eq_zero (length ▸ ended.2))
    rw [WsParser.settled, WsParser.settles, if_neg more, if_neg more]
    obtain ⟨next, reads, atOpcode, sameFragment⟩ :=
      reads_payload here control fin length start masked mask empty
    exact ⟨_, next, reads, rfl, atOpcode, sameFragment⟩

/-! ### Sequences of frames -/

/-- A frame at the beginning of which the parser is in `S_OPCODE`. -/
theorem reads_frame {parser : WsParser} {frame : WsFrame} (here : parser.state = .opcode)
    (within : frame.opcode = .continuation → parser.fragment = true) :
    ∃ next, Reads wsByte parser frame.encode frame.events next ∧ next.state = .opcode ∧
      next.fragment = (parser.opened frame).fragment := by
  have first := wsByte_firstByte here within
  have length : Reads wsByte (parser.opened frame) frame.lengthBytes _ _ := reads_length rfl rfl
  have rest : ∃ later next,
      Reads wsByte ((parser.opened frame).announced frame).settled (frame.maskBytes ++ frame.maskedPayload)
        later next ∧
      ((parser.opened frame).announced frame).settles ++ later =
        frame.payload.map frame.shows ++ frame.ends ∧
      next.state = .opcode ∧ next.fragment = (parser.opened frame).fragment := by
    cases masked : frame.mask with
    | none =>
        rw [WsFrame.maskBytes, masked]
        exact reads_settled (by simp [WsParser.announced, masked]) rfl rfl rfl rfl rfl
          fun m isMask => by simp [masked] at isMask
    | some m =>
        have atMask : ((parser.opened frame).announced frame).state = .mask 0 := by
          simp [WsParser.announced, masked]
        have notPayload : ¬ (((parser.opened frame).announced frame).state = .payload ∧
            ((parser.opened frame).announced frame).bytesRemaining = 0) := by simp [atMask]
        rw [WsParser.settled, WsParser.settles, if_neg notPayload, if_neg notPayload, WsFrame.maskBytes, masked]
        obtain ⟨later, next, reads, reports, ends⟩ :=
          @reads_settled { (parser.opened frame).announced frame with mask := m, state := .payload } frame rfl
            rfl rfl rfl rfl rfl fun m' isMask => Option.some.inj (masked.symm.trans isMask)
        exact ⟨_, next, (reads_mask atMask m).append reads, reports, ends⟩
  obtain ⟨later, next, reads, reports, ends⟩ := rest
  refine ⟨next, ?_, ends⟩
  have all := Reads.cons first (length.append reads)
  rw [reports] at all
  rw [WsFrame.encode, WsFrame.events, List.append_assoc, List.append_assoc]
  exact all

/-- The parser reads the frames that may follow, each as it was sent. -/
theorem reads_frames {within : Bool} {frames : List WsFrame} {parser : WsParser}
    (follows : Follows within frames) (here : parser.state = .opcode)
    (open' : within = true → parser.fragment = true) :
    ∃ next, Reads wsByte parser (encodeFrames frames) (frames.flatMap WsFrame.events) next := by
  induction frames generalizing within parser with
  | nil => exact ⟨parser, .nil parser⟩
  | cons frame frames inductionHypothesis =>
      have step : (frame.opcode = .continuation → parser.fragment = true) ∧
          ∃ within', Follows within' frames ∧
            (within' = true → (parser.opened frame).fragment = true) := by
        unfold Follows at follows
        cases opcode : frame.opcode with
        | continuation =>
            rw [opcode] at follows
            have fragment := open' follows.1
            exact ⟨fun _ => fragment, _, follows.2, fun _ => by simpa [WsParser.opened, opcode] using fragment⟩
        | text | binary =>
            rw [opcode] at follows
            exact ⟨by simp, _, follows.2, by simp [WsParser.opened, opcode]⟩
        | close | ping | pong =>
            rw [opcode] at follows
            exact ⟨by simp, within, follows, by simpa [WsParser.opened, opcode] using open'⟩
      obtain ⟨continues, within', later, stillOpen⟩ := step
      obtain ⟨middle, reads, atOpcode, fragment⟩ := reads_frame here continues
      obtain ⟨next, rest⟩ := inductionHypothesis later atOpcode (fragment ▸ stillOpen)
      exact ⟨next, reads.append rest⟩

theorem dataBytes_append (left right : List WsEvent) :
    dataBytes (left ++ right) = dataBytes left ++ dataBytes right :=
  List.filterMap_append

private theorem dataBytes_frame (frame : WsFrame) :
    dataBytes frame.events = if frame.opcode.isControl then [] else frame.payload := by
  have begins : dataBytes frame.begins = [] := by
    unfold WsFrame.begins
    cases frame.opcode <;> rfl
  have ends : dataBytes frame.ends = [] := by
    unfold WsFrame.ends
    cases frame.opcode.isControl <;> cases frame.fin <;> rfl
  rw [WsFrame.events, dataBytes_append, dataBytes_append, begins, ends, List.append_nil, List.nil_append]
  cases isControl : frame.opcode.isControl <;>
    simp [dataBytes, WsFrame.shows, isControl, List.filterMap_map, Function.comp_def]

theorem dataBytes_frames (frames : List WsFrame) :
    dataBytes (frames.flatMap WsFrame.events) = dataPayloads frames := by
  induction frames with
  | nil => rfl
  | cons frame frames inductionHypothesis =>
      rw [List.flatMap_cons, dataBytes_append, inductionHypothesis, dataBytes_frame]
      cases isControl : frame.opcode.isControl <;> simp [dataPayloads, isControl]

end FbBroker.Ws
