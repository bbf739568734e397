import FbBroker.Parser.Fields
import FbBroker.Parser.Lengths

/-!
Contract: the remaining length between `encode_rem_len` and the parser.

Owns the round trip: the encoding of a length has the fewest bytes there can be, and
the parser leaves `S_REM_LEN` behind its last byte, with the length and without an
overflow on the way. Encodings are therefore self-delimiting.

Does not own lengths of more than four bytes, which the parser does not reject.
-/

set_option autoImplicit false

namespace FbBroker.Parser

open FbBroker.Packet FbBroker.Lib
open Host (advance advance_cons advance_append)

variable {allowAnonymous : Bool}

/-! ### Encodings -/

/-- A remaining length of at most four bytes: all but the last one continue. -/
structure LengthField (bytes front : List Byte) (last : Byte) : Prop where
  split : bytes = front ++ [last]
  short : front.length ≤ 3
  continued : ∀ byte ∈ front, continues byte
  ends : continues last = false

private theorem continues_ofNat {digit : Nat} (small : digit < 128) : continues (UInt8.ofNat digit) = false := by
  have value : (UInt8.ofNat digit).toNat = digit := by
    rw [UInt8.toNat_ofNat', Nat.mod_eq_of_lt (by omega)]
  rw [continues, value, (low_bits digit small).2]
  rfl

private theorem continues_ofNat_top {digit : Nat} (small : digit < 128) : continues (UInt8.ofNat (digit + 128)) := by
  have value : (UInt8.ofNat (digit + 128)).toNat = digit + 128 := by
    rw [UInt8.toNat_ofNat', Nat.mod_eq_of_lt (by omega)]
  rw [continues, value]
  exact decide_eq_true (top_bit digit small).2

/-- The last byte of an encoding ends it, and no other one does. -/
theorem encodeRemLen_ends (length : Nat) :
    ∃ front last, encodeRemLen length = front ++ [last] ∧ (∀ byte ∈ front, continues byte) ∧
      continues last = false := by
  induction length using Nat.strongRecOn with
  | ind length inductionHypothesis =>
      rw [encodeRemLen_eq]
      by_cases small : length < 128
      · rw [if_pos small]
        exact ⟨[], _, rfl, by simp, continues_ofNat small⟩
      · rw [if_neg small]
        obtain ⟨front, last, split, continued, ends⟩ := inductionHypothesis (length / 128) (by omega)
        refine ⟨_ :: front, last, by rw [split]; rfl, ?_, ends⟩
        intro byte member
        rcases List.mem_cons.mp member with isFirst | later
        · rw [isFirst]
          exact continues_ofNat_top (Nat.mod_lt _ (by decide))
        · exact continued byte later

private theorem mqttLength_cons (byte : Byte) (bytes : List Byte) :
    mqttLength (byte :: bytes) = byte.toNat % 128 + 128 * mqttLength bytes := by
  simp [mqttLength, Nat.ofDigits_cons]

/-- The value of an encoding is the length it was made of. -/
theorem mqttLength_encodeRemLen (length : Nat) : mqttLength (encodeRemLen length) = length := by
  induction length using Nat.strongRecOn with
  | ind length inductionHypothesis =>
      rw [encodeRemLen_eq]
      by_cases small : length < 128
      · have value : (UInt8.ofNat length).toNat = length := by
          rw [UInt8.toNat_ofNat', Nat.mod_eq_of_lt (by omega)]
        rw [if_pos small, mqttLength_cons, value]
        simp [mqttLength, Nat.mod_eq_of_lt small]
      · have value : (UInt8.ofNat (length % 128 + 128)).toNat = length % 128 + 128 := by
          rw [UInt8.toNat_ofNat', Nat.mod_eq_of_lt (by omega)]
        rw [if_neg small, mqttLength_cons, value, inductionHypothesis (length / 128) (by omega)]
        omega

private theorem lengthField_encodeRemLen {length : Nat} (small : length < 2 ^ 28) :
    ∃ front last, LengthField (encodeRemLen length) front last := by
  obtain ⟨front, last, split, continued, ends⟩ := encodeRemLen_ends length
  have short := length_encodeRemLen_le (show length < 128 ^ (3 + 1) from small)
  rw [split, List.length_append, List.length_singleton] at short
  exact ⟨front, last, split, by omega, continued, ends⟩

/-! ### Reading -/

/-- The parser in `S_REM_LEN`, before the first byte of a length. -/
structure AwaitsLength (s : Session) : Prop where
  state : s.state = .remLen
  remLen : s.remLen = 0
  multiplier : s.multiplier = 1

/-- The session behind some bytes of a length. -/
def Session.within (s : Session) (bytes : List Byte) : Session :=
  { s with remLen := mqttLength bytes, multiplier := 128 ^ bytes.length }

theorem AwaitsLength.within {s : Session} (awaits : AwaitsLength s) : s.within [] = s := by
  have zero : mqttLength [] = s.remLen := awaits.remLen ▸ rfl
  have one : 128 ^ ([] : List Byte).length = s.multiplier := awaits.multiplier ▸ rfl
  rw [Session.within, zero, one]

/-- Bytes that continue are taken in without an overflow. -/
theorem readsLength_within (s : Session) {bytes : List Byte} (short : bytes.length ≤ 3)
    (continued : ∀ byte ∈ bytes, continues byte) : ReadsLength bytes (s.within bytes) :=
  ⟨short, continued, rfl, rfl⟩

private theorem parserByte_remLen {s : Session} (here : s.state = .remLen) (mallocOk : Bool) (byte : Byte) :
    parserByte allowAnonymous mallocOk s byte = remLenByte s byte := by
  unfold parserByte
  rw [here]

/-- They leave the parser in `S_REM_LEN`. -/
theorem advance_within {s : Session} (here : s.state = .remLen) {bytes more : List Byte}
    (short : (bytes ++ more).length ≤ 3) (continued : ∀ byte ∈ bytes ++ more, continues byte) :
    advance allowAnonymous (s.within bytes) more = some (s.within (bytes ++ more)) := by
  induction more generalizing bytes with
  | nil => rw [List.append_nil]; rfl
  | cons byte more inductionHypothesis =>
      have front : ReadsLength bytes (s.within bytes) := by
        apply readsLength_within
        · rw [List.length_append] at short
          omega
        · exact fun byte member => continued byte (List.mem_append_left _ member)
      have goesOn : parserByte allowAnonymous true (s.within bytes) byte =
          .next (s.within (bytes ++ [byte])) := by
        rw [parserByte_remLen (s := s.within bytes) here, front.remLenByte byte,
          if_pos (continued byte (by simp))]
        rfl
      rw [List.append_cons] at short continued ⊢
      rw [advance_cons goesOn, inductionHypothesis short continued]

/-- The parser reads a length: in front of each byte it is in `S_REM_LEN` and takes the
byte in without an overflow, and behind the last one it has left that state for the body
of the packet, with the length. -/
structure ReadsBack (allowAnonymous : Bool) (bytes : List Byte) (length : Nat) (s last : Session) :
    Prop where
  inside : ∀ front byte rest, bytes = front ++ byte :: rest →
    ∃ middle, advance allowAnonymous s front = some middle ∧ middle.state = .remLen ∧
      TakesLength front middle byte
  leaves : advance allowAnonymous s bytes = some last
  state : bodyState s.header.msgType = some last.state
  remLen : last.remLen = length

theorem LengthField.readsBack {bytes front : List Byte} {byte : Byte} (field : LengthField bytes front byte)
    {s : Session} (awaits : AwaitsLength s) {state : PState} (body : bodyState s.header.msgType = some state) :
    ReadsBack allowAnonymous bytes (mqttLength bytes) s { s.within bytes with state } := by
  have reads : ∀ part, part <+: front → advance allowAnonymous s part = some (s.within part) ∧
      ReadsLength part (s.within part) := by
    intro part isPrefix
    have short := isPrefix.length_le.trans field.short
    have continued : ∀ byte ∈ part, continues byte :=
      fun byte member => field.continued byte (isPrefix.subset member)
    have ran : advance allowAnonymous (s.within []) part = some (s.within part) :=
      advance_within awaits.state short continued
    rw [awaits.within] at ran
    exact ⟨ran, readsLength_within s short continued⟩
  refine ⟨?_, ?_, body, rfl⟩
  · intro part next rest split
    have isPrefix : part <+: front := by
      have whole : front ++ [byte] = part ++ next :: rest := field.split.symm.trans split
      have shorter : part.length ≤ front.length := by
        have lengths := congrArg List.length whole
        simp only [List.length_append, List.length_cons, List.length_nil] at lengths
        omega
      exact List.prefix_of_prefix_length_le (List.prefix_append part (next :: rest))
        (whole ▸ List.prefix_append front [byte]) shorter
    obtain ⟨ran, reading⟩ := reads part isPrefix
    exact ⟨s.within part, ran, awaits.state, reading.takes next⟩
  · obtain ⟨ran, reading⟩ := reads front (List.prefix_refl front)
    have last : parserByte allowAnonymous true (s.within front) byte =
        .next { s.within bytes with state } := by
      rw [parserByte_remLen (s := s.within front) awaits.state, reading.remLenByte byte,
        if_neg (by simp [field.ends]), field.split]
      exact dispatch_body body
    rw [field.split, advance_append ran, advance_cons (field.split ▸ last)]
    rfl

/-- The loop reads the length and goes on behind it, whatever `malloc` answers. -/
theorem ReadsBack.execute {State : Type} {host : Host State} {mallocOk : Bool} {At : Session → State → Prop}
    (answers : host.Answers mallocOk At) {bytes : List Byte} {length : Nat} {s last : Session} {state : State}
    (reads : ReadsBack host.allowAnonymous bytes length s last) (stored : At s state) :
    ∃ later, At last later ∧ ∀ rest,
      (host.mqttParserExecute (bytes ++ rest)).run state = (host.mqttParserExecute rest).run later := by
  have here : ∀ front byte rest, bytes = front ++ byte :: rest →
      ∃ middle, advance host.allowAnonymous s front = some middle ∧ middle.state = .remLen := by
    intro front byte rest split
    obtain ⟨middle, ran, inState, -⟩ := reads.inside front byte rest split
    exact ⟨middle, ran, inState⟩
  have leaves := reads.leaves
  clear reads
  induction bytes generalizing s state with
  | nil =>
      obtain rfl : s = last := Option.some.inj leaves
      exact ⟨state, stored, fun _ => rfl⟩
  | cons byte bytes inductionHypothesis =>
      obtain ⟨first, isFirst, inState⟩ := here [] byte bytes rfl
      obtain rfl : s = first := Option.some.inj isFirst
      have independent : ∀ mallocOk byte,
          parserByte host.allowAnonymous mallocOk s byte = remLenByte s byte := parserByte_remLen inState
      cases parses : parserByte host.allowAnonymous true s byte with
      | next next =>
          obtain ⟨middle, runs, holds⟩ := answers.round_next stored
            ((independent mallocOk byte).trans ((independent true byte).symm.trans parses))
          rw [advance_cons parses] at leaves
          obtain ⟨later, held, follows⟩ := inductionHypothesis holds
            (fun front byte' rest split => by
              obtain ⟨middle, ran, inState⟩ := here (byte :: front) byte' rest (by rw [split]; rfl)
              exact ⟨middle, (advance_cons parses).symm.trans ran, inState⟩) leaves
          refine ⟨later, held, fun rest => ?_⟩
          rw [List.cons_append, Host.execute_cons_none host runs, follows]
      | _ => simp [advance, parses] at leaves

/-! ### Round trip -/

private theorem bodyState_ne_remLen (msgType : MsgType) : bodyState msgType ≠ some .remLen := by
  cases msgType <;> simp [bodyState]

private theorem bodyState_of_mem {msgType : MsgType}
    (hasBody : msgType ∈ [.connect, .publish, .subscribe, .unsubscribe]) :
    ∃ state, bodyState msgType = some state := by
  simp only [List.mem_cons, List.not_mem_nil, or_false] at hasBody
  rcases hasBody with rfl | rfl | rfl | rfl <;> exact ⟨_, rfl⟩

/-- No bytes that stand for a length are fewer than its encoding. -/
theorem length_encodeRemLen_fewest {bytes : List Byte} (some : bytes ≠ []) :
    (encodeRemLen (mqttLength bytes)).length ≤ bytes.length := by
  have positive := List.length_pos_iff.mpr some
  have below := mqttLength_lt bytes
  rw [← Nat.sub_add_cancel positive] at below ⊢
  exact length_encodeRemLen_le below

/-- An encoding in front of another one is the other one: the parser leaves `S_REM_LEN`
behind both. -/
theorem ReadsBack.unique {shorter longer : List Byte} {n m : Nat} {s last final : Session}
    (first : ReadsBack allowAnonymous shorter n s last) (second : ReadsBack allowAnonymous longer m s final)
    (isPrefix : shorter <+: longer) : n = m := by
  obtain ⟨rest, split⟩ := isPrefix
  cases rest with
  | nil =>
      have same : some last = some final := by
        rw [← first.leaves, ← second.leaves, ← split, List.append_nil]
      rw [← first.remLen, ← second.remLen, Option.some.inj same]
  | cons byte rest =>
      obtain ⟨middle, ran, inState, -⟩ := second.inside shorter byte rest split.symm
      have same : last = middle := Option.some.inj (first.leaves.symm.trans ran)
      have left := first.state
      rw [same, inState] at left
      exact absurd left (bodyState_ne_remLen _)

/-- The remaining length round trip. The encoding of a length below 2^28 has one to four
bytes, and no other way to write it has fewer. The parser reads it back and leaves
`S_REM_LEN` exactly behind it, so no encoding stands in front of another one. -/
theorem remLen_round_trip {length : Nat} (small : length < 2 ^ 28) {s : Session} (awaits : AwaitsLength s)
    (hasBody : s.header.msgType ∈ [.connect, .publish, .subscribe, .unsubscribe]) :
    ((encodeRemLen length).length ∈ Set.Icc 1 4 ∧
      ∀ bytes : List Byte, bytes ≠ [] → mqttLength bytes = length →
        (encodeRemLen length).length ≤ bytes.length) ∧
    (∃ last, ReadsBack allowAnonymous (encodeRemLen length) length s last ∧
      ∀ {State : Type} (host : Host State) (mallocOk : Bool) (At : Session → State → Prop),
        host.allowAnonymous = allowAnonymous → host.Answers mallocOk At → ∀ state, At s state →
          ∃ later, At last later ∧ ∀ rest,
            (host.mqttParserExecute (encodeRemLen length ++ rest)).run state =
              (host.mqttParserExecute rest).run later) ∧
    ∀ other < 2 ^ 28, encodeRemLen length <+: encodeRemLen other → length = other := by
  have reads : ∀ length < 2 ^ 28, ∃ last, ReadsBack allowAnonymous (encodeRemLen length) length s last := by
    intro length small
    obtain ⟨front, byte, field⟩ := lengthField_encodeRemLen small
    obtain ⟨state, body⟩ := bodyState_of_mem hasBody
    refine ⟨{ s.within (encodeRemLen length) with state }, ?_⟩
    have back : ReadsBack allowAnonymous _ _ s _ := field.readsBack awaits body
    rwa [mqttLength_encodeRemLen] at back
  obtain ⟨last, back⟩ := reads length small
  refine ⟨⟨⟨?_, ?_⟩, ?_⟩, ⟨last, back, ?_⟩, ?_⟩
  · obtain ⟨front, byte, field⟩ := lengthField_encodeRemLen small
    rw [field.split, List.length_append]
    exact Nat.le_add_left 1 front.length
  · exact length_encodeRemLen_le (show length < 128 ^ (3 + 1) from small)
  · rintro bytes some rfl
    exact length_encodeRemLen_fewest some
  · rintro State host mallocOk At rfl answers state stored
    exact back.execute answers stored
  · intro other otherSmall isPrefix
    obtain ⟨final, otherBack⟩ := reads other otherSmall
    exact back.unique otherBack isPrefix

/-- Behind the header byte of a PUBLISH, a length of two bytes. -/
theorem remLen_round_trip_two_bytes :
    ∃ s, AwaitsLength s ∧ encodeRemLen 321 = [193, 2] ∧
      ∃ last, ReadsBack false (encodeRemLen 321) 321 s last := by
  let s : Session := { mqttParserInit with state := .remLen, multiplier := 1, header.msgType := .publish }
  have awaits : AwaitsLength s := ⟨rfl, rfl, rfl⟩
  obtain ⟨-, ⟨last, back, -⟩, -⟩ :=
    remLen_round_trip (show 321 < 2 ^ 28 by decide) awaits (by simp [s])
  refine ⟨s, awaits, ?_, last, back⟩
  rw [encodeRemLen_eq, encodeRemLen_eq]
  rfl

end FbBroker.Parser
