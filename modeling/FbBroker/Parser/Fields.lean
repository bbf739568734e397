import Mathlib.Tactic.Ring
import FbBroker.Parser.Execute

/-!
Contract: how the parser reads the fields packets are made of.

Owns the fixed header with its remaining length, two-byte numbers, and one rule
for the loops that copy the bytes of a field until a counter meets its length.

Does not own any packet.
-/

set_option autoImplicit false

namespace FbBroker.Parser

open FbBroker.Packet FbBroker.Lib
open Host (Parses)

variable {allowAnonymous mallocOk : Bool} {s : Session} {state : PState}

/-! ### The fixed header -/

/-- The state behind the fixed header of a packet that has a body. -/
def bodyState : MsgType → Option PState
  | .connect => some (.connect .protocol0)
  | .subscribe => some (.subscribe .packetId0)
  | .unsubscribe => some (.unsubscribe .packetId0)
  | .publish => some (.publish .topic0)
  | _ => none

theorem dispatch_body
    (body : bodyState s.header.msgType = some state) : dispatch s = .next { s with state } := by
  unfold bodyState at body
  unfold dispatch
  split at body <;> simp_all

private theorem parserByte_encodeHeaderByte (atHeader : s.state = .header) {type : MsgType}
    (body : bodyState type = some state) {dup qos : Nat} (dupBit : dup ≤ 1) (qosBits : qos ≤ 3) :
    parserByte allowAnonymous mallocOk s (encodeHeaderByte type dup qos 0) =
      .next { s with
        header := ⟨type, dup, qos, 0⟩, remLen := 0, multiplier := 1, state := .remLen } := by
  have known : ¬ (type = .none ∨ type = .numTypes) := by
    intro unknown
    rcases unknown with none | numTypes
    · rw [none] at body
      exact absurd body (by simp [bodyState])
    · rw [numTypes] at body
      exact absurd body (by simp [bodyState])
  simp [parserByte, atHeader, headerByte, known,
    Header.ofByte_encodeHeaderByte type dupBit qosBits (Nat.zero_le 1)]

theorem low_bits : ∀ digit < 128, digit &&& 127 = digit ∧ digit &&& 128 = 0 := by
  decide

theorem top_bit : ∀ digit < 128, (digit + 128) &&& 127 = digit ∧ (digit + 128) &&& 128 ≠ 0 := by
  decide

/-- The last byte of the remaining length. -/
theorem parserByte_remLen_last (atRemLen : s.state = .remLen)
    (body : bodyState s.header.msgType = some state) {length : Nat} (small : length < 128)
    (fits : s.remLen + length * s.multiplier < 2 ^ 32) :
    parserByte allowAnonymous mallocOk s (UInt8.ofNat length) =
      .next { s with
        remLen := s.remLen + length * s.multiplier
        multiplier := s.multiplier * 128 % 2 ^ 32
        state } := by
  have value : (UInt8.ofNat length).toNat = length := by
    rw [UInt8.toNat_ofNat', Nat.mod_eq_of_lt (by omega)]
  obtain ⟨lowBits, topBit⟩ := low_bits length small
  unfold parserByte
  rw [atRemLen]
  show remLenByte s _ = _
  unfold remLenByte
  rw [value, lowBits, topBit, Nat.mod_eq_of_lt fits]
  simp only [if_true]
  exact dispatch_body body

/-- A byte of the remaining length that is followed by another. -/
theorem parserByte_remLen_more (atRemLen : s.state = .remLen) {digit : Nat}
    (small : digit < 128) (fits : s.remLen + digit * s.multiplier < 2 ^ 32)
    (shifts : s.multiplier * 128 < 2 ^ 32) :
    parserByte allowAnonymous mallocOk s (UInt8.ofNat (digit + 128)) =
      .next { s with
        remLen := s.remLen + digit * s.multiplier, multiplier := s.multiplier * 128 } := by
  have value : (UInt8.ofNat (digit + 128)).toNat = digit + 128 := by
    rw [UInt8.toNat_ofNat', Nat.mod_eq_of_lt (by omega)]
  obtain ⟨lowBits, topBit⟩ := top_bit digit small
  unfold parserByte
  rw [atRemLen]
  show remLenByte s _ = _
  unfold remLenByte
  rw [value, lowBits, if_neg topBit, Nat.mod_eq_of_lt fits, Nat.mod_eq_of_lt shifts, atRemLen]

/-- The remaining length is read back, and the body follows. -/
theorem parses_remLen (length : Nat) (atRemLen : s.state = .remLen)
    (body : bodyState s.header.msgType = some state) (positive : 0 < s.multiplier)
    (fits : s.remLen + length * s.multiplier < 2 ^ 32) :
    ∃ multiplier, Parses allowAnonymous mallocOk s (encodeRemLen length)
      (.next { s with
        remLen := s.remLen + length * s.multiplier, multiplier := multiplier, state }) := by
  -- along the recursion of `encode_rem_len`, which divides the length by 128
  induction length using Nat.strongRecOn generalizing s with
  | ind length inductionHypothesis =>
      rw [encodeRemLen_eq]
      by_cases small : length < 128
      · rw [if_pos small]
        exact ⟨_, .last (parserByte_remLen_last atRemLen body small fits)⟩
      · rw [if_neg small]
        have split : length * s.multiplier =
            length % 128 * s.multiplier + length / 128 * (s.multiplier * 128) := by
          conv_lhs => rw [← Nat.mod_add_div length 128]
          ring
        have one : 1 * (s.multiplier * 128) ≤ length / 128 * (s.multiplier * 128) :=
          Nat.mul_le_mul_right _ (by omega)
        obtain ⟨multiplier, moves⟩ := inductionHypothesis (length / 128) (by omega)
          (s := { s with
            remLen := s.remLen + length % 128 * s.multiplier, multiplier := s.multiplier * 128 })
          atRemLen body (by dsimp only; omega) (by dsimp only; omega)
        refine ⟨multiplier, .more (parserByte_remLen_more atRemLen (Nat.mod_lt _ (by decide))
          (by omega) (by omega)) ?_⟩
        rw [split, ← Nat.add_assoc]
        exact moves

/-- The fixed header of a packet that has a body. -/
theorem parses_fixedHeader (atHeader : s.state = .header) {type : MsgType}
    (body : bodyState type = some state) {dup qos : Nat} (dupBit : dup ≤ 1) (qosBits : qos ≤ 3)
    {length : Nat} (small : length < 2 ^ 32) :
    ∃ multiplier, Parses allowAnonymous mallocOk s
      (encodeHeaderByte type dup qos 0 :: encodeRemLen length)
      (.next { s with header := ⟨type, dup, qos, 0⟩, remLen := length, multiplier, state }) := by
  obtain ⟨multiplier, moves⟩ : ∃ multiplier, Parses allowAnonymous mallocOk
      { s with header := ⟨type, dup, qos, 0⟩, remLen := 0, multiplier := 1, state := .remLen }
      (encodeRemLen length)
      (.next { s with
        header := ⟨type, dup, qos, 0⟩, remLen := 0 + length * 1, multiplier, state }) :=
    parses_remLen length rfl body Nat.one_pos (by simpa using small)
  simp only [Nat.zero_add, Nat.mul_one] at moves
  exact ⟨multiplier, .more (parserByte_encodeHeaderByte atHeader body dupBit qosBits) moves⟩

/-! ### Two bytes -/

theorem low_high_encodeShort {value : Nat} (small : value < 2 ^ 16) :
    low (high (UInt8.ofNat (value / 256))) (UInt8.ofNat (value % 256)) = value := by
  have highByte : (UInt8.ofNat (value / 256)).toNat = value / 256 := by
    rw [UInt8.toNat_ofNat', Nat.mod_eq_of_lt (by omega)]
  have lowByte : (UInt8.ofNat (value % 256)).toNat = value % 256 := by
    rw [UInt8.toNat_ofNat', Nat.mod_mod]
  rw [low, high, highByte, lowByte,
    ← Nat.shiftLeft_add_eq_or_of_lt (show value % 256 < 2 ^ 8 from Nat.mod_lt _ (by decide)),
    Nat.shiftLeft_eq]
  omega

/-- A two-byte number is read in two rounds. -/
theorem parses_short {s middle : Session} {value : Nat} {outcome : Outcome}
    (first : parserByte allowAnonymous mallocOk s (UInt8.ofNat (value / 256)) = .next middle)
    (second : parserByte allowAnonymous mallocOk middle (UInt8.ofNat (value % 256)) = outcome) :
    Parses allowAnonymous mallocOk s (encodeShort value) outcome :=
  .more first (.last second)

/-! ### Copied bytes -/

/-- An array whose first bytes have been overwritten. -/
def fill (array : Nat → Byte) (read : List Byte) : Nat → Byte :=
  fun index => read[index]?.getD (array index)

@[simp] theorem fill_nil (array : Nat → Byte) : fill array [] = array := by
  funext index
  simp [fill]

theorem fill_of_le {array : Nat → Byte} {read : List Byte} {index : Nat}
    (behind : read.length ≤ index) : fill array read index = array index := by
  simp [fill, List.getElem?_eq_none behind]

theorem update_fill (array : Nat → Byte) (read : List Byte) (b : Byte) :
    Function.update (fill array read) read.length b = fill array (read ++ [b]) := by
  funext index
  by_cases here : index = read.length
  · subst index
    simp [fill]
  · rw [Function.update_of_ne here]
    by_cases inside : index < read.length
    · simp [fill, List.getElem?_append_left inside]
    · have behind : (read ++ [b]).length ≤ index := by
        rw [List.length_append, List.length_singleton]
        omega
      rw [fill_of_le (by omega), fill_of_le behind]

@[simp] theorem bytes_fill (array : Nat → Byte) (read : List Byte) :
    bytes read.length (fill array read) = read := by
  apply List.ext_getElem
  · simp
  · intro index _ inside
    simp [bytes, fill, inside]

/-- The loop over the bytes of a field: if each byte but the last moves the
parser on, the field has the outcome of its last byte. -/
theorem parses_copy (Behind : List Byte → Session → Prop) {content : List Byte} {ends : Outcome → Prop}
    (more : ∀ read s b, Behind read s → read.length + 1 < content.length →
      ∃ next, parserByte allowAnonymous mallocOk s b = .next next ∧ Behind (read ++ [b]) next)
    (last : ∀ read s b, Behind read s → read ++ [b] = content →
      ends (parserByte allowAnonymous mallocOk s b))
    (nonempty : content ≠ []) (start : Behind [] s) :
    ∃ outcome, Parses allowAnonymous mallocOk s content outcome ∧ ends outcome := by
  suffices copies : ∀ rest read s, Behind read s → read ++ rest = content → rest ≠ [] →
      ∃ outcome, Parses allowAnonymous mallocOk s rest outcome ∧ ends outcome from
    copies content [] s start rfl nonempty
  intro rest
  induction rest with
  | nil =>
      intro read s _ _ empty
      exact absurd rfl empty
  | cons b rest inductionHypothesis =>
      intro read s here whole _
      cases rest with
      | nil => exact ⟨_, .last rfl, last read s b here whole⟩
      | cons b' rest =>
          have inside : read.length + 1 < content.length := by
            rw [← whole, List.length_append, List.length_cons, List.length_cons]
            omega
          obtain ⟨next, moves, there⟩ := more read s b here inside
          obtain ⟨outcome, follows, ended⟩ := inductionHypothesis (read ++ [b]) next there
            (by rw [List.append_assoc]; exact whole) (by simp)
          exact ⟨outcome, .more moves follows, ended⟩

/-- The same loop where the session is known at every byte. -/
theorem parses_copied (copy : List Byte → Session) {content : List Byte} {outcome : Outcome}
    (more : ∀ read b, read.length + 1 < content.length →
      parserByte allowAnonymous mallocOk (copy read) b = .next (copy (read ++ [b])))
    (last : ∀ read b, read ++ [b] = content →
      parserByte allowAnonymous mallocOk (copy read) b = outcome)
    (nonempty : content ≠ []) : Parses allowAnonymous mallocOk (copy []) content outcome := by
  have copied : ∃ result, Parses allowAnonymous mallocOk (copy []) content result ∧
      result = outcome := by
    refine parses_copy (fun read s => s = copy read) ?_ ?_ nonempty rfl
    · intro read s b here inside
      subst here
      exact ⟨_, more read b inside, rfl⟩
    · intro read s b here whole
      subst here
      exact last read b whole
  obtain ⟨result, parses, same⟩ := copied
  exact same ▸ parses

/-- A field with its length in front. -/
theorem parses_string (copy : List Byte → Session) {s middle : Session} {content : List Byte}
    {outcome : Outcome}
    (first : parserByte allowAnonymous mallocOk s (UInt8.ofNat (content.length / 256)) = .next middle)
    (second : parserByte allowAnonymous mallocOk middle (UInt8.ofNat (content.length % 256)) =
      .next (copy []))
    (more : ∀ read b, read.length + 1 < content.length →
      parserByte allowAnonymous mallocOk (copy read) b = .next (copy (read ++ [b])))
    (last : ∀ read b, read ++ [b] = content →
      parserByte allowAnonymous mallocOk (copy read) b = outcome)
    (nonempty : content ≠ []) : Parses allowAnonymous mallocOk s (encodeString content) outcome :=
  (parses_short first second).append (parses_copied copy more last nonempty)

end FbBroker.Parser
