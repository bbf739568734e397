import Mathlib.Algebra.Group.Int.Defs
import Mathlib.Algebra.Group.Nat.Defs
import Mathlib.Data.List.TakeWhile

/-!
Contract: bytes, C strings and run-time faults.

Owns the byte alphabet of topics and filters, the view of a buffer as a
NUL-terminated string, the `$local/` prefix that several modules drop, and the
ways a run of the C program can leave its defined behaviour.

A buffer is the list of its bytes without the terminator the program stores
behind them.
-/

set_option autoImplicit false

namespace FbBroker

abbrev Byte := UInt8

/-- The bytes of a C string literal. -/
def lit (text : String) : List Byte :=
  text.toList.map fun char => UInt8.ofNat char.toNat

instance decidableMemTexts (text : List Byte) (texts : List (List Byte)) : Decidable (text ∈ texts) :=
  inferInstance

def slash : Byte := 47
def plus : Byte := 43
def hash : Byte := 35
def dollar : Byte := 36

/-- What a `char *` walk over the buffer sees: the bytes before the first NUL. -/
def cstr (buffer : List Byte) : List Byte :=
  buffer.takeWhile (· != 0)

theorem cstr_eq_self {buffer : List Byte} (nulFree : (0 : Byte) ∉ buffer) :
    cstr buffer = buffer := by
  unfold cstr
  rw [List.takeWhile_eq_self_iff]
  intro byte member
  simp only [bne_iff_ne, ne_eq]
  rintro rfl
  exact nulFree member

theorem zero_notMem_cstr (buffer : List Byte) : (0 : Byte) ∉ cstr buffer := by
  intro member
  have := List.mem_takeWhile_imp member
  simp at this

theorem cstr_append {left : List Byte} (nulFree : (0 : Byte) ∉ left) (right : List Byte) :
    cstr (left ++ right) = left ++ cstr right := by
  unfold cstr
  refine List.takeWhile_append_of_pos fun byte member => ?_
  simp only [bne_iff_ne, ne_eq]
  intro isNul
  exact nulFree (isNul ▸ member)

/-- Nothing behind a NUL matters. -/
theorem cstr_append_of_mem {left : List Byte} (hasNul : (0 : Byte) ∈ left) (right : List Byte) :
    cstr (left ++ right) = cstr left := by
  unfold cstr
  induction left with
  | nil => simp at hasNul
  | cons byte left inductionHypothesis =>
      by_cases isNul : byte = 0
      · simp [isNul]
      · have later : (0 : Byte) ∈ left := by simpa [Ne.symm isNul] using hasNul
        simp [isNul, inductionHypothesis later]

theorem cstr_isPrefix (buffer : List Byte) : cstr buffer <+: buffer :=
  List.takeWhile_prefix _

/-- `strlen` counts all bytes of a text without NUL, and only of such. -/
theorem length_cstr_eq_iff {buffer : List Byte} : (cstr buffer).length = buffer.length ↔ (0 : Byte) ∉ buffer := by
  constructor
  · intro whole
    rw [← (cstr_isPrefix buffer).eq_of_length whole]
    exact zero_notMem_cstr buffer
  · intro nulFree
    rw [cstr_eq_self nulFree]

/-- `strncmp(s, "$local/", 7) == 0`. -/
def isLocal (text : List Byte) : Bool :=
  (lit "$local/").isPrefixOf text

/-- The string from which a leading `$local/` has been dropped. -/
def dropLocal (text : List Byte) : List Byte :=
  if isLocal text then text.drop 7 else text

private theorem dropLocal_of_not {text : List Byte} (plain : isLocal text = false) :
    dropLocal text = text := by
  simp [dropLocal, plain]

theorem dropLocal_append (text : List Byte) : dropLocal (lit "$local/" ++ text) = text := by
  have isPrefix : isLocal (lit "$local/" ++ text) = true :=
    List.isPrefixOf_iff_prefix.mpr (List.prefix_append _ _)
  rw [dropLocal, if_pos isPrefix]
  exact List.drop_left' (by decide)

/-- Dropping the prefix and stopping at the first NUL commute. -/
theorem dropLocal_cstr (buffer : List Byte) : dropLocal (cstr buffer) = cstr (dropLocal buffer) := by
  by_cases isPrefix : isLocal buffer = true
  · obtain ⟨rest, split⟩ := List.isPrefixOf_iff_prefix.mp isPrefix
    have shorter : cstr buffer = lit "$local/" ++ cstr rest := by
      rw [← split, cstr_append (by decide)]
    have still : isLocal (cstr buffer) = true := by
      rw [shorter]
      exact List.isPrefixOf_iff_prefix.mpr (List.prefix_append _ _)
    have length : (lit "$local/").length = 7 := by decide
    simp only [dropLocal, isPrefix, still, if_true]
    rw [shorter, ← split, List.drop_left' length, List.drop_left' length]
  · have plain : isLocal buffer = false := by simpa using isPrefix
    have stillPlain : isLocal (cstr buffer) = false := by
      rw [Bool.eq_false_iff]
      intro cut
      exact isPrefix (List.isPrefixOf_iff_prefix.mpr
        ((List.isPrefixOf_iff_prefix.mp cut).trans (cstr_isPrefix buffer)))
    rw [dropLocal_of_not plain, dropLocal_of_not stillPlain]

/-- How a run of the program leaves its defined behaviour. -/
inductive Fault where
  /-- a record is read or written after `free` -/
  | useAfterFree
  /-- a null pointer is dereferenced -/
  | nullPointer
  /-- an array is indexed outside its bounds -/
  | outOfBounds
  /-- an `ASSERT` fails; `debug_assert_failure` ends the process -/
  | assertion
  /-- a walk over a list did not end within the bound the model was given -/
  | unbounded
deriving DecidableEq, Repr

end FbBroker
