import FbBroker.Core.Bytes
import FbBroker.Data.TrieContents
import FbBroker.Lib.LevelCover

/-!
Contract: `mqtt_topic_matches` of `mqtt_packet.c`.

Owns the matching of a pattern against a byte string of given length, and what
it means level by level for patterns whose wildcards are whole levels: a match
makes the pattern cover the bytes, NULs and wildcard bytes included, and a
pattern of non-empty levels matches exactly the names that split into what its
levels stand for.
-/

set_option autoImplicit false

namespace FbBroker.Packet

open FbBroker.Lib FbBroker.TrieMult

/-- The loop of `mqtt_topic_matches`: `curf` is the rest of the pattern up to
its terminator, `curn` the rest of the name up to `curn_end`. -/
def topicMatchesLoop : List Byte → List Byte → Bool
  | [], curn => curn.isEmpty
  | _ :: _, [] => false
  | f :: curf, n :: curn =>
      if n = slash ∧ f ≠ slash then false
      else if f ≠ plus ∧ f ≠ hash ∧ f ≠ n then false
      else if f = plus then
        -- skip until the next separator, or the end
        topicMatchesLoop curf (curn.dropWhile (· != slash))
      else if f = hash then topicMatchesLoop curf []
      else topicMatchesLoop curf curn

/-- `mqtt_topic_matches` for a name of the given bytes, `topicLen` of them. -/
def mqttTopicMatches (topicFilter topicName : List Byte) : Bool :=
  topicMatchesLoop (cstr topicFilter) (dropLocal topicName)

/-- Wildcards stand alone on their level, and the remainder wildcard is not
used. -/
def Tidy (pattern : List Byte) : Prop :=
  ∀ level ∈ pattern.splitOn slash, level = [plus] ∨ plus ∉ level ∧ hash ∉ level

instance (pattern : List Byte) : Decidable (Tidy pattern) :=
  inferInstanceAs (Decidable (∀ level ∈ pattern.splitOn slash, _))

/-- A stretch of the pattern without wildcards is found in the name. -/
theorem topicMatchesLoop_append {plain rest name : List Byte} (noPlus : plus ∉ plain)
    (noHash : hash ∉ plain) :
    topicMatchesLoop (plain ++ rest) name = true ↔
      ∃ tail, name = plain ++ tail ∧ topicMatchesLoop rest tail = true := by
  induction plain generalizing name with
  | nil => simp
  | cons f plain inductionHypothesis =>
      simp only [List.mem_cons, not_or] at noPlus noHash
      cases name with
      | nil => simp [topicMatchesLoop]
      | cons n name =>
          have stepped : topicMatchesLoop (f :: plain ++ rest) (n :: name) = true ↔
              f = n ∧ topicMatchesLoop (plain ++ rest) name = true := by
            by_cases same : f = n
            · simp [topicMatchesLoop, same, same ▸ Ne.symm noPlus.1, same ▸ Ne.symm noHash.1]
            · simp [topicMatchesLoop, same, Ne.symm noPlus.1, Ne.symm noHash.1]
          rw [stepped, inductionHypothesis noPlus.2 noHash.2]
          simp only [List.cons_append, List.cons.injEq, eq_comm (a := f)]
          grind

/-- A level wildcard of the pattern takes a stretch without separators. -/
theorem topicMatchesLoop_plus {rest name : List Byte}
    (matched : topicMatchesLoop (plus :: rest) name = true) :
    ∃ level tail, name = level ++ tail ∧ slash ∉ level ∧ (tail = [] ∨ tail.head? = some slash) ∧
      topicMatchesLoop rest tail = true := by
  cases name with
  | nil => simp [topicMatchesLoop] at matched
  | cons n name =>
      have notSlash : n ≠ slash := by
        intro same
        simp [topicMatchesLoop, same, show plus ≠ slash by decide] at matched
      have restMatched : topicMatchesLoop rest (name.dropWhile (· != slash)) = true := by
        simpa [topicMatchesLoop, notSlash] using matched
      rcases Wildcard.cut_cases topicMarks name with ⟨cut, single⟩ | ⟨level, tail, cut, split, single⟩
      all_goals rw [topicMarks_sep] at cut single
      · rw [cut] at restMatched
        exact ⟨n :: name, [], by simp, by simp [Ne.symm notSlash, single], .inl rfl, restMatched⟩
      · rw [cut] at restMatched
        exact ⟨n :: level, slash :: tail, by simp [split], by simp [Ne.symm notSlash, single],
          .inr rfl, restMatched⟩

/-- One level of a tidy pattern takes one level of the name. -/
private theorem topicMatchesLoop_level {level rest name : List Byte} (single : slash ∉ level)
    (tidy : level = [plus] ∨ plus ∉ level ∧ hash ∉ level)
    (matched : topicMatchesLoop (level ++ rest) name = true) :
    ∃ taken tail, name = taken ++ tail ∧ slash ∉ taken ∧ (level = [plus] ∨ level = taken) ∧
      topicMatchesLoop rest tail = true := by
  rcases tidy with isPlus | ⟨noPlus, noHash⟩
  · subst level
    obtain ⟨taken, tail, split, takenSingle, -, restMatched⟩ := topicMatchesLoop_plus matched
    exact ⟨taken, tail, split, takenSingle, .inl rfl, restMatched⟩
  · obtain ⟨tail, split, restMatched⟩ := (topicMatchesLoop_append noPlus noHash).mp matched
    exact ⟨level, tail, split, single, .inr rfl, restMatched⟩

/-- A tidy pattern covers every name it matches. -/
theorem covers_of_topicMatchesLoop {pattern name : List Byte} (tidy : Tidy pattern)
    (matched : topicMatchesLoop pattern name = true) :
    Wildcard.Covers topicMarks pattern name = true := by
  induction size : pattern.length using Nat.strong_induction_on generalizing pattern name with
  | _ size inductionHypothesis =>
      subst size
      unfold Wildcard.Covers
      rw [topicMarks_sep]
      rcases Wildcard.cut_cases topicMarks pattern with ⟨-, single⟩ | ⟨level, rest, -, split, single⟩
      all_goals rw [topicMarks_sep] at single
      · rw [Tidy, List.splitOn_eq_singleton single] at tidy
        obtain ⟨taken, tail, nameSplit, takenSingle, here, restMatched⟩ :=
          topicMatchesLoop_level single (tidy pattern (by simp))
            (show topicMatchesLoop (pattern ++ []) name = true by simpa using matched)
        have ended : tail = [] := by simpa [topicMatchesLoop] using restMatched
        subst tail
        rw [nameSplit, List.append_nil, List.splitOn_eq_singleton takenSingle,
          List.splitOn_eq_singleton single]
        exact Wildcard.coversLevels_cons.mpr ⟨here, rfl⟩
      · rw [topicMarks_sep] at split
        subst pattern
        rw [Tidy, List.splitOn_append_cons_self_of_not_mem single] at tidy
        obtain ⟨taken, tail, nameSplit, takenSingle, here, restMatched⟩ :=
          topicMatchesLoop_level single (tidy level (by simp)) matched
        obtain ⟨below, tailIs, belowMatched⟩ :=
          (topicMatchesLoop_append (show plus ∉ [slash] by decide) (by decide)).mp restMatched
        rw [List.singleton_append] at tailIs
        subst tail
        have shorter : rest.length < (level ++ slash :: rest).length := by
          simp only [List.length_append, List.length_cons]
          omega
        have restCovers := inductionHypothesis _ shorter
          (fun next member => tidy next (List.mem_cons_of_mem _ member)) belowMatched rfl
        rw [Wildcard.Covers, topicMarks_sep] at restCovers
        rw [nameSplit, List.splitOn_append_cons_self_of_not_mem single,
          List.splitOn_append_cons_self_of_not_mem takenSingle]
        exact Wildcard.coversLevels_cons.mpr ⟨here, restCovers⟩

/-- A pattern without wildcards matches itself only. -/
theorem topicMatchesLoop_plain {pattern name : List Byte} (noPlus : plus ∉ pattern)
    (noHash : hash ∉ pattern) : topicMatchesLoop pattern name = true ↔ name = pattern := by
  rw [← List.append_nil pattern, topicMatchesLoop_append noPlus noHash]
  simp [topicMatchesLoop]

/-- With the level wildcard at its end it matches itself and a level that is
not empty. -/
theorem topicMatchesLoop_lastLevel {pattern name : List Byte} (noPlus : plus ∉ pattern)
    (noHash : hash ∉ pattern) :
    topicMatchesLoop (pattern ++ [plus]) name = true ↔
      ∃ level, level ≠ [] ∧ slash ∉ level ∧ name = pattern ++ level := by
  rw [topicMatchesLoop_append noPlus noHash]
  have last : ∀ level : List Byte, topicMatchesLoop [plus] level = true ↔
      level ≠ [] ∧ slash ∉ level := by
    intro level
    cases level with
    | nil => simp [topicMatchesLoop]
    | cons n level =>
        by_cases atSlash : n = slash
        · simp [topicMatchesLoop, atSlash, show plus ≠ slash by decide]
        · have cut : level.dropWhile (· != slash) = [] ↔ slash ∉ level := by
            simp only [List.dropWhile_eq_nil_iff, bne_iff_ne]
            exact ⟨fun others member => others slash member rfl, fun absent byte member same =>
              absent (same ▸ member)⟩
          simp [topicMatchesLoop, atSlash, Ne.symm atSlash, cut]
  grind

/-! ### What a pattern matches at all -/

/-- A wildcard stands where it matches nothing: bytes of its level follow `+`,
or anything follows `#`. -/
def blocked : List Byte → Bool
  | [] => false
  | [_] => false
  | f :: next :: rest => (f = plus && next != slash) || f = hash || blocked (next :: rest)

private theorem blocked_cons {f : Byte} {rest : List Byte} (opened : blocked (f :: rest) = false) :
    blocked rest = false := by
  cases rest with
  | nil => rfl
  | cons next rest =>
      simp only [blocked, Bool.or_eq_false_iff] at opened
      exact opened.2

private theorem rest_of_plus {rest : List Byte} (opened : blocked (plus :: rest) = false) :
    rest.dropWhile (· != slash) = rest := by
  cases rest with
  | nil => rfl
  | cons next rest =>
      have isSlash : next = slash := by
        simpa [blocked, show plus ≠ hash by decide] using (Bool.or_eq_false_iff.mp opened).1
      simp [isSlash]

private theorem rest_of_hash {rest : List Byte} (opened : blocked (hash :: rest) = false) : rest = [] := by
  cases rest with
  | nil => rfl
  | cons next rest => simp [blocked] at opened

/-- A blocked pattern matches no name. -/
theorem not_matches_of_blocked {pattern name : List Byte} (isBlocked : blocked pattern = true) :
    topicMatchesLoop pattern name = false := by
  induction pattern generalizing name with
  | nil => simp [blocked] at isBlocked
  | cons f pattern inductionHypothesis =>
      cases pattern with
      | nil => simp [blocked] at isBlocked
      | cons next rest =>
          cases name with
          | nil => rfl
          | cons n name =>
              by_cases later : blocked (next :: rest) = true
              · simp [topicMatchesLoop, inductionHypothesis later]
              · -- the wildcard is here
                have here : f = plus ∧ next ≠ slash ∨ f = hash := by
                  simpa [blocked, later] using isBlocked
                rcases here with ⟨isPlus, inside⟩ | isHash
                · subst isPlus
                  have skipped : topicMatchesLoop (next :: rest) (name.dropWhile (· != slash)) =
                      false := by
                    cases cut : name.dropWhile (· != slash) with
                    | nil => rfl
                    | cons first tail =>
                        have isSlash : first = slash := by
                          have kept : name.dropWhile (· != slash) ≠ [] := by simp [cut]
                          simpa [cut] using List.head_dropWhile_not (· != slash) kept
                        simp [topicMatchesLoop, isSlash, inside]
                  by_cases atSlash : n = slash
                  · simp [topicMatchesLoop, atSlash, show plus ≠ slash by decide]
                  · simp [topicMatchesLoop, atSlash, skipped]
                · subst isHash
                  by_cases atSlash : n = slash
                  · simp [topicMatchesLoop, atSlash, show hash ≠ slash by decide]
                  · simp [topicMatchesLoop, atSlash, show hash ≠ plus by decide]

/-- Any other pattern matches itself. -/
theorem matches_self {pattern : List Byte} (opened : blocked pattern = false) :
    topicMatchesLoop pattern pattern = true := by
  induction pattern with
  | nil => rfl
  | cons f pattern inductionHypothesis =>
      have later := inductionHypothesis (blocked_cons opened)
      by_cases isPlus : f = plus
      · subst isPlus
        simp [topicMatchesLoop, show plus ≠ slash by decide, rest_of_plus opened, later]
      by_cases isHash : f = hash
      · subst isHash
        simp [topicMatchesLoop, show hash ≠ slash by decide, show hash ≠ plus by decide,
          rest_of_hash opened]
      · simp [topicMatchesLoop, isPlus, isHash, later]

/-- Also with one of its level wildcards doubled. -/
theorem matches_doubled {front rest : List Byte}
    (opened : blocked (front ++ plus :: rest) = false) :
    topicMatchesLoop (front ++ plus :: rest) (front ++ plus :: plus :: rest) = true := by
  induction front with
  | nil =>
      have later := matches_self (blocked_cons opened)
      have skipped := rest_of_plus opened
      simp [topicMatchesLoop, show plus ≠ slash by decide, skipped, later]
  | cons f front inductionHypothesis =>
      have later := inductionHypothesis (blocked_cons opened)
      by_cases isPlus : f = plus
      · subst isPlus
        -- the next byte of the pattern is a separator, so it is in `front`
        have skipped := rest_of_plus opened
        have sameFront : (front ++ plus :: plus :: rest).dropWhile (· != slash) =
            front ++ plus :: plus :: rest := by
          cases front with
          | nil => simp [blocked, show plus ≠ slash by decide] at opened
          | cons next front =>
              have isSlash : next = slash := by
                by_contra inside
                simp [blocked, inside] at opened
              simp [isSlash]
        simp only [List.cons_append, topicMatchesLoop, sameFront, later]
        simp [show plus ≠ slash by decide]
      by_cases isHash : f = hash
      · subst isHash
        exact absurd (rest_of_hash opened) (by simp)
      · simp [topicMatchesLoop, isPlus, isHash, later]

/-! ### Exactness -/

/-- The bytes of a name that a level of the pattern stands for: `+` for one level that is not
empty, `#` for a remainder that is not empty and does not begin with a separator, any other
level for itself. -/
def Corresponds (level part : List Byte) : Prop :=
  if level = [plus] then part ≠ [] ∧ slash ∉ part
  else if level = [hash] then part ≠ [] ∧ part.head? ≠ some slash
  else part = level

instance (level part : List Byte) : Decidable (Corresponds level part) := by
  unfold Corresponds
  infer_instance

/-- The name can be split at separators into what the levels stand for, with nothing left
over. -/
def LevelsMatch (levels : List (List Byte)) (name : List Byte) : Prop :=
  ∃ parts, name = [slash].intercalate parts ∧ List.Forall₂ Corresponds levels parts

/-- Levels are not empty and hold no NUL, a wildcard is a whole level, and the remainder
wildcard the last one. -/
structure ProperLevels (levels : List (List Byte)) : Prop where
  nonempty : ∀ level ∈ levels, level ≠ []
  nulFree : ∀ level ∈ levels, (0 : Byte) ∉ level
  whole : ∀ level ∈ levels, level = [plus] ∨ level = [hash] ∨ plus ∉ level ∧ hash ∉ level
  last : ∀ level ∈ levels.dropLast, level ≠ [hash]

/-- A level wildcard of the pattern takes the bytes in front of a separator or of the end,
one at least. -/
theorem topicMatchesLoop_plus_iff {rest name : List Byte} :
    topicMatchesLoop (plus :: rest) name = true ↔
      ∃ part tail, name = part ++ tail ∧ part ≠ [] ∧ slash ∉ part ∧
        (tail = [] ∨ tail.head? = some slash) ∧ topicMatchesLoop rest tail = true := by
  constructor
  · intro matched
    obtain ⟨part, tail, split, single, ends, later⟩ := topicMatchesLoop_plus matched
    refine ⟨part, tail, split, ?_, single, ends, later⟩
    rintro rfl
    rcases ends with rfl | atSlash
    · simp [split, topicMatchesLoop] at matched
    · obtain ⟨tail, rfl⟩ := List.head?_eq_some_iff.mp atSlash
      simp [split, topicMatchesLoop, show plus ≠ slash by decide] at matched
  · rintro ⟨part, tail, rfl, some, single, ends, later⟩
    obtain ⟨byte, part, rfl⟩ := List.exists_cons_of_ne_nil some
    simp only [List.mem_cons, not_or] at single
    have skipped : (part ++ tail).dropWhile (· != slash) = tail := by
      rw [List.dropWhile_append_of_pos]
      · rcases ends with rfl | atSlash
        · rfl
        · obtain ⟨tail, rfl⟩ := List.head?_eq_some_iff.mp atSlash
          simp
      · intro byte member
        simp only [bne_iff_ne, ne_eq]
        rintro rfl
        exact single.2 member
    simp [topicMatchesLoop, Ne.symm single.1, skipped, later]

/-- The remainder wildcard at the end of the pattern. -/
theorem topicMatchesLoop_hash {name : List Byte} :
    topicMatchesLoop [hash] name = true ↔ name ≠ [] ∧ name.head? ≠ some slash := by
  cases name with
  | nil => simp [topicMatchesLoop]
  | cons byte name =>
      by_cases atSlash : byte = slash
      · simp [topicMatchesLoop, atSlash, show hash ≠ slash by decide]
      · simp [topicMatchesLoop, atSlash, show hash ≠ plus by decide]

/-- A level without wildcards stands for itself. -/
theorem corresponds_plain {level : List Byte} (noPlus : plus ∉ level) (noHash : hash ∉ level)
    (part : List Byte) : Corresponds level part ↔ part = level := by
  have notPlus : level ≠ [plus] := by
    rintro rfl
    simp at noPlus
  have notHash : level ≠ [hash] := by
    rintro rfl
    simp at noHash
  rw [Corresponds, if_neg notPlus, if_neg notHash]

/-- A level in front of another one: what it stands for, and the rest behind a separator. -/
theorem topicMatchesLoop_level_iff {level rest name : List Byte}
    (whole : level = [plus] ∨ plus ∉ level ∧ hash ∉ level) :
    topicMatchesLoop (level ++ slash :: rest) name = true ↔
      ∃ part tail, name = part ++ slash :: tail ∧ Corresponds level part ∧
        topicMatchesLoop rest tail = true := by
  -- the separator of the pattern is found in the name
  have separator : ∀ {name : List Byte}, topicMatchesLoop (slash :: rest) name = true ↔
      ∃ tail, name = slash :: tail ∧ topicMatchesLoop rest tail = true := fun {name} =>
    topicMatchesLoop_append (show plus ∉ [slash] by decide) (show hash ∉ [slash] by decide)
  rcases whole with rfl | ⟨noPlus, noHash⟩
  · rw [List.singleton_append, topicMatchesLoop_plus_iff]
    simp only [separator, Corresponds, if_true]
    constructor
    · rintro ⟨part, _, rfl, some, single, -, tail, rfl, later⟩
      exact ⟨part, tail, rfl, ⟨some, single⟩, later⟩
    · rintro ⟨part, tail, rfl, ⟨some, single⟩, later⟩
      exact ⟨part, slash :: tail, rfl, some, single, .inr rfl, tail, rfl, later⟩
  · rw [topicMatchesLoop_append noPlus noHash]
    simp only [separator, corresponds_plain noPlus noHash]
    constructor
    · rintro ⟨_, rfl, tail, rfl, later⟩
      exact ⟨level, tail, rfl, rfl, later⟩
    · rintro ⟨_, tail, rfl, rfl, later⟩
      exact ⟨slash :: tail, rfl, tail, rfl, later⟩

/-- The last level stands for all that is left. -/
theorem topicMatchesLoop_last_iff {level name : List Byte}
    (whole : level = [plus] ∨ level = [hash] ∨ plus ∉ level ∧ hash ∉ level) :
    topicMatchesLoop level name = true ↔ Corresponds level name := by
  rcases whole with rfl | rfl | ⟨noPlus, noHash⟩
  · have matched : topicMatchesLoop ([] ++ [plus]) name = true ↔ _ :=
      topicMatchesLoop_lastLevel List.not_mem_nil List.not_mem_nil
    rw [List.nil_append] at matched
    rw [matched]
    simp [Corresponds]
  · rw [topicMatchesLoop_hash]
    simp [Corresponds, show hash ≠ plus by decide]
  · rw [topicMatchesLoop_plain noPlus noHash, corresponds_plain noPlus noHash]

/-- The loop over a pattern of proper levels, by induction on the levels. -/
theorem topicMatchesLoop_levels {levels : List (List Byte)} (proper : ProperLevels levels)
    (some : levels ≠ []) (name : List Byte) :
    topicMatchesLoop ([slash].intercalate levels) name = true ↔ LevelsMatch levels name := by
  induction levels generalizing name with
  | nil => exact absurd rfl some
  | cons level levels inductionHypothesis =>
      cases levels with
      | nil =>
          rw [List.intercalate_singleton, topicMatchesLoop_last_iff (proper.whole level (by simp))]
          constructor
          · intro matched
            exact ⟨[name], by simp, .cons matched .nil⟩
          · rintro ⟨parts, rfl, correspond⟩
            cases correspond with
            | cons here later =>
                cases later
                simpa using here
      | cons second others =>
          have rest : ProperLevels (second :: others) :=
            ⟨fun level member => proper.nonempty level (List.mem_cons_of_mem _ member),
              fun level member => proper.nulFree level (List.mem_cons_of_mem _ member),
              fun level member => proper.whole level (List.mem_cons_of_mem _ member),
              fun level member => proper.last level (by simp [member])⟩
          have whole : level = [plus] ∨ plus ∉ level ∧ hash ∉ level := by
            rcases proper.whole level (by simp) with isPlus | isHash | plain
            · exact .inl isPlus
            · exact absurd isHash (proper.last level (by simp))
            · exact .inr plain
          rw [List.intercalate_cons_cons, List.append_assoc, List.singleton_append,
            topicMatchesLoop_level_iff whole]
          simp only [inductionHypothesis rest (by simp)]
          constructor
          · rintro ⟨part, _, rfl, here, parts, rfl, later⟩
            cases later with
            | cons next more => exact ⟨part :: _ :: _, by simp, .cons here (.cons next more)⟩
          · rintro ⟨parts, rfl, correspond⟩
            cases correspond with
            | cons here later =>
                cases later with
                | cons next more => exact ⟨_, _, by simp, here, _, rfl, .cons next more⟩

/-- `mqtt_topic_matches` is exact for every pattern of proper levels and every name. -/
theorem mqttTopicMatches_exact {pattern : List Byte} (proper : ProperLevels (pattern.splitOn slash))
    (name : List Byte) :
    mqttTopicMatches pattern name = true ↔ LevelsMatch (pattern.splitOn slash) (dropLocal name) := by
  have joined : [slash].intercalate (pattern.splitOn slash) = pattern := List.intercalate_splitOn _
  have nulFree : (0 : Byte) ∉ pattern := by
    intro member
    rw [← joined] at member
    rcases Wildcard.mem_intercalate member with isSlash | ⟨level, present, here⟩
    · exact absurd isSlash (by decide)
    · exact proper.nulFree level present here
  rw [mqttTopicMatches, cstr_eq_self nulFree, ← topicMatchesLoop_levels proper (List.splitOn_ne_nil _ _), joined]

/-- Both wildcards, with an empty level in the remainder. -/
theorem mqttTopicMatches_exact_wildcards :
    ProperLevels ((lit "a/+/#").splitOn slash) ∧
      mqttTopicMatches (lit "a/+/#") (lit "$local/a/b/c//d") = true := by
  have proper : ProperLevels ((lit "a/+/#").splitOn slash) :=
    ⟨by decide, by decide, by decide, by decide⟩
  refine ⟨proper, (mqttTopicMatches_exact proper _).mpr ⟨[lit "a", lit "b", lit "c//d"], by decide, ?_⟩⟩
  rw [show (lit "a/+/#").splitOn slash = [lit "a", lit "+", lit "#"] by decide]
  exact .cons (by decide) (.cons (by decide) (.cons (by decide) .nil))

end FbBroker.Packet
