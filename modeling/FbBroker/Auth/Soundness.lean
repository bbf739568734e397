import FbBroker.Auth.AuthFb
import FbBroker.Routing.Subscription

/-!
Contract: what a granted subscription lets its client receive.

The access check reads the requested filter as a topic of given length; the
subscription table reads the same bytes as a NUL-terminated filter with
wildcards. This module says for which granted filters the two readings agree.
-/

set_option autoImplicit false

namespace FbBroker.Auth

open FbBroker.Lib FbBroker.TrieMult FbBroker.Packet FbBroker.Routing

variable {db : Database} {p : Principal}

/-! ### What a subscription receives -/

/-- A search for the topic calls back on a subscription inserted, alone, for
the filter. -/
def receives (filter topic : List Byte) : Bool :=
  match subInsert 1 (fun _ => ⟨none, none, none⟩) .nil filter () with
  | none => false
  | some (heap, head) =>
      match (subSearch observe record 1 topic).run ⟨⟨heap, fun _ => [], head⟩, []⟩ with
      | (.ok foundCount, _) => foundCount != 0
      | (.error _, _) => false

/-- A topic is looked at as a string. -/
theorem receives_cstr (filter topic : List Byte) : receives filter (cstr topic) = receives filter topic := by
  unfold receives
  rw [subSearch_cstr]

/-- The subscription receives what its stored filter matches; a filter that
does not start with `$` receives no topic that does. -/
theorem receives_iff {filter topic : List Byte} (nulFree : (0 : Byte) ∉ topic)
    (plain : (dropLocal (cstr filter)).head? ≠ some dollar) :
    receives filter topic = true ↔ topic.head? ≠ some dollar ∧
      filterMatches (cstr filter) topic = true := by
  obtain ⟨heap, head, inserted, holds⟩ := (Holds.empty fun _ => ⟨none, none, none⟩).insert
    (show () ∉ ([] : List (Unit × List Byte)).map Prod.fst by simp) (zero_notMem_cstr filter)
    (Nat.zero_le 1)
  have searched : (subSearch observe record 1 topic).run ⟨⟨heap, fun _ => [], head⟩, []⟩ = _ :=
    subSearch_observed holds (Nat.le_refl 1) nulFree
  have found : receives filter topic = true ↔
      () ∈ topicHits (entriesOf [((), cstr filter)]) topic := by
    unfold receives
    rw [← subInsert_cstr, inserted]
    simp only [List.nil_append] at searched ⊢
    rw [searched]
    cases topicHits (entriesOf [((), cstr filter)]) topic <;> simp
  have held : ∀ path, () ∈ entriesOf [((), cstr filter)] path ↔ path = dropLocal (cstr filter) := by
    intro path
    simp [mem_entriesOf, eq_comm]
  rw [found, mem_topicHits]
  split
  · rename_i special
    constructor
    · rintro ⟨rest, member, -⟩
      rw [← (held _).mp member] at plain
      simp at plain
    · intro impossible
      exact absurd special impossible.1
  · rename_i special
    simp [held, special, filterMatches]

/-! ### Levels of a NUL-terminated string -/

/-- The levels of the part before the first NUL. -/
def cstrLevels : List (List Byte) → List (List Byte)
  | [] => []
  | level :: levels => if (0 : Byte) ∈ level then [cstr level] else level :: cstrLevels levels

private theorem splitOn_cstr (buffer : List Byte) :
    (cstr buffer).splitOn slash = cstrLevels (buffer.splitOn slash) := by
  induction size : buffer.length using Nat.strong_induction_on generalizing buffer with
  | _ size inductionHypothesis =>
      subst size
      rcases Wildcard.cut_cases topicMarks buffer with ⟨-, single⟩ | ⟨level, rest, -, split, single⟩
      all_goals rw [topicMarks_sep] at single
      · have stillSingle : slash ∉ cstr buffer := fun member =>
          single ((cstr_isPrefix buffer).subset member)
        rw [List.splitOn_eq_singleton single, List.splitOn_eq_singleton stillSingle, cstrLevels]
        split
        · rfl
        · rename_i nulFree
          rw [cstr_eq_self nulFree, cstrLevels]
      · rw [topicMarks_sep] at split
        subst buffer
        rw [List.splitOn_append_cons_self_of_not_mem single, cstrLevels]
        split
        · rename_i hasNul
          rw [cstr_append_of_mem hasNul, List.splitOn_eq_singleton fun member =>
            single ((cstr_isPrefix level).subset member)]
        · rename_i nulFree
          have late : cstr (level ++ slash :: rest) = level ++ slash :: cstr rest := by
            rw [cstr_append nulFree]
            rfl
          have shorter : rest.length < (level ++ slash :: rest).length := by
            simp only [List.length_append, List.length_cons]
            omega
          rw [late, List.splitOn_append_cons_self_of_not_mem single,
            inductionHypothesis _ shorter rest rfl]

/-- Bytes whose NULs, if any, are in the last level. -/
def NulLastOnly (levels : List (List Byte)) : Prop :=
  ∀ level ∈ levels.dropLast, (0 : Byte) ∉ level

/-- A NUL before the last level cuts levels off. -/
theorem length_cstrLevels_lt {levels : List (List Byte)} (early : ¬NulLastOnly levels) :
    (cstrLevels levels).length < levels.length := by
  induction levels with
  | nil => simp [NulLastOnly] at early
  | cons level levels inductionHypothesis =>
      cases levels with
      | nil => simp [NulLastOnly] at early
      | cons next levels =>
          by_cases hasNul : (0 : Byte) ∈ level
          · simp [cstrLevels, hasNul]
          · have later : ¬NulLastOnly (next :: levels) := by
              simpa [NulLastOnly, hasNul] using early
            have shorter := inductionHypothesis later
            rw [cstrLevels, if_neg hasNul, List.length_cons, List.length_cons]
            omega

/-- A pattern without NULs that covers bytes covers their string, unless a NUL
stands before the last level. -/
theorem coversLevels_cstrLevels {patterns levels : List (List Byte)}
    (covers : Wildcard.coversLevels topicMarks patterns levels = true)
    (nulFree : ∀ pattern ∈ patterns, (0 : Byte) ∉ pattern) (late : NulLastOnly levels) :
    Wildcard.coversLevels topicMarks patterns (cstrLevels levels) = true := by
  induction patterns generalizing levels with
  | nil =>
      cases levels with
      | nil => rfl
      | cons level levels => simp [Wildcard.coversLevels] at covers
  | cons pattern patterns inductionHypothesis =>
      cases levels with
      | nil => simp [Wildcard.coversLevels] at covers
      | cons level levels =>
          rw [Wildcard.coversLevels_cons] at covers
          by_cases hasNul : (0 : Byte) ∈ level
          · -- the last level: here the pattern can only have the wildcard
            have last : levels = [] := by
              cases levels with
              | nil => rfl
              | cons next levels => exact absurd hasNul (late level (by simp))
            subst levels
            have isOne : pattern = [topicMarks.one] := by
              rcases covers.1 with isOne | same
              · exact isOne
              · exact absurd hasNul (same ▸ nulFree pattern (by simp))
            rw [cstrLevels, if_pos hasNul, Wildcard.coversLevels_cons]
            exact ⟨.inl isOne, covers.2⟩
          · rw [cstrLevels, if_neg hasNul, Wildcard.coversLevels_cons]
            refine ⟨covers.1, inductionHypothesis covers.2
              (fun other member => nulFree other (List.mem_cons_of_mem _ member)) ?_⟩
            intro other member
            refine late other ?_
            cases levels with
            | nil => simp at member
            | cons next levels => exact List.mem_cons_of_mem _ member

/-! ### The patterns of a client -/

/-- The patterns a client that is not a superuser may subscribe under. -/
def subPatterns (db : Database) (p : Principal) : List (List Byte) :=
  if p.username 0 = 'D'.toUInt8 then [lit "flameboss/" ++ p.id ++ lit "/recv"]
  else
    publicTopics .sub ++ (userDevices db p).flatMap fun id =>
      [lit "flameboss/" ++ id ++ lit "/send/+", lit "flameboss/relay/" ++ id ++ lit "/recv",
        lit "flameboss/mqttr/" ++ id ++ lit "/send"]

/-- The device ids the patterns of a client are made of. -/
def patternIds (db : Database) (p : Principal) : List (List Byte) :=
  if p.username 0 = 'D'.toUInt8 then [p.id] else userDevices db p

/-- A level a pattern may have: the wildcard, or plain bytes. -/
def PlainLevel (level : List Byte) : Prop :=
  slash ∉ level ∧ (0 : Byte) ∉ level ∧ (level = [plus] ∨ plus ∉ level ∧ hash ∉ level)

instance (level : List Byte) : Decidable (PlainLevel level) :=
  inferInstanceAs (Decidable (_ ∧ _))

theorem DigitId.plainLevel {bound : Nat} {id : List Byte} (isId : DigitId bound id) : PlainLevel id :=
  ⟨isId.notMem (by decide), isId.notMem (by decide), .inr ⟨isId.notMem (by decide),
    isId.notMem (by decide)⟩⟩

/-- What all patterns of a client have in common: the level `flameboss`, and these levels behind
it. -/
structure Shape (levels : List (List Byte)) (pattern : List Byte) : Prop where
  isJoined : pattern = [slash].intercalate (lit "flameboss" :: levels)
  plain : ∀ level ∈ levels, PlainLevel level

namespace Shape

variable {levels : List (List Byte)} {pattern : List Byte}

private theorem allPlain (shape : Shape levels pattern) :
    ∀ level ∈ lit "flameboss" :: levels, PlainLevel level := by
  intro level member
  rcases List.mem_cons.mp member with isFirst | later
  · rw [isFirst]
    decide
  · exact shape.plain level later

theorem split (shape : Shape levels pattern) : pattern.splitOn slash = lit "flameboss" :: levels := by
  rw [shape.isJoined]
  exact List.splitOn_intercalate slash (fun level member => (shape.allPlain level member).1) (by simp)

theorem tidy (shape : Shape levels pattern) : Tidy pattern := by
  intro level member
  rw [shape.split] at member
  exact (shape.allPlain level member).2.2

theorem string (shape : Shape levels pattern) : (0 : Byte) ∉ pattern := by
  intro member
  rw [shape.isJoined] at member
  rcases Wildcard.mem_intercalate member with isSlash | ⟨level, present, here⟩
  · exact absurd isSlash (by decide)
  · exact (shape.allPlain level present).2.1 here

end Shape

/-- All patterns of a client are of one depth, and the messages of a device are the only ones that
have the wildcard at the end. -/
theorem subPatterns_shape (ids : ∀ id ∈ patternIds db p, DigitId 105 id) :
    ∃ depth, ∀ pattern ∈ subPatterns db p, ∃ levels, Shape levels pattern ∧ levels.length = depth ∧
      (levels.getLast? = some [plus] → p.username 0 ≠ 'D'.toUInt8 ∧
        ∃ id ∈ userDevices db p, levels = [id, lit "send", [plus]]) := by
  unfold subPatterns
  unfold patternIds at ids
  split at ids
  · rename_i isDevice
    rw [if_pos isDevice]
    refine ⟨2, fun pattern member => ?_⟩
    rw [List.mem_singleton.mp member]
    refine ⟨[p.id, lit "recv"], ⟨rfl, ?_⟩, rfl, ?_⟩
    · simpa using ⟨(ids p.id (by simp)).plainLevel, by decide⟩
    · simp only [List.getLast?_cons_cons, List.getLast?_singleton]
      exact fun ends => absurd ends (by decide)
  · rename_i isUser
    rw [if_neg isUser]
    refine ⟨3, fun pattern member => ?_⟩
    simp only [publicTopics, List.cons_append, List.nil_append, List.mem_cons, List.mem_flatMap,
      List.not_mem_nil, or_false] at member
    rcases member with isTime | isOpen | ⟨id, present, isSend | isRelay | isMqttr⟩
    · exact ⟨[[plus], lit "send", lit "time"], ⟨isTime.trans rfl, by decide⟩, rfl,
        fun ends => absurd ends (by decide)⟩
    · exact ⟨[[plus], lit "send", lit "open"], ⟨isOpen.trans rfl, by decide⟩, rfl,
        fun ends => absurd ends (by decide)⟩
    all_goals have isId := (ids id present).plainLevel
    · refine ⟨[id, lit "send", [plus]], ⟨isSend.trans rfl, ?_⟩, rfl, fun _ => ⟨isUser, id, present, rfl⟩⟩
      simpa using ⟨isId, by decide⟩
    · refine ⟨[lit "relay", id, lit "recv"], ⟨isRelay.trans rfl, ?_⟩, rfl, ?_⟩
      · simpa using ⟨by decide, isId, by decide⟩
      · simp only [List.getLast?_cons_cons, List.getLast?_singleton]
        exact fun ends => absurd ends (by decide)
    · refine ⟨[lit "mqttr", id, lit "send"], ⟨isMqttr.trans rfl, ?_⟩, rfl, ?_⟩
      · simpa using ⟨by decide, isId, by decide⟩
      · simp only [List.getLast?_cons_cons, List.getLast?_singleton]
        exact fun ends => absurd ends (by decide)

/-- A granted filter matched one of the patterns, none of which was truncated. -/
theorem exists_pattern_of_granted {filter : List Byte}
    (notSuper : p.isSuper = false) (ids : ∀ id ∈ patternIds db p, DigitId 105 id)
    (granted : (authAcl db p .sub filter).1 = 0) :
    ∃ pattern ∈ subPatterns db p, mqttTopicMatches pattern filter = true := by
  have fits : ∀ {before id after : List Byte} {size : Nat}, DigitId 105 id →
      before.length + after.length + 105 < size →
      snprintf size (before ++ id ++ after) = before ++ id ++ after := by
    intro before id after size isId room
    refine List.take_of_length_le ?_
    have short := isId.2
    simp only [List.length_append]
    omega
  simp only [authAcl, notSuper, Bool.false_eq_true, if_false, aclDecide] at granted
  unfold subPatterns
  unfold patternIds at ids
  split at granted
  · rename_i isDevice
    rw [if_pos isDevice] at ids ⊢
    split at granted
    · rename_i matched
      rw [deviceTopic, fits (ids p.id (by simp)) (by decide)] at matched
      exact ⟨_, List.mem_singleton_self _, matched⟩
    · cases granted
  · rename_i isUser
    rw [if_neg isUser] at ids ⊢
    split at granted
    · rename_i matched
      obtain ⟨pattern, member, here⟩ := List.any_eq_true.mp matched
      exact ⟨pattern, List.mem_append_left _ member, here⟩
    · split at granted
      · rename_i matched
        obtain ⟨id, present, inRow⟩ := List.any_eq_true.mp matched
        obtain ⟨pattern, member, here⟩ := List.any_eq_true.mp inRow
        have isId := ids id present
        rw [rowTopics, fits isId (by decide), fits isId (by decide), fits isId (by decide)] at member
        exact ⟨pattern, List.mem_append_right _ (List.mem_flatMap.mpr ⟨id, present, member⟩), here⟩
      · cases granted

/-! ### Soundness -/

/-- The stored filter of a granted request starts like every pattern. -/
theorem stored_head {pattern bytes : List Byte} {behind : List (List Byte)} (shape : Shape behind pattern)
    (covers : Wildcard.Covers topicMarks pattern bytes = true) :
    (cstr bytes).head? = some 'f'.toUInt8 := by
  obtain ⟨level, levels, bytesSplit⟩ := Wildcard.exists_splitOn topicMarks bytes
  rw [Wildcard.Covers, bytesSplit, topicMarks_sep, shape.split, Wildcard.coversLevels_cons] at covers
  rw [topicMarks_sep] at bytesSplit
  have isFirst : level = lit "flameboss" := by
    rcases covers.1 with isOne | same
    · exact absurd isOne (by decide)
    · exact same.symm
  have cut := splitOn_cstr bytes
  rw [bytesSplit, isFirst, cstrLevels, if_neg (by decide)] at cut
  exact Wildcard.head_of_splitOn topicMarks cut

/-- The last level of bytes with a NUL there only is covered by the wildcard. -/
theorem getLast_of_covers_nul {patterns levels : List (List Byte)}
    (covers : Wildcard.coversLevels topicMarks patterns levels = true)
    (nulFree : ∀ pattern ∈ patterns, (0 : Byte) ∉ pattern) (late : NulLastOnly levels)
    (hasNul : ∃ level ∈ levels, (0 : Byte) ∈ level) : patterns.getLast? = some [plus] := by
  induction patterns generalizing levels with
  | nil =>
      obtain ⟨level, member, -⟩ := hasNul
      cases levels with
      | nil => cases member
      | cons next levels => simp [Wildcard.coversLevels] at covers
  | cons pattern patterns inductionHypothesis =>
      cases levels with
      | nil => simp [Wildcard.coversLevels] at covers
      | cons level levels =>
          rw [Wildcard.coversLevels_cons] at covers
          cases levels with
          | nil =>
              obtain ⟨_, member, here⟩ := hasNul
              obtain rfl := List.mem_singleton.mp member
              obtain rfl : patterns = [] :=
                List.eq_nil_of_length_eq_zero (Wildcard.coversLevels_length covers.2)
              rcases covers.1 with isOne | same
              · rw [isOne]
                rfl
              · exact absurd here (same ▸ nulFree pattern (by simp))
          | cons next levels =>
              have later : ∃ level ∈ next :: levels, (0 : Byte) ∈ level := by
                obtain ⟨other, member, here⟩ := hasNul
                rcases List.mem_cons.mp member with rfl | member
                · exact absurd here (late other (by simp))
                · exact ⟨other, member, here⟩
              have ends := inductionHypothesis covers.2
                (fun other member => nulFree other (List.mem_cons_of_mem _ member))
                (fun other member => late other (List.mem_cons_of_mem _ member)) later
              cases patterns with
              | nil => simp at ends
              | cons second patterns => simpa using ends

/-- The topic is one level behind the messages of a device of the user. -/
def UnderDevice (db : Database) (p : Principal) (topic : List Byte) : Prop :=
  p.username 0 ≠ 'D'.toUInt8 ∧ ∃ id ∈ userDevices db p, ∃ level, slash ∉ level ∧
    topic = lit "flameboss/" ++ id ++ lit "/send/" ++ level

private theorem exists_level_of_covers {id topic : List Byte}
    (covers : Wildcard.coversLevels topicMarks [lit "flameboss", id, lit "send", [plus]]
      (topic.splitOn slash) = true) (notPlus : id ≠ [plus]) :
    ∃ level, slash ∉ level ∧ topic = lit "flameboss/" ++ id ++ lit "/send/" ++ level := by
  have four := Wildcard.coversLevels_length covers
  rcases levels : topic.splitOn slash with _ | ⟨first, _ | ⟨second, _ | ⟨third, _ | ⟨fourth, _ | _⟩⟩⟩⟩
  all_goals simp only [levels, List.length_cons, List.length_nil] at four
  case cons.cons.cons.cons.nil =>
    simp only [levels, Wildcard.coversLevels_cons] at covers
    obtain ⟨isFirst, isSecond, isThird, -⟩ := covers
    obtain rfl := isFirst.resolve_left (by decide)
    obtain rfl := isSecond.resolve_left notPlus
    obtain rfl := isThird.resolve_left (by decide)
    obtain ⟨three, split₃, rfl, -⟩ := Wildcard.exists_word_of_splitOn topicMarks levels
    obtain ⟨two, split₂, rfl, -⟩ := Wildcard.exists_word_of_splitOn topicMarks split₃
    obtain ⟨one, split₁, rfl, -⟩ := Wildcard.exists_word_of_splitOn topicMarks split₂
    refine ⟨one, ?_, by simp [lit, topicMarks_sep, slash]⟩
    rcases Wildcard.cut_cases topicMarks one with ⟨-, single⟩ | ⟨level, tail, -, rfl, single⟩
    · exact single
    · rw [List.splitOn_append_cons_self_of_not_mem single] at split₁
      exact absurd (List.cons.inj split₁).2 (List.splitOn_ne_nil _ _)
  all_goals omega

/-- Some pattern of the client covers the topic. -/
def CoveredFor (db : Database) (p : Principal) (topic : List Byte) : Prop :=
  ∃ pattern ∈ subPatterns db p, Wildcard.Covers topicMarks pattern topic = true

/-- A topic with a NUL whose string is covered is covered itself if all of it behind the NUL
belongs to a level for which a pattern has the wildcard. -/
theorem coveredFor_iff {topic : List Byte}
    (ids : ∀ id ∈ patternIds db p, DigitId 105 id) (string : CoveredFor db p (cstr topic)) :
    CoveredFor db p topic ↔ (0 : Byte) ∉ topic ∨ UnderDevice db p topic := by
  obtain ⟨depth, shapes⟩ := subPatterns_shape ids
  constructor
  · rintro ⟨pattern, member, covers⟩
    by_cases hasNul : (0 : Byte) ∈ topic
    · obtain ⟨levels, shape, length, last⟩ := shapes pattern member
      obtain ⟨other, otherMember, otherCovers⟩ := string
      obtain ⟨otherLevels, otherShape, otherLength, -⟩ := shapes other otherMember
      rw [Wildcard.Covers, topicMarks_sep, shape.split] at covers
      rw [Wildcard.Covers, topicMarks_sep, otherShape.split, splitOn_cstr] at otherCovers
      have late : NulLastOnly (topic.splitOn slash) := by
        by_contra early
        have fewer := length_cstrLevels_lt early
        have lengths := Wildcard.coversLevels_length covers
        have otherLengths := Wildcard.coversLevels_length otherCovers
        simp only [List.length_cons] at lengths otherLengths
        omega
      have somewhere : ∃ level ∈ topic.splitOn slash, (0 : Byte) ∈ level := by
        have joined : [slash].intercalate (topic.splitOn slash) = topic := List.intercalate_splitOn slash
        rw [← joined] at hasNul
        exact (Wildcard.mem_intercalate hasNul).resolve_left (by decide)
      have ends := getLast_of_covers_nul covers (fun level here => (shape.allPlain level here).2.1) late
        somewhere
      have behind : levels.getLast? = some [plus] := by
        cases levels with
        | nil => exact absurd ends (by decide)
        | cons level levels => simpa using ends
      obtain ⟨isUser, id, present, rfl⟩ := last behind
      have notPlus : id ≠ [plus] := by
        rintro rfl
        rw [patternIds, if_neg isUser] at ids
        exact (ids _ present).notMem (by decide) (List.mem_singleton_self plus)
      exact .inr ⟨isUser, id, present, exists_level_of_covers covers notPlus⟩
    · exact .inl hasNul
  · rintro (nulFree | ⟨isUser, id, present, level, single, rfl⟩)
    · rwa [cstr_eq_self nulFree] at string
    · have plain : PlainLevel id := by
        rw [patternIds, if_neg isUser] at ids
        exact (ids id present).plainLevel
      have shape : Shape [id, lit "send", [plus]] (lit "flameboss/" ++ id ++ lit "/send/+") :=
        ⟨rfl, by simpa using ⟨plain, by decide⟩⟩
      have split : (lit "flameboss/" ++ id ++ lit "/send/" ++ level).splitOn slash =
          [lit "flameboss", id, lit "send", level] := by
        have joined : lit "flameboss/" ++ id ++ lit "/send/" ++ level =
            [slash].intercalate [lit "flameboss", id, lit "send", level] := by
          simp [List.intercalate, lit, slash]
        rw [joined]
        refine List.splitOn_intercalate slash ?_ (by simp)
        simpa using ⟨by decide, plain.1, by decide, single⟩
      refine ⟨lit "flameboss/" ++ id ++ lit "/send/+", ?_, ?_⟩
      · rw [subPatterns, if_neg isUser]
        exact List.mem_append_right _ (List.mem_flatMap.mpr ⟨id, present, List.mem_cons_self⟩)
      · rw [Wildcard.Covers, topicMarks_sep, shape.split, split]
        simp [Wildcard.coversLevels, topicMarks_one]

/-- Every NUL in the requested bytes is behind the last `/`, and the filter the table
stores does not end with the level `#`. -/
def BoundedFilter (filter : List Byte) : Prop :=
  NulLastOnly ((dropLocal filter).splitOn slash) ∧
    ((cstr (dropLocal filter)).splitOn slash).getLast? ≠ some [hash]

/-- The topics without a NUL that a granted filter receives. -/
theorem receives_covered_iff {filter : List Byte}
    (notSuper : p.isSuper = false) (ids : ∀ id ∈ patternIds db p, DigitId 105 id)
    (granted : (authAcl db p .sub filter).1 = 0) :
    (∀ topic, (0 : Byte) ∉ topic → receives filter topic = true → CoveredFor db p topic) ↔
      BoundedFilter filter := by
  obtain ⟨depth, shapes⟩ := subPatterns_shape ids
  obtain ⟨pattern, member, matched⟩ := exists_pattern_of_granted notSuper ids granted
  obtain ⟨levels, shape, length, -⟩ := shapes pattern member
  have covers : Wildcard.Covers topicMarks pattern (dropLocal filter) = true := by
    rw [mqttTopicMatches, cstr_eq_self shape.string] at matched
    exact covers_of_topicMatchesLoop shape.tidy matched
  have head := stored_head shape covers
  have plain : (dropLocal (cstr filter)).head? ≠ some dollar := by
    rw [dropLocal_cstr, head]
    decide
  have extensions : ∀ count, (0 : Byte) ∉ cstr (dropLocal filter) ++ List.replicate count slash ∧
      (cstr (dropLocal filter) ++ List.replicate count slash).head? ≠ some dollar := by
    intro count
    constructor
    · intro isNul
      rcases List.mem_append.mp isNul with inside | isSlash
      · exact zero_notMem_cstr _ inside
      · exact absurd (List.eq_of_mem_replicate isSlash) (by decide)
    · rw [List.head?_append, head, Option.some_or]
      decide
  have bounded := Wildcard.matched_covered_iff topicMarks (subPatterns db p)
    (fun topic => (0 : Byte) ∉ topic ∧ topic.head? ≠ some dollar) extensions
  rw [Wildcard.Covers, topicMarks_sep, shape.split] at covers
  have stored : CoveredFor db p (cstr (dropLocal filter)) ↔
      NulLastOnly ((dropLocal filter).splitOn slash) := by
    constructor
    · rintro ⟨other, otherMember, otherCovers⟩
      by_contra early
      obtain ⟨otherLevels, otherShape, otherLength, -⟩ := shapes other otherMember
      rw [Wildcard.Covers, topicMarks_sep, otherShape.split, splitOn_cstr] at otherCovers
      have fewer := length_cstrLevels_lt early
      have lengths := Wildcard.coversLevels_length covers
      have otherLengths := Wildcard.coversLevels_length otherCovers
      simp only [List.length_cons] at lengths otherLengths
      omega
    · intro late
      refine ⟨pattern, member, ?_⟩
      rw [Wildcard.Covers, topicMarks_sep, shape.split, splitOn_cstr]
      exact coversLevels_cstrLevels covers (fun level here => (shape.allPlain level here).2.1) late
  rw [← CoveredFor, stored, topicMarks_sep, topicMarks_many] at bounded
  rw [BoundedFilter, ← bounded]
  constructor
  · intro sound topic string matched
    obtain ⟨nulFree, notSpecial⟩ := string
    refine sound topic nulFree ((receives_iff nulFree plain).mpr ⟨notSpecial, ?_⟩)
    rwa [filterMatches, dropLocal_cstr]
  · intro sound topic nulFree received
    obtain ⟨notSpecial, matched⟩ := (receives_iff nulFree plain).mp received
    rw [filterMatches, dropLocal_cstr] at matched
    exact sound topic ⟨nulFree, notSpecial⟩ matched

/-- A user of the database, not a superuser, with user id 7. -/
def someUser : Principal where
  username i := (lit "U-joe").getD i 0
  isSuper := false
  userIdStr := lit "7"
  ipAddress := lit "10.0.0.1"
  authInfo := false

/-- A database that knows one device, number 5, for every user. -/
def oneDevice : Database :=
  fun _ => .result 1 [[some (lit "5")]]

end FbBroker.Auth
