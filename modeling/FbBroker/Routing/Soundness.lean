import FbBroker.Routing.Subscription

/-!
Contract: soundness of the routing for every topic and filter a client can
send.

Owns the rules of MQTT for filters and topics, and the comparison of the search
with them: which subscriptions the search calls, how often, and for which tables
and topics that is what the rules say.

Neither parser looks at the bytes of topics or filters, so both range over all
byte strings here; the table and the search see their strings.
-/

set_option autoImplicit false

namespace FbBroker.Routing

open FbBroker.Lib FbBroker.TrieMult

variable {Ref : Type}

/-! ### The rules of MQTT -/

def isWild (byte : Byte) : Bool :=
  byte == plus || byte == hash

/-- A well-formed filter matches level by level, and a topic that starts with
`$` is not matched by a wildcard in the first level. -/
def mqttMatches (filter topic : List Byte) : Bool :=
  Wildcard.WellFormed topicMarks (dropLocal filter) &&
    filterMatches filter topic &&
    !(topic.head? == some dollar && (((dropLocal filter).splitOn slash).headD []).any isWild)

/-- Every call is for a live subscription whose filter matches the whole topic,
and no subscription is called twice. -/
structure SoundCalls (live : List (Ref × List Byte)) (topic : List Byte) (calls : List Ref) :
    Prop where
  once : calls.Nodup
  matching : ∀ sub ∈ calls, ∃ filter, (sub, filter) ∈ live ∧ mqttMatches filter topic = true

/-! ### What the search compares -/

/-- The words the search compares: the strings of filter and topic, and what follows
`$` in both if the topic starts with it. -/
def compared (filter topic : List Byte) : Option (List Byte × List Byte) :=
  if (cstr topic).head? = some dollar then
    if (dropLocal (cstr filter)).head? = some dollar then
      some ((dropLocal (cstr filter)).tail, (cstr topic).tail)
    else none
  else some (dropLocal (cstr filter), cstr topic)

/-- The search reaches the filter. -/
def reaches (filter topic : List Byte) : Bool :=
  (compared filter topic).any fun words => Wildcard.Matches topicMarks words.1 words.2

/-- Some level is the same wildcard in both words: the search reaches the filter by the
wildcard and by the symbol. -/
def shares (filter topic : List Byte) : Bool :=
  (compared filter topic).any fun words => Wildcard.Shares topicMarks words.1 words.2

/-- The entry as the table has it. -/
def stored (entry : Ref × List Byte) : Ref × List Byte :=
  (entry.1, cstr entry.2)

private theorem mem_stored_of_topicHits {live : List (Ref × List Byte)} {topic : List Byte} {sub : Ref}
    (called : sub ∈ topicHits (entriesOf (live.map stored)) topic) : ∃ filter, (sub, filter) ∈ live := by
  obtain ⟨path, member⟩ := mem_entries_of_topicHits called
  obtain ⟨string, present, -⟩ := mem_entriesOf.mp member
  obtain ⟨⟨other, filter⟩, listed, same⟩ := List.mem_map.mp present
  obtain ⟨rfl, -⟩ := Prod.mk.inj same
  exact ⟨filter, listed⟩

variable [DecidableEq Ref]

/-- How often a live subscription is called. -/
theorem Holds.count_topicHits {heap : Dllist.Heap Ref} {head : Trie Ref}
    {live : List (Ref × List Byte)} (holds : Holds heap head (live.map stored)) {sub : Ref}
    {filter : List Byte} (topic : List Byte) (present : (sub, filter) ∈ live) :
    (topicHits (entriesOf (live.map stored)) (cstr topic)).count sub =
      ((compared filter topic).map fun words => Wildcard.ways topicMarks (words.1.splitOn slash)
        (words.2.splitOn slash)).getD 0 := by
  have held := holds.heldAt (show (sub, cstr filter) ∈ live.map stored from List.mem_map_of_mem present)
  unfold compared
  by_cases special : (cstr topic).head? = some dollar
  · obtain ⟨rest, isDollar⟩ := List.head?_eq_some_iff.mp special
    rw [if_pos special, isDollar, topicHits, if_pos rfl]
    by_cases starts : (dropLocal (cstr filter)).head? = some dollar
    · obtain ⟨path, isPath⟩ := List.head?_eq_some_iff.mp starts
      rw [isPath] at held
      rw [if_pos starts, isPath]
      exact Wildcard.count_hits held.descend
    · rw [if_neg starts]
      refine List.count_eq_zero.mpr fun called => ?_
      obtain ⟨path, member, -⟩ := Wildcard.mem_hits.mp called
      have counted := held (dollar :: path)
      rw [if_neg fun same => starts (by rw [← same]; rfl)] at counted
      exact List.count_eq_zero.mp counted member
  · rw [if_neg special, topicHits_of_plain _ special]
    exact Wildcard.count_hits held

theorem Holds.count_pos_iff {heap : Dllist.Heap Ref} {head : Trie Ref}
    {live : List (Ref × List Byte)} (holds : Holds heap head (live.map stored)) {sub : Ref}
    {filter topic : List Byte} (present : (sub, filter) ∈ live) :
    (0 < (topicHits (entriesOf (live.map stored)) (cstr topic)).count sub ↔
        reaches filter topic = true) ∧
      (reaches filter topic = true →
        (2 ≤ (topicHits (entriesOf (live.map stored)) (cstr topic)).count sub ↔
          shares filter topic = true)) := by
  rw [holds.count_topicHits topic present, reaches, shares]
  cases compared filter topic with
  | none => simp
  | some words => exact ⟨Wildcard.ways_pos_iff, fun matched => Wildcard.two_le_ways_iff matched⟩

/-- The calls are sound exactly if every filter that is reached matches, and is reached
once. -/
theorem Holds.soundCalls_iff {heap : Dllist.Heap Ref} {head : Trie Ref}
    {live : List (Ref × List Byte)} (holds : Holds heap head (live.map stored)) (topic : List Byte) :
    SoundCalls live topic (topicHits (entriesOf (live.map stored)) (cstr topic)) ↔
      ∀ entry ∈ live, reaches entry.2 topic = true →
        mqttMatches entry.2 topic = true ∧ shares entry.2 topic = false := by
  have distinct : (live.map Prod.fst).Nodup := by
    simpa [Function.comp_def, stored] using holds.distinct
  constructor
  · rintro sound ⟨sub, filter⟩ present reached
    obtain ⟨called, twice⟩ := @Holds.count_pos_iff _ _ _ _ _ holds _ _ topic present
    constructor
    · obtain ⟨other, listed, matched⟩ := sound.matching sub (List.count_pos_iff.mp (called.mpr reached))
      rwa [(Prod.mk.inj (List.inj_on_of_nodup_map distinct listed present rfl)).2] at matched
    · have once := List.nodup_iff_count_le_one.mp sound.once sub
      by_contra shared
      have := (twice reached).mpr (by simpa using shared)
      omega
  · intro fair
    constructor
    · refine List.nodup_iff_count_le_one.mpr fun sub => ?_
      by_contra more
      have positive : 0 < (topicHits (entriesOf (live.map stored)) (cstr topic)).count sub := by omega
      obtain ⟨filter, present⟩ := mem_stored_of_topicHits (List.count_pos_iff.mp positive)
      obtain ⟨called, twice⟩ := @Holds.count_pos_iff _ _ _ _ _ holds _ _ topic present
      have shared := (twice (called.mp positive)).mp (by omega)
      rw [(fair _ present (called.mp positive)).2] at shared
      cases shared
    · intro sub called
      obtain ⟨filter, present⟩ := mem_stored_of_topicHits called
      have reached := (holds.count_pos_iff present).1.mp (List.count_pos_iff.mpr called)
      exact ⟨filter, present, (fair _ present reached).1⟩

/-! ### Histories with arbitrary filters -/

/-- The use as the table sees it: `filter` is a string. -/
def Use.asString : Use Ref → Use Ref
  | .insert sub filter => .insert sub (cstr filter)
  | .remove sub => .remove sub

def Table.asStrings (table : Table Ref) : Table Ref :=
  { table with filter := cstr ∘ table.filter }

theorem Table.apply_asString (bound : Nat) (table : Table Ref) (use : Use Ref) :
    table.asStrings.apply bound use.asString = (table.apply bound use).map Table.asStrings := by
  cases use with
  | insert sub filter =>
      simp only [Use.asString, Table.apply, subInsert_cstr, Option.map_map]
      congr 1
      funext inserted
      simp [Table.asStrings, Function.comp_update]
  | remove sub =>
      simp [Use.asString, Table.apply, Table.asStrings, subRemove_cstr]

theorem Table.foldlM_asString (bound : Nat) (uses : List (Use Ref)) (table : Table Ref) :
    (uses.map Use.asString).foldlM (Table.apply bound) table.asStrings =
      (uses.foldlM (Table.apply bound) table).map Table.asStrings := by
  induction uses generalizing table with
  | nil => rfl
  | cons use uses inductionHypothesis =>
      rw [List.map_cons, List.foldlM_cons, List.foldlM_cons, Table.apply_asString]
      cases table.apply bound use with
      | none => rfl
      | some next => exact inductionHypothesis next

/-- Whom a search calls back on after a history. -/
def routed (bound : Nat) (uses : List (Use Ref)) (topic : List Byte) : Option (List Ref) := do
  let table ← uses.foldlM (Table.apply bound) Table.initial
  match (subSearch observe record bound topic).run ⟨table, []⟩ with
  | (.ok _, observed) => some observed.calls
  | (.error _, _) => none

/-- What a use does to the set of live subscriptions with the filters they declared;
undefined for inserting a live object, and for removing one that is not live. -/
def Use.declare (live : List (Ref × List Byte)) : Use Ref → Option (List (Ref × List Byte))
  | .insert sub filter =>
      if sub ∈ live.map Prod.fst then none else some (live ++ [(sub, filter)])
  | .remove sub =>
      if sub ∈ live.map Prod.fst then some (live.filter fun entry => entry.1 != sub) else none

theorem Use.track_asString {use : Use Ref} {live next : List (Ref × List Byte)}
    (declared : use.declare live = some next) :
    use.asString.track (live.map stored) = some (next.map stored) := by
  have same : (live.map stored).map Prod.fst = live.map Prod.fst := by simp [Function.comp_def, stored]
  cases use with
  | insert sub filter =>
      simp only [Use.declare, Option.ite_none_left_eq_some, Option.some.injEq] at declared
      obtain ⟨fresh, rfl⟩ := declared
      rw [Use.asString, Use.track, same, if_pos ⟨fresh, zero_notMem_cstr filter⟩]
      simp [stored]
  | remove sub =>
      simp only [Use.declare, Option.ite_none_right_eq_some, Option.some.injEq] at declared
      obtain ⟨present, rfl⟩ := declared
      rw [Use.asString, Use.track, same, if_pos present, List.filter_map]
      rfl

private theorem foldlM_declare {uses : List (Use Ref)} {live next : List (Ref × List Byte)}
    (declared : uses.foldlM Use.declare live = some next) :
    (uses.map Use.asString).foldlM Use.track (live.map stored) = some (next.map stored) := by
  induction uses generalizing live with
  | nil =>
      obtain rfl : live = next := Option.some.inj declared
      rfl
  | cons use uses inductionHypothesis =>
      rw [List.foldlM_cons] at declared
      obtain ⟨middle, here, later⟩ := Option.bind_eq_some_iff.mp declared
      rw [List.map_cons, List.foldlM_cons, Use.track_asString here]
      exact inductionHypothesis later

/-- After any history the search returns, and calls back on the hits of the
topic's string. -/
theorem routed_eq {uses : List (Use Ref)} {live : List (Ref × List Byte)} {bound : Nat}
    (history : uses.foldlM Use.declare [] = some live) (enough : uses.length ≤ bound)
    (topic : List Byte) :
    routed bound uses topic = some (topicHits (entriesOf (live.map stored)) (cstr topic)) ∧
      ∃ table : Table Ref, Holds table.heap table.head (live.map stored) := by
  have tracked := foldlM_declare history
  obtain ⟨strings, run, tracks⟩ := Tracks.foldlM
    ⟨Holds.empty Table.initial.heap, by simp⟩ tracked (by simpa using enough)
  have liveBound : (live.map stored).length ≤ bound := by
    have := track_live_length_le tracked
    simp only [List.map_nil, List.length_nil, List.length_map] at this ⊢
    omega
  have replayed : (uses.foldlM (Table.apply bound) Table.initial).map Table.asStrings =
      some strings := (Table.foldlM_asString bound uses Table.initial).symm.trans run
  obtain ⟨table, applied, rfl⟩ := Option.map_eq_some_iff.mp replayed
  have holds : Holds table.heap table.head (live.map stored) := tracks.holds
  have searched := subSearch_observed holds liveBound (zero_notMem_cstr topic)
  refine ⟨?_, table, holds⟩
  rw [subSearch_cstr] at searched
  simp [routed, applied, searched]

/-! ### Legal topics -/

/-- A topic name has no NUL and no wildcards. -/
def LegalTopic (topic : List Byte) : Prop :=
  (0 : Byte) ∉ topic ∧ plus ∉ topic ∧ hash ∉ topic

instance (topic : List Byte) : Decidable (LegalTopic topic) :=
  inferInstanceAs (Decidable (_ ∧ _))

/-- The filter has no NUL and no wildcard right behind a leading `$`. -/
def TameFilter (filter : List Byte) : Prop :=
  (0 : Byte) ∉ filter ∧ ¬lit "$+" <+: dropLocal filter ∧ ¬lit "$#" <+: dropLocal filter

instance (filter : List Byte) : Decidable (TameFilter filter) :=
  inferInstanceAs (Decidable (_ ∧ _))

/-- For a legal topic the search compares tame filters as the rules do. -/
theorem matches_of_legal {filter topic : List Byte} (legal : LegalTopic topic)
    (tame : TameFilter filter) (reached : reaches filter topic = true) :
    mqttMatches filter topic = true ∧ shares filter topic = false := by
  obtain ⟨topicString, noPlus, noHash⟩ := legal
  obtain ⟨filterString, notPlus, notHash⟩ := tame
  have plain : ∀ {word : List Byte}, word ⊆ topic → ∀ level ∈ word.splitOn slash,
      plus ∉ level ∧ hash ∉ level := by
    intro word inside level member
    have within := List.Subset.trans (Wildcard.subset_of_mem_splitOn topicMarks member) inside
    exact ⟨fun isPlus => noPlus (within isPlus), fun isHash => noHash (within isHash)⟩
  have apart : ∀ {word : List Byte}, word ⊆ topic → ∀ filters,
      Wildcard.shareLevels topicMarks filters (word.splitOn slash) = false := by
    intro word inside filters
    refine Wildcard.shareLevels_plain fun level member => ?_
    obtain ⟨noPlus, noHash⟩ := plain inside level member
    exact ⟨fun same => noPlus (by simp [same]), fun same => noHash (by simp [same])⟩
  unfold reaches at reached
  unfold shares
  simp only [compared, cstr_eq_self topicString, cstr_eq_self filterString] at reached ⊢
  by_cases special : topic.head? = some dollar
  · obtain ⟨rest, rfl⟩ := List.head?_eq_some_iff.mp special
    by_cases starts : (dropLocal filter).head? = some dollar
    · obtain ⟨path, isPath⟩ := List.head?_eq_some_iff.mp starts
      rw [isPath] at notPlus notHash
      simp only [isPath, List.head?_cons, List.tail_cons, if_true, Option.any_some] at reached ⊢
      refine ⟨?_, apart (List.subset_cons_self _ _) _⟩
      obtain ⟨first, filters, pathSplit⟩ := Wildcard.exists_splitOn topicMarks path
      obtain ⟨level, levels, restSplit⟩ := Wildcard.exists_splitOn topicMarks rest
      -- the wildcards that the rules do not apply behind `$` are excluded
      have same : first = level ∧ Wildcard.matchLevels topicMarks filters levels = true := by
        rw [Wildcard.Matches, pathSplit, restSplit] at reached
        by_cases remains : level = [] ∧ levels = []
        · obtain ⟨rfl, rfl⟩ := remains
          obtain ⟨rfl, rfl⟩ : first = [] ∧ filters = [] := by simpa [Wildcard.matchLevels] using reached
          exact ⟨rfl, rfl⟩
        · have continues : ∀ {byte tail}, first = byte :: tail → lit "$" ++ [byte] <+: dollar :: path := by
            rintro byte tail rfl
            obtain ⟨rest, rfl⟩ := List.head?_eq_some_iff.mp (Wildcard.head_of_splitOn topicMarks pathSplit)
            exact ⟨rest, rfl⟩
          rcases (Wildcard.matchLevels_cons remains).mp reached with ⟨isHash, -⟩ | ⟨isPlus | same, later⟩
          · exact absurd (continues isHash) notHash
          · exact absurd (continues isPlus) notPlus
          · exact ⟨same, later⟩
      obtain ⟨rfl, later⟩ := same
      have filterSplit := Wildcard.splitOn_cons_ne topicMarks (show dollar ≠ topicMarks.sep by decide) pathSplit
      have topicSplit := Wildcard.splitOn_cons_ne topicMarks (show dollar ≠ topicMarks.sep by decide) restSplit
      have whole : Wildcard.matchLevels topicMarks ((dollar :: first) :: filters)
          ((dollar :: first) :: levels) = true :=
        (Wildcard.matchLevels_cons (by simp)).mpr (.inr ⟨.inr rfl, later⟩)
      have legalLevels := plain (List.Subset.refl (dollar :: rest))
      rw [topicMarks_sep] at filterSplit topicSplit
      rw [topicSplit] at legalLevels
      have tameLevel : (dollar :: first).any isWild = false := by
        obtain ⟨noPlus, noHash⟩ := legalLevels _ List.mem_cons_self
        refine List.any_eq_false.mpr fun byte member => ?_
        simp only [isWild, Bool.or_eq_true, beq_iff_eq, not_or]
        exact ⟨fun isPlus => noPlus (isPlus ▸ member), fun isHash => noHash (isHash ▸ member)⟩
      have formed := Wildcard.formedLevels_of_match whole legalLevels
      simp only [mqttMatches, Wildcard.WellFormed, filterMatches, Wildcard.Matches, topicMarks_sep, isPath,
        filterSplit, topicSplit, formed, whole, List.headD_cons, tameLevel, Bool.and_false, Bool.not_false,
        Bool.and_self]
    · simp [starts] at reached
  · rw [if_neg special] at reached ⊢
    have matched : filterMatches filter topic = true := reached
    have formed : Wildcard.WellFormed topicMarks (dropLocal filter) = true :=
      Wildcard.formedLevels_of_match matched (plain (List.Subset.refl topic))
    exact ⟨by simp [mqttMatches, formed, matched, special], apart (List.Subset.refl topic) _⟩

/-- After any history of insertions and removals, with any filters, a topic of any bytes
is routed soundly exactly if every live filter that is reached matches it and shares no wildcard
with it. Legal topics and tame filters meet this. -/
theorem routing_sound_iff {uses : List (Use Ref)} {live : List (Ref × List Byte)} {bound : Nat}
    (history : uses.foldlM Use.declare [] = some live) (enough : uses.length ≤ bound)
    (topic : List Byte) :
    ∃ calls, routed bound uses topic = some calls ∧
      (SoundCalls live topic calls ↔ ∀ entry ∈ live, reaches entry.2 topic = true →
        mqttMatches entry.2 topic = true ∧ shares entry.2 topic = false) ∧
      (LegalTopic topic → (∀ entry ∈ live, TameFilter entry.2) → SoundCalls live topic calls) := by
  obtain ⟨searched, table, holds⟩ := routed_eq history enough topic
  have exactly := holds.soundCalls_iff topic
  exact ⟨_, searched, exactly, fun legal tame => exactly.mpr fun entry present =>
    matches_of_legal legal (tame entry present)⟩

/-- Two subscribers and a topic under `$`: only the one that names it is
called. -/
theorem routing_sound_iff_dollar :
    ∃ calls, routed 2 [.insert 0 (lit "#"), .insert 1 (lit "$SYS/+")] (lit "$SYS/up") = some calls ∧
      SoundCalls [(0, lit "#"), (1, lit "$SYS/+")] (lit "$SYS/up") calls := by
  have history : [Use.insert 0 (lit "#"), .insert 1 (lit "$SYS/+")].foldlM Use.declare [] =
      some [(0, lit "#"), (1, lit "$SYS/+")] := by
    decide
  obtain ⟨calls, searched, sound, -⟩ := routing_sound_iff history (show _ ≤ 2 by decide) (lit "$SYS/up")
  exact ⟨calls, searched, sound.mpr (by decide)⟩

/-- Four ways to miss the rules: bytes behind a NUL of the topic or of the filter are not
compared, a wildcard in a topic counts twice, and a wildcard right behind `$` counts. -/
theorem routing_unsound :
    (routed 1 [.insert 0 (lit "a")] (lit "a" ++ 0 :: lit "b") = some [0] ∧
      mqttMatches (lit "a") (lit "a" ++ 0 :: lit "b") = false) ∧
    (routed 1 [.insert 0 (lit "a" ++ 0 :: lit "b")] (lit "a") = some [0] ∧
      mqttMatches (lit "a" ++ 0 :: lit "b") (lit "a") = false) ∧
    routed 1 [.insert 0 (lit "+")] (lit "+") = some [0, 0] ∧
    routed 1 [.insert 0 (lit "$#")] (lit "$x") = some [0] ∧
      mqttMatches (lit "$#") (lit "$x") = false := by
  decide +kernel

end FbBroker.Routing
