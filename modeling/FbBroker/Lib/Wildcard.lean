import Mathlib.Data.List.TakeWhile
import Mathlib.Data.List.Count
import Mathlib.Tactic.Common

/-!
Contract: filters with level wildcards over words of symbols.

A word is cut into levels at a separator. A filter may use one symbol that
stands for a whole level and one that stands for the whole remainder. `Matches`
is the rule on lists of levels. `hits` is the lookup of a topic in a map from
filters to lists of items, a walk that branches at level boundaries and visits
`paths`.

Owns how often the walk visits a filter: never if the filter does not match, and
more than once if it does and shares a wildcard with the topic. Does not own
tries, heaps or any particular alphabet.
-/

set_option autoImplicit false

namespace FbBroker.Lib.Wildcard

variable {Symbol Item : Type}

/-- The separator and the two wildcards of a filter language. -/
structure Marks (Symbol : Type) where
  sep : Symbol
  one : Symbol
  many : Symbol
  sep_ne_one : sep ≠ one
  sep_ne_many : sep ≠ many
  one_ne_many : one ≠ many

variable [DecidableEq Symbol] (marks : Marks Symbol)

/-- Match a list of filter levels against a list of topic levels. Only when
something of the topic is left does a wildcard apply; an exhausted topic, the
single empty level, matches only the exhausted filter. -/
def matchLevels : List (List Symbol) → List (List Symbol) → Bool
  | [], [] => true
  | [], _ :: _ => false
  | _ :: _, [] => false
  | filter :: filters, level :: levels =>
      if level = [] ∧ levels = [] then decide (filter = [] ∧ filters = [])
      else
        decide (filter = [marks.many] ∧ filters = []) ||
          (decide (filter = [marks.one] ∨ filter = level) && matchLevels filters levels)

/-- The level-wise rule on words. -/
def Matches (filter topic : List Symbol) : Bool :=
  matchLevels marks (filter.splitOn marks.sep) (topic.splitOn marks.sep)

/-- Some level of both is the level wildcard, or both end with the remainder
wildcard at the same depth. -/
def shareLevels : List (List Symbol) → List (List Symbol) → Bool
  | filter :: filters, level :: levels =>
      decide (filter = level ∧ (filter = [marks.one] ∨ filter = [marks.many] ∧ filters = [] ∧ levels = [])) ||
        shareLevels filters levels
  | _, _ => false

/-- The filter has a wildcard where the topic has the same symbol. -/
def Shares (filter topic : List Symbol) : Bool :=
  shareLevels marks (filter.splitOn marks.sep) (topic.splitOn marks.sep)

/-- The level wildcard stands alone in its level, the remainder wildcard alone in
the last one. -/
def formedLevels : List (List Symbol) → Bool
  | [] => true
  | filter :: filters =>
      decide (filter = [marks.one] ∨ filter = [marks.many] ∧ filters = [] ∨
        marks.one ∉ filter ∧ marks.many ∉ filter) && formedLevels filters

def WellFormed (filter : List Symbol) : Bool :=
  formedLevels marks (filter.splitOn marks.sep)

/-! ### Cutting a word at its first separator -/

/-- What follows the first separator of a word. -/
def afterLevel (word : List Symbol) : List Symbol :=
  (word.dropWhile (· != marks.sep)).tail

theorem afterLevel_length_lt {symbol : Symbol} {word : List Symbol} :
    (afterLevel marks (symbol :: word)).length < (symbol :: word).length := by
  have bound := (List.dropWhile_suffix (l := symbol :: word) (· != marks.sep)).length_le
  simp only [afterLevel, List.length_tail, List.length_cons] at bound ⊢
  omega

/-- Either the word has one level only, or it is a level, a separator and the
rest. -/
theorem cut_cases (word : List Symbol) :
    (word.dropWhile (· != marks.sep) = [] ∧ marks.sep ∉ word) ∨
      ∃ level tail, word.dropWhile (· != marks.sep) = marks.sep :: tail ∧
        word = level ++ marks.sep :: tail ∧ marks.sep ∉ level := by
  induction word with
  | nil => simp
  | cons symbol rest inductionHypothesis =>
      by_cases separates : symbol = marks.sep
      · subst separates
        exact Or.inr ⟨[], rest, by simp, by simp, by simp⟩
      · have keeps : (symbol != marks.sep) = true := by simpa using separates
        rw [List.dropWhile_cons_of_pos (p := (· != marks.sep)) keeps]
        rcases inductionHypothesis with ⟨cut, single⟩ | ⟨level, tail, cut, split, single⟩
        · exact Or.inl ⟨cut, by simp [Ne.symm separates, single]⟩
        · exact Or.inr ⟨symbol :: level, tail, cut, by rw [split]; rfl,
            by simp [Ne.symm separates, single]⟩

theorem splitOn_cons_sep (word : List Symbol) :
    (marks.sep :: word).splitOn marks.sep = [] :: word.splitOn marks.sep := by
  rw [List.splitOn_cons_eq_if_modifyHead, if_pos (by simp)]

theorem splitOn_cons_ne {symbol : Symbol} (different : symbol ≠ marks.sep) {word : List Symbol}
    {level : List Symbol} {levels : List (List Symbol)}
    (split : word.splitOn marks.sep = level :: levels) :
    (symbol :: word).splitOn marks.sep = (symbol :: level) :: levels := by
  rw [List.splitOn_cons_eq_if_modifyHead, if_neg (by simpa using different), split]
  rfl

theorem exists_splitOn (word : List Symbol) :
    ∃ level levels, word.splitOn marks.sep = level :: levels :=
  List.exists_cons_of_ne_nil (List.splitOn_ne_nil _ _)

/-- Cutting at separators loses nothing. -/
theorem splitOn_injective {left right : List Symbol}
    (same : left.splitOn marks.sep = right.splitOn marks.sep) : left = right := by
  have joined := congrArg ([marks.sep].intercalate ·) same
  simpa using joined

theorem splitOn_eq_singleton_iff {word level : List Symbol} (single : marks.sep ∉ level) :
    word.splitOn marks.sep = [level] ↔ word = level := by
  constructor
  · intro split
    exact splitOn_injective marks (split.trans (List.splitOn_eq_singleton single).symm)
  · rintro rfl
    exact List.splitOn_eq_singleton single

theorem subset_of_mem_splitOn {word level : List Symbol} (member : level ∈ word.splitOn marks.sep) :
    level ⊆ word := by
  induction word generalizing level with
  | nil => simp_all
  | cons symbol rest inductionHypothesis =>
      obtain ⟨first, levels, split⟩ := exists_splitOn marks rest
      by_cases separates : symbol = marks.sep
      · rw [separates, splitOn_cons_sep] at member
        rcases List.mem_cons.mp member with rfl | later
        · exact List.nil_subset _
        · exact List.subset_cons_of_subset _ (inductionHypothesis later)
      · rw [splitOn_cons_ne marks separates split] at member
        rw [split] at inductionHypothesis
        rcases List.mem_cons.mp member with rfl | later
        · exact List.cons_subset_cons _ (inductionHypothesis List.mem_cons_self)
        · exact List.subset_cons_of_subset _ (inductionHypothesis (List.mem_cons_of_mem _ later))

theorem head_of_splitOn {symbol : Symbol} {word level : List Symbol} {levels : List (List Symbol)}
    (split : word.splitOn marks.sep = (symbol :: level) :: levels) : word.head? = some symbol := by
  cases word with
  | nil => simp at split
  | cons head rest =>
      by_cases separates : head = marks.sep
      · rw [separates, splitOn_cons_sep] at split
        simp at split
      · obtain ⟨next, others, restSplit⟩ := exists_splitOn marks rest
        rw [splitOn_cons_ne marks separates restSplit] at split
        simp only [List.cons.injEq] at split
        rw [split.1.1, List.head?_cons]

/-- Every remainder of a cut word is itself the cut of a word. -/
theorem exists_word_of_splitOn {word level next : List Symbol} {levels : List (List Symbol)}
    (split : word.splitOn marks.sep = level :: next :: levels) :
    ∃ tail, tail.splitOn marks.sep = next :: levels ∧ word = level ++ marks.sep :: tail ∧
      marks.sep ∉ level := by
  rcases cut_cases marks word with ⟨-, single⟩ | ⟨first, tail, -, rfl, single⟩
  · rw [List.splitOn_eq_singleton single] at split
    simp at split
  · rw [List.splitOn_append_cons_self_of_not_mem single] at split
    obtain ⟨rfl, rest⟩ := List.cons.inj split
    exact ⟨tail, rest, rfl, single⟩

/-! ### Levels -/

variable {marks} {filters levels : List (List Symbol)}

omit [DecidableEq Symbol] in
theorem sep_notMem_one : marks.sep ∉ [marks.one] := by
  simpa using marks.sep_ne_one

omit [DecidableEq Symbol] in
theorem sep_notMem_many : marks.sep ∉ [marks.many] := by
  simpa using marks.sep_ne_many

/-- The level rule where the topic is not exhausted. -/
theorem matchLevels_cons {level first : List Symbol} (remains : ¬(level = [] ∧ levels = [])) :
    matchLevels marks (first :: filters) (level :: levels) = true ↔
      (first = [marks.many] ∧ filters = []) ∨
        (first = [marks.one] ∨ first = level) ∧ matchLevels marks filters levels = true := by
  simp [matchLevels, remains]

/-- Read as a topic, a filter matches itself. -/
theorem matchLevels_self (levels : List (List Symbol)) : matchLevels marks levels levels = true := by
  induction levels with
  | nil => rfl
  | cons level levels inductionHypothesis =>
      by_cases remains : level = [] ∧ levels = []
      · simp [matchLevels, remains]
      · exact (matchLevels_cons remains).mpr (.inr ⟨.inr rfl, inductionHypothesis⟩)

/-- The number of derivations of a match. -/
def ways (marks : Marks Symbol) : List (List Symbol) → List (List Symbol) → Nat
  | [], [] => 1
  | [], _ :: _ => 0
  | _ :: _, [] => 0
  | filter :: filters, level :: levels =>
      if level = [] ∧ levels = [] then if filter = [] ∧ filters = [] then 1 else 0
      else
        (if filter = [marks.many] ∧ filters = [] then 1 else 0) +
          (if filter = [marks.one] then ways marks filters levels else 0) +
          (if filter = level then ways marks filters levels else 0)

theorem ways_nil_right : ways marks filters [] = if filters = [] then 1 else 0 := by
  cases filters <;> simp [ways]

theorem ways_pos_iff : 0 < ways marks filters levels ↔ matchLevels marks filters levels = true := by
  induction filters generalizing levels with
  | nil => cases levels <;> simp [ways, matchLevels]
  | cons first filters inductionHypothesis =>
      cases levels with
      | nil => simp [ways, matchLevels]
      | cons level levels =>
          by_cases remains : level = [] ∧ levels = []
          · rw [ways, matchLevels, if_pos remains, if_pos remains]
            split <;> simp_all
          · rw [matchLevels_cons remains, ways, if_neg remains, ← inductionHypothesis]
            grind

/-- A match has a second derivation exactly if filter and topic share a wildcard. -/
theorem two_le_ways_iff (matched : matchLevels marks filters levels = true) :
    2 ≤ ways marks filters levels ↔ shareLevels marks filters levels = true := by
  induction filters generalizing levels with
  | nil => cases levels <;> simp_all [ways, matchLevels, shareLevels]
  | cons first filters inductionHypothesis =>
      cases levels with
      | nil => simp [matchLevels] at matched
      | cons level levels =>
          by_cases remains : level = [] ∧ levels = []
          · obtain ⟨rfl, rfl⟩ := remains
            have exhausted : first = [] ∧ filters = [] := by simpa [matchLevels] using matched
            simp [ways, shareLevels, exhausted.1, exhausted.2]
          · rw [matchLevels_cons remains] at matched
            rw [ways, if_neg remains, shareLevels, Bool.or_eq_true, decide_eq_true_eq]
            have apart : [marks.many] ≠ [marks.one] := by simpa using marks.one_ne_many.symm
            rcases matched with ⟨rfl, rfl⟩ | ⟨here, rest⟩
            · cases levels <;> simp [ways, shareLevels, apart]
              split <;> simp_all
            · have positive := ways_pos_iff.mpr rest
              rw [← inductionHypothesis rest]
              by_cases isMany : first = [marks.many] ∧ filters = []
              · obtain ⟨rfl, rfl⟩ := isMany
                cases levels <;> simp_all [ways, matchLevels]
              · grind

/-- A topic without a wildcard for a level shares none. -/
theorem shareLevels_plain (plain : ∀ level ∈ levels, level ≠ [marks.one] ∧ level ≠ [marks.many]) :
    shareLevels marks filters levels = false := by
  induction filters generalizing levels with
  | nil => simp [shareLevels]
  | cons first filters inductionHypothesis =>
      cases levels with
      | nil => rfl
      | cons level levels =>
          obtain ⟨here, later⟩ := List.forall_mem_cons.mp plain
          rw [shareLevels, inductionHypothesis later]
          grind

theorem ways_le_one (plain : ∀ level ∈ levels, level ≠ [marks.one] ∧ level ≠ [marks.many]) :
    ways marks filters levels ≤ 1 := by
  by_contra twice
  have matched := ways_pos_iff.mp (show 0 < ways marks filters levels by omega)
  have shares := (two_le_ways_iff matched).mp (by omega)
  rw [shareLevels_plain plain] at shares
  cases shares

/-- Only a well-formed filter matches a topic without wildcards. -/
theorem formedLevels_of_match (matched : matchLevels marks filters levels = true)
    (plain : ∀ level ∈ levels, marks.one ∉ level ∧ marks.many ∉ level) :
    formedLevels marks filters = true := by
  induction filters generalizing levels with
  | nil => rfl
  | cons first filters inductionHypothesis =>
      cases levels with
      | nil => simp [matchLevels] at matched
      | cons level levels =>
          obtain ⟨here, later⟩ := List.forall_mem_cons.mp plain
          by_cases remains : level = [] ∧ levels = []
          · obtain ⟨rfl, rfl⟩ : first = [] ∧ filters = [] := by
              simpa [matchLevels, remains] using matched
            simp [formedLevels]
          · rcases (matchLevels_cons remains).mp matched with ⟨rfl, rfl⟩ | ⟨first, rest⟩
            · simp [formedLevels]
            · rw [formedLevels, inductionHypothesis rest later]
              grind

/-! ### Looking a topic up in a map from filters to items -/

variable {boundary : Bool} {filter topic : List Symbol}

/-- The filters a lookup visits, in the order of the walk: at a level boundary
first the remainder wildcard, then what starts with the level wildcard, then the
literal continuation. -/
def paths (marks : Marks Symbol) (boundary : Bool) (topic : List Symbol) : List (List Symbol) :=
  match topic with
  | [] => [[]]
  | symbol :: rest =>
      (if boundary then
        [marks.many] ::
          (if marks.sep ∈ symbol :: rest then
            ((paths marks true (afterLevel marks (symbol :: rest))).map (marks.sep :: ·)).map (marks.one :: ·)
          else [[marks.one]])
      else []) ++
      (paths marks (symbol == marks.sep) rest).map (symbol :: ·)
termination_by topic.length
decreasing_by
  · exact afterLevel_length_lt marks
  · simp

theorem count_map_cons (words : List (List Symbol)) (symbol : Symbol) :
    (words.map (symbol :: ·)).count filter =
      if filter.head? = some symbol then words.count filter.tail else 0 := by
  cases filter with
  | nil => simp [List.count_eq_zero]
  | cons head tail =>
      by_cases same : head = symbol
      · subst head
        rw [List.head?_cons, if_pos rfl, List.tail_cons]
        exact List.count_map_of_injective words (symbol :: ·) (fun _ _ same => (List.cons.inj same).2) tail
      · simp [List.count_eq_zero, same, Ne.symm same]

/-- Visits under the level wildcard. -/
private theorem count_one {level first : List Symbol}
    (filterSplit : filter.splitOn marks.sep = first :: filters)
    (topicSplit : topic.splitOn marks.sep = level :: levels)
    (shorter : ∀ rest tail, tail.length < topic.length →
      (paths marks true tail).count rest = ways marks (rest.splitOn marks.sep) (tail.splitOn marks.sep)) :
    (if marks.sep ∈ topic then
      ((paths marks true (afterLevel marks topic)).map (marks.sep :: ·)).map (marks.one :: ·)
    else [[marks.one]]).count filter = if first = [marks.one] then ways marks filters levels else 0 := by
  rcases cut_cases marks topic with ⟨-, single⟩ | ⟨front, tail, cut, rfl, single⟩
  · rw [List.splitOn_eq_singleton single] at topicSplit
    obtain ⟨rfl, rfl⟩ := List.cons.inj topicSplit
    have alone : filter = [marks.one] ↔ first = [marks.one] ∧ filters = [] := by
      rw [← splitOn_eq_singleton_iff marks sep_notMem_one, filterSplit, List.cons.injEq]
    rw [if_neg single, ways_nil_right, List.count_singleton]
    grind
  · rw [List.splitOn_append_cons_self_of_not_mem single] at topicSplit
    obtain ⟨rfl, rfl⟩ := List.cons.inj topicSplit
    have behind : afterLevel marks (front ++ marks.sep :: tail) = tail := by
      rw [afterLevel, cut]
      rfl
    rw [if_pos (by simp), behind, count_map_cons, count_map_cons]
    by_cases starts : ∃ rest, filter = marks.one :: marks.sep :: rest
    · obtain ⟨rest, rfl⟩ := starts
      have filterCut := List.splitOn_append_cons_self_of_not_mem
        (show marks.sep ∉ [marks.one] from sep_notMem_one) rest
      rw [List.singleton_append, filterSplit] at filterCut
      obtain ⟨rfl, rfl⟩ := List.cons.inj filterCut
      simpa using shorter rest tail (by simp only [List.length_append, List.length_cons]; omega)
    · have other : ¬(filter.head? = some marks.one ∧ filter.tail.head? = some marks.sep) := by
        rintro ⟨isOne, isSep⟩
        obtain ⟨rest, rfl⟩ := List.head?_eq_some_iff.mp isOne
        obtain ⟨rest, rfl⟩ := List.head?_eq_some_iff.mp (show rest.head? = some marks.sep from isSep)
        exact starts ⟨rest, rfl⟩
      have none : first = [marks.one] → filters = [] := by
        rintro rfl
        cases filters with
        | nil => rfl
        | cons second others =>
            obtain ⟨rest, -, isCut, -⟩ := exists_word_of_splitOn marks filterSplit
            exact absurd ⟨rest, isCut⟩ starts
      obtain ⟨next, others, split⟩ := exists_splitOn marks tail
      rw [split]
      by_cases isOne : first = [marks.one]
      · rw [if_pos isOne, none isOne, ways]
        grind
      · rw [if_neg isOne]
        grind

/-- Visits under the next symbol. -/
private theorem count_literal {symbol : Symbol} {level first : List Symbol}
    (filterSplit : filter.splitOn marks.sep = first :: filters)
    (topicSplit : (symbol :: topic).splitOn marks.sep = level :: levels)
    (atBoundary : ∀ rest, (paths marks true topic).count rest =
      ways marks (rest.splitOn marks.sep) (topic.splitOn marks.sep))
    (inLevel : ∀ {rest level first filters levels}, rest.splitOn marks.sep = first :: filters →
      topic.splitOn marks.sep = level :: levels →
      (paths marks false topic).count rest = if first = level then ways marks filters levels else 0) :
    ((paths marks (symbol == marks.sep) topic).map (symbol :: ·)).count filter =
      if first = level then ways marks filters levels else 0 := by
  rw [count_map_cons]
  by_cases separates : symbol = marks.sep
  · subst separates
    rw [splitOn_cons_sep] at topicSplit
    obtain ⟨rfl, rfl⟩ := List.cons.inj topicSplit
    rw [beq_self_eq_true]
    by_cases starts : filter.head? = some marks.sep
    · obtain ⟨rest, rfl⟩ := List.head?_eq_some_iff.mp starts
      rw [splitOn_cons_sep] at filterSplit
      obtain ⟨rfl, rfl⟩ := List.cons.inj filterSplit
      simpa using atBoundary rest
    · obtain ⟨next, others, split⟩ := exists_splitOn marks topic
      rw [if_neg starts, split]
      cases filters with
      | nil => simp [ways]
      | cons second others =>
          obtain ⟨rest, -, isCut, -⟩ := exists_word_of_splitOn marks filterSplit
          rw [if_neg]
          rintro rfl
          exact starts (by rw [isCut]; rfl)
  · obtain ⟨next, others, split⟩ := exists_splitOn marks topic
    rw [splitOn_cons_ne marks separates split] at topicSplit
    obtain ⟨rfl, rfl⟩ := List.cons.inj topicSplit
    rw [beq_eq_false_iff_ne.mpr separates]
    by_cases starts : filter.head? = some symbol
    · obtain ⟨rest, rfl⟩ := List.head?_eq_some_iff.mp starts
      obtain ⟨restFirst, restFilters, restSplit⟩ := exists_splitOn marks rest
      rw [splitOn_cons_ne marks separates restSplit] at filterSplit
      obtain ⟨rfl, rfl⟩ := List.cons.inj filterSplit
      simpa using inLevel restSplit split
    · rw [if_neg starts, if_neg]
      rintro rfl
      exact starts (head_of_splitOn marks filterSplit)

/-- Both readings by one induction on the length of the topic: inside a level
the filter has to finish the level literally, at a boundary all derivations
count. -/
private theorem count_paths_levels (size : Nat) :
    ∀ (topic filter level first : List Symbol) (filters levels : List (List Symbol)),
      topic.length = size →
      filter.splitOn marks.sep = first :: filters → topic.splitOn marks.sep = level :: levels →
      (paths marks false topic).count filter = (if first = level then ways marks filters levels else 0) ∧
        (paths marks true topic).count filter = ways marks (first :: filters) (level :: levels) := by
  induction size using Nat.strong_induction_on with
  | _ size inductionHypothesis =>
      intro topic filter level first filters levels sizeIs filterSplit topicSplit
      have shorter : ∀ rest tail : List Symbol, tail.length < topic.length →
          (paths marks true tail).count rest =
            ways marks (rest.splitOn marks.sep) (tail.splitOn marks.sep) := by
        intro rest tail less
        obtain ⟨restFirst, restFilters, restSplit⟩ := exists_splitOn marks rest
        obtain ⟨tailLevel, tailLevels, tailSplit⟩ := exists_splitOn marks tail
        rw [restSplit, tailSplit]
        exact (inductionHypothesis tail.length (by omega) tail rest _ _ _ _ rfl restSplit tailSplit).2
      cases topic with
      | nil =>
          rw [List.splitOn_nil] at topicSplit
          obtain ⟨rfl, rfl⟩ := List.cons.inj topicSplit
          have exhausted : filter = [] ↔ first = [] ∧ filters = [] := by
            rw [← splitOn_eq_singleton_iff marks List.not_mem_nil, filterSplit, List.cons.injEq]
          rw [paths, paths, ways_nil_right, ways, List.count_singleton]
          grind
      | cons symbol rest =>
          have remains : ¬(level = [] ∧ levels = []) := by
            rintro ⟨rfl, rfl⟩
            rw [splitOn_eq_singleton_iff marks (by simp)] at topicSplit
            simp at topicSplit
          have literals := count_literal filterSplit topicSplit
            (fun filter => shorter filter rest (by simp))
            (fun restSplit split => (inductionHypothesis rest.length (by simp at sizeIs; omega)
              rest _ _ _ _ _ rfl restSplit split).1)
          have under := count_one filterSplit topicSplit shorter
          have alone : filter = [marks.many] ↔ first = [marks.many] ∧ filters = [] := by
            rw [← splitOn_eq_singleton_iff marks sep_notMem_many, filterSplit, List.cons.injEq]
          constructor
          · rw [paths]
            simpa using literals
          · rw [paths, if_pos rfl, List.count_append, List.count_cons, under, literals, ways, if_neg remains]
            grind

/-- A lookup visits a filter once for every derivation of its match. -/
theorem count_paths : (paths marks true topic).count filter =
    ways marks (filter.splitOn marks.sep) (topic.splitOn marks.sep) := by
  obtain ⟨first, filters, filterSplit⟩ := exists_splitOn marks filter
  obtain ⟨level, levels, topicSplit⟩ := exists_splitOn marks topic
  rw [filterSplit, topicSplit]
  exact (count_paths_levels topic.length topic filter _ _ _ _ rfl filterSplit topicSplit).2

/-- The items under the filters that are visited. -/
def hits (marks : Marks Symbol) (entries : List Symbol → List Item) (boundary : Bool)
    (topic : List Symbol) : List Item :=
  (paths marks boundary topic).flatMap entries

theorem hits_nil (entries : List Symbol → List Item) :
    hits marks entries boundary [] = entries [] := by
  simp [hits, paths]

theorem hits_cons (entries : List Symbol → List Item) (symbol : Symbol) (rest : List Symbol) :
    hits marks entries boundary (symbol :: rest) =
      (if boundary then
        entries [marks.many] ++
          (if marks.sep ∈ symbol :: rest then
            hits marks (fun path => entries (marks.one :: marks.sep :: path)) true
              (afterLevel marks (symbol :: rest))
          else entries [marks.one])
      else []) ++
      hits marks (fun path => entries (symbol :: path)) (symbol == marks.sep) rest := by
  rw [hits, paths]
  split_ifs <;> simp [hits, List.flatMap_map]

/-- The walk reports exactly the items under matching filters. -/
theorem mem_hits {entries : List Symbol → List Item} {item : Item} :
    item ∈ hits marks entries true topic ↔
      ∃ filter, item ∈ entries filter ∧ Matches marks filter topic = true := by
  have visited : ∀ filter, filter ∈ paths marks true topic ↔ Matches marks filter topic = true := by
    intro filter
    rw [← List.count_pos_iff, count_paths, ways_pos_iff, Matches]
  simp only [hits, List.mem_flatMap, visited, and_comm]

/-- A walk over an empty map reports nothing. -/
theorem hits_empty (boundary : Bool) (topic : List Symbol) :
    hits marks (fun _ => ([] : List Item)) boundary topic = [] := by
  simp [hits]

/-- A walk over a map from which items were taken out reports the others, in the same
order. -/
theorem hits_filter (keep : Item → Bool) (entries : List Symbol → List Item) (boundary : Bool)
    (topic : List Symbol) :
    hits marks (fun path => (entries path).filter keep) boundary topic =
      (hits marks entries boundary topic).filter keep := by
  rw [hits, hits, List.filter_flatMap]

section Count

variable [DecidableEq Item] {item : Item} {home : List Symbol}

/-- The map holds the item once, under the filter `home`. -/
def HeldAt (entries : List Symbol → List Item) (item : Item) (home : List Symbol) : Prop :=
  ∀ path, (entries path).count item = if path = home then 1 else 0

omit [DecidableEq Symbol] in
/-- Descending along a symbol keeps the item under the rest of its filter. -/
theorem HeldAt.descend [DecidableEq Symbol] {entries : List Symbol → List Item} {symbol : Symbol}
    (held : HeldAt entries item (symbol :: home)) :
    HeldAt (fun path => entries (symbol :: path)) item home := by
  intro path
  simp [held (symbol :: path)]

/-- An item held once is reported once for every derivation of a match of its filter. -/
theorem count_hits {entries : List Symbol → List Item} (held : HeldAt entries item home) :
    (hits marks entries true topic).count item =
      ways marks (home.splitOn marks.sep) (topic.splitOn marks.sep) := by
  rw [← count_paths, hits]
  induction paths marks true topic with
  | nil => rfl
  | cons path words inductionHypothesis =>
      rw [List.flatMap_cons, List.count_append, inductionHypothesis, held, List.count_cons]
      grind

end Count

end FbBroker.Lib.Wildcard
