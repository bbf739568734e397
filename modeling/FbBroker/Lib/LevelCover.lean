import Mathlib.Algebra.Order.BigOperators.Group.List
import Mathlib.Algebra.Order.Group.Nat
import FbBroker.Lib.Wildcard

/-!
Contract: patterns whose only wildcard stands for one whole level.

`Covers` compares a pattern and a word level by level. It composes, and it
bounds wildcard filters: the words a filter matches are all covered by some of
finitely many patterns exactly when the filter itself, read as a word, is
covered by one of them and does not end with the remainder wildcard.

Does not own any concrete alphabet or pattern.
-/

set_option autoImplicit false

namespace FbBroker.Lib.Wildcard

variable {Symbol : Type} [DecidableEq Symbol] (marks : Marks Symbol)

/-- Level by level: equal, or the pattern has the level wildcard. -/
def coversLevels : List (List Symbol) → List (List Symbol) → Bool
  | [], [] => true
  | pattern :: patterns, level :: levels =>
      (pattern = [marks.one] || pattern = level) && coversLevels patterns levels
  | _, _ => false

/-- The pattern covers the word. -/
def Covers (pattern word : List Symbol) : Bool :=
  coversLevels marks (pattern.splitOn marks.sep) (word.splitOn marks.sep)

omit [DecidableEq Symbol] in
/-- A symbol of joined levels is the separator or belongs to one of them. -/
theorem mem_intercalate {symbol sep : Symbol} {levels : List (List Symbol)}
    (member : symbol ∈ [sep].intercalate levels) :
    symbol = sep ∨ ∃ level ∈ levels, symbol ∈ level := by
  induction levels with
  | nil => simp [List.intercalate] at member
  | cons level levels inductionHypothesis =>
      cases levels with
      | nil => exact .inr ⟨level, by simp, by simpa [List.intercalate] using member⟩
      | cons next levels =>
          rw [List.intercalate_cons_cons, List.mem_append, List.mem_append] at member
          rcases member with (here | isSep) | later
          · exact .inr ⟨level, by simp, here⟩
          · exact .inl (by simpa using isSep)
          · rcases inductionHypothesis later with isSep | ⟨other, present, here⟩
            · exact .inl isSep
            · exact .inr ⟨other, List.mem_cons_of_mem _ present, here⟩

variable {marks}

theorem coversLevels_cons {pattern level : List Symbol} {patterns levels : List (List Symbol)} :
    coversLevels marks (pattern :: patterns) (level :: levels) = true ↔
      (pattern = [marks.one] ∨ pattern = level) ∧ coversLevels marks patterns levels = true := by
  simp only [coversLevels, Bool.and_eq_true, Bool.or_eq_true, decide_eq_true_eq]

theorem coversLevels_length {patterns levels : List (List Symbol)}
    (covers : coversLevels marks patterns levels = true) : patterns.length = levels.length := by
  induction patterns generalizing levels with
  | nil =>
      cases levels with
      | nil => rfl
      | cons level levels => simp [coversLevels] at covers
  | cons pattern patterns inductionHypothesis =>
      cases levels with
      | nil => simp [coversLevels] at covers
      | cons level levels =>
          rw [coversLevels_cons] at covers
          simp [inductionHypothesis covers.2]

theorem coversLevels_trans {outer inner levels : List (List Symbol)}
    (first : coversLevels marks outer inner = true)
    (second : coversLevels marks inner levels = true) :
    coversLevels marks outer levels = true := by
  induction outer generalizing inner levels with
  | nil =>
      cases inner with
      | nil => exact second
      | cons level inner => simp [coversLevels] at first
  | cons pattern outer inductionHypothesis =>
      cases inner with
      | nil => simp [coversLevels] at first
      | cons middle inner =>
          cases levels with
          | nil => simp [coversLevels] at second
          | cons level levels =>
              rw [coversLevels_cons] at first second ⊢
              refine ⟨?_, inductionHypothesis first.2 second.2⟩
              rcases first.1 with isOne | same
              · exact .inl isOne
              · subst pattern
                exact second.1

/-- A filter without a final remainder wildcard covers what it matches. -/
theorem coversLevels_of_matchLevels {filters levels : List (List Symbol)}
    (matched : matchLevels marks filters levels = true)
    (bounded : filters.getLast? ≠ some [marks.many]) : coversLevels marks filters levels = true := by
  induction filters generalizing levels with
  | nil =>
      cases levels with
      | nil => rfl
      | cons level levels => simp [matchLevels] at matched
  | cons first filters inductionHypothesis =>
      cases levels with
      | nil => simp [matchLevels] at matched
      | cons level levels =>
          by_cases remains : level = [] ∧ levels = []
          · obtain ⟨rfl, rfl⟩ := remains
            simp only [matchLevels, and_self, if_true, decide_eq_true_eq] at matched
            simp [coversLevels, matched.1, matched.2]
          · rw [matchLevels_cons remains] at matched
            rcases matched with ⟨isMany, empty⟩ | ⟨here, rest⟩
            · subst filters first
              simp at bounded
            · have boundedRest : filters.getLast? ≠ some [marks.many] := by
                cases filters with
                | nil => simp
                | cons next filters => simpa using bounded
              rw [coversLevels_cons]
              exact ⟨here, inductionHypothesis rest boundedRest⟩

/-- A filter that ends with the remainder wildcard matches its own extensions. -/
theorem matchLevels_extension {levels : List (List Symbol)} (more : List (List Symbol))
    (unbounded : levels.getLast? = some [marks.many]) :
    matchLevels marks levels (levels ++ more) = true := by
  induction levels with
  | nil => simp at unbounded
  | cons level levels inductionHypothesis =>
      cases levels with
      | nil =>
          have isMany : level = [marks.many] := by simpa using unbounded
          simp [matchLevels, isMany]
      | cons next levels =>
          rw [List.getLast?_cons_cons] at unbounded
          rw [List.cons_append]
          exact (matchLevels_cons (by simp)).mpr (.inr ⟨.inr rfl, inductionHypothesis unbounded⟩)

theorem splitOn_append_replicate (word : List Symbol) (count : Nat) :
    (word ++ List.replicate count marks.sep).splitOn marks.sep =
      word.splitOn marks.sep ++ List.replicate count [] := by
  induction word with
  | nil =>
      induction count with
      | zero => rfl
      | succ count inductionHypothesis =>
          rw [List.nil_append] at inductionHypothesis ⊢
          rw [List.replicate_succ, splitOn_cons_sep, inductionHypothesis, List.splitOn_nil]
          rfl
  | cons symbol word inductionHypothesis =>
      rw [List.cons_append]
      by_cases same : symbol = marks.sep
      · subst symbol
        rw [splitOn_cons_sep, splitOn_cons_sep, inductionHypothesis, List.cons_append]
      · obtain ⟨level, levels, split⟩ := exists_splitOn marks word
        rw [split, List.cons_append] at inductionHypothesis
        rw [splitOn_cons_ne marks same split, splitOn_cons_ne marks same inductionHypothesis,
          List.cons_append]

/-- Finitely many patterns cover every matched word exactly when one of them
covers the filter and the filter has no final remainder wildcard. The words may
be restricted, as long as the filter and its extensions by separators are
among them. -/
theorem matched_covered_iff (marks : Marks Symbol) (patterns : List (List Symbol))
    {filter : List Symbol} (allowed : List Symbol → Prop)
    (extensions : ∀ count, allowed (filter ++ List.replicate count marks.sep)) :
    (∀ topic, allowed topic → Matches marks filter topic = true →
        ∃ pattern ∈ patterns, Covers marks pattern topic = true) ↔
      (∃ pattern ∈ patterns, Covers marks pattern filter = true) ∧
        (filter.splitOn marks.sep).getLast? ≠ some [marks.many] := by
  constructor
  · intro covered
    refine ⟨covered filter (by simpa using extensions 0) (matchLevels_self _), ?_⟩
    intro unbounded
    -- an extension with more levels than any pattern
    let count := (patterns.map fun pattern => (pattern.splitOn marks.sep).length).sum + 1
    have matched : Matches marks filter (filter ++ List.replicate count marks.sep) = true := by
      rw [Matches, splitOn_append_replicate]
      exact matchLevels_extension _ unbounded
    obtain ⟨pattern, member, covers⟩ := covered _ (extensions count) matched
    have lengths := coversLevels_length covers
    rw [splitOn_append_replicate, List.length_append, List.length_replicate] at lengths
    have small : (pattern.splitOn marks.sep).length ≤
        (patterns.map fun pattern => (pattern.splitOn marks.sep).length).sum :=
      List.le_sum_of_mem (List.mem_map_of_mem member)
    omega
  · rintro ⟨⟨pattern, member, covers⟩, bounded⟩ topic _ matched
    exact ⟨pattern, member, coversLevels_trans covers (coversLevels_of_matchLevels matched bounded)⟩

end FbBroker.Lib.Wildcard
