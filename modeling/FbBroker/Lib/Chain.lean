import Mathlib.Data.List.Nodup
import Mathlib.Logic.Function.Basic

/-!
Contract: finite null-terminated chains over a `next` map.

Owns the predicate that a walk from a head pointer visits exactly a given list
of nodes, its determinism and freedom from repetition, the frame rule for
writes outside the chain, and the effect of the two writes every list
operation is made of: linking a new node after the last one and bypassing one
node.

Does not own any node layout, back pointers, or head bookkeeping.
-/

set_option autoImplicit false

namespace FbBroker.Lib

universe u

variable {Node : Type u}

/-- Following `next` from `head` visits exactly `nodes` and then stops. -/
def Chain (next : Node → Option Node) : Option Node → List Node → Prop
  | head, [] => head = none
  | head, node :: rest => head = some node ∧ Chain next (next node) rest

namespace Chain

variable {next other : Node → Option Node} {head : Option Node}

@[simp] theorem nil_iff : Chain next head [] ↔ head = none := Iff.rfl

@[simp] theorem cons_iff {node : Node} {rest : List Node} :
    Chain next head (node :: rest) ↔ head = some node ∧ Chain next (next node) rest :=
  Iff.rfl

theorem head_eq {nodes : List Node} (chain : Chain next head nodes) : head = nodes.head? := by
  cases nodes with
  | nil => exact chain
  | cons node rest => exact chain.1

/-- Frame rule: only the `next` fields of the chain's own nodes matter. -/
theorem congr {nodes : List Node} (chain : Chain next head nodes)
    (same : ∀ node ∈ nodes, other node = next node) : Chain other head nodes := by
  induction nodes generalizing head with
  | nil => exact chain
  | cons node rest inductionHypothesis =>
      refine ⟨chain.1, ?_⟩
      rw [same node (by simp)]
      exact inductionHypothesis chain.2 fun later member => same later (by simp [member])

/-- A head pointer determines its chain. -/
theorem unique {left right : List Node} (first : Chain next head left)
    (second : Chain next head right) : left = right := by
  induction left generalizing head right with
  | nil =>
      cases right with
      | nil => rfl
      | cons node rest => simp_all
  | cons node rest inductionHypothesis =>
      cases right with
      | nil => simp_all
      | cons node' rest' =>
          obtain ⟨headIs, tail⟩ := first
          obtain ⟨headIs', tail'⟩ := second
          obtain rfl : node = node' := Option.some.inj (headIs.symm.trans headIs')
          rw [inductionHypothesis tail tail']

/-- The part of a chain from any of its nodes on is a chain from that node. -/
theorem suffix_of_append {before : List Node} {node : Node} {after : List Node}
    (chain : Chain next head (before ++ node :: after)) :
    Chain next (some node) (node :: after) := by
  induction before generalizing head with
  | nil => exact ⟨rfl, chain.2⟩
  | cons first rest inductionHypothesis => exact inductionHypothesis chain.2

/-- A terminating walk never meets a node twice. -/
theorem nodup {nodes : List Node} (chain : Chain next head nodes) : nodes.Nodup := by
  induction nodes generalizing head with
  | nil => exact List.nodup_nil
  | cons node rest inductionHypothesis =>
      refine List.nodup_cons.mpr ⟨fun repeated => ?_, inductionHypothesis chain.2⟩
      obtain ⟨before, after, split⟩ := List.append_of_mem repeated
      have whole : Chain next (some node) (node :: rest) := ⟨rfl, chain.2⟩
      have again : Chain next (some node) (node :: after) := by
        have tail := chain.2
        rw [split] at tail
        exact tail.suffix_of_append
      have lengths := congrArg List.length (whole.unique again)
      simp only [split, List.length_cons, List.length_append] at lengths
      omega

variable [DecidableEq Node]

/-- Writing `next` of a node outside the chain changes nothing. -/
theorem update_of_notMem {nodes : List Node} {target : Node} {value : Option Node}
    (chain : Chain next head nodes) (outside : target ∉ nodes) :
    Chain (Function.update next target value) head nodes := by
  refine chain.congr fun node member => Function.update_of_ne ?_ _ _
  rintro rfl
  exact outside member

/-- Linking a node without successor after the last one appends it. -/
theorem link_last {before : List Node} {last item : Node}
    (chain : Chain next head (before ++ [last])) (fresh : item ∉ before ++ [last])
    (ends : next item = none) :
    Chain (Function.update next last (some item)) head (before ++ [last, item]) := by
  induction before generalizing head with
  | nil =>
      have different : item ≠ last := by simpa using fresh
      simp only [List.nil_append] at chain ⊢
      refine ⟨chain.1, ?_⟩
      simp [Function.update_of_ne different, ends]
  | cons node rest inductionHypothesis =>
      have notLast : node ≠ last := by
        have distinct := chain.nodup
        simp only [List.cons_append, List.nodup_cons, List.mem_append, List.mem_singleton,
          not_or] at distinct
        exact distinct.1.2
      refine ⟨chain.1, ?_⟩
      rw [Function.update_of_ne notLast]
      exact inductionHypothesis chain.2 fun member => fresh (by simp_all)

/-- Redirecting the predecessor of a node to the node's successor bypasses it. -/
theorem bypass {before : List Node} {left node : Node} {after : List Node}
    (chain : Chain next head (before ++ left :: node :: after)) :
    Chain (Function.update next left (next node)) head (before ++ left :: after) := by
  have distinct := chain.nodup
  induction before generalizing head with
  | nil =>
      have notAfter : left ∉ after := by
        simp only [List.nil_append, List.nodup_cons, List.mem_cons, not_or] at distinct
        exact distinct.1.2
      refine ⟨chain.1, ?_⟩
      rw [Function.update_self]
      exact chain.2.2.update_of_notMem notAfter
  | cons first rest inductionHypothesis =>
      rw [List.cons_append, List.nodup_cons] at distinct
      have notLeft : first ≠ left := by
        rintro rfl
        exact distinct.1 (by simp)
      refine ⟨chain.1, ?_⟩
      rw [Function.update_of_ne notLeft]
      exact inductionHypothesis chain.2 distinct.2

end Chain

end FbBroker.Lib
