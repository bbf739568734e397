import FbBroker.Routing.Subscription

/-!
Contract: the nodes of a subscription trie.

Owns pruning: insertion and deletion keep a trie in which every node has a list
or a child, so that the nodes of a table are the prefixes of the filters it holds
and an empty table has no node at all.
-/

set_option autoImplicit false

namespace FbBroker.TrieMult

open FbBroker.Lib FbBroker.Dllist

variable {Ref : Type}

/-! ### Pruned tries -/

/-- Every node has a list or a child. -/
def Trie.Pruned : Trie Ref → Prop
  | .nil => True
  | .node children list =>
      (list ≠ none ∨ ∃ byte, children byte ≠ .nil) ∧ ∀ byte, (children byte).Pruned

private theorem haveChildren_iff {children : Byte → Trie Ref} :
    haveChildren children = true ↔ ∃ byte, children byte ≠ .nil := by
  constructor
  · intro some
    by_contra none
    push Not at none
    simp [haveChildren, none, Trie.isNil] at some
  · rintro ⟨byte, present⟩
    by_contra childless
    exact present (children_eq_nil (by simpa using childless) byte)

namespace Trie.Pruned

theorem sub {trie : Trie Ref} (pruned : trie.Pruned) (path : List Byte) : (trie.sub path).Pruned := by
  induction path generalizing trie with
  | nil => simpa using pruned
  | cons byte path inductionHypothesis =>
      cases trie with
      | nil => trivial
      | node children list => exact inductionHypothesis (pruned.2 byte)

/-- Below a node hangs a list. -/
theorem exists_list {trie : Trie Ref} (pruned : trie.Pruned) (present : trie ≠ .nil) :
    ∃ path, trie.listAt path ≠ none := by
  induction trie with
  | nil => exact absurd rfl present
  | node children list inductionHypothesis =>
      rcases pruned.1 with here | ⟨byte, child⟩
      · exact ⟨[], here⟩
      · obtain ⟨path, below⟩ := inductionHypothesis byte (pruned.2 byte) child
        exact ⟨byte :: path, below⟩

/-- The nodes are the prefixes of the paths with a list. -/
theorem sub_ne_nil_iff {trie : Trie Ref} (pruned : trie.Pruned) (path : List Byte) :
    trie.sub path ≠ .nil ↔ ∃ rest, trie.listAt (path ++ rest) ≠ none := by
  constructor
  · intro present
    obtain ⟨rest, listed⟩ := (pruned.sub path).exists_list present
    refine ⟨rest, ?_⟩
    rwa [Trie.listAt, Trie.sub_append]
  · rintro ⟨rest, listed⟩ missing
    exact listed (Trie.listAt_eq_none_of_sub missing rest)

/-- A child put into a node that keeps a list or a child. -/
theorem update {children : Byte → Trie Ref} {list : Option Ref} {byte : Byte} {child : Trie Ref}
    (others : ∀ byte, (children byte).Pruned) (new : child.Pruned)
    (used : list ≠ none ∨ ∃ other, Function.update children byte child other ≠ .nil) :
    (Trie.node (Function.update children byte child) list).Pruned := by
  refine ⟨used, fun other => ?_⟩
  by_cases same : other = byte
  · subst other
    simpa using new
  · simpa [same] using others other

/-- Freeing a node without a list leaves the null pointer, which is what it tells. -/
theorem free {children : Byte → Trie Ref} (list : Option Ref) (others : ∀ byte, (children byte).Pruned) :
    (freeTrieNode children list).1.Pruned ∧
      ((freeTrieNode children list).2 = true ↔ (freeTrieNode children list).1 = .nil) := by
  cases list with
  | none => exact ⟨trivial, by simp [freeTrieNode]⟩
  | some ref => exact ⟨⟨.inl (by simp), others⟩, by simp [freeTrieNode]⟩

end Trie.Pruned

section Update

variable [DecidableEq Ref]

private theorem dllistInsertTailUnique_ne_none {bound : Nat} {heap heap' : Heap Ref} {head head' : Option Ref}
    {item : Ref} (inserted : dllistInsertTailUnique bound heap head item = some (heap', head')) :
    head' ≠ none := by
  cases head with
  | none =>
      simp only [dllistInsertTailUnique, Option.some.injEq, Prod.mk.injEq] at inserted
      simp [← inserted.2]
  | some first =>
      simp only [dllistInsertTailUnique, Option.map_eq_some_iff, Prod.mk.injEq] at inserted
      obtain ⟨_, -, -, isHead⟩ := inserted
      simp [← isHead]

/-- Insertion makes no node without a list at or below it. -/
theorem trieMInsert_pruned {bound : Nat} {heap heap' : Heap Ref} {trie trie' : Trie Ref} {s : List Byte}
    {p : Ref} (pruned : trie.Pruned) (inserted : trieMInsert bound heap trie s p = some (heap', trie')) :
    trie'.Pruned ∧ trie' ≠ .nil := by
  induction s generalizing trie trie' with
  | nil =>
      cases trie with
      | nil =>
          simp only [trieMInsert, orNew, newTrieMultNode, trieMInsertLoop, Option.map_eq_some_iff,
            Prod.mk.injEq, Prod.exists] at inserted
          obtain ⟨heap, list, linked, -, rfl⟩ := inserted
          exact ⟨⟨.inl (dllistInsertTailUnique_ne_none linked), fun _ => trivial⟩, by simp⟩
      | node children old =>
          simp only [trieMInsert, orNew, trieMInsertLoop, Option.map_eq_some_iff, Prod.mk.injEq,
            Prod.exists] at inserted
          obtain ⟨heap, list, linked, -, rfl⟩ := inserted
          exact ⟨⟨.inl (dllistInsertTailUnique_ne_none linked), pruned.2⟩, by simp⟩
  | cons byte s inductionHypothesis =>
      have below : ∀ {children : Byte → Trie Ref} {list : Option Ref}, (∀ byte, (children byte).Pruned) →
          trieMInsertLoop bound heap p (byte :: s) (.node children list) = some (heap', trie') →
          trie'.Pruned ∧ trie' ≠ .nil := by
        intro children list others loop
        simp only [trieMInsertLoop, Option.map_eq_some_iff, Prod.mk.injEq, Prod.exists] at loop
        obtain ⟨heap, child, inner, rfl, rfl⟩ := loop
        obtain ⟨childPruned, childNode⟩ := inductionHypothesis (others byte) inner
        exact ⟨.update others childPruned (.inr ⟨byte, by simpa using childNode⟩), by simp⟩
      cases trie with
      | nil =>
          have none : ∀ byte : Byte, ((fun _ => Trie.nil : Byte → Trie Ref) byte).Pruned := fun _ => trivial
          exact below none inserted
      | node children old => exact below pruned.2 inserted

/-- Deletion leaves no node without a list at or below it, and tells whether it freed
the node it was called on. -/
theorem deleteR_pruned {heap : Heap Ref} {lp : Ref} {trie : Trie Ref} {s : List Byte}
    (pruned : trie.Pruned) (present : trie ≠ .nil) :
    (deleteR heap lp trie s).2.1.Pruned ∧
      ((deleteR heap lp trie s).2.2 = true ↔ (deleteR heap lp trie s).2.1 = .nil) := by
  induction s generalizing trie with
  | nil =>
      cases trie with
      | nil => exact absurd rfl present
      | node children list =>
          simp only [deleteR]
          split
          · rename_i child
            exact ⟨⟨.inr (haveChildren_iff.mp child), pruned.2⟩, by simp⟩
          · exact Trie.Pruned.free _ pruned.2
  | cons byte s inductionHypothesis =>
      cases trie with
      | nil => exact absurd rfl present
      | node children list =>
          simp only [deleteR]
          split
          · exact ⟨pruned, by simp⟩
          · rename_i childNode
            obtain ⟨childPruned, told⟩ := inductionHypothesis (pruned.2 byte) childNode
            split
            · split
              · rename_i child
                exact ⟨.update pruned.2 childPruned (.inr (haveChildren_iff.mp child)), by simp⟩
              · refine Trie.Pruned.free list fun other => ?_
                by_cases same : other = byte
                · subst other
                  simpa using childPruned
                · simpa [same] using pruned.2 other
            · rename_i kept
              have stays : (deleteR heap lp (children byte) s).2.1 ≠ .nil := fun gone => kept (told.mpr gone)
              exact ⟨.update pruned.2 childPruned (.inr ⟨byte, by simpa using stays⟩), by simp⟩

end Update

end FbBroker.TrieMult

namespace FbBroker.Routing

open FbBroker.Lib FbBroker.Dllist FbBroker.TrieMult

variable {Ref : Type} [DecidableEq Ref]

/-! ### The nodes of a table -/

private theorem subInsert_pruned {bound : Nat} {heap heap' : Heap Ref} {head head' : Trie Ref} {filter : List Byte}
    {psub : Ref} (pruned : head.Pruned)
    (inserted : subInsert bound heap head filter psub = some (heap', head')) : head'.Pruned :=
  (trieMInsert_pruned pruned inserted).1

private theorem subRemove_pruned {heap : Heap Ref} {head : Trie Ref} (pruned : head.Pruned) (filter : List Byte)
    (sp : Ref) : (subRemove heap head filter sp).2.Pruned := by
  by_cases present : head = .nil
  · rw [present]
    cases dropLocal (cstr filter) <;> simp [subRemove, trieMDelete, deleteR, Trie.Pruned]
  · exact (deleteR_pruned pruned present).1

/-- One use of the table keeps it pruned. -/
theorem Table.apply_pruned {bound : Nat} {table table' : Table Ref} {use : Use Ref}
    (pruned : table.head.Pruned) (applied : table.apply bound use = some table') :
    table'.head.Pruned := by
  cases use with
  | insert sub filter =>
      simp only [Table.apply, Option.map_eq_some_iff, Prod.exists] at applied
      obtain ⟨heap, head, inserted, rfl⟩ := applied
      exact subInsert_pruned pruned inserted
  | remove sub =>
      simp only [Table.apply, Option.some.injEq] at applied
      subst applied
      exact subRemove_pruned pruned _ _

/-- So does a history. -/
theorem Table.foldlM_pruned {bound : Nat} {uses : List (Use Ref)} {table table' : Table Ref}
    (pruned : table.head.Pruned) (ran : uses.foldlM (Table.apply bound) table = some table') :
    table'.head.Pruned := by
  induction uses generalizing table with
  | nil =>
      obtain rfl : table = table' := by simpa using ran
      exact pruned
  | cons use uses inductionHypothesis =>
      rw [List.foldlM_cons] at ran
      obtain ⟨next, applied, rest⟩ := Option.bind_eq_some_iff.mp ran
      exact inductionHypothesis (Table.apply_pruned pruned applied) rest

omit [DecidableEq Ref] in
/-- A list hangs under the filters of the live subscriptions. -/
theorem Holds.listAt_ne_none_iff {heap : Heap Ref} {head : Trie Ref} {live : List (Ref × List Byte)}
    (holds : Holds heap head live) (path : List Byte) :
    head.listAt path ≠ none ↔ ∃ sub filter, (sub, filter) ∈ live ∧ dropLocal filter = path := by
  rw [(holds.contents.lists path).head_eq, Ne, List.head?_eq_none_iff, List.eq_nil_iff_forall_not_mem]
  push Not
  simp only [mem_entriesOf]

/-- After any history of insertions and removals the nodes of the trie are the prefixes of
the live filters, none of them is without a list and without a child, and there is no head
if and only if no subscription is live. -/
theorem trie_nodes_exact {uses : List (Use Ref)} {live : List (Ref × List Byte)} {bound : Nat}
    (heap : Heap Ref) (filters : Ref → List Byte) (history : uses.foldlM Use.track [] = some live)
    (enough : uses.length ≤ bound) :
    ∃ table, uses.foldlM (Table.apply bound) ⟨heap, filters, .nil⟩ = some table ∧
      (∀ path children list, table.head.sub path = .node children list →
        list ≠ none ∨ ∃ byte, children byte ≠ .nil) ∧
      (∀ path, table.head.sub path ≠ .nil ↔ ∃ sub filter, (sub, filter) ∈ live ∧ path <+: dropLocal filter) ∧
      (table.head = .nil ↔ live = []) := by
  obtain ⟨table, run, tracks⟩ :
      ∃ table, uses.foldlM (Table.apply bound) ⟨heap, filters, .nil⟩ = some table ∧ _ :=
    Tracks.foldlM ⟨Holds.empty heap, by simp⟩ history (by simpa using enough)
  have empty : (Trie.nil : Trie Ref).Pruned := trivial
  have pruned := Table.foldlM_pruned empty run
  have nodes : ∀ path, table.head.sub path ≠ .nil ↔
      ∃ sub filter, (sub, filter) ∈ live ∧ path <+: dropLocal filter := by
    intro path
    rw [pruned.sub_ne_nil_iff]
    constructor
    · rintro ⟨rest, listed⟩
      obtain ⟨sub, filter, present, split⟩ := (tracks.holds.listAt_ne_none_iff _).mp listed
      exact ⟨sub, filter, present, rest, split.symm⟩
    · rintro ⟨sub, filter, present, rest, split⟩
      exact ⟨rest, (tracks.holds.listAt_ne_none_iff _).mpr ⟨sub, filter, present, split.symm⟩⟩
  refine ⟨table, run, ?_, nodes, ?_⟩
  · intro path children list here
    have below := pruned.sub path
    rw [here] at below
    exact below.1
  · have whole := nodes []
    rw [Trie.sub_here] at whole
    constructor
    · intro none
      by_contra some
      obtain ⟨entry, member⟩ := List.exists_mem_of_ne_nil live some
      exact whole.mpr ⟨entry.1, entry.2, member, List.nil_prefix⟩ none
    · rintro rfl
      by_contra node
      obtain ⟨_, _, member, -⟩ := whole.mp node
      exact absurd member List.not_mem_nil

/-- A filter that is empty behind `$local/` keeps the head when the longer one and its node
are gone. -/
theorem trie_nodes_exact_prefix :
    ∃ table : Table Nat, [Use.insert 0 (lit "$local/"), .insert 1 (lit "a"), .remove 1].foldlM (Table.apply 3)
        Table.initial = some table ∧
      (∀ path, table.head.sub path ≠ .nil ↔ path = []) ∧ table.head ≠ .nil := by
  have history : [Use.insert 0 (lit "$local/"), .insert 1 (lit "a"), .remove 1].foldlM Use.track [] =
      some [(0, lit "$local/")] := by
    decide
  obtain ⟨table, run, -, nodes, head⟩ :=
    trie_nodes_exact Table.initial.heap Table.initial.filter history (show _ ≤ 3 by decide)
  refine ⟨table, run, fun path => (nodes path).trans ?_, fun none => absurd (head.mp none) (by simp)⟩
  simp [show dropLocal (lit "$local/") = [] by decide]

end FbBroker.Routing
