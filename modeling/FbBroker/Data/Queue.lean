import Mathlib.Logic.Function.Basic
import Mathlib.Tactic.Common
import FbBroker.Lib.Chain

/-!
Contract: the intrusive queue of `queue.c`.

Owns the queue with head and tail pointers over a heap of queue items, and the
reading of such a queue as the list of its items: pushing appends, popping
removes the first.
-/

set_option autoImplicit false

namespace FbBroker.Queue

open FbBroker.Lib

variable {Ref Value : Type}

/-- `queue_item_st`: the value the item stands for and the next item. -/
structure QueueItem (Ref Value : Type) where
  p : Option Value
  next : Option Ref

/-- The queue items in memory. -/
abbrev Items (Ref Value : Type) := Ref → QueueItem Ref Value

/-- `queue_st` without its name. -/
structure QueueSt (Ref : Type) where
  head : Option Ref
  tail : Option Ref

def queueInit : QueueSt Ref :=
  ⟨none, none⟩

section Operations

variable [DecidableEq Ref]

def Items.setNext (items : Items Ref Value) (item : Ref) (next : Option Ref) : Items Ref Value :=
  Function.update items item { items item with next }

def Items.setP (items : Items Ref Value) (item : Ref) (p : Option Value) : Items Ref Value :=
  Function.update items item { items item with p }

@[simp] theorem Items.setNext_p (items : Items Ref Value) (target ref : Ref) (next : Option Ref) :
    (items.setNext target next ref).p = (items ref).p := by
  by_cases same : ref = target
  · subst ref
    simp [Items.setNext]
  · simp [Items.setNext, Function.update_of_ne same]

theorem Items.setNext_next (items : Items Ref Value) (target : Ref) (next : Option Ref) :
    (fun ref => (items.setNext target next ref).next) =
      Function.update (fun ref => (items ref).next) target next := by
  funext ref
  by_cases same : ref = target
  · subst ref
    simp [Items.setNext]
  · simp [Items.setNext, Function.update_of_ne same]

@[simp] theorem Items.setP_next (items : Items Ref Value) (target ref : Ref) (p : Option Value) :
    (items.setP target p ref).next = (items ref).next := by
  by_cases same : ref = target
  · subst ref
    simp [Items.setP]
  · simp [Items.setP, Function.update_of_ne same]

theorem Items.setP_p (items : Items Ref Value) (target ref : Ref) (p : Option Value) :
    (items.setP target p ref).p = if ref = target then p else (items ref).p := by
  by_cases same : ref = target
  · subst ref
    simp [Items.setP]
  · simp [Items.setP, same]

/-- `queue_push`; undefined where the code would follow a null `tail`. -/
def queuePush (items : Items Ref Value) (q : QueueSt Ref) (item : Ref) :
    Option (Items Ref Value × QueueSt Ref) :=
  let items := items.setNext item none
  match q.head with
  | none => some (items, ⟨some item, some item⟩)
  | some _ =>
      match q.tail with
      | none => none
      | some tail => some (items.setNext tail (some item), { q with tail := some item })

end Operations

/-- `queue_pop`: the popped item and the queue left behind. -/
def queuePop (items : Items Ref Value) (q : QueueSt Ref) : Option Ref × QueueSt Ref :=
  match q.head with
  | none => (none, q)
  | some rv =>
      match (items rv).next with
      | some next => (some rv, { q with head := some next })
      | none => (some rv, ⟨none, none⟩)

def queuePeek (q : QueueSt Ref) : Option Ref :=
  q.head

/-! ### Reading a queue as a list -/

/-- The `next` fields lead from the head through `refs` to null, and the tail
is the last of them. -/
structure Queued (items : Items Ref Value) (q : QueueSt Ref) (refs : List Ref) : Prop where
  chain : Chain (fun ref => (items ref).next) q.head refs
  tail : q.tail = refs.getLast?

namespace Queued

variable {items other : Items Ref Value} {q : QueueSt Ref} {refs : List Ref} {item : Ref}

theorem init (items : Items Ref Value) : Queued items queueInit [] :=
  ⟨rfl, rfl⟩

/-- Frame rule: a queue depends on the links of its own items only. -/
theorem congr (queued : Queued items q refs)
    (same : ∀ ref ∈ refs, (other ref).next = (items ref).next) : Queued other q refs :=
  ⟨queued.chain.congr same, queued.tail⟩

theorem peek (queued : Queued items q refs) : queuePeek q = refs.head? := by
  cases refs with
  | nil => exact queued.chain
  | cons first rest => exact queued.chain.1

/-- Popping takes the first item. -/
theorem pop (queued : Queued items q refs) :
    (queuePop items q).1 = refs.head? ∧ Queued items (queuePop items q).2 refs.tail := by
  cases refs with
  | nil =>
      have empty : q.head = none := queued.chain
      simp only [queuePop, empty]
      exact ⟨rfl, queued⟩
  | cons first rest =>
      have headIs : q.head = some first := queued.chain.1
      have below : Chain (fun ref => (items ref).next) (items first).next rest := queued.chain.2
      cases rest with
      | nil =>
          have ends : (items first).next = none := below
          simp only [queuePop, headIs, ends]
          exact ⟨rfl, rfl, rfl⟩
      | cons second rest =>
          have follows : (items first).next = some second := below.1
          simp only [queuePop, headIs, follows]
          exact ⟨rfl, ⟨rfl, below.2⟩, by rw [queued.tail]; simp⟩

variable [DecidableEq Ref]

omit [DecidableEq Ref] in
private theorem head_eq_none_iff (queued : Queued items q refs) : q.head = none ↔ refs = [] := by
  have first := queued.peek
  rw [queuePeek] at first
  rw [first, List.head?_eq_none_iff]

/-- Pushing an item that is not in the queue appends it; other items and all
values are untouched. -/
theorem push (queued : Queued items q refs) (fresh : item ∉ refs) :
    ∃ items' q', queuePush items q item = some (items', q') ∧ Queued items' q' (refs ++ [item]) ∧
      (∀ ref, ref ∉ refs → ref ≠ item → items' ref = items ref) ∧
      ∀ ref, (items' ref).p = (items ref).p := by
  rcases List.eq_nil_or_concat refs with empty | ⟨before, last, split⟩
  · subst refs
    have headNone : q.head = none := queued.chain
    refine ⟨items.setNext item none, ⟨some item, some item⟩, ?_, ⟨?_, rfl⟩, ?_, ?_⟩
    · simp [queuePush, headNone]
    · simp [Items.setNext_next]
    · intro ref _ different
      exact Function.update_of_ne different _ _
    · simp
  · rw [List.concat_eq_append] at split
    subst refs
    have headSome : q.head ≠ none := by
      intro headNone
      simpa using queued.head_eq_none_iff.mp headNone
    have tailIs : q.tail = some last := by
      rw [queued.tail]
      simp
    obtain ⟨first, headIs⟩ := Option.ne_none_iff_exists'.mp headSome
    refine ⟨(items.setNext item none).setNext last (some item), { q with tail := some item },
      ?_, ⟨?_, by simp⟩, ?_, ?_⟩
    · simp [queuePush, headIs, tailIs]
    · simp only [Items.setNext_next]
      have cleared : Chain (Function.update (fun ref => (items ref).next) item none) q.head
          (before ++ [last]) := queued.chain.update_of_notMem fresh
      simpa using cleared.link_last fresh (by rw [Function.update_self])
    · intro ref outside different
      have notLast : ref ≠ last := by
        intro same
        subst ref
        simp at outside
      rw [Items.setNext, Function.update_of_ne notLast, Items.setNext,
        Function.update_of_ne different]
    · simp

end Queued

end FbBroker.Queue
