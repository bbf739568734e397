import Mathlib.Data.List.Chain
import FbBroker.Core.Bytes
import FbBroker.Lib.Chain

/-!
Contract: the intrusive doubly linked lists of `list.c`.

Owns the node heap, the list operations as the code performs them, the
representation predicate that survives them, and the refinement of each
operation to prepending, appending-if-absent and deleting on the sequence of
node references.

The plain doubly linked invariant is false here: `dllist_remove_ref` of a head
leaves a stale `prev` in the new head, and removed nodes keep their links. The
predicate `DList` therefore asks for a correct `prev` in every node but the
head, and for nothing outside the list.
-/

set_option autoImplicit false

namespace FbBroker.Dllist

open FbBroker.Lib

variable {Ref : Type} {bound : Nat}

/-- `struct dllist_node`. -/
structure Node (Ref : Type) where
  p : Option Ref
  prev : Option Ref
  next : Option Ref
deriving DecidableEq, Repr

/-- The memory of all nodes. -/
abbrev Heap (Ref : Type) := Ref → Node Ref

variable [DecidableEq Ref]

namespace Heap

def setNext (heap : Heap Ref) (ref : Ref) (next : Option Ref) : Heap Ref :=
  Function.update heap ref { heap ref with next := next }

def setPrev (heap : Heap Ref) (ref : Ref) (prev : Option Ref) : Heap Ref :=
  Function.update heap ref { heap ref with prev := prev }

def setP (heap : Heap Ref) (ref : Ref) (p : Option Ref) : Heap Ref :=
  Function.update heap ref { heap ref with p := p }

variable (heap : Heap Ref) (ref : Ref)

theorem setNext_next (next : Option Ref) :
    (fun node => (heap.setNext ref next node).next) =
      Function.update (fun node => (heap node).next) ref next := by
  funext node
  by_cases same : node = ref
  · subst node
    simp [setNext]
  · simp [setNext, Function.update_of_ne same]

@[simp] theorem setNext_self (next : Option Ref) :
    (heap.setNext ref next ref).next = next := by
  simp [setNext]

@[simp] theorem setNext_prev (next : Option Ref) (node : Ref) :
    (heap.setNext ref next node).prev = (heap node).prev := by
  by_cases same : node = ref
  · subst node
    simp [setNext]
  · simp [setNext, Function.update_of_ne same]

@[simp] theorem setPrev_next (prev : Option Ref) (node : Ref) :
    (heap.setPrev ref prev node).next = (heap node).next := by
  by_cases same : node = ref
  · subst node
    simp [setPrev]
  · simp [setPrev, Function.update_of_ne same]

@[simp] theorem setPrev_self (prev : Option Ref) :
    (heap.setPrev ref prev ref).prev = prev := by
  simp [setPrev]

@[simp] theorem setNext_p (next : Option Ref) (node : Ref) :
    (heap.setNext ref next node).p = (heap node).p := by
  by_cases same : node = ref
  · subst node
    simp [setNext]
  · simp [setNext, Function.update_of_ne same]

@[simp] theorem setPrev_p (prev : Option Ref) (node : Ref) :
    (heap.setPrev ref prev node).p = (heap node).p := by
  by_cases same : node = ref
  · subst node
    simp [setPrev]
  · simp [setPrev, Function.update_of_ne same]

variable {ref} {node : Ref}

private theorem setNext_of_ne (next : Option Ref) (different : node ≠ ref) :
    heap.setNext ref next node = heap node :=
  Function.update_of_ne different _ _

private theorem setPrev_of_ne (prev : Option Ref) (different : node ≠ ref) :
    heap.setPrev ref prev node = heap node :=
  Function.update_of_ne different _ _

theorem setP_of_ne (p : Option Ref) (different : node ≠ ref) :
    heap.setP ref p node = heap node :=
  Function.update_of_ne different _ _

@[simp] theorem setP_self (p : Option Ref) : (heap.setP ref p ref).p = p := by
  simp [setP]

@[simp] theorem setP_next (p : Option Ref) (node : Ref) :
    (heap.setP ref p node).next = (heap node).next := by
  by_cases same : node = ref
  · subst node
    simp [setP]
  · simp [setP, Function.update_of_ne same]

@[simp] theorem setP_prev (p : Option Ref) (node : Ref) :
    (heap.setP ref p node).prev = (heap node).prev := by
  by_cases same : node = ref
  · subst node
    simp [setP]
  · simp [setP, Function.update_of_ne same]

end Heap

/-! ### The operations of `list.c` -/

/-- The loop of `dllist_count`, with at most `bound` rounds. -/
def dllistCountLoop : Nat → Heap Ref → Option Ref → Nat → Option Nat
  | _, _, none, count => some count
  | 0, _, some _, _ => none
  | bound + 1, heap, some lp, count => dllistCountLoop bound heap (heap lp).next (count + 1)

def dllistCount (bound : Nat) (heap : Heap Ref) (head : Option Ref) : Option Nat :=
  dllistCountLoop bound heap head 0

def dllistInsertHead (heap : Heap Ref) (head : Option Ref) (item : Ref) :
    Heap Ref × Option Ref :=
  let heap := heap.setPrev item none
  let heap := match head with
    | some first => heap.setPrev first (some item)
    | none => heap
  let heap := heap.setNext item head
  (heap, some item)

/-- The `while (1)` loop of `dllist_insert_tail_unique`, with at most `bound`
rounds. -/
def insertTailLoop : Nat → Heap Ref → Ref → Ref → Option (Heap Ref)
  | 0, _, _, _ => none
  | bound + 1, heap, p, item =>
      if p = item then some heap
      else
        match (heap p).next with
        | none =>
            let heap := heap.setNext item none
            let heap := heap.setPrev item (some p)
            some (heap.setNext p (some item))
        | some following => insertTailLoop bound heap following item

def dllistInsertTailUnique (bound : Nat) (heap : Heap Ref) (head : Option Ref) (item : Ref) :
    Option (Heap Ref × Option Ref) :=
  match head with
  | none =>
      let heap := heap.setPrev item none
      let heap := heap.setNext item none
      some (heap, some item)
  | some first => (insertTailLoop bound heap first item).map fun heap => (heap, some first)

def dllistRemoveRef (heap : Heap Ref) (head : Option Ref) (p : Ref) :
    Heap Ref × Option Ref :=
  match head with
  | none => (heap, none)
  | some first =>
      if first = p then (heap, (heap p).next)
      else
        let heap := match (heap p).prev with
          | some before => heap.setNext before (heap p).next
          | none => heap
        let heap := match (heap p).next with
          | some after => heap.setPrev after (heap p).prev
          | none => heap
        (heap, some first)

/-! ### Representation -/

/-- `head` is a list holding `refs` in order: the `next` fields lead through
`refs` to null, and every node but the first points back to its predecessor. -/
structure DList (heap : Heap Ref) (head : Option Ref) (refs : List Ref) : Prop where
  chain : Chain (fun ref => (heap ref).next) head refs
  prevs : refs.IsChain fun left right => (heap right).prev = some left

namespace DList

variable {heap other : Heap Ref} {head : Option Ref} {refs : List Ref} {item : Ref}

omit [DecidableEq Ref] in
theorem empty (heap : Heap Ref) : DList heap none [] :=
  ⟨rfl, List.isChain_nil⟩

omit [DecidableEq Ref] in
theorem nodup (list : DList heap head refs) : refs.Nodup :=
  list.chain.nodup

omit [DecidableEq Ref] in
/-- Frame rule: a list depends on the links of its own nodes only. -/
theorem congr (list : DList heap head refs)
    (same : ∀ ref ∈ refs, (other ref).next = (heap ref).next ∧ (other ref).prev = (heap ref).prev) :
    DList other head refs := by
  refine ⟨list.chain.congr fun ref member => (same ref member).1, ?_⟩
  refine list.prevs.imp_of_mem_imp fun left right _ rightMember linked => ?_
  rw [(same right rightMember).2]
  exact linked

omit [DecidableEq Ref] in
theorem head_eq (list : DList heap head refs) : head = refs.head? :=
  list.chain.head_eq

/-! ### `dllist_insert_head` -/

theorem insertHead (list : DList heap head refs) (fresh : item ∉ refs) :
    DList (dllistInsertHead heap head item).1 (dllistInsertHead heap head item).2
      (item :: refs) := by
  cases refs with
  | nil =>
      obtain rfl : head = none := list.chain
      exact ⟨by simp [dllistInsertHead], List.isChain_singleton _⟩
  | cons first rest =>
      obtain rfl : head = some first := list.chain.1
      have firstNe : first ≠ item := by
        rintro rfl
        exact fresh (by simp)
      refine ⟨?_, ?_⟩
      · simp only [dllistInsertHead, Heap.setNext_next, Heap.setPrev_next]
        refine ⟨rfl, ?_⟩
        rw [Function.update_self]
        exact list.chain.update_of_notMem fresh
      · simp only [dllistInsertHead, Heap.setNext_prev]
        refine List.isChain_cons_cons.mpr ⟨Heap.setPrev_self _ _ _, ?_⟩
        refine list.prevs.imp_of_mem_tail_imp fun left right _ rightMember linked => ?_
        -- the old head is never the right node of a pair, the new item is in none
        have notFirst : right ≠ first := by
          rintro rfl
          exact (List.nodup_cons.mp list.nodup).1 rightMember
        have notItem : right ≠ item := by
          rintro rfl
          exact fresh (List.mem_cons_of_mem _ rightMember)
        rw [Heap.setPrev_of_ne _ _ notFirst, Heap.setPrev_of_ne _ _ notItem]
        exact linked

/-- Only the new item and the old first node are written, and no `p` field. -/
theorem insertHead_frame (list : DList heap head refs) {ref : Ref} (outside : ref ∉ item :: refs) :
    (dllistInsertHead heap head item).1 ref = heap ref := by
  rw [List.mem_cons, not_or] at outside
  cases refs with
  | nil =>
      obtain rfl : head = none := list.chain
      simp [dllistInsertHead, Heap.setNext_of_ne, Heap.setPrev_of_ne, outside.1]
  | cons first rest =>
      obtain rfl : head = some first := list.chain.1
      have notFirst : ref ≠ first := by
        rintro rfl
        exact outside.2 (by simp)
      simp [dllistInsertHead, Heap.setNext_of_ne, Heap.setPrev_of_ne, outside.1, notFirst]

theorem insertHead_p (heap : Heap Ref) (head : Option Ref) (item ref : Ref) :
    ((dllistInsertHead heap head item).1 ref).p = (heap ref).p := by
  cases head <;> simp [dllistInsertHead]

/-! ### `dllist_insert_tail_unique` -/

private theorem insertTailLoop_of_mem {p : Ref} {rest : List Ref}
    (chain : Chain (fun ref => (heap ref).next) (some p) (p :: rest))
    (member : item ∈ p :: rest) (enough : rest.length < bound) :
    insertTailLoop bound heap p item = some heap := by
  induction rest generalizing p bound with
  | nil =>
      obtain ⟨bound, rfl⟩ := Nat.exists_eq_succ_of_ne_zero (by omega : bound ≠ 0)
      have same : p = item := by simpa [eq_comm] using member
      simp [insertTailLoop, same]
  | cons following rest inductionHypothesis =>
      obtain ⟨bound, rfl⟩ := Nat.exists_eq_succ_of_ne_zero (by omega : bound ≠ 0)
      by_cases same : p = item
      · simp [insertTailLoop, same]
      · have link : (heap p).next = some following := chain.2.1
        have later : item ∈ following :: rest := by
          rcases List.mem_cons.mp member with here | later
          · exact absurd here.symm same
          · exact later
        simp only [insertTailLoop, same, if_false, link]
        exact inductionHypothesis ⟨rfl, chain.2.2⟩ later (by simpa using enough)

private theorem insertTailLoop_of_notMem {p : Ref} {rest : List Ref}
    (chain : Chain (fun ref => (heap ref).next) (some p) (p :: rest))
    (fresh : item ∉ p :: rest) (enough : rest.length < bound) :
    ∃ before last, p :: rest = before ++ [last] ∧
      insertTailLoop bound heap p item =
        some (((heap.setNext item none).setPrev item (some last)).setNext last (some item)) := by
  induction rest generalizing p bound with
  | nil =>
      obtain ⟨bound, rfl⟩ := Nat.exists_eq_succ_of_ne_zero (by omega : bound ≠ 0)
      have different : p ≠ item := by
        rintro rfl
        simp at fresh
      have ends : (heap p).next = none := chain.2
      exact ⟨[], p, rfl, by simp [insertTailLoop, different, ends]⟩
  | cons following rest inductionHypothesis =>
      obtain ⟨bound, rfl⟩ := Nat.exists_eq_succ_of_ne_zero (by omega : bound ≠ 0)
      have different : p ≠ item := by
        rintro rfl
        simp at fresh
      have link : (heap p).next = some following := chain.2.1
      have room : rest.length < bound := by simpa using enough
      obtain ⟨before, last, split, result⟩ := inductionHypothesis
        ⟨rfl, chain.2.2⟩ (fun member => fresh (List.mem_cons_of_mem _ member)) room
      refine ⟨p :: before, last, by rw [split]; rfl, ?_⟩
      simp only [insertTailLoop, different, if_false, link, result]

/-- A node that is already linked stays where it is. -/
theorem insertTailUnique_of_mem (list : DList heap head refs)
    (member : item ∈ refs) (enough : refs.length ≤ bound) :
    dllistInsertTailUnique bound heap head item = some (heap, head) := by
  cases refs with
  | nil => simp at member
  | cons first rest =>
      obtain rfl : head = some first := list.chain.1
      have loop : insertTailLoop bound heap first item = some heap :=
        insertTailLoop_of_mem list.chain member enough
      simp [dllistInsertTailUnique, loop]

/-- A fresh node is appended; the links of nodes outside the list and the
`p` fields of all nodes are untouched. -/
theorem insertTailUnique_of_notMem (list : DList heap head refs)
    (fresh : item ∉ refs) (enough : refs.length ≤ bound) :
    ∃ heap' head', dllistInsertTailUnique bound heap head item = some (heap', head') ∧
      DList heap' head' (refs ++ [item]) ∧
      (∀ ref, ref ∉ refs → ref ≠ item → heap' ref = heap ref) ∧
      ∀ ref, (heap' ref).p = (heap ref).p := by
  cases refs with
  | nil =>
      obtain rfl : head = none := list.chain
      refine ⟨(heap.setPrev item none).setNext item none, some item, rfl, ?_, ?_, by simp⟩
      · exact ⟨by simp [Heap.setNext_next], List.isChain_singleton _⟩
      · intro ref _ notItem
        rw [Heap.setNext_of_ne _ _ notItem, Heap.setPrev_of_ne _ _ notItem]
  | cons first rest =>
      obtain rfl : head = some first := list.chain.1
      have room : rest.length < bound := enough
      obtain ⟨before, last, split, loop⟩ := insertTailLoop_of_notMem list.chain fresh room
      refine ⟨((heap.setNext item none).setPrev item (some last)).setNext last (some item),
        some first, by simp [dllistInsertTailUnique, loop], ⟨?_, ?_⟩, ?_, by simp⟩
      · rw [split] at list fresh ⊢
        simp only [Heap.setNext_next, Heap.setPrev_next]
        have cleared : Chain (Function.update (fun ref => (heap ref).next) item none) (some first)
            (before ++ [last]) := list.chain.update_of_notMem fresh
        simpa using cleared.link_last fresh (by rw [Function.update_self])
      · rw [split] at list fresh ⊢
        simp only [Heap.setNext_prev]
        refine list.prevs.imp_of_mem_imp (fun left right _ rightMember linked => ?_) |>.append
          (List.isChain_singleton _) ?_
        · have notItem : right ≠ item := by
            rintro rfl
            exact fresh rightMember
          rw [Heap.setPrev_of_ne _ _ notItem, Heap.setNext_prev]
          exact linked
        · simp
      · intro ref outside notItem
        have notLast : ref ≠ last := by
          rintro rfl
          exact outside (by rw [split]; simp)
        rw [Heap.setNext_of_ne _ _ notLast, Heap.setPrev_of_ne _ _ notItem,
          Heap.setNext_of_ne _ _ notItem]

/-! ### `dllist_remove_ref` -/

private theorem removeRef_head {rest : List Ref} (list : DList heap head (item :: rest)) :
    dllistRemoveRef heap head item = (heap, (heap item).next) ∧
      DList heap (heap item).next rest := by
  obtain rfl : head = some item := list.chain.1
  refine ⟨by simp [dllistRemoveRef], list.chain.2, list.prevs.tail⟩

private theorem removeRef_inner {before : List Ref} {left : Ref} {after : List Ref}
    (list : DList heap head (before ++ left :: item :: after)) :
    DList (dllistRemoveRef heap head item).1 (dllistRemoveRef heap head item).2
        (before ++ left :: after) ∧
      (∀ ref, ref ∉ before ++ left :: item :: after →
        (dllistRemoveRef heap head item).1 ref = heap ref) ∧
      ∀ ref, ((dllistRemoveRef heap head item).1 ref).p = (heap ref).p := by
  have distinct := list.nodup
  have tailChain := list.chain.suffix_of_append
  have back : (heap item).prev = some left := by
    have pair := list.prevs.right_of_append
    exact (List.isChain_cons_cons.mp pair).1
  have itemNe : item ≠ left := by
    rintro rfl
    simp [List.nodup_append, List.nodup_cons] at distinct
  obtain ⟨first, headIs, firstNe⟩ : ∃ first, head = some first ∧ first ≠ item := by
    cases before with
    | nil => exact ⟨left, list.chain.1, itemNe.symm⟩
    | cons first rest =>
        refine ⟨first, list.chain.1, ?_⟩
        rintro rfl
        simp [List.nodup_cons] at distinct
  subst headIs
  have bypassed : Chain (fun ref => ((heap.setNext left (heap item).next) ref).next)
      (some first) (before ++ left :: after) := by
    rw [Heap.setNext_next]
    exact list.chain.bypass
  cases after with
  | nil =>
      have ends : (heap item).next = none := tailChain.2.2
      have result : dllistRemoveRef heap (some first) item =
          (heap.setNext left none, some first) := by
        simp [dllistRemoveRef, firstNe, back, ends, Heap.setNext_of_ne _ _ itemNe]
      rw [result]
      rw [ends] at bypassed
      refine ⟨⟨bypassed, ?_⟩, ?_, by simp⟩
      · simp only [Heap.setNext_prev]
        have kept := list.prevs
        rw [show before ++ [left, item] = (before ++ [left]) ++ [item] by simp] at kept
        exact kept.left_of_append
      · intro ref outside
        refine Heap.setNext_of_ne _ _ ?_
        rintro rfl
        exact outside (by simp)
  | cons following rest =>
      have link : (heap item).next = some following := tailChain.2.2.1
      have result : dllistRemoveRef heap (some first) item =
          ((heap.setNext left (some following)).setPrev following (some left), some first) := by
        simp [dllistRemoveRef, firstNe, back, link, Heap.setNext_of_ne _ _ itemNe]
      rw [result]
      rw [link] at bypassed
      have followingNotBefore : following ∉ before ++ [left] := by
        rw [show before ++ left :: item :: following :: rest =
          (before ++ [left]) ++ (item :: following :: rest) by simp] at distinct
        intro member
        exact (List.nodup_append.mp distinct).2.2 following member following (by simp) rfl
      have followingNotRest : following ∉ rest := by
        have suffix := (List.nodup_append.mp distinct).2.1
        simp only [List.nodup_cons] at suffix
        exact suffix.2.2.1
      have kept : ∀ nodes : List Ref, following ∉ nodes.tail →
          nodes.IsChain (fun left right => (heap right).prev = some left) →
          nodes.IsChain (fun a b => (((heap.setNext left (some following)).setPrev following
            (some left)) b).prev = some a) := by
        intro nodes absent chain
        refine chain.imp_of_mem_tail_imp fun a b _ bMember linked => ?_
        have different : b ≠ following := by
          rintro rfl
          exact absent bMember
        rw [Heap.setPrev_of_ne _ _ different, Heap.setNext_prev]
        exact linked
      refine ⟨⟨by simpa using bypassed, ?_⟩, ?_, by simp⟩
      · have front := list.prevs
        rw [show before ++ left :: item :: following :: rest =
          (before ++ [left]) ++ (item :: following :: rest) by simp] at front
        have backward := (List.isChain_cons_cons.mp front.right_of_append).2
        rw [show before ++ left :: following :: rest =
          (before ++ [left]) ++ (following :: rest) by simp]
        refine (kept _ (fun member => followingNotBefore (List.mem_of_mem_tail member))
          front.left_of_append).append (kept _ followingNotRest backward) ?_
        simp
      · intro ref outside
        have notLeft : ref ≠ left := by
          rintro rfl
          exact outside (by simp)
        have notFollowing : ref ≠ following := by
          rintro rfl
          exact outside (by simp)
        show (heap.setNext left (some following)).setPrev following (some left) ref = heap ref
        rw [Heap.setPrev_of_ne _ _ notFollowing, Heap.setNext_of_ne _ _ notLeft]

/-- Removing a linked node deletes it from the sequence; nodes outside the
list and the `p` fields of all nodes are untouched. -/
theorem removeRef (list : DList heap head refs) (member : item ∈ refs) :
    DList (dllistRemoveRef heap head item).1 (dllistRemoveRef heap head item).2
        (refs.erase item) ∧
      (∀ ref, ref ∉ refs → (dllistRemoveRef heap head item).1 ref = heap ref) ∧
      ∀ ref, ((dllistRemoveRef heap head item).1 ref).p = (heap ref).p := by
  obtain ⟨before, after, rfl⟩ := List.append_of_mem member
  have distinct := list.nodup
  rcases List.eq_nil_or_concat before with rfl | ⟨front, left, rfl⟩
  · obtain ⟨result, rest⟩ := removeRef_head list
    rw [result]
    simpa using rest
  · rw [List.concat_eq_append] at list distinct ⊢
    have notFront : item ∉ front ++ [left] := by
      intro inFront
      exact (List.nodup_append.mp distinct).2.2 item inFront item (by simp) rfl
    rw [List.erase_append_right _ notFront, List.erase_cons_head]
    simp only [List.append_assoc, List.singleton_append] at list ⊢
    exact removeRef_inner list

/-- The removed node still leads to its old successor. -/
theorem removeRef_next (list : DList heap head refs) (member : item ∈ refs) :
    ((dllistRemoveRef heap head item).1 item).next = (heap item).next := by
  cases headIs : head with
  | none => rfl
  | some first =>
      unfold dllistRemoveRef
      dsimp only
      split
      · rfl
      · rename_i firstNe
        -- its predecessor is another node
        have notSelf : ∀ before, (heap item).prev = some before → item ≠ before := by
          intro before back same
          obtain ⟨front, after, rfl⟩ := List.append_of_mem member
          rcases List.eq_nil_or_concat front with rfl | ⟨front, left, rfl⟩
          · have isFirst : head = some item := list.chain.1
            exact firstNe (Option.some.inj (headIs.symm.trans isFirst))
          · have pair := list.prevs
            rw [List.concat_eq_append, List.append_assoc, List.singleton_append] at pair
            have linked := (List.isChain_cons_cons.mp pair.right_of_append).1
            obtain rfl : before = left := Option.some.inj (back.symm.trans linked)
            have distinct := list.nodup
            subst same
            simp [List.nodup_append] at distinct
        cases back : (heap item).prev with
        | none =>
            simp only
            split <;> simp
        | some before =>
            simp only
            split <;> simp [Heap.setNext_of_ne _ _ (notSelf before back)]

/-! ### `dllist_count` -/

omit [DecidableEq Ref] in
private theorem countLoop_eq {bound count : Nat}
    (chain : Chain (fun ref => (heap ref).next) head refs) (enough : refs.length ≤ bound) :
    dllistCountLoop bound heap head count = some (count + refs.length) := by
  induction refs generalizing head bound count with
  | nil =>
      obtain rfl : head = none := chain
      simp [dllistCountLoop]
  | cons first rest inductionHypothesis =>
      obtain ⟨bound, rfl⟩ := Nat.exists_eq_succ_of_ne_zero
        (by simp at enough; omega : bound ≠ 0)
      obtain ⟨rfl, tail⟩ := chain
      simp only [dllistCountLoop]
      rw [inductionHypothesis tail (by simpa using enough)]
      simp
      omega

omit [DecidableEq Ref] in
private theorem count_eq (list : DList heap head refs) (enough : refs.length ≤ bound) :
    dllistCount bound heap head = some refs.length := by
  rw [dllistCount, countLoop_eq list.chain enough, Nat.zero_add]

end DList

/-! ### Several lists over one heap -/

/-- Each head leads to its list, and no node is in two lists. -/
structure DLists {Index : Type} (heap : Heap Ref) (head : Index → Option Ref)
    (refs : Index → List Ref) : Prop where
  lists : ∀ i, DList heap (head i) (refs i)
  apart : ∀ {ref i j}, ref ∈ refs i → ref ∈ refs j → i = j

namespace DLists

variable {Index : Type} [DecidableEq Index] {heap heap' : Heap Ref} {head : Index → Option Ref}
  {refs : Index → List Ref} {i : Index} {item : Ref}

omit [DecidableEq Ref] in
/-- Rewriting one list keeps the others when the heap changed inside that list
only. -/
theorem replace (all : DLists heap head refs) {first : Option Ref} {list : List Ref}
    (listed : DList heap' first list)
    (frame : ∀ ref j, ref ∈ refs j → j ≠ i → heap' ref = heap ref)
    (new : ∀ ref ∈ list, ref ∈ refs i ∨ ∀ j, ref ∉ refs j) :
    DLists heap' (Function.update head i first) (Function.update refs i list) where
  lists j := by
    by_cases same : j = i
    · subst j
      simpa using listed
    · rw [Function.update_of_ne same, Function.update_of_ne same]
      exact (all.lists j).congr fun ref member => by simp [frame ref j member same]
  apart := by
    -- a node of the rewritten list is in no other list, before and after
    have outside : ∀ {ref j}, ref ∈ list → j ≠ i → ref ∉ refs j := by
      intro ref j member different elsewhere
      rcases new ref member with old | fresh
      · exact different (all.apart elsewhere old)
      · exact fresh j elsewhere
    intro ref left right leftMember rightMember
    by_cases leftSame : left = i <;> by_cases rightSame : right = i
    · rw [leftSame, rightSame]
    · subst left
      rw [Function.update_self] at leftMember
      rw [Function.update_of_ne rightSame] at rightMember
      exact absurd rightMember (outside leftMember rightSame)
    · subst right
      rw [Function.update_self] at rightMember
      rw [Function.update_of_ne leftSame] at leftMember
      exact absurd leftMember (outside rightMember leftSame)
    · rw [Function.update_of_ne leftSame] at leftMember
      rw [Function.update_of_ne rightSame] at rightMember
      exact all.apart leftMember rightMember

theorem insertHead (all : DLists heap head refs) (i : Index) (fresh : ∀ j, item ∉ refs j) :
    DLists (dllistInsertHead heap (head i) item).1
      (Function.update head i (dllistInsertHead heap (head i) item).2)
      (Function.update refs i (item :: refs i)) := by
  refine all.replace ((all.lists i).insertHead (fresh i)) ?_ ?_
  · intro ref j member different
    apply (all.lists i).insertHead_frame
    rw [List.mem_cons, not_or]
    constructor
    · intro same
      exact fresh j (same ▸ member)
    · intro here
      exact different (all.apart member here)
  · intro ref member
    rcases List.mem_cons.mp member with same | old
    · exact .inr (same ▸ fresh)
    · exact .inl old

theorem removeRef (all : DLists heap head refs) (member : item ∈ refs i) :
    DLists (dllistRemoveRef heap (head i) item).1
      (Function.update head i (dllistRemoveRef heap (head i) item).2)
      (Function.update refs i ((refs i).erase item)) := by
  obtain ⟨listed, frame, -⟩ := (all.lists i).removeRef member
  refine all.replace listed ?_ fun ref kept => .inl (List.mem_of_mem_erase kept)
  intro ref j elsewhere different
  exact frame ref fun here => different (all.apart elsewhere here)

private theorem insertTailUnique (all : DLists heap head refs)
    (admitted : (∀ j, item ∉ refs j) ∨ item ∈ refs i) (enough : (refs i).length ≤ bound) :
    ∃ heap' first, dllistInsertTailUnique bound heap (head i) item = some (heap', first) ∧
      DLists heap' (Function.update head i first)
        (Function.update refs i (if item ∈ refs i then refs i else refs i ++ [item])) := by
  by_cases member : item ∈ refs i
  · refine ⟨heap, head i, (all.lists i).insertTailUnique_of_mem member enough, ?_⟩
    rw [if_pos member, Function.update_eq_self, Function.update_eq_self]
    exact all
  · have fresh : ∀ j, item ∉ refs j := admitted.resolve_right member
    obtain ⟨heap', first, inserted, listed, frame, -⟩ :=
      (all.lists i).insertTailUnique_of_notMem member enough
    refine ⟨heap', first, inserted, ?_⟩
    rw [if_neg member]
    apply all.replace listed
    · intro ref j elsewhere different
      apply frame
      · intro here
        exact different (all.apart elsewhere here)
      · intro same
        exact fresh j (same ▸ elsewhere)
    · intro ref kept
      rcases List.mem_append.mp kept with old | new
      · exact .inl old
      · exact .inr (List.mem_singleton.mp new ▸ fresh)

end DLists

/-! ### Histories -/

/-- A call of a list operation, on the list with this index. -/
inductive ListOp (Index Ref : Type) where
  | insertHead (i : Index) (item : Ref)
  | insertTailUnique (i : Index) (item : Ref)
  | removeRef (i : Index) (item : Ref)

/-- A heap of nodes and the head pointers of the lists over it. -/
structure Heads (Index Ref : Type) where
  heap : Heap Ref
  head : Index → Option Ref

section Histories

variable {Index : Type} [DecidableEq Index]

/-- What the code does; the walk of `dllist_insert_tail_unique` has at most `bound`
rounds. -/
def Heads.apply (bound : Nat) (heads : Heads Index Ref) : ListOp Index Ref → Option (Heads Index Ref)
  | .insertHead i item =>
      let (heap, first) := dllistInsertHead heads.heap (heads.head i) item
      some ⟨heap, Function.update heads.head i first⟩
  | .insertTailUnique i item =>
      (dllistInsertTailUnique bound heads.heap (heads.head i) item).map fun (heap, first) =>
        ⟨heap, Function.update heads.head i first⟩
  | .removeRef i item =>
      let (heap, first) := dllistRemoveRef heads.heap (heads.head i) item
      some ⟨heap, Function.update heads.head i first⟩

/-- What it means for the sequences of the lists: prepending, appending if absent,
deleting. -/
def ListOp.effect (refs : Index → List Ref) : ListOp Index Ref → Index → List Ref
  | .insertHead i item => Function.update refs i (item :: refs i)
  | .insertTailUnique i item =>
      Function.update refs i (if item ∈ refs i then refs i else refs i ++ [item])
  | .removeRef i item => Function.update refs i ((refs i).erase item)

omit [DecidableEq Ref] [DecidableEq Index] in
/-- What the callers see to: a new node is in no list, the node for a tail insertion in no
other list, a removed node in its list. -/
def ListOp.Allowed (refs : Index → List Ref) : ListOp Index Ref → Prop
  | .insertHead _ item => ∀ j, item ∉ refs j
  | .insertTailUnique i item => (∀ j, item ∉ refs j) ∨ item ∈ refs i
  | .removeRef i item => item ∈ refs i

/-- The sequences behind a history of allowed calls. -/
inductive History : (Index → List Ref) → List (ListOp Index Ref) → (Index → List Ref) → Prop
  | nil (refs : Index → List Ref) : History refs [] refs
  | cons {refs final : Index → List Ref} {op : ListOp Index Ref} {ops : List (ListOp Index Ref)}
      (allowed : op.Allowed refs) (later : History (op.effect refs) ops final) :
      History refs (op :: ops) final

/-- A call makes a list longer by one node at most. -/
theorem ListOp.effect_length_le (refs : Index → List Ref) (op : ListOp Index Ref) (j : Index) :
    (op.effect refs j).length ≤ (refs j).length + 1 := by
  cases op with
  | insertHead i item =>
      by_cases same : j = i
      · subst j
        simp [ListOp.effect]
      · simp [ListOp.effect, same]
  | insertTailUnique i item =>
      by_cases same : j = i
      · subst j
        rw [ListOp.effect, Function.update_self]
        split <;> simp
      · simp [ListOp.effect, same]
  | removeRef i item =>
      by_cases same : j = i
      · subst j
        rw [ListOp.effect, Function.update_self]
        exact (List.erase_sublist.length_le).trans (Nat.le_succ _)
      · simp [ListOp.effect, same]

/-- One allowed call takes the lists from their sequences to the next ones. -/
theorem DLists.apply {heads : Heads Index Ref} {refs : Index → List Ref} {op : ListOp Index Ref}
    (all : DLists heads.heap heads.head refs) (allowed : op.Allowed refs)
    (enough : ∀ j, (refs j).length ≤ bound) :
    ∃ next, heads.apply bound op = some next ∧ DLists next.heap next.head (op.effect refs) := by
  cases op with
  | insertHead i item => exact ⟨_, rfl, all.insertHead i allowed⟩
  | insertTailUnique i item =>
      obtain ⟨heap, first, inserted, next⟩ := all.insertTailUnique allowed (enough i)
      refine ⟨⟨heap, Function.update heads.head i first⟩, ?_, next⟩
      rw [Heads.apply, inserted]
      rfl
  | removeRef i item => exact ⟨_, rfl, all.removeRef allowed⟩

/-- A whole history takes the lists from their first sequences to the last ones. -/
theorem DLists.history {heads : Heads Index Ref} {refs final : Index → List Ref}
    {ops : List (ListOp Index Ref)} {bound size : Nat} (all : DLists heads.heap heads.head refs)
    (history : History refs ops final) (short : ∀ j, (refs j).length ≤ size)
    (enough : size + ops.length ≤ bound) :
    ∃ last, ops.foldlM (Heads.apply bound) heads = some last ∧ DLists last.heap last.head final ∧
      ∀ j, (final j).length ≤ size + ops.length := by
  induction history generalizing heads size with
  | nil refs => exact ⟨heads, rfl, all, short⟩
  | @cons refs final op ops allowed later inductionHypothesis =>
      rw [List.length_cons] at enough
      have room : ∀ j, (refs j).length ≤ bound := fun j => (short j).trans (by omega)
      obtain ⟨next, applied, nextAll⟩ := all.apply allowed room
      have grown : ∀ j, (op.effect refs j).length ≤ size + 1 := by
        intro j
        exact (op.effect_length_le refs j).trans (Nat.add_le_add_right (short j) 1)
      obtain ⟨last, ran, lastAll, lengths⟩ := @inductionHypothesis next (size + 1) nextAll grown (by omega)
      refine ⟨last, ?_, lastAll, fun j => (lengths j).trans (by rw [List.length_cons]; omega)⟩
      rw [List.foldlM_cons, applied]
      exact ran

/-- Behind any history of calls on any number of empty lists, over nodes with whatever
links, each list walked from its head is its sequence, and `dllist_count` its length. -/
theorem lists_walk_sequences {ops : List (ListOp Index Ref)} {refs : Index → List Ref} (heap : Heap Ref)
    (history : History (fun _ => []) ops refs) {bound : Nat} (enough : ops.length ≤ bound) :
    ∃ last, ops.foldlM (Heads.apply bound) ⟨heap, fun _ => none⟩ = some last ∧
      ∀ i, Chain (fun ref => (last.heap ref).next) (last.head i) (refs i) ∧
        dllistCount bound last.heap (last.head i) = some (refs i).length := by
  have empty : DLists heap (fun _ : Index => none) fun _ => [] :=
    ⟨fun _ => DList.empty heap, fun member => absurd member List.not_mem_nil⟩
  obtain ⟨last, ran, all, lengths⟩ : ∃ last, ops.foldlM (Heads.apply bound) ⟨heap, fun _ => none⟩ = _ ∧ _ :=
    empty.history history (fun _ => Nat.le_refl 0) (by rwa [Nat.zero_add])
  refine ⟨last, ran, fun i => ⟨(all.lists i).chain, (all.lists i).count_eq ?_⟩⟩
  exact (lengths i).trans (by rwa [Nat.zero_add])

/-- A head is removed, put at the tail of another list and removed from between two nodes;
its links and the `prev` of the new head are stale in between. -/
theorem lists_walk_sequences_moved :
    ∃ last : Heads Bool Nat,
      [ListOp.insertHead false 1, .insertHead false 0, .removeRef false 0, .insertTailUnique true 2,
        .insertTailUnique true 0, .insertTailUnique true 3, .insertTailUnique true 0,
        .removeRef true 0].foldlM (Heads.apply 8) ⟨fun _ => ⟨none, none, none⟩, fun _ => none⟩ = some last ∧
      Chain (fun ref => (last.heap ref).next) (last.head false) [1] ∧
      Chain (fun ref => (last.heap ref).next) (last.head true) [2, 3] := by
  obtain ⟨refs, history, one, two⟩ : ∃ refs, History (fun _ : Bool => ([] : List Nat))
      [ListOp.insertHead false 1, .insertHead false 0, .removeRef false 0, .insertTailUnique true 2,
        .insertTailUnique true 0, .insertTailUnique true 3, .insertTailUnique true 0, .removeRef true 0]
      refs ∧ refs false = [1] ∧ refs true = [2, 3] := by
    refine ⟨_, .cons ?_ (.cons ?_ (.cons ?_ (.cons ?_ (.cons ?_ (.cons ?_ (.cons ?_ (.cons ?_ (.nil _)))))))),
      by decide, by decide⟩ <;> simp [ListOp.Allowed, ListOp.effect]
  obtain ⟨last, ran, walks⟩ := lists_walk_sequences (fun _ => ⟨none, none, none⟩) history (Nat.le_refl 8)
  refine ⟨last, ran, ?_, ?_⟩
  · rw [← one]
    exact (walks false).1
  · rw [← two]
    exact (walks true).1

end Histories

end FbBroker.Dllist
