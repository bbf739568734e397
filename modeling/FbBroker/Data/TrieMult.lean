import Mathlib.Logic.Function.Basic
import FbBroker.Data.Dllist
import FbBroker.Lib.Command
import FbBroker.Lib.Wildcard

/-!
Contract: the trie with a node list per path of `trie_mult.c`.

Owns the trie, insertion, deletion with pruning, and the wildcard search with
its callbacks, as the code performs them over the node heap of `list.c`.

A trie pointer is modelled by the subtree it points to, null by `Trie.nil`.
The search keeps pointers into a trie that its own callbacks may prune, so it
names the node it stands on by the path from the head and looks that path up
again at every access: a path that has disappeared is a dangling pointer.
-/

set_option autoImplicit false

namespace FbBroker.TrieMult

open FbBroker.Lib FbBroker.Dllist

variable {Ref : Type}

/-- `trie_mult_node_st *`: null, or a node with one child pointer per byte and
the head of its list. -/
inductive Trie (Ref : Type) where
  | nil
  | node (children : Byte → Trie Ref) (list : Option Ref)

namespace Trie

def isNil : Trie Ref → Bool
  | .nil => true
  | .node _ _ => false

/-- The subtree a path leads to. -/
def sub : Trie Ref → List Byte → Trie Ref
  | trie, [] => trie
  | .nil, _ :: _ => .nil
  | .node children _, byte :: path => (children byte).sub path

/-- The list head stored in a node. -/
def list : Trie Ref → Option Ref
  | .nil => none
  | .node _ list => list

/-- The list head stored under a path. -/
def listAt (trie : Trie Ref) (path : List Byte) : Option Ref :=
  (trie.sub path).list

end Trie

def newTrieMultNode : Trie Ref :=
  .node (fun _ => .nil) none

/-- Free a node whose list is empty; the flag tells whether it was freed. -/
def freeTrieNode (children : Byte → Trie Ref) (list : Option Ref) : Trie Ref × Bool :=
  match list with
  | none => (.nil, true)
  | some _ => (.node children list, false)

def haveChildren (children : Byte → Trie Ref) : Bool :=
  (List.range 256).any fun i => !(children (UInt8.ofNat i)).isNil

/-- A null pointer is replaced by a new node before it is followed. -/
def orNew : Trie Ref → Trie Ref
  | .nil => newTrieMultNode
  | trie => trie

section Update

variable [DecidableEq Ref]

/-- The loop of `trie_m_insert`, standing on a node that is not null. -/
def trieMInsertLoop (bound : Nat) (heap : Heap Ref) (p : Ref) :
    List Byte → Trie Ref → Option (Heap Ref × Trie Ref)
  | _, .nil => some (heap, .nil)
  | [], .node children list =>
      (dllistInsertTailUnique bound heap list p).map fun (heap, list) =>
        (heap, .node children list)
  | byte :: s, .node children list =>
      (trieMInsertLoop bound heap p s (orNew (children byte))).map fun (heap, child) =>
        (heap, .node (Function.update children byte child) list)

def trieMInsert (bound : Nat) (heap : Heap Ref) (head : Trie Ref) (s : List Byte) (p : Ref) :
    Option (Heap Ref × Trie Ref) :=
  trieMInsertLoop bound heap p s (orNew head)

def deleteR (heap : Heap Ref) (lp : Ref) : Trie Ref → List Byte → Heap Ref × Trie Ref × Bool
  | .nil, _ => (heap, .nil, false)
  | .node children list, byte :: s =>
      match children byte with
      | .nil => (heap, .node children list, false)
      | child =>
          let (heap, child, freed) := deleteR heap lp child s
          let children := Function.update children byte child
          if freed then
            if haveChildren children then (heap, .node children list, false)
            else (heap, freeTrieNode children list)
          else (heap, .node children list, false)
  | .node children list, [] =>
      let (heap, list) := dllistRemoveRef heap list lp
      if haveChildren children then (heap, .node children list, false)
      else (heap, freeTrieNode children list)

def trieMDelete (heap : Heap Ref) (head : Trie Ref) (s : List Byte) (lp : Ref) :
    Heap Ref × Trie Ref :=
  let (heap, head, _) := deleteR heap lp head s
  (heap, head)

end Update

/-! ### Search -/

/-- What a search reads of the program state: the trie it was started on and
the list nodes, absent once their memory is freed. -/
structure View (State Ref : Type) where
  head : State → Trie Ref
  node : State → Ref → Option (Node Ref)

section Search

variable {State : Type} (view : View State Ref) (fp : Ref → Cmd Fault State Unit)

/-- Dereference a list node. -/
def readNode (ref : Ref) : Cmd Fault State (Node Ref) := do
  match view.node (← get) ref with
  | some node => pure node
  | none => Cmd.fail .useAfterFree

/-- Read the pointer `curr->children[byte]` of the node at a path. -/
def readChild (curr : List Byte) (byte : Byte) : Cmd Fault State (Trie Ref) := do
  match (view.head (← get)).sub curr with
  | .node children _ => pure (children byte)
  | .nil => Cmd.fail .useAfterFree

/-- Read `curr->list` of the node at a path. -/
def readList (curr : List Byte) : Cmd Fault State (Option Ref) := do
  match (view.head (← get)).sub curr with
  | .node _ list => pure list
  | .nil => Cmd.fail .useAfterFree

/-- `fp(p->p, vp)`: the callbacks dereference the item they are given. -/
def callBack : Option Ref → Cmd Fault State Unit
  | some item => fp item
  | none => Cmd.fail .nullPointer

/-- `found_list`: call back on every node, reading `next` after the call. -/
def foundList : Nat → Option Ref → Nat → Cmd Fault State Nat
  | _, none, foundCount => pure foundCount
  | 0, some _, _ => Cmd.fail .unbounded
  | bound + 1, some p, foundCount => do
      callBack fp (← readNode view p).p
      foundList bound (← readNode view p).next (foundCount + 1)

/-- The filters that end here with `#`. -/
def searchMany (bound : Nat) (curr : List Byte) (foundCount : Nat) : Cmd Fault State Nat := do
  match ← readChild view curr hash with
  | .nil => pure foundCount
  | .node _ list => foundList view fp bound list foundCount

/-- The filters with `+` here: skip one level of the topic, and search on behind
the `/` if there is one. -/
def searchOne (bound : Nat) (curr s : List Byte)
    (search : List Byte → List Byte → Nat → Cmd Fault State Nat) (foundCount : Nat) :
    Cmd Fault State Nat := do
  match ← readChild view curr plus with
  | .nil => pure foundCount
  | .node children list =>
      match s.dropWhile (· != slash) with
      | [] => foundList view fp bound list foundCount
      | _ :: tail =>
          match children slash with
          | .nil => pure foundCount
          | .node _ _ => search (curr ++ [plus, slash]) tail foundCount

/-- The wildcards, looked at where a level of the topic starts. -/
def searchWild (bound : Nat) (boundary : Bool) (curr s : List Byte)
    (search : List Byte → List Byte → Nat → Cmd Fault State Nat) (foundCount : Nat) :
    Cmd Fault State Nat :=
  if boundary then do
    let foundCount ← searchMany view fp bound curr foundCount
    searchOne view fp bound curr s search foundCount
  else pure foundCount

/-- Follow the next byte of the topic. -/
def searchLiteral (curr : List Byte) (byte : Byte) (s : List Byte)
    (search : List Byte → List Byte → Nat → Cmd Fault State Nat) (foundCount : Nat) :
    Cmd Fault State Nat := do
  match ← readChild view curr byte with
  | .nil => pure foundCount
  | .node _ _ => search (curr ++ [byte]) s foundCount

/-- `search_r_mqtt` from the node at path `curr`; `boundary` is the test
`last_c == '\0' || last_c == '/'`. Every round and every recursive call consumes
at least one byte of the topic, so its length bounds the rounds. -/
def searchRMqtt (bound : Nat) : Nat → Bool → List Byte → List Byte → Nat → Cmd Fault State Nat
  | 0, _, _, _, _ => Cmd.fail .unbounded
  | _ + 1, _, curr, [], foundCount => do
      foundList view fp bound (← readList view curr) foundCount
  | rounds + 1, boundary, curr, byte :: s, foundCount => do
      let foundCount ←
        searchWild view fp bound boundary curr (byte :: s) (searchRMqtt bound rounds true) foundCount
      searchLiteral view curr byte s (searchRMqtt bound rounds (byte == slash)) foundCount

/-- `trie_m_search_mqtt`: a topic that starts with `$` is not looked up from
the head, so that no wildcard in the first position applies to it. -/
def trieMSearchMqtt (bound : Nat) (s : List Byte) : Cmd Fault State Nat := do
  match view.head (← get) with
  | .nil => pure 0
  | .node children _ =>
      match s with
      | [] => searchRMqtt view fp bound 1 true [] [] 0
      | byte :: rest =>
          if byte = dollar then
            match children dollar with
            | .nil => pure 0
            | .node _ _ => searchRMqtt view fp bound (rest.length + 1) true [dollar] rest 0
          else searchRMqtt view fp bound (rest.length + 2) true [] (byte :: rest) 0

end Search

/-! ### Callbacks under a contract -/

section Conduct

variable {State : Type} {view : View State Ref} {fp : Ref → Cmd Fault State Unit}
  {contract : Contract Fault State} {bound : Nat}

/-- The contract admits the faults a search stops with by itself. -/
def SearchFaults (contract : Contract Fault State) : Prop :=
  ∀ state, contract.fault .useAfterFree state ∧ contract.fault .nullPointer state ∧
    contract.fault .unbounded state

private theorem readNode_keeps (faults : SearchFaults contract) (ref : Ref) :
    contract.Keeps (fun _ => True) (readNode view ref) := by
  intro state _
  refine .get_bind ?_
  cases view.node state ref with
  | some node => exact .pure trivial
  | none => exact .fail (faults state).1

private theorem readChild_keeps (faults : SearchFaults contract) (curr : List Byte) (byte : Byte) :
    contract.Keeps (fun _ => True) (readChild view curr byte) := by
  intro state _
  refine .get_bind ?_
  cases (view.head state).sub curr with
  | node children list => exact .pure trivial
  | nil => exact .fail (faults state).1

private theorem readList_keeps (faults : SearchFaults contract) (curr : List Byte) :
    contract.Keeps (fun _ => True) (readList view curr) := by
  intro state _
  refine .get_bind ?_
  cases (view.head state).sub curr with
  | node children list => exact .pure trivial
  | nil => exact .fail (faults state).1

private theorem callBack_keeps (faults : SearchFaults contract)
    (calls : ∀ ref, contract.Keeps (fun _ => True) (fp ref)) (item : Option Ref) :
    contract.Keeps (fun _ => True) (callBack fp item) := by
  cases item with
  | some item => exact calls item
  | none => exact fun state _ => .fail (faults state).2.1

private theorem foundList_keeps (faults : SearchFaults contract)
    (calls : ∀ ref, contract.Keeps (fun _ => True) (fp ref)) (list : Option Ref) (foundCount : Nat) :
    contract.Keeps (fun _ => True) (foundList view fp bound list foundCount) := by
  induction bound generalizing list foundCount with
  | zero =>
      intro state _
      cases list with
      | none => exact .pure trivial
      | some p => exact .fail (faults state).2.2
  | succ bound inductionHypothesis =>
      cases list with
      | none => exact fun state _ => .pure trivial
      | some p =>
          exact .bind (readNode_keeps faults p) fun node _ =>
            .bind (callBack_keeps faults calls node.p) fun _ _ =>
              .bind (readNode_keeps faults p) fun node _ => inductionHypothesis _ _

private theorem searchMany_keeps (faults : SearchFaults contract)
    (calls : ∀ ref, contract.Keeps (fun _ => True) (fp ref)) (curr : List Byte) (foundCount : Nat) :
    contract.Keeps (fun _ => True) (searchMany view fp bound curr foundCount) := by
  refine .bind (readChild_keeps faults curr hash) fun child _ => ?_
  cases child with
  | nil => exact fun state _ => .pure trivial
  | node children list => exact foundList_keeps faults calls list foundCount

private theorem searchOne_keeps (faults : SearchFaults contract)
    (calls : ∀ ref, contract.Keeps (fun _ => True) (fp ref)) (curr s : List Byte)
    {search : List Byte → List Byte → Nat → Cmd Fault State Nat}
    (searches : ∀ curr s foundCount, contract.Keeps (fun _ => True) (search curr s foundCount))
    (foundCount : Nat) :
    contract.Keeps (fun _ => True) (searchOne view fp bound curr s search foundCount) := by
  refine .bind (readChild_keeps faults curr plus) fun child _ => ?_
  cases child with
  | nil => exact fun state _ => .pure trivial
  | node children list =>
      dsimp only
      split
      · exact foundList_keeps faults calls list foundCount
      · split
        · exact fun state _ => .pure trivial
        · exact searches _ _ _

private theorem searchRMqtt_keeps (faults : SearchFaults contract)
    (calls : ∀ ref, contract.Keeps (fun _ => True) (fp ref)) (rounds : Nat) (boundary : Bool)
    (curr s : List Byte) (foundCount : Nat) :
    contract.Keeps (fun _ => True) (searchRMqtt view fp bound rounds boundary curr s foundCount) := by
  induction rounds generalizing boundary curr s foundCount with
  | zero => exact fun state _ => .fail (faults state).2.2
  | succ rounds inductionHypothesis =>
      cases s with
      | nil => exact .bind (readList_keeps faults curr) fun list _ => foundList_keeps faults calls _ _
      | cons byte s =>
          have wild : contract.Keeps (fun _ => True) (searchWild view fp bound boundary curr (byte :: s)
              (searchRMqtt view fp bound rounds true) foundCount) := by
            unfold searchWild
            split
            · exact .bind (searchMany_keeps faults calls curr foundCount) fun foundCount _ =>
                searchOne_keeps faults calls curr _ (fun _ _ _ => inductionHypothesis _ _ _ _) foundCount
            · exact fun state _ => .pure trivial
          refine .bind wild fun foundCount _ => .bind (readChild_keeps faults curr byte) fun child _ => ?_
          cases child with
          | nil => exact fun state _ => .pure trivial
          | node children list => exact inductionHypothesis _ _ _ _

/-- A search keeps a contract that its callbacks keep. -/
theorem trieMSearchMqtt_keeps (faults : SearchFaults contract)
    (calls : ∀ ref, contract.Keeps (fun _ => True) (fp ref)) (s : List Byte) :
    contract.Keeps (fun _ => True) (trieMSearchMqtt view fp bound s) := by
  intro state before
  refine .get_bind ?_
  cases view.head state with
  | nil => exact .pure trivial
  | node children list =>
      cases s with
      | nil => exact searchRMqtt_keeps faults calls _ _ _ _ _ state before
      | cons byte rest =>
          dsimp only
          split
          · split
            · exact .pure trivial
            · exact searchRMqtt_keeps faults calls _ _ _ _ _ state before
          · exact searchRMqtt_keeps faults calls _ _ _ _ _ state before

end Conduct

/-! ### Lists under paths -/

namespace Trie

@[simp] theorem sub_nil (path : List Byte) : (nil : Trie Ref).sub path = nil := by
  cases path <;> rfl

@[simp] theorem sub_here (trie : Trie Ref) : trie.sub [] = trie := by
  cases trie <;> rfl

theorem sub_append (trie : Trie Ref) (left right : List Byte) :
    trie.sub (left ++ right) = (trie.sub left).sub right := by
  induction left generalizing trie with
  | nil => simp
  | cons byte left inductionHypothesis =>
      cases trie with
      | nil => simp
      | node children list => exact inductionHypothesis (children byte)

@[simp] theorem listAt_nil (path : List Byte) : (nil : Trie Ref).listAt path = none := by
  simp [listAt, list]

@[simp] theorem listAt_node_nil (children : Byte → Trie Ref) (list : Option Ref) :
    (node children list).listAt [] = list := rfl

@[simp] theorem listAt_node_cons (children : Byte → Trie Ref) (list : Option Ref) (byte : Byte)
    (path : List Byte) : (node children list).listAt (byte :: path) = (children byte).listAt path :=
  rfl

/-- No list hangs below a missing node. -/
theorem listAt_eq_none_of_sub {trie : Trie Ref} {path : List Byte} (missing : trie.sub path = nil)
    (rest : List Byte) : trie.listAt (path ++ rest) = none := by
  rw [listAt, sub_append, missing, sub_nil]
  rfl

private theorem listAt_update {children : Byte → Trie Ref} {byte : Byte} {child : Trie Ref}
    {list : Option Ref} (path : List Byte) :
    (node (Function.update children byte child) list).listAt path =
      match path with
      | [] => list
      | first :: rest => if first = byte then child.listAt rest else (children first).listAt rest := by
  cases path with
  | nil => rfl
  | cons first rest =>
      by_cases same : first = byte
      · subst first
        simp
      · simp [same]

end Trie

private theorem listAt_orNew (trie : Trie Ref) (path : List Byte) :
    (orNew trie).listAt path = trie.listAt path := by
  cases trie with
  | nil => cases path <;> simp [orNew, newTrieMultNode]
  | node children list => rfl

private theorem orNew_node (trie : Trie Ref) : ∃ children list, orNew trie = .node children list := by
  cases trie with
  | nil => exact ⟨_, _, rfl⟩
  | node children list => exact ⟨children, list, rfl⟩

theorem children_eq_nil {children : Byte → Trie Ref} (childless : haveChildren children = false)
    (byte : Byte) : children byte = .nil := by
  have absent := List.any_eq_false.mp childless byte.toNat
    (List.mem_range.mpr (UInt8.toNat_lt byte))
  rw [UInt8.ofNat_toNat] at absent
  cases found : children byte with
  | nil => rfl
  | node _ _ => simp [found, Trie.isNil] at absent

private theorem listAt_freeTrieNode {children : Byte → Trie Ref}
    (childless : haveChildren children = false) (list : Option Ref) (path : List Byte) :
    (freeTrieNode children list).1.listAt path = (Trie.node children list).listAt path := by
  cases list with
  | some ref => rfl
  | none => cases path <;> simp [freeTrieNode, children_eq_nil childless]

/-- A child that differs under one path makes a trie that does. -/
theorem listAt_update_child {children : Byte → Trie Ref} {byte : Byte} {child : Trie Ref} {s : List Byte}
    {list : Option Ref}
    (lists : ∀ path, child.listAt path = if path = s then list else (children byte).listAt path)
    (own : Option Ref) (path : List Byte) :
    (Trie.node (Function.update children byte child) own).listAt path =
      if path = byte :: s then list else (Trie.node children own).listAt path := by
  rw [Trie.listAt_update]
  cases path with
  | nil => simp
  | cons first rest =>
      by_cases same : first = byte
      · subst first
        simp [lists rest]
      · simp [same]

section Update

variable [DecidableEq Ref]

/-- Insertion changes the list under the path and no other. -/
theorem trieMInsert_spec {bound : Nat} {heap heap' : Heap Ref} {trie : Trie Ref} {s : List Byte}
    {p : Ref} {list : Option Ref}
    (inserted : dllistInsertTailUnique bound heap (trie.listAt s) p = some (heap', list)) :
    ∃ trie', trieMInsert bound heap trie s p = some (heap', trie') ∧
      ∀ path, trie'.listAt path = if path = s then list else trie.listAt path := by
  induction s generalizing trie with
  | nil =>
      obtain ⟨children, old, new⟩ := orNew_node trie
      simp only [trieMInsert, ← listAt_orNew trie, new] at inserted ⊢
      refine ⟨.node children list, by simp_all [trieMInsertLoop], fun path => ?_⟩
      cases path <;> simp
  | cons byte s inductionHypothesis =>
      obtain ⟨children, old, new⟩ := orNew_node trie
      simp only [trieMInsert, ← listAt_orNew trie, new] at inserted ⊢
      rw [Trie.listAt_node_cons] at inserted
      obtain ⟨child, loop, lists⟩ := inductionHypothesis inserted
      refine ⟨.node (Function.update children byte child) old, ?_, listAt_update_child lists old⟩
      rw [trieMInsert] at loop
      simp [trieMInsertLoop, loop]

/-- Deletion from an existing node changes its list and no other; pruning only
removes nodes without lists. -/
theorem deleteR_spec {heap : Heap Ref} {lp : Ref} {trie : Trie Ref} {s : List Byte}
    (present : trie.sub s ≠ .nil) :
    (deleteR heap lp trie s).1 = (dllistRemoveRef heap (trie.listAt s) lp).1 ∧
      ∀ path, (deleteR heap lp trie s).2.1.listAt path =
        if path = s then (dllistRemoveRef heap (trie.listAt s) lp).2 else trie.listAt path := by
  induction s generalizing trie with
  | nil =>
      cases trie with
      | nil => simp at present
      | node children list =>
          have lists : ∀ path, (Trie.node children (dllistRemoveRef heap list lp).2).listAt path =
              if path = [] then (dllistRemoveRef heap list lp).2
              else (Trie.node children list).listAt path := by
            intro path
            cases path <;> simp
          simp only [deleteR, Trie.listAt_node_nil]
          split
          · exact ⟨rfl, lists⟩
          · rename_i childless
            refine ⟨rfl, fun path => ?_⟩
            rw [listAt_freeTrieNode (by simpa using childless)]
            exact lists path
  | cons byte s inductionHypothesis =>
      cases trie with
      | nil => simp at present
      | node children list =>
          have childPresent : (children byte).sub s ≠ .nil := present
          have childNode : children byte ≠ .nil := by
            intro missing
            rw [missing] at childPresent
            simp at childPresent
          obtain ⟨heaps, lists⟩ := inductionHypothesis childPresent
          have updated : ∀ path,
              (Trie.node (Function.update children byte (deleteR heap lp (children byte) s).2.1)
                list).listAt path =
              if path = byte :: s then (dllistRemoveRef heap ((children byte).listAt s) lp).2
              else (Trie.node children list).listAt path :=
            listAt_update_child lists list
          simp only [deleteR, Trie.listAt_node_cons]
          split
          · split
            · exact ⟨heaps, updated⟩
            · rename_i childless
              refine ⟨heaps, fun path => ?_⟩
              rw [listAt_freeTrieNode (by simpa using childless)]
              exact updated path
          · exact ⟨heaps, updated⟩

end Update

end FbBroker.TrieMult
