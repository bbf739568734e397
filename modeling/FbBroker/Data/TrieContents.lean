import FbBroker.Data.TrieMult

/-!
Contract: what a trie holds, and what its operations do to that.

`Contents` reads a trie and its node heap as a map from paths to lists of
nodes. Insertion appends to one list of that map and deletion erases from one;
the wildcard search calls back on the map's wildcard hits in order, as long as
the callbacks leave the trie and its nodes alone.
-/

set_option autoImplicit false

namespace FbBroker.TrieMult

open FbBroker.Lib FbBroker.Dllist

variable {Ref : Type} {path : List Byte} {Item : Type} {curr : List Byte}

/-- Under every path hangs a well-formed list of its entries, and no node is in
two lists. -/
structure Contents (heap : Heap Ref) (trie : Trie Ref) (entries : List Byte → List Ref) :
    Prop where
  lists : ∀ path, DList heap (trie.listAt path) (entries path)
  apart : ∀ {ref left right}, ref ∈ entries left → ref ∈ entries right → left = right

namespace Contents

variable {heap heap' : Heap Ref} {trie trie' : Trie Ref} {entries : List Byte → List Ref}
  {s : List Byte} {p : Ref}

theorem empty (heap : Heap Ref) : Contents heap .nil fun _ => [] where
  lists path := by
    rw [Trie.listAt_nil]
    exact DList.empty heap
  apart member := by simp at member

/-- Rewriting the list under one path keeps the others when the heap changed
inside that list only. -/
theorem replace (contents : Contents heap trie entries) {list : Option Ref} {refs : List Ref}
    (listed : DList heap' list refs)
    (here : ∀ path, trie'.listAt path = if path = s then list else trie.listAt path)
    (frame : ∀ ref path, ref ∈ entries path → path ≠ s → heap' ref = heap ref)
    (new : ∀ ref ∈ refs, ref ∈ entries s ∨ ∀ path, ref ∉ entries path) :
    Contents heap' trie' (Function.update entries s refs) := by
  have all : DLists heap trie.listAt entries := ⟨contents.lists, contents.apart⟩
  have heads : trie'.listAt = Function.update trie.listAt s list := by
    funext path
    rw [here path, Function.update_apply]
  have replaced := all.replace listed frame new
  rw [← heads] at replaced
  exact ⟨replaced.lists, replaced.apart⟩

variable [DecidableEq Ref]

theorem insert {bound : Nat} (contents : Contents heap trie entries)
    (fresh : ∀ path, p ∉ entries path) (enough : (entries s).length ≤ bound) :
    ∃ heap' trie', trieMInsert bound heap trie s p = some (heap', trie') ∧
      Contents heap' trie' (Function.update entries s (entries s ++ [p])) ∧
      ∀ ref, (heap' ref).p = (heap ref).p := by
  obtain ⟨heap', list, inserted, listed, frame, pKept⟩ :=
    (contents.lists s).insertTailUnique_of_notMem (fresh s) enough
  obtain ⟨trie', result, here⟩ := trieMInsert_spec inserted
  refine ⟨heap', trie', result, contents.replace listed here ?_ ?_, pKept⟩
  · intro ref path member different
    refine frame ref (fun elsewhere => different (contents.apart member elsewhere)) ?_
    rintro rfl
    exact fresh path member
  · intro ref member
    rcases List.mem_append.mp member with old | new
    · exact .inl old
    · obtain rfl : ref = p := by simpa using new
      exact .inr fresh

theorem delete (contents : Contents heap trie entries) (member : p ∈ entries s) :
    Contents (trieMDelete heap trie s p).1 (trieMDelete heap trie s p).2
        (Function.update entries s ((entries s).erase p)) ∧
      (∀ ref, ref ∉ entries s → (trieMDelete heap trie s p).1 ref = heap ref) ∧
      ∀ ref, ((trieMDelete heap trie s p).1 ref).p = (heap ref).p := by
  have present : trie.sub s ≠ .nil := by
    intro missing
    have noList : trie.listAt s = none := by
      simpa using Trie.listAt_eq_none_of_sub missing []
    have noEntries := (contents.lists s).head_eq
    rw [noList, eq_comm, List.head?_eq_none_iff] at noEntries
    simp [noEntries] at member
  obtain ⟨heaps, here⟩ : _ ∧ ∀ path, (deleteR heap p trie s).2.1.listAt path = _ :=
    deleteR_spec present
  obtain ⟨listed, frame, pKept⟩ := (contents.lists s).removeRef member
  rw [← heaps] at listed frame pKept
  refine ⟨contents.replace listed here ?_ fun ref kept => .inl (List.mem_of_mem_erase kept), frame, pKept⟩
  intro ref path elsewhere different
  exact frame ref fun here => different (contents.apart elsewhere here)

end Contents

/-! ### Search -/

/-- The wildcard bytes of topic filters. -/
def topicMarks : Wildcard.Marks Byte where
  sep := slash
  one := plus
  many := hash
  sep_ne_one := by decide
  sep_ne_many := by decide
  one_ne_many := by decide

/-- What a search for a topic reports: a topic that starts with `$` is not
subject to wildcards in the first position. -/
def topicHits {Item : Type} (entries : List Byte → List Item) : List Byte → List Item
  | [] => Wildcard.hits topicMarks entries true []
  | byte :: rest =>
      if byte = dollar then
        Wildcard.hits topicMarks (fun path => entries (dollar :: path)) true rest
      else Wildcard.hits topicMarks entries true (byte :: rest)

theorem topicHits_of_plain (entries : List Byte → List Item) {topic : List Byte}
    (plain : topic.head? ≠ some dollar) :
    topicHits entries topic = Wildcard.hits topicMarks entries true topic := by
  cases topic with
  | nil => rfl
  | cons byte rest =>
      have different : byte ≠ dollar := by simpa using plain
      simp [topicHits, different]

/-- Without some of the items the others are reported in the same order. -/
theorem topicHits_filter (keep : Item → Bool) (entries : List Byte → List Item) (topic : List Byte) :
    topicHits (fun path => (entries path).filter keep) topic = (topicHits entries topic).filter keep := by
  cases topic with
  | nil => exact Wildcard.hits_filter keep entries true []
  | cons byte rest =>
      rw [topicHits, topicHits]
      split
      · exact Wildcard.hits_filter keep (fun path => entries (dollar :: path)) true rest
      · exact Wildcard.hits_filter keep entries true (byte :: rest)

private theorem topicHits_empty (topic : List Byte) :
    topicHits (fun _ => ([] : List Item)) topic = [] := by
  cases topic with
  | nil => exact Wildcard.hits_empty true []
  | cons byte rest => simp [topicHits, Wildcard.hits_empty]

@[simp] theorem topicMarks_sep : topicMarks.sep = slash := rfl

@[simp] theorem topicMarks_one : topicMarks.one = plus := rfl

@[simp] theorem topicMarks_many : topicMarks.many = hash := rfl

theorem mem_topicHits {entries : List Byte → List Item} {item : Item} {topic : List Byte} :
    item ∈ topicHits entries topic ↔
      if topic.head? = some dollar then
        ∃ filter, item ∈ entries (dollar :: filter) ∧
          Wildcard.Matches topicMarks filter topic.tail = true
      else ∃ filter, item ∈ entries filter ∧ Wildcard.Matches topicMarks filter topic = true := by
  cases topic with
  | nil => simp [topicHits, Wildcard.mem_hits]
  | cons byte rest =>
      by_cases special : byte = dollar
      · simp [topicHits, special, Wildcard.mem_hits]
      · simp [topicHits, special, Wildcard.mem_hits]

/-- The hits are among the entries. -/
theorem mem_entries_of_topicHits {entries : List Byte → List Item} {item : Item}
    {topic : List Byte} (member : item ∈ topicHits entries topic) : ∃ path, item ∈ entries path := by
  rw [mem_topicHits] at member
  split at member
  · obtain ⟨filter, here, -⟩ := member
    exact ⟨dollar :: filter, here⟩
  · obtain ⟨filter, here, -⟩ := member
    exact ⟨filter, here⟩

section Search

variable {State : Type}

/-- A search from any count calls back on `refs` in order, from every state of `Inv`. As
long as the calls return and keep `Inv` it goes on; where one does not, it stops. -/
def Reports (fp : Ref → Cmd Fault State Unit) (Inv : State → Prop)
    (search : Nat → Cmd Fault State Nat) (refs : List Ref) : Prop :=
  ∀ count state, Inv state →
    (Cmd.Passes fp Inv refs state ∧ ∃ final, (Cmd.each fp refs).run state = (.ok (), final) ∧
      Inv final ∧ (search count).run state = (.ok (count + refs.length), final)) ∨
    (¬ Cmd.Passes fp Inv refs state ∧ ∃ fault final, (search count).run state = (.error fault, final))

namespace Reports

variable {fp : Ref → Cmd Fault State Unit} {Inv : State → Prop}

theorem pure : Reports fp Inv pure [] :=
  fun _ state invariant => .inl ⟨trivial, state, rfl, invariant, rfl⟩

theorem bind {first second : Nat → Cmd Fault State Nat} {left right : List Ref}
    (firstReports : Reports fp Inv first left) (secondReports : Reports fp Inv second right) :
    Reports fp Inv (fun count => first count >>= second) (left ++ right) := by
  intro count state invariant
  rcases firstReports count state invariant with
    ⟨leftPasses, middle, leftCalls, middleInvariant, leftRun⟩ | ⟨breaks, fault, final, stops⟩
  · rcases secondReports (count + left.length) middle middleInvariant with
      ⟨rightPasses, final, rightCalls, finalInvariant, rightRun⟩ | ⟨breaks, fault, final, stops⟩
    · refine .inl ⟨(Cmd.passes_append leftPasses leftCalls).mpr rightPasses, final,
        Cmd.each_append_ok leftCalls rightCalls, finalInvariant, (Cmd.bind_ok leftRun).trans ?_⟩
      rw [rightRun, List.length_append, Nat.add_assoc]
    · refine .inr ⟨fun passes => breaks ?_, fault, final, (Cmd.bind_ok leftRun).trans stops⟩
      exact (Cmd.passes_append leftPasses leftCalls).mp passes
  · exact .inr ⟨fun passes => breaks passes.left, fault, final, Cmd.bind_error stops⟩

/-- A statement that only reads fixes the search that follows. -/
theorem read {Value : Type} {reads : Cmd Fault State Value} {value : Value}
    {rest : Value → Nat → Cmd Fault State Nat} {refs : List Ref}
    (returns : ∀ state, Inv state → reads.run state = (.ok value, state))
    (restReports : Reports fp Inv (rest value) refs) :
    Reports fp Inv (fun count => reads >>= fun value => rest value count) refs := by
  intro count state invariant
  dsimp only
  rw [Cmd.bind_ok (returns state invariant)]
  exact restReports count state invariant

end Reports

/-- A call behind which the search cannot go on: it stopped, or the node it was made for
is gone. -/
def Breaks (view : View State Ref) (fp : Ref → Cmd Fault State Unit) (ref : Ref) (state : State) : Prop :=
  match (fp ref).run state with
  | (.ok _, next) => view.node next ref = none
  | (.error _, _) => True

/-- The callback keeps an invariant under which the trie, the nodes it holds
and their `p` fields are as in `heap` and `trie`, or it breaks the search. -/
structure Visits (view : View State Ref) (fp : Ref → Cmd Fault State Unit) (heap : Heap Ref)
    (trie : Trie Ref) (entries : List Byte → List Ref) (Inv : State → Prop) : Prop where
  head : ∀ {state}, Inv state → view.head state = trie
  node : ∀ {state path ref}, Inv state → ref ∈ entries path → view.node state ref = some (heap ref)
  self : ∀ {path ref}, ref ∈ entries path → (heap ref).p = some ref
  call : ∀ {state path ref}, Inv state → ref ∈ entries path →
    (∃ next, (fp ref).run state = (.ok (), next) ∧ Inv next) ∨ Breaks view fp ref state

namespace Visits

variable {view : View State Ref} {fp : Ref → Cmd Fault State Unit} {heap : Heap Ref}
  {trie : Trie Ref} {entries : List Byte → List Ref} {Inv : State → Prop} {bound : Nat}

theorem readNode (visits : Visits view fp heap trie entries Inv) {ref : Ref}
    (member : ref ∈ entries path) {state : State} (invariant : Inv state) :
    (readNode view ref).run state = (.ok (heap ref), state) := by
  simp [TrieMult.readNode, visits.node invariant member]

theorem readChild (visits : Visits view fp heap trie entries Inv)
    {children : Byte → Trie Ref} {list : Option Ref} (here : trie.sub curr = .node children list)
    (byte : Byte) (state : State) (invariant : Inv state) :
    (readChild view curr byte).run state = (.ok (children byte), state) := by
  simp [TrieMult.readChild, visits.head invariant, here]

theorem readList (visits : Visits view fp heap trie entries Inv)
    {children : Byte → Trie Ref} {list : Option Ref} (here : trie.sub curr = .node children list)
    (state : State) (invariant : Inv state) :
    (readList view curr).run state = (.ok list, state) := by
  simp [TrieMult.readList, visits.head invariant, here]

/-- A call that breaks the search does not keep the invariant. -/
theorem breaks_passes (visits : Visits view fp heap trie entries Inv) {ref : Ref}
    {refs : List Ref} (member : ref ∈ entries path) {state : State} (breaks : Breaks view fp ref state) :
    ¬ Cmd.Passes fp Inv (ref :: refs) state := by
  intro passes
  obtain ⟨next, returns, kept, -⟩ := passes
  simp [Breaks, returns, visits.node kept member] at breaks

/-- `found_list` reads the node of a call that broke. -/
theorem foundList_breaks (visits : Visits view fp heap trie entries Inv) {ref : Ref}
    (member : ref ∈ entries path) {state : State} (invariant : Inv state)
    (breaks : Breaks view fp ref state) (count : Nat) :
    ∃ fault final, (foundList view fp (bound + 1) (some ref) count).run state = (.error fault, final) := by
  simp only [TrieMult.foundList]
  rw [Cmd.bind_ok (visits.readNode member invariant), visits.self member, callBack]
  unfold Breaks at breaks
  split at breaks
  · rename_i next returns
    have gone : (TrieMult.readNode view ref).run next = (.error .useAfterFree, next) := by
      simp [TrieMult.readNode, breaks]
    rw [Cmd.bind_ok returns, Cmd.bind_error gone]
    exact ⟨_, _, rfl⟩
  · rename_i fault next stops
    rw [Cmd.bind_error stops]
    exact ⟨fault, next, rfl⟩

/-- `found_list` calls back on the nodes of a list in order. -/
theorem foundList (visits : Visits view fp heap trie entries Inv)
    {head : Option Ref} {refs : List Ref} (chain : Chain (fun ref => (heap ref).next) head refs)
    (subset : ∀ ref ∈ refs, ref ∈ entries path) (enough : refs.length ≤ bound) :
    Reports fp Inv (foundList view fp bound head) refs := by
  induction refs generalizing head bound with
  | nil =>
      obtain rfl : head = none := chain
      intro count state invariant
      exact .inl ⟨trivial, state, rfl, invariant, by simp [TrieMult.foundList]⟩
  | cons ref refs inductionHypothesis =>
      obtain ⟨rfl, rest⟩ := chain
      obtain ⟨bound, rfl⟩ := Nat.exists_eq_succ_of_ne_zero
        (by simp at enough; omega : bound ≠ 0)
      have member := subset ref (by simp)
      intro count state invariant
      rcases visits.call invariant member with ⟨next, called, nextInvariant⟩ | breaks
      · have goesOn : (TrieMult.foundList view fp (bound + 1) (some ref) count).run state =
            (TrieMult.foundList view fp bound (heap ref).next (count + 1)).run next := by
          simp only [TrieMult.foundList]
          rw [Cmd.bind_ok (visits.readNode member invariant), visits.self member, callBack,
            Cmd.bind_ok called, Cmd.bind_ok (visits.readNode member nextInvariant)]
        rcases inductionHypothesis rest (fun other later => subset other (List.mem_cons_of_mem _ later))
            (by simpa using enough) (count + 1) next nextInvariant with
          ⟨passes, final, calls, finalInvariant, run⟩ | ⟨breaks, fault, final, stops⟩
        · refine .inl ⟨⟨next, called, nextInvariant, passes⟩, final, Cmd.each_cons_ok called calls,
            finalInvariant, ?_⟩
          rw [goesOn, run, List.length_cons]
          congr 2
          omega
        · refine .inr ⟨fun passes => breaks ?_, fault, final, goesOn.trans stops⟩
          obtain ⟨next', called', -, later⟩ := passes
          obtain rfl : next = next' := (Prod.mk.inj (called.symm.trans called')).2
          exact later
      · exact .inr ⟨visits.breaks_passes member breaks,
          visits.foundList_breaks member invariant breaks count⟩

/-- The lists below a path, as a trie rooted there. -/
theorem reports_list (visits : Visits view fp heap trie entries Inv)
    (contents : Contents heap trie entries) (enough : ∀ path, (entries path).length ≤ bound)
    {list : Option Ref} (here : trie.listAt path = list) :
    Reports fp Inv (TrieMult.foundList view fp bound list) (entries path) :=
  visits.foundList (here ▸ (contents.lists path).chain) (fun _ member => member) (enough path)

/-- Nothing is held below a missing node. -/
theorem entries_below (contents : Contents heap trie entries)
    (missing : trie.sub path = .nil) (rest : List Byte) : entries (path ++ rest) = [] := by
  have listed := (contents.lists (path ++ rest)).head_eq
  rw [Trie.listAt_eq_none_of_sub missing, eq_comm] at listed
  exact List.head?_eq_none_iff.mp listed

/-- The searches below a missing node, and in one that is there. -/
theorem reports_child (visits : Visits view fp heap trie entries Inv)
    (contents : Contents heap trie entries) {children : Byte → Trie Ref}
    {list : Option Ref} (here : trie.sub curr = .node children list) (byte : Byte)
    {found : (Byte → Trie Ref) → Option Ref → Nat → Cmd Fault State Nat} {refs : List Ref}
    (missing : (∀ rest, entries (curr ++ byte :: rest) = []) → refs = [])
    (present : ∀ below inner, trie.sub (curr ++ [byte]) = .node below inner →
      Reports fp Inv (found below inner) refs) :
    Reports fp Inv (fun count => do
      match ← TrieMult.readChild view curr byte with
      | .nil => Pure.pure count
      | .node below inner => found below inner count) refs := by
  refine Reports.read (visits.readChild here byte) ?_
  have child : trie.sub (curr ++ [byte]) = children byte := by
    rw [Trie.sub_append, here]
    exact Trie.sub_here _
  cases below : children byte with
  | nil =>
      rw [missing fun rest => by simpa using entries_below contents (child.trans below) rest]
      exact Reports.pure
  | node inner list => exact present inner list (child.trans below)

theorem searchMany (visits : Visits view fp heap trie entries Inv)
    (contents : Contents heap trie entries) (enough : ∀ path, (entries path).length ≤ bound)
    {children : Byte → Trie Ref} {list : Option Ref}
    (here : trie.sub curr = .node children list) :
    Reports fp Inv (searchMany view fp bound curr) (entries (curr ++ [hash])) := by
  refine visits.reports_child contents here hash (fun missing => missing []) ?_
  intro below inner child
  exact visits.reports_list contents enough (by rw [Trie.listAt, child]; rfl)

theorem searchOne (visits : Visits view fp heap trie entries Inv)
    (contents : Contents heap trie entries) (enough : ∀ path, (entries path).length ≤ bound)
    {curr s : List Byte} {children : Byte → Trie Ref} {list : Option Ref}
    (here : trie.sub curr = .node children list)
    {search : List Byte → List Byte → Nat → Cmd Fault State Nat}
    (searches : ∀ tail, tail.length < s.length → trie.sub (curr ++ [plus, slash]) ≠ .nil →
      Reports fp Inv (search (curr ++ [plus, slash]) tail)
        (Wildcard.hits topicMarks (fun path => entries (curr ++ plus :: slash :: path)) true tail)) :
    Reports fp Inv (searchOne view fp bound curr s search)
      (if slash ∈ s then
        Wildcard.hits topicMarks (fun path => entries (curr ++ plus :: slash :: path)) true
          (Wildcard.afterLevel topicMarks s)
      else entries (curr ++ [plus])) := by
  refine visits.reports_child contents here plus ?_ ?_
  · intro missing
    simp [missing, Wildcard.hits_empty]
  · intro below inner child
    rcases Wildcard.cut_cases topicMarks s with ⟨cut, single⟩ | ⟨level, tail, cut, rfl, single⟩
    · rw [topicMarks_sep] at cut single
      rw [cut, if_neg single]
      exact visits.reports_list contents enough (by rw [Trie.listAt, child]; rfl)
    · have behind : Wildcard.afterLevel topicMarks (level ++ topicMarks.sep :: tail) = tail := by
        rw [Wildcard.afterLevel, cut]
        rfl
      have deeper : trie.sub (curr ++ [plus, slash]) = below slash := by
        rw [show curr ++ [plus, slash] = (curr ++ [plus]) ++ [slash] by simp, Trie.sub_append, child]
        exact Trie.sub_here _
      rw [behind]
      rw [topicMarks_sep] at cut ⊢
      rw [cut, if_pos (by simp)]
      simp only
      cases next : below slash with
      | nil =>
          have empty : ∀ path, entries (curr ++ plus :: slash :: path) = [] := fun path => by
            simpa using entries_below contents (deeper.trans next) path
          simp only [empty, Wildcard.hits_empty]
          exact Reports.pure
      | node _ _ =>
          exact searches tail (by simp; omega) (by simp [deeper, next])

theorem searchLiteral (visits : Visits view fp heap trie entries Inv)
    (contents : Contents heap trie entries) {curr s : List Byte} {children : Byte → Trie Ref}
    {list : Option Ref} (here : trie.sub curr = .node children list) {byte : Byte} {boundary : Bool}
    {search : List Byte → List Byte → Nat → Cmd Fault State Nat}
    (searches : trie.sub (curr ++ [byte]) ≠ .nil →
      Reports fp Inv (search (curr ++ [byte]) s)
        (Wildcard.hits topicMarks (fun path => entries (curr ++ byte :: path)) boundary s)) :
    Reports fp Inv (searchLiteral view curr byte s search)
      (Wildcard.hits topicMarks (fun path => entries (curr ++ byte :: path)) boundary s) := by
  refine visits.reports_child contents here byte ?_ ?_
  · intro missing
    simp [missing, Wildcard.hits_empty]
  · intro below inner child
    exact searches (by simp [child])

/-- The walk reports the wildcard hits of the lists below its node. -/
theorem searchRMqtt (visits : Visits view fp heap trie entries Inv)
    (contents : Contents heap trie entries) (enough : ∀ path, (entries path).length ≤ bound)
    {rounds : Nat} {curr s : List Byte} (boundary : Bool) (fuel : s.length < rounds)
    (present : trie.sub curr ≠ .nil) :
    Reports fp Inv (searchRMqtt view fp bound rounds boundary curr s)
      (Wildcard.hits topicMarks (fun path => entries (curr ++ path)) boundary s) := by
  induction rounds generalizing curr s boundary with
  | zero => omega
  | succ rounds inductionHypothesis =>
      obtain ⟨children, list, here⟩ : ∃ children list, trie.sub curr = .node children list := by
        cases found : trie.sub curr with
        | nil => contradiction
        | node children list => exact ⟨children, list, rfl⟩
      cases s with
      | nil =>
          rw [Wildcard.hits_nil, List.append_nil]
          refine Reports.read (visits.readList here) ?_
          exact visits.reports_list contents enough (by rw [Trie.listAt, here]; rfl)
      | cons byte s =>
          rw [Wildcard.hits_cons, topicMarks_sep, topicMarks_one, topicMarks_many]
          simp only [List.length_cons] at fuel
          refine Reports.bind ?_ (visits.searchLiteral contents here fun child => ?_)
          · cases boundary with
            | false => exact Reports.pure
            | true =>
                refine Reports.bind (visits.searchMany contents enough here)
                  (visits.searchOne contents enough here fun tail shorter child => ?_)
                simpa using inductionHypothesis true (by simp at shorter; omega) child
          · simpa using inductionHypothesis (byte == slash) (by omega) child

/-- `trie_m_search_mqtt` reports the hits of the topic. -/
theorem trieMSearchMqtt (visits : Visits view fp heap trie entries Inv)
    (contents : Contents heap trie entries) (enough : ∀ path, (entries path).length ≤ bound)
    (s : List Byte) {state : State} (invariant : Inv state) :
    (Cmd.Passes fp Inv (topicHits entries s) state ∧
      ∃ final, (Cmd.each fp (topicHits entries s)).run state = (.ok (), final) ∧ Inv final ∧
        (trieMSearchMqtt view fp bound s).run state = (.ok (topicHits entries s).length, final)) ∨
    (¬ Cmd.Passes fp Inv (topicHits entries s) state ∧
      ∃ fault final, (trieMSearchMqtt view fp bound s).run state = (.error fault, final)) := by
  cases root : trie with
  | nil =>
      have empty : entries = fun _ => [] :=
        funext fun path => entries_below contents ((Trie.sub_here trie).trans root) path
      rw [empty, topicHits_empty]
      exact .inl ⟨trivial, state, rfl, invariant,
        by simp [TrieMult.trieMSearchMqtt, visits.head invariant, root]⟩
  | node children list =>
      have search : ∀ curr rest, trie.sub curr ≠ .nil →
          Reports fp Inv (TrieMult.searchRMqtt view fp bound (rest.length + 1) true curr rest)
            (Wildcard.hits topicMarks (fun path => entries (curr ++ path)) true rest) :=
        fun curr rest present =>
          visits.searchRMqtt contents enough true (Nat.lt_succ_self rest.length) present
      rw [TrieMult.trieMSearchMqtt, Cmd.run_get_bind, visits.head invariant, root]
      cases s with
      | nil => simpa [topicHits] using search [] [] (by simp [root]) 0 state invariant
      | cons byte rest =>
          by_cases special : byte = dollar
          · simp only [topicHits, special, if_true]
            have child : trie.sub [dollar] = children dollar := by
              rw [root]
              exact Trie.sub_here _
            cases below : children dollar with
            | nil =>
                have empty : ∀ path, entries (dollar :: path) = [] :=
                  entries_below contents (child.trans below)
                simp only [empty, Wildcard.hits_empty]
                exact .inl ⟨trivial, state, rfl, invariant, rfl⟩
            | node _ _ =>
                simpa using search [dollar] rest (by simp [child, below]) 0 state invariant
          · simp only [topicHits, special, if_false]
            simpa using search [] (byte :: rest) (by simp [root]) 0 state invariant

end Visits

/-- The callback always returns and keeps the invariant. -/
structure Serves (view : View State Ref) (fp : Ref → Cmd Fault State Unit) (heap : Heap Ref)
    (trie : Trie Ref) (entries : List Byte → List Ref) (Inv : State → Prop) : Prop where
  head : ∀ {state}, Inv state → view.head state = trie
  node : ∀ {state path ref}, Inv state → ref ∈ entries path → view.node state ref = some (heap ref)
  self : ∀ {path ref}, ref ∈ entries path → (heap ref).p = some ref
  call : ∀ {state path ref}, Inv state → ref ∈ entries path →
    ∃ next, (fp ref).run state = (.ok (), next) ∧ Inv next

namespace Serves

variable {view : View State Ref} {fp : Ref → Cmd Fault State Unit} {heap : Heap Ref}
  {trie : Trie Ref} {entries : List Byte → List Ref} {Inv : State → Prop} {bound : Nat}

theorem visits (serves : Serves view fp heap trie entries Inv) : Visits view fp heap trie entries Inv :=
  ⟨serves.head, serves.node, serves.self, fun invariant member => .inl (serves.call invariant member)⟩

/-- Such a search comes to its end. -/
theorem trieMSearchMqtt (serves : Serves view fp heap trie entries Inv)
    (contents : Contents heap trie entries) (enough : ∀ path, (entries path).length ≤ bound)
    (s : List Byte) {state : State} (invariant : Inv state) :
    ∃ final, (Cmd.each fp (topicHits entries s)).run state = (.ok (), final) ∧
      Inv final ∧ (trieMSearchMqtt view fp bound s).run state =
        (.ok (topicHits entries s).length, final) := by
  have passes : Cmd.Passes fp Inv (topicHits entries s) state := by
    refine Cmd.passes_of_forall (fun ref member state invariant => ?_) invariant
    obtain ⟨path, here⟩ := mem_entries_of_topicHits member
    exact serves.call invariant here
  rcases serves.visits.trieMSearchMqtt contents enough s invariant with ⟨-, ends⟩ | ⟨breaks, -⟩
  · exact ends
  · exact absurd passes breaks

end Serves

end Search

end FbBroker.TrieMult
