import Mathlib.Data.List.Nodup
import Mathlib.Data.List.Perm.Basic
import FbBroker.Data.TrieContents

/-!
Contract: the subscription table of `subscription.c`.

Owns insertion, removal and search of subscriptions, and the exactness of the
routing they implement together: after any history of insertions and removals
a search reports the live subscriptions whose filters match, each once.

A subscription object is named by a reference `Ref`, which also names the list
node `sub_node` embedded in it.
-/

set_option autoImplicit false

namespace FbBroker.Routing

open FbBroker.Lib FbBroker.Dllist FbBroker.TrieMult

variable {Ref : Type} {topic : List Byte}

/-- `sub_insert`, for a subscription whose `filter` is the given buffer. -/
def subInsert [DecidableEq Ref] (bound : Nat) (heap : Heap Ref) (head : Trie Ref)
    (filter : List Byte) (psub : Ref) : Option (Heap Ref × Trie Ref) :=
  trieMInsert bound (heap.setP psub (some psub)) head (dropLocal (cstr filter)) psub

/-- `sub_remove`. -/
def subRemove [DecidableEq Ref] (heap : Heap Ref) (head : Trie Ref) (filter : List Byte)
    (sp : Ref) : Heap Ref × Trie Ref :=
  trieMDelete heap head (dropLocal (cstr filter)) sp

/-- `sub_search` for a message with the given topic buffer. -/
def subSearch {State : Type} (view : View State Ref) (fp : Ref → Cmd Fault State Unit)
    (bound : Nat) (topic : List Byte) : Cmd Fault State Nat :=
  trieMSearchMqtt view fp bound (cstr topic)

/-- Filters are looked at as strings. -/
theorem subInsert_cstr [DecidableEq Ref] (bound : Nat) (heap : Heap Ref) (head : Trie Ref)
    (filter : List Byte) (psub : Ref) :
    subInsert bound heap head (cstr filter) psub = subInsert bound heap head filter psub := by
  rw [subInsert, subInsert, cstr_eq_self (zero_notMem_cstr filter)]

theorem subRemove_cstr [DecidableEq Ref] (heap : Heap Ref) (head : Trie Ref) (filter : List Byte)
    (sp : Ref) : subRemove heap head (cstr filter) sp = subRemove heap head filter sp := by
  rw [subRemove, subRemove, cstr_eq_self (zero_notMem_cstr filter)]

theorem subSearch_cstr {State : Type} (view : View State Ref) (fp : Ref → Cmd Fault State Unit)
    (bound : Nat) (topic : List Byte) :
    subSearch view fp bound (cstr topic) = subSearch view fp bound topic := by
  rw [subSearch, subSearch, cstr_eq_self (zero_notMem_cstr topic)]

/-! ### What the table holds -/

/-- The subscriptions of a live set that hang under a path, oldest first. -/
def entriesOf (live : List (Ref × List Byte)) (path : List Byte) : List Ref :=
  (live.filter fun entry => dropLocal entry.2 = path).map Prod.fst

/-- The table holds exactly the live subscriptions, each under its filter and
pointing to itself. -/
structure Holds (heap : Heap Ref) (head : Trie Ref) (live : List (Ref × List Byte)) : Prop where
  contents : Contents heap head (entriesOf live)
  distinct : (live.map Prod.fst).Nodup
  nulFree : ∀ entry ∈ live, (0 : Byte) ∉ entry.2
  self : ∀ entry ∈ live, (heap entry.1).p = some entry.1

/-- A filter, stored without a leading `$local/`, matches a topic by the level
rule. -/
def filterMatches (filter topic : List Byte) : Bool :=
  Wildcard.Matches topicMarks (dropLocal filter) topic

theorem mem_entriesOf {live : List (Ref × List Byte)} {path : List Byte} {sub : Ref} :
    sub ∈ entriesOf live path ↔ ∃ filter, (sub, filter) ∈ live ∧ dropLocal filter = path := by
  simp [entriesOf]

theorem mem_map_fst {live : List (Ref × List Byte)} {sub : Ref} :
    sub ∈ live.map Prod.fst ↔ ∃ filter, (sub, filter) ∈ live := by
  simp

theorem entriesOf_filter (keep : Ref → Bool) (live : List (Ref × List Byte)) (path : List Byte) :
    entriesOf (live.filter fun entry => keep entry.1) path = (entriesOf live path).filter keep := by
  rw [entriesOf, entriesOf, List.filter_map, List.filter_filter, List.filter_filter]
  congr 2
  funext entry
  exact Bool.and_comm _ _

private theorem entriesOf_length_le (live : List (Ref × List Byte)) (path : List Byte) :
    (entriesOf live path).length ≤ live.length := by
  rw [entriesOf, List.length_map]
  exact List.length_filter_le _ _

namespace Holds

variable {heap : Heap Ref} {head : Trie Ref} {live : List (Ref × List Byte)} {sub : Ref}
  {filter : List Byte} {bound : Nat}

theorem empty (heap : Heap Ref) : Holds heap .nil [] where
  contents := Contents.empty heap
  distinct := List.nodup_nil
  nulFree := by simp
  self := by simp

/-- Only the nodes of the live subscriptions matter. -/
theorem congr {heap' : Heap Ref} (holds : Holds heap head live)
    (same : ∀ entry ∈ live, heap' entry.1 = heap entry.1) : Holds heap' head live where
  contents := ⟨fun path => (holds.contents.lists path).congr fun ref member => by
    obtain ⟨filter, present, -⟩ := mem_entriesOf.mp member
    rw [same (ref, filter) present]
    exact ⟨rfl, rfl⟩, holds.contents.apart⟩
  distinct := holds.distinct
  nulFree := holds.nulFree
  self entry member := by rw [same entry member, holds.self entry member]

/-- A live subscription has one filter. -/
theorem filter_unique (holds : Holds heap head live) {other : List Byte}
    (left : (sub, filter) ∈ live) (right : (sub, other) ∈ live) : filter = other := by
  have same := List.inj_on_of_nodup_map holds.distinct left right rfl
  exact (Prod.mk.inj same).2

variable [DecidableEq Ref]

theorem insert (holds : Holds heap head live) (fresh : sub ∉ live.map Prod.fst)
    (nulFree : (0 : Byte) ∉ filter) (enough : live.length ≤ bound) :
    ∃ heap' head', subInsert bound heap head filter sub = some (heap', head') ∧
      Holds heap' head' (live ++ [(sub, filter)]) := by
  have absent : ∀ path, sub ∉ entriesOf live path := by
    intro path member
    obtain ⟨other, present, -⟩ := mem_entriesOf.mp member
    exact fresh (mem_map_fst.mpr ⟨other, present⟩)
  -- writing `sub_node.p` changes no link
  have marked : Contents (heap.setP sub (some sub)) head (entriesOf live) :=
    ⟨fun path => (holds.contents.lists path).congr fun ref _ => by simp, holds.contents.apart⟩
  obtain ⟨heap', head', inserted, contents, pKept⟩ := marked.insert absent
    ((entriesOf_length_le live (dropLocal filter)).trans enough)
  refine ⟨heap', head', by rw [subInsert, cstr_eq_self nulFree, inserted], ?_, ?_, ?_, ?_⟩
  · convert contents using 1
    funext path
    by_cases same : path = dropLocal filter
    · subst path
      simp [entriesOf]
    · simp [entriesOf, Function.update_of_ne same, Ne.symm same]
  · rw [List.map_append, List.nodup_append]
    refine ⟨holds.distinct, by simp, ?_⟩
    rintro ref old _ new rfl
    simp only [List.map_cons, List.map_nil, List.mem_singleton] at new
    exact fresh (new ▸ old)
  · intro entry member
    rcases List.mem_append.mp member with old | new
    · exact holds.nulFree entry old
    · obtain rfl : entry = (sub, filter) := by simpa using new
      exact nulFree
  · intro entry member
    rw [pKept]
    by_cases same : entry.1 = sub
    · rw [same, Heap.setP_self]
    · rw [Heap.setP_of_ne _ _ same]
      rcases List.mem_append.mp member with old | new
      · exact holds.self entry old
      · exact absurd (by simpa using congrArg Prod.fst (List.mem_singleton.mp new)) same

theorem remove (holds : Holds heap head live) (present : (sub, filter) ∈ live) :
    Holds (subRemove heap head filter sub).1 (subRemove heap head filter sub).2
      (live.filter fun entry => entry.1 != sub) := by
  have nulFree := holds.nulFree _ present
  have member : sub ∈ entriesOf live (dropLocal filter) := mem_entriesOf.mpr ⟨filter, present, rfl⟩
  obtain ⟨contents, -, pKept⟩ := holds.contents.delete member
  rw [subRemove, cstr_eq_self nulFree]
  refine ⟨?_, ?_, ?_, ?_⟩
  · convert contents using 1
    funext path
    by_cases same : path = dropLocal filter
    · subst path
      have distinct := (holds.contents.lists (dropLocal filter)).nodup
      rw [Function.update_self, distinct.erase_eq_filter, entriesOf, entriesOf, List.filter_map,
        List.filter_filter, List.filter_filter]
      congr 2
      funext entry
      simp [Bool.and_comm]
    · rw [Function.update_of_ne same, entriesOf, entriesOf, List.filter_filter]
      congr 1
      refine List.filter_congr fun entry kept => ?_
      simp only [Bool.and_eq_left_iff_imp, decide_eq_true_eq, bne_iff_ne]
      rintro rfl rfl
      exact same (by rw [holds.filter_unique kept present])
  · exact holds.distinct.sublist (List.filter_sublist.map _)
  · exact fun entry kept => holds.nulFree entry (List.mem_of_mem_filter kept)
  · intro entry kept
    rw [pKept]
    exact holds.self entry (List.mem_of_mem_filter kept)

/-- A removal touches the nodes of live subscriptions only. -/
theorem remove_frame (holds : Holds heap head live) (present : (sub, filter) ∈ live) {ref : Ref}
    (outside : ref ∉ live.map Prod.fst) : (subRemove heap head filter sub).1 ref = heap ref := by
  have member : sub ∈ entriesOf live (dropLocal filter) := mem_entriesOf.mpr ⟨filter, present, rfl⟩
  obtain ⟨-, frame, -⟩ := holds.contents.delete member
  rw [subRemove, cstr_eq_self (holds.nulFree _ present)]
  apply frame
  intro listed
  obtain ⟨other, entry, -⟩ := mem_entriesOf.mp listed
  exact outside (mem_map_fst.mpr ⟨other, entry⟩)

/-! ### What a search reports -/

theorem heldAt (holds : Holds heap head live) (present : (sub, filter) ∈ live) :
    Wildcard.HeldAt (entriesOf live) sub (dropLocal filter) := by
  intro path
  have distinct := (holds.contents.lists path).nodup
  split
  · rename_i same
    exact List.count_eq_one_of_mem distinct (mem_entriesOf.mpr ⟨filter, present, same.symm⟩)
  · rename_i different
    refine List.count_eq_zero.mpr fun member => different ?_
    obtain ⟨other, listed, rfl⟩ := mem_entriesOf.mp member
    rw [holds.filter_unique listed present]

/-- The wildcard hits of the table are the matching live subscriptions. -/
theorem hits_perm (holds : Holds heap head live) (noPlus : plus ∉ topic) (noHash : hash ∉ topic) :
    (Wildcard.hits topicMarks (entriesOf live) true topic).Perm
      ((live.filter fun entry => filterMatches entry.2 topic).map Prod.fst) := by
  have counted : ∀ {sub filter}, (sub, filter) ∈ live →
      (Wildcard.hits topicMarks (entriesOf live) true topic).count sub ≤ 1 := by
    intro sub filter present
    rw [Wildcard.count_hits (holds.heldAt present)]
    refine Wildcard.ways_le_one fun level member => ?_
    have inside := Wildcard.subset_of_mem_splitOn topicMarks member
    constructor
    · rintro rfl
      exact noPlus (inside (List.mem_singleton_self plus))
    · rintro rfl
      exact noHash (inside (List.mem_singleton_self hash))
  have once : (Wildcard.hits topicMarks (entriesOf live) true topic).Nodup := by
    refine List.nodup_iff_count_le_one.mpr fun sub => ?_
    by_cases called : sub ∈ Wildcard.hits topicMarks (entriesOf live) true topic
    · obtain ⟨path, listed, -⟩ := Wildcard.mem_hits.mp called
      obtain ⟨filter, present, -⟩ := mem_entriesOf.mp listed
      exact counted present
    · rw [List.count_eq_zero.mpr called]
      exact Nat.zero_le 1
  refine (List.perm_ext_iff_of_nodup once
    (holds.distinct.sublist (List.filter_sublist.map _))).mpr fun sub => ?_
  rw [Wildcard.mem_hits]
  constructor
  · rintro ⟨path, listed, matching⟩
    obtain ⟨filter, present, rfl⟩ := mem_entriesOf.mp listed
    exact mem_map_fst.mpr ⟨filter, List.mem_filter.mpr ⟨present, matching⟩⟩
  · intro member
    obtain ⟨filter, kept⟩ := mem_map_fst.mp member
    obtain ⟨present, matching⟩ := List.mem_filter.mp kept
    exact ⟨_, mem_entriesOf.mpr ⟨filter, present, rfl⟩, matching⟩

omit [DecidableEq Ref] in
/-- A search calls back on the hits of the topic, in order, and returns their
number. -/
theorem search_hits {State : Type} {view : View State Ref} {fp : Ref → Cmd Fault State Unit}
    {Inv : State → Prop} (holds : Holds heap head live)
    (serves : Serves view fp heap head (entriesOf live) Inv) (enough : live.length ≤ bound)
    (nulFree : (0 : Byte) ∉ topic) {state : State} (invariant : Inv state) :
    ∃ final, (Cmd.each fp (topicHits (entriesOf live) topic)).run state = (.ok (), final) ∧
      Inv final ∧ (subSearch view fp bound topic).run state =
        (.ok (topicHits (entriesOf live) topic).length, final) := by
  rw [subSearch, cstr_eq_self nulFree]
  exact serves.trieMSearchMqtt holds.contents
    (fun path => (entriesOf_length_le live path).trans enough) topic invariant

omit [DecidableEq Ref] in
/-- A search whose callbacks may break it goes through the hits of the topic as far as
they pass. -/
theorem search_visits {State : Type} {view : View State Ref} {fp : Ref → Cmd Fault State Unit}
    {Inv : State → Prop} (holds : Holds heap head live)
    (visits : Visits view fp heap head (entriesOf live) Inv) (enough : live.length ≤ bound)
    (topic : List Byte) {state : State} (invariant : Inv state) :
    (Cmd.Passes fp Inv (topicHits (entriesOf live) (cstr topic)) state ∧
      ∃ final, (Cmd.each fp (topicHits (entriesOf live) (cstr topic))).run state = (.ok (), final) ∧
        Inv final ∧ (subSearch view fp bound topic).run state =
          (.ok (topicHits (entriesOf live) (cstr topic)).length, final)) ∨
    (¬ Cmd.Passes fp Inv (topicHits (entriesOf live) (cstr topic)) state ∧
      ∃ fault final, (subSearch view fp bound topic).run state = (.error fault, final)) :=
  visits.trieMSearchMqtt holds.contents
    (fun path => (entriesOf_length_le live path).trans enough) (cstr topic) invariant

/-- For a plain topic these are, up to order, the matching live subscriptions. -/
theorem topicHits_perm (holds : Holds heap head live) (noPlus : plus ∉ topic)
    (noHash : hash ∉ topic) (plain : topic.head? ≠ some dollar) :
    (topicHits (entriesOf live) topic).Perm
      ((live.filter fun entry => filterMatches entry.2 topic).map Prod.fst) := by
  rw [topicHits_of_plain _ plain]
  exact holds.hits_perm noPlus noHash

end Holds

/-! ### Histories of one table -/

/-- A table on its own: the list nodes of the subscription objects, their
`filter` fields and the trie. -/
structure Table (Ref : Type) where
  heap : Heap Ref
  filter : Ref → List Byte
  head : Trie Ref

/-- The table before anything was inserted. -/
def Table.initial : Table Ref :=
  ⟨fun _ => ⟨none, none, none⟩, fun _ => [], .nil⟩

/-- A use of the table: a subscription object is given a filter and inserted,
or an inserted one is removed. -/
inductive Use (Ref : Type) where
  | insert (sub : Ref) (filter : List Byte)
  | remove (sub : Ref)

/-- The table holds the live set, and the objects still have their filters. -/
structure Tracks (table : Table Ref) (live : List (Ref × List Byte)) : Prop where
  holds : Holds table.heap table.head live
  filters : ∀ {sub filter}, (sub, filter) ∈ live → table.filter sub = filter

/-- A search observed from outside: the table it reads and the subscriptions it
called back on so far. -/
structure Observed (Ref : Type) where
  table : Table Ref
  calls : List Ref

def observe : View (Observed Ref) Ref where
  head observed := observed.table.head
  node observed ref := some (observed.table.heap ref)

/-- The observer's callback. -/
def record (sub : Ref) : Cmd Fault (Observed Ref) Unit :=
  modify fun observed => { observed with calls := observed.calls ++ [sub] }

private theorem each_record (subs : List Ref) (observed : Observed Ref) :
    (Cmd.each record subs).run observed =
      (.ok (), { observed with calls := observed.calls ++ subs }) := by
  induction subs generalizing observed with
  | nil => simp [Cmd.each]
  | cons sub subs inductionHypothesis =>
      exact (inductionHypothesis _).trans (by simp)

/-- Recording leaves the table alone. -/
theorem serves_record {table : Table Ref} {live : List (Ref × List Byte)}
    (holds : Holds table.heap table.head live) :
    Serves observe record table.heap table.head (entriesOf live)
      (fun observed => observed.table = table) where
  head same := congrArg Table.head same
  node same _ := by rw [← same]; rfl
  self member := by
    obtain ⟨filter, present, -⟩ := mem_entriesOf.mp member
    exact holds.self _ present
  call same _ := ⟨_, rfl, same⟩

/-- An observed search calls back on the hits of the topic and returns their
number. -/
theorem subSearch_observed {table : Table Ref} {live : List (Ref × List Byte)} {bound : Nat}
    (holds : Holds table.heap table.head live) (enough : live.length ≤ bound)
    (nulFree : (0 : Byte) ∉ topic) :
    (subSearch observe record bound topic).run ⟨table, []⟩ =
      (.ok (topicHits (entriesOf live) topic).length,
        ⟨table, topicHits (entriesOf live) topic⟩) := by
  obtain ⟨final, called, -, searched⟩ := holds.search_hits (serves_record holds) enough
    nulFree (rfl : (⟨table, []⟩ : Observed Ref).table = table)
  rw [each_record, List.nil_append] at called
  rw [searched, ← (Prod.mk.inj called).2]

variable [DecidableEq Ref]

/-- What the code does to the table. -/
def Table.apply (bound : Nat) (table : Table Ref) : Use Ref → Option (Table Ref)
  | .insert sub filter =>
      (subInsert bound table.heap table.head filter sub).map fun (heap, head) =>
        { heap, filter := Function.update table.filter sub filter, head }
  | .remove sub =>
      let (heap, head) := subRemove table.heap table.head (table.filter sub) sub
      some { table with heap, head }

/-- What a use does to the set of live subscriptions; undefined for inserting
a live object or a filter with a NUL, and for removing an object that is not
live. -/
def Use.track (live : List (Ref × List Byte)) : Use Ref → Option (List (Ref × List Byte))
  | .insert sub filter =>
      if sub ∉ live.map Prod.fst ∧ (0 : Byte) ∉ filter then some (live ++ [(sub, filter)]) else none
  | .remove sub =>
      if sub ∈ live.map Prod.fst then some (live.filter fun entry => entry.1 != sub) else none

theorem Use.track_length_le {use : Use Ref} {live live' : List (Ref × List Byte)}
    (tracked : use.track live = some live') : live'.length ≤ live.length + 1 := by
  cases use with
  | insert sub filter =>
      simp only [Use.track, Option.ite_none_right_eq_some, Option.some.injEq] at tracked
      simp [← tracked.2]
  | remove sub =>
      simp only [Use.track, Option.ite_none_right_eq_some, Option.some.injEq] at tracked
      rw [← tracked.2]
      exact (List.length_filter_le _ _).trans (Nat.le_succ _)

/-- One use keeps the table and the live set in step. -/
theorem Tracks.apply {table : Table Ref} {live live' : List (Ref × List Byte)} {use : Use Ref}
    {bound : Nat} (tracks : Tracks table live) (tracked : use.track live = some live')
    (enough : live.length ≤ bound) :
    ∃ table', table.apply bound use = some table' ∧ Tracks table' live' := by
  cases use with
  | insert sub filter =>
      simp only [Use.track, Option.ite_none_right_eq_some, Option.some.injEq] at tracked
      obtain ⟨⟨fresh, nulFree⟩, rfl⟩ := tracked
      obtain ⟨heap, head, inserted, holds⟩ := tracks.holds.insert fresh nulFree enough
      refine ⟨_, by rw [Table.apply, inserted]; rfl, holds, ?_⟩
      intro other old member
      rcases List.mem_append.mp member with kept | new
      · have different : other ≠ sub := by
          rintro rfl
          exact fresh (mem_map_fst.mpr ⟨old, kept⟩)
        exact (Function.update_of_ne different _ _).trans (tracks.filters kept)
      · obtain ⟨rfl, rfl⟩ : other = sub ∧ old = filter := by simpa using new
        exact Function.update_self _ _ _
  | remove sub =>
      simp only [Use.track, Option.ite_none_right_eq_some, Option.some.injEq] at tracked
      obtain ⟨alive, rfl⟩ := tracked
      obtain ⟨filter, present⟩ := mem_map_fst.mp alive
      refine ⟨_, rfl, ?_, fun member => tracks.filters (List.mem_of_mem_filter member)⟩
      simp only [tracks.filters present]
      exact tracks.holds.remove present

/-- A whole history keeps the table and the live set in step. -/
theorem Tracks.foldlM {uses : List (Use Ref)} {table : Table Ref}
    {live live' : List (Ref × List Byte)} {bound : Nat} (tracks : Tracks table live)
    (tracked : uses.foldlM Use.track live = some live')
    (enough : live.length + uses.length ≤ bound) :
    ∃ table', uses.foldlM (Table.apply bound) table = some table' ∧ Tracks table' live' := by
  induction uses generalizing table live with
  | nil =>
      obtain rfl : live = live' := by simpa using tracked
      exact ⟨table, rfl, tracks⟩
  | cons use uses inductionHypothesis =>
      rw [List.foldlM_cons] at tracked
      obtain ⟨middle, first, rest⟩ := Option.bind_eq_some_iff.mp tracked
      have grown := Use.track_length_le first
      simp only [List.length_cons] at enough
      obtain ⟨next, applied, nextTracks⟩ :=
        tracks.apply first (show live.length ≤ bound by omega)
      obtain ⟨final, run, finalTracks⟩ := inductionHypothesis nextTracks rest (by omega)
      exact ⟨final, by rw [List.foldlM_cons, applied]; exact run, finalTracks⟩

theorem track_live_length_le {uses : List (Use Ref)} {live live' : List (Ref × List Byte)}
    (tracked : uses.foldlM Use.track live = some live') :
    live'.length ≤ live.length + uses.length := by
  induction uses generalizing live with
  | nil =>
      obtain rfl : live = live' := by simpa using tracked
      simp
  | cons use uses inductionHypothesis =>
      rw [List.foldlM_cons] at tracked
      obtain ⟨middle, first, rest⟩ := Option.bind_eq_some_iff.mp tracked
      have grown := Use.track_length_le first
      have later := inductionHypothesis rest
      simp only [List.length_cons]
      omega

/-- After any history of insertions and removals, a search for a plain topic
calls back on exactly the live subscriptions whose filters match, each once,
and returns their number. -/
theorem subSearch_exact {uses : List (Use Ref)} {live : List (Ref × List Byte)} {bound : Nat}
    (history : uses.foldlM Use.track [] = some live) (enough : uses.length ≤ bound) :
    ∃ table, uses.foldlM (Table.apply bound) Table.initial = some table ∧
      (live.map Prod.fst).Nodup ∧
      ∀ topic : List Byte, topic ≠ [] → (0 : Byte) ∉ topic → plus ∉ topic → hash ∉ topic →
        topic.head? ≠ some dollar →
        ∃ calls, (subSearch observe record bound topic).run ⟨table, []⟩ =
            (.ok calls.length, ⟨table, calls⟩) ∧
          calls.Perm ((live.filter fun entry => filterMatches entry.2 topic).map Prod.fst) := by
  obtain ⟨table, run, tracks⟩ := Tracks.foldlM
    ⟨Holds.empty Table.initial.heap, by simp⟩ history (by simpa using enough)
  have liveBound : live.length ≤ bound := by
    have := track_live_length_le history
    simp only [List.length_nil] at this
    omega
  refine ⟨table, run, tracks.holds.distinct, fun topic _ nulFree noPlus noHash plain => ?_⟩
  exact ⟨_, subSearch_observed tracks.holds liveBound nulFree,
    tracks.holds.topicHits_perm noPlus noHash plain⟩

/-- Two filters inserted and one removed again: the topic reaches the other. -/
theorem subSearch_exact_two_filters :
    ∃ table calls,
      [Use.insert 0 (lit "a/#"), .insert 1 (lit "$local/a/+"), .remove 0].foldlM (Table.apply 3)
        Table.initial = some table ∧
      (subSearch observe record 3 (lit "a/b")).run ⟨table, []⟩ = (.ok calls.length, ⟨table, calls⟩) ∧
      calls.Perm [1] := by
  have history : [Use.insert 0 (lit "a/#"), .insert 1 (lit "$local/a/+"), .remove 0].foldlM
      Use.track [] = some [(1, lit "$local/a/+")] := by
    decide
  obtain ⟨table, run, -, searches⟩ := subSearch_exact history (show _ ≤ 3 by decide)
  obtain ⟨calls, searched, matching⟩ := searches (lit "a/b") (by decide) (by decide) (by decide)
    (by decide) (by decide)
  exact ⟨table, calls, run, searched, matching⟩

end FbBroker.Routing
