import Mathlib.Data.Finset.Card
import FbBroker.Broker.Table

/-!
Contract: the loop of `on_recv_subscribe` over the filters of a packet.

Owns the record of the client behind a number of turns of the loop, the filters in
its array and how many there are. The loop comes to this record, or stops where a
new entry does not fit the array or the walk along the trie does not end.

Does not own the access check in front of the loop and the SUBACK behind it.
-/

set_option autoImplicit false

namespace FbBroker.Broker

open FbBroker.Lib FbBroker.Packet FbBroker.Parser FbBroker.Dllist FbBroker.TrieMult
open FbBroker.Routing FbBroker.Auth

variable {c : ClientId} {b : State} {p : Client} {sub : SubscribeSt} {i m : Nat}

/-! ### Filters -/

/-- The filters in the array of a client, as strings. -/
def Client.filters (p : Client) : List (List Byte) :=
  (List.range p.numSubs).map fun j => cstr (p.subscriptions j).filter

/-- The first filters of a packet, as strings. -/
def requested (sub : SubscribeSt) (m : Nat) : List (List Byte) :=
  (List.range m).map fun i => cstr (filterOf sub i)

theorem Client.length_filters (p : Client) : p.filters.length = p.numSubs := by
  simp [Client.filters]

theorem Client.mem_filters {filter : List Byte} :
    filter ∈ p.filters ↔ ∃ j < p.numSubs, cstr (p.subscriptions j).filter = filter := by
  simp [Client.filters]

theorem requested_succ (sub : SubscribeSt) (m : Nat) :
    requested sub (m + 1) = requested sub m ++ [cstr (filterOf sub m)] := by
  simp [requested, List.range_succ]

theorem findSub_eq_none {filter : List Byte} : findSub p filter = none ↔ cstr filter ∉ p.filters := by
  simp [findSub, Client.mem_filters]

/-! ### The record behind the turns -/

/-- The record behind one turn: a filter the client has sets the QoS of the entry at the
index in the packet, another is put behind the entries. -/
def Client.subscribed (p : Client) (sub : SubscribeSt) (i : Nat) : Client :=
  if cstr (filterOf sub i) ∈ p.filters then
    { p with
      subscriptions := Function.update p.subscriptions i { p.subscriptions i with qos := min (sub.qos i) 1 } }
  else
    { p with
      subscriptions := Function.update p.subscriptions p.numSubs ⟨filterOf sub i, min (sub.qos i) 1⟩
      numSubs := p.numSubs + 1 }

/-- The record behind the first turns. -/
def Client.turns (p : Client) (sub : SubscribeSt) : Nat → Client
  | 0 => p
  | m + 1 => (p.turns sub m).subscribed sub m

theorem Client.filters_subscribed (p : Client) (sub : SubscribeSt) (i : Nat) :
    (p.subscribed sub i).filters =
      if cstr (filterOf sub i) ∈ p.filters then p.filters else p.filters ++ [cstr (filterOf sub i)] := by
  unfold Client.subscribed
  split
  · refine List.map_congr_left fun j _ => ?_
    by_cases same : j = i
    · simp [same]
    · simp [same]
  · rw [Client.filters, List.range_succ, List.map_append]
    congr 1
    · refine List.map_congr_left fun j inside => ?_
      have before : j ≠ p.numSubs := (List.mem_range.mp inside).ne
      simp [before]
    · simp

theorem Client.mem_filters_turns {filter : List Byte} :
    filter ∈ (p.turns sub m).filters ↔ filter ∈ p.filters ∨ filter ∈ requested sub m := by
  induction m with
  | zero => simp [Client.turns, requested]
  | succ m inductionHypothesis =>
      rw [Client.turns, Client.filters_subscribed, requested_succ]
      split
      · rename_i known
        rw [inductionHypothesis, List.mem_append, List.mem_singleton]
        constructor
        · rintro (old | new)
          · exact .inl old
          · exact .inr (.inl new)
        · rintro (old | new | rfl)
          · exact .inl old
          · exact .inr new
          · exact inductionHypothesis.mp known
      · rw [List.mem_append, List.mem_append, inductionHypothesis, or_assoc]

/-- Every filter that is not in the array adds an entry, once. -/
theorem Client.numSubs_turns (p : Client) (sub : SubscribeSt) (m : Nat) :
    (p.turns sub m).numSubs = p.numSubs + ((requested sub m).toFinset \ p.filters.toFinset).card := by
  induction m with
  | zero => simp [Client.turns, requested]
  | succ m inductionHypothesis =>
      have added : (p.turns sub (m + 1)).numSubs = (p.turns sub m).numSubs +
          if cstr (filterOf sub m) ∈ (p.turns sub m).filters then 0 else 1 := by
        rw [Client.turns, Client.subscribed]
        split <;> rfl
      have asked : (requested sub (m + 1)).toFinset =
          insert (cstr (filterOf sub m)) (requested sub m).toFinset := by
        ext filter
        simp [requested_succ]
      rw [added, inductionHypothesis, Nat.add_assoc, asked]
      congr 1
      by_cases old : cstr (filterOf sub m) ∈ p.filters
      · rw [if_pos (Client.mem_filters_turns.mpr (.inl old)), Nat.add_zero,
          Finset.insert_sdiff_of_mem _ (List.mem_toFinset.mpr old)]
      · rw [Finset.insert_sdiff_of_notMem _ (by simpa using old)]
        by_cases again : cstr (filterOf sub m) ∈ requested sub m
        · rw [if_pos (Client.mem_filters_turns.mpr (.inr again)), Nat.add_zero, Finset.insert_eq_of_mem]
          simp [old, again]
        · rw [if_neg (by simp [Client.mem_filters_turns, old, again]), Finset.card_insert_of_notMem]
          simp [again]

theorem Client.numSubs_turns_le (p : Client) (sub : SubscribeSt) {m n : Nat} (before : m ≤ n) :
    (p.turns sub m).numSubs ≤ (p.turns sub n).numSubs := by
  induction n, before using Nat.le_induction with
  | base => exact Nat.le_refl _
  | succ n _ inductionHypothesis =>
      refine inductionHypothesis.trans ?_
      rw [Client.turns, Client.subscribed]
      split
      · exact Nat.le_refl _
      · exact Nat.le_succ _

/-! ### The loop -/

/-- The state with another record of the client, other tries and more events. -/
def State.turned (b : State) (c : ClientId) (p : Client) (nodes : Heap SubRef) (subs : Nat → Trie SubRef)
    (events : List Event) : State :=
  { b with clients := Function.update b.clients c (some p), nodes, subs, log := b.log ++ events }

theorem State.turned_turned (b : State) (c : ClientId) (p q : Client) (nodes nodes' : Heap SubRef)
    (subs subs' : Nat → Trie SubRef) (events events' : List Event) :
    (b.turned c p nodes subs events).turned c q nodes' subs' events' =
      b.turned c q nodes' subs' (events ++ events') := by
  simp [State.turned]

/-- The trie of a worker agrees with the arrays of all clients, none of which holds more than
`MAX_SUBS` entries. -/
structure Consistent (w : Nat) (b : State) : Prop where
  agrees : ∃ live, Agrees b w live
  clients : ∀ c p, b.clients c = some p → c < b.nextClient ∧ p.numSubs ≤ maxSubs

theorem Linked.consistent {w : Nat} (linked : Linked w b) : Consistent w b where
  agrees := linked.agrees
  clients c p found := (linked.clients c p found).2

theorem Consistent.turned {w : Nat} (consistent : Consistent w b) (present : b.clients c = some p) {q : Client}
    {nodes : Heap SubRef} {subs : Nat → Trie SubRef} {events : List Event}
    (agrees : ∃ live, Agrees (b.turned c q nodes subs events) w live) (few : q.numSubs ≤ maxSubs) :
    Consistent w (b.turned c q nodes subs events) := by
  refine ⟨agrees, fun d r found => ?_⟩
  by_cases same : d = c
  · subst d
    obtain rfl : q = r := by simpa [State.turned] using found
    exact ⟨(consistent.clients c p present).1, few⟩
  · exact consistent.clients d r (by simpa [State.turned, same] using found)

/-- Another QoS keeps the agreement. -/
theorem Consistent.putClient {w : Nat} (consistent : Consistent w b) (present : b.clients c = some p)
    {p' : Client} (worker : p'.worker = p.worker) (numSubs : p'.numSubs = p.numSubs)
    (filters : ∀ i, (p'.subscriptions i).filter = (p.subscriptions i).filter) :
    Consistent w (b.putClient c p') := by
  obtain ⟨live, agrees⟩ := consistent.agrees
  have written := agrees.putClient present worker numSubs filters
  have same : b.putClient c p' = b.turned c p' b.nodes b.subs [] := by
    simp [State.turned, State.putClient]
  rw [same] at written ⊢
  exact consistent.turned present ⟨live, written⟩ (numSubs ▸ (consistent.clients c p present).2)

/-- What a turn can come to. -/
inductive Turn (c : ClientId) (sub : SubscribeSt) (i : Nat) (b : State) (p : Client) :
    Except Fault Unit × State → Prop
  | done (nodes : Heap SubRef) (subs : Nat → Trie SubRef) {events : List Event}
      (only : ∀ event ∈ events, event = .subscribed c)
      (room : cstr (filterOf sub i) ∉ p.filters → p.numSubs < maxSubs)
      (keeps : Consistent p.worker b → Consistent p.worker (b.turned c (p.subscribed sub i) nodes subs events)) :
      Turn c sub i b p (.ok (), b.turned c (p.subscribed sub i) nodes subs events)
  | full (new : cstr (filterOf sub i) ∉ p.filters) (full : maxSubs ≤ p.numSubs) :
      Turn c sub i b p (.error .outOfBounds, b)
  | endless (broken : ¬ Consistent p.worker b) : Turn c sub i b p (.error .unbounded, b)

/-- A filter the client has. -/
theorem turn_known (present : b.clients c = some p) (known : cstr (filterOf sub i) ∈ p.filters) :
    Turn c sub i b p (.ok (), b.putClient c (p.subscribed sub i)) := by
  have written : b.putClient c (p.subscribed sub i) =
      b.turned c (p.subscribed sub i) b.nodes b.subs [] := by
    simp [State.turned, State.putClient]
  have entries : (p.subscribed sub i).worker = p.worker ∧ (p.subscribed sub i).numSubs = p.numSubs ∧
      ∀ j, ((p.subscribed sub i).subscriptions j).filter = (p.subscriptions j).filter := by
    rw [Client.subscribed, if_pos known]
    refine ⟨rfl, rfl, fun j => ?_⟩
    by_cases same : j = i
    · simp [same]
    · simp [same]
  obtain ⟨worker, numSubs, filters⟩ := entries
  rw [written]
  refine .done _ _ (by simp) (fun new => absurd known new) fun consistent => ?_
  rw [← written]
  exact consistent.putClient present worker numSubs filters

/-- A filter that is put behind the entries. -/
theorem turn_new (present : b.clients c = some p) (new : cstr (filterOf sub i) ∉ p.filters) :
    Turn c sub i b p ((insertSub c (filterOf sub i) (min (sub.qos i) 1)).run b) := by
  rw [insertSub, Cmd.bind_ok (client_run present)]
  by_cases room : p.numSubs < maxSubs
  · rw [if_pos room, Cmd.run_get_bind]
    cases inserted : subInsert b.listBound b.nodes (b.subs p.worker) (filterOf sub i) (c, p.numSubs) with
    | none =>
        refine .endless fun consistent => ?_
        obtain ⟨live, agrees⟩ := consistent.agrees
        obtain ⟨nodes, head, linked, -⟩ := agrees.insert present (agrees.length_le consistent.clients)
          (filterOf sub i) 0
        exact absurd (inserted.symm.trans linked) (by simp)
    | some result =>
        obtain ⟨nodes, head⟩ := result
        have record : p.subscribed sub i = { p with
            subscriptions := Function.update p.subscriptions p.numSubs ⟨filterOf sub i, min (sub.qos i) 1⟩
            numSubs := p.numSubs + 1 } := by
          rw [Client.subscribed, if_neg new]
        have done : Turn c sub i b p (.ok (), b.turned c (p.subscribed sub i) nodes
            (Function.update b.subs p.worker head) [.subscribed c]) := by
          refine .done _ _ (by simp) (fun _ => room) fun consistent => ?_
          obtain ⟨live, agrees⟩ := consistent.agrees
          obtain ⟨nodes', head', linked, agrees'⟩ := agrees.insert present
            (agrees.length_le consistent.clients) (filterOf sub i) (min (sub.qos i) 1)
          obtain ⟨rfl, rfl⟩ := Prod.mk.inj (Option.some.inj (inserted.symm.trans linked))
          rw [record]
          exact consistent.turned present ⟨_, agrees'⟩ room
        rw [record] at done
        simp only [emit, Cmd.run_modify_bind]
        rw [updateClient_run (p := p) (by exact present)]
        exact done
  · rw [if_neg room]
    exact .full new (by omega)

private theorem subscribeOne_turn (present : b.clients c = some p) (sub : SubscribeSt) (i : Nat) :
    Turn c sub i b p ((subscribeOne c sub i).run b) := by
  rw [subscribeOne, Cmd.bind_ok (client_run present)]
  dsimp only
  cases found : findSub p (filterOf sub i) with
  | none => exact turn_new present (findSub_eq_none.mp found)
  | some j =>
      have known : cstr (filterOf sub i) ∈ p.filters := by
        by_contra new
        rw [findSub_eq_none.mpr new] at found
        exact absurd found (by simp)
      have turn := turn_known present known
      rw [Client.subscribed, if_pos known] at turn
      dsimp only
      rw [updateClient_run present]
      exact turn

/-- The turns write to the array and its length only. -/
theorem Client.turns_eq (p : Client) (sub : SubscribeSt) (m : Nat) :
    p.turns sub m = { p with
      subscriptions := (p.turns sub m).subscriptions
      numSubs := (p.turns sub m).numSubs } := by
  induction m with
  | zero => rfl
  | succ m inductionHypothesis =>
      rw [Client.turns, inductionHypothesis, Client.subscribed]
      split <;> rfl

theorem Client.worker_turns (p : Client) (sub : SubscribeSt) (m : Nat) : (p.turns sub m).worker = p.worker := by
  rw [Client.turns_eq]

/-- What a number of turns can come to. -/
inductive Turns (c : ClientId) (sub : SubscribeSt) (b : State) (p : Client) (m : Nat) :
    Except Fault Unit × State → Prop
  | done (nodes : Heap SubRef) (subs : Nat → Trie SubRef) {events : List Event}
      (only : ∀ event ∈ events, event = .subscribed c)
      (inside : (p.turns sub m).numSubs ≤ max p.numSubs maxSubs)
      (keeps : Consistent p.worker b → Consistent p.worker (b.turned c (p.turns sub m) nodes subs events)) :
      Turns c sub b p m (.ok (), b.turned c (p.turns sub m) nodes subs events)
  | full (nodes : Heap SubRef) (subs : Nat → Trie SubRef) (events : List Event) {k : Nat} (before : k < m)
      (new : cstr (filterOf sub k) ∉ (p.turns sub k).filters) (full : maxSubs ≤ (p.turns sub k).numSubs) :
      Turns c sub b p m (.error .outOfBounds, b.turned c (p.turns sub k) nodes subs events)
  | endless (nodes : Heap SubRef) (subs : Nat → Trie SubRef) (events : List Event) {k : Nat} (before : k < m)
      (broken : ¬ Consistent p.worker b) :
      Turns c sub b p m (.error .unbounded, b.turned c (p.turns sub k) nodes subs events)

theorem subscribe_turns (present : b.clients c = some p) (sub : SubscribeSt) (m : Nat) :
    Turns c sub b p m ((Cmd.each (subscribeOne c sub) (List.range m)).run b) := by
  induction m with
  | zero =>
      have same : b.turned c p b.nodes b.subs [] = b := by
        simp [State.turned, ← present]
      have done : Turns c sub b p 0 (.ok (), b.turned c p b.nodes b.subs []) :=
        .done _ _ (by simp) (Nat.le_max_left _ _) fun consistent => same.symm ▸ consistent
      rw [same] at done
      exact done
  | succ m inductionHypothesis =>
      rw [List.range_succ, Cmd.each_append_run]
      generalize ran : (Cmd.each (subscribeOne c sub) (List.range m)).run b = result at inductionHypothesis
      cases inductionHypothesis with
      | @done nodes subs events only inside keeps =>
          rw [Cmd.bind_ok ran, Cmd.each]
          have written : (b.turned c (p.turns sub m) nodes subs events).clients c = some (p.turns sub m) := by
            simp [State.turned]
          have turn := subscribeOne_turn written sub m
          generalize turned : (subscribeOne c sub m).run (b.turned c (p.turns sub m) nodes subs events) = next
            at turn
          cases turn with
          | done nodes subs more room keepsOne =>
              rw [State.turned_turned, Client.worker_turns] at keepsOne
              rw [Cmd.bind_ok turned, State.turned_turned]
              refine .done _ _ (fun event member => (List.mem_append.mp member).elim (only event) (more event)) ?_
                fun consistent => keepsOne (keeps consistent)
              rw [Client.turns, Client.subscribed]
              split
              · exact inside
              · rename_i new
                exact le_max_of_le_right (room new)
          | full new full =>
              rw [Cmd.bind_error turned]
              exact .full _ _ _ (Nat.lt_succ_self m) new full
          | endless broken =>
              rw [Cmd.bind_error turned]
              rw [Client.worker_turns] at broken
              exact .endless _ _ _ (Nat.lt_succ_self m) fun consistent => broken (keeps consistent)
      | full nodes subs events before new full =>
          rw [Cmd.bind_error ran]
          exact .full _ _ _ (Nat.lt_succ_of_lt before) new full
      | endless nodes subs events before broken =>
          rw [Cmd.bind_error ran]
          exact .endless _ _ _ (Nat.lt_succ_of_lt before) broken

end FbBroker.Broker
