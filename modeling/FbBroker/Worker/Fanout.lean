import FbBroker.Worker.Threads

/-!
Contract: the fan-out of messages over the `msg_q` of every worker.

`Ledger` ties the pushes to every worker to the calls of every thread, and
speaks of histories only. `Linked` adds the queue memory: what the links of a
`msg_q` lead through is what was pushed to its worker and not yet popped. Both
survive every step of every thread; exactly-once and ordered delivery to the
workers follow from them.
-/

set_option autoImplicit false

namespace FbBroker.Worker

open FbBroker.Lib FbBroker.Queue

/-- The message and the next worker of a call in progress. -/
def progress (s : State) (t : Nat) : Option (Msg × Nat) :=
  (s.thread t).pushing.map fun call => (call.mp, call.i)

/-- What a call in progress has still to push to worker `i`. -/
def unsent (call : Option (Msg × Nat)) (i : Nat) : List Msg :=
  match call with
  | none => []
  | some (mp, next) => if next ≤ i then [mp] else []

/-! ### Calls and pushes -/

/-- Every message belongs to one call of one thread, and the pushes to a worker
follow the calls of each thread. -/
structure Ledger (numWorkers : Nat) (s : State) : Prop where
  known : ∀ t mp, mp ∈ callsOf t s.log → s.mstate mp ≠ .unknown
  caller : ∀ t other mp, mp ∈ callsOf t s.log → mp ∈ callsOf other s.log → t = other
  once : ∀ t, (callsOf t s.log).Nodup
  called : ∀ i mp, mp ∈ pushedTo i s.log → ∃ t, mp ∈ callsOf t s.log
  distinct : ∀ i, (pushedTo i s.log).Nodup
  current : ∀ t mp next, progress s t = some (mp, next) → mp ∈ callsOf t s.log
  order : ∀ t i, i < numWorkers →
    (pushedTo i s.log).filter (· ∈ callsOf t s.log) ++ unsent (progress s t) i = callsOf t s.log

private theorem nodup_concat {list : List Msg} {mp : Msg} (distinct : list.Nodup)
    (fresh : mp ∉ list) : (list ++ [mp]).Nodup := by
  refine List.nodup_append.mpr ⟨distinct, List.nodup_singleton mp, ?_⟩
  intro old member new isNew same
  rw [same, List.mem_singleton.mp isNew] at member
  exact fresh member

namespace Ledger

variable {numWorkers : Nat} {s s' : State} {t i : Nat} {mp : Msg}

theorem initial (start : Initial s) : Ledger numWorkers s := by
  constructor <;> simp [start.log, start.thread, callsOf, pushedTo, unsent, progress]

/-- A step outside this part of the state and the history. -/
theorem frame (ledger : Ledger numWorkers s)
    (known : ∀ mp, s.mstate mp ≠ .unknown → s'.mstate mp ≠ .unknown)
    (same : ∀ t, progress s' t = progress s t)
    (calls : ∀ t, callsOf t s'.log = callsOf t s.log)
    (pushed : ∀ i, pushedTo i s'.log = pushedTo i s.log) : Ledger numWorkers s' := by
  constructor
  · intro t mp member
    rw [calls] at member
    exact known mp (ledger.known t mp member)
  · simpa only [calls] using ledger.caller
  · simpa only [calls] using ledger.once
  · simpa only [pushed, calls] using ledger.called
  · simpa only [pushed] using ledger.distinct
  · simpa only [same, calls] using ledger.current
  · simpa only [same, pushed, calls] using ledger.order

/-- A message still to be pushed to a worker has not been pushed to it. -/
theorem unsent_fresh (ledger : Ledger numWorkers s) (more : i < numWorkers)
    (call : progress s t = some (mp, i)) : mp ∉ pushedTo i s.log := by
  intro pushed
  have order := ledger.order t i more
  have distinct := ledger.once t
  have called := ledger.current t mp i call
  simp only [call, unsent, Nat.le_refl, if_true] at order
  rw [← order] at distinct
  exact List.disjoint_of_nodup_append distinct
    (List.mem_filter.mpr ⟨pushed, by simpa using called⟩) (List.mem_singleton_self mp)

/-- A message that was never allocated was neither queued nor pushed. -/
theorem fresh_of_unknown (ledger : Ledger numWorkers s) (fresh : s.mstate mp = .unknown) :
    (∀ t, mp ∉ callsOf t s.log) ∧ ∀ i, mp ∉ pushedTo i s.log := by
  have notCalled : ∀ t, mp ∉ callsOf t s.log := fun t member => ledger.known t mp member fresh
  refine ⟨notCalled, fun i member => ?_⟩
  obtain ⟨t, called⟩ := ledger.called i mp member
  exact notCalled t called

/-- The effect of entering a call with a new message. -/
theorem enter (ledger : Ledger numWorkers s) (outside : progress s t = none)
    (fresh : s.mstate mp = .unknown) (known : s'.mstate mp ≠ .unknown)
    (others : ∀ other, other ≠ mp → s'.mstate other = s.mstate other)
    (here : progress s' t = some (mp, 0)) (elsewhere : ∀ j, j ≠ t → progress s' j = progress s j)
    (log : s'.log = s.log ++ [.queued t mp]) : Ledger numWorkers s' := by
  obtain ⟨notCalled, notPushed⟩ := ledger.fresh_of_unknown fresh
  have calls : ∀ j, callsOf j s'.log =
      if t = j then callsOf j s.log ++ [mp] else callsOf j s.log := by simp [log]
  have pushed : ∀ i, pushedTo i s'.log = pushedTo i s.log := by simp [log]
  have mem_calls : ∀ j other, other ∈ callsOf j s'.log ↔
      other ∈ callsOf j s.log ∨ j = t ∧ other = mp := by
    intro j other
    rw [calls]
    by_cases same : t = j
    · simp [same]
    · simp [same, Ne.symm same]
  constructor
  · intro j other member
    by_cases same : other = mp
    · exact same ▸ known
    · rw [others other same]
      exact ledger.known j other (by simpa [same] using (mem_calls j other).mp member)
  · intro j k other left right
    rcases (mem_calls j other).mp left with left | ⟨leftIs, same⟩ <;>
      rcases (mem_calls k other).mp right with right | ⟨rightIs, same'⟩
    · exact ledger.caller j k other left right
    · exact absurd (same' ▸ left) (notCalled j)
    · exact absurd (same ▸ right) (notCalled k)
    · rw [leftIs, rightIs]
  · intro j
    rw [calls]
    split
    · exact nodup_concat (ledger.once j) (notCalled j)
    · exact ledger.once j
  · intro i other member
    rw [pushed] at member
    obtain ⟨j, called⟩ := ledger.called i other member
    exact ⟨j, (mem_calls j other).mpr (.inl called)⟩
  · simpa only [pushed] using ledger.distinct
  · intro j other next call
    by_cases same : j = t
    · subst j
      rw [here, Option.some.injEq, Prod.mk.injEq] at call
      exact (mem_calls t other).mpr (.inr ⟨rfl, call.1.symm⟩)
    · rw [elsewhere j same] at call
      exact (mem_calls j other).mpr (.inl (ledger.current j other next call))
  · intro j i more
    have before := ledger.order j i more
    rw [pushed, calls]
    by_cases same : j = t
    · subst j
      rw [outside, unsent, List.append_nil] at before
      rw [here, if_pos rfl, unsent, if_pos (Nat.zero_le i)]
      refine congrArg (· ++ [mp]) (Eq.trans ?_ before)
      refine List.filter_congr fun other member => ?_
      have notNew : other ≠ mp := by
        intro isNew
        exact notPushed i (isNew ▸ member)
      simp [notNew]
    · rw [elsewhere j same, if_neg (Ne.symm same)]
      exact before

/-- The effect of pushing the message of a call to its next worker. -/
theorem push (ledger : Ledger numWorkers s) (call : progress s t = some (mp, i))
    (more : i < numWorkers) (mstate : s'.mstate = s.mstate)
    (here : progress s' t = some (mp, i + 1)) (elsewhere : ∀ j, j ≠ t → progress s' j = progress s j)
    (log : s'.log = s.log ++ [.pushed t i mp]) : Ledger numWorkers s' := by
  have called := ledger.current t mp i call
  have fresh := ledger.unsent_fresh more call
  have calls : ∀ j, callsOf j s'.log = callsOf j s.log := by simp [log]
  have pushed : ∀ j, pushedTo j s'.log =
      if i = j then pushedTo j s.log ++ [mp] else pushedTo j s.log := by simp [log]
  constructor
  · simpa only [calls, mstate] using ledger.known
  · simpa only [calls] using ledger.caller
  · simpa only [calls] using ledger.once
  · intro j other member
    simp only [calls]
    rw [pushed] at member
    split at member
    · rcases List.mem_append.mp member with old | new
      · exact ledger.called j other old
      · rw [List.mem_singleton] at new
        exact ⟨t, new ▸ called⟩
    · exact ledger.called j other member
  · intro j
    rw [pushed]
    split
    · rename_i same
      exact nodup_concat (ledger.distinct j) (same ▸ fresh)
    · exact ledger.distinct j
  · intro j other next inside
    rw [calls]
    by_cases same : j = t
    · subst j
      rw [here, Option.some.injEq, Prod.mk.injEq] at inside
      exact inside.1 ▸ called
    · rw [elsewhere j same] at inside
      exact ledger.current j other next inside
  · intro j k bound
    have before := ledger.order j k bound
    rw [calls, pushed]
    by_cases same : j = t
    · subst j
      rw [call] at before
      rw [here]
      simp only [unsent] at before ⊢
      by_cases there : i = k
      · subst k
        rw [if_pos (Nat.le_refl i)] at before
        rw [if_pos rfl, if_neg (by omega), List.append_nil, List.filter_append]
        simpa [called] using before
      · have shift : i + 1 ≤ k ↔ i ≤ k := by omega
        rw [if_neg there]
        simpa only [shift] using before
    · have notCalled : mp ∉ callsOf j s.log := fun member =>
        same (ledger.caller j t mp member called)
      rw [elsewhere j same]
      split
      · simpa [List.filter_append, notCalled] using before
      · exact before

/-- The effect of returning once every worker has the message. -/
theorem ret (ledger : Ledger numWorkers s) (call : progress s t = some (mp, i))
    (all : numWorkers ≤ i) (mstate : s'.mstate = s.mstate) (here : progress s' t = none)
    (elsewhere : ∀ j, j ≠ t → progress s' j = progress s j) (log : s'.log = s.log) :
    Ledger numWorkers s' := by
  constructor
  · simpa only [log, mstate] using ledger.known
  · simpa only [log] using ledger.caller
  · simpa only [log] using ledger.once
  · simpa only [log] using ledger.called
  · simpa only [log] using ledger.distinct
  · intro j other next inside
    rw [log]
    by_cases same : j = t
    · subst j
      rw [here] at inside
      cases inside
    · rw [elsewhere j same] at inside
      exact ledger.current j other next inside
  · intro j k bound
    have before := ledger.order j k bound
    rw [log]
    by_cases same : j = t
    · subst j
      rw [call, unsent, if_neg (by omega)] at before
      rw [here]
      exact before
    · rw [elsewhere j same]
      exact before

end Ledger

/-! ### The queue memory -/

/-- The links of every `msg_q` lead through what was pushed to its worker and
not yet popped, and every item stands for its message. -/
structure Linked (numWorkers : Nat) (s : State) : Prop where
  ledger : Ledger numWorkers s
  pending : ∀ i, ∃ waiting : List Msg,
    Queued s.nodes (s.msgQ i) (waiting.map fun mp => (mp, i)) ∧
      poppedBy i s.log ++ waiting = pushedTo i s.log
  values : ∀ i mp, mp ∈ pushedTo i s.log → (s.nodes (mp, i)).p = some mp
  marked : ∀ t mp i, (s.thread t).pushing = some ⟨mp, i, true⟩ →
    i < numWorkers ∧ (s.nodes (mp, i)).p = some mp
  sound : ∀ t, Event.fault t ∉ s.log

private theorem progress_setPushing (s : State) (t j : Nat) (pushing : Option Pushing) :
    progress (s.setPushing t pushing) j =
      if j = t then pushing.map fun call => (call.mp, call.i) else progress s j := by
  rw [progress, State.setPushing_pushing]
  split <;> rfl

private theorem progress_setPhase (s : State) (t j : Nat) (phase : Phase) :
    progress (s.setPhase t phase) j = progress s j := by
  rw [progress, State.setPhase_pushing]
  rfl

namespace Linked

variable {numWorkers : Nat} {s s' : State} {t i : Nat} {mp : Msg}

theorem initial (start : Initial s) : Linked numWorkers s := by
  refine ⟨.initial start, fun i => ⟨[], ?_, ?_⟩, ?_, ?_, ?_⟩
  · rw [start.msgQ]
    exact Queued.init s.nodes
  all_goals simp [start.log, start.thread, pushedTo, poppedBy]

/-- A step that touches neither the queues, nor the calls in progress, nor this
part of the history. -/
theorem frame (linked : Linked numWorkers s) (nodes : s'.nodes = s.nodes) (msgQ : s'.msgQ = s.msgQ)
    (known : ∀ mp, s.mstate mp ≠ .unknown → s'.mstate mp ≠ .unknown)
    (pushing : ∀ t, (s'.thread t).pushing = (s.thread t).pushing)
    (calls : ∀ t, callsOf t s'.log = callsOf t s.log)
    (pushed : ∀ i, pushedTo i s'.log = pushedTo i s.log)
    (popped : ∀ i, poppedBy i s'.log = poppedBy i s.log)
    (sound : ∀ t, Event.fault t ∈ s'.log → Event.fault t ∈ s.log) : Linked numWorkers s' := by
  constructor
  · refine linked.ledger.frame known (fun t => ?_) calls pushed
    rw [progress, pushing]
    rfl
  · simpa only [nodes, msgQ, pushed, popped] using linked.pending
  · simpa only [nodes, pushed] using linked.values
  · simpa only [pushing, nodes] using linked.marked
  · exact fun t fault => linked.sound t (sound t fault)

/-- A popped message was pushed. -/
theorem pushed_of_popped (linked : Linked numWorkers s) (member : mp ∈ poppedBy i s.log) :
    mp ∈ pushedTo i s.log := by
  obtain ⟨waiting, -, split⟩ := linked.pending i
  rw [← split]
  exact List.mem_append_left _ member

theorem enter (linked : Linked numWorkers s) (outside : (s.thread t).pushing = none)
    (fresh : s.mstate mp = .unknown) (owned : Bool) : Linked numWorkers (enter s t mp owned) := by
  have thread : ∀ j, ((Worker.enter s t mp owned).thread j).pushing =
      if j = t then some ⟨mp, 0, false⟩ else (s.thread j).pushing :=
    State.setPushing_pushing s t (some ⟨mp, 0, false⟩)
  have log : (Worker.enter s t mp owned).log = s.log ++ [.queued t mp] := rfl
  constructor
  · refine linked.ledger.enter (by simp [progress, outside]) fresh ?_ ?_ ?_ ?_ log
    · simp [Worker.enter, State.record]
    · intro other different
      exact Function.update_of_ne different _ _
    · simp [progress, thread]
    · intro j different
      simp [progress, thread, different]
  · intro j
    rw [log, poppedBy_queued, pushedTo_queued]
    exact linked.pending j
  · intro j other member
    rw [log, pushedTo_queued] at member
    exact linked.values j other member
  · intro j other k inside
    rw [thread] at inside
    split at inside
    · simp at inside
    · exact linked.marked j other k inside
  · intro j member
    refine linked.sound j ?_
    simpa [log] using member

theorem mark (linked : Linked numWorkers s) (inside : (s.thread t).pushing = some ⟨mp, i, false⟩)
    (more : i < numWorkers) : Linked numWorkers (markNotDone s t mp i) := by
  have values : ∀ {ref other}, (s.nodes ref).p = some other → ref.1 = other →
      ((markNotDone s t mp i).nodes ref).p = some other := by
    intro ref other before same
    simp only [markNotDone, State.setPushing, Items.setP_p]
    split
    · rename_i here
      rw [here] at same
      exact congrArg some same
    · exact before
  constructor
  · refine linked.ledger.frame (fun _ known => known) (fun j => ?_) (fun _ => rfl) fun _ => rfl
    refine (progress_setPushing _ t j _).trans ?_
    split
    · rename_i same
      rw [same, progress, inside]
      rfl
    · rfl
  · intro j
    obtain ⟨waiting, queued, split⟩ := linked.pending j
    exact ⟨waiting, queued.congr fun ref _ => Items.setP_next _ _ _ _, split⟩
  · exact fun j other member => values (linked.values j other member) rfl
  · intro j other k here
    rw [markNotDone, State.setPushing_pushing] at here
    split at here
    · simp only [Option.some.injEq, Pushing.mk.injEq, and_true] at here
      obtain ⟨rfl, rfl⟩ := here
      exact ⟨more, by simp [markNotDone, State.setPushing, Items.setP_p]⟩
    · obtain ⟨bound, before⟩ := linked.marked j other k here
      exact ⟨bound, values before rfl⟩
  · exact linked.sound

theorem ret (linked : Linked numWorkers s) (inside : (s.thread t).pushing = some ⟨mp, i, false⟩)
    (all : numWorkers ≤ i) : Linked numWorkers (s.setPushing t none) := by
  have call : progress s t = some (mp, i) := by simp [progress, inside]
  refine ⟨linked.ledger.ret call all rfl ?_ ?_ rfl, linked.pending, linked.values, ?_, linked.sound⟩
  · simp [progress_setPushing]
  · intro j different
    rw [progress_setPushing, if_neg different]
  · intro j other k here
    rw [State.setPushing_pushing] at here
    split at here
    · cases here
    · exact linked.marked j other k here

/-- A push onto one queue leaves the items of the others alone. -/
theorem push (linked : Linked numWorkers s) (inside : (s.thread t).pushing = some ⟨mp, i, true⟩) :
    Linked numWorkers (wMessagePush s t mp i) := by
  obtain ⟨more, value⟩ := linked.marked t mp i inside
  have call : progress s t = some (mp, i) := by simp [progress, inside]
  have fresh := linked.ledger.unsent_fresh more call
  obtain ⟨waiting, queued, split⟩ := linked.pending i
  have notWaiting : (mp, i) ∉ waiting.map fun other => (other, i) := by
    intro member
    refine fresh ?_
    rw [← split]
    exact List.mem_append_right _ (by simpa using member)
  obtain ⟨nodes, q, pushes, extended, others, valuesKept⟩ := queued.push notWaiting
  simp only [wMessagePush, pushes]
  constructor
  · refine linked.ledger.push call more rfl ?_ ?_ rfl
    · exact (progress_setPushing _ t t _).trans (by simp)
    · intro j different
      exact (progress_setPushing _ t j _).trans (if_neg different)
  · intro j
    simp only [State.record, State.setPushing, poppedBy_pushed, pushedTo_pushed]
    by_cases same : i = j
    · subst j
      rw [Function.update_self, if_pos rfl]
      refine ⟨waiting ++ [mp], by simpa using extended, ?_⟩
      rw [← List.append_assoc, split]
    · rw [Function.update_of_ne (Ne.symm same), if_neg same]
      obtain ⟨waiting', queued', split'⟩ := linked.pending j
      refine ⟨waiting', queued'.congr fun ref member => ?_, split'⟩
      obtain ⟨other, -, rfl⟩ := List.mem_map.mp member
      rw [others (other, j) (by simp [same]) (by simp [Ne.symm same])]
  · intro j other member
    refine (valuesKept (other, j)).trans ?_
    simp only [State.record, State.setPushing, pushedTo_pushed] at member
    split at member
    · rename_i same
      rcases List.mem_append.mp member with old | new
      · exact linked.values j other old
      · rw [List.mem_singleton.mp new, ← same]
        exact value
    · exact linked.values j other member
  · intro j other k here
    refine ⟨?_, (valuesKept (other, k)).trans ?_⟩
    all_goals
      simp only [State.record] at here
      rw [State.setPushing_pushing] at here
      split at here
      · simp at here
    · exact (linked.marked j other k here).1
    · exact (linked.marked j other k here).2
  · intro j member
    refine linked.sound j ?_
    simpa [State.record, State.setPushing] using member

/-- A pop finds the queue empty, or takes the oldest message that the worker
has not popped yet. -/
theorem pop_cases (linked : Linked numWorkers s) (t : Nat) :
    wMessagePop s t = s ∨ ∃ mp waiting q, poppedBy t s.log ++ mp :: waiting = pushedTo t s.log ∧
      Queued s.nodes q (waiting.map fun mp => (mp, t)) ∧
      wMessagePop s t = State.record
        (State.setPhase { s with msgQ := Function.update s.msgQ t q } t (.searching mp))
        (.popped t mp (s.mstate mp)) := by
  obtain ⟨waiting, queued, split⟩ := linked.pending t
  obtain ⟨popsHead, rest⟩ := queued.pop
  cases waiting with
  | nil =>
      have empty : queuePop s.nodes (s.msgQ t) = (none, (queuePop s.nodes (s.msgQ t)).2) :=
        Prod.ext popsHead rfl
      left
      rw [wMessagePop, empty]
  | cons mp waiting =>
      have first : queuePop s.nodes (s.msgQ t) =
          (some (mp, t), (queuePop s.nodes (s.msgQ t)).2) := Prod.ext popsHead rfl
      have value : (s.nodes (mp, t)).p = some mp := by
        refine linked.values t mp ?_
        rw [← split]
        simp
      refine .inr ⟨mp, waiting, _, split, rest, ?_⟩
      rw [wMessagePop, first]
      simp only [value]

theorem pop (linked : Linked numWorkers s) : Linked numWorkers (wMessagePop s t) := by
  rcases linked.pop_cases t with same | ⟨mp, waiting, q, split, rest, result⟩
  · rwa [same]
  · rw [result]
    constructor
    · refine linked.ledger.frame (fun _ known => known) (fun j => ?_) ?_ ?_
      · exact progress_setPhase _ t j _
      · simp [State.record, State.setPhase]
      · simp [State.record, State.setPhase]
    · intro j
      simp only [State.record, State.setPhase, poppedBy_popped, pushedTo_popped]
      by_cases same : t = j
      · subst j
        rw [Function.update_self, if_pos rfl]
        exact ⟨waiting, rest, by simpa using split⟩
      · rw [Function.update_of_ne (Ne.symm same), if_neg same]
        exact linked.pending j
    · intro j other member
      refine linked.values j other ?_
      simpa [State.record, State.setPhase] using member
    · intro j other k here
      refine linked.marked j other k (Eq.trans ?_ here)
      exact (State.setPhase_pushing _ t _ j).symm
    · intro j member
      refine linked.sound j ?_
      simpa [State.record, State.setPhase] using member

theorem clear (linked : Linked numWorkers s) : Linked numWorkers (clearNotDone s t mp) := by
  refine linked.frame rfl rfl (fun _ known => known) (State.setPhase_pushing _ t _) ?_ ?_ ?_ ?_ <;>
    simp [clearNotDone, State.record, State.setPhase, callsOf, pushedTo, poppedBy]

theorem collect (linked : Linked numWorkers s) : Linked numWorkers (collectOwned s t mp) := by
  unfold collectOwned
  split
  · split
    · refine linked.frame rfl rfl (fun _ known => known) (fun _ => rfl) ?_ ?_ ?_ ?_ <;>
        simp [State.record, callsOf, pushedTo, poppedBy]
    · refine linked.frame rfl rfl (fun _ known => known) (State.setPhase_pushing _ t _)
        ?_ ?_ ?_ ?_ <;>
        simp [State.record, State.setPhase, callsOf, pushedTo, poppedBy]
  · exact linked.frame rfl rfl (fun _ known => known) (State.setPhase_pushing s t _)
      (fun _ => rfl) (fun _ => rfl) (fun _ => rfl) (fun _ fault => fault)

theorem setPhase (linked : Linked numWorkers s) (phase : Phase) :
    Linked numWorkers (s.setPhase t phase) :=
  linked.frame rfl rfl (fun _ known => known) (s.setPhase_pushing t phase)
    (fun _ => rfl) (fun _ => rfl) (fun _ => rfl) (fun _ fault => fault)

theorem peek (linked : Linked numWorkers s) : Linked numWorkers (gcPeek s t) := by
  unfold gcPeek
  split
  · exact linked
  · split
    · refine linked.frame rfl rfl (fun _ known => known) (fun _ => rfl) ?_ ?_ ?_ ?_ <;>
        simp [State.record, callsOf, pushedTo, poppedBy]
    · exact linked.setPhase _

theorem reclaim (linked : Linked numWorkers s) (notDone : Bool) :
    Linked numWorkers (gcReclaim s t mp notDone) := by
  unfold gcReclaim
  split
  · exact linked.setPhase _
  · refine linked.frame rfl rfl (fun other known => ?_) (State.setPhase_pushing _ t _) ?_ ?_ ?_ ?_
    · by_cases same : other = mp
      · subst other
        simp [State.record, State.setPhase]
      · simpa [State.record, State.setPhase, same] using known
    all_goals simp [State.record, State.setPhase, callsOf, pushedTo, poppedBy]

/-- One step of any thread keeps the queues and the history together. -/
theorem step {numServers : Nat} {op : Op} (linked : Linked numWorkers s)
    (stepped : Step numWorkers numServers s t op s') : Linked numWorkers s' := by
  cases stepped with
  | call outside _ fresh => exact linked.enter outside fresh _
  | mark inside more => exact linked.mark inside more
  | push inside => exact linked.push inside
  | ret inside all => exact linked.ret inside all
  | pop => exact linked.pop
  | clear => exact linked.clear
  | collect => exact linked.collect
  | peek => exact linked.peek
  | scan => exact linked.setPhase _
  | reclaim => exact linked.reclaim _

theorem reachable {numServers : Nat} (reached : (workers numWorkers numServers).Reachable s) :
    Linked numWorkers s :=
  reached.invariant (fun _ start => .initial start) fun _ _ _ _ linked stepped =>
    linked.step (step_inv stepped).2

/-- A thread outside `workers_queue_message` has pushed all its messages. -/
theorem all_pushed (linked : Linked numWorkers s) (outside : (s.thread t).pushing = none)
    (called : mp ∈ callsOf t s.log) (more : i < numWorkers) : mp ∈ pushedTo i s.log := by
  have order := linked.ledger.order t i more
  simp only [progress, outside, Option.map_none, unsent, List.append_nil] at order
  rw [← order] at called
  exact List.mem_of_mem_filter called

/-- What was pushed to a worker by a thread is an initial part of its calls. -/
theorem pushed_isPrefix (linked : Linked numWorkers s) (more : i < numWorkers) (t : Nat) :
    (pushedTo i s.log).filter (· ∈ callsOf t s.log) <+: callsOf t s.log :=
  ⟨_, linked.ledger.order t i more⟩

end Linked

/-- At every point of every interleaving and for every worker: the links of its
`msg_q` lead through exactly the messages pushed to it and not yet popped, in
push order; it popped no message twice; the messages of each thread it popped
are an initial part of those the thread queued, in that order; and a thread
that is not inside `workers_queue_message` has pushed to it all the messages it
queued. No null pointer is followed. -/
theorem fanout_exactly_once_in_order {numWorkers numServers : Nat} {s : State}
    (reached : (workers numWorkers numServers).Reachable s) :
    (∀ i, i < numWorkers →
      (∃ waiting : List Msg, Queued s.nodes (s.msgQ i) (waiting.map fun mp => (mp, i)) ∧
        poppedBy i s.log ++ waiting = pushedTo i s.log) ∧
      (poppedBy i s.log).Nodup ∧ (pushedTo i s.log).Nodup ∧
      ∀ t, (poppedBy i s.log).filter (· ∈ callsOf t s.log) <+: callsOf t s.log ∧
        ((s.thread t).pushing = none → ∀ mp ∈ callsOf t s.log, mp ∈ pushedTo i s.log)) ∧
    ∀ t, Event.fault t ∉ s.log := by
  have linked := Linked.reachable reached
  refine ⟨fun i more => ?_, linked.sound⟩
  have popped : poppedBy i s.log <+: pushedTo i s.log := by
    obtain ⟨waiting, -, split⟩ := linked.pending i
    exact ⟨waiting, split⟩
  have distinct := linked.ledger.distinct i
  refine ⟨linked.pending i, distinct.sublist popped.sublist, distinct, fun t => ⟨?_, ?_⟩⟩
  · exact (popped.filter _).trans (linked.pushed_isPrefix more t)
  · exact fun outside mp called => linked.all_pushed outside called more

/-- A thread queues two messages to two workers, and the second worker pops both. -/
def queueTwo : List Act :=
  [⟨0, .call 7 true⟩, ⟨0, .mark⟩, ⟨0, .push⟩, ⟨0, .mark⟩, ⟨0, .push⟩, ⟨0, .ret⟩,
    ⟨0, .call 8 true⟩, ⟨0, .mark⟩, ⟨0, .push⟩, ⟨0, .mark⟩, ⟨0, .push⟩, ⟨0, .ret⟩,
    ⟨1, .pop⟩, ⟨1, .clear⟩, ⟨1, .collect⟩, ⟨1, .pop⟩]

/-- It pops them in the order in which they were queued. -/
theorem fanout_exactly_once_in_order_two_workers :
    ∃ s, (workers 2 1).run start queueTwo = some s ∧ poppedBy 1 s.log = [7, 8] ∧
      (poppedBy 1 s.log).filter (· ∈ callsOf 0 s.log) <+: callsOf 0 s.log ∧
      ∃ waiting : List Msg, Queued s.nodes (s.msgQ 0) (waiting.map fun mp => (mp, 0)) ∧
        poppedBy 0 s.log ++ waiting = pushedTo 0 s.log := by
  obtain ⟨s, ran, popped⟩ : ∃ s, (workers 2 1).run start queueTwo = some s ∧
      poppedBy 1 s.log = [7, 8] := ⟨_, rfl, rfl⟩
  have fanout := (fanout_exactly_once_in_order (System.Reachable.run (.start start_initial) ran)).1
  exact ⟨s, ran, popped, ((fanout 1 (by decide)).2.2.2 0).1, (fanout 0 (by decide)).1⟩

end FbBroker.Worker
