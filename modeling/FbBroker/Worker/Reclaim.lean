import FbBroker.Worker.Fanout

/-!
Contract: the release of messages by `w_gc`.

`Flagged` says what a cleared `not_done` flag means, `Collected` what the
`gc_q` of a worker holds, and `Reclaimed` what a finished scan of the flags
proves. `message_done` reads one flag per configured server, so the scan covers
every worker exactly when there are at least as many servers as workers.
-/

set_option autoImplicit false

namespace FbBroker.Worker

open FbBroker.Lib FbBroker.Queue

/-! ### The flags -/

/-- A message pushed to a worker stays flagged until the worker has finished
with it. -/
structure Flagged (s : State) : Prop where
  flagged : ∀ i mp, mp ∈ pushedTo i s.log → s.notDone mp i = true ∨ mp ∈ finishedBy i s.log
  marking : ∀ t mp i, (s.thread t).pushing = some ⟨mp, i, true⟩ → s.notDone mp i = true
  searching : ∀ t mp, (s.thread t).phase = .searching mp → mp ∈ poppedBy t s.log
  finished : ∀ i mp, mp ∈ finishedBy i s.log → mp ∈ poppedBy i s.log

namespace Flagged

variable {numWorkers : Nat} {s s' : State} {t i : Nat} {mp : Msg}

theorem initial (start : Initial s) : Flagged s := by
  constructor <;> simp [start.log, start.thread, pushedTo, finishedBy]

/-- A step that writes no flag, starts no search and sets no mark. -/
theorem frame (before : Flagged s) (notDone : s'.notDone = s.notDone)
    (pushing : ∀ t call, call.marked = true → (s'.thread t).pushing = some call →
      (s.thread t).pushing = some call)
    (phase : ∀ t mp, (s'.thread t).phase = .searching mp → (s.thread t).phase = .searching mp)
    (pushed : ∀ i, pushedTo i s'.log = pushedTo i s.log)
    (popped : ∀ i, poppedBy i s'.log = poppedBy i s.log)
    (finished : ∀ i, finishedBy i s'.log = finishedBy i s.log) : Flagged s' := by
  constructor
  · simpa only [notDone, pushed, finished] using before.flagged
  · intro t mp i inside
    rw [notDone]
    exact before.marking t mp i (pushing t _ rfl inside)
  · intro t mp here
    rw [popped]
    exact before.searching t mp (phase t mp here)
  · simpa only [finished, popped] using before.finished

theorem enter (before : Flagged s) (owned : Bool) : Flagged (enter s t mp owned) := by
  have thread : (Worker.enter s t mp owned).thread = (s.setPushing t (some ⟨mp, 0, false⟩)).thread :=
    rfl
  refine before.frame rfl (fun j call isMarked inside => ?_) (fun j other here => ?_) ?_ ?_ ?_
  · rw [thread, State.setPushing_pushing] at inside
    split at inside
    · rw [← Option.some.inj inside] at isMarked
      cases isMarked
    · exact inside
  · rwa [thread, State.setPushing_phase] at here
  all_goals simp [Worker.enter, State.record, pushedTo, poppedBy, finishedBy]

theorem mark (before : Flagged s) : Flagged (markNotDone s t mp i) := by
  have kept : ∀ other j, s.notDone other j = true →
      (markNotDone s t mp i).notDone other j = true := by
    intro other j flag
    by_cases sameMp : other = mp
    · subst other
      by_cases sameI : j = i
      · simp [markNotDone, State.setPushing, sameI]
      · simpa [markNotDone, State.setPushing, sameI] using flag
    · simpa [markNotDone, State.setPushing, sameMp] using flag
  constructor
  · intro j other member
    exact (before.flagged j other member).imp_left (kept other j)
  · intro j other k inside
    rw [markNotDone, State.setPushing_pushing] at inside
    split at inside
    · simp only [Option.some.injEq, Pushing.mk.injEq, and_true] at inside
      simp [markNotDone, State.setPushing, inside.1, inside.2]
    · exact kept other k (before.marking j other k inside)
  · intro j other here
    rw [markNotDone, State.setPushing_phase] at here
    exact before.searching j other here
  · exact before.finished

theorem push (before : Flagged s) (inside : (s.thread t).pushing = some ⟨mp, i, true⟩) : Flagged (wMessagePush s t mp i) := by
  have flag := before.marking t mp i inside
  unfold wMessagePush
  split
  · refine before.frame rfl (fun _ _ _ inside => inside) (fun _ _ here => here) ?_ ?_ ?_ <;>
      simp [State.record, pushedTo, poppedBy, finishedBy]
  · constructor
    · intro j other member
      simp only [State.record, State.setPushing, pushedTo_pushed] at member
      have same : finishedBy j (s.log ++ [.pushed t i mp]) = finishedBy j s.log := by
        simp [finishedBy]
      simp only [State.record, State.setPushing, same]
      split at member
      · rcases List.mem_append.mp member with old | new
        · exact before.flagged j other old
        · rename_i here
          rw [List.mem_singleton.mp new, ← here]
          exact .inl flag
      · exact before.flagged j other member
    · intro j other k here
      simp only [State.record] at here
      rw [State.setPushing_pushing] at here
      split at here
      · simp at here
      · exact before.marking j other k here
    · intro j other here
      simp only [State.record] at here
      rw [State.setPushing_phase] at here
      simpa [State.record, State.setPushing] using before.searching j other here
    · simpa [State.record, State.setPushing, finishedBy, poppedBy] using before.finished

theorem ret (before : Flagged s) : Flagged (s.setPushing t none) := by
  refine before.frame rfl (fun j call _ inside => ?_) (fun j other here => ?_) (fun _ => rfl)
    (fun _ => rfl) fun _ => rfl
  · rw [State.setPushing_pushing] at inside
    split at inside
    · cases inside
    · exact inside
  · rwa [State.setPushing_phase] at here

theorem pop (before : Flagged s) (linked : Linked numWorkers s) : Flagged (wMessagePop s t) := by
  rcases linked.pop_cases t with same | ⟨mp, waiting, q, split, -, result⟩
  · rwa [same]
  · rw [result]
    have popped : ∀ j other, other ∈ poppedBy j s.log →
        other ∈ poppedBy j (s.log ++ [.popped t mp (s.mstate mp)]) :=
      fun _ _ member => mem_poppedBy_append _ _ member _
    have finished : ∀ j, finishedBy j (s.log ++ [.popped t mp (s.mstate mp)]) = finishedBy j s.log := by
      simp [finishedBy]
    constructor
    · intro j other member
      simp only [State.record, State.setPhase, pushedTo_popped, finished] at member ⊢
      exact before.flagged j other member
    · intro j other k inside
      refine before.marking j other k (Eq.trans ?_ inside)
      exact (State.setPhase_pushing _ t _ j).symm
    · intro j other here
      simp only [State.record] at here
      rw [State.setPhase_phase] at here
      split at here
      · rename_i same
        simp [State.record, State.setPhase, Phase.searching.inj here, same]
      · exact popped j other (before.searching j other here)
    · intro j other member
      simp only [State.record, State.setPhase, finished] at member
      exact popped j other (before.finished j other member)

/-- Clearing a flag records that the worker has finished. -/
theorem clear (before : Flagged s) (linked : Linked numWorkers s)
    (here : (s.thread t).phase = .searching mp) : Flagged (clearNotDone s t mp) := by
  have popped := before.searching t mp here
  have same : ∀ j, poppedBy j (clearNotDone s t mp).log = poppedBy j s.log := by
    simp [clearNotDone, State.record, State.setPhase, poppedBy]
  have finished : ∀ j, finishedBy j (clearNotDone s t mp).log =
      if t = j then finishedBy j s.log ++ [mp] else finishedBy j s.log := by
    intro j
    by_cases sameJ : t = j <;> simp [clearNotDone, State.record, State.setPhase, finishedBy, sameJ]
  have kept : ∀ other j, (other ≠ mp ∨ j ≠ t) →
      (clearNotDone s t mp).notDone other j = s.notDone other j := by
    intro other j different
    by_cases sameMp : other = mp
    · subst other
      simp [clearNotDone, State.record, State.setPhase, different.resolve_left (fun no => no rfl)]
    · simp [clearNotDone, State.record, State.setPhase, sameMp]
  constructor
  · intro j other member
    have pushed : other ∈ pushedTo j s.log := by
      simpa [clearNotDone, State.record, State.setPhase, pushedTo] using member
    rw [finished]
    by_cases sameJ : t = j <;> by_cases sameMp : other = mp
    · exact .inr (by simp [sameJ, sameMp])
    · rw [kept other j (.inl sameMp), if_pos sameJ]
      exact (before.flagged j other pushed).imp_right (List.mem_append_left _)
    · rw [kept other j (.inr (Ne.symm sameJ)), if_neg sameJ]
      exact before.flagged j other pushed
    · rw [kept other j (.inl sameMp), if_neg sameJ]
      exact before.flagged j other pushed
  · intro j other k inside
    have insideBefore : (s.thread j).pushing = some ⟨other, k, true⟩ :=
      (State.setPhase_pushing _ t _ j).symm.trans inside
    -- a message being pushed to a worker cannot have been popped by it
    have different : other ≠ mp ∨ k ≠ t := by
      by_contra both
      simp only [not_or, not_not] at both
      obtain ⟨rfl, rfl⟩ := both
      have call : progress s j = some (other, k) := by simp [progress, insideBefore]
      exact linked.ledger.unsent_fresh (linked.marked j other k insideBefore).1 call
        (linked.pushed_of_popped popped)
    rw [kept other k different]
    exact before.marking j other k insideBefore
  · intro j other phase
    rw [same]
    simp only [clearNotDone, State.record] at phase
    exact before.searching j other (State.phase_of_setPhase phase (by simp)).2
  · intro j other member
    rw [same]
    rw [finished] at member
    split at member
    · rename_i sameJ
      rcases List.mem_append.mp member with old | new
      · exact before.finished j other old
      · rw [List.mem_singleton.mp new, ← sameJ]
        exact popped
    · exact before.finished j other member

/-- A step of `w_gc` or the end of `w_deliver`: the thread changes its phase and
the history gets events of the collection only. -/
theorem aside {phase : Phase} (before : Flagged s) (notDone : s'.notDone = s.notDone)
    (thread : s'.thread = (s.setPhase t phase).thread) (quiet : ∀ mp, phase ≠ .searching mp)
    (pushed : ∀ i, pushedTo i s'.log = pushedTo i s.log)
    (popped : ∀ i, poppedBy i s'.log = poppedBy i s.log)
    (finished : ∀ i, finishedBy i s'.log = finishedBy i s.log) : Flagged s' := by
  refine before.frame notDone (fun j call _ inside => ?_) (fun j other here => ?_) pushed popped
    finished
  · rwa [thread, State.setPhase_pushing] at inside
  · rw [thread] at here
    exact (State.phase_of_setPhase here (quiet other)).2

theorem step {numServers : Nat} {op : Op} (before : Flagged s) (linked : Linked numWorkers s)
    (stepped : Step numWorkers numServers s t op s') : Flagged s' := by
  cases stepped with
  | call => exact before.enter _
  | mark => exact before.mark
  | push inside => exact before.push inside
  | ret => exact before.ret
  | pop => exact before.pop linked
  | clear _ here => exact before.clear linked here
  | collect =>
      unfold collectOwned
      split
      · split
        · refine before.frame rfl (fun _ _ _ inside => inside) (fun _ _ here => here) ?_ ?_ ?_ <;>
            simp [State.record, pushedTo, poppedBy, finishedBy]
        · refine before.aside rfl rfl (by simp) ?_ ?_ ?_ <;>
            simp [State.record, State.setPhase, pushedTo, poppedBy, finishedBy]
      · exact before.aside rfl rfl (by simp) (fun _ => rfl) (fun _ => rfl) fun _ => rfl
  | peek =>
      unfold gcPeek
      split
      · exact before
      · split
        · refine before.frame rfl (fun _ _ _ inside => inside) (fun _ _ here => here) ?_ ?_ ?_ <;>
            simp [State.record, pushedTo, poppedBy, finishedBy]
        · exact before.aside rfl rfl (by simp) (fun _ => rfl) (fun _ => rfl) fun _ => rfl
  | scan => exact before.aside rfl rfl (by simp) (fun _ => rfl) (fun _ => rfl) fun _ => rfl
  | reclaim =>
      unfold gcReclaim
      split
      · exact before.aside rfl rfl (by simp) (fun _ => rfl) (fun _ => rfl) fun _ => rfl
      · refine before.aside rfl rfl (by simp) ?_ ?_ ?_ <;>
          simp [State.record, State.setPhase, pushedTo, poppedBy, finishedBy]

end Flagged

/-! ### The collection queues -/

/-- The `gc_q` of a worker holds the messages it owns, has delivered and has
not freed, all of them pushed to every worker. -/
structure Collected (numWorkers : Nat) (s : State) : Prop where
  pending : ∀ t, ∃ waiting : List Msg, Queued s.gcNode (s.gcQ t) waiting ∧
    freedBy t s.log ++ waiting = collectedBy t s.log
  values : ∀ t mp, mp ∈ collectedBy t s.log → (s.gcNode mp).p = some mp
  once : ∀ t, (collectedBy t s.log).Nodup
  popped : ∀ t mp, mp ∈ collectedBy t s.log → mp ∈ poppedBy t s.log
  owned : ∀ t mp, mp ∈ collectedBy t s.log → s.owner mp = some t
  owner : ∀ t mp, s.mstate mp ≠ .unknown → s.owner mp = some t → mp ∈ callsOf t s.log
  complete : ∀ t mp i, mp ∈ collectedBy t s.log → i < numWorkers → mp ∈ pushedTo i s.log
  delivering : ∀ t mp, (s.thread t).phase = .searching mp ∨ (s.thread t).phase = .cleared mp →
    mp ∈ poppedBy t s.log ∧ mp ∉ collectedBy t s.log
  scanning : ∀ t mp i notDone, (s.thread t).phase = .scanning mp i notDone →
    queuePeek (s.gcQ t) = some mp
  sound : ∀ t, Event.gcFault t ∉ s.log

namespace Collected

variable {numWorkers : Nat} {s s' : State} {t i : Nat} {mp : Msg}

theorem initial (start : Initial s) : Collected numWorkers s := by
  refine ⟨fun t => ⟨[], ?_, ?_⟩, ?_, ?_, ?_, ?_, ?_, ?_, ?_, ?_, ?_⟩
  · rw [start.gcQ]
    exact Queued.init s.gcNode
  all_goals simp [start.log, start.thread, start.mstate, collectedBy, freedBy]

/-- A step that leaves the collection queues alone: it has to account for the
phases and the owners it changes. -/
theorem update (before : Collected numWorkers s) (gcNode : s'.gcNode = s.gcNode)
    (gcQ : s'.gcQ = s.gcQ)
    (owner : ∀ t mp, s'.mstate mp ≠ .unknown → s'.owner mp = some t → mp ∈ callsOf t s'.log)
    (owned : ∀ t mp, mp ∈ collectedBy t s.log → s'.owner mp = s.owner mp)
    (delivering : ∀ t mp, (s'.thread t).phase = .searching mp ∨ (s'.thread t).phase = .cleared mp →
      mp ∈ poppedBy t s'.log ∧ mp ∉ collectedBy t s.log)
    (scanning : ∀ t mp i notDone, (s'.thread t).phase = .scanning mp i notDone →
      queuePeek (s.gcQ t) = some mp)
    (pushed : ∀ i mp, mp ∈ pushedTo i s.log → mp ∈ pushedTo i s'.log)
    (popped : ∀ i mp, mp ∈ poppedBy i s.log → mp ∈ poppedBy i s'.log)
    (collected : ∀ i, collectedBy i s'.log = collectedBy i s.log)
    (freed : ∀ i, freedBy i s'.log = freedBy i s.log)
    (sound : ∀ t, Event.gcFault t ∈ s'.log → Event.gcFault t ∈ s.log) : Collected numWorkers s' := by
  constructor
  · simpa only [gcNode, gcQ, collected, freed] using before.pending
  · simpa only [gcNode, collected] using before.values
  · simpa only [collected] using before.once
  · intro t mp member
    rw [collected] at member
    exact popped t mp (before.popped t mp member)
  · intro t mp member
    rw [collected] at member
    rw [owned t mp member]
    exact before.owned t mp member
  · exact owner
  · intro t mp i member more
    rw [collected] at member
    exact pushed i mp (before.complete t mp i member more)
  · simpa only [collected] using delivering
  · simpa only [gcQ] using scanning
  · exact fun t fault => before.sound t (sound t fault)

/-- A step that changes no phase either. -/
theorem frame (before : Collected numWorkers s) (gcNode : s'.gcNode = s.gcNode)
    (gcQ : s'.gcQ = s.gcQ) (owners : s'.owner = s.owner) (mstate : s'.mstate = s.mstate)
    (phase : ∀ t, (s'.thread t).phase = (s.thread t).phase)
    (calls : ∀ t, callsOf t s'.log = callsOf t s.log)
    (pushed : ∀ i mp, mp ∈ pushedTo i s.log → mp ∈ pushedTo i s'.log)
    (popped : ∀ i, poppedBy i s'.log = poppedBy i s.log)
    (collected : ∀ i, collectedBy i s'.log = collectedBy i s.log)
    (freed : ∀ i, freedBy i s'.log = freedBy i s.log)
    (sound : ∀ t, Event.gcFault t ∈ s'.log → Event.gcFault t ∈ s.log) : Collected numWorkers s' := by
  refine before.update gcNode gcQ ?_ ?_ ?_ ?_ pushed ?_ collected freed sound
  · simpa only [mstate, owners, calls] using before.owner
  · exact fun _ _ _ => by rw [owners]
  · simpa only [phase, popped] using before.delivering
  · simpa only [phase] using before.scanning
  · exact fun i mp member => by rwa [popped]

/-- A collected message has been allocated. -/
theorem known (before : Collected numWorkers s) (linked : Linked numWorkers s)
    (member : mp ∈ collectedBy t s.log) : s.mstate mp ≠ .unknown := by
  obtain ⟨j, called⟩ := linked.ledger.called t mp (linked.pushed_of_popped (before.popped t mp member))
  exact linked.ledger.known j mp called

/-- The queue of another worker holds other messages: they have another owner. -/
theorem foreign (before : Collected numWorkers s) {j : Nat} {ref : Msg} (isOwner : s.owner mp = some t)
    (different : t ≠ j) (member : ref ∈ collectedBy j s.log) : ref ≠ mp ∧ ref ∉ collectedBy t s.log := by
  have theirs := before.owned j ref member
  have notOurs : s.owner ref ≠ some t := by
    rw [theirs]
    simpa [eq_comm] using different
  exact ⟨fun isNew => notOurs (isNew ▸ isOwner), fun ours => notOurs (before.owned t ref ours)⟩

theorem enter (before : Collected numWorkers s) (linked : Linked numWorkers s)
    (fresh : s.mstate mp = .unknown) (owned : Bool) :
    Collected numWorkers (enter s t mp owned) := by
  have log : (Worker.enter s t mp owned).log = s.log ++ [.queued t mp] := rfl
  have phase : ∀ j, ((Worker.enter s t mp owned).thread j).phase = (s.thread j).phase :=
    s.setPushing_phase t (some ⟨mp, 0, false⟩)
  refine before.update rfl rfl ?_ ?_ ?_ ?_ ?_ ?_ ?_ ?_ ?_
  · intro j other known owner
    rw [log, callsOf_queued]
    by_cases same : other = mp
    · subst other
      have isOwner : (if owned then some t else none) = some j := by
        simpa [Worker.enter, State.record] using owner
      cases owned with
      | false => simp at isOwner
      | true =>
          have here : t = j := by simpa using isOwner
          simp [here]
    · have called : other ∈ callsOf j s.log := by
        refine before.owner j other ?_ ?_
        · simpa [Worker.enter, State.record, same] using known
        · simpa [Worker.enter, State.record, same] using owner
      split
      · exact List.mem_append_left _ called
      · exact called
  · intro j other member
    have different : other ≠ mp := by
      intro same
      exact before.known linked member (same ▸ fresh)
    simp [Worker.enter, State.record, different]
  · intro j other here
    rw [phase] at here
    rw [log, poppedBy_queued]
    exact before.delivering j other here
  · intro j other k notDone here
    rw [phase] at here
    exact before.scanning j other k notDone here
  all_goals simp [log, collectedBy, freedBy]

/-- The message just popped is not collected yet. -/
theorem pop (before : Collected numWorkers s) (linked : Linked numWorkers s) :
    Collected numWorkers (wMessagePop s t) := by
  rcases linked.pop_cases t with same | ⟨mp, waiting, q, split, -, result⟩
  · rwa [same]
  · rw [result]
    have distinct := linked.ledger.distinct t
    rw [← split] at distinct
    have notPopped : mp ∉ poppedBy t s.log := fun member =>
      List.disjoint_of_nodup_append distinct member (List.mem_cons_self)
    have popped : ∀ j other, other ∈ poppedBy j s.log →
        other ∈ poppedBy j (s.log ++ [.popped t mp (s.mstate mp)]) :=
      fun _ _ member => mem_poppedBy_append _ _ member _
    refine before.update rfl rfl ?_ (fun _ _ _ => rfl) ?_ ?_ ?_ popped ?_ ?_ ?_
    · intro j other known owner
      simpa [State.record, State.setPhase] using before.owner j other known owner
    · intro j other here
      simp only [State.record] at here
      rw [State.setPhase_phase] at here
      split at here
      · rename_i same
        have isNew : mp = other := by simpa using here
        subst other j
        refine ⟨by simp [State.record, State.setPhase], fun member => notPopped ?_⟩
        exact before.popped t mp member
      · have old := before.delivering j other here
        exact ⟨popped j other old.1, old.2⟩
    · intro j other k notDone here
      simp only [State.record] at here
      exact before.scanning j other k notDone (State.phase_of_setPhase here (by simp)).2
    all_goals simp [State.record, State.setPhase, collectedBy, freedBy]

theorem clear (before : Collected numWorkers s) (here : (s.thread t).phase = .searching mp) :
    Collected numWorkers (clearNotDone s t mp) := by
  have popped : ∀ j, poppedBy j (clearNotDone s t mp).log = poppedBy j s.log := by
    simp [clearNotDone, State.record, State.setPhase, poppedBy]
  refine before.update rfl rfl ?_ (fun _ _ _ => rfl) ?_ ?_ ?_ ?_ ?_ ?_ ?_
  · intro j other known owner
    simpa [clearNotDone, State.record, State.setPhase, callsOf] using before.owner j other known owner
  · intro j other phase
    rw [popped]
    simp only [clearNotDone, State.record] at phase
    rw [State.setPhase_phase] at phase
    split at phase
    · rename_i same
      have isCleared : mp = other := by simpa using phase
      subst other j
      exact before.delivering t mp (.inl here)
    · exact before.delivering j other phase
  · intro j other k notDone phase
    simp only [clearNotDone, State.record] at phase
    exact before.scanning j other k notDone (State.phase_of_setPhase phase (by simp)).2
  all_goals
    simp [clearNotDone, State.record, State.setPhase, collectedBy, freedBy, pushedTo, poppedBy]

/-- A change of phase to one outside `w_deliver`, with nothing recorded. -/
theorem setPhase (before : Collected numWorkers s) {phase : Phase}
    (quiet : ∀ mp, phase ≠ .searching mp ∧ phase ≠ .cleared mp)
    (scanning : ∀ mp i notDone, phase = .scanning mp i notDone → queuePeek (s.gcQ t) = some mp) :
    Collected numWorkers (s.setPhase t phase) := by
  refine before.update rfl rfl before.owner (fun _ _ _ => rfl) ?_ ?_ (fun _ _ member => member)
    (fun _ _ member => member) (fun _ => rfl) (fun _ => rfl) (fun _ fault => fault)
  · intro j other here
    rw [State.setPhase_phase] at here
    split at here
    · rcases here with here | here
      · exact absurd here (quiet other).1
      · exact absurd here (quiet other).2
    · exact before.delivering j other here
  · intro j other k notDone here
    rw [State.setPhase_phase] at here
    split at here
    · rename_i same
      rw [same]
      exact scanning other k notDone here
    · exact before.scanning j other k notDone here

/-- The end of `w_deliver` for a message: its owner keeps it. -/
theorem collect (before : Collected numWorkers s) (linked : Linked numWorkers s)
    (outside : (s.thread t).pushing = none) (here : (s.thread t).phase = .cleared mp) :
    Collected numWorkers (collectOwned s t mp) := by
  unfold collectOwned
  split
  · rename_i isOwner
    obtain ⟨popped, notCollected⟩ := before.delivering t mp (.inr here)
    obtain ⟨waiting, queued, split⟩ := before.pending t
    have inCollected : ∀ ref ∈ waiting, ref ∈ collectedBy t s.log := fun ref member => by
      rw [← split]
      exact List.mem_append_right _ member
    have marked : Queued (s.gcNode.setP mp (some mp)) (s.gcQ t) waiting :=
      queued.congr fun ref _ => Items.setP_next _ _ _ _
    obtain ⟨gcNode, q, pushes, extended, others, valuesKept⟩ :=
      marked.push fun member => notCollected (inCollected mp member)
    have known : s.mstate mp ≠ .unknown := by
      obtain ⟨j, called⟩ := linked.ledger.called t mp (linked.pushed_of_popped popped)
      exact linked.ledger.known j mp called
    have called := before.owner t mp known isOwner
    simp only [pushes]
    constructor <;> simp only [State.record]
    · intro j
      simp only [State.setPhase, collectedBy_collected, freedBy_collected]
      by_cases same : t = j
      · subst j
        rw [Function.update_self, if_pos rfl]
        refine ⟨waiting ++ [mp], extended, ?_⟩
        rw [← List.append_assoc, split]
      · rw [Function.update_of_ne (Ne.symm same), if_neg same]
        obtain ⟨waiting', queued', split'⟩ := before.pending j
        refine ⟨waiting', queued'.congr fun ref member => ?_, split'⟩
        have collected : ref ∈ collectedBy j s.log := by
          rw [← split']
          exact List.mem_append_right _ member
        obtain ⟨notNew, notOurs⟩ := before.foreign isOwner same collected
        rw [others ref (fun ours => notOurs (inCollected ref ours)) notNew, Items.setP,
          Function.update_of_ne notNew]
    · intro j other member
      simp only [State.setPhase]
      rw [valuesKept, Items.setP_p]
      split
      · rename_i same
        rw [same]
      · rename_i different
        rcases (mem_collectedBy_collected ..).mp member with old | ⟨-, new⟩
        · exact before.values j other old
        · exact absurd new different
    · intro j
      simp only [State.setPhase, collectedBy_collected]
      split
      · rename_i same
        refine List.nodup_append.mpr ⟨before.once j, List.nodup_singleton mp, ?_⟩
        intro old member new isNew equal
        rw [equal, List.mem_singleton.mp isNew, ← same] at member
        exact notCollected member
      · exact before.once j
    · intro j other member
      simp only [State.setPhase, poppedBy_collected]
      rcases (mem_collectedBy_collected ..).mp member with old | ⟨isT, new⟩
      · exact before.popped j other old
      · rw [isT, new]
        exact popped
    · intro j other member
      rcases (mem_collectedBy_collected ..).mp member with old | ⟨isT, new⟩
      · exact before.owned j other old
      · rw [isT, new]
        exact isOwner
    · intro j other knownOther owner
      simpa [State.setPhase, callsOf] using before.owner j other knownOther owner
    · intro j other i member more
      simp only [State.setPhase, pushedTo_collected]
      rcases (mem_collectedBy_collected ..).mp member with old | ⟨-, new⟩
      · exact before.complete j other i old more
      · rw [new]
        exact linked.all_pushed outside called more
    · intro j other phase
      rw [State.setPhase_phase] at phase
      simp only [State.setPhase, poppedBy_collected]
      split at phase
      · simp at phase
      · rename_i different
        rw [collectedBy_collected, if_neg (Ne.symm different)]
        exact before.delivering j other phase
    · intro j other k notDone phase
      obtain ⟨different, already⟩ := State.phase_of_setPhase phase (by simp)
      simp only [State.setPhase, Function.update_of_ne different]
      exact before.scanning j other k notDone already
    · intro j member
      refine before.sound j ?_
      simpa [State.setPhase] using member
  · exact before.setPhase (by simp) (by simp)

/-- A message at the head of a `gc_q` stands for itself and was collected. -/
theorem of_peek (before : Collected numWorkers s) (head : queuePeek (s.gcQ t) = some mp) :
    mp ∈ collectedBy t s.log ∧ ∃ waiting, freedBy t s.log ++ mp :: waiting = collectedBy t s.log ∧
      Queued s.gcNode (queuePop s.gcNode (s.gcQ t)).2 waiting := by
  obtain ⟨waiting, queued, split⟩ := before.pending t
  have first := queued.peek
  have rest := queued.pop.2
  rw [head] at first
  cases waiting with
  | nil => cases first
  | cons next waiting =>
      have isHead : mp = next := by simpa using first
      subst next
      refine ⟨?_, waiting, split, rest⟩
      rw [← split]
      simp

/-- The loop of `w_gc` ends, or examines a collected message. -/
theorem peek_cases (before : Collected numWorkers s) (t : Nat) :
    gcPeek s t = s ∨ ∃ mp, queuePeek (s.gcQ t) = some mp ∧
      gcPeek s t = s.setPhase t (.scanning mp 0 false) := by
  unfold gcPeek
  split
  · exact .inl rfl
  · rename_i mp head
    have value := before.values t mp (before.of_peek head).1
    simp only [value]
    exact .inr ⟨mp, head, rfl⟩

theorem peek (before : Collected numWorkers s) : Collected numWorkers (gcPeek s t) := by
  rcases before.peek_cases t with same | ⟨mp, head, result⟩
  · rwa [same]
  · rw [result]
    refine before.setPhase (by simp) ?_
    intro other i notDone same
    rw [head, (Phase.scanning.inj same).1]

theorem reclaim {notDone : Bool} (before : Collected numWorkers s) (linked : Linked numWorkers s)
    (here : (s.thread t).phase = .scanning mp i notDone) :
    Collected numWorkers (gcReclaim s t mp notDone) := by
  obtain ⟨member, waiting, split, rest⟩ := before.of_peek (before.scanning t mp i notDone here)
  unfold gcReclaim
  split
  · exact before.setPhase (by simp) (by simp)
  · constructor <;> simp only [State.record]
    · intro j
      simp only [State.setPhase, collectedBy_freed, freedBy_freed]
      by_cases same : t = j
      · subst j
        rw [Function.update_self, if_pos rfl]
        exact ⟨waiting, rest, by simpa using split⟩
      · rw [Function.update_of_ne (Ne.symm same), if_neg same]
        exact before.pending j
    · simpa only [State.setPhase, collectedBy_freed] using before.values
    · simpa only [State.setPhase, collectedBy_freed] using before.once
    · simpa only [State.setPhase, collectedBy_freed, poppedBy_freed] using before.popped
    · simpa only [State.setPhase, collectedBy_freed] using before.owned
    · intro j other known owner
      have knownBefore : s.mstate other ≠ .unknown := by
        by_cases same : other = mp
        · rw [same]
          exact before.known linked member
        · simpa [State.setPhase, same] using known
      simpa [State.setPhase, callsOf] using before.owner j other knownBefore owner
    · simpa [State.setPhase, pushedTo] using before.complete
    · intro j other phase
      rw [State.setPhase_phase] at phase
      simp only [State.setPhase, poppedBy_freed, collectedBy_freed]
      split at phase
      · simp at phase
      · exact before.delivering j other phase
    · intro j other k scanned phase
      obtain ⟨different, already⟩ := State.phase_of_setPhase phase (by simp)
      simp only [State.setPhase, Function.update_of_ne different]
      exact before.scanning j other k scanned already
    · intro j fault
      refine before.sound j ?_
      simpa [State.setPhase] using fault

theorem step {numServers : Nat} {op : Op} (before : Collected numWorkers s)
    (linked : Linked numWorkers s) (stepped : Step numWorkers numServers s t op s') :
    Collected numWorkers s' := by
  cases stepped with
  | call _ _ fresh => exact before.enter linked fresh _
  | mark =>
      refine before.frame rfl rfl rfl rfl (State.setPushing_phase _ t _) (fun _ => rfl)
        (fun _ _ member => member) (fun _ => rfl) (fun _ => rfl) (fun _ => rfl)
        (fun _ fault => fault)
  | push =>
      unfold wMessagePush
      split
      · refine before.frame rfl rfl rfl rfl (fun _ => rfl) ?_ ?_ ?_ ?_ ?_ ?_ <;>
          simp [State.record, callsOf, pushedTo, poppedBy, collectedBy, freedBy]
      · refine before.frame rfl rfl rfl rfl (State.setPushing_phase _ t _) ?_ ?_ ?_ ?_ ?_ ?_
        case refine_2 =>
          intro j other member
          simp only [State.record, State.setPushing, pushedTo_pushed]
          split
          · exact List.mem_append_left _ member
          · exact member
        all_goals simp [State.record, State.setPushing, collectedBy, freedBy]
  | ret =>
      exact before.frame rfl rfl rfl rfl (s.setPushing_phase t _) (fun _ => rfl)
        (fun _ _ member => member) (fun _ => rfl) (fun _ => rfl) (fun _ => rfl)
        (fun _ fault => fault)
  | pop => exact before.pop linked
  | clear _ here => exact before.clear here
  | collect outside here => exact before.collect linked outside here
  | peek => exact before.peek
  | scan _ here =>
      refine before.setPhase (by simp) ?_
      intro other k flag same
      rw [← (Phase.scanning.inj same).1]
      exact before.scanning t _ _ _ here
  | reclaim _ here => exact before.reclaim linked here

end Collected

/-! ### The scan -/

/-- A scan that found no flag set has passed finished workers only; a message
is freed after every worker has finished with it, and popped while in use. -/
structure Reclaimed (numWorkers : Nat) (s : State) : Prop where
  scanned : ∀ t mp i, (s.thread t).phase = .scanning mp i false →
    ∀ j, j < i → j < numWorkers → mp ∈ finishedBy j s.log
  released : ∀ earlier later t mp state, s.log = earlier ++ .freed t mp state :: later →
    ∀ i, i < numWorkers → mp ∈ poppedBy i earlier ∧ mp ∈ finishedBy i earlier
  free : ∀ mp, s.mstate mp = .free → ∃ t state, Event.freed t mp state ∈ s.log
  popped : ∀ i mp state, Event.popped i mp state ∈ s.log → state = .inUse

private theorem finishedBy_mono {log : List Event} {events : List Event} {i : Nat} {mp : Msg}
    (member : mp ∈ finishedBy i log) : mp ∈ finishedBy i (log ++ events) := by
  rw [finishedBy, List.filterMap_append]
  exact List.mem_append_left _ member

namespace Reclaimed

variable {numWorkers numServers : Nat} {s s' : State} {t i : Nat} {mp : Msg}

theorem initial (start : Initial s) : Reclaimed numWorkers s := by
  constructor <;> simp [start.log, start.thread, start.mstate]

/-- A step that frees nothing: at most one event, and every clean scan of the
new state is accounted for. -/
theorem frame (before : Reclaimed numWorkers s)
    (scanned : ∀ t mp i, (s'.thread t).phase = .scanning mp i false →
      ∀ j, j < i → j < numWorkers → mp ∈ finishedBy j s.log)
    (log : s'.log = s.log ∨ ∃ event, s'.log = s.log ++ [event] ∧
      (∀ t mp state, event ≠ .freed t mp state) ∧ ∀ i mp state, event = .popped i mp state →
        state = .inUse)
    (free : ∀ mp, s'.mstate mp = .free → s.mstate mp = .free) : Reclaimed numWorkers s' := by
  rcases log with same | ⟨event, appended, notFreed, poppedInUse⟩
  · constructor
    · simpa only [same] using scanned
    · simpa only [same] using before.released
    · intro mp isFree
      simpa only [same] using before.free mp (free mp isFree)
    · simpa only [same] using before.popped
  · constructor
    · intro t mp i here j bound more
      rw [appended]
      exact finishedBy_mono (scanned t mp i here j bound more)
    · intro earlier later t mp state split
      rw [appended] at split
      rcases split_concat split with ⟨rest, old⟩ | ⟨isLast, -⟩
      · exact before.released earlier rest t mp state old
      · exact absurd isLast.symm (notFreed t mp state)
    · intro mp isFree
      obtain ⟨t, state, member⟩ := before.free mp (free mp isFree)
      rw [appended]
      exact ⟨t, state, List.mem_append_left _ member⟩
    · intro i mp state member
      rw [appended] at member
      rcases List.mem_append.mp member with old | new
      · exact before.popped i mp state old
      · exact poppedInUse i mp state (List.mem_singleton.mp new).symm

/-- A message that waits in a queue has not been freed. -/
theorem waiting_inUse (before : Reclaimed numWorkers s) (linked : Linked numWorkers s)
    (flagged : Flagged s) {waiting : List Msg}
    (split : poppedBy i s.log ++ waiting = pushedTo i s.log) (more : i < numWorkers)
    (member : mp ∈ waiting) : s.mstate mp = .inUse := by
  have pushed : mp ∈ pushedTo i s.log := by
    rw [← split]
    exact List.mem_append_right _ member
  have distinct := linked.ledger.distinct i
  rw [← split] at distinct
  have notFinished : mp ∉ finishedBy i s.log := fun finished =>
    List.disjoint_of_nodup_append distinct (flagged.finished i mp finished) member
  cases state : s.mstate mp with
  | inUse => rfl
  | unknown =>
      obtain ⟨j, called⟩ := linked.ledger.called i mp pushed
      exact absurd state (linked.ledger.known j mp called)
  | free =>
      obtain ⟨j, old, freed⟩ := before.free mp state
      obtain ⟨earlier, later, isSplit⟩ := List.append_of_mem freed
      have finished := (before.released earlier later j mp old isSplit i more).2
      rw [isSplit] at notFinished
      exact absurd (finishedBy_mono finished) notFinished

theorem pop (before : Reclaimed numWorkers s) (linked : Linked numWorkers s) (flagged : Flagged s)
    (active : t < numWorkers) : Reclaimed numWorkers (wMessagePop s t) := by
  rcases linked.pop_cases t with same | ⟨mp, waiting, q, split, -, result⟩
  · rwa [same]
  · rw [result]
    have inUse := before.waiting_inUse linked flagged split active List.mem_cons_self
    refine before.frame ?_ (.inr ⟨_, rfl, by simp, ?_⟩) fun other isFree => isFree
    · intro j other k here
      simp only [State.record] at here
      exact before.scanned j other k (State.phase_of_setPhase here (by simp)).2
    · intro j other state same
      rw [← (Event.popped.inj same).2.2]
      exact inUse

/-- Reading a cleared flag of a collected message shows that its worker has
finished. -/
theorem scan {notDone : Bool} (before : Reclaimed numWorkers s) (flagged : Flagged s)
    (collected : Collected numWorkers s) (here : (s.thread t).phase = .scanning mp i notDone) :
    Reclaimed numWorkers (s.setPhase t (.scanning mp (i + 1) (notDone || s.notDone mp i))) := by
  refine before.frame ?_ (.inl rfl) fun other isFree => isFree
  intro k other next phase j bound more
  rw [State.setPhase_phase] at phase
  split at phase
  · obtain ⟨sameMp, sameNext, clean⟩ := Phase.scanning.inj phase
    rw [Bool.or_eq_false_iff] at clean
    subst other next
    rw [clean.1] at here
    by_cases earlier : j < i
    · exact before.scanned t mp i here j earlier more
    · have same : j = i := by omega
      subst j
      have member := (collected.of_peek (collected.scanning t mp i false here)).1
      rcases flagged.flagged i mp (collected.complete t mp i member more) with set | finished
      · rw [clean.2] at set
        cases set
      · exact finished
  · exact before.scanned k other next phase j bound more

/-- With at least as many servers as workers the scan has passed every worker. -/
theorem reclaim {notDone : Bool} (before : Reclaimed numWorkers s) (flagged : Flagged s)
    (enough : numWorkers ≤ numServers) (here : (s.thread t).phase = .scanning mp i notDone) (all : numServers ≤ i) :
    Reclaimed numWorkers (gcReclaim s t mp notDone) := by
  have others : ∀ {s' : State}, s'.thread = (s.setPhase t .idle).thread →
      ∀ j other k, (s'.thread j).phase = .scanning other k false →
      ∀ m, m < k → m < numWorkers → other ∈ finishedBy m s.log := by
    intro s' thread j other k phase
    rw [thread] at phase
    exact before.scanned j other k (State.phase_of_setPhase phase (by simp)).2
  unfold gcReclaim
  split
  · exact before.frame (others rfl) (.inl rfl) fun other isFree => isFree
  · rename_i clean
    have finished : ∀ j, j < numWorkers → mp ∈ finishedBy j s.log := by
      intro j more
      rw [Bool.not_eq_true] at clean
      rw [clean] at here
      exact before.scanned t mp i here j (by omega) more
    constructor
    · intro j other k phase m bound more
      exact finishedBy_mono (others rfl j other k phase m bound more)
    · intro earlier later j other state split
      rcases split_concat split with ⟨rest, old⟩ | ⟨isLast, isLog⟩
      · exact before.released earlier rest j other state old
      · intro k more
        rw [isLog, (Event.freed.inj isLast).2.1]
        exact ⟨flagged.finished k mp (finished k more), finished k more⟩
    · intro other isFree
      by_cases same : other = mp
      · exact ⟨t, s.mstate mp, by simp [State.record, same]⟩
      · have freeBefore : s.mstate other = .free := by
          simpa [State.record, State.setPhase, same] using isFree
        obtain ⟨j, state, member⟩ := before.free other freeBefore
        exact ⟨j, state, List.mem_append_left _ member⟩
    · intro j other state member
      have old : Event.popped j other state ∈ s.log := by
        simpa [State.record, State.setPhase] using member
      exact before.popped j other state old

theorem step {op : Op} (before : Reclaimed numWorkers s) (linked : Linked numWorkers s)
    (flagged : Flagged s) (collected : Collected numWorkers s) (enough : numWorkers ≤ numServers)
    (active : t < numWorkers) (stepped : Step numWorkers numServers s t op s') :
    Reclaimed numWorkers s' := by
  -- steps that change no phase to a scan
  have calm : ∀ {phase : Phase} {next : State}, (∀ mp i, phase ≠ .scanning mp i false) →
      next.thread = (s.setPhase t phase).thread →
      ∀ j other k, (next.thread j).phase = .scanning other k false →
      ∀ m, m < k → m < numWorkers → other ∈ finishedBy m s.log := by
    intro phase next quiet thread j other k here
    rw [thread] at here
    exact before.scanned j other k (State.phase_of_setPhase here (quiet other k)).2
  have pushing : ∀ {pushing : Option Pushing} {next : State},
      next.thread = (s.setPushing t pushing).thread →
      ∀ j other k, (next.thread j).phase = .scanning other k false →
      ∀ m, m < k → m < numWorkers → other ∈ finishedBy m s.log := by
    intro pushing next thread j other k here
    rw [thread, State.setPushing_phase] at here
    exact before.scanned j other k here
  cases stepped with
  | @call mp owned _ _ fresh =>
      refine before.frame (pushing rfl) (.inr ⟨_, rfl, by simp, by simp⟩) fun other isFree => ?_
      by_cases same : other = mp
      · subst other
        simp [enter, State.record] at isFree
      · simpa [enter, State.record, same] using isFree
  | mark => exact before.frame (pushing rfl) (.inl rfl) fun _ isFree => isFree
  | push =>
      unfold wMessagePush
      split
      · exact before.frame before.scanned (.inr ⟨_, rfl, by simp, by simp⟩) fun _ isFree => isFree
      · exact before.frame (pushing rfl) (.inr ⟨_, rfl, by simp, by simp⟩) fun _ isFree => isFree
  | ret => exact before.frame (pushing rfl) (.inl rfl) fun _ isFree => isFree
  | pop => exact before.pop linked flagged active
  | clear =>
      exact before.frame (calm (by simp) rfl) (.inr ⟨_, rfl, by simp, by simp⟩) fun _ isFree => isFree
  | collect =>
      unfold collectOwned
      split
      · split
        · exact before.frame before.scanned (.inr ⟨_, rfl, by simp, by simp⟩) fun _ isFree => isFree
        · exact before.frame (calm (by simp) rfl) (.inr ⟨_, rfl, by simp, by simp⟩)
            fun _ isFree => isFree
      · exact before.frame (calm (by simp) rfl) (.inl rfl) fun _ isFree => isFree
  | peek =>
      rcases collected.peek_cases t with same | ⟨mp, -, result⟩
      · rwa [same]
      · rw [result]
        refine before.frame ?_ (.inl rfl) fun _ isFree => isFree
        intro j other k here m bound
        rw [State.setPhase_phase] at here
        split at here
        · rw [← (Phase.scanning.inj here).2.1] at bound
          omega
        · exact before.scanned j other k here m bound
  | scan _ here => exact before.scan flagged collected here
  | reclaim _ here all => exact before.reclaim flagged enough here all

end Reclaimed

/-- Flags, collection queues and scans together. -/
structure Accounted (numWorkers : Nat) (s : State) : Prop where
  flagged : Flagged s
  collected : Collected numWorkers s
  reclaimed : Reclaimed numWorkers s

theorem Accounted.reachable {numWorkers numServers : Nat} (enough : numWorkers ≤ numServers)
    {s : State} (reached : (workers numWorkers numServers).Reachable s) :
    Accounted numWorkers s := by
  refine reached.invariant (fun _ start => ⟨.initial start, .initial start, .initial start⟩) ?_
  intro s act next reached before stepped
  have linked := Linked.reachable reached
  have one := step_inv stepped
  exact ⟨before.flagged.step linked one.2, before.collected.step linked one.2,
    before.reclaimed.step linked before.flagged before.collected enough one.1 one.2⟩

/-- With at least as many configured servers as workers, in every state of
every interleaving: a message was freed only after each worker had popped it
and finished its search on it, every message linked in a `msg_q` is in use, and
every message a worker popped was in use when it was popped. -/
theorem message_freed_after_all_workers {numWorkers numServers : Nat}
    (enough : numWorkers ≤ numServers) {s : State}
    (reached : (workers numWorkers numServers).Reachable s) :
    (∀ earlier later t mp state, s.log = earlier ++ .freed t mp state :: later →
      ∀ i, i < numWorkers → mp ∈ poppedBy i earlier ∧ mp ∈ finishedBy i earlier) ∧
    (∀ i, i < numWorkers → ∀ waiting : List Msg,
      Queued s.nodes (s.msgQ i) (waiting.map fun mp => (mp, i)) →
        ∀ mp ∈ waiting, s.mstate mp = .inUse) ∧
    ∀ i mp state, Event.popped i mp state ∈ s.log → state = .inUse := by
  obtain ⟨flagged, collected, reclaimed⟩ := Accounted.reachable enough reached
  have linked := Linked.reachable reached
  refine ⟨reclaimed.released, ?_, reclaimed.popped⟩
  intro i more waiting queued mp member
  obtain ⟨pending, pendingQueued, split⟩ := linked.pending i
  have same : waiting = pending :=
    (List.map_injective_iff.mpr fun _ _ equal => (Prod.mk.inj equal).1)
      (queued.chain.unique pendingQueued.chain)
  exact reclaimed.waiting_inUse linked flagged split more (same ▸ member)

/-- A message delivered by two workers and freed by its owner. -/
theorem message_freed_after_all_workers_two :
    ∃ s, (workers 2 2).run start [⟨0, .call 7 true⟩, ⟨0, .mark⟩, ⟨0, .push⟩, ⟨0, .mark⟩,
        ⟨0, .push⟩, ⟨0, .ret⟩, ⟨0, .pop⟩, ⟨0, .clear⟩, ⟨0, .collect⟩, ⟨1, .pop⟩, ⟨1, .clear⟩,
        ⟨0, .peek⟩, ⟨0, .scan⟩, ⟨0, .scan⟩, ⟨0, .reclaim⟩] = some s ∧
      s.mstate 7 = .free ∧ ∀ i mp state, Event.popped i mp state ∈ s.log → state = .inUse := by
  obtain ⟨s, ran, free⟩ : ∃ s, (workers 2 2).run start [⟨0, .call 7 true⟩, ⟨0, .mark⟩,
      ⟨0, .push⟩, ⟨0, .mark⟩, ⟨0, .push⟩, ⟨0, .ret⟩, ⟨0, .pop⟩, ⟨0, .clear⟩, ⟨0, .collect⟩,
      ⟨1, .pop⟩, ⟨1, .clear⟩, ⟨0, .peek⟩, ⟨0, .scan⟩, ⟨0, .scan⟩, ⟨0, .reclaim⟩] = some s ∧
      s.mstate 7 = .free := ⟨_, rfl, rfl⟩
  have reached : (workers 2 2).Reachable s := .run (.start start_initial) ran
  exact ⟨s, ran, free, (message_freed_after_all_workers (by decide) reached).2.2⟩

/-- Two workers and one server: the owner frees the message after looking at
its own flag only, while the message waits in the queue of the other worker,
which then pops it. -/
theorem message_freed_while_queued :
    ∃ s, (workers 2 1).Reachable s ∧ s.mstate 7 = .free ∧ finishedBy 1 s.log = [] ∧
      Queued s.nodes (s.msgQ 1) ([7].map fun mp => (mp, 1)) ∧
      ∃ s', (workers 2 1).step s ⟨1, .pop⟩ = some s' ∧ Event.popped 1 7 .free ∈ s'.log := by
  obtain ⟨s, ran, free, unfinished, head, tail, ends, popped⟩ :
      ∃ s, (workers 2 1).run start [⟨0, .call 7 true⟩, ⟨0, .mark⟩, ⟨0, .push⟩, ⟨0, .mark⟩,
        ⟨0, .push⟩, ⟨0, .ret⟩, ⟨0, .pop⟩, ⟨0, .clear⟩, ⟨0, .collect⟩, ⟨0, .peek⟩, ⟨0, .scan⟩,
        ⟨0, .reclaim⟩] = some s ∧ s.mstate 7 = .free ∧ finishedBy 1 s.log = [] ∧
        (s.msgQ 1).head = some (7, 1) ∧ (s.msgQ 1).tail = some (7, 1) ∧
        (s.nodes (7, 1)).next = none ∧
        ∃ s', (workers 2 1).step s ⟨1, .pop⟩ = some s' ∧ Event.popped 1 7 .free ∈ s'.log :=
    ⟨_, rfl, rfl, rfl, rfl, rfl, rfl, _, rfl, by decide⟩
  exact ⟨s, .run (.start start_initial) ran, free, unfinished, ⟨⟨head, ends⟩, tail⟩, popped⟩

end FbBroker.Worker
