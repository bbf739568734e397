import Mathlib.Init

/-!
Contract: transition systems and invariants of their runs.

A system has initial states and a partial step function over actions. A
property that holds initially and survives every step holds in every reachable
state; restricting the steps of a system restricts its reachable states. What a
run did is kept in a log, in which later entries may be bound to earlier ones.

Does not own any concrete system.
-/

set_option autoImplicit false

namespace FbBroker.Lib

/-- Initial states and, for every action, the state it leads to if it is
enabled. -/
structure System (State Action : Type) where
  init : State → Prop
  step : State → Action → Option State

namespace System

variable {State Action : Type} (system : System State Action)

/-- The states some run ends in. -/
inductive Reachable : State → Prop
  | start {state : State} (initial : system.init state) : Reachable state
  | next {state next : State} {action : Action} (reached : Reachable state)
      (stepped : system.step state action = some next) : Reachable next

/-- The run of a list of actions. -/
def run (state : State) (actions : List Action) : Option State :=
  actions.foldlM system.step state

variable {system}

/-- A run from a reachable state ends in a reachable state. -/
theorem Reachable.run {state final : State} {actions : List Action}
    (reached : system.Reachable state) (ran : system.run state actions = some final) :
    system.Reachable final := by
  induction actions generalizing state with
  | nil =>
      have same : state = final := by simpa [System.run] using ran
      exact same ▸ reached
  | cons action actions inductionHypothesis =>
      rw [System.run, List.foldlM_cons] at ran
      cases stepped : system.step state action with
      | none => simp [stepped] at ran
      | some next =>
          rw [stepped] at ran
          exact inductionHypothesis (reached.next stepped) ran

/-- What holds initially and survives every step holds in every reachable
state; the step may use that its source is reachable. -/
theorem Reachable.invariant {Inv : State → Prop} (initially : ∀ state, system.init state → Inv state)
    (preserved : ∀ state action next, system.Reachable state → Inv state →
      system.step state action = some next → Inv next)
    {state : State} (reached : system.Reachable state) : Inv state := by
  induction reached with
  | start initial => exact initially _ initial
  | next reached stepped inductionHypothesis =>
      exact preserved _ _ _ reached inductionHypothesis stepped

/-- The system with the steps that meet a condition on the state before and
the action only. -/
def restrict (system : System State Action) (allowed : State → Action → Prop)
    [∀ state action, Decidable (allowed state action)] : System State Action where
  init := system.init
  step state action := if allowed state action then system.step state action else none

theorem restrict_step {allowed : State → Action → Prop}
    [∀ state action, Decidable (allowed state action)] {state next : State} {action : Action} :
    (system.restrict allowed).step state action = some next ↔
      allowed state action ∧ system.step state action = some next := by
  simp [restrict]

/-- What a restricted system reaches, the system reaches. -/
theorem Reachable.of_restrict {allowed : State → Action → Prop}
    [∀ state action, Decidable (allowed state action)] {state : State}
    (reached : (system.restrict allowed).Reachable state) : system.Reachable state := by
  induction reached with
  | start initial => exact .start initial
  | next _ stepped inductionHypothesis =>
      exact .next inductionHypothesis (restrict_step.mp stepped).2

/-- A condition every step meets restricts nothing. -/
theorem Reachable.restrict_always {allowed : State → Action → Prop}
    [∀ state action, Decidable (allowed state action)]
    (always : ∀ state action, allowed state action) {state : State}
    (reached : system.Reachable state) : (system.restrict allowed).Reachable state := by
  induction reached with
  | start initial => exact .start initial
  | next _ stepped inductionHypothesis =>
      exact .next inductionHypothesis (restrict_step.mpr ⟨always _ _, stepped⟩)

/-- A weaker condition reaches more. -/
theorem Reachable.restrict_mono {allowed wider : State → Action → Prop}
    [∀ state action, Decidable (allowed state action)]
    [∀ state action, Decidable (wider state action)] {state : State}
    (weaker : ∀ state action, allowed state action → wider state action)
    (reached : (system.restrict allowed).Reachable state) :
    (system.restrict wider).Reachable state := by
  induction reached with
  | start initial => exact .start initial
  | next _ stepped inductionHypothesis =>
      obtain ⟨meets, steps⟩ := restrict_step.mp stepped
      exact .next inductionHypothesis (restrict_step.mpr ⟨weaker _ _ meets, steps⟩)

theorem run_of_restrict {allowed : State → Action → Prop}
    [∀ state action, Decidable (allowed state action)] {state final : State} {actions : List Action}
    (ran : (system.restrict allowed).run state actions = some final) :
    system.run state actions = some final := by
  induction actions generalizing state with
  | nil => exact ran
  | cons action actions inductionHypothesis =>
      rw [System.run, List.foldlM_cons] at ran ⊢
      obtain ⟨next, stepped, rest⟩ := Option.bind_eq_some_iff.mp ran
      rw [(restrict_step.mp stepped).2]
      exact inductionHypothesis rest

end System

/-! ### Logs -/

/-- A split of a log that has grown by an entry is at that entry or before it. -/
theorem split_concat {Entry : Type} {log earlier later : List Entry} {last entry : Entry}
    (split : log ++ [last] = earlier ++ entry :: later) :
    (∃ rest, log = earlier ++ entry :: rest) ∨ entry = last ∧ earlier = log := by
  rcases List.eq_nil_or_concat later with empty | ⟨rest, end', isConcat⟩
  · subst later
    have parts := List.append_inj' split rfl
    exact .inr ⟨by simpa using parts.2.symm, parts.1.symm⟩
  · rw [isConcat, List.concat_eq_append, ← List.cons_append, ← List.append_assoc] at split
    exact .inl ⟨rest, (List.append_inj' split rfl).1⟩

end FbBroker.Lib
