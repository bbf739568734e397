import Mathlib.Init

/-!
Contract: sequential commands over an explicit state that may stop with a
fault.

A command returns a value or a fault and, in both cases, the state it reached:
what happened before a fault stays observable. A `Contract` says what commands
may do to the state and which faults they may stop with, and composes along
`bind`; the equations tagged `simp` run a `do` block one statement at a time.

Does not own any concrete state, fault or program.
-/

set_option autoImplicit false

namespace FbBroker.Lib

/-- A command over states `State` with faults `Fault`. -/
structure Cmd (Fault State Value : Type) where
  run : State → Except Fault Value × State

namespace Cmd

variable {Fault State Value Result : Type}

instance : Monad (Cmd Fault State) where
  pure value := ⟨fun state => (.ok value, state)⟩
  bind first rest := ⟨fun state =>
    match first.run state with
    | (.ok value, next) => (rest value).run next
    | (.error fault, next) => (.error fault, next)⟩

instance : MonadStateOf State (Cmd Fault State) where
  get := ⟨fun state => (.ok state, state)⟩
  set next := ⟨fun _ => (.ok (), next)⟩
  modifyGet change := ⟨fun state => (.ok (change state).1, (change state).2)⟩

/-- Stop with a fault. -/
def fail (fault : Fault) : Cmd Fault State Value :=
  ⟨fun state => (.error fault, state)⟩

@[simp] theorem run_pure (value : Value) (state : State) :
    (pure value : Cmd Fault State Value).run state = (.ok value, state) := rfl

@[simp] theorem run_fail (fault : Fault) (state : State) :
    (fail fault : Cmd Fault State Value).run state = (.error fault, state) := rfl

@[simp] theorem run_get (state : State) :
    (get : Cmd Fault State State).run state = (.ok state, state) := rfl

@[simp] theorem run_modify (change : State → State) (state : State) :
    (modify change : Cmd Fault State PUnit).run state = (.ok (), change state) := rfl

theorem run_bind (first : Cmd Fault State Value) (rest : Value → Cmd Fault State Result)
    (state : State) :
    (first >>= rest).run state =
      match first.run state with
      | (.ok value, next) => (rest value).run next
      | (.error fault, next) => (.error fault, next) := rfl

/-- Run past a statement that is known to return. -/
theorem bind_ok {first : Cmd Fault State Value} {rest : Value → Cmd Fault State Result}
    {state next : State} {value : Value} (returns : first.run state = (.ok value, next)) :
    (first >>= rest).run state = (rest value).run next := by
  rw [run_bind, returns]

/-- A statement that stops makes the rest of the block unreachable. -/
theorem bind_error {first : Cmd Fault State Value} {rest : Value → Cmd Fault State Result}
    {state next : State} {fault : Fault} (stops : first.run state = (.error fault, next)) :
    (first >>= rest).run state = (.error fault, next) := by
  rw [run_bind, stops]

/-- A sequence returns only if both parts do. -/
theorem ok_of_bind {first : Cmd Fault State Value} {rest : Value → Cmd Fault State Result}
    {state final : State} {result : Result} (returns : (first >>= rest).run state = (.ok result, final)) :
    ∃ value middle, first.run state = (.ok value, middle) ∧
      (rest value).run middle = (.ok result, final) := by
  rw [run_bind] at returns
  cases outcome : first.run state with
  | mk value middle =>
      rw [outcome] at returns
      cases value with
      | ok value => exact ⟨value, middle, rfl, returns⟩
      | error fault => simp at returns

@[simp] theorem run_pure_bind (value : Value) (rest : Value → Cmd Fault State Result)
    (state : State) :
    ((pure value : Cmd Fault State Value) >>= rest).run state = (rest value).run state := rfl

@[simp] theorem run_get_bind (rest : State → Cmd Fault State Result) (state : State) :
    ((get : Cmd Fault State State) >>= rest).run state = (rest state).run state := rfl

@[simp] theorem run_modify_bind (change : State → State)
    (rest : PUnit → Cmd Fault State Result) (state : State) :
    ((modify change : Cmd Fault State PUnit) >>= rest).run state = (rest ()).run (change state) :=
  rfl

theorem bind_assoc {Last : Type} (first : Cmd Fault State Value)
    (second : Value → Cmd Fault State Result) (third : Result → Cmd Fault State Last) :
    (first >>= second) >>= third = first >>= fun value => second value >>= third := by
  refine congrArg Cmd.mk (funext fun state => ?_)
  simp only [run_bind]
  cases first.run state with
  | mk outcome next => cases outcome <;> rfl

/-- A command run next to something it does not touch. -/
def beside {Extra : Type} (command : Cmd Fault State Value) : Cmd Fault (State × Extra) Value :=
  ⟨fun state => ((command.run state.1).1, (command.run state.1).2, state.2)⟩

theorem beside_run {Extra : Type} {command : Cmd Fault State Value} {state next : State}
    {outcome : Except Fault Value} (runs : command.run state = (outcome, next)) (extra : Extra) :
    command.beside.run (state, extra) = (outcome, next, extra) := by
  simp [beside, runs]

/-- Run a command once for each item, in order. -/
def each {Item : Type} (command : Item → Cmd Fault State Unit) :
    List Item → Cmd Fault State Unit
  | [] => pure ()
  | item :: rest => do
      command item
      each command rest

section Each

variable {Item : Type} {command : Item → Cmd Fault State Unit}

theorem each_cons_ok {item : Item} {rest : List Item} {state middle final : State}
    (first : (command item).run state = (.ok (), middle))
    (others : (each command rest).run middle = (.ok (), final)) :
    (each command (item :: rest)).run state = (.ok (), final) := by
  rw [each, bind_ok first, others]

theorem each_append_run (left right : List Item) (state : State) :
    (each command (left ++ right)).run state =
      (each command left >>= fun _ => each command right).run state := by
  induction left generalizing state with
  | nil => rfl
  | cons item rest inductionHypothesis =>
      simp only [List.cons_append, each, run_bind]
      cases (command item).run state with
      | mk outcome next => cases outcome <;> simp only [inductionHypothesis, run_bind]

theorem each_append_ok {left right : List Item} {state middle final : State}
    (first : (each command left).run state = (.ok (), middle))
    (second : (each command right).run middle = (.ok (), final)) :
    (each command (left ++ right)).run state = (.ok (), final) := by
  induction left generalizing state with
  | nil =>
      obtain rfl : state = middle := (Prod.mk.inj first).2
      exact second
  | cons item rest inductionHypothesis =>
      obtain ⟨_, next, starts, others⟩ := ok_of_bind first
      exact each_cons_ok starts (inductionHypothesis others)

/-- The commands for the items, in order, return and keep the invariant. -/
def Passes (command : Item → Cmd Fault State Unit) (Inv : State → Prop) : List Item → State → Prop
  | [], _ => True
  | item :: rest, state =>
      ∃ next, (command item).run state = (.ok (), next) ∧ Inv next ∧ Passes command Inv rest next

theorem Passes.left {Inv : State → Prop} {left right : List Item} {state : State}
    (passes : Passes command Inv (left ++ right) state) : Passes command Inv left state := by
  induction left generalizing state with
  | nil => trivial
  | cons item rest inductionHypothesis =>
      obtain ⟨next, returns, kept, others⟩ := passes
      exact ⟨next, returns, kept, inductionHypothesis others⟩

/-- Behind the first items the others are next. -/
theorem passes_append {Inv : State → Prop} {left right : List Item} {state middle : State}
    (passes : Passes command Inv left state) (ran : (each command left).run state = (.ok (), middle)) :
    Passes command Inv (left ++ right) state ↔ Passes command Inv right middle := by
  induction left generalizing state with
  | nil =>
      obtain rfl : state = middle := (Prod.mk.inj ran).2
      rfl
  | cons item rest inductionHypothesis =>
      obtain ⟨next, returns, kept, others⟩ := passes
      rw [Cmd.each, bind_ok returns] at ran
      rw [← inductionHypothesis others ran]
      constructor
      · intro whole
        obtain ⟨next', returns', -, later⟩ := whole
        obtain rfl : next = next' := (Prod.mk.inj (returns.symm.trans returns')).2
        exact later
      · intro later
        exact ⟨next, returns, kept, later⟩

/-- Commands that always return and keep the invariant pass. -/
theorem passes_of_forall {Inv : State → Prop} {items : List Item} {state : State}
    (always : ∀ item ∈ items, ∀ state, Inv state →
      ∃ next, (command item).run state = (.ok (), next) ∧ Inv next)
    (invariant : Inv state) : Passes command Inv items state := by
  induction items generalizing state with
  | nil => trivial
  | cons item rest inductionHypothesis =>
      obtain ⟨next, returns, kept⟩ := always item (by simp) state invariant
      exact ⟨next, returns, kept, inductionHypothesis
        (fun other member => always other (List.mem_cons_of_mem _ member)) kept⟩

end Each

end Cmd

namespace Cmd

variable {Fault State Value Result : Type} {stopped : Fault → State → Prop}

/-- A run that returns meets the postcondition; one that stops meets the other. -/
def Leads (stopped : Fault → State → Prop) (post : Value → State → Prop) :
    Except Fault Value × State → Prop
  | (.ok value, state) => post value state
  | (.error fault, state) => stopped fault state

theorem Leads.bind (post : Value → State → Prop) {final : Result → State → Prop}
    {first : Cmd Fault State Value} {rest : Value → Cmd Fault State Result} {state : State}
    (leads : Leads stopped post (first.run state))
    (restLeads : ∀ value next, post value next → Leads stopped final ((rest value).run next)) :
    Leads stopped final ((first >>= rest).run state) := by
  rw [run_bind]
  cases outcome : first.run state with
  | mk result next =>
      rw [outcome] at leads
      cases result with
      | ok value => exact restLeads value next leads
      | error fault => exact leads

/-- The command keeps the invariant whenever it returns. -/
def Preserves (Inv : State → Prop) (command : Cmd Fault State Value) : Prop :=
  ∀ state, Inv state → Leads (fun _ _ => True) (fun _ => Inv) (command.run state)

theorem Preserves.pure {Inv : State → Prop} (value : Value) :
    Preserves Inv (Pure.pure value : Cmd Fault State Value) :=
  fun _ invariant => invariant

theorem Preserves.fail {Inv : State → Prop} (fault : Fault) :
    Preserves Inv (fail fault : Cmd Fault State Value) :=
  fun _ _ => trivial

theorem Preserves.bind {Inv : State → Prop} {first : Cmd Fault State Value}
    {rest : Value → Cmd Fault State Result} (keeps : Preserves Inv first)
    (restKeeps : ∀ value, Preserves Inv (rest value)) : Preserves Inv (first >>= rest) :=
  fun state invariant =>
    (keeps state invariant).bind _ fun value next kept => restKeeps value next kept

theorem Preserves.each {Item : Type} {Inv : State → Prop} {command : Item → Cmd Fault State Unit}
    (keeps : ∀ item, Preserves Inv (command item)) (items : List Item) :
    Preserves Inv (each command items) := by
  induction items with
  | nil => exact .pure ()
  | cons item rest inductionHypothesis => exact .bind (keeps item) fun _ => inductionHypothesis

/-- What holds in every state a command may end in. -/
theorem Leads.of_state {Inv : State → Prop} {command : Cmd Fault State Value} {state : State}
    (ends : Inv (command.run state).2) (stops : ∀ fault next, Inv next → stopped fault next) :
    Leads stopped (fun _ => Inv) (command.run state) := by
  cases outcome : command.run state with
  | mk result next =>
      rw [outcome] at ends
      cases result with
      | ok value => exact ends
      | error fault => exact stops fault next ends

end Cmd

/-- What a piece of code is held to: how it may change the state, under which
precondition, and the faults it may stop with, and where. The changes compose
and keep the precondition. -/
structure Contract (Fault State : Type) where
  rel : State → State → Prop
  pre : State → Prop
  fault : Fault → State → Prop
  refl : ∀ state, rel state state
  trans : ∀ {first second third}, rel first second → rel second third → rel first third
  keeps : ∀ {first second}, pre first → rel first second → pre second

namespace Contract

variable {Fault State Value Result : Type} (contract : Contract Fault State)

/-- An allowed fault, or a value of the postcondition. -/
def Ends (post : Value → Prop) : Except Fault Value × State → Prop
  | (.ok value, _) => post value
  | (.error fault, state) => contract.fault fault state

/-- Run from this state, the command honours the contract and returns a value
of the postcondition, if it returns. -/
def Holds (post : Value → Prop) (command : Cmd Fault State Value) (state : State) : Prop :=
  contract.rel state (command.run state).2 ∧ contract.Ends post (command.run state)

/-- So it does from every state of the precondition. -/
def Keeps (post : Value → Prop) (command : Cmd Fault State Value) : Prop :=
  ∀ state, contract.pre state → contract.Holds post command state

variable {contract} {post : Value → Prop} {state : State}

theorem Holds.pure {value : Value} (returns : post value) :
    contract.Holds post (pure value) state :=
  ⟨contract.refl state, returns⟩

theorem Holds.fail {fault : Fault} (may : contract.fault fault state) :
    contract.Holds post (Cmd.fail fault) state :=
  ⟨contract.refl state, may⟩

theorem Holds.modify {change : State → State} {post : PUnit → Prop}
    (changes : contract.rel state (change state)) (returns : post ()) :
    contract.Holds post (modify change) state :=
  ⟨changes, returns⟩

theorem Holds.get_bind {rest : State → Cmd Fault State Value}
    (holds : contract.Holds post (rest state) state) :
    contract.Holds post (get >>= rest) state :=
  holds

theorem Holds.mono {weak : Value → Prop} {command : Cmd Fault State Value}
    (holds : contract.Holds post command state) (weaker : ∀ value, post value → weak value) :
    contract.Holds weak command state := by
  refine ⟨holds.1, ?_⟩
  have ends := holds.2
  cases outcome : command.run state with
  | mk result next =>
      rw [outcome] at ends
      cases result with
      | ok value => exact weaker value ends
      | error fault => exact ends

/-- Sequencing: the rest starts where the first command returned. -/
theorem Holds.bind {first : Cmd Fault State Value} {rest : Value → Cmd Fault State Result}
    {final : Result → Prop} (holds : contract.Holds post first state)
    (restHolds : ∀ value next, contract.rel state next → post value →
      contract.Holds final (rest value) next) :
    contract.Holds final (first >>= rest) state := by
  obtain ⟨moves, ends⟩ := holds
  unfold Holds
  rw [Cmd.run_bind]
  cases outcome : first.run state with
  | mk result next =>
      rw [outcome] at moves ends
      cases result with
      | error fault => exact ⟨moves, ends⟩
      | ok value =>
          obtain ⟨later, returned⟩ := restHolds value next moves ends
          exact ⟨contract.trans moves later, returned⟩

/-- Sequencing of code that keeps the contract. -/
theorem Keeps.bind {first : Cmd Fault State Value} {rest : Value → Cmd Fault State Result}
    {final : Result → Prop} (keeps : contract.Keeps post first)
    (restKeeps : ∀ value, post value → contract.Keeps final (rest value)) :
    contract.Keeps final (first >>= rest) := by
  intro state before
  refine (keeps state before).bind fun value next moves returned => ?_
  exact restKeeps value returned next (contract.keeps before moves)

theorem Keeps.each {Item : Type} {command : Item → Cmd Fault State Unit} {items : List Item}
    (keeps : ∀ item ∈ items, contract.Keeps (fun _ => True) (command item)) :
    contract.Keeps (fun _ => True) (Cmd.each command items) := by
  induction items with
  | nil => exact fun state _ => Holds.pure trivial
  | cons item items inductionHypothesis =>
      refine Keeps.bind (keeps item (by simp)) fun _ _ => ?_
      exact inductionHypothesis fun other member => keeps other (List.mem_cons_of_mem _ member)

end Contract

end FbBroker.Lib
