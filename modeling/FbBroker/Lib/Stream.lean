import Mathlib.Init

/-!
Contract: machines that read a stream item by item.

A machine takes a state and an item to the events it reports and either the next
state or an error with which it stops. What a machine reports of a stream does
not depend on how the stream is cut: reading two pieces one behind the other is
reading their concatenation.

Does not own any concrete machine.
-/

set_option autoImplicit false

namespace FbBroker.Lib

/-- What a machine reported, the error it stopped with, and the state it is in. -/
structure Report (State Event Error : Type) where
  events : List Event
  error : Option Error
  state : State

namespace Report

variable {State Event Error : Type}

/-- Nothing was read. -/
def still (state : State) : Report State Event Error :=
  ⟨[], none, state⟩

/-- Go on behind a report unless the machine stopped there. -/
def andThen (first : Report State Event Error) (rest : State → Report State Event Error) :
    Report State Event Error :=
  match first.error with
  | some _ => first
  | none => ⟨first.events ++ (rest first.state).events, (rest first.state).error, (rest first.state).state⟩

@[simp] theorem still_andThen (state : State) (rest : State → Report State Event Error) :
    (still state).andThen rest = rest state := by
  simp [still, andThen]

theorem andThen_assoc (first : Report State Event Error)
    (second third : State → Report State Event Error) :
    (first.andThen second).andThen third = first.andThen fun state => (second state).andThen third := by
  obtain ⟨events, error, state⟩ := first
  cases error with
  | some error => rfl
  | none => cases stops : (second state).error <;> simp [andThen, stops]

end Report

section Feed

variable {State Item Event Error : Type}

/-- Read a stream. -/
def feed (step : State → Item → Report State Event Error) (state : State) :
    List Item → Report State Event Error
  | [] => .still state
  | item :: items => (step state item).andThen fun next => feed step next items

variable {step : State → Item → Report State Event Error}

theorem feed_append (state : State) (left right : List Item) :
    feed step state (left ++ right) =
      (feed step state left).andThen fun next => feed step next right := by
  induction left generalizing state with
  | nil => simp [feed]
  | cons item items inductionHypothesis =>
      simp [feed, Report.andThen_assoc, inductionHypothesis]

/-- The machine reads a stream to its end. -/
def Reads (step : State → Item → Report State Event Error) (state : State) (items : List Item)
    (events : List Event) (next : State) : Prop :=
  feed step state items = ⟨events, none, next⟩

theorem Reads.nil (state : State) : Reads step state [] [] state :=
  rfl

theorem Reads.append {state middle next : State} {left right : List Item} {events later : List Event}
    (first : Reads step state left events middle) (second : Reads step middle right later next) :
    Reads step state (left ++ right) (events ++ later) next := by
  unfold Reads at *
  rw [feed_append, first, Report.andThen, second]

theorem Reads.cons {state middle next : State} {item : Item} {items : List Item}
    {events later : List Event} (first : step state item = ⟨events, none, middle⟩)
    (rest : Reads step middle items later next) :
    Reads step state (item :: items) (events ++ later) next := by
  unfold Reads at *
  rw [feed, first, Report.andThen, rest]

theorem Reads.one {state next : State} {item : Item} {events : List Event}
    (read : step state item = ⟨events, none, next⟩) : Reads step state [item] events next := by
  have alone := Reads.cons read (.nil next)
  rwa [List.append_nil] at alone

/-- The pieces of a stream that is read to its end are read to their ends. -/
theorem read_of_append {state : State} {left right : List Item}
    (read : (feed step state (left ++ right)).error = none) :
    (feed step state left).error = none ∧
      (feed step (feed step state left).state right).error = none := by
  rw [feed_append, Report.andThen] at read
  cases stops : (feed step state left).error with
  | some error => simp [stops] at read
  | none => exact ⟨rfl, by simpa [stops] using read⟩

/-- A stream that is read to its end is read piece by piece. -/
theorem Reads.split {state next : State} {left right : List Item} {events : List Event}
    (reads : Reads step state (left ++ right) events next) :
    ∃ early middle late, Reads step state left early middle ∧ Reads step middle right late next ∧
      events = early ++ late := by
  unfold Reads at reads
  rw [feed_append] at reads
  cases first : feed step state left with
  | mk early stops middle =>
      rw [first] at reads
      cases stops with
      | some error => simp [Report.andThen] at reads
      | none =>
          cases second : feed step middle right with
          | mk late stops last =>
              simp only [Report.andThen, second, Report.mk.injEq] at reads
              obtain ⟨together, rfl, rfl⟩ := reads
              exact ⟨early, middle, late, first, second, together.symm⟩

end Feed

end FbBroker.Lib
