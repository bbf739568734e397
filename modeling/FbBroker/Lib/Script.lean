import Mathlib.Init

/-!
Contract: code that calls back.

A script returns a value, or makes a call and goes on with the answer to it. What a
script always comes to, it comes to under any answers.

Does not own any concrete call.
-/

set_option autoImplicit false

namespace FbBroker.Lib

inductive Script (Call Answer Value : Type) where
  | done (value : Value)
  | call (call : Call) (rest : Answer → Script Call Answer Value)

namespace Script

variable {Call Answer Value Result : Type}

/-- Go on with the value of a script. -/
def andThen (rest : Value → Script Call Answer Result) :
    Script Call Answer Value → Script Call Answer Result
  | done value => rest value
  | call next answered => call next fun answer => (answered answer).andThen rest

/-- Under any answers the value is such. -/
def Always (holds : Value → Prop) : Script Call Answer Value → Prop
  | done value => holds value
  | call _ rest => ∀ answer, (rest answer).Always holds

variable {holds : Value → Prop} {holdsAfter : Result → Prop}

theorem Always.mono {weaker : Value → Prop} {script : Script Call Answer Value} (always : script.Always holds)
    (implies : ∀ value, holds value → weaker value) : script.Always weaker := by
  induction script with
  | done value => exact implies value always
  | call next answered inductionHypothesis => exact fun answer => inductionHypothesis answer (always answer)

theorem Always.andThen {script : Script Call Answer Value} {rest : Value → Script Call Answer Result}
    (first : script.Always holds) (second : ∀ value, holds value → (rest value).Always holdsAfter) :
    (script.andThen rest).Always holdsAfter := by
  induction script with
  | done value => exact second value first
  | call next answered inductionHypothesis => exact fun answer => inductionHypothesis answer (first answer)

end Script

end FbBroker.Lib
