import Covenant.Model.Class
import Covenant.Report.Counterexample

namespace Covenant

inductive Violation
  -- The requires clauses of the method cannot hold together.
  | require (method assertion : String) (location : Location) (call : Option String)
  | ensure (method : String) (clause : Clause) (counterexample : Option Counterexample)
  -- The invariant fails after initialization, or after the method.
  | invariant (clause : Clause) (method : Option String) (counterexample : Option Counterexample)
  deriving DecidableEq, Repr

namespace Violation

def assertion : Violation → String
  | .require _ assertion _ _ => assertion
  | .ensure _ clause _ => clause.text
  | .invariant clause _ _ => clause.text

def location : Violation → Location
  | .require _ _ location _ => location
  | .ensure _ clause _ => clause.location
  | .invariant clause _ _ => clause.location

def counterexample : Violation → Option Counterexample
  | .require _ _ _ _ => none
  | .ensure _ _ counterexample => counterexample
  | .invariant _ _ counterexample => counterexample

def message : Violation → String
  | .require method assertion _ _ =>
      s!"requires of `{method}` can never be satisfied: `{assertion}`"
  | .ensure method clause _ => "`" ++ method ++ "` may violate ensures `" ++ clause.text ++ "`"
  | .invariant clause (some method) _ =>
      "`" ++ method ++ "` may break invariant `" ++ clause.text ++ "`"
  | .invariant clause none _ =>
      "invariant `" ++ clause.text ++ "` does not hold after initialization"

-- The inputs that show the violation, where there are any.
def witness? (v : Violation) : Option String :=
  match v.counterexample with
  | none => none
  | some c => if c.isEmpty then none else some ("counterexample: " ++ c.compact)

def label (v : Violation) : String := "at " ++ v.location.text

def code : String := "vow::verify"

end Violation

end Covenant
