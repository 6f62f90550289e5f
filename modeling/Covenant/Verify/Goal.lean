import Covenant.Report.Basic

namespace Covenant

-- What an obligation is to show.
inductive Goal
  -- The requires clauses of the method can hold together.
  | precondition (method : String) (first : Clause) (rest : List Clause)
  -- The clause holds after every run of the method.
  | ensure (method : String) (clause : Clause)
  -- The invariant holds for the initial values of the fields.
  | initial (invariant : Clause)
  -- The invariant holds after the method if it held before.
  | preservation (method : String) (invariant : Clause)
  deriving DecidableEq, Repr

namespace Goal

def kind : Goal → ObligationKind
  | .precondition _ _ _ => .precondition
  | .ensure _ _ => .ensure
  | .initial _ => .invariantInitial
  | .preservation _ _ => .invariantPreservation

def method? : Goal → Option String
  | .precondition method _ _ => some method
  | .ensure method _ => some method
  | .initial _ => none
  | .preservation method _ => some method

def subject : Goal → String
  | .precondition _ first rest => " && ".intercalate ((first :: rest).map Clause.text)
  | .ensure _ clause => clause.text
  | .initial invariant => invariant.text
  | .preservation _ invariant => invariant.text

def location : Goal → Location
  | .precondition _ first _ => first.location
  | .ensure _ clause => clause.location
  | .initial invariant => invariant.location
  | .preservation _ invariant => invariant.location

-- A query has a model when the goal fails. That of a precondition has one when the goal holds.
def wantsModel : Goal → Bool
  | .precondition _ _ _ => true
  | _ => false

def violation (goal : Goal) (counterexample : Option Counterexample) : Violation :=
  match goal with
  | .precondition method _ _ => .require method goal.subject goal.location none
  | .ensure method clause => .ensure method clause counterexample
  | .initial invariant => .invariant invariant none counterexample
  | .preservation method invariant => .invariant invariant (some method) counterexample

end Goal

end Covenant
