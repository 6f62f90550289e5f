import Covenant.Data.NameMap
import Covenant.Term.Basic

namespace Covenant

-- A value in a solver's answer. Values of other sorts are kept as text.
inductive Value
  | int (n : Int64)
  | bool (b : Bool)
  | other (text : String)
  deriving DecidableEq, Repr

def Value.text : Value → String
  | .int n => toString n.toInt
  | .bool b => if b then "true" else "false"
  | .other text => text

-- What a solver found to satisfy a formula, by symbol name.
abbrev Assignment := NameMap Value

inductive Outcome
  | proved
  | counterexample (found : Assignment)
  | unknown (reason : String)
  deriving DecidableEq, Repr

inductive SolverError
  | unavailable (reason : String)
  | backend (reason : String)
  deriving DecidableEq, Repr

def SolverError.message : SolverError → String
  | .unavailable reason => "solver unavailable: " ++ reason
  | .backend reason => "solver failed: " ++ reason

def SolverError.code : SolverError → String
  | .unavailable _ => "vow::solver::unavailable"
  | .backend _ => "vow::solver::backend"

abbrev Answer := Except SolverError Outcome

-- A solver answers each formula from its own state and leaves a new one.
structure Solver (σ : Type) where
  name : String
  check : Formula → σ → Answer × σ

-- A solver that is not there.
def Solver.unavailable (reason : String) : Solver Unit where
  name := "unavailable"
  check _ s := (.error (.unavailable reason), s)

end Covenant
