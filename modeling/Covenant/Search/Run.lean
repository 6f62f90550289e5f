import Covenant.Search.Cursor
import Covenant.Search.Plan
import Covenant.Solver

namespace Covenant

def Scalar.toValue : Scalar → Value
  | .int n => .int n
  | .bool b => .bool b

end Covenant

namespace Covenant.Search

inductive Trial
  | holds (env : Env)
  | fails
  | undetermined
  deriving DecidableEq, Repr

-- Follows the steps from the values of a candidate.
def attempt (env : Env) : List Step → Trial
  | [] => .holds env
  | .define s term :: steps =>
      match term.eval env with
      | some v => attempt ((s.name, v) :: env) steps
      | none => .undetermined
  | .require term :: steps =>
      match term.eval env with
      | some (.bool true) => attempt env steps
      | some _ => .fails
      | none => .undetermined

inductive Verdict
  | found (env : Env)
  | exhausted (undetermined : UInt64)

-- Tries one candidate after the other, up to the first that holds.
def scan (steps : List Step) (slots : Cursor) (undetermined : UInt64) : Verdict :=
  match attempt slots.candidate steps, h : slots.advance? with
  | .holds env, _ => .found env
  | .fails, some next => scan steps next undetermined
  | .fails, none => .exhausted undetermined
  | .undetermined, some next => scan steps next (undetermined + 1)
  | .undetermined, none => .exhausted (undetermined + 1)
termination_by slots.remaining
decreasing_by
  · rw [Cursor.remaining_of_advance? h]
    exact Nat.lt_succ_self _
  · rw [Cursor.remaining_of_advance? h]
    exact Nat.lt_succ_self _

def assignment (env : Env) : Assignment :=
  NameMap.ofList (env.map fun (name, v) => (name, v.toValue))

def overBudget (count : Nat) (budget : UInt64) : String :=
  s!"{count} free symbols exceed the search budget of {budget} assignments"

-- What an exhausted search says: nothing definite if some candidate had no value or some integer
-- was only tried in its window.
def exhausted (bounds : Bounds) (plan : Plan) (undetermined : UInt64) : Outcome :=
  if 0 < undetermined then
    .unknown s!"{undetermined} candidate assignments overflowed or divided by zero"
  else if plan.free.all fun s => s.sort = .bool then .proved
  else .unknown s!"no model within radius {bounds.radius}"

def check (bounds : Bounds) (f : Formula) : Outcome :=
  let plan := Plan.ofFormula f
  let slots := Cursor.start bounds.radius (seeds bounds.radius f) plan.free
  if slots.fits bounds.budget then
    match scan plan.steps slots 0 with
    | .found env => .counterexample (assignment env)
    | .exhausted undetermined => exhausted bounds plan undetermined
  else .unknown (overBudget plan.free.length bounds.budget)

end Covenant.Search

namespace Covenant

def Solver.bounded (bounds : Search.Bounds) : Solver Unit where
  name := "bounded"
  check f s := (.ok (Search.check bounds f), s)

end Covenant
