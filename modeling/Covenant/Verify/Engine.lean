import Covenant.Term.Smt
import Covenant.Verify.Obligation

namespace Covenant

def SolverError.reason : SolverError → Inconclusive
  | .unavailable reason => .solverUnavailable reason
  | .backend reason => .internalFault reason

-- A counterexample without bindings says nothing.
def Counterexample.nonEmpty? (c : Counterexample) : Option Counterexample :=
  if c.isEmpty then none else some c

namespace Obligation

-- What the answer of a solver means for the goal.
def judge (o : Obligation) : Answer → Status
  | .ok .proved => if o.goal.wantsModel then .violated (o.goal.violation none) else .proved
  | .ok (.counterexample assignment) =>
      if o.goal.wantsModel then .proved
      else .violated (o.goal.violation (Counterexample.ofAssignment o.types assignment).nonEmpty?)
  | .ok (.unknown reason) => .inconclusive (.solverUnknown reason)
  | .error e => .inconclusive e.reason

def report (o : Obligation) (status : Status) (smt : Option String) : ObligationReport :=
  ⟨o.goal.kind, o.goal.method?, o.goal.subject, o.goal.location, 0, status, smt⟩

-- Asks the solver about the query. An obligation without a query is not decided.
def discharge (solver : Solver σ) (emitSmt : Bool) (o : Obligation) (s : σ) :
    ObligationReport × σ :=
  match o.query with
  | .error e => (o.report (.inconclusive (.internalFault e.message)) none, s)
  | .ok f =>
      let (answer, s) := solver.check f s
      (o.report (o.judge answer) (if emitSmt then some f.smtLib else none), s)

def dischargeAll (solver : Solver σ) (emitSmt : Bool) : List Obligation → σ →
    List ObligationReport × σ
  | [], s => ([], s)
  | o :: rest, s =>
      let (report, s) := o.discharge solver emitSmt s
      let (reports, s) := dischargeAll solver emitSmt rest s
      (report :: reports, s)

end Obligation

namespace ClassModel

def verifyMethod (solver : Solver σ) (emitSmt : Bool) (c : ClassModel) (m : Method) (s : σ) :
    MethodReport × σ :=
  let (reports, s) := Obligation.dischargeAll solver emitSmt (c.methodObligations m) s
  (⟨m.name, reports⟩, s)

-- The methods are taken one after the other, each from the state in which the one before it leaves
-- the solver. With the setting `parallel` they are taken side by side, which is not modelled: a
-- solver without a state gives the same reports then, and any other is in some state at each query.
def verifyMethods (solver : Solver σ) (emitSmt : Bool) (c : ClassModel) : List Method → σ →
    List MethodReport × σ
  | [], s => ([], s)
  | m :: rest, s =>
      let (report, s) := c.verifyMethod solver emitSmt m s
      let (reports, s) := c.verifyMethods solver emitSmt rest s
      (report :: reports, s)

-- One unsupported part stops the whole class: no query is made for it.
def outcome (solver : Solver σ) (emitSmt : Bool) (c : ClassModel) (s : σ) : ClassOutcome × σ :=
  if c.isSealed then
    match c.firstUnsupported with
    | some location => (.unsupported location, s)
    | none =>
        let (initial, s) := Obligation.dischargeAll solver emitSmt c.initialObligations s
        let (methods, s) := c.verifyMethods solver emitSmt c.supportedMethods s
        (.checked initial methods, s)
  else (.fault ("class `" ++ c.name ++ "` has unsealed tables"), s)

def verify (solver : Solver σ) (emitSmt : Bool) (c : ClassModel) (s : σ) : ClassReport × σ :=
  let (outcome, s) := c.outcome solver emitSmt s
  (⟨c.name, solver.name, 0, outcome⟩, s)

def verifyAll (solver : Solver σ) (emitSmt : Bool) : List ClassModel → σ → List ClassReport × σ
  | [], s => ([], s)
  | c :: rest, s =>
      let (report, s) := c.verify solver emitSmt s
      let (reports, s) := verifyAll solver emitSmt rest s
      (report :: reports, s)

end ClassModel

end Covenant
