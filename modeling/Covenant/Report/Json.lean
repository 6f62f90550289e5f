import Covenant.Json.Print
import Covenant.Model.Json
import Covenant.Report.Basic

namespace Covenant

def Binding.toJson (b : Binding) : Json :=
  .obj [("name", .str b.name), ("version", .nat b.version), ("ty", .str b.type),
    ("value", .str b.value)]

def Counterexample.toJson (c : Counterexample) : Json :=
  .obj [("bindings", .list Binding.toJson c.bindings)]

def Violation.toJson : Violation → Json
  | .require method assertion location call =>
      .tagged "require" (.obj [("method", .str method), ("assertion", .str assertion),
        ("location", location.toJson), ("call", .option .str call)])
  | .ensure method clause counterexample =>
      .tagged "ensure" (.obj [("method", .str method), ("ensure", clause.toJson),
        ("counterexample", .option Counterexample.toJson counterexample)])
  | .invariant clause method counterexample =>
      .tagged "invariant" (.obj [("invariant", clause.toJson), ("method", .option .str method),
        ("counterexample", .option Counterexample.toJson counterexample)])

def ObligationKind.toJson : ObligationKind → Json
  | .precondition => .str "precondition"
  | .ensure => .str "ensure"
  | .invariantInitial => .str "invariant_initial"
  | .invariantPreservation => .str "invariant_preservation"

def Inconclusive.toJson : Inconclusive → Json
  | .solverUnknown reason => .tagged "solver_unknown" (.str reason)
  | .solverUnavailable reason => .tagged "solver_unavailable" (.str reason)
  | .internalFault reason => .tagged "internal_fault" (.str reason)

def Status.toJson : Status → Json
  | .proved => .str "proved"
  | .violated v => .tagged "violated" v.toJson
  | .inconclusive reason => .tagged "inconclusive" reason.toJson

def ObligationReport.toJson (o : ObligationReport) : Json :=
  let smt := match o.smt with
    | none => []
    | some smt => [("smt", .str smt)]
  .obj ([("kind", o.kind.toJson), ("method", .option .str o.method), ("subject", .str o.subject),
    ("location", o.location.toJson), ("duration_ms", .nat o.durationMs.toNat),
    ("status", o.status.toJson)] ++ smt)

def MethodReport.toJson (m : MethodReport) : Json :=
  .obj [("method", .str m.method), ("obligations", .list ObligationReport.toJson m.obligations)]

def ClassOutcome.toJson : ClassOutcome → Json
  | .checked initial methods =>
      .tagged "checked" (.obj [("initial", .list ObligationReport.toJson initial),
        ("methods", .list MethodReport.toJson methods)])
  | .unsupported location => .tagged "unsupported" (.obj [("location", location.toJson)])
  | .fault message => .tagged "fault" (.obj [("message", .str message)])

def ClassReport.toJson (r : ClassReport) : Json :=
  .obj [("class", .str r.className), ("solver", .str r.solver),
    ("duration_ms", .nat r.durationMs.toNat), ("outcome", r.outcome.toJson)]

def Totals.toJson (t : Totals) : Json :=
  .obj [("proved", .nat t.proved), ("violated", .nat t.violated),
    ("inconclusive", .nat t.inconclusive)]

-- The report of a run over one input.
def reportJson (input : String) (reports : List ClassReport) : String :=
  (Json.obj [("schema", .str "vow.report.v1"), ("input", .str input),
    ("classes", .list ClassReport.toJson reports), ("totals", (runTotals reports).toJson)]).pretty

end Covenant
