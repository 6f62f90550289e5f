import Covenant.Report.Violation

namespace Covenant

inductive ObligationKind
  | precondition
  | ensure
  | invariantInitial
  | invariantPreservation
  deriving DecidableEq, Repr

def ObligationKind.text : ObligationKind → String
  | .precondition => "requires"
  | .ensure => "ensures"
  | .invariantInitial => "invariant (initial)"
  | .invariantPreservation => "invariant (preserved)"

inductive Inconclusive
  | solverUnknown (reason : String)
  | solverUnavailable (reason : String)
  | internalFault (reason : String)
  deriving DecidableEq, Repr

def Inconclusive.text : Inconclusive → String
  | .solverUnknown reason => "solver returned unknown: " ++ reason
  | .solverUnavailable reason => "solver unavailable: " ++ reason
  | .internalFault reason => "internal error: " ++ reason

inductive Status
  | proved
  | violated (v : Violation)
  | inconclusive (reason : Inconclusive)
  deriving DecidableEq, Repr

structure ObligationReport where
  kind : ObligationKind
  method : Option String
  subject : String
  location : Location
  durationMs : UInt64
  status : Status
  smt : Option String
  deriving DecidableEq, Repr

namespace ObligationReport

def isProved (o : ObligationReport) : Bool := o.status = .proved

def violation? (o : ObligationReport) : Option Violation :=
  match o.status with
  | .violated v => some v
  | _ => none

def inconclusive? (o : ObligationReport) : Option Inconclusive :=
  match o.status with
  | .inconclusive reason => some reason
  | _ => none

end ObligationReport

structure MethodReport where
  method : String
  obligations : List ObligationReport
  deriving DecidableEq, Repr

inductive ClassOutcome
  | checked (initial : List ObligationReport) (methods : List MethodReport)
  | unsupported (location : Location)
  | fault (message : String)
  deriving DecidableEq, Repr

structure ClassReport where
  className : String
  solver : String
  durationMs : UInt64
  outcome : ClassOutcome
  deriving DecidableEq, Repr

structure Totals where
  proved : Nat
  violated : Nat
  inconclusive : Nat
  deriving DecidableEq, Repr

namespace Totals

def zero : Totals := ⟨0, 0, 0⟩

def total (t : Totals) : Nat := t.proved + t.violated + t.inconclusive

def add (s t : Totals) : Totals :=
  ⟨s.proved + t.proved, s.violated + t.violated, s.inconclusive + t.inconclusive⟩

def count (t : Totals) (o : ObligationReport) : Totals :=
  match o.status with
  | .proved => ⟨t.proved + 1, t.violated, t.inconclusive⟩
  | .violated _ => ⟨t.proved, t.violated + 1, t.inconclusive⟩
  | .inconclusive _ => ⟨t.proved, t.violated, t.inconclusive + 1⟩

def text (t : Totals) : String :=
  s!"{t.total} obligations: {t.proved} proved, {t.violated} violated, {t.inconclusive} inconclusive"

end Totals

namespace ClassReport

def obligations (r : ClassReport) : List ObligationReport :=
  match r.outcome with
  | .checked initial methods => initial ++ methods.flatMap MethodReport.obligations
  | _ => []

def violations (r : ClassReport) : List Violation :=
  r.obligations.filterMap ObligationReport.violation?

def totals (r : ClassReport) : Totals := r.obligations.foldl Totals.count .zero

def isUnsupported (r : ClassReport) : Bool :=
  match r.outcome with
  | .unsupported _ => true
  | _ => false

-- Some part of the class was neither proved nor refuted.
def isIncomplete (r : ClassReport) : Bool :=
  match r.outcome with
  | .checked _ _ => r.totals.inconclusive > 0
  | _ => true

end ClassReport

def runTotals (reports : List ClassReport) : Totals :=
  reports.foldl (fun t r => t.add r.totals) .zero

-- 0: all proved. 1: a violation. 2: no violation, but not all was checked.
def exitCode (reports : List ClassReport) : Nat :=
  if reports.any fun r => !r.violations.isEmpty then 1
  else if reports.any ClassReport.isIncomplete then 2
  else 0

-- Whole milliseconds of a duration, at most the largest that fits a word.
def wholeMilliseconds (seconds nanoseconds : Nat) : Nat :=
  min (seconds * 1000 + nanoseconds / 1000000) 0xFFFFFFFFFFFFFFFF

end Covenant
