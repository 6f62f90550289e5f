import Covenant.Report.Basic

namespace Covenant

-- A line ends with a line feed, which a carriage return may precede.
def splitLines : List Char → List (List Char)
  | [] => []
  | '\r' :: '\n' :: rest => [] :: splitLines rest
  | '\n' :: rest => [] :: splitLines rest
  | c :: rest =>
      match splitLines rest with
      | [] => [[c]]
      | line :: lines => (c :: line) :: lines

def Status.tag : Status → String
  | .proved => "proved  "
  | .violated _ => "VIOLATED"
  | .inconclusive _ => "unknown "

-- What the report says below an obligation that is not proved.
def Status.detail : Status → Option String
  | .proved => none
  | .violated v => v.witness?
  | .inconclusive reason => some reason.text

namespace ObligationReport

def head (o : ObligationReport) : String :=
  o.status.tag ++ " " ++ o.kind.text ++ " `" ++ o.subject ++ "` at " ++ o.location.text ++
    " (" ++ toString o.durationMs.toNat ++ " ms)"

def detailLines (o : ObligationReport) : List String :=
  match o.status.detail with
  | none => []
  | some detail => ["         " ++ detail]

def smtLines (o : ObligationReport) : List String :=
  match o.smt with
  | none => []
  | some smt => (splitLines smt.toList).map fun line => "    | " ++ String.ofList line

def lines (indent : String) (o : ObligationReport) : List String :=
  (o.head :: (o.detailLines ++ o.smtLines)).map (indent ++ ·)

end ObligationReport

def MethodReport.lines (m : MethodReport) : List String :=
  ("  method " ++ m.method) :: m.obligations.flatMap (ObligationReport.lines "    ")

def ClassOutcome.lines : ClassOutcome → List String
  | .checked initial methods =>
      initial.flatMap (ObligationReport.lines "  ") ++ methods.flatMap MethodReport.lines
  | .unsupported location => ["  skipped: unsupported construct at " ++ location.text]
  | .fault message => ["  not checked: " ++ message]

def ClassReport.lines (r : ClassReport) : List String :=
  let head := "class " ++ r.className ++ " [" ++ r.solver ++ "] (" ++
    toString r.durationMs.toNat ++ " ms)"
  head :: (r.outcome.lines ++ ["  " ++ r.totals.text])

-- A run of several classes ends with the sum of their totals.
def reportText (reports : List ClassReport) : String :=
  let total := if reports.length > 1 then ["total: " ++ (runTotals reports).text] else []
  String.join ((reports.flatMap ClassReport.lines ++ total).map (· ++ "\n"))

end Covenant
