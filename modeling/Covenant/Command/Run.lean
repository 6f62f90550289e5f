import Covenant.Command.Arguments
import Covenant.Model.Json
import Covenant.Report.Json
import Covenant.Report.Text
import Covenant.Search.Run
import Covenant.Settings.Discovery
import Covenant.Verify.Engine

namespace Covenant

-- What a run leaves: its exit code and what it wrote.
structure Output where
  exit : Nat
  stdout : String
  stderr : String
  deriving DecidableEq, Repr

namespace Output

def failure (message : String) : Output := ⟨2, "", message ++ "\n"⟩

end Output

namespace Command

-- Why there is no solver for unbounded queries.
def z3Reason : String := "vow was built without the `z3` feature"

-- Reports on all classes with the solver that the settings name. `owner` marks the names of the
-- worker's segments.
def verifyWith (owner : String) (settings : Settings) (emitSmt : Bool)
    (classes : List ClassModel) : Except BridgeError (List ClassReport) :=
  let bounded := Solver.bounded settings.bounded
  match settings.solver.choice with
  | .bounded => .ok (ClassModel.verifyAll bounded emitSmt classes ()).1
  | .z3 => .ok (ClassModel.verifyAll (.unavailable z3Reason) emitSmt classes ()).1
  | .worker => do
      let host ← (Host.spawn bounded.backend () settings.bridge.config (.empty owner)).1
      return (ClassModel.verifyAll bounded.backend.hosted emitSmt classes host).1

def checkOutput (options : CheckOptions) (reports : List ClassReport) : Output :=
  match options.format with
  | .text =>
      let violations := reports.flatMap ClassReport.violations
      ⟨exitCode reports, reportText reports,
        String.join (violations.map fun v => Violation.code ++ ": " ++ v.message ++ "\n")⟩
  | .json => ⟨exitCode reports, reportJson options.model reports ++ "\n", ""⟩

-- The settings as the options of a check change them.
def adjust (options : CheckOptions) (settings : Settings) : Settings :=
  { settings with
    solver := { settings.solver with
      choice := options.solver.getD settings.solver.choice
      profile := options.profile.getD settings.solver.profile }
    parallel := settings.parallel && !options.sequential }

variable {m : Type → Type} [Monad m]

def runCheck (owner : String) (files : Files m) (options : CheckOptions) (resolved : Resolved) :
    m Output := do
  match ← files.read options.model.toList with
  | .error reason => return .failure reason
  | .ok text =>
      match ClassModel.ofFile? text.toList with
      | none => return .failure "the model file holds no class"
      | some classes =>
          let settings := adjust options resolved.settings
          match verifyWith owner settings options.emitSmt classes with
          | .error e => return .failure e.text
          | .ok reports => return checkOutput options reports

def printConfigOutput (resolved : Resolved) : Output :=
  let origin := match resolved.path with
    | some path => String.ofList path
    | none => "defaults (no " ++ settingsFile ++ " found)"
  ⟨0, "# " ++ origin ++ "\n" ++ resolved.settings.render, ""⟩

-- The path where the search for settings starts.
def start : Command → String
  | .check options => options.model
  | .printConfig path => path

def run (owner : String) (files : Files m) (arguments : List String) : m Output := do
  match Arguments.parse? arguments with
  | none => return .failure "usage: vow [--config PATH] [-v] (check MODEL | print-config [PATH])"
  | some invocation =>
      let given := invocation.config.map String.toList
      match ← Settings.resolve files given (start invocation.command).toList with
      | .error e => return .failure ("config error: " ++ e.message)
      | .ok resolved =>
          match invocation.command with
          | .check options => runCheck owner files options resolved
          | .printConfig _ => return printConfigOutput resolved

end Command

end Covenant
