import Covenant.Bridge.Host
import Covenant.Json.Value
import Covenant.Search.Window

namespace Covenant

inductive SolverChoice
  | bounded
  | z3
  | worker
  deriving DecidableEq, Repr

def SolverChoice.name : SolverChoice → String
  | .bounded => "bounded"
  | .z3 => "z3"
  | .worker => "worker"

def SolverChoice.all : List SolverChoice := [.bounded, .z3, .worker]

def SolverChoice.ofName? (name : String) : Option SolverChoice := all.find? fun c => c.name = name

-- How long a query may take.
inductive Profile
  | fast
  | ci
  | thorough
  deriving DecidableEq, Repr

def Profile.name : Profile → String
  | .fast => "fast"
  | .ci => "ci"
  | .thorough => "thorough"

def Profile.all : List Profile := [.fast, .ci, .thorough]

def Profile.ofName? (name : String) : Option Profile := all.find? fun p => p.name = name

def Profile.timeoutMs : Profile → UInt32
  | .fast => 50
  | .ci => 250
  | .thorough => 2000

structure SolverSettings where
  choice : SolverChoice
  profile : Profile
  timeoutMs : Option UInt32
  deriving DecidableEq, Repr

-- The profile decides where there is no timeout of its own.
def SolverSettings.effectiveTimeoutMs (s : SolverSettings) : UInt32 :=
  s.timeoutMs.getD s.profile.timeoutMs

structure BridgeSettings where
  capacity : UInt64
  pollIntervalMs : UInt64
  idleTimeoutMs : UInt64
  responseTimeoutMs : UInt64
  deriving DecidableEq, Repr

def BridgeSettings.config (s : BridgeSettings) : BridgeConfig :=
  ⟨s.capacity.toNat, s.idleTimeoutMs.toNat, s.responseTimeoutMs.toNat⟩

structure Settings where
  solver : SolverSettings
  bounded : Search.Bounds
  parallel : Bool
  bridge : BridgeSettings
  deriving DecidableEq, Repr

namespace Settings

def standard : Settings where
  solver := ⟨.bounded, .thorough, none⟩
  bounded := .standard
  parallel := true
  bridge := ⟨65536, 20, 60000, 30000⟩

def toJson (s : Settings) : Json :=
  let timeout := match s.solver.timeoutMs with
    | none => []
    | some ms => [("timeout_ms", .nat ms.toNat)]
  .obj [
    ("solver", .obj ([("backend", .str s.solver.choice.name),
      ("profile", .str s.solver.profile.name)] ++ timeout)),
    ("bounded", .obj [("radius", .nat s.bounded.radius.toNat),
      ("max_assignments", .nat s.bounded.budget.toNat)]),
    ("engine", .obj [("parallel", .bool s.parallel)]),
    ("bridge", .obj [("capacity", .nat s.bridge.capacity.toNat),
      ("poll_interval_ms", .nat s.bridge.pollIntervalMs.toNat),
      ("idle_timeout_ms", .nat s.bridge.idleTimeoutMs.toNat),
      ("response_timeout_ms", .nat s.bridge.responseTimeoutMs.toNat)])]

end Settings

end Covenant
