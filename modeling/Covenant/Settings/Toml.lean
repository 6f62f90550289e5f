import Covenant.Settings.Basic
import Covenant.Toml.Document

namespace Covenant.Settings

-- Reads a value of a setting.
abbrev Decode (α : Type) := Toml → Option α

namespace Decode

def boolean : Decode Bool
  | .boolean b => some b
  | _ => none

def natBelow (bound : Nat) : Decode Nat
  | .integer n => if 0 ≤ n ∧ n < bound then some n.toNat else none
  | _ => none

def word32 : Decode UInt32 := fun v => (natBelow 0x100000000 v).map UInt32.ofNat

def word64 : Decode UInt64 := fun v => (natBelow 0x10000000000000000 v).map UInt64.ofNat

def isEmptyContainer : Toml → Bool
  | .array items => items.isEmpty
  | .table _ entries => entries.isEmpty
  | .tables elements => elements.isEmpty
  | _ => false

-- A name, or a table whose only key is the name and holds nothing.
def choice (ofName? : String → Option α) : Decode α
  | .string s => ofName? s
  | .table _ [(name, content)] => if isEmptyContainer content then ofName? name else none
  | _ => none

end Decode

-- The values of a section: by name, or in order as an array.
inductive Fields
  | named (entries : Toml.Entries)
  | ordered (items : List Toml)

-- A point in time is a table of its own kind, with none of the names of a section.
def fields? : Toml → Option Fields
  | .table _ entries => some (.named entries)
  | .array items => some (.ordered items)
  | .tables elements => some (.ordered (elements.map (.table .header)))
  | .datetime _ => some (.named [])
  | _ => none

-- The value of a field by its name and its place, or what stands for it where it is missing.
def Fields.read (fields : Fields) (name : String) (place : Nat) (decode : Decode α)
    (absent : α) : Option α :=
  let found := match fields with
    | .named entries => entries.lookup name
    | .ordered items => items[place]?
  match found with
  | none => some absent
  | some v => decode v

-- A section that is missing has all of its values as they stand.
def readSection (root : Toml.Entries) (name : String) (read : Fields → Option α) : Option α :=
  match root.lookup name with
  | none => read (.named [])
  | some v => (fields? v).bind read

def readSolver (d : SolverSettings) (fields : Fields) : Option SolverSettings := do
  let choice ← fields.read "backend" 0 (.choice SolverChoice.ofName?) d.choice
  let profile ← fields.read "profile" 1 (.choice Profile.ofName?) d.profile
  let timeoutMs ← fields.read "timeout_ms" 2 (fun v => (Decode.word32 v).map some) d.timeoutMs
  return ⟨choice, profile, timeoutMs⟩

def readBounded (d : Search.Bounds) (fields : Fields) : Option Search.Bounds := do
  let radius ← fields.read "radius" 0 Decode.word32 d.radius
  let budget ← fields.read "max_assignments" 1 Decode.word64 d.budget
  return ⟨radius, budget⟩

def readBridge (d : BridgeSettings) (fields : Fields) : Option BridgeSettings := do
  let capacity ← fields.read "capacity" 0 Decode.word64 d.capacity
  let poll ← fields.read "poll_interval_ms" 1 Decode.word64 d.pollIntervalMs
  let idle ← fields.read "idle_timeout_ms" 2 Decode.word64 d.idleTimeoutMs
  let response ← fields.read "response_timeout_ms" 3 Decode.word64 d.responseTimeoutMs
  return ⟨capacity, poll, idle, response⟩

def ofEntries? (root : Toml.Entries) : Option Settings := do
  let d := standard
  let solver ← readSection root "solver" (readSolver d.solver)
  let bounded ← readSection root "bounded" (readBounded d.bounded)
  let parallel ← readSection root "engine" (·.read "parallel" 0 Decode.boolean d.parallel)
  let bridge ← readSection root "bridge" (readBridge d.bridge)
  return ⟨solver, bounded, parallel, bridge⟩

-- Settings from the text of a settings file. Names that mean nothing here are left alone.
def parse? (text : String) : Option Settings := (Toml.parse? text).bind ofEntries?

def nameLine (key value : String) : String := key ++ " = \"" ++ value ++ "\"\n"

def numberLine (key : String) (value : Nat) : String := key ++ " = " ++ toString value ++ "\n"

-- The text of a settings file with all values.
def render (s : Settings) : String :=
  let timeout := match s.solver.timeoutMs with
    | none => ""
    | some ms => numberLine "timeout_ms" ms.toNat
  "[solver]\n" ++ nameLine "backend" s.solver.choice.name ++
    nameLine "profile" s.solver.profile.name ++ timeout ++
  "\n[bounded]\n" ++ numberLine "radius" s.bounded.radius.toNat ++
    numberLine "max_assignments" s.bounded.budget.toNat ++
  "\n[engine]\n" ++ "parallel = " ++ (if s.parallel then "true" else "false") ++ "\n" ++
  "\n[bridge]\n" ++ numberLine "capacity" s.bridge.capacity.toNat ++
    numberLine "poll_interval_ms" s.bridge.pollIntervalMs.toNat ++
    numberLine "idle_timeout_ms" s.bridge.idleTimeoutMs.toNat ++
    numberLine "response_timeout_ms" s.bridge.responseTimeoutMs.toNat

end Covenant.Settings
