import Covenant.Settings.Basic

namespace Covenant

inductive ReportFormat
  | text
  | json
  deriving DecidableEq, Repr

def ReportFormat.ofName? : String → Option ReportFormat
  | "text" => some .text
  | "json" => some .json
  | _ => none

structure CheckOptions where
  model : String
  solver : Option SolverChoice
  profile : Option Profile
  format : ReportFormat
  sequential : Bool
  emitSmt : Bool
  deriving DecidableEq, Repr

inductive Command
  | check (options : CheckOptions)
  | printConfig (path : String)
  deriving DecidableEq, Repr

structure Invocation where
  config : Option String
  verbose : Bool
  command : Command
  deriving DecidableEq, Repr

namespace Arguments

-- What was read at one level: before a command, or after it.
structure Level where
  values : List (String × String)
  flags : List String
  positionals : List String
  deriving DecidableEq, Repr

def Level.empty : Level := ⟨[], [], []⟩

-- The options that a level knows: with a value, and without.
structure Options where
  valued : List String
  flags : List String

def globals : Options := ⟨["config"], ["verbose"]⟩

def checkOptions : Options :=
  ⟨["solver", "smt-profile", "format"] ++ globals.valued,
    ["sequential", "emit-smt"] ++ globals.flags⟩

-- Each option may be given once at a level.
def Level.addValue (level : Level) (name value : String) : Option Level :=
  if (level.values.lookup name).isSome then none
  else some { level with values := (name, value) :: level.values }

def Level.addFlag (level : Level) (name : String) : Option Level :=
  if name ∈ level.flags then none else some { level with flags := name :: level.flags }

def Level.addPositional (level : Level) (value : String) : Level :=
  { level with positionals := level.positionals ++ [value] }

-- One argument by its form.
inductive Form
  -- A bare double dash: no options from here on.
  | stop
  | long (name : String) (value : Option String)
  | short (letters : List Char)
  | plain (value : String)
  deriving DecidableEq, Repr

def formOf (argument : String) : Form :=
  match argument.toList with
  | ['-', '-'] => .stop
  | '-' :: '-' :: rest =>
      match rest.span (· ≠ '=') with
      | (name, _ :: value) => .long (String.ofList name) (some (String.ofList value))
      | (name, []) => .long (String.ofList name) none
  | '-' :: c :: rest => .short (c :: rest)
  | _ => .plain argument

-- Reads one level. Before a command the first plain argument names it and ends the level.
def readLevel (options : Options) (beforeCommand : Bool) :
    List String → Level → Option (Level × List String)
  | [], level => some (level, [])
  | argument :: rest, level =>
      match formOf argument with
      | .stop =>
          if beforeCommand then none
          else some ({ level with positionals := level.positionals ++ rest }, [])
      | .long name (some value) =>
          if name ∈ options.valued then do
            let level ← level.addValue name value
            readLevel options beforeCommand rest level
          else none
      | .long name none =>
          if name ∈ options.flags then do
            let level ← level.addFlag name
            readLevel options beforeCommand rest level
          else if name ∈ options.valued then
            match rest with
            | [] => none
            | value :: rest =>
                match formOf value with
                | .plain value => do
                    let level ← level.addValue name value
                    readLevel options beforeCommand rest level
                | _ => none
          else none
      | .short letters =>
          if letters = ['v'] then do
            let level ← level.addFlag "verbose"
            readLevel options beforeCommand rest level
          else none
      | .plain value =>
          if beforeCommand then some (level.addPositional value, rest)
          else readLevel options beforeCommand rest (level.addPositional value)

-- A value that is given has to be one of the known ones.
def known (level : Level) (name : String) (ofName? : String → Option α) : Option (Option α) :=
  match level.values.lookup name with
  | none => some none
  | some value => (ofName? value).map some

def nonEmpty? (value : String) : Option String := if value.isEmpty then none else some value

def checkCommand (level : Level) : Option Command :=
  match level.positionals with
  | [model] => do
      let model ← nonEmpty? model
      let solver ← known level "solver" SolverChoice.ofName?
      let profile ← known level "smt-profile" Profile.ofName?
      let format ← known level "format" ReportFormat.ofName?
      return .check ⟨model, solver, profile, format.getD .text, "sequential" ∈ level.flags,
        "emit-smt" ∈ level.flags⟩
  | _ => none

def printConfigCommand (level : Level) : Option Command :=
  match level.positionals with
  | [] => some (.printConfig ".")
  | [path] => (nonEmpty? path).map .printConfig
  | _ => none

-- An option that both levels know counts as it is given after the command.
def invocation (before after : Level) (command : Command) : Option Invocation := do
  let config ← known before "config" nonEmpty?
  let innerConfig ← known after "config" nonEmpty?
  return ⟨innerConfig.or config, "verbose" ∈ before.flags ++ after.flags, command⟩

def parse? (arguments : List String) : Option Invocation := do
  let (before, rest) ← readLevel globals true arguments .empty
  match before.positionals with
  | ["check"] => do
      let (after, _) ← readLevel checkOptions false rest .empty
      invocation before after (← checkCommand after)
  | ["print-config"] => do
      let (after, _) ← readLevel globals false rest .empty
      invocation before after (← printConfigCommand after)
  | _ => none

end Arguments

end Covenant
