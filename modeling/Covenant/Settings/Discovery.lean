import Covenant.Files.Tree
import Covenant.Settings.Toml

namespace Covenant

def settingsFile : String := "vow.toml"

inductive SettingsError
  | unreadable (path : Path) (reason : String)
  | malformed (path : Path)
  deriving DecidableEq, Repr

def SettingsError.message : SettingsError → String
  | .unreadable path reason => "cannot read " ++ String.ofList path ++ ": " ++ reason
  | .malformed path => String.ofList path

-- The file that settings came from, where there is one, and the settings.
structure Resolved where
  path : Option Path
  settings : Settings

namespace Settings

variable {m : Type → Type} [Monad m]

-- Looks for a settings file in a directory and then in each parent. A parent is shorter, so the
-- length of the path bounds the steps.
def searchWithin (files : Files m) : Nat → Path → m (Option Path)
  | 0, _ => return none
  | steps + 1, directory => do
      let candidate := directory.join settingsFile
      if ← files.isFile candidate then return some candidate
      match directory.parent? with
      | none => return none
      | some parent => searchWithin files steps parent

-- The nearest settings file at or above a path, by the names in the path.
def find (files : Files m) (start : Path) : m (Option Path) := do
  let directory := if ← files.isFile start then start.parent? else some start
  match directory with
  | none => return none
  | some directory => searchWithin files (directory.length + 1) directory

def load (files : Files m) (path : Path) : m (Except SettingsError Settings) := do
  match ← files.read path with
  | .error reason => return .error (.unreadable path reason)
  | .ok text =>
      match parse? text with
      | some settings => return .ok settings
      | none => return .error (.malformed path)

-- The settings at a given path, or at the nearest one, or else the standard ones.
def resolve (files : Files m) (given : Option Path) (start : Path) :
    m (Except SettingsError Resolved) := do
  let path ← match given with
    | some path => pure (some path)
    | none => find files start
  match path with
  | none => return .ok ⟨none, standard⟩
  | some path => return (← load files path).map fun settings => ⟨some path, settings⟩

end Settings

end Covenant
