import Covenant.Toml.Number

namespace Covenant.Toml

namespace Scan

mutual

-- `depth` is how many containers may still be opened. The fuel falls with each call.
def value : (fuel depth : Nat) → Scan Toml
  | 0, _ => failure
  | fuel + 1, depth => do
      match ← peek with
      | some '[' => do
          char '['
          match depth with
          | 0 => failure
          | depth + 1 => return .array (← items fuel depth)
      | some '\x7b' => do
          char '\x7b'
          blanks
          match depth with
          | 0 => failure
          | depth + 1 => do
              let entries ← ((do char '\x7d'; return []) <|> pairs fuel depth)
              match Entries.addAll [] entries with
              | some entries => return .table .closed entries
              | none => failure
      | _ => scalar

-- The items of an array up to its end. A comma may follow the last.
def items : (fuel depth : Nat) → Scan (List Toml)
  | 0, _ => failure
  | fuel + 1, depth => do
      emptyLines
      match ← attempt (char ']') with
      | some () => return []
      | none => do
          let v ← value fuel depth
          emptyLines
          match ← attempt (char ',') with
          | some () => return v :: (← items fuel depth)
          | none => do
              char ']'
              return [v]

-- The entries of a table in braces, which stands on one line.
def pairs : (fuel depth : Nat) → Scan (List (List String × Toml))
  | 0, _ => failure
  | fuel + 1, depth => do
      let path ← key
      char '='
      blanks
      let v ← value fuel depth
      blanks
      match ← attempt (char ',') with
      | some () => return (path, v) :: (← pairs fuel depth)
      | none => do
          char '\x7d'
          return [(path, v)]

end

end Scan

inductive Header
  | root
  | table (path : List String)
  | element (path : List String)
  deriving DecidableEq, Repr

-- What a line says.
inductive Line
  | header (h : Header)
  | entry (path : List String) (v : Toml)

namespace Scan

def header : Scan Header :=
  (do text "[["
      let path ← key
      text "]]"
      return .element path) <|>
  (do char '['
      let path ← key
      char ']'
      return .table path)

def entry : Scan (List String × Toml) := do
  let path ← key
  char '='
  blanks
  let v ← value (2 * (← length) + 2) nestingLimit
  return (path, v)

-- A line, or none where a line says nothing.
def line : Scan (Option Line) := do
  blanks
  match ← peek with
  | some '[' => do
      let h ← header
      lineEnd
      return some (.header h)
  | none | some '#' | some '\n' | some '\r' => do
      lineEnd
      return none
  | some _ => do
      let (path, v) ← entry
      lineEnd
      return some (.entry path v)

def linesWithin : Nat → Scan (List Line)
  | 0 => failure
  | rounds + 1 => do
      match ← peek with
      | none => return []
      | some _ => do
          let l ← line
          let rest ← linesWithin rounds
          return l.toList ++ rest

-- A mark of the byte order may come first.
def lines : Scan (List Line) := do
  let _ ← attempt (char '\ufeff')
  linesWithin ((← length) + 1)

end Scan

-- A header and the entries below it.
structure Section where
  header : Header
  entries : List (List String × Toml)

-- The sections of the lines, of which the first is under `header`.
def sections (header : Header) : List Line → List Section
  | [] => [⟨header, []⟩]
  | .header next :: rest => ⟨header, []⟩ :: sections next rest
  | .entry path v :: rest =>
      match sections header rest with
      | [] => [⟨header, [(path, v)]⟩]
      | s :: more => ⟨s.header, (path, v) :: s.entries⟩ :: more

namespace Entries

-- A header makes a new table, or takes over one that was implied.
def openTable (name : String) (pairs : List (List String × Toml)) (entries : Entries) :
    Option Entries :=
  match entries.lookup name with
  | none => do
      let inner ← addAll [] pairs
      return entries ++ [(name, .table .header inner)]
  | some (.table .implied inner) => do
      let inner ← addAll inner pairs
      return replace name (.table .header inner) entries
  | some _ => none

def addElement (name : String) (pairs : List (List String × Toml)) (entries : Entries) :
    Option Entries := do
  let element ← addAll [] pairs
  match entries.lookup name with
  | none => return entries ++ [(name, .tables [element])]
  | some (.tables elements) => return replace name (.tables (elements ++ [element])) entries
  | some _ => none

def addSection (root : Entries) (s : Section) : Option Entries :=
  let place (path : List String) (change : String → Entries → Option Entries) : Option Entries :=
    match path.getLast? with
    | none => none
    | some name => within .header (fun _ => change name) path.dropLast .header root
  match s.header with
  | .root => root.addAll s.entries
  | .table path => place path fun name => openTable name s.entries
  | .element path => place path fun name => addElement name s.entries

end Entries

-- The root table of a document.
def parse? (text : String) : Option Entries := do
  let (lines, _) ← Scan.lines text.toList
  (sections .root lines).foldlM Entries.addSection []

end Covenant.Toml
