namespace Covenant

-- How a table came to be, which decides how it may be extended.
inductive TableKind
  -- By its own header, or as the root.
  | header
  -- As a table above one that has a header.
  | implied
  -- By a dotted key.
  | dotted
  -- Written out in braces.
  | closed
  deriving DecidableEq, Repr

inductive Toml
  | string (s : String)
  | integer (n : Int)
  | float (text : String)
  | boolean (b : Bool)
  | datetime (text : String)
  | array (items : List Toml)
  | table (kind : TableKind) (entries : List (String × Toml))
  | tables (elements : List (List (String × Toml)))
  deriving BEq, Repr

namespace Toml

abbrev Entries := List (String × Toml)

-- The two ways to name a table inside of others.
inductive PathStyle
  | header
  | dotted
  deriving DecidableEq, Repr

-- The kind of a table that a path brings about.
def PathStyle.makes : PathStyle → TableKind
  | .header => .implied
  | .dotted => .dotted

-- A header leads through any table that is not closed. A dotted key leads through those without a
-- header of their own.
def PathStyle.enters : PathStyle → TableKind → Bool
  | _, .closed => false
  | .header, _ => true
  | .dotted, kind => kind ≠ .header

namespace Entries

def replace (name : String) (v : Toml) : Entries → Entries
  | [] => []
  | (other, w) :: rest =>
      if other = name then (name, v) :: rest else (other, w) :: replace name v rest

-- Changes the table at the end of a path. Tables that are missing on the way are made, and the last
-- element stands for an array of tables.
def within (style : PathStyle) (change : TableKind → Entries → Option Entries) :
    List String → TableKind → Entries → Option Entries
  | [], kind, entries => change kind entries
  | name :: path, _, entries =>
      match entries.lookup name with
      | none => do
          let inner ← within style change path style.makes []
          return entries ++ [(name, .table style.makes inner)]
      | some (.table kind inner) =>
          if style.enters kind then do
            let inner ← within style change path kind inner
            return replace name (.table kind inner) entries
          else none
      | some (.tables elements) => do
          let last ← elements.getLast?
          let last ← within style change path .header last
          return replace name (.tables (elements.dropLast ++ [last])) entries
      | some _ => none

def addHere (name : String) (v : Toml) (entries : Entries) : Option Entries :=
  if (entries.lookup name).isSome then none else some (entries ++ [(name, v)])

-- Adds a value under a key, which may be dotted. A dotted key adds only to a table that dotted keys
-- have made.
def add (entries : Entries) (path : List String) (v : Toml) : Option Entries :=
  match path.getLast? with
  | none => none
  | some name =>
      let parents := path.dropLast
      within .dotted (fun kind inner =>
        if parents.isEmpty || kind = .dotted then addHere name v inner else none)
        parents .header entries

def addAll (entries : Entries) : List (List String × Toml) → Option Entries
  | [] => some entries
  | (path, v) :: rest => do
      let entries ← entries.add path v
      entries.addAll rest

end Entries

end Toml

end Covenant
