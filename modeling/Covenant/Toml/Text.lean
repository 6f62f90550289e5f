import Covenant.Toml.Scan

namespace Covenant.Toml

def hexDigit? (c : Char) : Option Nat :=
  if c.isDigit then some (c.toNat - '0'.toNat)
  else if 'a' ≤ c && c ≤ 'f' then some (c.toNat - 'a'.toNat + 10)
  else if 'A' ≤ c && c ≤ 'F' then some (c.toNat - 'A'.toNat + 10)
  else none

def hexNumber? : List Char → Nat → Option Nat
  | [], n => some n
  | c :: rest, n => do
      let d ← hexDigit? c
      hexNumber? rest (16 * n + d)

-- A character by its number.
def scalar? (digits : List Char) : Option Char := do
  let n ← hexNumber? digits 0
  if n.isValidChar then some (Char.ofNat n) else none

def escape? : Char → Option Char
  | 'b' => some '\x08'
  | 't' => some '\t'
  | 'n' => some '\n'
  | 'f' => some '\x0c'
  | 'r' => some '\r'
  | '"' => some '"'
  | '\\' => some '\\'
  | _ => none

namespace Scan

-- What follows the backslash of an escape.
def escape : Scan Char
  | 'u' :: a :: b :: c :: d :: rest => (scalar? [a, b, c, d]).map (·, rest)
  | 'U' :: a :: b :: c :: d :: e :: f :: g :: h :: rest =>
      (scalar? [a, b, c, d, e, f, g, h]).map (·, rest)
  | c :: rest => (escape? c).map (·, rest)
  | [] => none

-- The rest of a string on one line. Each round reads a character.
def basicWithin : Nat → Scan (List Char)
  | 0 => failure
  | rounds + 1 => do
      match ← one isPlain with
      | '"' => return []
      | '\\' => do
          let c ← escape
          let rest ← basicWithin rounds
          return c :: rest
      | c => do
          let rest ← basicWithin rounds
          return c :: rest

-- Two more quotes before the closing ones belong to the string.
def extraQuotes (q : Char) : Scan (List Char) := do
  match ← attempt (exactly [q, q]) with
  | some () => return [q, q]
  | none =>
      match ← attempt (char q) with
      | some () => return [q]
      | none => return []

def closing (q : Char) : Scan (List Char) := do
  exactly [q, q, q]
  extraQuotes q

-- A backslash at the end of a line drops the line end and all blanks that follow.
def continuation : Scan Unit := do
  blanks
  newline
  blankLinesWithin ((← length) + 1)

def multilineChar : Scan Char := (do newline; return '\n') <|> one isPlain

-- The rest of a string over several lines.
def basicLinesWithin : Nat → Scan (List Char)
  | 0 => failure
  | rounds + 1 => do
      match ← attempt (closing '"') with
      | some quotes => return quotes
      | none =>
          match ← multilineChar with
          | '\\' => do
              match ← attempt continuation with
              | some () => basicLinesWithin rounds
              | none => do
                  let c ← escape
                  let rest ← basicLinesWithin rounds
                  return c :: rest
          | c => do
              let rest ← basicLinesWithin rounds
              return c :: rest

def literalLinesWithin : Nat → Scan (List Char)
  | 0 => failure
  | rounds + 1 => do
      match ← attempt (closing '\'') with
      | some quotes => return quotes
      | none => do
          let c ← multilineChar
          let rest ← literalLinesWithin rounds
          return c :: rest

def basic : Scan String := do
  char '"'
  let body ← basicWithin ((← length) + 1)
  return String.ofList body

def literal : Scan String := do
  char '\''
  let body ← span fun c => isPlain c && c != '\''
  char '\''
  return String.ofList body

-- A line end right after the opening quotes is not part of the string.
def multiline (q : Char) (body : Nat → Scan (List Char)) : Scan String := do
  exactly [q, q, q]
  let _ ← attempt newline
  let body ← body ((← length) + 1)
  return String.ofList body

def string : Scan String :=
  multiline '"' basicLinesWithin <|> basic <|> multiline '\'' literalLinesWithin <|> literal

def isBare (c : Char) : Bool := c.isAlphanum || c == '_' || c == '-'

def bareKey : Scan String := do
  let first ← one isBare
  let rest ← span isBare
  return String.ofList (first :: rest)

def keyWithin : Nat → Scan (List String)
  | 0 => failure
  | parts + 1 => do
      blanks
      let name ← basic <|> literal <|> bareKey
      blanks
      match ← attempt (char '.') with
      | none => return [name]
      | some () => do
          let rest ← keyWithin parts
          return name :: rest

-- How deep a document may nest, and how many parts a key may have.
def nestingLimit : Nat := 79

-- A key is one name, or several with dots between them.
def key : Scan (List String) := keyWithin nestingLimit

end Scan

end Covenant.Toml
