namespace Covenant.Toml

-- Reads from the front of a text. One that fails reads nothing.
abbrev Scan := StateT (List Char) Option

namespace Scan

def one (p : Char → Bool) : Scan Char
  | [] => none
  | c :: rest => if p c then some (c, rest) else none

def char (c : Char) : Scan Unit := do
  let _ ← one (· == c)

def exactly : List Char → Scan Unit
  | [] => return
  | c :: rest => do
      char c
      exactly rest

def text (s : String) : Scan Unit := exactly s.toList

def span (p : Char → Bool) : Scan (List Char) := fun cs => some (cs.span p)

def peek : Scan (Option Char) := fun cs => some (cs.head?, cs)

def length : Scan Nat := fun cs => some (cs.length, cs)

def attempt (s : Scan α) : Scan (Option α) := fun cs =>
  match s cs with
  | some (a, rest) => some (some a, rest)
  | none => some (none, cs)

-- What a scan reads, as it is written.
def spelling (s : Scan α) : Scan String := fun cs =>
  match s cs with
  | some (_, rest) => some (String.ofList (cs.take (cs.length - rest.length)), rest)
  | none => none

def finish : Scan Unit
  | [] => some ((), [])
  | _ :: _ => none

def blanks : Scan Unit := do
  let _ ← span fun c => c == ' ' || c == '\t'

-- A line ends with a line feed, which a carriage return may precede.
def newline : Scan Unit := char '\n' <|> text "\r\n"

-- The characters of comments and strings: no control character but the tab.
def isPlain (c : Char) : Bool := c == '\t' || (' ' ≤ c && c != '\x7f')

def comment : Scan Unit := do
  char '#'
  let _ ← span isPlain

-- The rest of a line after what it says.
def lineEnd : Scan Unit := do
  blanks
  let _ ← attempt comment
  newline <|> finish

def blankLinesWithin : Nat → Scan Unit
  | 0 => return
  | lines + 1 => do
      blanks
      match ← attempt newline with
      | none => return
      | some () => blankLinesWithin lines

def emptyLinesWithin : Nat → Scan Unit
  | 0 => return
  | lines + 1 => do
      blanks
      match ← attempt (do let _ ← attempt comment; newline) with
      | none => return
      | some () => emptyLinesWithin lines

-- Blanks, comments and line ends between the items of an array.
def emptyLines : Scan Unit := do
  emptyLinesWithin ((← length) + 1)

end Scan

end Covenant.Toml
