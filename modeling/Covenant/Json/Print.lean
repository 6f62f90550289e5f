import Covenant.Json.Value

namespace Covenant.Json

def hexDigit (n : Nat) : Char :=
  if n < 10 then Char.ofNat (48 + n) else Char.ofNat (87 + n)

-- Quotes, backslashes and control characters are escaped. All else stands for itself.
def escape (c : Char) : List Char :=
  if c = '"' then ['\\', '"']
  else if c = '\\' then ['\\', '\\']
  else if c = '\n' then ['\\', 'n']
  else if c = '\r' then ['\\', 'r']
  else if c = '\t' then ['\\', 't']
  else if c = '\x08' then ['\\', 'b']
  else if c = '\x0c' then ['\\', 'f']
  else if c.toNat < 32 then ['\\', 'u', '0', '0', hexDigit (c.toNat / 16), hexDigit (c.toNat % 16)]
  else [c]

def quote (s : String) : List Char :=
  '"' :: (s.toList.flatMap escape ++ ['"'])

def digits (n : Nat) : List Char := Nat.toDigits 10 n

def intText : Int → List Char
  | .ofNat n => digits n
  | .negSucc n => '-' :: digits (n + 1)

def boolText (b : Bool) : List Char :=
  if b then ['t', 'r', 'u', 'e'] else ['f', 'a', 'l', 's', 'e']

def nullText : List Char := ['n', 'u', 'l', 'l']

mutual

-- The text without blanks.
def render : Json → List Char
  | .null => nullText
  | .bool b => boolText b
  | .int n => intText n
  | .str s => quote s
  | .arr [] => ['[', ']']
  | .arr (item :: items) => '[' :: (render item ++ renderItems items)
  | .obj [] => ['\x7b', '\x7d']
  | .obj ((name, value) :: members) =>
      '\x7b' :: (quote name ++ ':' :: (render value ++ renderMembers members))

-- What follows the first item, up to the closing bracket.
def renderItems : List Json → List Char
  | [] => [']']
  | item :: items => ',' :: (render item ++ renderItems items)

def renderMembers : List (String × Json) → List Char
  | [] => ['\x7d']
  | (name, value) :: members =>
      ',' :: (quote name ++ ':' :: (render value ++ renderMembers members))

end

def compact (j : Json) : String := String.ofList j.render

def newline (indent : Nat) : List Char := '\n' :: List.replicate (2 * indent) ' '

mutual

-- One item or member a line, two blanks to a level. Empty containers stay on one line.
def layout (indent : Nat) : Json → List Char
  | .null => nullText
  | .bool b => boolText b
  | .int n => intText n
  | .str s => quote s
  | .arr [] => ['[', ']']
  | .arr (item :: items) =>
      '[' :: (newline (indent + 1) ++ layout (indent + 1) item ++ layoutItems indent items)
  | .obj [] => ['\x7b', '\x7d']
  | .obj ((name, value) :: members) =>
      '\x7b' :: (newline (indent + 1) ++ quote name ++ ':' :: ' ' ::
        (layout (indent + 1) value ++ layoutMembers indent members))

def layoutItems (indent : Nat) : List Json → List Char
  | [] => newline indent ++ [']']
  | item :: items =>
      ',' :: (newline (indent + 1) ++ layout (indent + 1) item ++ layoutItems indent items)

def layoutMembers (indent : Nat) : List (String × Json) → List Char
  | [] => newline indent ++ ['\x7d']
  | (name, value) :: members =>
      ',' :: (newline (indent + 1) ++ quote name ++ ':' :: ' ' ::
        (layout (indent + 1) value ++ layoutMembers indent members))

end

def pretty (j : Json) : String := String.ofList (j.layout 0)

end Covenant.Json
