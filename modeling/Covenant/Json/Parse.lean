import Covenant.Json.Number
import Covenant.Json.Tree

namespace Covenant.Json.Parse

def isBlank (c : Char) : Bool := c = ' ' || c = '\n' || c = '\t' || c = '\r'

def skipBlanks (text : List Char) : List Char := text.dropWhile isBlank

def hexValue (c : Char) : Option Nat :=
  if '0' ≤ c ∧ c ≤ '9' then some (c.toNat - 48)
  else if 'a' ≤ c ∧ c ≤ 'f' then some (c.toNat - 87)
  else if 'A' ≤ c ∧ c ≤ 'F' then some (c.toNat - 55)
  else none

def hexFour (a b c d : Char) : Option Nat := do
  return ((← hexValue a) * 16 + (← hexValue b)) * 256 + ((← hexValue c) * 16 + (← hexValue d))

-- Fewer than four bytes are left after the mark of a hexadecimal escape, or they are not four
-- hexadecimal digits.
def shortEscape (rest : List Char) : Fault :=
  if rest.foldl (fun n c => n + c.utf8Size) 0 < 4 then .truncated else .malformed

def simpleEscape (c : Char) : Option Char :=
  match c with
  | '"' => some '"'
  | '\\' => some '\\'
  | '/' => some '/'
  | 'b' => some '\x08'
  | 'f' => some '\x0c'
  | 'n' => some '\n'
  | 'r' => some '\r'
  | 't' => some '\t'
  | _ => none

def isLowSurrogate (n : Nat) : Bool := 0xDC00 ≤ n && n ≤ 0xDFFF

def isHighSurrogate (n : Nat) : Bool := 0xD800 ≤ n && n ≤ 0xDBFF

def pairSurrogates (high low : Nat) : Char :=
  Char.ofNat (0x10000 + (high - 0xD800) * 0x400 + (low - 0xDC00))

-- The second half of a surrogate pair is due, written as an escape.
def missingLow (rest : List Char) : Fault :=
  match rest with
  | [] => .truncated
  | ['\\'] => .truncated
  | '\\' :: 'u' :: rest => shortEscape rest
  | _ => .malformed

-- The content of a string after its opening quote, and the text after its closing quote.
def string : List Char → Except Fault (List Char × List Char)
  | [] => .error .truncated
  | '"' :: rest => .ok ([], rest)
  | '\\' :: 'u' :: a :: b :: c :: d :: rest =>
      match hexFour a b c d with
      | none => .error .malformed
      | some n =>
          if isLowSurrogate n then .error .malformed
          else if isHighSurrogate n then
            match rest with
            | '\\' :: 'u' :: e :: f :: g :: h :: rest =>
                match hexFour e f g h with
                | none => .error .malformed
                | some m =>
                    if isLowSurrogate m then
                      (string rest).map fun (s, rest) => (pairSurrogates n m :: s, rest)
                    else .error .malformed
            | rest => .error (missingLow rest)
          else (string rest).map fun (s, rest) => (Char.ofNat n :: s, rest)
  | '\\' :: 'u' :: rest => .error (shortEscape rest)
  | '\\' :: c :: rest =>
      match simpleEscape c with
      | none => .error .malformed
      | some e => (string rest).map fun (s, rest) => (e :: s, rest)
  | ['\\'] => .error .truncated
  | c :: rest =>
      if c.toNat < 32 then .error .malformed
      else (string rest).map fun (s, rest) => (c :: s, rest)

-- The text after a string whose content does not matter: surrogates need not be paired.
def skipString : List Char → Except Fault (List Char)
  | [] => .error .truncated
  | '"' :: rest => .ok rest
  | '\\' :: 'u' :: a :: b :: c :: d :: rest =>
      if (hexFour a b c d).isSome then skipString rest else .error .malformed
  | '\\' :: 'u' :: rest => .error (shortEscape rest)
  | '\\' :: c :: rest => if (simpleEscape c).isSome then skipString rest else .error .malformed
  | ['\\'] => .error .truncated
  | c :: rest => if c.toNat < 32 then .error .malformed else skipString rest

-- A tree, and the text after it unless the text cannot be followed that far.
abbrev Parsed := Tree × Option (List Char)

def stuck (first : Char) (onRead onSkip : Fault) : Parsed :=
  (.flawed first onRead (some onSkip), none)

def stringValue (text : List Char) : Parsed :=
  match string text with
  | .ok (s, rest) => (.string (String.ofList s), some rest)
  | .error onRead =>
      match skipString text with
      | .ok rest => (.flawed '"' onRead none, some rest)
      | .error onSkip => stuck '"' onRead onSkip

def key (text : List Char) : Key × Option (List Char) :=
  match string text with
  | .ok (s, rest) => (.name (String.ofList s), some rest)
  | .error onRead =>
      match skipString text with
      | .ok rest => (.flawed onRead none, some rest)
      | .error onSkip => (.flawed onRead (some onSkip), none)

-- The text after the letters that must follow.
def letters : List Char → List Char → Except Fault (List Char)
  | [], text => .ok text
  | _ :: _, [] => .error .truncated
  | c :: cs, d :: text => if c = d then letters cs text else .error .malformed

def word (first : Char) (following : List Char) (value : Tree) (text : List Char) : Parsed :=
  match letters following text with
  | .ok rest => (value, some rest)
  | .error fault => stuck first fault fault

def number (first : Char) (negative : Bool) (text : List Char) : Parsed :=
  match Number.scan negative text with
  | (.int n, rest) => (.int n, some rest)
  | (.float, rest) => (.float, some rest)
  | (.outOfRange, rest) => (.flawed first .malformed none, some rest)
  | (.flawed onRead onSkip, _) => stuck first onRead onSkip

-- A value that is no container, from its first character.
def scalar (first : Char) (rest : List Char) : Parsed :=
  if first = '"' then stringValue rest
  else if first = '-' then number first true rest
  else if Number.isDigit first then number first false (first :: rest)
  else if first = 'n' then word first ['u', 'l', 'l'] .null rest
  else if first = 't' then word first ['r', 'u', 'e'] (.bool true) rest
  else if first = 'f' then word first ['a', 'l', 's', 'e'] (.bool false) rest
  else stuck first .malformed .malformed

mutual

-- A value. The fuel bounds the calls nested in each other: two for each character suffice.
def value : Nat → List Char → Parsed
  | 0, _ => (.missing, none)
  | fuel + 1, text =>
      match skipBlanks text with
      | [] => (.missing, none)
      | '[' :: rest =>
          match skipBlanks rest with
          | [] => (.array [] (some .truncated), none)
          | ']' :: rest => (.array [] none, some rest)
          | rest =>
              let (list, ending, rest) := items fuel rest
              (.array list ending, rest)
      | '\x7b' :: rest =>
          match skipBlanks rest with
          | [] => (.object [] (some .truncated), none)
          | '\x7d' :: rest => (.object [] none, some rest)
          | rest =>
              let (list, ending, rest) := members fuel rest
              (.object list ending, rest)
      | first :: rest => scalar first rest

-- The items of an array from the first on, how it ends, and the text after it.
def items : Nat → List Char → List Tree × Option Fault × Option (List Char)
  | 0, _ => ([], some .truncated, none)
  | fuel + 1, text =>
      match value fuel text with
      | (item, none) => ([item], some .truncated, none)
      | (item, some rest) =>
          match skipBlanks rest with
          | [] => ([item], some .truncated, none)
          | ']' :: rest => ([item], none, some rest)
          | ',' :: rest =>
              let (list, ending, rest) := items fuel rest
              (item :: list, ending, rest)
          | _ => ([item], some .malformed, none)

-- The members of an object from the first name on, how it ends, and the text after it.
def members : Nat → List Char → List (Key × Tree) × Option Fault × Option (List Char)
  | 0, _ => ([], some .truncated, none)
  | fuel + 1, text =>
      match skipBlanks text with
      | [] => ([(.flawed .truncated (some .truncated), .missing)], some .truncated, none)
      | '"' :: rest =>
          match key rest with
          | (name, none) => ([(name, .missing)], some .truncated, none)
          | (name, some rest) =>
              match skipBlanks rest with
              | [] => ([(name, .missing)], some .truncated, none)
              | ':' :: rest =>
                  match value fuel rest with
                  | (content, none) => ([(name, content)], some .truncated, none)
                  | (content, some rest) =>
                      match skipBlanks rest with
                      | [] => ([(name, content)], some .truncated, none)
                      | '\x7d' :: rest => ([(name, content)], none, some rest)
                      | ',' :: rest =>
                          let (list, ending, rest) := members fuel rest
                          ((name, content) :: list, ending, rest)
                      | _ => ([(name, content)], some .malformed, none)
              | first :: _ =>
                  ([(name, .flawed first .malformed (some .malformed))], some .malformed, none)
      | _ => ([(.misplaced, .missing)], some .malformed, none)

end

end Covenant.Json.Parse

namespace Covenant.Json

-- A whole text: its value, and whether anything but blanks follows it.
structure Document where
  root : Tree
  trailing : Bool

def Document.parse (text : List Char) : Document :=
  match Parse.value (2 * text.length + 2) text with
  | (root, none) => ⟨root, false⟩
  | (root, some rest) => ⟨root, !(Parse.skipBlanks rest).isEmpty⟩

end Covenant.Json
