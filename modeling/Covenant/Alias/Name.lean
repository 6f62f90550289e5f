namespace Covenant

-- A variable at one of its generations. Each write of the variable begins a new one. Generations
-- have no bound here. A counter of 32 bits has them as long as there are fewer than 2 ^ 32 writes of
-- a name, and results about bodies are to be read for so many.
structure AliasName where
  base : String
  generation : Nat
  deriving DecidableEq, Repr

namespace AliasName

def text (a : AliasName) : String := a.base ++ "@" ++ toString a.generation

-- Aliases are ordered by their base, and by generation under one base.
def before (a b : AliasName) : Bool :=
  a.base < b.base || (a.base == b.base && a.generation < b.generation)

def splitLast (c : Char) : List Char → Option (List Char × List Char)
  | [] => none
  | d :: rest =>
      match splitLast c rest with
      | some (left, right) => some (d :: left, right)
      | none => if d = c then some ([], rest) else none

def generationLimit : Nat := 0x100000000

def decimal (digits : List Char) : Nat :=
  digits.foldl (fun n c => 10 * n + (c.toNat - '0'.toNat)) 0

-- A generation is written in decimal. A plus sign and leading zeros are allowed.
def readGeneration (text : List Char) : Option Nat :=
  let digits := match text with
    | '+' :: rest => rest
    | text => text
  if !digits.isEmpty && digits.all Char.isDigit && decimal digits < generationLimit then
    some (decimal digits)
  else none

-- The generation follows the last separator, so a base may hold separators.
def parse? (symbol : String) : Option AliasName :=
  match splitLast '@' symbol.toList with
  | none => none
  | some (base, generation) =>
      (readGeneration generation).map fun n => ⟨String.ofList base, n⟩

end AliasName

end Covenant
