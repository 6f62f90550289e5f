import Covenant.Term.Basic

namespace Covenant

-- A type as the source names it.
inductive TypeRef
  | named (name : String) (nullable : Bool)
  | other
  deriving DecidableEq, Repr

namespace TypeRef

-- Signed integers only: the range of the unsigned ones is not modelled.
def integralNames : List String :=
  ["int", "long", "short", "sbyte", "Int32", "Int64", "Int16", "SByte", "System.Int32",
    "System.Int64", "System.Int16", "System.SByte"]

def booleanNames : List String := ["bool", "Boolean", "System.Boolean"]

def isIntegral : TypeRef → Bool
  | .named name false => name ∈ integralNames
  | _ => false

def isBoolean : TypeRef → Bool
  | .named name false => name ∈ booleanNames
  | _ => false

def isVoid : TypeRef → Bool
  | .named name _ => name = "void"
  | .other => false

-- A type is verifiable when its values have a solver sort.
def isVerifiable (t : TypeRef) : Bool := t.isIntegral || t.isBoolean

def sort? (t : TypeRef) : Option TermSort :=
  if t.isIntegral then some .int else if t.isBoolean then some .bool else none

def text : TypeRef → String
  | .named name true => name ++ "?"
  | .named name false => name
  | .other => "<other>"

end TypeRef

end Covenant
