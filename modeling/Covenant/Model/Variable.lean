import Covenant.Model.Location
import Covenant.Model.TypeRef

namespace Covenant

inductive Literal
  | int (n : Int64)
  | bool (b : Bool)
  deriving DecidableEq, Repr

def Literal.text : Literal → String
  | .int n => toString n.toInt
  | .bool b => if b then "true" else "false"

-- The name of what the source leaves without one.
def unresolvedName : String := "<unresolved>"

structure Field where
  name : String
  type : TypeRef
  initializer : Option Literal
  owner : String
  property : Option String
  location : Location
  deriving DecidableEq, Repr

-- A parameter or a local variable.
structure Binder where
  name : String
  type : TypeRef
  location : Location
  deriving DecidableEq, Repr

inductive Variable
  | field (f : Field)
  | parameter (p : Binder)
  | localVar (l : Binder)
  deriving DecidableEq, Repr

-- Fields have names of their own, which no parameter or local variable is meant to share.
def Field.logicalName (f : Field) : String := "this." ++ f.name

namespace Variable

def name : Variable → String
  | .field f => f.name
  | .parameter p => p.name
  | .localVar l => l.name

def type : Variable → TypeRef
  | .field f => f.type
  | .parameter p => p.type
  | .localVar l => l.type

def logicalName : Variable → String
  | .field f => f.logicalName
  | .parameter p => p.name
  | .localVar l => l.name

end Variable

end Covenant
