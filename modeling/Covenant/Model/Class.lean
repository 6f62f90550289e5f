import Covenant.Model.NameTable
import Covenant.Model.Statement

namespace Covenant

-- A condition of a contract: what has to hold before, after, or between calls.
inductive Clause
  | supported (text : String) (expr : Expression) (location : Location)
  | unsupported (text : String) (location : Location)
  deriving DecidableEq, Repr

namespace Clause

def text : Clause → String
  | .supported text _ _ => text
  | .unsupported text _ => text

def location : Clause → Location
  | .supported _ _ location => location
  | .unsupported _ location => location

def firstUnsupported : Clause → Option Location
  | .supported _ expr _ => expr.firstUnsupported
  | .unsupported _ location => some location

end Clause

structure UnsupportedDecl where
  name : String
  reason : String
  location : Location
  deriving DecidableEq, Repr

inductive Decl (α : Type)
  | supported (a : α)
  | unsupported (d : UnsupportedDecl)
  deriving DecidableEq, BEq, Repr

def Decl.supported? : Decl α → Option α
  | .supported a => some a
  | .unsupported _ => none

instance : Named Field := ⟨Field.name⟩

instance : Named Binder := ⟨Binder.name⟩

instance [Named α] : Named (Decl α) where
  name
    | .supported a => Named.name a
    | .unsupported d => d.name

inductive Access
  | pub
  | prot
  | internal
  | priv
  deriving DecidableEq, Repr

structure Method where
  name : String
  access : Access
  returnType : TypeRef
  parameters : NameTable (Decl Binder)
  locals : NameTable (Decl Binder)
  requires : List Clause
  body : List Statement
  ensures : List Clause
  location : Location
  deriving BEq, Repr

instance : Named Method := ⟨Method.name⟩

-- The place of a declaration that is not supported, or whose type is not verifiable.
def Binder.firstUnsupported : Decl Binder → Option Location
  | .unsupported d => some d.location
  | .supported b => if b.type.isVerifiable then none else some b.location

def Field.firstUnsupported : Decl Field → Option Location
  | .unsupported d => some d.location
  | .supported f => if f.type.isVerifiable then none else some f.location

namespace Method

def isPublic (m : Method) : Bool := m.access = .pub

def isSealed (m : Method) : Bool := m.parameters.isSealed && m.locals.isSealed

def returnSupported (m : Method) : Bool := m.returnType.isVoid || m.returnType.isVerifiable

-- The first part that is not supported: return type, parameters, locals, requires, body, ensures.
def firstUnsupported (m : Method) : Option Location :=
  if m.returnSupported then
    (m.parameters.entries.findSome? Binder.firstUnsupported).or <|
    (m.locals.entries.findSome? Binder.firstUnsupported).or <|
    (m.requires.findSome? Clause.firstUnsupported).or <|
    (Statement.firstInBlock m.body).or <|
    m.ensures.findSome? Clause.firstUnsupported
  else some m.location

end Method

structure ClassModel where
  name : String
  fields : NameTable (Decl Field)
  methods : NameTable (Decl Method)
  invariants : List Clause
  location : Location
  deriving BEq, Repr

inductive ModelError
  | unsealed (className : String)
  deriving DecidableEq, Repr

def ModelError.message : ModelError → String
  | .unsealed className => s!"class `{className}` was built from unsealed tables"

namespace ClassModel

def supportedFields (c : ClassModel) : List Field := c.fields.entries.filterMap Decl.supported?

def supportedMethods (c : ClassModel) : List Method := c.methods.entries.filterMap Decl.supported?

def isSealed (c : ClassModel) : Bool :=
  c.fields.isSealed && c.methods.isSealed && c.supportedMethods.all Method.isSealed

def methodUnsupported : Decl Method → Option Location
  | .unsupported d => some d.location
  | .supported m => m.firstUnsupported

-- One unsupported part anywhere makes the class unsupported.
def firstUnsupported (c : ClassModel) : Option Location :=
  (c.fields.entries.findSome? Field.firstUnsupported).or <|
  (c.methods.entries.findSome? methodUnsupported).or <|
  c.invariants.findSome? Clause.firstUnsupported

-- A class is made of sealed tables.
def ofParts (name : String) (fields : NameTable (Decl Field)) (methods : NameTable (Decl Method))
    (invariants : List Clause) (location : Location) : Except ModelError ClassModel :=
  let c : ClassModel := ⟨name, fields, methods, invariants, location⟩
  if c.isSealed then .ok c else .error (.unsealed name)

end ClassModel

end Covenant
