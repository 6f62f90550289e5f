import Covenant.Encoding.Body
import Covenant.Verify.Goal

namespace Covenant

-- A goal, the query that decides it, and the declared types of the names in it.
structure Obligation where
  goal : Goal
  types : NameMap String
  query : Except EncodeError Formula

def Clause.expression : Clause → Except EncodeError Expression
  | .supported _ expr _ => .ok expr
  | .unsupported _ location => .error (.unsupportedReached location)

namespace Signature

def clause (s : Signature) (table : AliasTable) (c : Clause) : Except EncodeError Term := do
  let e ← c.expression
  s.condition table e

def clauses (s : Signature) (table : AliasTable) : List Clause → Except EncodeError (List Term)
  | [] => .ok []
  | c :: rest => do
      let t ← s.clause table c
      let ts ← s.clauses table rest
      return t :: ts

end Signature

namespace Encode

def declareAll : List (String × TypeRef) → Encode Unit
  | [] => return
  | (name, type) :: rest => do
      let _ ← declare name type
      declareAll rest

def table : Encode AliasTable := reading fun e => .ok e.table

end Encode

namespace Method

def supportedParameters (m : Method) : List Binder :=
  m.parameters.entries.filterMap Decl.supported?

def supportedLocals (m : Method) : List Binder := m.locals.entries.filterMap Decl.supported?

end Method

-- The fields, parameters and locals that a method may read and write, by logical name.
def ClassModel.fieldNames (c : ClassModel) : List (String × TypeRef) :=
  c.supportedFields.map fun f => (f.logicalName, f.type)

def Method.binderNames (m : Method) : List (String × TypeRef) :=
  (m.supportedParameters ++ m.supportedLocals).map fun b => (b.name, b.type)

-- A method as equations: the tables on entry and exit, what it requires, and what its body does.
structure MethodState where
  signature : Signature
  entry : AliasTable
  exit : AliasTable
  requires : List Term
  body : List Term

namespace MethodState

def entryAndRequires (c : ClassModel) (m : Method) : Encode (AliasTable × List Term) := do
  Encode.declareAll (c.fieldNames ++ m.binderNames)
  Encode.beginBody m.returnType
  let entry ← Encode.table
  let requires ← Encode.reading fun e => e.signature.clauses entry m.requires
  Encode.body m.body
  return (entry, requires)

def ofMethod (c : ClassModel) (m : Method) : Except EncodeError MethodState :=
  match entryAndRequires c m .empty with
  | .ok (entry, requires) e => .ok ⟨e.signature, entry, e.table, requires, e.assertions⟩
  | .error error _ => .error error

-- Has a model when the requires clauses can hold together.
def preconditionQuery (s : MethodState) : Formula := ⟨s.requires⟩

-- Has a model when a run of the method breaks the clause.
def ensureQuery (s : MethodState) (clause : Clause) : Except EncodeError Formula := do
  let post ← s.signature.clause s.exit clause
  return ⟨s.requires ++ s.body ++ [.not post]⟩

-- Has a model when a run of the method starts with the invariant and ends without it.
def preservationQuery (s : MethodState) (invariant : Clause) : Except EncodeError Formula := do
  let pre ← s.signature.clause s.entry invariant
  let post ← s.signature.clause s.exit invariant
  return ⟨s.requires ++ [pre] ++ s.body ++ [.not post]⟩

end MethodState

-- The value of a field before any method runs: 0 or false where it has no initializer.
def Field.initialValue (f : Field) : Term :=
  match f.initializer with
  | some (.int n) => .int n
  | some (.bool b) => .bool b
  | none => if f.type.isBoolean then .bool false else .int 0

-- The fields at their initial values.
def initialFields : List Field → Encode Unit
  | [] => return
  | f :: rest => do
      let symbol ← Encode.symbol (← Encode.declare f.logicalName f.type)
      Encode.assert (.eq symbol f.initialValue)
      initialFields rest

namespace ClassModel

def initialState (c : ClassModel) : Except EncodeError Encoder :=
  match initialFields c.supportedFields .empty with
  | .ok () e => .ok e
  | .error error _ => .error error

def initialQuery (state : Except EncodeError Encoder) (invariant : Clause) :
    Except EncodeError Formula := do
  let e ← state
  let holds ← e.signature.clause e.table invariant
  return ⟨e.assertions ++ [.not holds]⟩

def typeTexts (types : NameMap String) (names : List (String × TypeRef)) : NameMap String :=
  names.foldl (fun types (name, type) => types.insert name type.text) types

def fieldTypes (c : ClassModel) : NameMap String := typeTexts .empty c.fieldNames

def methodTypes (c : ClassModel) (m : Method) : NameMap String :=
  (typeTexts c.fieldTypes m.binderNames).insert resultName m.returnType.text

def initialObligations (c : ClassModel) : List Obligation :=
  let state := c.initialState
  c.invariants.map fun invariant => ⟨.initial invariant, c.fieldTypes, initialQuery state invariant⟩

def preconditions (m : Method) : List Goal :=
  match m.requires with
  | [] => []
  | first :: rest => [.precondition m.name first rest]

-- The obligations of a method in the order of the report. Only a public method has to keep the
-- invariants. A method that cannot be encoded leaves all of its goals without a query.
def methodObligations (c : ClassModel) (m : Method) : List Obligation :=
  let types := c.methodTypes m
  let state := MethodState.ofMethod c m
  let invariants := if m.isPublic then c.invariants else []
  (preconditions m).map (fun goal => ⟨goal, types, state.map (·.preconditionQuery)⟩) ++
    m.ensures.map (fun clause =>
      ⟨.ensure m.name clause, types, state.bind (·.ensureQuery clause)⟩) ++
    invariants.map fun invariant =>
      ⟨.preservation m.name invariant, types, state.bind (·.preservationQuery invariant)⟩

end ClassModel

end Covenant
