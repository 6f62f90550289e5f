import Covenant.Alias.Table
import Covenant.Model.Variable
import Covenant.Term.Basic

namespace Covenant

inductive EncodeError
  | alias (e : AliasError)
  | unsupportedReached (location : Location)
  | unsorted (name : String) (type : TypeRef)
  | sortMismatch (op : String) (expected found : TermSort)
  | noResult
  deriving DecidableEq, Repr

def EncodeError.message : EncodeError → String
  | .alias e => e.message
  | .unsupportedReached location =>
      "unsupported construct at " ++ location.text ++ " reached the encoder"
  | .unsorted name type =>
      "`" ++ name ++ "` has type `" ++ type.text ++ "`, which has no solver sort"
  | .sortMismatch op expected found =>
      "`" ++ op ++ "` expects " ++ expected.text ++ " operands, found " ++ found.text
  | .noResult => "`result` used in a method that returns no value"

-- The variable that holds the value a method returns.
def resultName : String := "$result"

-- The flag that is set once a path has returned.
def returnedName : String := "$returned"

def expectSort (op : String) (expected : TermSort) (t : Term) : Except EncodeError Unit :=
  if t.sort = expected then .ok () else .error (.sortMismatch op expected t.sort)

-- The sorts of the declared names, and whether the method returns a value.
structure Signature where
  sorts : NameMap TermSort
  hasResult : Bool
  deriving DecidableEq, Repr

namespace Signature

def empty : Signature := ⟨.empty, false⟩

def sort (s : Signature) (name : String) : Except EncodeError TermSort :=
  match s.sorts.get? name with
  | some sort => .ok sort
  | none => .error (.alias (.unregistered name))

def symbol (s : Signature) (a : AliasName) : Except EncodeError Term := do
  let sort ← s.sort a.base
  return .var ⟨a.text, sort⟩

-- The symbol of a name at its current generation.
def current (s : Signature) (table : AliasTable) (name : String) : Except EncodeError Term :=
  match table.get name with
  | .ok a => s.symbol a
  | .error e => .error (.alias e)

end Signature

-- What encoding has built so far: equations over aliases, each alias defined at most once.
structure Encoder where
  signature : Signature
  table : AliasTable
  issued : Issued
  assertions : List Term

-- A step of encoding. One that fails keeps what was built before.
abbrev Encode := EStateM EncodeError Encoder

namespace Encoder

def empty : Encoder := ⟨.empty, .empty, .empty, []⟩

end Encoder

namespace Encode

-- Runs an action on the table of the encoder, drawing on its counter.
def onTable
    (action : AliasTable → Issued → Except AliasError (AliasName × AliasTable × Issued)) :
    Encode AliasName := fun e =>
  match action e.table e.issued with
  | .ok (a, table, issued) => .ok a { e with table, issued }
  | .error error => .error (.alias error) e

def add (name : String) : Encode AliasName := onTable fun table issued => table.add issued name

def advance (name : String) : Encode AliasName :=
  onTable fun table issued => table.advance issued name

def assert (t : Term) : Encode Unit := fun e =>
  .ok () { e with assertions := e.assertions ++ [t] }

-- What follows from the encoder as it stands.
def reading (f : Encoder → Except EncodeError α) : Encode α := fun e =>
  match f e with
  | .ok a => .ok a e
  | .error error => .error error e

def symbol (a : AliasName) : Encode Term := reading fun e => e.signature.symbol a

def current (name : String) : Encode Term := reading fun e => e.signature.current e.table name

def setSort (name : String) (sort : TermSort) : Encode Unit := fun e =>
  .ok () { e with signature := ⟨e.signature.sorts.insert name sort, e.signature.hasResult⟩ }

def setHasResult : Encode Unit := fun e =>
  .ok () { e with signature := ⟨e.signature.sorts, true⟩ }

def declareSorted (name : String) (sort : TermSort) : Encode AliasName := do
  let a ← add name
  setSort name sort
  return a

-- Registers a variable of a type that has a sort.
def declare (name : String) (type : TypeRef) : Encode AliasName :=
  match type.sort? with
  | none => throw (.unsorted name type)
  | some sort => declareSorted name sort

-- Declares the variables of a return. No path has returned on entry.
def beginBody (returnType : TypeRef) : Encode Unit := do
  let returned ← symbol (← declareSorted returnedName .bool)
  assert (.eq returned (.bool false))
  if returnType.isVoid then return
  let _ ← declare resultName returnType
  setHasResult

end Encode

end Covenant
