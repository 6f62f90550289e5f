import Covenant.Alias.Name
import Covenant.Encoding.Basic
import Covenant.Solver

namespace Covenant

-- The value of a source name at one of its versions. Version 0 is the value on entry.
structure Binding where
  name : String
  version : Nat
  type : String
  value : String
  deriving DecidableEq, Repr

namespace Binding

def isInput (b : Binding) : Bool := b.version == 0

def text (b : Binding) : String :=
  let name := if b.isInput then b.name else b.name ++ "#" ++ toString b.version
  name ++ " : " ++ b.type ++ " = " ++ b.value

-- Inputs come first, then names in order, then versions.
def before (a b : Binding) : Bool :=
  if a.isInput == b.isInput then
    a.name < b.name || (a.name == b.name && a.version < b.version)
  else a.isInput

end Binding

structure Counterexample where
  bindings : List Binding
  deriving DecidableEq, Repr

def Value.typeText : Value → String
  | .int _ => "int"
  | .bool _ => "bool"
  | .other _ => "?"

namespace Counterexample

def isEmpty (c : Counterexample) : Bool := c.bindings.isEmpty

def inputs (c : Counterexample) : List Binding := c.bindings.filter Binding.isInput

-- The value of a name on entry.
def input? (c : Counterexample) (name : String) : Option Binding :=
  c.inputs.find? fun b => b.name = name

-- The inputs on one line.
def compact (c : Counterexample) : String :=
  ", ".intercalate (c.inputs.map fun b => b.name ++ " = " ++ b.value)

-- The binding that a symbol stands for. A symbol that is no alias stands for none, and neither does
-- the flag of a return.
def binding? (types : NameMap String) (symbol : String) (value : Value) : Option Binding :=
  match AliasName.parse? symbol with
  | none => none
  | some a =>
      if a.base = returnedName then none
      else
        let name := if a.base = resultName then "result" else a.base
        some ⟨name, a.generation, (types.get? a.base).getD value.typeText, value.text⟩

-- The source names of an assignment, with the types that are declared for them.
def ofAssignment (types : NameMap String) (assignment : Assignment) : Counterexample :=
  let bindings := assignment.entries.filterMap fun (symbol, value) => binding? types symbol value
  ⟨bindings.mergeSort fun a b => !b.before a⟩

end Counterexample

end Covenant
