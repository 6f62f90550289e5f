import Covenant.Model.Class
import Covenant.Proofs.Term.Exact

namespace Covenant

namespace Exact

def asInt : Exact → Option Int
  | .int n => some n
  | .bool _ => none

def asBool : Exact → Option Bool
  | .bool b => some b
  | .int _ => none

theorem asInt_of_sort {v : Exact} (h : v.sort = .int) : v.asInt = some v.toInt := by
  rw [eq_int_toInt h]
  rfl

theorem asBool_of_sort {v : Exact} (h : v.sort = .bool) : v.asBool = some v.toBool := by
  rw [eq_bool_toBool h]
  rfl

end Exact

def Literal.exact : Literal → Exact
  | .int n => .int n.toInt
  | .bool b => .bool b

def Logical.holds : Logical → Bool → Bool → Bool
  | .and, a, b => a && b
  | .or, a, b => a || b

-- Equality compares values of one sort, and order compares integers.
def Comparison.holds? : Comparison → Exact → Exact → Option Bool
  | .equal, a, b => if a.sort = b.sort then some (a = b) else none
  | .unequal, a, b => if a.sort = b.sort then some (a ≠ b) else none
  | .order op, a, b => do
      let m ← a.asInt
      let n ← b.asInt
      return op.holds m n

def Unary.apply : Unary → Exact → Option Exact
  | .not, a => a.asBool.map fun b => .bool !b
  | .negate, a => a.asInt.map fun n => .int (-n)

-- The values of the variables by logical name, and that of the result where a method has one.
structure State where
  vars : String → Exact
  result : Option Exact

namespace State

def set (st : State) (name : String) (v : Exact) : State :=
  { st with vars := Function.update st.vars name v }

def setResult (st : State) (v : Exact) : State := { st with result := some v }

end State

namespace Expression

-- The value of an expression over the unbounded integers, unless an operand has the wrong sort.
def eval (zero : ZeroDivision) (st : State) : Expression → Option Exact
  | .literal l => some l.exact
  | .variable v => some (st.vars v.logicalName)
  | .arithmetic op l r => do
      let m ← (← l.eval zero st).asInt
      let n ← (← r.eval zero st).asInt
      return .int (op.exact zero m n)
  | .logical op l r => do
      let a ← (← l.eval zero st).asBool
      let b ← (← r.eval zero st).asBool
      return .bool (op.holds a b)
  | .comparison op l r => do
      let a ← l.eval zero st
      let b ← r.eval zero st
      let holds ← op.holds? a b
      return .bool holds
  | .unary op a => do op.apply (← a.eval zero st)
  | .parenthesized a => a.eval zero st
  | .result => st.result
  | .unsupported _ => none

def mentioned : Expression → List Variable
  | .variable v => [v]
  | .arithmetic _ l r | .logical _ l r | .comparison _ l r => l.mentioned ++ r.mentioned
  | .unary _ a | .parenthesized a => a.mentioned
  | .literal _ | .result | .unsupported _ => []

end Expression

namespace Statement

mutual

-- Runs a statement. The flag says whether a return ended the run.
def exec (zero : ZeroDivision) : Statement → State → Option (State × Bool)
  | .assignment destination e _, st => do
      let v ← e.eval zero st
      return (st.set destination.logicalName v, false)
  | .conditional c thenBlock elseBlock _, st => do
      let b ← (← c.eval zero st).asBool
      if b then execBlock zero thenBlock st else execBlock zero elseBlock st
  | .return none _, st => some (st, true)
  | .return (some e) _, st => do
      let v ← e.eval zero st
      return (st.setResult v, true)
  | .unsupported _, _ => none

-- Runs statements in order up to the first return.
def execBlock (zero : ZeroDivision) : List Statement → State → Option (State × Bool)
  | [], st => some (st, false)
  | s :: rest, st => do
      let (st, returned) ← s.exec zero st
      if returned then return (st, true) else execBlock zero rest st

end

mutual

def mentioned : Statement → List Variable
  | .assignment destination e _ => destination :: e.mentioned
  | .conditional c thenBlock elseBlock _ =>
      c.mentioned ++ (blockMentioned thenBlock ++ blockMentioned elseBlock)
  | .return none _ => []
  | .return (some e) _ => e.mentioned
  | .unsupported _ => []

def blockMentioned : List Statement → List Variable
  | [] => []
  | s :: rest => s.mentioned ++ blockMentioned rest

end

end Statement

namespace Clause

def eval (zero : ZeroDivision) (st : State) : Clause → Option Exact
  | .supported _ e _ => e.eval zero st
  | .unsupported _ _ => none

def Holds (zero : ZeroDivision) (st : State) (c : Clause) : Prop := c.eval zero st = some (.bool true)

def Fails (zero : ZeroDivision) (st : State) (c : Clause) : Prop := c.eval zero st = some (.bool false)

def mentioned : Clause → List Variable
  | .supported _ e _ => e.mentioned
  | .unsupported _ _ => []

end Clause

end Covenant
