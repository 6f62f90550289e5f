import Covenant.Encoding.Basic
import Covenant.Model.Expression

namespace Covenant

def Logical.build : Logical → Term → Term → Term
  | .and, l, r => .and [l, r]
  | .or, l, r => .or [l, r]

def Comparison.build : Comparison → Term → Term → Term
  | .equal, l, r => .eq l r
  | .unequal, l, r => .not (.eq l r)
  | .order op, l, r => .order op l r

-- Equality compares values of either sort, if the sides have the same.
def Comparison.operandSort (op : Comparison) (left : Term) : TermSort :=
  match op with
  | .equal | .unequal => left.sort
  | .order _ => .int

namespace Signature

def binary (symbol : String) (sort : TermSort) (build : Term → Term → Term) (left right : Term) :
    Except EncodeError Term := do
  expectSort symbol sort left
  expectSort symbol sort right
  return build left right

-- The term of an expression at the generations that are current in the table.
def expression (s : Signature) (table : AliasTable) : Expression → Except EncodeError Term
  | .literal (.int n) => .ok (.int n)
  | .literal (.bool b) => .ok (.bool b)
  | .variable v => s.current table v.logicalName
  | .arithmetic op l r => do
      let left ← s.expression table l
      let right ← s.expression table r
      binary op.symbol .int (.arith op) left right
  | .logical op l r => do
      let left ← s.expression table l
      let right ← s.expression table r
      binary op.symbol .bool op.build left right
  | .comparison op l r => do
      let left ← s.expression table l
      let right ← s.expression table r
      binary op.symbol (op.operandSort left) op.build left right
  | .unary .not a => do
      let inner ← s.expression table a
      expectSort Unary.not.symbol .bool inner
      return .not inner
  | .unary .negate a => do
      let inner ← s.expression table a
      expectSort Unary.negate.symbol .int inner
      return .neg inner
  | .parenthesized a => s.expression table a
  | .result => if s.hasResult then s.current table resultName else .error .noResult
  | .unsupported location => .error (.unsupportedReached location)

-- A condition is a boolean expression.
def condition (s : Signature) (table : AliasTable) (e : Expression) : Except EncodeError Term := do
  let t ← s.expression table e
  expectSort "condition" .bool t
  return t

end Signature

end Covenant
