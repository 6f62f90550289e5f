import Covenant.Term.Basic

namespace Covenant

-- A value that a symbol takes during a search.
inductive Scalar
  | int (n : Int64)
  | bool (b : Bool)
  deriving DecidableEq, Repr

namespace Scalar

def asInt : Scalar → Option Int64
  | .int n => some n
  | .bool _ => none

def asBool : Scalar → Option Bool
  | .bool b => some b
  | .int _ => none

end Scalar

-- The 64-bit integer of this value, if there is one.
def fit (n : Int) : Option Int64 :=
  let v := Int64.ofInt n
  if v.toInt = n then some v else none

-- Exact or nothing: the result has to fit, and division by zero has none.
def Arith.apply? (op : Arith) (a b : Int64) : Option Int64 :=
  match op with
  | .add => fit (a.toInt + b.toInt)
  | .sub => fit (a.toInt - b.toInt)
  | .mul => fit (a.toInt * b.toInt)
  | .div => if b.toInt = 0 then none else fit (a.toInt / b.toInt)

abbrev Env := List (String × Scalar)

namespace Term

mutual

-- The value of a term, unless an operation has none. A conjunction or disjunction has a value
-- only if all its parts have one. An implication with a false premise does not look further.
def eval (env : Env) : Term → Option Scalar
  | .int n => some (.int n)
  | .bool b => some (.bool b)
  | .var s => env.lookup s.name
  | .arith op l r => do
      let a ← (eval env l).bind Scalar.asInt
      let b ← (eval env r).bind Scalar.asInt
      let v ← op.apply? a b
      return .int v
  | .neg a => do
      let n ← (eval env a).bind Scalar.asInt
      let v ← fit (-n.toInt)
      return .int v
  | .not a => do
      let b ← (eval env a).bind Scalar.asBool
      return .bool !b
  | .and parts => do
      let bs ← evalParts env parts
      return .bool (bs.all id)
  | .or parts => do
      let bs ← evalParts env parts
      return .bool (bs.any id)
  | .implies l r => do
      let b ← (eval env l).bind Scalar.asBool
      if b then
        let b ← (eval env r).bind Scalar.asBool
        return .bool b
      else return .bool true
  | .eq l r => do
      let a ← eval env l
      let b ← eval env r
      return .bool (a = b)
  | .order op l r => do
      let a ← (eval env l).bind Scalar.asInt
      let b ← (eval env r).bind Scalar.asInt
      return .bool (op.holds a.toInt b.toInt)
  | .ite c t e => do
      let b ← (eval env c).bind Scalar.asBool
      if b then eval env t else eval env e

def evalParts (env : Env) : List Term → Option (List Bool)
  | [] => some []
  | part :: parts => do
      let b ← (eval env part).bind Scalar.asBool
      let bs ← evalParts env parts
      return b :: bs

end

end Term

end Covenant
