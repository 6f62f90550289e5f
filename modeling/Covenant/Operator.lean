namespace Covenant

-- Arithmetic on integers. Division is Euclidean.
inductive Arith
  | add
  | sub
  | mul
  | div
  deriving DecidableEq, Repr

inductive Order
  | lt
  | le
  | gt
  | ge
  deriving DecidableEq, Repr

inductive Logical
  | and
  | or
  deriving DecidableEq, Repr

inductive Comparison
  | equal
  | unequal
  | order (o : Order)
  deriving DecidableEq, Repr

inductive Unary
  | not
  | negate
  deriving DecidableEq, Repr

def Arith.symbol : Arith → String
  | .add => "+"
  | .sub => "-"
  | .mul => "*"
  | .div => "/"

def Order.symbol : Order → String
  | .lt => "<"
  | .le => "<="
  | .gt => ">"
  | .ge => ">="

def Order.holds : Order → Int → Int → Bool
  | .lt, a, b => a < b
  | .le, a, b => a ≤ b
  | .gt, a, b => b < a
  | .ge, a, b => b ≤ a

def Logical.symbol : Logical → String
  | .and => "&&"
  | .or => "||"

def Comparison.symbol : Comparison → String
  | .equal => "=="
  | .unequal => "!="
  | .order o => o.symbol

def Unary.symbol : Unary → String
  | .not => "!"
  | .negate => "-"

end Covenant
