import Covenant.Model.Variable
import Covenant.Operator

namespace Covenant

inductive Expression
  | literal (l : Literal)
  | variable (v : Variable)
  | arithmetic (op : Arith) (left right : Expression)
  | logical (op : Logical) (left right : Expression)
  | comparison (op : Comparison) (left right : Expression)
  | unary (op : Unary) (operand : Expression)
  | parenthesized (inner : Expression)
  | result
  | unsupported (location : Location)
  deriving DecidableEq, Repr

namespace Expression

-- The leftmost part that is not supported.
def firstUnsupported : Expression → Option Location
  | .literal _ | .variable _ | .result => none
  | .arithmetic _ l r | .logical _ l r | .comparison _ l r =>
      l.firstUnsupported.or r.firstUnsupported
  | .unary _ a | .parenthesized a => a.firstUnsupported
  | .unsupported location => some location

def text : Expression → String
  | .literal l => l.text
  | .variable v => v.logicalName
  | .arithmetic op l r => l.text ++ " " ++ op.symbol ++ " " ++ r.text
  | .logical op l r => l.text ++ " " ++ op.symbol ++ " " ++ r.text
  | .comparison op l r => l.text ++ " " ++ op.symbol ++ " " ++ r.text
  | .unary op a => op.symbol ++ a.text
  | .parenthesized a => "(" ++ a.text ++ ")"
  | .result => "result"
  | .unsupported location => "<unsupported at " ++ location.text ++ ">"

end Expression

end Covenant
