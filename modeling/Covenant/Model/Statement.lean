import Covenant.Model.Expression

namespace Covenant

inductive Statement
  | assignment (destination : Variable) (expr : Expression) (location : Location)
  | conditional (condition : Expression) (thenBlock elseBlock : List Statement)
      (location : Location)
  | return (expr : Option Expression) (location : Location)
  | unsupported (location : Location)
  deriving BEq, Repr

namespace Statement

mutual

def firstUnsupported : Statement → Option Location
  | .assignment _ expr _ => expr.firstUnsupported
  | .conditional condition thenBlock elseBlock _ =>
      (condition.firstUnsupported.or (firstInBlock thenBlock)).or (firstInBlock elseBlock)
  | .return expr _ => expr.bind Expression.firstUnsupported
  | .unsupported location => some location

def firstInBlock : List Statement → Option Location
  | [] => none
  | s :: rest => s.firstUnsupported.or (firstInBlock rest)

end

end Statement

end Covenant
