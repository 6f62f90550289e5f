import Covenant.Operator

namespace Covenant

inductive TermSort
  | int
  | bool
  deriving DecidableEq, Repr

def TermSort.text : TermSort → String
  | .int => "Int"
  | .bool => "Bool"

structure Symbol where
  name : String
  sort : TermSort
  deriving DecidableEq, Repr

-- What a solver is asked about.
inductive Term
  | int (n : Int64)
  | bool (b : Bool)
  | var (s : Symbol)
  | arith (op : Arith) (left right : Term)
  | neg (a : Term)
  | not (a : Term)
  | and (parts : List Term)
  | or (parts : List Term)
  | implies (left right : Term)
  | eq (left right : Term)
  | order (op : Order) (left right : Term)
  | ite (condition thenTerm elseTerm : Term)

namespace Term

-- The sort of a well-sorted term.
def sort : Term → TermSort
  | .int _ | .arith _ _ _ | .neg _ => .int
  | .bool _ | .not _ | .and _ | .or _ | .implies _ _ | .eq _ _ | .order _ _ _ => .bool
  | .var s => s.sort
  | .ite _ thenTerm _ => thenTerm.sort

mutual

-- Every occurrence of a symbol, from left to right.
def symbols : Term → List Symbol
  | .int _ | .bool _ => []
  | .var s => [s]
  | .neg a | .not a => a.symbols
  | .and parts | .or parts => partsSymbols parts
  | .arith _ l r | .implies l r | .eq l r | .order _ l r => l.symbols ++ r.symbols
  | .ite c t e => c.symbols ++ (t.symbols ++ e.symbols)

def partsSymbols : List Term → List Symbol
  | [] => []
  | part :: parts => part.symbols ++ partsSymbols parts

end

mutual

-- Every integer literal, from left to right.
def literals : Term → List Int64
  | .int n => [n]
  | .bool _ | .var _ => []
  | .neg a | .not a => a.literals
  | .and parts | .or parts => partsLiterals parts
  | .arith _ l r | .implies l r | .eq l r | .order _ l r => l.literals ++ r.literals
  | .ite c t e => c.literals ++ (t.literals ++ e.literals)

def partsLiterals : List Term → List Int64
  | [] => []
  | part :: parts => part.literals ++ partsLiterals parts

end

def mentions (t : Term) (name : String) : Bool := t.symbols.any fun s => s.name = name

end Term

-- The conjunction of its assertions.
structure Formula where
  assertions : List Term

-- The symbols whose names are not among those seen, each name once and at its first occurrence.
def Symbol.fresh (seen : List String) : List Symbol → List Symbol
  | [] => []
  | s :: rest =>
      if s.name ∈ seen then fresh seen rest else s :: fresh (s.name :: seen) rest

namespace Formula

def occurrences (f : Formula) : List Symbol := f.assertions.flatMap Term.symbols

def symbols (f : Formula) : List Symbol := Symbol.fresh [] f.occurrences

end Formula

end Covenant
