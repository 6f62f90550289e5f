import Covenant.Term.Basic

namespace Covenant

-- The marks that a symbol may hold besides letters and digits and still stand without bars.
def Symbol.marks : List Char := "~!@$%^&*_-+=<>.?/".toList

def Symbol.isPlainChar (c : Char) : Bool := c.isAlphanum || c ∈ marks

-- A name stands as it is when it is made of plain characters and does not begin with a digit.
def Symbol.isPlain (name : String) : Bool :=
  match name.toList with
  | [] => false
  | c :: cs => !c.isDigit && (c :: cs).all isPlainChar

def Symbol.smt (name : String) : String :=
  if isPlain name then name else "|" ++ name ++ "|"

def Arith.smt : Arith → String
  | .add => "+"
  | .sub => "-"
  | .mul => "*"
  | .div => "div"

namespace Term

def intSmt (n : Int64) : String :=
  if n.toInt < 0 then "(- " ++ toString n.toInt.natAbs ++ ")" else toString n.toInt.natAbs

def boolSmt (b : Bool) : String := if b then "true" else "false"

mutual

-- The SMT-LIB text of a term.
def smt : Term → String
  | .int n => intSmt n
  | .bool b => boolSmt b
  | .var s => Symbol.smt s.name
  | .arith op l r => "(" ++ op.smt ++ " " ++ l.smt ++ " " ++ r.smt ++ ")"
  | .neg a => "(- " ++ a.smt ++ ")"
  | .not a => "(not " ++ a.smt ++ ")"
  | .and [] => "true"
  | .or [] => "false"
  | .and (part :: parts) => "(and " ++ part.smt ++ partsSmt parts ++ ")"
  | .or (part :: parts) => "(or " ++ part.smt ++ partsSmt parts ++ ")"
  | .implies l r => "(=> " ++ l.smt ++ " " ++ r.smt ++ ")"
  | .eq l r => "(= " ++ l.smt ++ " " ++ r.smt ++ ")"
  | .order op l r => "(" ++ op.symbol ++ " " ++ l.smt ++ " " ++ r.smt ++ ")"
  | .ite c t e => "(ite " ++ c.smt ++ " " ++ t.smt ++ " " ++ e.smt ++ ")"

def partsSmt : List Term → String
  | [] => ""
  | part :: parts => " " ++ part.smt ++ partsSmt parts

end

end Term

def Symbol.declaration (s : Symbol) : String :=
  "(declare-fun " ++ Symbol.smt s.name ++ " () " ++ s.sort.text ++ ")\n"

-- The script that declares the symbols, asserts the formula and asks for a model.
def Formula.smtLib (f : Formula) : String :=
  String.join (f.symbols.map Symbol.declaration) ++
    String.join (f.assertions.map fun t => "(assert " ++ t.smt ++ ")\n") ++ "(check-sat)\n"

end Covenant
