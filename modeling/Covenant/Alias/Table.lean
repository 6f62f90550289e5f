import Covenant.Alias.Name
import Covenant.Data.NameMap
import Covenant.Text.Quoted

namespace Covenant

inductive AliasError
  | alreadyRegistered (name : String)
  | unregistered (name : String)
  | mismatchedNames (leftOnly rightOnly : List String)
  deriving DecidableEq, Repr

def AliasError.message : AliasError → String
  | .alreadyRegistered name => s!"`{name}` is already registered"
  | .unregistered name => s!"`{name}` is not registered"
  | .mismatchedNames leftOnly rightOnly =>
      "cannot merge tables over different names (left only: " ++ Text.quotedList leftOnly ++
        ", right only: " ++ Text.quotedList rightOnly ++ ")"

-- The newest generation that any table of a family has issued, by name. All tables forked from one
-- root draw on one counter, so no two of them issue the same alias.
abbrev Issued := NameMap Nat

-- The generation that each name has now, and every alias issued or inherited, oldest first.
structure AliasTable where
  current : NameMap Nat
  history : List AliasName
  deriving DecidableEq, Repr

-- A name whose generations differ between two tables.
structure Divergence where
  name : String
  left : Nat
  right : Nat
  deriving DecidableEq, Repr

def Divergence.leftAlias (d : Divergence) : AliasName := ⟨d.name, d.left⟩

def Divergence.rightAlias (d : Divergence) : AliasName := ⟨d.name, d.right⟩

structure Merged where
  table : AliasTable
  divergences : List Divergence
  deriving DecidableEq, Repr

namespace AliasTable

def empty : AliasTable := ⟨.empty, []⟩

def names (t : AliasTable) : List String := t.current.names

def contains (t : AliasTable) (name : String) : Bool := t.current.contains name

def get (t : AliasTable) (name : String) : Except AliasError AliasName :=
  match t.current.get? name with
  | some generation => .ok ⟨name, generation⟩
  | none => .error (.unregistered name)

def set (t : AliasTable) (name : String) (generation : Nat) : AliasTable :=
  ⟨t.current.insert name generation, t.history ++ [⟨name, generation⟩]⟩

-- Registers a name at generation 0.
def add (t : AliasTable) (issued : Issued) (name : String) :
    Except AliasError (AliasName × AliasTable × Issued) :=
  if t.contains name then .error (.alreadyRegistered name)
  else
    let issued := if issued.contains name then issued else issued.insert name 0
    .ok (⟨name, 0⟩, t.set name 0, issued)

-- Issues a new generation of a name and makes it current. It never runs out of generations.
def advance (t : AliasTable) (issued : Issued) (name : String) :
    Except AliasError (AliasName × AliasTable × Issued) :=
  match t.current.get? name with
  | none => .error (.unregistered name)
  | some generation =>
      let next := (issued.get? name).getD generation + 1
      .ok (⟨name, next⟩, t.set name next, issued.insert name next)

def insertOrdered (a : AliasName) : List AliasName → List AliasName
  | [] => [a]
  | b :: rest =>
      if a.before b then a :: b :: rest
      else if a = b then b :: rest
      else b :: insertOrdered a rest

-- The aliases in the history of `s` that are not in the history of `t`, in order, each once.
def difference (s t : AliasTable) : List AliasName :=
  (s.history.filter (· ∉ t.history)).foldr insertOrdered []

def namesOnlyIn (s t : AliasTable) : List String := s.names.filter fun name => !t.contains name

def divergences (left right : AliasTable) : List Divergence :=
  left.current.entries.filterMap fun (name, l) =>
    match right.current.get? name with
    | some r => if l = r then none else some ⟨name, l, r⟩
    | none => none

-- Joins two forks of one table. The left side's generations stay current until each divergence is
-- given a new one.
def merge (left right : AliasTable) : Except AliasError Merged :=
  let leftOnly := left.namesOnlyIn right
  let rightOnly := right.namesOnlyIn left
  if leftOnly.isEmpty && rightOnly.isEmpty then
    let history := left.history ++ right.history.filter (· ∉ left.history)
    .ok ⟨⟨left.current, history⟩, left.divergences right⟩
  else .error (.mismatchedNames leftOnly rightOnly)

end AliasTable

end Covenant
