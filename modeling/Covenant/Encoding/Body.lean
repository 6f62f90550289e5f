import Covenant.Encoding.Expression
import Covenant.Model.Statement

namespace Covenant.Encode

def expression (e : Expression) : Encode Term :=
  reading fun s => s.signature.expression s.table e

def condition (e : Expression) : Encode Term :=
  reading fun s => s.signature.condition s.table e

-- Defines a new generation of a name. A path that has returned keeps the old value.
def write (mayHaveReturned : Bool) (name : String) (value : Term) : Encode Unit := do
  let kept ←
    if mayHaveReturned then do
      let returned ← current returnedName
      let old ← current name
      pure (.ite returned old value)
    else pure value
  let fresh ← symbol (← advance name)
  assert (.eq fresh kept)

def assign (mayHaveReturned : Bool) (name : String) (e : Expression) : Encode Unit := do
  let value ← expression e
  let sort ← reading fun s => s.signature.sort name
  reading fun _ => expectSort "=" sort value
  write mayHaveReturned name value

def returnValue (mayHaveReturned : Bool) (e : Expression) : Encode Unit := do
  reading fun s => if s.signature.hasResult then .ok () else .error .noResult
  let value ← expression e
  let sort ← reading fun s => .ok ((s.signature.sorts.get? resultName).getD .int)
  reading fun _ => expectSort "return" sort value
  write mayHaveReturned resultName value

-- Runs a branch from the table at the fork, and gives the table that it ends with.
def branch (fork : AliasTable) (action : Encode Bool) : Encode (Bool × AliasTable) := fun e =>
  match action { e with table := fork } with
  | .ok mayHaveReturned e => .ok (mayHaveReturned, e.table) { e with table := fork }
  | .error error e => .error error { e with table := fork }

def joinOne (condition : Term) (d : Divergence) : Encode Unit := do
  let joined ← symbol (← advance d.name)
  let thenValue ← symbol d.leftAlias
  let elseValue ← symbol d.rightAlias
  assert (.eq joined (.ite condition thenValue elseValue))

def joinAll (condition : Term) : List Divergence → Encode Unit
  | [] => return
  | d :: rest => do
      joinOne condition d
      joinAll condition rest

-- Each name that the branches leave at different generations gets a new one, which the condition
-- decides.
def join (condition : Term) (thenTable elseTable : AliasTable) : Encode Unit := fun e =>
  match thenTable.merge elseTable with
  | .error error => .error (.alias error) e
  | .ok merged => joinAll condition merged.divergences { e with table := merged.table }

mutual

-- The flag says whether a return may have run before, and then whether it may have run after.
def statement (mayHaveReturned : Bool) : Statement → Encode Bool
  | .assignment destination e _ => do
      assign mayHaveReturned destination.logicalName e
      return mayHaveReturned
  | .conditional c thenBlock elseBlock _ => do
      let cond ← condition c
      let fork ← reading fun e => .ok e.table
      let (thenReturned, thenTable) ← branch fork (block mayHaveReturned thenBlock)
      let (elseReturned, elseTable) ← branch fork (block mayHaveReturned elseBlock)
      join cond thenTable elseTable
      return thenReturned || elseReturned
  | .return value _ => do
      match value with
      | none => pure ()
      | some e => returnValue mayHaveReturned e
      write mayHaveReturned returnedName (.bool true)
      return true
  | .unsupported location => throw (.unsupportedReached location)

def block (mayHaveReturned : Bool) : List Statement → Encode Bool
  | [] => return mayHaveReturned
  | s :: rest => do
      let mayHaveReturned ← statement mayHaveReturned s
      block mayHaveReturned rest

end

-- The equations of a body, which starts with no return behind it.
def body (statements : List Statement) : Encode Unit := do
  let _ ← block false statements

end Covenant.Encode
