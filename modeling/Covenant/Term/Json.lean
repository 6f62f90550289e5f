import Covenant.Json.Reader
import Covenant.Json.Value
import Covenant.Solver

namespace Covenant

open Json (Reader Field Fields Variant)

def Arith.tag : Arith → String
  | .add => "add"
  | .sub => "sub"
  | .mul => "mul"
  | .div => "div"

def Order.tag : Order → String
  | .lt => "lt"
  | .le => "le"
  | .gt => "gt"
  | .ge => "ge"

def TermSort.toJson : TermSort → Json
  | .int => .str "int"
  | .bool => .str "bool"

def TermSort.reader : Reader TermSort := Reader.choice [.unit "int" .int, .unit "bool" .bool]

def Symbol.toJson (s : Symbol) : Json := .obj [("name", .str s.name), ("sort", s.sort.toJson)]

def Symbol.reader : Reader Symbol :=
  Reader.map (fun (name, sort, ()) => ⟨name, sort⟩) <| Reader.record <|
    .cons (.required "name" Reader.string) <|
    .cons (.required "sort" TermSort.reader) .nil

namespace Term

mutual

def toJson : Term → Json
  | .int n => .tagged "int" (.int n.toInt)
  | .bool b => .tagged "bool" (.bool b)
  | .var s => .tagged "var" s.toJson
  | .arith op l r => .tagged op.tag (.arr [l.toJson, r.toJson])
  | .neg a => .tagged "neg" a.toJson
  | .not a => .tagged "not" a.toJson
  | .and parts => .tagged "and" (.arr (partsToJson parts))
  | .or parts => .tagged "or" (.arr (partsToJson parts))
  | .implies l r => .tagged "implies" (.arr [l.toJson, r.toJson])
  | .eq l r => .tagged "eq" (.arr [l.toJson, r.toJson])
  | .order op l r => .tagged op.tag (.arr [l.toJson, r.toJson])
  | .ite c t e => .tagged "ite" (.arr [c.toJson, t.toJson, e.toJson])

def partsToJson : List Term → List Json
  | [] => []
  | part :: parts => part.toJson :: partsToJson parts

end

def pairReader (self : Reader Term) (make : Term → Term → Term) : Reader Term :=
  Reader.map (fun (l, r, ()) => make l r) <| Reader.tuple <|
    .cons (.required "" self) <| .cons (.required "" self) .nil

def tripleReader (self : Reader Term) (make : Term → Term → Term → Term) : Reader Term :=
  Reader.map (fun (a, b, c, ()) => make a b c) <| Reader.tuple <|
    .cons (.required "" self) <| .cons (.required "" self) <| .cons (.required "" self) .nil

-- Reads a term whose subterms are read by `self`.
def readerOver (self : Reader Term) : Reader Term :=
  Reader.choice [
    .content "int" (Reader.map .int Reader.int64),
    .content "bool" (Reader.map .bool Reader.bool),
    .content "var" (Reader.map .var Symbol.reader),
    .content "add" (pairReader self (.arith .add)),
    .content "sub" (pairReader self (.arith .sub)),
    .content "mul" (pairReader self (.arith .mul)),
    .content "div" (pairReader self (.arith .div)),
    .content "neg" (Reader.map .neg self),
    .content "not" (Reader.map .not self),
    .content "and" (Reader.map .and (Reader.list self)),
    .content "or" (Reader.map .or (Reader.list self)),
    .content "implies" (pairReader self .implies),
    .content "eq" (pairReader self .eq),
    .content "lt" (pairReader self (.order .lt)),
    .content "le" (pairReader self (.order .le)),
    .content "gt" (pairReader self (.order .gt)),
    .content "ge" (pairReader self (.order .ge)),
    .content "ite" (tripleReader self .ite)]

-- Each level enters a container, so the depth bounds the levels.
def readerWithin : Nat → Reader Term
  | 0 => fun _ _ => Reader.stop .malformed
  | levels + 1 => readerOver (readerWithin levels)

def reader : Reader Term := fun depth t => readerWithin (depth + 1) depth t

end Term

namespace Formula

def toJson (f : Formula) : Json := .obj [("assertions", .list Term.toJson f.assertions)]

def reader : Reader Formula :=
  Reader.map (fun (assertions, ()) => ⟨assertions⟩) <| Reader.record <|
    .cons (.required "assertions" (Reader.list Term.reader)) .nil

end Formula

def Value.toJson : Value → Json
  | .int n => .tagged "int" (.int n.toInt)
  | .bool b => .tagged "bool" (.bool b)
  | .other text => .tagged "other" (.str text)

def Value.reader : Reader Value :=
  Reader.choice [
    .content "int" (Reader.map .int Reader.int64),
    .content "bool" (Reader.map .bool Reader.bool),
    .content "other" (Reader.map .other Reader.string)]

def Assignment.toJson (found : Assignment) : Json :=
  .obj [("assignments", .obj (found.entries.map fun (name, v) => (name, v.toJson)))]

def Assignment.reader : Reader Assignment :=
  Reader.map (fun (entries, ()) => NameMap.ofList entries) <| Reader.record <|
    .cons (.required "assignments" (Reader.dictionary Value.reader)) .nil

def Outcome.toJson : Outcome → Json
  | .proved => .str "proved"
  | .counterexample found => .tagged "counterexample" (Assignment.toJson found)
  | .unknown reason => .tagged "unknown" (.str reason)

def Outcome.reader : Reader Outcome :=
  Reader.choice [
    .unit "proved" .proved,
    .content "counterexample" (Reader.map .counterexample Assignment.reader),
    .content "unknown" (Reader.map .unknown Reader.string)]

def SolverError.toJson : SolverError → Json
  | .unavailable reason => .tagged "Unavailable" (.str reason)
  | .backend reason => .tagged "Backend" (.str reason)

def SolverError.reader : Reader SolverError :=
  Reader.choice [
    .content "Unavailable" (Reader.map .unavailable Reader.string),
    .content "Backend" (Reader.map .backend Reader.string)]

def Answer.toJson : Answer → Json
  | .ok outcome => .tagged "Ok" outcome.toJson
  | .error e => .tagged "Err" e.toJson

def Answer.reader : Reader Answer :=
  Reader.choice [
    .content "Ok" (Reader.map .ok Outcome.reader),
    .content "Err" (Reader.map .error SolverError.reader)]

end Covenant
