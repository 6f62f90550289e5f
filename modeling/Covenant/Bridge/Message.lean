import Covenant.Channel.Segment
import Covenant.Json.Print
import Covenant.Term.Json
import Covenant.Text.Utf8

namespace Covenant

open Json (Reader)

-- A query on its way to a solver.
structure Request where
  id : Nat
  formula : Formula

-- The answer to the request with the same number.
structure Response where
  id : Nat
  result : Answer

-- Requests are counted in words of 64 bits.
def Request.idLimit : Nat := 0x10000000000000000

namespace Request

def toJson (q : Request) : Json := .obj [("id", .nat q.id), ("formula", q.formula.toJson)]

def reader : Reader Request :=
  Reader.map (fun (id, formula, ()) => ⟨id, formula⟩) <| Reader.record <|
    .cons (.required "id" (Reader.natBelow idLimit)) <|
    .cons (.required "formula" Formula.reader) .nil

def encode (q : Request) : Bytes := Text.toBytes q.toJson.compact

def decode (frame : Bytes) : Json.Result Request := Json.read reader (Text.ofBytes frame)

end Request

namespace Response

def toJson (a : Response) : Json := .obj [("id", .nat a.id), ("result", a.result.toJson)]

def reader : Reader Response :=
  Reader.map (fun (id, result, ()) => ⟨id, result⟩) <| Reader.record <|
    .cons (.required "id" (Reader.natBelow Request.idLimit)) <|
    .cons (.required "result" Answer.reader) .nil

def encode (a : Response) : Bytes := Text.toBytes a.toJson.compact

def decode (frame : Bytes) : Json.Result Response := Json.read reader (Text.ofBytes frame)

end Response

end Covenant
