import Covenant.Json.Reader
import Covenant.Json.Value
import Covenant.Model.Class

namespace Covenant

open Json (Reader)

namespace Location

def toJson (l : Location) : Json :=
  .obj [("line", .nat l.line.toNat), ("column", .nat l.column.toNat),
    ("offset", .nat l.offset.toNat), ("len", .nat l.len.toNat)]

def reader : Reader Location :=
  Reader.map (fun (line, column, offset, len, ()) => ⟨line, column, offset, len⟩) <|
    Reader.record <|
    .cons (.required "line" Reader.uint32) <|
    .cons (.required "column" Reader.uint32) <|
    .cons (.defaulting "offset" Reader.uint64 0) <|
    .cons (.defaulting "len" Reader.uint64 0) .nil

def field : Json.Field Location := .defaulting "location" reader unknown

end Location

def TypeRef.toJson : TypeRef → Json
  | .named name nullable =>
      .tagged "named" (.obj [("name", .str name), ("nullable", .bool nullable)])
  | .other => .str "other"

def TypeRef.reader : Reader TypeRef :=
  Reader.choice [
    .content "named" <| Reader.map (fun (name, nullable, ()) => .named name nullable) <|
      Reader.record <|
      .cons (.required "name" Reader.string) <|
      .cons (.required "nullable" Reader.bool) .nil,
    .unit "other" .other]

def Literal.toJson : Literal → Json
  | .int n => .tagged "int" (.int n.toInt)
  | .bool b => .tagged "bool" (.bool b)

def Literal.reader : Reader Literal :=
  Reader.choice [
    .content "int" (Reader.map .int Reader.int64),
    .content "bool" (Reader.map .bool Reader.bool)]

def Field.toJson (f : Field) : Json :=
  .obj [("name", .str f.name), ("ty", f.type.toJson),
    ("initializer", .option Literal.toJson f.initializer), ("owner", .str f.owner),
    ("property", .option .str f.property), ("location", f.location.toJson)]

def Field.reader : Reader Field :=
  Reader.map (fun (name, type, initializer, owner, property, location, ()) =>
      ⟨name, type, initializer, owner, property, location⟩) <|
    Reader.record <|
    .cons (.required "name" Reader.string) <|
    .cons (.required "ty" TypeRef.reader) <|
    .cons (.defaulting "initializer" (Reader.option Literal.reader) none) <|
    .cons (.required "owner" Reader.string) <|
    .cons (.defaulting "property" (Reader.option Reader.string) none) <|
    .cons Location.field .nil

def Binder.toJson (b : Binder) : Json :=
  .obj [("name", .str b.name), ("ty", b.type.toJson), ("location", b.location.toJson)]

def Binder.reader : Reader Binder :=
  Reader.map (fun (name, type, location, ()) => ⟨name, type, location⟩) <| Reader.record <|
    .cons (.required "name" Reader.string) <|
    .cons (.required "ty" TypeRef.reader) <|
    .cons Location.field .nil

def Variable.toJson : Variable → Json
  | .field f => .tagged "field" f.toJson
  | .parameter p => .tagged "parameter" p.toJson
  | .localVar l => .tagged "local" l.toJson

def Variable.reader : Reader Variable :=
  Reader.choice [
    .content "field" (Reader.map .field Field.reader),
    .content "parameter" (Reader.map .parameter Binder.reader),
    .content "local" (Reader.map .localVar Binder.reader)]

def Arith.reader : Reader Arith :=
  Reader.choice [.unit "+" .add, .unit "-" .sub, .unit "*" .mul, .unit "/" .div]

def Logical.reader : Reader Logical := Reader.choice [.unit "&&" .and, .unit "||" .or]

def Comparison.reader : Reader Comparison :=
  Reader.choice [.unit "==" .equal, .unit "!=" .unequal, .unit ">" (.order .gt),
    .unit ">=" (.order .ge), .unit "<" (.order .lt), .unit "<=" (.order .le)]

def Unary.reader : Reader Unary := Reader.choice [.unit "!" .not, .unit "-" .negate]

namespace Expression

def operationJson (symbol : String) (left right : Json) : Json :=
  .obj [("op", .str symbol), ("left", left), ("right", right)]

def toJson : Expression → Json
  | .literal l => .tagged "literal" l.toJson
  | .variable v => .tagged "variable_ref" v.toJson
  | .arithmetic op l r => .tagged "binary_arithmetic" (operationJson op.symbol l.toJson r.toJson)
  | .logical op l r => .tagged "binary_logical" (operationJson op.symbol l.toJson r.toJson)
  | .comparison op l r => .tagged "comparison" (operationJson op.symbol l.toJson r.toJson)
  | .unary op a => .tagged "unary" (.obj [("op", .str op.symbol), ("operand", a.toJson)])
  | .parenthesized a => .tagged "parenthesized" a.toJson
  | .result => .str "result"
  | .unsupported location => .tagged "unsupported" location.toJson

def operationReader (self : Reader Expression) (op : Reader α)
    (make : α → Expression → Expression → Expression) : Reader Expression :=
  Reader.map (fun (op, l, r, ()) => make op l r) <| Reader.record <|
    .cons (.required "op" op) <|
    .cons (.required "left" self) <|
    .cons (.required "right" self) .nil

-- Reads an expression whose parts are read by `self`.
def readerOver (self : Reader Expression) : Reader Expression :=
  Reader.choice [
    .content "literal" (Reader.map .literal Literal.reader),
    .content "variable_ref" (Reader.map .variable Variable.reader),
    .content "binary_arithmetic" (operationReader self Arith.reader .arithmetic),
    .content "binary_logical" (operationReader self Logical.reader .logical),
    .content "comparison" (operationReader self Comparison.reader .comparison),
    .content "unary" <| Reader.map (fun (op, a, ()) => .unary op a) <| Reader.record <|
      .cons (.required "op" Unary.reader) <|
      .cons (.required "operand" self) .nil,
    .content "parenthesized" (Reader.map .parenthesized self),
    .unit "result" .result,
    .content "unsupported" (Reader.map .unsupported Location.reader)]

-- Each level enters a container, so the depth bounds the levels.
def readerWithin : Nat → Reader Expression
  | 0 => fun _ _ => Reader.stop .malformed
  | levels + 1 => readerOver (readerWithin levels)

def reader : Reader Expression := fun depth t => readerWithin (depth + 1) depth t

end Expression

namespace Statement

mutual

def toJson : Statement → Json
  | .assignment destination expr location =>
      .tagged "assignment" (.obj [("destination", destination.toJson), ("expr", expr.toJson),
        ("location", location.toJson)])
  | .conditional condition thenBlock elseBlock location =>
      .tagged "conditional" (.obj [("condition", condition.toJson),
        ("then_block", .arr (blockToJson thenBlock)), ("else_block", .arr (blockToJson elseBlock)),
        ("location", location.toJson)])
  | .return expr location =>
      .tagged "return" (.obj [("expr", .option Expression.toJson expr),
        ("location", location.toJson)])
  | .unsupported location => .tagged "unsupported" location.toJson

def blockToJson : List Statement → List Json
  | [] => []
  | s :: rest => s.toJson :: blockToJson rest

end

def readerOver (self : Reader Statement) : Reader Statement :=
  Reader.choice [
    .content "assignment" <|
      Reader.map (fun (destination, expr, location, ()) =>
        .assignment destination expr location) <| Reader.record <|
      .cons (.required "destination" Variable.reader) <|
      .cons (.required "expr" Expression.reader) <|
      .cons Location.field .nil,
    .content "conditional" <|
      Reader.map (fun (condition, thenBlock, elseBlock, location, ()) =>
        .conditional condition thenBlock elseBlock location) <| Reader.record <|
      .cons (.required "condition" Expression.reader) <|
      .cons (.required "then_block" (Reader.list self)) <|
      .cons (.defaulting "else_block" (Reader.list self) []) <|
      .cons Location.field .nil,
    .content "return" <|
      Reader.map (fun (expr, location, ()) => .return expr location) <| Reader.record <|
      .cons (.defaulting "expr" (Reader.option Expression.reader) none) <|
      .cons Location.field .nil,
    .content "unsupported" (Reader.map .unsupported Location.reader)]

def readerWithin : Nat → Reader Statement
  | 0 => fun _ _ => Reader.stop .malformed
  | levels + 1 => readerOver (readerWithin levels)

def reader : Reader Statement := fun depth t => readerWithin (depth + 1) depth t

end Statement

def Clause.toJson : Clause → Json
  | .supported text expr location =>
      .tagged "supported" (.obj [("text", .str text), ("expr", expr.toJson),
        ("location", location.toJson)])
  | .unsupported text location =>
      .tagged "unsupported" (.obj [("text", .str text), ("location", location.toJson)])

def Clause.reader : Reader Clause :=
  Reader.choice [
    .content "supported" <|
      Reader.map (fun (text, expr, location, ()) => .supported text expr location) <|
      Reader.record <|
      .cons (.required "text" Reader.string) <|
      .cons (.required "expr" Expression.reader) <|
      .cons Location.field .nil,
    .content "unsupported" <|
      Reader.map (fun (text, location, ()) => .unsupported text location) <| Reader.record <|
      .cons (.required "text" Reader.string) <|
      .cons Location.field .nil]

def UnsupportedDecl.toJson (d : UnsupportedDecl) : Json :=
  .obj [("name", .str d.name), ("reason", .str d.reason), ("location", d.location.toJson)]

def UnsupportedDecl.reader : Reader UnsupportedDecl :=
  Reader.map (fun (name, reason, location, ()) => ⟨name, reason, location⟩) <| Reader.record <|
    .cons (.required "name" Reader.string) <|
    .cons (.defaulting "reason" Reader.string "") <|
    .cons Location.field .nil

def Decl.toJson (f : α → Json) : Decl α → Json
  | .supported a => .tagged "supported" (f a)
  | .unsupported d => .tagged "unsupported" d.toJson

def Decl.reader (reader : Reader α) : Reader (Decl α) :=
  Reader.choice [
    .content "supported" (Reader.map .supported reader),
    .content "unsupported" (Reader.map .unsupported UnsupportedDecl.reader)]

namespace NameTable

def toJson (f : α → Json) (t : NameTable α) : Json := .list f t.entries

-- Entries go in as they are read, so a repeated name counts from its second entry on.
def readEntries [Named α] (reader : Reader α) (depth : Nat) (t : NameTable α) :
    List Json.Tree → Json.Result (NameTable α)
  | [] => .ok t
  | tree :: trees => do
      let entry ← reader depth tree
      match t.insert entry with
      | .ok t => t.readEntries reader depth trees
      | .error _ => Reader.fail (.duplicateName (Named.name entry))

-- A table that was read is complete, and so it is sealed.
def reader [Named α] (reader : Reader α) : Reader (NameTable α)
  | depth, .array trees ending => Reader.enter depth fun depth => do
      let t ← empty.readEntries reader depth trees
      Reader.close ending t.toSealed
  | _, t => Reader.unexpected t

end NameTable

def Access.toJson : Access → Json
  | .pub => .str "public"
  | .prot => .str "protected"
  | .internal => .str "internal"
  | .priv => .str "private"

def Access.reader : Reader Access :=
  Reader.choice [.unit "public" .pub, .unit "protected" .prot,
    .unit "internal" .internal, .unit "private" .priv]

def Binder.tableField (name : String) : Json.Field (NameTable (Decl Binder)) :=
  .defaulting name (NameTable.reader (Decl.reader Binder.reader)) .sealedEmpty

def Clause.listField (name : String) : Json.Field (List Clause) :=
  .defaulting name (Reader.list Clause.reader) []

namespace Method

def toJson (m : Method) : Json :=
  .obj [("name", .str m.name), ("access", m.access.toJson), ("return_type", m.returnType.toJson),
    ("parameters", m.parameters.toJson (Decl.toJson Binder.toJson)),
    ("locals", m.locals.toJson (Decl.toJson Binder.toJson)),
    ("requires", .list Clause.toJson m.requires), ("body", .list Statement.toJson m.body),
    ("ensures", .list Clause.toJson m.ensures), ("location", m.location.toJson)]

def reader : Reader Method :=
  Reader.map (fun (name, access, returnType, parameters, locals, requires, body, ensures,
      location, ()) =>
    ⟨name, access, returnType, parameters, locals, requires, body, ensures, location⟩) <|
    Reader.record <|
    .cons (.required "name" Reader.string) <|
    .cons (.defaulting "access" Access.reader .priv) <|
    .cons (.required "return_type" TypeRef.reader) <|
    .cons (Binder.tableField "parameters") <|
    .cons (Binder.tableField "locals") <|
    .cons (Clause.listField "requires") <|
    .cons (.defaulting "body" (Reader.list Statement.reader) []) <|
    .cons (Clause.listField "ensures") <|
    .cons Location.field .nil

end Method

namespace ClassModel

def toJson (c : ClassModel) : Json :=
  .obj [("name", .str c.name), ("fields", c.fields.toJson (Decl.toJson Field.toJson)),
    ("methods", c.methods.toJson (Decl.toJson Method.toJson)),
    ("invariants", .list Clause.toJson c.invariants), ("location", c.location.toJson)]

def reader : Reader ClassModel :=
  Reader.map (fun (name, fields, methods, invariants, location, ()) =>
    ⟨name, fields, methods, invariants, location⟩) <| Reader.record <|
    .cons (.required "name" Reader.string) <|
    .cons (.defaulting "fields" (NameTable.reader (Decl.reader Field.reader)) .sealedEmpty) <|
    .cons (.defaulting "methods" (NameTable.reader (Decl.reader Method.reader)) .sealedEmpty) <|
    .cons (Clause.listField "invariants") <|
    .cons Location.field .nil

-- A file of classes is a list of them, or one alone. It is read whole before either is tried.
def ofFile? (text : List Char) : Option (List ClassModel) :=
  let document := Json.Document.parse text
  if document.root.sound Json.depthLimit && !document.trailing then
    match Reader.list reader Json.depthLimit document.root with
    | .ok classes => some classes
    | .error _ => ((reader Json.depthLimit document.root).toOption).map ([·])
  else none

end ClassModel

end Covenant
