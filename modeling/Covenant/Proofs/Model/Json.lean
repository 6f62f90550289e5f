import Covenant.Model.Json
import Covenant.Proofs.Json.Reader
import Covenant.Proofs.Model.NameTable

namespace Covenant

open Json (Reader Fields)
open Json.Reader (Reads)

namespace Json.Reader.Reads

variable {α : Type} {limit : Nat} {reader : Reader α} {j : Json} {a : α}

theorem uint32 (k : UInt32) : Reads Reader.uint32 limit (.nat k.toNat) k := by
  intro depth hdepth
  have h := (natBelow k.toNat_lt).map UInt32.ofNat depth hdepth
  rwa [UInt32.ofNat_toNat] at h

theorem uint64 (k : UInt64) : Reads Reader.uint64 limit (.nat k.toNat) k := by
  intro depth hdepth
  have h := (natBelow k.toNat_lt).map UInt64.ofNat depth hdepth
  rwa [UInt64.ofNat_toNat] at h

theorem none : Reads (Reader.option reader) limit .null none := fun _ _ => rfl

-- What is written for a value is never null.
theorem some (hj : j ≠ .null) (h : Reads reader limit j a) :
    Reads (Reader.option reader) limit j (some a) := by
  intro depth hdepth
  have hoption : Reader.option reader depth j.toTree = (reader depth j.toTree).map Option.some := by
    cases j with
    | null => exact absurd rfl hj
    | bool b => rfl
    | int n => rfl
    | str s => rfl
    | arr items => rfl
    | obj members => rfl
  rw [hoption, h depth hdepth, within_map]

theorem option {f : α → Json} (hf : ∀ a, f a ≠ .null) (h : ∀ a, Reads reader limit (f a) a)
    (o : Option α) : Reads (Reader.option reader) limit (Json.option f o) o := by
  cases o with
  | none => exact .none
  | some a => exact .some (hf a) (h a)

-- As `content`, for a content that is read at every limit.
theorem variant {variants : List (Json.Variant α)} {name : String}
    (hfind : find variants name = .ok (.content name reader)) (h : Reads reader limit j a) :
    Reads (Reader.choice variants) limit (.tagged name j) a := (content hfind h).mono (by omega)

theorem listOf {f : α → Json} {as : List α} (h : ∀ a ∈ as, Reads reader limit (f a) a) :
    Reads (Reader.list reader) (limit + 1) (Json.list f as) as :=
  .list (List.forall₂_map_left_iff.mpr (List.forall₂_same.mpr h))

end Json.Reader.Reads

namespace Json

variable {α : Type} {f : α → Json}

theorem exact_option (h : ∀ a, (f a).Exact) (o : Option α) : (option f o).Exact := by
  cases o with
  | none => trivial
  | some a => exact h a

theorem exact_list {as : List α} (h : ∀ a ∈ as, (f a).Exact) : (list f as).Exact := by
  rw [list, Exact, itemsExact_iff]
  simpa using h

end Json

-- The parts of a declaration

variable {limit : Nat}

theorem Location.reads (l : Location) : Reads Location.reader limit l.toJson l := by
  have hfields : Fields.Written limit
      (.cons (.required "line" Reader.uint32) <| .cons (.required "column" Reader.uint32) <|
        .cons (.defaulting "offset" Reader.uint64 0) <| .cons (.defaulting "len" Reader.uint64 0) .nil)
      [("line", .nat l.line.toNat), ("column", .nat l.column.toNat),
        ("offset", .nat l.offset.toNat), ("len", .nat l.len.toNat)]
      (l.line, l.column, l.offset, l.len, ()) :=
    .cons (.uint32 l.line) (by simp [Json.Field.required]) <|
    .cons (.uint32 l.column) (by simp [Json.Field.required]) <|
    .cons (.uint64 l.offset) (by simp [Json.Field.defaulting]) <| .cons (.uint64 l.len) (by simp) .nil
  exact ((Reads.record hfields).map _).mono (by omega)

theorem Location.exact_toJson (l : Location) : l.toJson.Exact := by
  have hline := l.line.toNat_lt
  have hcolumn := l.column.toNat_lt
  exact ⟨Json.exact_nat (by omega), Json.exact_nat (by omega), Json.exact_nat l.offset.toNat_lt,
    Json.exact_nat l.len.toNat_lt, trivial⟩

theorem TypeRef.reads (t : TypeRef) : Reads TypeRef.reader limit t.toJson t := by
  cases t with
  | named name nullable =>
      have hfields : Fields.Written limit
          (.cons (.required "name" Reader.string) (.cons (.required "nullable" Reader.bool) .nil))
          [("name", .str name), ("nullable", .bool nullable)] (name, nullable, ()) :=
        .cons (.string name) (by simp [Json.Field.required]) (.cons (.bool nullable) (by simp) .nil)
      exact .variant rfl (((Reads.record hfields).map _).mono (by omega))
  | other => exact .unit rfl

theorem TypeRef.exact_toJson (t : TypeRef) : t.toJson.Exact := by
  cases t with
  | named name nullable => exact Json.exact_tagged.mpr ⟨trivial, trivial, trivial⟩
  | other => trivial

theorem Literal.reads (l : Literal) : Reads Literal.reader limit l.toJson l := by
  cases l with
  | int n => exact .variant rfl ((Reads.int64 n).map _)
  | bool b => exact .variant rfl ((Reads.bool b).map _)

theorem Literal.exact_toJson (l : Literal) : l.toJson.Exact := by
  cases l with
  | int n => exact Json.exact_tagged.mpr (Json.exact_int64 n)
  | bool b => exact Json.exact_tagged.mpr trivial

theorem Literal.toJson_ne_null (l : Literal) : l.toJson ≠ .null := by
  cases l <;> simp [toJson, Json.tagged]

theorem Field.reads (f : Field) : Reads Field.reader limit f.toJson f := by
  have hfields : Fields.Written limit
      (.cons (.required "name" Reader.string) <| .cons (.required "ty" TypeRef.reader) <|
        .cons (.defaulting "initializer" (Reader.option Literal.reader) none) <|
        .cons (.required "owner" Reader.string) <|
        .cons (.defaulting "property" (Reader.option Reader.string) none) <|
        .cons Location.field .nil)
      [("name", .str f.name), ("ty", f.type.toJson),
        ("initializer", .option Literal.toJson f.initializer), ("owner", .str f.owner),
        ("property", .option .str f.property), ("location", f.location.toJson)]
      (f.name, f.type, f.initializer, f.owner, f.property, f.location, ()) :=
    .cons (.string f.name) (by simp [Json.Field.required]) <|
    .cons f.type.reads (by simp [Json.Field.required]) <|
    .cons (.option Literal.toJson_ne_null (fun l => l.reads) f.initializer)
      (by simp [Json.Field.defaulting]) <|
    .cons (.string f.owner) (by simp [Json.Field.required]) <|
    .cons (.option (by simp) (fun s => .string s) f.property) (by simp [Json.Field.defaulting]) <|
    .cons f.location.reads (by simp) .nil
  exact ((Reads.record hfields).map _).mono (by omega)

theorem Field.exact_toJson (f : Field) : f.toJson.Exact :=
  ⟨trivial, f.type.exact_toJson, Json.exact_option (fun l => l.exact_toJson) _, trivial,
    Json.exact_option (f := .str) (fun _ => trivial) _, f.location.exact_toJson, trivial⟩

theorem Binder.reads (b : Binder) : Reads Binder.reader limit b.toJson b := by
  have hfields : Fields.Written limit
      (.cons (.required "name" Reader.string) <| .cons (.required "ty" TypeRef.reader) <|
        .cons Location.field .nil)
      [("name", .str b.name), ("ty", b.type.toJson), ("location", b.location.toJson)]
      (b.name, b.type, b.location, ()) :=
    .cons (.string b.name) (by simp [Json.Field.required]) <|
    .cons b.type.reads (by simp [Json.Field.required]) <| .cons b.location.reads (by simp) .nil
  exact ((Reads.record hfields).map _).mono (by omega)

theorem Binder.exact_toJson (b : Binder) : b.toJson.Exact :=
  ⟨trivial, b.type.exact_toJson, b.location.exact_toJson, trivial⟩

theorem Variable.reads (v : Variable) : Reads Variable.reader limit v.toJson v := by
  cases v with
  | field f => exact .variant rfl (f.reads.map _)
  | parameter p => exact .variant rfl (p.reads.map _)
  | localVar l => exact .variant rfl (l.reads.map _)

theorem Variable.exact_toJson (v : Variable) : v.toJson.Exact := by
  cases v with
  | field f => exact Json.exact_tagged.mpr f.exact_toJson
  | parameter p => exact Json.exact_tagged.mpr p.exact_toJson
  | localVar l => exact Json.exact_tagged.mpr l.exact_toJson

-- Operators stand for themselves.

theorem Arith.reads (op : Arith) : Reads Arith.reader limit (.str op.symbol) op := by
  cases op <;> exact .unit rfl

theorem Logical.reads (op : Logical) : Reads Logical.reader limit (.str op.symbol) op := by
  cases op <;> exact .unit rfl

theorem Comparison.reads (op : Comparison) : Reads Comparison.reader limit (.str op.symbol) op := by
  rcases op with _ | _ | (_ | _ | _ | _) <;> exact .unit rfl

theorem Unary.reads (op : Unary) : Reads Unary.reader limit (.str op.symbol) op := by
  cases op <;> exact .unit rfl

namespace Expression

theorem reads_operation {α : Type} {self : Reader Expression} {op : Reader α} {symbol : String}
    {a : α} {l r : Expression} (make : α → Expression → Expression → Expression)
    (hop : Reads op limit (.str symbol) a) (hl : Reads self limit l.toJson l)
    (hr : Reads self limit r.toJson r) :
    Reads (operationReader self op make) limit (operationJson symbol l.toJson r.toJson)
      (make a l r) := by
  have hfields : Fields.Written limit
      (.cons (.required "op" op) <| .cons (.required "left" self) <|
        .cons (.required "right" self) .nil)
      [("op", .str symbol), ("left", l.toJson), ("right", r.toJson)] (a, l, r, ()) :=
    .cons hop (by simp [Json.Field.required]) <| .cons hl (by simp [Json.Field.required]) <|
    .cons hr (by simp) .nil
  exact ((Reads.record hfields).map _).mono (by omega)

theorem reads_unary {self : Reader Expression} {a : Expression} (op : Unary)
    (ha : Reads self limit a.toJson a) :
    Reads (Reader.map (fun (op, a, ()) => Expression.unary op a) <| Reader.record <|
        .cons (.required "op" Unary.reader) <| .cons (.required "operand" self) .nil) limit
      (.obj [("op", .str op.symbol), ("operand", a.toJson)]) (.unary op a) := by
  have hfields : Fields.Written limit
      (.cons (.required "op" Unary.reader) <| .cons (.required "operand" self) .nil)
      [("op", .str op.symbol), ("operand", a.toJson)] (op, a, ()) :=
    .cons op.reads (by simp [Json.Field.required]) <| .cons ha (by simp) .nil
  exact ((Reads.record hfields).map _).mono (by omega)

-- Each level of an expression opens a container, as with terms.
theorem reads_within (e : Expression) (limit : Nat) : Reads (readerWithin limit) limit e.toJson e := by
  cases limit with
  | zero =>
      intro depth hdepth
      omega
  | succ limit =>
      cases e with
      | literal l => exact .content rfl (l.reads.map _)
      | «variable» v => exact .content rfl (v.reads.map _)
      | arithmetic op l r =>
          exact .content rfl (reads_operation _ op.reads (reads_within l limit) (reads_within r limit))
      | logical op l r =>
          exact .content rfl (reads_operation _ op.reads (reads_within l limit) (reads_within r limit))
      | comparison op l r =>
          exact .content rfl (reads_operation _ op.reads (reads_within l limit) (reads_within r limit))
      | unary op a => exact .content rfl (reads_unary op (reads_within a limit))
      | parenthesized a => exact .content rfl ((reads_within a limit).map _)
      | result => exact .unit rfl
      | unsupported location => exact .content rfl (location.reads.map _)

theorem reads (e : Expression) : Reads Expression.reader limit e.toJson e := by
  intro depth _
  exact reads_within e (depth + 1) depth (by omega)

theorem exact_toJson (e : Expression) : e.toJson.Exact := by
  induction e with
  | literal l => exact Json.exact_tagged.mpr l.exact_toJson
  | «variable» v => exact Json.exact_tagged.mpr v.exact_toJson
  | arithmetic op l r hl hr => exact Json.exact_tagged.mpr ⟨trivial, hl, hr, trivial⟩
  | logical op l r hl hr => exact Json.exact_tagged.mpr ⟨trivial, hl, hr, trivial⟩
  | comparison op l r hl hr => exact Json.exact_tagged.mpr ⟨trivial, hl, hr, trivial⟩
  | unary op a ha => exact Json.exact_tagged.mpr ⟨trivial, ha, trivial⟩
  | parenthesized a ha => exact Json.exact_tagged.mpr ha
  | result => trivial
  | unsupported location => exact Json.exact_tagged.mpr location.exact_toJson

theorem toJson_ne_null (e : Expression) : e.toJson ≠ .null := by
  cases e <;> simp [toJson, Json.tagged]

end Expression

namespace Statement

theorem reads_assignment (destination : Variable) (expr : Expression) (location : Location) :
    Reads (Reader.map (fun (destination, expr, location, ()) =>
        Statement.assignment destination expr location) <| Reader.record <|
        .cons (.required "destination" Variable.reader) <|
        .cons (.required "expr" Expression.reader) <| .cons Location.field .nil) limit
      (.obj [("destination", destination.toJson), ("expr", expr.toJson),
        ("location", location.toJson)]) (.assignment destination expr location) := by
  have hfields : Fields.Written limit
      (.cons (.required "destination" Variable.reader) <|
        .cons (.required "expr" Expression.reader) <| .cons Location.field .nil)
      [("destination", destination.toJson), ("expr", expr.toJson), ("location", location.toJson)]
      (destination, expr, location, ()) :=
    .cons destination.reads (by simp [Json.Field.required]) <|
    .cons expr.reads (by simp [Json.Field.required]) <| .cons location.reads (by simp) .nil
  exact ((Reads.record hfields).map _).mono (by omega)

theorem reads_conditional {self : Reader Statement} {thenBlock elseBlock : List Statement}
    (condition : Expression) (location : Location)
    (hthen : List.Forall₂ (Reads self limit) (blockToJson thenBlock) thenBlock)
    (helse : List.Forall₂ (Reads self limit) (blockToJson elseBlock) elseBlock) :
    Reads (Reader.map (fun (condition, thenBlock, elseBlock, location, ()) =>
        Statement.conditional condition thenBlock elseBlock location) <| Reader.record <|
        .cons (.required "condition" Expression.reader) <|
        .cons (.required "then_block" (Reader.list self)) <|
        .cons (.defaulting "else_block" (Reader.list self) []) <| .cons Location.field .nil) limit
      (.obj [("condition", condition.toJson), ("then_block", .arr (blockToJson thenBlock)),
        ("else_block", .arr (blockToJson elseBlock)), ("location", location.toJson)])
      (.conditional condition thenBlock elseBlock location) := by
  have hfields : Fields.Written limit
      (.cons (.required "condition" Expression.reader) <|
        .cons (.required "then_block" (Reader.list self)) <|
        .cons (.defaulting "else_block" (Reader.list self) []) <| .cons Location.field .nil)
      [("condition", condition.toJson), ("then_block", .arr (blockToJson thenBlock)),
        ("else_block", .arr (blockToJson elseBlock)), ("location", location.toJson)]
      (condition, thenBlock, elseBlock, location, ()) :=
    .cons condition.reads (by simp [Json.Field.required]) <|
    .cons ((Reads.list hthen).mono (by omega)) (by simp [Json.Field.required]) <|
    .cons ((Reads.list helse).mono (by omega)) (by simp [Json.Field.defaulting]) <|
    .cons location.reads (by simp) .nil
  exact ((Reads.record hfields).map _).mono (by omega)

theorem reads_return (expr : Option Expression) (location : Location) :
    Reads (Reader.map (fun (expr, location, ()) => Statement.return expr location) <|
        Reader.record <|
        .cons (.defaulting "expr" (Reader.option Expression.reader) none) <|
        .cons Location.field .nil) limit
      (.obj [("expr", .option Expression.toJson expr), ("location", location.toJson)])
      (.return expr location) := by
  have hfields : Fields.Written limit
      (.cons (.defaulting "expr" (Reader.option Expression.reader) none) <|
        .cons Location.field .nil)
      [("expr", .option Expression.toJson expr), ("location", location.toJson)]
      (expr, location, ()) :=
    .cons (.option Expression.toJson_ne_null (fun e => e.reads) expr)
      (by simp [Json.Field.defaulting]) <| .cons location.reads (by simp) .nil
  exact ((Reads.record hfields).map _).mono (by omega)

mutual

theorem reads_within (s : Statement) (limit : Nat) : Reads (readerWithin limit) limit s.toJson s := by
  cases limit with
  | zero =>
      intro depth hdepth
      omega
  | succ limit =>
      cases s with
      | assignment destination expr location =>
          exact .content rfl (reads_assignment destination expr location)
      | conditional condition thenBlock elseBlock location =>
          exact .content rfl (reads_conditional condition location (reads_block thenBlock limit)
            (reads_block elseBlock limit))
      | «return» expr location => exact .content rfl (reads_return expr location)
      | unsupported location => exact .content rfl (location.reads.map _)

theorem reads_block (block : List Statement) (limit : Nat) :
    List.Forall₂ (Reads (readerWithin limit) limit) (blockToJson block) block := by
  cases block with
  | nil => exact .nil
  | cons s rest => exact .cons (reads_within s limit) (reads_block rest limit)

end

theorem reads (s : Statement) : Reads Statement.reader limit s.toJson s := by
  intro depth _
  exact reads_within s (depth + 1) depth (by omega)

mutual

theorem exact_toJson (s : Statement) : s.toJson.Exact := by
  cases s with
  | assignment destination expr location =>
      exact Json.exact_tagged.mpr
        ⟨destination.exact_toJson, expr.exact_toJson, location.exact_toJson, trivial⟩
  | conditional condition thenBlock elseBlock location =>
      exact Json.exact_tagged.mpr ⟨condition.exact_toJson, exact_blockToJson thenBlock,
        exact_blockToJson elseBlock, location.exact_toJson, trivial⟩
  | «return» expr location =>
      exact Json.exact_tagged.mpr
        ⟨Json.exact_option (fun e => e.exact_toJson) expr, location.exact_toJson, trivial⟩
  | unsupported location => exact Json.exact_tagged.mpr location.exact_toJson

theorem exact_blockToJson (block : List Statement) : Json.ItemsExact (blockToJson block) := by
  cases block with
  | nil => trivial
  | cons s rest => exact ⟨exact_toJson s, exact_blockToJson rest⟩

end

end Statement

theorem Clause.reads (c : Clause) : Reads Clause.reader limit c.toJson c := by
  cases c with
  | supported text expr location =>
      have hfields : Fields.Written limit
          (.cons (.required "text" Reader.string) <| .cons (.required "expr" Expression.reader) <|
            .cons Location.field .nil)
          [("text", .str text), ("expr", expr.toJson), ("location", location.toJson)]
          (text, expr, location, ()) :=
        .cons (.string text) (by simp [Json.Field.required]) <|
        .cons expr.reads (by simp [Json.Field.required]) <| .cons location.reads (by simp) .nil
      exact .variant rfl (((Reads.record hfields).map _).mono (by omega))
  | unsupported text location =>
      have hfields : Fields.Written limit
          (.cons (.required "text" Reader.string) <| .cons Location.field .nil)
          [("text", .str text), ("location", location.toJson)] (text, location, ()) :=
        .cons (.string text) (by simp [Json.Field.required]) <| .cons location.reads (by simp) .nil
      exact .variant rfl (((Reads.record hfields).map _).mono (by omega))

theorem Clause.exact_toJson (c : Clause) : c.toJson.Exact := by
  cases c with
  | supported text expr location =>
      exact Json.exact_tagged.mpr ⟨trivial, expr.exact_toJson, location.exact_toJson, trivial⟩
  | unsupported text location =>
      exact Json.exact_tagged.mpr ⟨trivial, location.exact_toJson, trivial⟩

theorem Clause.reads_list (clauses : List Clause) :
    Reads (Reader.list Clause.reader) limit (.list Clause.toJson clauses) clauses :=
  (Reads.listOf fun c _ => c.reads).mono (Nat.le_succ limit)

-- Declarations and tables

theorem UnsupportedDecl.reads (d : UnsupportedDecl) :
    Reads UnsupportedDecl.reader limit d.toJson d := by
  have hfields : Fields.Written limit
      (.cons (.required "name" Reader.string) <| .cons (.defaulting "reason" Reader.string "") <|
        .cons Location.field .nil)
      [("name", .str d.name), ("reason", .str d.reason), ("location", d.location.toJson)]
      (d.name, d.reason, d.location, ()) :=
    .cons (.string d.name) (by simp [Json.Field.required]) <|
    .cons (.string d.reason) (by simp [Json.Field.defaulting]) <|
    .cons d.location.reads (by simp) .nil
  exact ((Reads.record hfields).map _).mono (by omega)

section Decl

variable {α : Type} {f : α → Json} {reader : Reader α}

theorem Decl.reads {d : Decl α} (h : ∀ a, d = .supported a → Reads reader limit (f a) a) :
    Reads (Decl.reader reader) limit (d.toJson f) d := by
  cases d with
  | supported a => exact .variant rfl ((h a rfl).map _)
  | unsupported d => exact .variant rfl (d.reads.map _)

theorem Decl.exact_toJson (h : ∀ a, (f a).Exact) (d : Decl α) : (d.toJson f).Exact := by
  cases d with
  | supported a => exact Json.exact_tagged.mpr (h a)
  | unsupported d => exact Json.exact_tagged.mpr ⟨trivial, trivial, d.location.exact_toJson, trivial⟩

end Decl

namespace NameTable

variable {α : Type} {f : α → Json} {reader : Reader α} {depth : Nat} {t t' : NameTable α}

-- What can be inserted can be read.
theorem readEntries_of_insertAll [Named α] {js : List Json} {entries : List α}
    (h : List.Forall₂ (Reads reader limit) js entries) (hdepth : depth < limit)
    (hinsert : t.insertAll entries = .ok t') :
    t.readEntries reader depth (Json.itemTrees js) =
      Json.Reader.within depth (Json.itemsDepth js) t' := by
  induction h generalizing t with
  | nil =>
      cases hinsert
      rfl
  | @cons j entry js entries hentry hrest ih =>
      rw [Json.itemTrees, readEntries, hentry depth hdepth, Json.itemsDepth]
      apply Json.Reader.within_bind
      cases hfirst : t.insert entry with
      | error e =>
          simp only [insertAll, hfirst, bind, Except.bind] at hinsert
          cases hinsert
      | ok next =>
          simp only [insertAll, hfirst, bind, Except.bind] at hinsert
          exact ih hinsert

theorem reads [Named α] (hbuilt : t.Built) (hsealed : t.isSealed = true)
    (h : ∀ entry ∈ t.entries, Reads reader limit (f entry) entry) :
    Reads (NameTable.reader reader) limit (t.toJson f) t := by
  have hentries : List.Forall₂ (Reads reader limit) (t.entries.map f) t.entries :=
    List.forall₂_map_left_iff.mpr (List.forall₂_same.mpr h)
  intro depth hdepth
  change NameTable.reader reader depth (.array (Json.itemTrees (t.entries.map f)) .none) = _
  rw [NameTable.reader]
  apply Json.Reader.enter_within
  intro less hless
  rw [readEntries_of_insertAll hentries (by omega) hbuilt.insertAll_entries]
  apply (Json.Reader.within_bind (m := 0) (b := t) _).trans
  · rw [Nat.max_zero]
  · rw [Json.Reader.close, toSealed_opened hsealed]
    rfl

theorem exact_toJson (h : ∀ a, (f a).Exact) (t : NameTable α) : (t.toJson f).Exact :=
  Json.exact_list fun a _ => h a

end NameTable

theorem Binder.reads_table {t : NameTable (Decl Binder)} (hbuilt : t.Built)
    (hsealed : t.isSealed = true) :
    Reads (NameTable.reader (Decl.reader Binder.reader)) limit (t.toJson (Decl.toJson Binder.toJson))
      t :=
  NameTable.reads hbuilt hsealed fun _ _ => Decl.reads fun b _ => b.reads

theorem Access.reads (a : Access) : Reads Access.reader limit a.toJson a := by
  cases a <;> exact .unit rfl

namespace Method

variable {m : Method}

-- Both of its tables were built entry by entry.
structure Built (m : Method) : Prop where
  parameters : m.parameters.Built
  locals : m.locals.Built

theorem reads (hbuilt : m.Built) (hsealed : m.isSealed = true) : Reads Method.reader limit m.toJson m := by
  obtain ⟨hparameters, hlocals⟩ : m.parameters.isSealed = true ∧ m.locals.isSealed = true := by
    simpa [isSealed] using hsealed
  have hbody : Reads (Reader.list Statement.reader) limit (.list Statement.toJson m.body) m.body :=
    (Reads.listOf fun s _ => s.reads).mono (Nat.le_succ limit)
  have hfields : Fields.Written limit
      (.cons (.required "name" Reader.string) <|
        .cons (.defaulting "access" Access.reader .priv) <|
        .cons (.required "return_type" TypeRef.reader) <|
        .cons (Binder.tableField "parameters") <| .cons (Binder.tableField "locals") <|
        .cons (Clause.listField "requires") <|
        .cons (.defaulting "body" (Reader.list Statement.reader) []) <|
        .cons (Clause.listField "ensures") <| .cons Location.field .nil)
      [("name", .str m.name), ("access", m.access.toJson), ("return_type", m.returnType.toJson),
        ("parameters", m.parameters.toJson (Decl.toJson Binder.toJson)),
        ("locals", m.locals.toJson (Decl.toJson Binder.toJson)),
        ("requires", .list Clause.toJson m.requires), ("body", .list Statement.toJson m.body),
        ("ensures", .list Clause.toJson m.ensures), ("location", m.location.toJson)]
      (m.name, m.access, m.returnType, m.parameters, m.locals, m.requires, m.body, m.ensures,
        m.location, ()) :=
    .cons (.string m.name) (by simp [Json.Field.required]) <|
    .cons m.access.reads (by simp [Json.Field.defaulting]) <|
    .cons m.returnType.reads (by simp [Json.Field.required]) <|
    .cons (Binder.reads_table hbuilt.parameters hparameters)
      (by simp [Binder.tableField, Json.Field.defaulting]) <|
    .cons (Binder.reads_table hbuilt.locals hlocals)
      (by simp [Binder.tableField, Json.Field.defaulting]) <|
    .cons (Clause.reads_list m.requires) (by simp [Clause.listField, Json.Field.defaulting]) <|
    .cons hbody (by simp [Json.Field.defaulting]) <|
    .cons (Clause.reads_list m.ensures) (by simp [Clause.listField, Json.Field.defaulting]) <|
    .cons m.location.reads (by simp) .nil
  exact ((Reads.record hfields).map _).mono (by omega)

theorem exact_toJson (m : Method) : m.toJson.Exact := by
  have haccess : m.access.toJson.Exact := by cases m.access <;> trivial
  exact ⟨trivial, haccess, m.returnType.exact_toJson,
    NameTable.exact_toJson (Decl.exact_toJson fun b => b.exact_toJson) _,
    NameTable.exact_toJson (Decl.exact_toJson fun b => b.exact_toJson) _,
    Json.exact_list fun c _ => c.exact_toJson, Json.exact_list fun s _ => s.exact_toJson,
    Json.exact_list fun c _ => c.exact_toJson, m.location.exact_toJson, trivial⟩

end Method

namespace ClassModel

variable {c : ClassModel}

-- All of its tables were built entry by entry.
structure Built (c : ClassModel) : Prop where
  fields : c.fields.Built
  methods : c.methods.Built
  method : ∀ m ∈ c.supportedMethods, m.Built

theorem reads (hbuilt : c.Built) (hsealed : c.isSealed = true) :
    Reads ClassModel.reader limit c.toJson c := by
  obtain ⟨⟨hfields, hmethods⟩, hmethod⟩ : (c.fields.isSealed = true ∧ c.methods.isSealed = true) ∧
      ∀ m ∈ c.supportedMethods, m.isSealed = true := by
    simpa [isSealed] using hsealed
  have hfieldTable : Reads (NameTable.reader (Decl.reader Field.reader)) limit
      (c.fields.toJson (Decl.toJson Field.toJson)) c.fields :=
    NameTable.reads hbuilt.fields hfields fun _ _ => Decl.reads fun f _ => f.reads
  have hmethodTable : Reads (NameTable.reader (Decl.reader Method.reader)) limit
      (c.methods.toJson (Decl.toJson Method.toJson)) c.methods := by
    refine NameTable.reads hbuilt.methods hmethods fun d hd => Decl.reads fun m hm => ?_
    have hmem : m ∈ c.supportedMethods := List.mem_filterMap.mpr ⟨d, hd, by rw [hm]; rfl⟩
    exact Method.reads (hbuilt.method m hmem) (hmethod m hmem)
  have hwritten : Fields.Written limit
      (.cons (.required "name" Reader.string) <|
        .cons (.defaulting "fields" (NameTable.reader (Decl.reader Field.reader)) .sealedEmpty) <|
        .cons (.defaulting "methods" (NameTable.reader (Decl.reader Method.reader)) .sealedEmpty) <|
        .cons (Clause.listField "invariants") <| .cons Location.field .nil)
      [("name", .str c.name), ("fields", c.fields.toJson (Decl.toJson Field.toJson)),
        ("methods", c.methods.toJson (Decl.toJson Method.toJson)),
        ("invariants", .list Clause.toJson c.invariants), ("location", c.location.toJson)]
      (c.name, c.fields, c.methods, c.invariants, c.location, ()) :=
    .cons (.string c.name) (by simp [Json.Field.required]) <|
    .cons hfieldTable (by simp [Json.Field.defaulting]) <|
    .cons hmethodTable (by simp [Json.Field.defaulting]) <|
    .cons (Clause.reads_list c.invariants) (by simp [Clause.listField, Json.Field.defaulting]) <|
    .cons c.location.reads (by simp) .nil
  exact ((Reads.record hwritten).map _).mono (by omega)

theorem exact_toJson (c : ClassModel) : c.toJson.Exact :=
  ⟨trivial, NameTable.exact_toJson (Decl.exact_toJson fun f => f.exact_toJson) _,
    NameTable.exact_toJson (Decl.exact_toJson fun m => m.exact_toJson) _,
    Json.exact_list fun c _ => c.exact_toJson, c.location.exact_toJson, trivial⟩

end ClassModel

end Covenant
