import Covenant.Model.Class
import Mathlib.Logic.Basic

namespace Covenant

namespace Expression

def operands : Expression → List Expression
  | .arithmetic _ l r | .logical _ l r | .comparison _ l r => [l, r]
  | .unary _ a | .parenthesized a => [a]
  | .literal _ | .variable _ | .result | .unsupported _ => []

-- An expression occurs in itself, and wherever it occurs in an operand.
inductive Occurs (x : Expression) : Expression → Prop
  | self : Occurs x x
  | operand {e a : Expression} (ha : a ∈ e.operands) (h : Occurs x a) : Occurs x e

-- A part of the expression is not supported.
def HasUnsupported (e : Expression) : Prop := ∃ location, Occurs (.unsupported location) e

theorem hasUnsupported_iff {e : Expression} : e.HasUnsupported ↔
    (∃ location, e = .unsupported location) ∨ ∃ a ∈ e.operands, a.HasUnsupported := by
  constructor
  · rintro ⟨location, h⟩
    cases h with
    | self => exact .inl ⟨location, rfl⟩
    | operand ha h => exact .inr ⟨_, ha, location, h⟩
  · rintro (⟨location, rfl⟩ | ⟨a, ha, location, h⟩)
    · exact ⟨location, .self⟩
    · exact ⟨location, .operand ha h⟩

theorem HasUnsupported.of_operand {e a : Expression} (ha : a ∈ e.operands)
    (h : a.HasUnsupported) : e.HasUnsupported := hasUnsupported_iff.mpr (.inr ⟨a, ha, h⟩)

theorem isSome_firstUnsupported (e : Expression) :
    e.firstUnsupported.isSome = true ↔ e.HasUnsupported := by
  induction e with
  | literal l =>
      rw [hasUnsupported_iff]
      simp [firstUnsupported, operands]
  | «variable» v =>
      rw [hasUnsupported_iff]
      simp [firstUnsupported, operands]
  | arithmetic op l r ihl ihr | logical op l r ihl ihr | comparison op l r ihl ihr =>
      rw [hasUnsupported_iff]
      simp [firstUnsupported, operands, ihl, ihr]
  | unary op a ih | parenthesized a ih =>
      rw [hasUnsupported_iff]
      simp [firstUnsupported, operands, ih]
  | result =>
      rw [hasUnsupported_iff]
      simp [firstUnsupported, operands]
  | unsupported location =>
      rw [hasUnsupported_iff]
      simp [firstUnsupported]

end Expression

namespace Statement

-- The statements of both branches.
def branches : Statement → List Statement
  | .conditional _ thenBlock elseBlock _ => thenBlock ++ elseBlock
  | .assignment _ _ _ | .return _ _ | .unsupported _ => []

-- The expressions that a statement itself evaluates.
def expressions : Statement → List Expression
  | .assignment _ e _ => [e]
  | .conditional c _ _ _ => [c]
  | .return e _ => e.toList
  | .unsupported _ => []

-- A statement occurs in itself, and wherever it occurs in a branch.
inductive Occurs (x : Statement) : Statement → Prop
  | self : Occurs x x
  | branch {s a : Statement} (ha : a ∈ s.branches) (h : Occurs x a) : Occurs x s

-- A statement in it is not supported, or an expression of such a statement has a part that is not.
def HasUnsupported (s : Statement) : Prop :=
  ∃ x, Occurs x s ∧ ((∃ location, x = .unsupported location) ∨
    ∃ e ∈ x.expressions, e.HasUnsupported)

theorem hasUnsupported_iff {s : Statement} : s.HasUnsupported ↔
    (∃ location, s = .unsupported location) ∨ (∃ e ∈ s.expressions, e.HasUnsupported) ∨
      ∃ a ∈ s.branches, a.HasUnsupported := by
  constructor
  · rintro ⟨x, h, hx⟩
    cases h with
    | self => exact hx.imp_right .inl
    | branch ha h => exact .inr (.inr ⟨_, ha, x, h, hx⟩)
  · rintro (h | h | ⟨a, ha, x, h, hx⟩)
    · exact ⟨s, .self, .inl h⟩
    · exact ⟨s, .self, .inr h⟩
    · exact ⟨x, .branch ha h, hx⟩

theorem HasUnsupported.of_expression {s : Statement} {e : Expression} (he : e ∈ s.expressions)
    (h : e.HasUnsupported) : s.HasUnsupported := hasUnsupported_iff.mpr (.inr (.inl ⟨e, he, h⟩))

theorem HasUnsupported.of_branch {s a : Statement} (ha : a ∈ s.branches) (h : a.HasUnsupported) :
    s.HasUnsupported := hasUnsupported_iff.mpr (.inr (.inr ⟨a, ha, h⟩))

mutual

theorem isSome_firstUnsupported (s : Statement) :
    s.firstUnsupported.isSome = true ↔ s.HasUnsupported := by
  match s with
  | .assignment destination e location =>
      rw [hasUnsupported_iff]
      simp [firstUnsupported, expressions, branches, Expression.isSome_firstUnsupported]
  | .conditional c thenBlock elseBlock location =>
      rw [hasUnsupported_iff]
      simp only [firstUnsupported, Option.isSome_or, Bool.or_eq_true,
        Expression.isSome_firstUnsupported, isSome_firstInBlock thenBlock,
        isSome_firstInBlock elseBlock, expressions, branches, List.mem_append, or_and_right,
        exists_or]
      simp [or_assoc]
  | .return e location =>
      rw [hasUnsupported_iff]
      cases e <;> simp [firstUnsupported, expressions, branches, Expression.isSome_firstUnsupported]
  | .unsupported location =>
      rw [hasUnsupported_iff]
      simp [firstUnsupported]

theorem isSome_firstInBlock (stmts : List Statement) :
    (firstInBlock stmts).isSome = true ↔ ∃ s ∈ stmts, s.HasUnsupported := by
  match stmts with
  | [] => simp [firstInBlock]
  | s :: rest =>
      simp only [firstInBlock, Option.isSome_or, Bool.or_eq_true, isSome_firstUnsupported s,
        isSome_firstInBlock rest, List.mem_cons, exists_eq_or_imp]

end

end Statement

def Clause.HasUnsupported : Clause → Prop
  | .supported _ e _ => e.HasUnsupported
  | .unsupported _ _ => True

-- A declaration that is not supported, or of a type without a sort. What is declared is read and
-- written by name, so no other types count.
def Decl.Unverifiable (type : α → TypeRef) : Decl α → Prop
  | .supported a => (type a).isVerifiable = false
  | .unsupported _ => True

theorem Decl.mem_filterMap_supported? {ds : List (Decl α)} {a : α} :
    a ∈ ds.filterMap Decl.supported? ↔ .supported a ∈ ds := by
  rw [List.mem_filterMap]
  constructor
  · rintro ⟨_ | u, hd, h⟩
    · cases h
      exact hd
    · cases h
  · exact fun ha => ⟨_, ha, rfl⟩

inductive Method.HasUnsupported (m : Method) : Prop
  | returnType (hvoid : m.returnType.isVoid = false) (h : m.returnType.isVerifiable = false)
  | binder (d : Decl Binder) (hd : d ∈ m.parameters.entries ++ m.locals.entries)
      (h : d.Unverifiable Binder.type)
  | clause (r : Clause) (hr : r ∈ m.requires ++ m.ensures) (h : r.HasUnsupported)
  | statement (s : Statement) (hs : s ∈ m.body) (h : s.HasUnsupported)

-- Something anywhere in the class is not supported.
inductive ClassModel.HasUnsupported (c : ClassModel) : Prop
  | field (d : Decl Field) (hd : d ∈ c.fields.entries) (h : d.Unverifiable Field.type)
  | declaration (d : UnsupportedDecl) (hd : .unsupported d ∈ c.methods.entries)
  | method (m : Method) (hm : .supported m ∈ c.methods.entries) (h : m.HasUnsupported)
  | invariant (r : Clause) (hr : r ∈ c.invariants) (h : r.HasUnsupported)

-- A table of the class, or of one of its methods, is still open.
inductive ClassModel.HasUnsealed (c : ClassModel) : Prop
  | fields (h : c.fields.isSealed = false)
  | methods (h : c.methods.isSealed = false)
  | parameters (m : Method) (hm : .supported m ∈ c.methods.entries)
      (h : m.parameters.isSealed = false)
  | locals (m : Method) (hm : .supported m ∈ c.methods.entries) (h : m.locals.isSealed = false)

theorem Clause.isSome_firstUnsupported (r : Clause) :
    r.firstUnsupported.isSome = true ↔ r.HasUnsupported := by
  cases r with
  | supported text e location => exact e.isSome_firstUnsupported
  | unsupported text location => simp [firstUnsupported, HasUnsupported]

theorem Binder.isSome_firstUnsupported (d : Decl Binder) :
    (firstUnsupported d).isSome = true ↔ d.Unverifiable Binder.type := by
  cases d <;> simp [firstUnsupported, Decl.Unverifiable]

theorem Field.isSome_firstUnsupported (d : Decl Field) :
    (firstUnsupported d).isSome = true ↔ d.Unverifiable Field.type := by
  cases d <;> simp [firstUnsupported, Decl.Unverifiable]

theorem Method.isSome_firstUnsupported (m : Method) :
    m.firstUnsupported.isSome = true ↔ m.HasUnsupported := by
  have hreturn : m.returnSupported = false ↔
      m.returnType.isVoid = false ∧ m.returnType.isVerifiable = false := by
    simp [returnSupported]
  cases hsupported : m.returnSupported with
  | false =>
      obtain ⟨hvoid, h⟩ := hreturn.mp hsupported
      simp [firstUnsupported, hsupported, HasUnsupported.returnType hvoid h]
  | true =>
      simp only [firstUnsupported, hsupported, if_true, Option.isSome_or, Bool.or_eq_true,
        List.findSome?_isSome_iff, Binder.isSome_firstUnsupported, Clause.isSome_firstUnsupported,
        Statement.isSome_firstInBlock]
      constructor
      · rintro (⟨d, hd, h⟩ | ⟨d, hd, h⟩ | ⟨r, hr, h⟩ | ⟨s, hs, h⟩ | ⟨r, hr, h⟩)
        · exact .binder d (List.mem_append_left _ hd) h
        · exact .binder d (List.mem_append_right _ hd) h
        · exact .clause r (List.mem_append_left _ hr) h
        · exact .statement s hs h
        · exact .clause r (List.mem_append_right _ hr) h
      · intro h
        cases h with
        | returnType hvoid h => simp [hreturn.mpr ⟨hvoid, h⟩] at hsupported
        | binder d hd h =>
            rcases List.mem_append.mp hd with hd | hd
            · exact .inl ⟨d, hd, h⟩
            · exact .inr (.inl ⟨d, hd, h⟩)
        | clause r hr h =>
            rcases List.mem_append.mp hr with hr | hr
            · exact .inr (.inr (.inl ⟨r, hr, h⟩))
            · exact .inr (.inr (.inr (.inr ⟨r, hr, h⟩)))
        | statement s hs h => exact .inr (.inr (.inr (.inl ⟨s, hs, h⟩)))

namespace ClassModel

theorem isSome_methodUnsupported (d : Decl Method) : (methodUnsupported d).isSome = true ↔
    (∃ u, d = .unsupported u) ∨ ∃ m, d = .supported m ∧ m.HasUnsupported := by
  cases d <;> simp [methodUnsupported, Method.isSome_firstUnsupported]

-- The gate looks everywhere.
theorem isSome_firstUnsupported (c : ClassModel) :
    c.firstUnsupported.isSome = true ↔ c.HasUnsupported := by
  simp only [firstUnsupported, Option.isSome_or, Bool.or_eq_true, List.findSome?_isSome_iff,
    Field.isSome_firstUnsupported, Clause.isSome_firstUnsupported, isSome_methodUnsupported]
  constructor
  · rintro (⟨d, hd, h⟩ | ⟨-, hd, ⟨u, rfl⟩ | ⟨m, rfl, h⟩⟩ | ⟨r, hr, h⟩)
    · exact .field d hd h
    · exact .declaration u hd
    · exact .method m hd h
    · exact .invariant r hr h
  · intro h
    cases h with
    | field d hd h => exact .inl ⟨d, hd, h⟩
    | declaration u hu => exact .inr (.inl ⟨_, hu, .inl ⟨u, rfl⟩⟩)
    | method m hm h => exact .inr (.inl ⟨_, hm, .inr ⟨m, rfl, h⟩⟩)
    | invariant r hr h => exact .inr (.inr ⟨r, hr, h⟩)

theorem mem_supportedMethods {c : ClassModel} {m : Method} :
    m ∈ c.supportedMethods ↔ .supported m ∈ c.methods.entries := Decl.mem_filterMap_supported?

theorem isSealed_eq_false (c : ClassModel) : c.isSealed = false ↔ c.HasUnsealed := by
  simp only [isSealed, Method.isSealed, Bool.and_eq_false_iff, List.all_eq_false,
    mem_supportedMethods, Bool.not_eq_true]
  constructor
  · rintro ((h | h) | ⟨m, hm, h | h⟩)
    · exact .fields h
    · exact .methods h
    · exact .parameters m hm h
    · exact .locals m hm h
  · intro h
    cases h with
    | fields h => exact .inl (.inl h)
    | methods h => exact .inl (.inr h)
    | parameters m hm h => exact .inr ⟨m, hm, .inl h⟩
    | locals m hm h => exact .inr ⟨m, hm, .inr h⟩

end ClassModel

end Covenant
