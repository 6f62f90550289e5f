import Covenant.Encoding.Expression
import Covenant.Proofs.Alias.Table
import Covenant.Proofs.Alias.Text
import Covenant.Proofs.Data.Except
import Covenant.Proofs.Execution.Basic

namespace Covenant

theorem expectSort_eq_ok {op : String} {sort : TermSort} {t : Term} {u : Unit} :
    expectSort op sort t = .ok u ↔ t.sort = sort := by
  simp only [expectSort]
  split <;> simp_all

def Literal.term : Literal → Term
  | .int n => .int n
  | .bool b => .bool b

namespace Signature

-- The symbol that stands for an alias.
def symbolOf (s : Signature) (a : AliasName) : Symbol := ⟨a.text, (s.sorts.get? a.base).getD .int⟩

-- The symbol that stands for a name at the generation that is current in the table.
def latest (s : Signature) (table : AliasTable) (name : String) : Symbol :=
  s.symbolOf ⟨name, table.generation name⟩

-- A name that can be read and written: it has a generation and a sort.
def Registered (s : Signature) (table : AliasTable) (name : String) : Prop :=
  (∃ generation, table.current.get? name = some generation) ∧ ∃ sort, s.sorts.get? name = some sort

theorem symbolOf_injective {s : Signature} {a b : AliasName} (h : s.symbolOf a = s.symbolOf b) :
    a = b := AliasName.text_injective (congrArg Symbol.name h)

theorem sort_symbolOf {s : Signature} {a : AliasName} {sort : TermSort}
    (h : s.sorts.get? a.base = some sort) : (s.symbolOf a).sort = sort := by
  simp [symbolOf, h]

theorem symbol_eq_ok {s : Signature} {a : AliasName} {t : Term} : s.symbol a = .ok t ↔
    (∃ sort, s.sorts.get? a.base = some sort) ∧ t = .var (s.symbolOf a) := by
  simp only [symbol, sort, symbolOf]
  cases s.sorts.get? a.base <;> simp [bind, Except.bind, pure, Except.pure, eq_comm]

theorem current_eq_ok {s : Signature} {table : AliasTable} {name : String} {t : Term} :
    s.current table name = .ok t ↔ s.Registered table name ∧ t = .var (s.latest table name) := by
  simp only [current, AliasTable.get, Registered, latest, AliasTable.generation]
  cases table.current.get? name <;> simp [symbol_eq_ok]

-- How a term says what an expression says: operators take operands of their sort, and names stand
-- at their current generations.
inductive Encodes (s : Signature) (table : AliasTable) : Expression → Term → Prop
  | literal (l : Literal) : Encodes s table (.literal l) l.term
  | reads (v : Variable) (h : s.Registered table v.logicalName) :
      Encodes s table (.variable v) (.var (s.latest table v.logicalName))
  | arithmetic (op : Arith) {l r : Expression} {a b : Term} (hl : Encodes s table l a)
      (hr : Encodes s table r b) (ha : a.sort = .int) (hb : b.sort = .int) :
      Encodes s table (.arithmetic op l r) (.arith op a b)
  | logical (op : Logical) {l r : Expression} {a b : Term} (hl : Encodes s table l a)
      (hr : Encodes s table r b) (ha : a.sort = .bool) (hb : b.sort = .bool) :
      Encodes s table (.logical op l r) (op.build a b)
  | comparison (op : Comparison) {l r : Expression} {a b : Term} (hl : Encodes s table l a)
      (hr : Encodes s table r b) (ha : a.sort = op.operandSort a) (hb : b.sort = op.operandSort a) :
      Encodes s table (.comparison op l r) (op.build a b)
  | not {e : Expression} {a : Term} (h : Encodes s table e a) (ha : a.sort = .bool) :
      Encodes s table (.unary .not e) (.not a)
  | negate {e : Expression} {a : Term} (h : Encodes s table e a) (ha : a.sort = .int) :
      Encodes s table (.unary .negate e) (.neg a)
  | parenthesized {e : Expression} {a : Term} (h : Encodes s table e a) :
      Encodes s table (.parenthesized e) a
  | result (hresult : s.hasResult = true) (h : s.Registered table resultName) :
      Encodes s table .result (.var (s.latest table resultName))

theorem binary_eq_ok {symbol : String} {sort : TermSort} {build : Term → Term → Term}
    {left right t : Term} : binary symbol sort build left right = .ok t ↔
      left.sort = sort ∧ right.sort = sort ∧ t = build left right := by
  simp only [binary, bind_eq_ok, expectSort_eq_ok, exists_and_left, exists_const]
  simp [pure, Except.pure, eq_comm]

theorem encodes_of_expression {s : Signature} {table : AliasTable} {t : Term} (e : Expression)
    (h : s.expression table e = .ok t) : s.Encodes table e t := by
  match e with
  | .literal (.int n) | .literal (.bool b) =>
      cases h
      exact .literal _
  | .variable v =>
      obtain ⟨hreg, rfl⟩ := current_eq_ok.mp h
      exact .reads v hreg
  | .arithmetic op l r =>
      simp only [expression, bind_eq_ok, binary_eq_ok] at h
      obtain ⟨a, hl, b, hr, ha, hb, rfl⟩ := h
      exact .arithmetic op (encodes_of_expression l hl) (encodes_of_expression r hr) ha hb
  | .logical op l r =>
      simp only [expression, bind_eq_ok, binary_eq_ok] at h
      obtain ⟨a, hl, b, hr, ha, hb, rfl⟩ := h
      exact .logical op (encodes_of_expression l hl) (encodes_of_expression r hr) ha hb
  | .comparison op l r =>
      simp only [expression, bind_eq_ok, binary_eq_ok] at h
      obtain ⟨a, hl, b, hr, ha, hb, rfl⟩ := h
      exact .comparison op (encodes_of_expression l hl) (encodes_of_expression r hr) ha hb
  | .unary .not a =>
      simp only [expression, bind_eq_ok, expectSort_eq_ok] at h
      obtain ⟨inner, ha, u, hsort, ht⟩ := h
      cases ht
      exact .not (encodes_of_expression a ha) hsort
  | .unary .negate a =>
      simp only [expression, bind_eq_ok, expectSort_eq_ok] at h
      obtain ⟨inner, ha, u, hsort, ht⟩ := h
      cases ht
      exact .negate (encodes_of_expression a ha) hsort
  | .parenthesized a => exact .parenthesized (encodes_of_expression a h)
  | .result =>
      simp only [expression] at h
      split at h
      · rename_i hresult
        obtain ⟨hreg, rfl⟩ := current_eq_ok.mp h
        exact .result hresult hreg
      · cases h
  | .unsupported location => cases h

theorem encodes_of_condition {s : Signature} {table : AliasTable} {e : Expression} {t : Term}
    (h : s.condition table e = .ok t) : s.Encodes table e t ∧ t.sort = .bool := by
  simp only [condition, bind_eq_ok, expectSort_eq_ok] at h
  obtain ⟨a, ha, u, hsort, ht⟩ := h
  cases ht
  exact ⟨encodes_of_expression e ha, hsort⟩

namespace Encodes

variable {s : Signature} {table : AliasTable} {e : Expression} {t : Term}

theorem wellSorted (h : s.Encodes table e t) : t.WellSorted := by
  induction h with
  | literal l => cases l <;> trivial
  | reads v h => trivial
  | arithmetic op hl hr ha hb ihl ihr => exact ⟨ihl, ihr, ha, hb⟩
  | logical op hl hr ha hb ihl ihr => cases op <;> exact ⟨ihl, ha, ihr, hb, trivial⟩
  | comparison op hl hr ha hb ihl ihr =>
      cases op with
      | equal => exact ⟨ihl, ihr, hb.symm⟩
      | unequal => exact ⟨⟨ihl, ihr, hb.symm⟩, rfl⟩
      | order op => exact ⟨ihl, ihr, ha, hb⟩
  | not h ha ih => exact ⟨ih, ha⟩
  | negate h ha ih => exact ⟨ih, ha⟩
  | parenthesized h ih => exact ih
  | result hresult h => trivial

-- All symbols of the term are current ones of registered names.
theorem symbols (h : s.Encodes table e t) :
    ∀ x ∈ t.symbols, ∃ name, s.Registered table name ∧ x = s.latest table name := by
  induction h with
  | literal l => cases l <;> simp [Literal.term, Term.symbols]
  | reads v h =>
      intro x hx
      exact ⟨v.logicalName, h, List.mem_singleton.mp hx⟩
  | arithmetic op hl hr ha hb ihl ihr =>
      simp only [Term.symbols, List.forall_mem_append]
      exact ⟨ihl, ihr⟩
  | logical op hl hr ha hb ihl ihr =>
      cases op <;> simp only [Logical.build, Term.symbols, Term.partsSymbols, List.forall_mem_append]
      · exact ⟨ihl, ihr, by simp⟩
      · exact ⟨ihl, ihr, by simp⟩
  | comparison op hl hr ha hb ihl ihr =>
      cases op <;> simp only [Comparison.build, Term.symbols, List.forall_mem_append]
      · exact ⟨ihl, ihr⟩
      · exact ⟨ihl, ihr⟩
      · exact ⟨ihl, ihr⟩
  | not h ha ih => exact ih
  | negate h ha ih => exact ih
  | parenthesized h ih => exact ih
  | result hresult h =>
      intro x hx
      exact ⟨resultName, h, List.mem_singleton.mp hx⟩

end Encodes

end Signature

-- The current symbols of the names, and that of the result, have the values of the state.
structure Represents (names : List String) (s : Signature) (table : AliasTable) (ν : Valuation)
    (st : State) : Prop where
  vars : ∀ name ∈ names, ν.get (s.latest table name) = st.vars name
  result : s.hasResult = true → st.result = some (ν.get (s.latest table resultName))

-- The term of an expression has the value of the expression. Sorts are checked where a term is
-- made, so the expression does have a value.
theorem Signature.Encodes.eval_eq {s : Signature} {table : AliasTable} {e : Expression} {t : Term}
    {names : List String} {ν : Valuation} {st : State} (h : s.Encodes table e t)
    (hst : Represents names s table ν st) (hvars : ∀ v ∈ e.mentioned, v.logicalName ∈ names)
    (zero : ZeroDivision) : e.eval zero st = some (t.value zero ν) := by
  induction h with
  | literal l => cases l <;> rfl
  | reads v h =>
      have hv := hst.vars v.logicalName (hvars v (by simp [Expression.mentioned]))
      simp only [Expression.eval, Term.value, hv]
  | @arithmetic op l r a b hl hr ha hb ihl ihr =>
      simp only [Expression.mentioned, List.forall_mem_append] at hvars
      have hsl := (Term.sort_value zero ν a hl.wellSorted).trans ha
      have hsr := (Term.sort_value zero ν b hr.wellSorted).trans hb
      simp [Expression.eval, Term.value, ihl hvars.1, ihr hvars.2, Exact.asInt_of_sort, hsl, hsr]
  | @logical op l r a b hl hr ha hb ihl ihr =>
      simp only [Expression.mentioned, List.forall_mem_append] at hvars
      have hsl := (Term.sort_value zero ν a hl.wellSorted).trans ha
      have hsr := (Term.sort_value zero ν b hr.wellSorted).trans hb
      cases op <;> simp [Expression.eval, Logical.build, Logical.holds, Term.value, Term.partsValue,
        ihl hvars.1, ihr hvars.2, Exact.asBool_of_sort, hsl, hsr]
  | @comparison op l r a b hl hr ha hb ihl ihr =>
      simp only [Expression.mentioned, List.forall_mem_append] at hvars
      have hsl := (Term.sort_value zero ν a hl.wellSorted).trans ha
      have hsr := (Term.sort_value zero ν b hr.wellSorted).trans hb
      cases op with
      | equal =>
          simp [Expression.eval, Comparison.build, Comparison.holds?, Term.value, ihl hvars.1,
            ihr hvars.2, hsl, hsr]
      | unequal =>
          simp [Expression.eval, Comparison.build, Comparison.holds?, Term.value, Exact.toBool,
            ihl hvars.1, ihr hvars.2, hsl, hsr]
      | order op =>
          simp only [Comparison.operandSort] at hsl hsr
          simp [Expression.eval, Comparison.build, Comparison.holds?, Term.value, ihl hvars.1,
            ihr hvars.2, Exact.asInt_of_sort, hsl, hsr]
  | @not e a h ha ih =>
      have hsort := (Term.sort_value zero ν a h.wellSorted).trans ha
      simp [Expression.eval, Term.value, Unary.apply, ih hvars, Exact.asBool_of_sort hsort]
  | @negate e a h ha ih =>
      have hsort := (Term.sort_value zero ν a h.wellSorted).trans ha
      simp [Expression.eval, Term.value, Unary.apply, ih hvars, Exact.asInt_of_sort hsort]
  | parenthesized h ih => exact ih hvars
  | result hresult h => exact hst.result hresult

end Covenant
