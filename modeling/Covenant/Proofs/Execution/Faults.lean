import Covenant.Proofs.Encoding.Expression
import Covenant.Proofs.Search.Window

namespace Covenant

-- The integers of 64 bits.
def Representable (n : Int) : Prop := -2 ^ 63 ≤ n ∧ n < 2 ^ 63

instance (n : Int) : Decidable (Representable n) := inferInstanceAs (Decidable (_ ∧ _))

-- The result has more than 64 bits, or the divisor is zero.
def Arith.Faults : Arith → Int → Int → Prop
  | .add, m, n => ¬Representable (m + n)
  | .sub, m, n => ¬Representable (m - n)
  | .mul, m, n => ¬Representable (m * n)
  | .div, m, n => n = 0 ∨ ¬Representable (m / n)

instance : (op : Arith) → (m n : Int) → Decidable (op.Faults m n)
  | .add, m, n => inferInstanceAs (Decidable (¬Representable (m + n)))
  | .sub, m, n => inferInstanceAs (Decidable (¬Representable (m - n)))
  | .mul, m, n => inferInstanceAs (Decidable (¬Representable (m * n)))
  | .div, m, n => inferInstanceAs (Decidable (n = 0 ∨ ¬Representable (m / n)))

theorem fit_eq_none {n : Int} : fit n = none ↔ ¬Representable n := by
  rw [Representable, ← Search.fits_iff]
  cases fit n <;> simp

theorem Arith.apply?_eq_none {op : Arith} {a b : Int64} :
    op.apply? a b = none ↔ op.Faults a.toInt b.toInt := by
  cases op with
  | add | sub | mul => exact fit_eq_none
  | div =>
      simp only [ Arith.apply?, Arith.Faults]
      split
      · next hzero => simp [hzero]
      · next hzero => simp [hzero, fit_eq_none]

namespace Expression

-- An operation in the expression, wherever it stands, has operands on which it faults. Both sides
-- of a logical operator are looked at.
def Faults (zero : ZeroDivision) (st : State) : Expression → Prop
  | .literal _ | .variable _ | .result | .unsupported _ => False
  | .arithmetic op l r => l.Faults zero st ∨ r.Faults zero st ∨
      ∃ a ∈ l.eval zero st, ∃ b ∈ r.eval zero st, op.Faults a.toInt b.toInt
  | .logical _ l r | .comparison _ l r => l.Faults zero st ∨ r.Faults zero st
  | .unary .not a | .parenthesized a => a.Faults zero st
  | .unary .negate a => a.Faults zero st ∨ ∃ v ∈ a.eval zero st, ¬Representable (-v.toInt)

instance decidableFaults (zero : ZeroDivision) (st : State) :
    (e : Expression) → Decidable (e.Faults zero st)
  | .literal _ | .variable _ | .result | .unsupported _ => isFalse id
  | .arithmetic op l r =>
      have := decidableFaults zero st l
      have := decidableFaults zero st r
      inferInstanceAs (Decidable (_ ∨ _ ∨ ∃ a ∈ l.eval zero st, ∃ b ∈ r.eval zero st,
        op.Faults a.toInt b.toInt))
  | .logical _ l r | .comparison _ l r =>
      have := decidableFaults zero st l
      have := decidableFaults zero st r
      inferInstanceAs (Decidable (_ ∨ _))
  | .unary .not a | .parenthesized a => decidableFaults zero st a
  | .unary .negate a =>
      have := decidableFaults zero st a
      inferInstanceAs (Decidable (_ ∨ ∃ v ∈ a.eval zero st, ¬Representable (-v.toInt)))

end Expression

namespace Clause

def Faults (zero : ZeroDivision) (st : State) : Clause → Prop
  | .supported _ e _ => e.Faults zero st
  | .unsupported _ _ => False

-- The clause has this truth value, and no operation on the way to it faults.
def Evaluates (zero : ZeroDivision) (st : State) (c : Clause) (b : Bool) : Prop :=
  ¬c.Faults zero st ∧ c.eval zero st = some (.bool b)

end Clause

namespace Scalar

theorem exact_bool (b : Bool) : (bool b).exact = .bool b := rfl

theorem exists_int {v : Scalar} (h : v.sort = .int) : ∃ n, v = .int n := by
  cases v with
  | int n => exact ⟨n, rfl⟩
  | bool b => cases h

theorem exists_bool {v : Scalar} (h : v.sort = .bool) : ∃ b, v = .bool b := by
  cases v with
  | int n => cases h
  | bool b => exact ⟨b, rfl⟩

end Scalar

-- The environment has the values of the state, where the table puts the names.
structure Env.Reflects (env : Env) (s : Signature) (table : AliasTable) (st : State) : Prop where
  vars : ∀ name, s.Registered table name → ∃ v, env.lookup (s.latest table name).name = some v ∧
    v.sort = (s.latest table name).sort ∧ st.vars name = v.exact
  result : s.hasResult = true → s.Registered table resultName →
    ∃ v, env.lookup (s.latest table resultName).name = some v ∧
      v.sort = (s.latest table resultName).sort ∧ st.result = some v.exact

-- A term has the value of the expression, in the sort of the term.
def HasValue (zero : ZeroDivision) (st : State) (env : Env) (e : Expression) (t : Term)
    (v : Scalar) : Prop :=
  t.eval env = some v ∧ v.sort = t.sort ∧ e.eval zero st = some v.exact

-- A term has no value exactly where the expression faults, and that of the expression elsewhere.
def Checks (zero : ZeroDivision) (st : State) (env : Env) (e : Expression) (t : Term) : Prop :=
  e.Faults zero st ∧ t.eval env = none ∨ ¬e.Faults zero st ∧ ∃ v, HasValue zero st env e t v

namespace Checks

variable {zero : ZeroDivision} {st : State} {env : Env} {e l r : Expression} {t a b : Term}

-- An operation on two operands faults where one of them does. Otherwise it is their values that
-- decide.
theorem binary (hl : Checks zero st env l a) (hr : Checks zero st env r b)
    (hfaults : l.Faults zero st ∨ r.Faults zero st → e.Faults zero st)
    (hnone : a.eval env = none ∨ b.eval env = none → t.eval env = none)
    (hvalues : ¬(l.Faults zero st ∨ r.Faults zero st) → ∀ v w, HasValue zero st env l a v →
      HasValue zero st env r b w → Checks zero st env e t) : Checks zero st env e t := by
  rcases hl with ⟨hfault, hl⟩ | ⟨hsafe, v, hv⟩
  · exact .inl ⟨hfaults (.inl hfault), hnone (.inl hl)⟩
  · rcases hr with ⟨hfault, hr⟩ | ⟨hsafe', w, hw⟩
    · exact .inl ⟨hfaults (.inr hfault), hnone (.inr hr)⟩
    · exact hvalues (not_or.mpr ⟨hsafe, hsafe'⟩) v w hv hw

theorem arithmetic (op : Arith) (hl : Checks zero st env l a) (hr : Checks zero st env r b)
    (ha : a.sort = .int) (hb : b.sort = .int) :
    Checks zero st env (.arithmetic op l r) (.arith op a b) := by
  refine hl.binary hr (fun h => h.imp_right .inl) ?_ ?_
  · rintro (hnone | hnone) <;> simp [Term.eval, hnone]
  · rintro hsafe v w ⟨hv, hvsort, hvexact⟩ ⟨hw, hwsort, hwexact⟩
    obtain ⟨m, rfl⟩ := Scalar.exists_int (hvsort.trans ha)
    obtain ⟨n, rfl⟩ := Scalar.exists_int (hwsort.trans hb)
    have hfaults : (Expression.arithmetic op l r).Faults zero st ↔ op.Faults m.toInt n.toInt := by
      rw [Expression.Faults, ← or_assoc, or_iff_right hsafe]
      simp [hvexact, hwexact, Scalar.exact, Exact.toInt]
    rw [Checks, hfaults, ← Arith.apply?_eq_none]
    cases hop : op.apply? m n with
    | none => exact .inl ⟨rfl, by simp [Term.eval, hv, hw, Scalar.asInt, hop]⟩
    | some k =>
        refine .inr ⟨by simp, .int k, by simp [Term.eval, hv, hw, Scalar.asInt, hop], rfl, ?_⟩
        simp [Expression.eval, hvexact, hwexact, Scalar.exact, Exact.asInt, Arith.toInt_apply? hop zero]

theorem logical (op : Logical) (hl : Checks zero st env l a) (hr : Checks zero st env r b)
    (ha : a.sort = .bool) (hb : b.sort = .bool) :
    Checks zero st env (.logical op l r) (op.build a b) := by
  refine hl.binary hr id ?_ ?_
  · rintro (hnone | hnone) <;> cases op <;>
      simp [Logical.build, Term.eval, Term.evalParts, hnone]
  · rintro hsafe v w ⟨hv, hvsort, hvexact⟩ ⟨hw, hwsort, hwexact⟩
    obtain ⟨p, rfl⟩ := Scalar.exists_bool (hvsort.trans ha)
    obtain ⟨q, rfl⟩ := Scalar.exists_bool (hwsort.trans hb)
    refine .inr ⟨hsafe, .bool (op.holds p q), ?_, ?_, ?_⟩
    · cases op <;> simp [Logical.build, Logical.holds, Term.eval, Term.evalParts, hv, hw, Scalar.asBool]
    · cases op <;> rfl
    · simp [Expression.eval, hvexact, hwexact, Scalar.exact, Exact.asBool]

theorem comparison (op : Comparison) (hl : Checks zero st env l a) (hr : Checks zero st env r b)
    (ha : a.sort = op.operandSort a) (hb : b.sort = op.operandSort a) :
    Checks zero st env (.comparison op l r) (op.build a b) := by
  refine hl.binary hr id ?_ ?_
  · rintro (hnone | hnone) <;> cases op <;> simp [Comparison.build, Term.eval, hnone]
  · rintro hsafe v w ⟨hv, hvsort, hvexact⟩ ⟨hw, hwsort, hwexact⟩
    have hsides : v.exact.sort = w.exact.sort := by
      rw [v.sort_exact, w.sort_exact, hvsort, hwsort, ha, hb]
    refine .inr ⟨hsafe, ?_⟩
    cases op with
    | equal =>
        refine ⟨.bool (v = w), by simp [Comparison.build, Term.eval, hv, hw], rfl, ?_⟩
        simp [Expression.eval, hvexact, hwexact, Comparison.holds?, hsides, Scalar.exact_inj,
          Scalar.exact_bool]
    | unequal =>
        refine ⟨.bool (v ≠ w), by simp [Comparison.build, Term.eval, hv, hw, Scalar.asBool], rfl, ?_⟩
        simp [Expression.eval, hvexact, hwexact, Comparison.holds?, hsides, Scalar.exact_inj,
          Scalar.exact_bool]
    | order op =>
        obtain ⟨m, rfl⟩ := Scalar.exists_int (hvsort.trans ha)
        obtain ⟨n, rfl⟩ := Scalar.exists_int (hwsort.trans hb)
        refine ⟨.bool (op.holds m.toInt n.toInt), ?_, rfl, ?_⟩
        · simp [Comparison.build, Term.eval, hv, hw, Scalar.asInt]
        · simp [Expression.eval, hvexact, hwexact, Comparison.holds?, Scalar.exact, Exact.asInt]

theorem not (h : Checks zero st env e a) (ha : a.sort = .bool) :
    Checks zero st env (.unary .not e) (.not a) := by
  rcases h with ⟨hfault, hnone⟩ | ⟨hsafe, v, hv, hsort, hexact⟩
  · exact .inl ⟨hfault, by simp [Term.eval, hnone]⟩
  · obtain ⟨p, rfl⟩ := Scalar.exists_bool (hsort.trans ha)
    refine .inr ⟨hsafe, .bool !p, by simp [Term.eval, hv, Scalar.asBool], rfl, ?_⟩
    simp [Expression.eval, Unary.apply, hexact, Scalar.exact, Exact.asBool]

theorem negate (h : Checks zero st env e a) (ha : a.sort = .int) :
    Checks zero st env (.unary .negate e) (.neg a) := by
  rcases h with ⟨hfault, hnone⟩ | ⟨hsafe, v, hv, hsort, hexact⟩
  · exact .inl ⟨.inl hfault, by simp [Term.eval, hnone]⟩
  · obtain ⟨n, rfl⟩ := Scalar.exists_int (hsort.trans ha)
    have hfaults : (Expression.unary .negate e).Faults zero st ↔ ¬Representable (-n.toInt) := by
      rw [Expression.Faults, or_iff_right hsafe]
      simp [hexact, Scalar.exact, Exact.toInt]
    rw [Checks, hfaults, ← fit_eq_none]
    cases hfit : fit (-n.toInt) with
    | none => exact .inl ⟨rfl, by simp [Term.eval, hv, Scalar.asInt, hfit]⟩
    | some k =>
        refine .inr ⟨by simp, .int k, by simp [Term.eval, hv, Scalar.asInt, hfit], rfl, ?_⟩
        simp [Expression.eval, Unary.apply, hexact, Scalar.exact, Exact.asInt, toInt_of_fit hfit]

end Checks

theorem Signature.Encodes.checks {s : Signature} {table : AliasTable} {e : Expression} {t : Term}
    {env : Env} {st : State} (h : s.Encodes table e t) (henv : env.Reflects s table st)
    (zero : ZeroDivision) : Checks zero st env e t := by
  induction h with
  | literal l =>
      refine .inr ⟨id, ?_⟩
      cases l with
      | int n => exact ⟨.int n, rfl, rfl, rfl⟩
      | bool b => exact ⟨.bool b, rfl, rfl, rfl⟩
  | reads v h =>
      obtain ⟨value, hlookup, hsort, hvalue⟩ := henv.vars _ h
      exact .inr ⟨id, value, hlookup, hsort, congrArg some hvalue⟩
  | arithmetic op hl hr ha hb ihl ihr => exact ihl.arithmetic op ihr ha hb
  | logical op hl hr ha hb ihl ihr => exact ihl.logical op ihr ha hb
  | comparison op hl hr ha hb ihl ihr => exact ihl.comparison op ihr ha hb
  | not h ha ih => exact ih.not ha
  | negate h ha ih => exact ih.negate ha
  | parenthesized h ih => exact ih
  | result hresult h =>
      obtain ⟨value, hlookup, hsort, hvalue⟩ := henv.result hresult h
      exact .inr ⟨id, value, hlookup, hsort, hvalue⟩

end Covenant
