import Covenant.Proofs.Term.Exact
import Covenant.Term.Eval

namespace Covenant

namespace Scalar

-- The same value over the unbounded integers.
def exact : Scalar → Exact
  | .int n => .int n.toInt
  | .bool b => .bool b

def sort : Scalar → TermSort
  | .int _ => .int
  | .bool _ => .bool

theorem exact_inj {v w : Scalar} : v.exact = w.exact ↔ v = w := by
  cases v <;> cases w <;> simp [exact, Int64.toInt_inj]

theorem sort_exact (v : Scalar) : v.exact.sort = v.sort := by
  cases v <;> rfl

theorem asInt_eq_some {v : Scalar} {n : Int64} : v.asInt = some n ↔ v = .int n := by
  cases v <;> simp [asInt]

theorem asBool_eq_some {v : Scalar} {b : Bool} : v.asBool = some b ↔ v = .bool b := by
  cases v <;> simp [asBool]

theorem exact_eq_bool {v : Scalar} {b : Bool} : v.exact = .bool b ↔ v = .bool b := by
  cases v <;> simp [exact]

end Scalar

theorem toInt_of_fit {n : Int} {v : Int64} (h : fit n = some v) : v.toInt = n := by
  simp only [fit] at h
  split at h
  · rename_i hn
    rwa [Option.some.inj h] at hn
  · cases h

-- A result that fits is exact, and one of a division has a divisor other than zero.
theorem Arith.toInt_apply? {op : Arith} {a b v : Int64} (h : op.apply? a b = some v)
    (zero : ZeroDivision) : v.toInt = op.exact zero a.toInt b.toInt := by
  cases op with
  | add | sub | mul => exact toInt_of_fit h
  | div =>
      simp only [ Arith.apply?] at h
      split at h
      · cases h
      · rename_i hb
        simp only [exact, hb, if_false]
        exact toInt_of_fit h

-- Those of the symbols that have a value in the environment have one with the property.
def Env.All (env : Env) (symbols : List Symbol) (p : Symbol → Scalar → Prop) : Prop :=
  ∀ s ∈ symbols, ∀ v, env.lookup s.name = some v → p s v

-- The values are those of the valuation.
abbrev Env.Agrees (env : Env) (ν : Valuation) (symbols : List Symbol) : Prop :=
  env.All symbols fun s v => ν.get s = v.exact

-- The values have the sorts of their symbols.
abbrev Env.Sorted (env : Env) (symbols : List Symbol) : Prop :=
  env.All symbols fun s v => v.sort = s.sort

-- Every value that the first environment has, the second has too.
def Env.Within (env env' : Env) : Prop :=
  ∀ name v, env.lookup name = some v → env'.lookup name = some v

theorem Env.All.mono {env : Env} {symbols others : List Symbol} {p : Symbol → Scalar → Prop}
    (h : env.All symbols p) (hs : ∀ s ∈ others, s ∈ symbols) : env.All others p :=
  fun s hmem => h s (hs s hmem)

theorem Env.within_cons {env : Env} {name : String} (v : Scalar) (h : env.lookup name = none) :
    env.Within ((name, v) :: env) := by
  intro other w hw
  have hne : other ≠ name := by
    rintro rfl
    rw [h] at hw
    cases hw
  rwa [List.lookup_cons, beq_eq_false_iff_ne.mpr hne]

theorem Env.Within.trans {env env' env'' : Env} (h : env.Within env') (h' : env'.Within env'') :
    env.Within env'' := fun name v hv => h' name v (h name v hv)

-- The values of an environment where it has one of the right sort, and those of the valuation
-- elsewhere.
def Env.complete (env : Env) (ν : Valuation) : Valuation where
  int name := match env.lookup name with
    | some (.int n) => n.toInt
    | _ => ν.int name
  bool name := match env.lookup name with
    | some (.bool b) => b
    | _ => ν.bool name

theorem Env.get_complete_of_some {env : Env} (ν : Valuation) {s : Symbol} {v : Scalar}
    (h : env.lookup s.name = some v) (hsort : v.sort = s.sort) : (env.complete ν).get s = v.exact := by
  rcases s with ⟨name, sort⟩
  cases v <;> cases hsort <;> simp_all [complete, Valuation.get, Scalar.exact]

theorem Env.get_complete_of_none {env : Env} (ν : Valuation) {s : Symbol}
    (h : env.lookup s.name = none) : (env.complete ν).get s = ν.get s := by
  simp only [complete, Valuation.get, h]

theorem Env.agrees_complete {env : Env} {symbols : List Symbol} (ν : Valuation)
    (h : env.Sorted symbols) : env.Agrees (env.complete ν) symbols :=
  fun s hs v hv => get_complete_of_some ν hv (h s hs v hv)

namespace Term

section Inversion

variable {env : Env} {l r a c t e : Term} {v : Scalar}

attribute [local simp] eval evalParts Option.bind_eq_some_iff

theorem eval_arith_eq_some {op : Arith} : (Term.arith op l r).eval env = some v ↔
    ∃ m, l.eval env = some (.int m) ∧ ∃ n, r.eval env = some (.int n) ∧
      ∃ k, op.apply? m n = some k ∧ .int k = v := by
  simp [Scalar.asInt_eq_some]

theorem eval_neg_eq_some : (Term.neg a).eval env = some v ↔
    ∃ m, a.eval env = some (.int m) ∧ ∃ k, fit (-m.toInt) = some k ∧ .int k = v := by
  simp [Scalar.asInt_eq_some]

theorem eval_not_eq_some : (Term.not a).eval env = some v ↔
    ∃ b, a.eval env = some (.bool b) ∧ .bool (!b) = v := by
  simp [Scalar.asBool_eq_some]

theorem eval_and_eq_some {parts : List Term} : (Term.and parts).eval env = some v ↔
    ∃ bs, evalParts env parts = some bs ∧ .bool (bs.all id) = v := by
  simp

theorem eval_or_eq_some {parts : List Term} : (Term.or parts).eval env = some v ↔
    ∃ bs, evalParts env parts = some bs ∧ .bool (bs.any id) = v := by
  simp

theorem evalParts_cons_eq_some {parts : List Term} {bs : List Bool} :
    evalParts env (a :: parts) = some bs ↔
      ∃ b, a.eval env = some (.bool b) ∧ ∃ rest, evalParts env parts = some rest ∧ b :: rest = bs := by
  simp [Scalar.asBool_eq_some]

-- A false premise is enough. Otherwise the conclusion decides.
theorem eval_implies_eq_some : (Term.implies l r).eval env = some v ↔
    (l.eval env = some (.bool false) ∧ .bool true = v) ∨
      l.eval env = some (.bool true) ∧ ∃ b, r.eval env = some (.bool b) ∧ .bool b = v := by
  simp [Scalar.asBool_eq_some]

theorem eval_eq_eq_some : (Term.eq l r).eval env = some v ↔
    ∃ x, l.eval env = some x ∧ ∃ y, r.eval env = some y ∧ .bool (x = y) = v := by
  simp

theorem eval_order_eq_some {op : Order} : (Term.order op l r).eval env = some v ↔
    ∃ m, l.eval env = some (.int m) ∧ ∃ n, r.eval env = some (.int n) ∧
      .bool (op.holds m.toInt n.toInt) = v := by
  simp [Scalar.asInt_eq_some]

theorem eval_ite_eq_some : (Term.ite c t e).eval env = some v ↔
    ∃ b, c.eval env = some (.bool b) ∧ (if b then t.eval env else e.eval env) = some v := by
  simp [Scalar.asBool_eq_some]

end Inversion

variable (zero : ZeroDivision) {ν : Valuation} {env : Env}

mutual

-- A checked evaluation that gives a value gives the exact one. What a division by zero would give
-- does not matter, since the evaluation has no value there.
theorem value_of_eval (t : Term) (henv : env.Agrees ν t.symbols) {v : Scalar}
    (h : t.eval env = some v) : t.value zero ν = v.exact := by
  match t with
  | .int n | .bool b =>
      cases h
      rfl
  | .var s => exact henv s (by simp [symbols]) v h
  | .arith op l r =>
      obtain ⟨m, hm, n, hn, k, hk, rfl⟩ := eval_arith_eq_some.mp h
      have hl := value_of_eval l (henv.mono (by simp +contextual [symbols])) hm
      have hr := value_of_eval r (henv.mono (by simp +contextual [symbols])) hn
      simp only [value, hl, hr, Scalar.exact, Exact.toInt, Arith.toInt_apply? hk zero]
  | .neg a =>
      obtain ⟨m, hm, k, hk, rfl⟩ := eval_neg_eq_some.mp h
      simp only [value, value_of_eval a henv hm, Scalar.exact, Exact.toInt, toInt_of_fit hk]
  | .not a =>
      obtain ⟨b, hb, rfl⟩ := eval_not_eq_some.mp h
      simp only [value, value_of_eval a henv hb, Scalar.exact, Exact.toBool]
  | .and parts =>
      obtain ⟨bs, hbs, rfl⟩ := eval_and_eq_some.mp h
      simp only [value, partsValue_of_evalParts parts henv hbs, Scalar.exact]
  | .or parts =>
      obtain ⟨bs, hbs, rfl⟩ := eval_or_eq_some.mp h
      simp only [value, partsValue_of_evalParts parts henv hbs, Scalar.exact]
  | .implies l r =>
      rcases eval_implies_eq_some.mp h with ⟨hl, rfl⟩ | ⟨hl, b, hr, rfl⟩
      · have hl := value_of_eval l (henv.mono (by simp +contextual [symbols])) hl
        simp only [value, hl, Scalar.exact, Exact.toBool, Bool.not_false, Bool.true_or]
      · have hl := value_of_eval l (henv.mono (by simp +contextual [symbols])) hl
        have hr := value_of_eval r (henv.mono (by simp +contextual [symbols])) hr
        simp only [value, hl, hr, Scalar.exact, Exact.toBool, Bool.not_true, Bool.false_or]
  | .eq l r =>
      obtain ⟨x, hx, y, hy, rfl⟩ := eval_eq_eq_some.mp h
      have hl := value_of_eval l (henv.mono (by simp +contextual [symbols])) hx
      have hr := value_of_eval r (henv.mono (by simp +contextual [symbols])) hy
      simp only [value, hl, hr, Scalar.exact_inj]
      rfl
  | .order op l r =>
      obtain ⟨m, hm, n, hn, rfl⟩ := eval_order_eq_some.mp h
      have hl := value_of_eval l (henv.mono (by simp +contextual [symbols])) hm
      have hr := value_of_eval r (henv.mono (by simp +contextual [symbols])) hn
      simp only [value, hl, hr, Scalar.exact, Exact.toInt]
  | .ite c t e =>
      obtain ⟨b, hb, h⟩ := eval_ite_eq_some.mp h
      have hc := value_of_eval c (henv.mono (by simp +contextual [symbols])) hb
      cases b with
      | true =>
          have ht := value_of_eval t (henv.mono (by simp +contextual [symbols])) h
          simp only [value, hc, ht, Scalar.exact, Exact.toBool, if_true]
      | false =>
          have he := value_of_eval e (henv.mono (by simp +contextual [symbols])) h
          simp only [value, hc, he, Scalar.exact, Exact.toBool, Bool.false_eq_true, if_false]

theorem partsValue_of_evalParts (parts : List Term) (henv : env.Agrees ν (partsSymbols parts))
    {bs : List Bool} (h : evalParts env parts = some bs) : partsValue zero ν parts = bs := by
  match parts with
  | [] =>
      cases h
      rfl
  | part :: parts =>
      obtain ⟨b, hb, rest, hrest, rfl⟩ := evalParts_cons_eq_some.mp h
      have hp := value_of_eval part (henv.mono (by simp +contextual [partsSymbols])) hb
      have hps := partsValue_of_evalParts parts (henv.mono (by simp +contextual [partsSymbols])) hrest
      simp only [partsValue, hp, hps, Scalar.exact, Exact.toBool]

end

-- The exact value has the sort of the term, whatever the symbols without a value stand for.
theorem sort_of_eval (t : Term) (hws : t.WellSorted) (henv : env.Sorted t.symbols) {v : Scalar}
    (h : t.eval env = some v) : v.sort = t.sort := by
  have hagrees := Env.agrees_complete ⟨fun _ => 0, fun _ => false⟩ henv
  have hvalue := value_of_eval (fun n => n) t hagrees h
  rw [← v.sort_exact, ← hvalue, sort_value _ _ t hws]

variable {env' : Env}

mutual

-- An evaluation keeps its value when the environment learns more names.
theorem eval_of_within (hw : env.Within env') (t : Term) {v : Scalar} (h : t.eval env = some v) :
    t.eval env' = some v := by
  match t with
  | .int n | .bool b => exact h
  | .var s => exact hw s.name v h
  | .arith op l r =>
      obtain ⟨m, hm, n, hn, hk⟩ := eval_arith_eq_some.mp h
      exact eval_arith_eq_some.mpr ⟨m, eval_of_within hw l hm, n, eval_of_within hw r hn, hk⟩
  | .neg a =>
      obtain ⟨m, hm, hk⟩ := eval_neg_eq_some.mp h
      exact eval_neg_eq_some.mpr ⟨m, eval_of_within hw a hm, hk⟩
  | .not a =>
      obtain ⟨b, hb, hv⟩ := eval_not_eq_some.mp h
      exact eval_not_eq_some.mpr ⟨b, eval_of_within hw a hb, hv⟩
  | .and parts =>
      obtain ⟨bs, hbs, hv⟩ := eval_and_eq_some.mp h
      exact eval_and_eq_some.mpr ⟨bs, evalParts_of_within hw parts hbs, hv⟩
  | .or parts =>
      obtain ⟨bs, hbs, hv⟩ := eval_or_eq_some.mp h
      exact eval_or_eq_some.mpr ⟨bs, evalParts_of_within hw parts hbs, hv⟩
  | .implies l r =>
      rcases eval_implies_eq_some.mp h with ⟨hl, hv⟩ | ⟨hl, b, hr, hv⟩
      · exact eval_implies_eq_some.mpr (.inl ⟨eval_of_within hw l hl, hv⟩)
      · exact eval_implies_eq_some.mpr
          (.inr ⟨eval_of_within hw l hl, b, eval_of_within hw r hr, hv⟩)
  | .eq l r =>
      obtain ⟨x, hx, y, hy, hv⟩ := eval_eq_eq_some.mp h
      exact eval_eq_eq_some.mpr ⟨x, eval_of_within hw l hx, y, eval_of_within hw r hy, hv⟩
  | .order op l r =>
      obtain ⟨m, hm, n, hn, hv⟩ := eval_order_eq_some.mp h
      exact eval_order_eq_some.mpr ⟨m, eval_of_within hw l hm, n, eval_of_within hw r hn, hv⟩
  | .ite c t e =>
      obtain ⟨b, hb, h⟩ := eval_ite_eq_some.mp h
      refine eval_ite_eq_some.mpr ⟨b, eval_of_within hw c hb, ?_⟩
      cases b with
      | true => exact eval_of_within hw t h
      | false => exact eval_of_within hw e h

theorem evalParts_of_within (hw : env.Within env') (parts : List Term) {bs : List Bool}
    (h : evalParts env parts = some bs) : evalParts env' parts = some bs := by
  match parts with
  | [] => exact h
  | part :: parts =>
      obtain ⟨b, hb, rest, hrest, hbs⟩ := evalParts_cons_eq_some.mp h
      exact evalParts_cons_eq_some.mpr
        ⟨b, eval_of_within hw part hb, rest, evalParts_of_within hw parts hrest, hbs⟩

end

end Term

end Covenant
