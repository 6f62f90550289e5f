import Covenant.Proofs.Execution.Faults
import Covenant.Proofs.Search.Counterexample
import Mathlib.Logic.Relation

namespace Covenant

-- The environment gives each of the symbols a value of its sort.
def Env.Fills (env : Env) (symbols : List Symbol) : Prop :=
  ∀ s ∈ symbols, ∃ v, env.lookup s.name = some v ∧ v.sort = s.sort

theorem Env.Fills.sorted {env : Env} {symbols : List Symbol} (h : env.Fills symbols) :
    env.Sorted symbols := by
  intro s hs v hv
  obtain ⟨w, hw, hsort⟩ := h s hs
  rw [hw] at hv
  rwa [Option.some.inj hv] at hsort

namespace Term

-- The terms that the operation of a term takes.
def operands : Term → List Term
  | .int _ | .bool _ | .var _ => []
  | .neg a | .not a => [a]
  | .and parts | .or parts => parts
  | .arith _ l r | .implies l r | .eq l r | .order _ l r => [l, r]
  | .ite c t e => [c, t, e]

theorem mem_partsSymbols {parts : List Term} {s : Symbol} :
    s ∈ partsSymbols parts ↔ ∃ part ∈ parts, s ∈ part.symbols := by
  induction parts with
  | nil => simp [partsSymbols]
  | cons part parts ih => simp [partsSymbols, ih]

theorem partsWellSorted_iff {parts : List Term} :
    PartsWellSorted parts ↔ ∀ part ∈ parts, part.WellSorted ∧ part.sort = .bool := by
  induction parts with
  | nil => simp [PartsWellSorted]
  | cons part parts ih => simp [PartsWellSorted, ih, and_assoc]

section Operands

variable {t a : Term} (ha : a ∈ t.operands)

include ha

theorem mem_symbols_of_operand {s : Symbol} (hs : s ∈ a.symbols) : s ∈ t.symbols := by
  cases t with
  | int n | bool b | var s => cases ha
  | neg b | not b =>
      rw [List.mem_singleton.mp ha] at hs
      exact hs
  | and parts | or parts => exact mem_partsSymbols.mpr ⟨a, ha, hs⟩
  | arith op l r | implies l r | eq l r | order op l r =>
      simp only [operands, List.mem_cons, List.not_mem_nil, or_false] at ha
      rcases ha with rfl | rfl <;> simp [symbols, hs]
  | ite c l r =>
      simp only [operands, List.mem_cons, List.not_mem_nil, or_false] at ha
      rcases ha with rfl | rfl | rfl <;> simp [symbols, hs]

theorem wellSorted_of_operand (ht : t.WellSorted) : a.WellSorted := by
  cases t with
  | int n | bool b | var s => cases ha
  | neg b | not b =>
      rw [List.mem_singleton.mp ha]
      exact ht.1
  | and parts | or parts => exact (partsWellSorted_iff.mp ht a ha).1
  | arith op l r | implies l r | eq l r | order op l r =>
      simp only [operands, List.mem_cons, List.not_mem_nil, or_false] at ha
      rcases ha with rfl | rfl
      · exact ht.1
      · exact ht.2.1
  | ite c l r =>
      simp only [operands, List.mem_cons, List.not_mem_nil, or_false] at ha
      rcases ha with rfl | rfl | rfl
      · exact ht.1
      · exact ht.2.1
      · exact ht.2.2.1

theorem sizeOf_lt_of_operand : sizeOf a < sizeOf t := by
  cases t with
  | int n | bool b | var s => cases ha
  | neg b | not b =>
      rw [List.mem_singleton.mp ha]
      simp
  | and parts | or parts =>
      have hlt : sizeOf a < sizeOf parts := List.sizeOf_lt_of_mem ha
      simp only [and.sizeOf_spec, or.sizeOf_spec]
      omega
  | arith op l r | implies l r | eq l r | order op l r =>
      simp only [operands, List.mem_cons, List.not_mem_nil, or_false] at ha
      rcases ha with rfl | rfl
      · simp; omega
      · simp
  | ite c l r =>
      simp only [operands, List.mem_cons, List.not_mem_nil, or_false] at ha
      rcases ha with rfl | rfl | rfl <;> simp <;> omega

end Operands

mutual

-- The terms that stand anywhere in a term, itself first.
def subterms : Term → List Term
  | .int n => [.int n]
  | .bool b => [.bool b]
  | .var s => [.var s]
  | .arith op l r => .arith op l r :: (l.subterms ++ r.subterms)
  | .neg a => .neg a :: a.subterms
  | .not a => .not a :: a.subterms
  | .and parts => .and parts :: partsSubterms parts
  | .or parts => .or parts :: partsSubterms parts
  | .implies l r => .implies l r :: (l.subterms ++ r.subterms)
  | .eq l r => .eq l r :: (l.subterms ++ r.subterms)
  | .order op l r => .order op l r :: (l.subterms ++ r.subterms)
  | .ite c t e => .ite c t e :: (c.subterms ++ (t.subterms ++ e.subterms))

def partsSubterms : List Term → List Term
  | [] => []
  | part :: parts => part.subterms ++ partsSubterms parts

end

theorem mem_partsSubterms {parts : List Term} {s : Term} :
    s ∈ partsSubterms parts ↔ ∃ part ∈ parts, s ∈ part.subterms := by
  induction parts with
  | nil => simp [partsSubterms]
  | cons part parts ih => simp [partsSubterms, ih]

-- A term stands in another if it is the whole of it or stands in one of its operands.
theorem mem_subterms_iff {s t : Term} : s ∈ t.subterms ↔ s = t ∨ ∃ a ∈ t.operands, s ∈ a.subterms := by
  cases t with
  | and parts | or parts => simp [subterms, operands, mem_partsSubterms]
  | _ => simp [subterms, operands]

section Demand

variable (zero : ZeroDivision) (ν : Valuation)

-- The operands that the value of a term depends on. An implication with a false premise does not
-- look at its conclusion, and a choice looks at one side.
def demanded : Term → List Term
  | .implies l r => if (l.value zero ν).toBool then [l, r] else [l]
  | .ite c t e => [c, if (c.value zero ν).toBool then t else e]
  | t => t.operands

-- A term that stands where evaluation comes by.
def Demands (t s : Term) : Prop := Relation.ReflTransGen (fun t a => a ∈ t.demanded zero ν) t s

def isArithmetic : Term → Bool
  | .arith _ _ _ | .neg _ => true
  | _ => false

-- The operation of the term, if it is arithmetic, has a result of 64 bits on the exact values.
def Computes : Term → Prop
  | .arith op l r => ¬op.Faults (l.value zero ν).toInt (r.value zero ν).toInt
  | .neg a => Representable (-(a.value zero ν).toInt)
  | _ => True

end Demand

variable {zero : ZeroDivision} {ν : Valuation} {env : Env}

theorem mem_operands_of_demanded {t a : Term} (h : a ∈ t.demanded zero ν) : a ∈ t.operands := by
  cases t with
  | implies l r =>
      simp only [demanded] at h
      split at h <;> simp_all [operands]
  | ite c l r =>
      simp only [demanded] at h
      split at h <;> simp_all [operands] <;> tauto
  | _ => exact h

theorem mem_subterms_of_demands {t s : Term} (h : t.Demands zero ν s) : s ∈ t.subterms := by
  induction h using Relation.ReflTransGen.head_induction_on with
  | refl => exact mem_subterms_iff.mpr (.inl rfl)
  | head hstep _ ih => exact mem_subterms_iff.mpr (.inr ⟨_, mem_operands_of_demanded hstep, ih⟩)

-- An arithmetic term whose exact value fits computes, where it does not divide by zero.
theorem computes_of_representable {t : Term}
    (hfits : t.isArithmetic = true → Representable (t.value zero ν).toInt)
    (hzero : ∀ l r, t = .arith .div l r → (r.value zero ν).toInt ≠ 0) : t.Computes zero ν := by
  cases t with
  | neg a => exact hfits rfl
  | arith op l r =>
      have hfits := hfits rfl
      cases op with
      | add | sub | mul => exact not_not.mpr hfits
      | div =>
          have hne := hzero l r rfl
          simp only [value, Arith.exact, hne, if_false] at hfits
          exact not_or.mpr ⟨hne, not_not.mpr hfits⟩
  | _ => trivial

-- The term is well-sorted, and the environment gives its symbols the values of the valuation, in
-- their sorts.
structure Readable (env : Env) (ν : Valuation) (t : Term) : Prop where
  wellSorted : t.WellSorted
  fills : env.Fills t.symbols
  agrees : env.Agrees ν t.symbols

namespace Readable

variable {t a : Term}

theorem operand (h : t.Readable env ν) (ha : a ∈ t.operands) : a.Readable env ν where
  wellSorted := wellSorted_of_operand ha h.wellSorted
  fills := fun s hs => h.fills s (mem_symbols_of_operand ha hs)
  agrees := h.agrees.mono fun _ => mem_symbols_of_operand ha

theorem toInt_value (zero : ZeroDivision) (h : a.Readable env ν) {n : Int64}
    (hn : a.eval env = some (.int n)) : (a.value zero ν).toInt = n.toInt := by
  rw [value_of_eval zero a h.agrees hn]
  rfl

theorem toBool_value (zero : ZeroDivision) (h : a.Readable env ν) {b : Bool}
    (hb : a.eval env = some (.bool b)) : (a.value zero ν).toBool = b := by
  rw [value_of_eval zero a h.agrees hb]
  rfl

theorem exists_int (h : a.Readable env ν) (hsort : a.sort = .int) :
    (∃ v, a.eval env = some v) ↔ ∃ n, a.eval env = some (.int n) := by
  constructor
  · rintro ⟨v, hv⟩
    obtain ⟨n, rfl⟩ := Scalar.exists_int ((sort_of_eval a h.wellSorted h.fills.sorted hv).trans hsort)
    exact ⟨n, hv⟩
  · rintro ⟨n, hn⟩
    exact ⟨.int n, hn⟩

theorem exists_bool (h : a.Readable env ν) (hsort : a.sort = .bool) :
    (∃ v, a.eval env = some v) ↔ ∃ b, a.eval env = some (.bool b) := by
  constructor
  · rintro ⟨v, hv⟩
    obtain ⟨b, rfl⟩ := Scalar.exists_bool ((sort_of_eval a h.wellSorted h.fills.sorted hv).trans hsort)
    exact ⟨b, hv⟩
  · rintro ⟨b, hb⟩
    exact ⟨.bool b, hb⟩

end Readable

-- A conjunction or disjunction looks at all its parts.
theorem exists_evalParts {parts : List Term} :
    (∃ bs, evalParts env parts = some bs) ↔ ∀ part ∈ parts, ∃ b, part.eval env = some (.bool b) := by
  induction parts with
  | nil => simp [evalParts]
  | cons part parts ih =>
      rw [List.forall_mem_cons, ← ih]
      constructor
      · rintro ⟨bs, hbs⟩
        obtain ⟨b, hb, rest, hrest, -⟩ := evalParts_cons_eq_some.mp hbs
        exact ⟨⟨b, hb⟩, rest, hrest⟩
      · rintro ⟨⟨b, hb⟩, rest, hrest⟩
        exact ⟨b :: rest, evalParts_cons_eq_some.mpr ⟨b, hb, rest, hrest, rfl⟩⟩

namespace Readable

section Operations

variable {l r c t e a : Term}

theorem exists_arith {op : Arith} (zero : ZeroDivision) (h : (Term.arith op l r).Readable env ν) :
    (∃ v, (Term.arith op l r).eval env = some v) ↔
      ¬op.Faults (l.value zero ν).toInt (r.value zero ν).toInt ∧
        (∃ v, l.eval env = some v) ∧ ∃ v, r.eval env = some v := by
  have hl : l.Readable env ν := h.operand (by simp [operands])
  have hr : r.Readable env ν := h.operand (by simp [operands])
  rw [hl.exists_int h.wellSorted.2.2.1, hr.exists_int h.wellSorted.2.2.2]
  simp only [eval_arith_eq_some]
  constructor
  · rintro ⟨v, m, hm, n, hn, k, hk, rfl⟩
    refine ⟨?_, ⟨m, hm⟩, n, hn⟩
    rw [hl.toInt_value zero hm, hr.toInt_value zero hn, ← Arith.apply?_eq_none, hk]
    simp
  · rintro ⟨hop, ⟨m, hm⟩, n, hn⟩
    rw [hl.toInt_value zero hm, hr.toInt_value zero hn, ← Arith.apply?_eq_none] at hop
    obtain ⟨k, hk⟩ := Option.ne_none_iff_exists'.mp hop
    exact ⟨.int k, m, hm, n, hn, k, hk, rfl⟩

theorem exists_neg (zero : ZeroDivision) (h : (Term.neg a).Readable env ν) :
    (∃ v, (Term.neg a).eval env = some v) ↔
      Representable (-(a.value zero ν).toInt) ∧ ∃ v, a.eval env = some v := by
  have ha : a.Readable env ν := h.operand (by simp [operands])
  rw [ha.exists_int h.wellSorted.2]
  simp only [eval_neg_eq_some]
  constructor
  · rintro ⟨v, m, hm, k, hk, rfl⟩
    refine ⟨?_, m, hm⟩
    rw [ha.toInt_value zero hm]
    exact Search.fits_iff.mp ⟨k, hk⟩
  · rintro ⟨hfits, m, hm⟩
    rw [ha.toInt_value zero hm] at hfits
    obtain ⟨k, hk⟩ := Search.fits_iff.mpr hfits
    exact ⟨.int k, m, hm, k, hk, rfl⟩

theorem exists_not (h : (Term.not a).Readable env ν) :
    (∃ v, (Term.not a).eval env = some v) ↔ ∃ v, a.eval env = some v := by
  have ha : a.Readable env ν := h.operand (by simp [operands])
  rw [ha.exists_bool h.wellSorted.2]
  simp only [eval_not_eq_some]
  constructor
  · rintro ⟨v, b, hb, rfl⟩
    exact ⟨b, hb⟩
  · rintro ⟨b, hb⟩
    exact ⟨_, b, hb, rfl⟩

theorem exists_parts {parts : List Term} (h : ∀ part ∈ parts, part.Readable env ν)
    (hparts : PartsWellSorted parts) :
    (∃ bs, evalParts env parts = some bs) ↔ ∀ part ∈ parts, ∃ v, part.eval env = some v := by
  rw [exists_evalParts]
  exact forall₂_congr fun part hmem =>
    ((h part hmem).exists_bool (partsWellSorted_iff.mp hparts part hmem).2).symm

theorem exists_and {parts : List Term} (h : (Term.and parts).Readable env ν) :
    (∃ v, (Term.and parts).eval env = some v) ↔ ∀ part ∈ parts, ∃ v, part.eval env = some v := by
  have hparts : ∀ part ∈ parts, part.Readable env ν := fun _ hmem => h.operand hmem
  rw [← exists_parts hparts h.wellSorted]
  simp only [eval_and_eq_some]
  rw [exists_comm]
  simp only [exists_and_left, exists_eq', and_true]

theorem exists_or {parts : List Term} (h : (Term.or parts).Readable env ν) :
    (∃ v, (Term.or parts).eval env = some v) ↔ ∀ part ∈ parts, ∃ v, part.eval env = some v := by
  have hparts : ∀ part ∈ parts, part.Readable env ν := fun _ hmem => h.operand hmem
  rw [← exists_parts hparts h.wellSorted]
  simp only [eval_or_eq_some]
  rw [exists_comm]
  simp only [exists_and_left, exists_eq', and_true]

-- The conclusion matters only where the premise is true.
theorem exists_implies (zero : ZeroDivision) (h : (Term.implies l r).Readable env ν) :
    (∃ v, (Term.implies l r).eval env = some v) ↔
      (∃ v, l.eval env = some v) ∧ ((l.value zero ν).toBool = true → ∃ v, r.eval env = some v) := by
  have hl : l.Readable env ν := h.operand (by simp [operands])
  have hr : r.Readable env ν := h.operand (by simp [operands])
  rw [hl.exists_bool h.wellSorted.2.2.1, hr.exists_bool h.wellSorted.2.2.2]
  simp only [eval_implies_eq_some]
  constructor
  · rintro ⟨v, ⟨hfalse, -⟩ | ⟨htrue, b, hb, -⟩⟩
    · refine ⟨⟨false, hfalse⟩, ?_⟩
      rw [hl.toBool_value zero hfalse]
      simp
    · exact ⟨⟨true, htrue⟩, fun _ => ⟨b, hb⟩⟩
  · rintro ⟨⟨b, hb⟩, himp⟩
    rw [hl.toBool_value zero hb] at himp
    cases b with
    | false => exact ⟨_, .inl ⟨hb, rfl⟩⟩
    | true =>
        obtain ⟨b', hb'⟩ := himp rfl
        exact ⟨_, .inr ⟨hb, b', hb', rfl⟩⟩

theorem exists_equal : (∃ v, (Term.eq l r).eval env = some v) ↔
    (∃ v, l.eval env = some v) ∧ ∃ v, r.eval env = some v := by
  simp only [eval_eq_eq_some]
  constructor
  · rintro ⟨v, x, hx, y, hy, -⟩
    exact ⟨⟨x, hx⟩, y, hy⟩
  · rintro ⟨⟨x, hx⟩, y, hy⟩
    exact ⟨_, x, hx, y, hy, rfl⟩

theorem exists_order {op : Order} (h : (Term.order op l r).Readable env ν) :
    (∃ v, (Term.order op l r).eval env = some v) ↔
      (∃ v, l.eval env = some v) ∧ ∃ v, r.eval env = some v := by
  have hl : l.Readable env ν := h.operand (by simp [operands])
  have hr : r.Readable env ν := h.operand (by simp [operands])
  rw [hl.exists_int h.wellSorted.2.2.1, hr.exists_int h.wellSorted.2.2.2]
  simp only [eval_order_eq_some]
  constructor
  · rintro ⟨v, m, hm, n, hn, -⟩
    exact ⟨⟨m, hm⟩, n, hn⟩
  · rintro ⟨⟨m, hm⟩, n, hn⟩
    exact ⟨_, m, hm, n, hn, rfl⟩

-- Only the side that is chosen matters.
theorem exists_ite (zero : ZeroDivision) (h : (Term.ite c t e).Readable env ν) :
    (∃ v, (Term.ite c t e).eval env = some v) ↔ (∃ v, c.eval env = some v) ∧
      ∃ v, (if (c.value zero ν).toBool then t else e).eval env = some v := by
  have hc : c.Readable env ν := h.operand (by simp [operands])
  rw [hc.exists_bool h.wellSorted.2.2.2.1]
  simp only [eval_ite_eq_some]
  constructor
  · rintro ⟨v, b, hb, hv⟩
    refine ⟨⟨b, hb⟩, v, ?_⟩
    rw [hc.toBool_value zero hb]
    cases b <;> exact hv
  · rintro ⟨⟨b, hb⟩, v, hv⟩
    rw [hc.toBool_value zero hb] at hv
    refine ⟨v, b, hb, ?_⟩
    cases b <;> exact hv

end Operations

-- One step of evaluation: a term has a value if its own operation computes and the operands that
-- it looks at have values.
theorem exists_eval_iff {t : Term} (zero : ZeroDivision) (h : t.Readable env ν) :
    (∃ v, t.eval env = some v) ↔
      t.Computes zero ν ∧ ∀ a ∈ t.demanded zero ν, ∃ v, a.eval env = some v := by
  cases t with
  | int n | bool b => simp [eval, Computes, demanded, operands]
  | var s =>
      obtain ⟨v, hv, -⟩ := h.fills s (by simp [symbols])
      simp [eval, hv, Computes, demanded, operands]
  | arith op l r => simp [h.exists_arith zero, Computes, demanded, operands]
  | neg a => simp [h.exists_neg zero, Computes, demanded, operands]
  | not a => simp [h.exists_not, Computes, demanded, operands]
  | and parts => simp [h.exists_and, Computes, demanded, operands]
  | or parts => simp [h.exists_or, Computes, demanded, operands]
  | implies l r =>
      rw [h.exists_implies zero]
      cases hpremise : (l.value zero ν).toBool <;> simp [Computes, demanded, hpremise]
  | eq l r => simp [exists_equal, Computes, demanded, operands]
  | order op l r => simp [h.exists_order, Computes, demanded, operands]
  | ite c t e => simp [h.exists_ite zero, Computes, demanded]

-- The whole of an evaluation: wherever it comes by, the operation computes.
theorem computes_of_exists_eval {t s : Term} (h : t.Readable env ν) (hs : t.Demands zero ν s)
    (ht : ∃ v, t.eval env = some v) : s.Computes zero ν := by
  induction hs using Relation.ReflTransGen.head_induction_on with
  | refl => exact ((h.exists_eval_iff zero).mp ht).1
  | head hstep _ ih =>
      exact ih (h.operand (mem_operands_of_demanded hstep)) (((h.exists_eval_iff zero).mp ht).2 _ hstep)

theorem exists_eval_of_computes {t : Term} (zero : ZeroDivision) (h : t.Readable env ν)
    (hs : ∀ s, t.Demands zero ν s → s.Computes zero ν) : ∃ v, t.eval env = some v := by
  refine (h.exists_eval_iff zero).mpr ⟨hs t .refl, fun a ha => ?_⟩
  have hmem := mem_operands_of_demanded ha
  exact exists_eval_of_computes zero (h.operand hmem) fun s hd => hs s (.head ha hd)
termination_by sizeOf t
decreasing_by exact sizeOf_lt_of_operand hmem

end Readable

-- Evaluation gives the exact value in the sort of the term, or nothing; and it gives nothing only
-- where an operation that it comes by has no result of 64 bits.
theorem eval_exact_or_nothing (t : Term) (env : Env) (zero : ZeroDivision) (ν : Valuation)
    (ht : t.WellSorted) (henv : env.Fills t.symbols) :
    (∀ v, t.eval env = some v → v.sort = t.sort ∧ t.value zero (env.complete ν) = v.exact) ∧
    ((∃ v, t.eval env = some v) ↔
      ∀ s, t.Demands zero (env.complete ν) s → s.Computes zero (env.complete ν)) ∧
    ((∀ s ∈ t.subterms, s.isArithmetic = true →
        Representable (s.value zero (env.complete ν)).toInt) →
      (∀ l r, Term.arith .div l r ∈ t.subterms → (r.value zero (env.complete ν)).toInt ≠ 0) →
      ∃ v, t.eval env = some v) := by
  have h : t.Readable env (env.complete ν) := ⟨ht, henv, Env.agrees_complete ν henv.sorted⟩
  refine ⟨?_, ⟨fun hv s hs => h.computes_of_exists_eval hs hv, h.exists_eval_of_computes zero⟩, ?_⟩
  · intro v hv
    exact ⟨sort_of_eval t ht henv.sorted hv, value_of_eval zero t h.agrees hv⟩
  · intro hfits hzero
    refine h.exists_eval_of_computes zero fun s hs => ?_
    have hsub := mem_subterms_of_demands hs
    exact computes_of_representable (hfits s hsub) fun l r heq => hzero l r (heq ▸ hsub)

-- Half of a negative number, and any other number negated.
def halved : Term :=
  .ite (.order .lt (.var ⟨"x@0", .int⟩) (.int 0)) (.arith .div (.var ⟨"x@0", .int⟩) (.int 2))
    (.neg (.var ⟨"x@0", .int⟩))

theorem eval_exact_or_nothing_halved :
    (Scalar.int (-4)).sort = halved.sort ∧
    halved.value (fun n => n) (Env.complete [("x@0", .int (-7))] ⟨fun _ => 0, fun _ => true⟩) =
      .int (-4) ∧
    (∃ v, halved.eval [("x@0", .int (-7))] = some v) := by
  have hws : halved.WellSorted := by simp [halved, WellSorted, sort]
  have hfills : Env.Fills [("x@0", .int (-7))] halved.symbols := by
    intro s hs
    have hname : s = ⟨"x@0", .int⟩ := by simpa [halved, symbols] using hs
    exact hname ▸ ⟨.int (-7), rfl, rfl⟩
  obtain ⟨hexact, -, hdefined⟩ := eval_exact_or_nothing halved [("x@0", .int (-7))] (fun n => n)
    ⟨fun _ => 0, fun _ => true⟩ hws hfills
  obtain ⟨hsort, hvalue⟩ := hexact (.int (-4)) (by decide)
  refine ⟨hsort, hvalue, hdefined ?_ ?_⟩
  · decide
  · intro l r hdiv
    simp only [halved, subterms, List.cons_append, List.nil_append, List.mem_cons, reduceCtorEq,
      arith.injEq, true_and, List.not_mem_nil, or_self, or_false, false_or] at hdiv
    obtain ⟨rfl, rfl⟩ := hdiv
    decide

end Term

end Covenant
