import Covenant.Proofs.Encoding.Growth
import Covenant.Verify.Obligation

namespace Covenant

namespace Signature

-- The term of a clause: that of its expression, which is a condition.
def EncodesClause (s : Signature) (table : AliasTable) (c : Clause) (t : Term) : Prop :=
  ∃ text x location, c = .supported text x location ∧ s.Encodes table x t ∧ t.sort = .bool

-- A condition over symbols of the signature.
structure Proper (s : Signature) (t : Term) : Prop where
  wellSorted : t.WellSorted
  sort : t.sort = .bool
  symbols : ∀ x ∈ t.symbols, ∃ a, x = s.symbolOf a

variable {s : Signature} {table : AliasTable}

theorem clause_eq_ok {c : Clause} {t : Term} (h : s.clause table c = .ok t) :
    s.EncodesClause table c t := by
  cases c with
  | supported text x location =>
      obtain ⟨hx, hsort⟩ := encodes_of_condition h
      exact ⟨text, x, location, rfl, hx, hsort⟩
  | unsupported text location => cases h

theorem clauses_eq_ok {cs : List Clause} {ts : List Term} (h : s.clauses table cs = .ok ts) :
    List.Forall₂ (s.EncodesClause table) cs ts := by
  induction cs generalizing ts with
  | nil =>
      cases h
      exact .nil
  | cons c rest ih =>
      simp only [clauses, bind_eq_ok] at h
      obtain ⟨t, ht, more, hmore, hts⟩ := h
      cases hts
      exact .cons (clause_eq_ok ht) (ih hmore)

namespace EncodesClause

variable {c : Clause} {t : Term}

theorem proper (h : s.EncodesClause table c t) : s.Proper t := by
  obtain ⟨text, x, location, rfl, hx, hsort⟩ := h
  refine ⟨hx.wellSorted, hsort, fun y hy => ?_⟩
  obtain ⟨name, -, rfl⟩ := hx.symbols y hy
  exact ⟨_, rfl⟩

variable {names : List String} {zero : ZeroDivision} {ν : Valuation} {st : State}

theorem eval_eq (h : s.EncodesClause table c t) (hst : Represents names s table ν st)
    (hvars : ∀ v ∈ c.mentioned, v.logicalName ∈ names) : c.eval zero st = some (t.value zero ν) := by
  obtain ⟨text, x, location, rfl, hx, hsort⟩ := h
  exact hx.eval_eq hst hvars zero

theorem holds_iff (h : s.EncodesClause table c t) (hst : Represents names s table ν st)
    (hvars : ∀ v ∈ c.mentioned, v.logicalName ∈ names) :
    c.Holds zero st ↔ t.value zero ν = .bool true := by
  rw [Clause.Holds, h.eval_eq hst hvars, Option.some.injEq]

theorem fails_iff (h : s.EncodesClause table c t) (hst : Represents names s table ν st)
    (hvars : ∀ v ∈ c.mentioned, v.logicalName ∈ names) :
    c.Fails zero st ↔ (Term.not t).value zero ν = .bool true := by
  rw [Clause.Fails, h.eval_eq hst hvars, Option.some.injEq,
    Term.value_not_true zero h.proper.wellSorted h.proper.sort]

-- A clause that was encoded has a value, so it holds or fails.
theorem holds_of_not_fails (h : s.EncodesClause table c t) (hst : Represents names s table ν st)
    (hvars : ∀ v ∈ c.mentioned, v.logicalName ∈ names)
    (hfails : (Term.not t).value zero ν ≠ .bool true) : c.Holds zero st := by
  have hsort := (Term.sort_value zero ν t h.proper.wellSorted).trans h.proper.sort
  rw [h.holds_iff hst hvars, Exact.eq_bool_toBool hsort]
  simpa [Term.value] using hfails

end EncodesClause

theorem forall_holds_iff {cs : List Clause} {ts : List Term} {names : List String}
    {zero : ZeroDivision} {ν : Valuation} {st : State}
    (h : List.Forall₂ (s.EncodesClause table) cs ts) (hst : Represents names s table ν st)
    (hvars : ∀ c ∈ cs, ∀ v ∈ c.mentioned, v.logicalName ∈ names) :
    (∀ c ∈ cs, c.Holds zero st) ↔ ∀ t ∈ ts, t.value zero ν = .bool true := by
  induction h with
  | nil => simp
  | cons hc hrest ih =>
      rw [List.forall_mem_cons] at hvars
      rw [List.forall_mem_cons, List.forall_mem_cons, hc.holds_iff hst hvars.1, ih hvars.2]

theorem forall_proper {cs : List Clause} {ts : List Term}
    (h : List.Forall₂ (s.EncodesClause table) cs ts) : ∀ t ∈ ts, s.Proper t := by
  induction h with
  | nil => simp
  | cons hc hrest ih => exact List.forall_mem_cons.mpr ⟨hc.proper, ih⟩

theorem Proper.not {t : Term} (h : s.Proper t) : s.Proper (.not t) :=
  ⟨⟨h.wellSorted, h.sort⟩, rfl, h.symbols⟩

-- Symbols of one signature have one sort for each name.
theorem eq_of_name_eq (s : Signature) {f : Formula}
    (h : ∀ t ∈ f.assertions, ∀ x ∈ t.symbols, ∃ a, x = s.symbolOf a) :
    ∀ x ∈ f.occurrences, ∀ y ∈ f.occurrences, x.name = y.name → x = y := by
  intro x hx y hy hname
  obtain ⟨t, ht, hx⟩ := List.mem_flatMap.mp hx
  obtain ⟨u, hu, hy⟩ := List.mem_flatMap.mp hy
  obtain ⟨a, rfl⟩ := h t ht x hx
  obtain ⟨b, rfl⟩ := h u hu y hy
  rw [AliasName.text_injective hname]

theorem formula_wellSorted (s : Signature) {f : Formula} (h : ∀ t ∈ f.assertions, s.Proper t) :
    f.WellSorted where
  terms := fun t ht => ⟨(h t ht).wellSorted, (h t ht).sort⟩
  names := s.eq_of_name_eq fun t ht => (h t ht).symbols

-- A clause that was encoded where no result is, reads registered names only.
theorem Encodes.eval_congr {x : Expression} {t : Term} (h : s.Encodes table x t)
    (hresult : s.hasResult = false) (zero : ZeroDivision) {st st' : State}
    (hvars : ∀ name, s.Registered table name → st.vars name = st'.vars name) :
    x.eval zero st = x.eval zero st' := by
  induction h with
  | literal l => rfl
  | reads v h => simp only [Expression.eval, hvars _ h]
  | arithmetic op hl hr ha hb ihl ihr => simp only [Expression.eval, ihl, ihr]
  | logical op hl hr ha hb ihl ihr => simp only [Expression.eval, ihl, ihr]
  | comparison op hl hr ha hb ihl ihr => simp only [Expression.eval, ihl, ihr]
  | not h ha ih => simp only [Expression.eval, ih]
  | negate h ha ih => simp only [Expression.eval, ih]
  | parenthesized h ih => exact ih
  | result hhas h => simp [hresult] at hhas

theorem Encodes.registered {x : Expression} {t : Term} (h : s.Encodes table x t) :
    ∀ v ∈ x.mentioned, s.Registered table v.logicalName := by
  induction h with
  | literal l => simp [Expression.mentioned]
  | reads v h => simpa [Expression.mentioned] using h
  | arithmetic op hl hr ha hb ihl ihr => exact List.forall_mem_append.mpr ⟨ihl, ihr⟩
  | logical op hl hr ha hb ihl ihr => exact List.forall_mem_append.mpr ⟨ihl, ihr⟩
  | comparison op hl hr ha hb ihl ihr => exact List.forall_mem_append.mpr ⟨ihl, ihr⟩
  | not h ha ih => exact ih
  | negate h ha ih => exact ih
  | parenthesized h ih => exact ih
  | result hresult h => simp [Expression.mentioned]

end Signature

end Covenant
