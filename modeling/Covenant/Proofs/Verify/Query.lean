import Covenant.Proofs.Verify.Method

namespace Covenant

open Statement

namespace MethodState

-- A query about a run that starts where the clauses on the left hold: it has a model when the clause
-- on the right fails at the end.
def Query (s : MethodState) (assumed : List Clause) (clause : Clause) (f : Formula) : Prop :=
  ∃ pres post, List.Forall₂ (s.signature.EncodesClause s.entry) assumed pres ∧
    s.signature.EncodesClause s.exit clause post ∧ f = ⟨s.requires ++ pres ++ s.body ++ [.not post]⟩

theorem ensureQuery_eq_ok {s : MethodState} {clause : Clause} {f : Formula}
    (h : s.ensureQuery clause = .ok f) : s.Query [] clause f := by
  simp only [ensureQuery, bind_eq_ok] at h
  obtain ⟨post, hpost, hf⟩ := h
  cases hf
  exact ⟨[], post, .nil, Signature.clause_eq_ok hpost, by simp⟩

theorem preservationQuery_eq_ok {s : MethodState} {invariant : Clause} {f : Formula}
    (h : s.preservationQuery invariant = .ok f) : s.Query [invariant] invariant f := by
  simp only [preservationQuery, bind_eq_ok] at h
  obtain ⟨pre, hpre, post, hpost, hf⟩ := h
  cases hf
  exact ⟨[pre], post, .cons (Signature.clause_eq_ok hpre) .nil, Signature.clause_eq_ok hpost, rfl⟩

namespace Encoding

variable {c : ClassModel} {m : Method} {s : MethodState} {e e' : Encoder} {after : Bool}
variable {assumed : List Clause} {clause : Clause} {f : Formula}
variable {zero : ZeroDivision} {μ : Valuation} {st : State}

theorem proper_precondition (h : Encoding c m s e e' after) :
    ∀ t ∈ s.preconditionQuery.assertions, s.signature.Proper t := Signature.forall_proper h.requires

theorem proper_query (h : Encoding c m s e e' after) (hquery : s.Query assumed clause f) :
    ∀ t ∈ f.assertions, s.signature.Proper t := by
  obtain ⟨pres, post, hpres, hpost, rfl⟩ := hquery
  intro t ht
  simp only [List.mem_append, List.mem_singleton] at ht
  rcases ht with ((ht | ht) | ht) | rfl
  · exact Signature.forall_proper h.requires t ht
  · exact Signature.forall_proper hpres t ht
  · exact h.proper_body t ht
  · exact hpost.proper.not

theorem requires_iff (h : Encoding c m s e e' after) (hc : c.WellScoped)
    (hm : m ∈ c.supportedMethods) (hst : Represents (c.scope m) s.signature s.entry μ st) :
    (∀ r ∈ m.requires, r.Holds zero st) ↔ s.preconditionQuery.Holds zero μ :=
  Signature.forall_holds_iff h.requires hst (hc.requires m hm)

-- A model of the query is a run that breaks the clause.
theorem breaks_of_holds (h : Encoding c m s e e' after) (hquery : s.Query assumed clause f)
    (hc : c.WellScoped) (hm : m ∈ c.supportedMethods)
    (hassumed : ∀ r ∈ assumed, ∀ v ∈ r.mentioned, v.logicalName ∈ c.scope m)
    (hclause : ∀ v ∈ clause.mentioned, v.logicalName ∈ c.scope m)
    (hst : Represents (c.scope m) s.signature s.entry μ st) (hμ : f.Holds zero μ) :
    (∀ r ∈ m.requires, r.Holds zero st) ∧ (∀ r ∈ assumed, r.Holds zero st) ∧
      ∃ exit returned, execBlock zero m.body st = some (exit, returned) ∧
        clause.Fails zero exit := by
  obtain ⟨pres, post, hpres, hpost, rfl⟩ := hquery
  simp only [Formula.Holds, List.forall_mem_append, List.forall_mem_singleton] at hμ
  obtain ⟨⟨⟨hμrequires, hμpres⟩, hμbody⟩, hμpost⟩ := hμ
  obtain ⟨exit, returned, hrun, hexit⟩ := h.run (hc.body m hm) hμbody hst
  exact ⟨(h.requires_iff hc hm hst).mpr hμrequires,
    (Signature.forall_holds_iff hpres hst hassumed).mpr hμpres,
    exit, returned, hrun, (hpost.fails_iff hexit hclause).mpr hμpost⟩

-- Where the query has no model, each run ends with the clause.
theorem holds_of_unsatisfiable (h : Encoding c m s e e' after) (hquery : s.Query assumed clause f)
    (hc : c.WellScoped) (hm : m ∈ c.supportedMethods)
    (hassumed : ∀ r ∈ assumed, ∀ v ∈ r.mentioned, v.logicalName ∈ c.scope m)
    (hclause : ∀ v ∈ clause.mentioned, v.logicalName ∈ c.scope m)
    (hf : f.Unsatisfiable) (hst : c.Entry m st) (hst' : ∀ r ∈ m.requires, r.Holds zero st)
    (hst'' : ∀ r ∈ assumed, r.Holds zero st) :
    ∃ exit returned, execBlock zero m.body st = some (exit, returned) ∧ clause.Holds zero exit ∧
      ∀ p ∈ c.methodNames m, p.2.sort? = some (exit.vars p.1).sort := by
  obtain ⟨pres, post, hpres, hpost, rfl⟩ := hquery
  obtain ⟨μ, hμ, hentry⟩ := h.exists_solution zero hst
  obtain ⟨exit, returned, hrun, hexit⟩ := h.run (hc.body m hm) hμ hentry
  refine ⟨exit, returned, hrun, ?_, h.sort_exit hexit⟩
  refine hpost.holds_of_not_fails hexit hclause fun hfails => hf zero μ ?_
  simp only [Formula.Holds, List.forall_mem_append, List.forall_mem_singleton]
  exact ⟨⟨⟨(h.requires_iff hc hm hentry).mp hst',
    (Signature.forall_holds_iff hpres hentry hassumed).mp hst''⟩, hμ⟩, hfails⟩

end Encoding

end MethodState

end Covenant
