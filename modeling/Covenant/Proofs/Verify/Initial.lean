import Covenant.Proofs.Verify.Method

namespace Covenant

open Encode

namespace TypeRef

theorem isBoolean_of_isIntegral {t : TypeRef} (h : t.isIntegral = true) : t.isBoolean = false := by
  have hdisjoint : ∀ name ∈ integralNames, name ∉ booleanNames := by decide
  match t with
  | .named name false => simpa [isBoolean] using hdisjoint name (by simpa [isIntegral] using h)
  | .named _ true | .other => rfl

end TypeRef

namespace Field

-- A field without an initializer starts at the value that its type has for this.
theorem sort_initialExact {f : Field} {sort : TermSort} (htype : f.type.sort? = some sort)
    (h : ∀ l ∈ f.initializer, f.type.sort? = some l.exact.sort) :
    f.initialExact.sort = sort := by
  unfold initialExact
  split
  · rename_i l hl
    exact Option.some.inj ((h l hl).symm.trans htype)
  · unfold TypeRef.sort? at htype
    split at htype
    · rename_i hintegral
      cases htype
      rw [TypeRef.isBoolean_of_isIntegral hintegral]
      rfl
    · split at htype
      · rename_i hboolean
        cases htype
        rw [hboolean]
        rfl
      · cases htype

theorem value_initialValue (f : Field) (zero : ZeroDivision) (ν : Valuation) :
    f.initialValue.value zero ν = f.initialExact := by
  unfold initialValue initialExact
  split <;> simp_all [Term.value, Literal.exact]
  split <;> simp [Term.value]

theorem sort_initialValue (f : Field) : f.initialValue.sort = f.initialExact.sort := by
  unfold initialValue initialExact
  split <;> simp_all [Term.sort, Literal.exact, Exact.sort]
  split <;> simp [Term.sort]

theorem initialValue_wellSorted (f : Field) : f.initialValue.WellSorted := by
  unfold initialValue
  split
  · trivial
  · trivial
  · split <;> trivial

theorem symbols_initialValue (f : Field) : f.initialValue.symbols = [] := by
  unfold initialValue
  split
  · rfl
  · rfl
  · split <;> rfl

-- The equation that gives a field its initial value.
def initialEquation (f : Field) (s : Signature) : Term :=
  .eq (.var (s.symbolOf ⟨f.logicalName, 0⟩)) f.initialValue

end Field

theorem initialFields_ok {e e' : Encoder} {names : List (String × TypeRef)} {u : Unit}
    (fields : List Field) (h : e.Declares names) (hinit : initialFields fields e = .ok u e') :
    e'.Declares (names ++ fields.map fun f => (f.logicalName, f.type)) ∧
      e'.signature.hasResult = e.signature.hasResult ∧
      (∀ name ∈ names.map Prod.fst,
        e'.signature.sorts.get? name = e.signature.sorts.get? name) ∧
      e'.assertions = e.assertions ++ fields.map fun f => f.initialEquation e'.signature := by
  induction fields generalizing e names with
  | nil =>
      obtain ⟨-, rfl⟩ := pure_ok.mp hinit
      simpa using h
  | cons f rest ih =>
      simp only [initialFields, bind_ok, symbol_ok, assert_ok] at hinit
      obtain ⟨a, e₁, hdeclare, t, e₂, ⟨⟨-, rfl⟩, rfl⟩, v, e₃, rfl, hrest⟩ := hinit
      obtain ⟨hname, rfl, hdeclares, hresult, hothers, hassertions⟩ := declare_ok h hdeclare
      obtain ⟨hdeclares', hresult', hothers', hassertions'⟩ :=
        ih (hdeclares.withAssertions _) hrest
      refine ⟨?_, hresult'.trans hresult, fun name hmem => ?_, ?_⟩
      · simpa using hdeclares'
      · rw [hothers' name (by simp [hmem])]
        exact hothers name fun heq => hname (heq ▸ hmem)
      · have hsort := hothers' f.logicalName (by simp)
        simp [hassertions', hassertions, Field.initialEquation, Signature.symbolOf, hsort]

namespace ClassModel

-- How the fields are encoded at their initial values.
structure InitialEncoding (c : ClassModel) (e : Encoder) : Prop where
  declares : e.Declares c.fieldNames
  hasResult : e.signature.hasResult = false
  assertions : e.assertions = c.supportedFields.map fun f => f.initialEquation e.signature

theorem initialState_eq_ok {c : ClassModel} {e : Encoder} (h : c.initialState = .ok e) :
    c.InitialEncoding e := by
  unfold initialState at h
  split at h
  · rename_i e' hinit
    cases h
    obtain ⟨hdeclares, hresult, -, hassertions⟩ :=
      initialFields_ok c.supportedFields Encoder.declares_empty hinit
    exact ⟨hdeclares, hresult, hassertions⟩
  · cases h

-- A query about the initial values: it has a model when the invariant fails on them.
def InitialQuery (e : Encoder) (invariant : Clause) (f : Formula) : Prop :=
  ∃ t, e.signature.EncodesClause e.table invariant t ∧ f = ⟨e.assertions ++ [.not t]⟩

theorem initialQuery_eq_ok {c : ClassModel} {invariant : Clause} {f : Formula}
    (h : initialQuery c.initialState invariant = .ok f) :
    ∃ e, c.InitialEncoding e ∧ InitialQuery e invariant f := by
  simp only [initialQuery, bind_eq_ok] at h
  obtain ⟨e, he, t, ht, hf⟩ := h
  cases hf
  exact ⟨e, initialState_eq_ok he, t, Signature.clause_eq_ok ht, rfl⟩

namespace InitialEncoding

variable {c : ClassModel} {e : Encoder} {invariant : Clause} {f : Formula} {zero : ZeroDivision}
variable {fields : String → Exact} {ν : Valuation}

-- An invariant that is encoded for the initial values mentions fields only.
theorem mentioned_mem (h : c.InitialEncoding e) (hquery : InitialQuery e invariant f) :
    ∀ v ∈ invariant.mentioned, v.logicalName ∈ c.fieldNames.map Prod.fst := by
  obtain ⟨t, ⟨text, x, location, rfl, hx, -⟩, -⟩ := hquery
  intro v hv
  obtain ⟨⟨g, hg⟩, -⟩ := hx.registered v hv
  exact h.declares.mem_of_get? hg

-- Between calls, an invariant depends on the fields only.
theorem eval_congr (h : c.InitialEncoding e) (hquery : InitialQuery e invariant f)
    {st st' : State} (hst : ∀ p ∈ c.fieldNames, st.vars p.1 = st'.vars p.1) :
    invariant.eval zero st = invariant.eval zero st' := by
  obtain ⟨t, ⟨text, x, location, rfl, hx, -⟩, -⟩ := hquery
  refine hx.eval_congr h.hasResult zero fun name hname => ?_
  obtain ⟨⟨g, hg⟩, -⟩ := hname
  obtain ⟨p, hp, rfl⟩ := List.mem_map.mp (h.declares.mem_of_get? hg)
  exact hst p hp

theorem sort_initialExact (h : c.InitialEncoding e) (hinit : c.InitializersSorted) {field : Field}
    (hfield : field ∈ c.supportedFields) :
    field.type.sort? = some field.initialExact.sort ∧
      field.initialExact.sort = (e.signature.symbolOf ⟨field.logicalName, 0⟩).sort := by
  obtain ⟨sort, htype, hsort⟩ := h.declares.sorts _ (List.mem_map_of_mem hfield)
  rw [Signature.sort_symbolOf hsort, Field.sort_initialExact htype (hinit field hfield)]
  exact ⟨htype, rfl⟩

theorem query_wellSorted (h : c.InitialEncoding e) (hinit : c.InitializersSorted)
    (hquery : InitialQuery e invariant f) : f.WellSorted := by
  obtain ⟨t, ht, rfl⟩ := hquery
  refine e.signature.formula_wellSorted fun u hu => ?_
  rcases List.mem_append.mp hu with hu | hu
  · rw [h.assertions] at hu
    obtain ⟨field, hfield, rfl⟩ := List.mem_map.mp hu
    refine ⟨⟨trivial, field.initialValue_wellSorted, ?_⟩, rfl, ?_⟩
    · rw [Field.sort_initialValue]
      exact (h.sort_initialExact hinit hfield).2.symm
    · simp [Field.initialEquation, Term.symbols, Field.symbols_initialValue]
  · rw [List.mem_singleton.mp hu]
    exact ht.proper.not

theorem holds_iff (h : c.InitialEncoding e) : e.Holds zero ν ↔
    ∀ field ∈ c.supportedFields,
      ν.get (e.signature.symbolOf ⟨field.logicalName, 0⟩) = field.initialExact := by
  simp only [Encoder.Holds, h.assertions, List.forall_mem_map]
  refine forall₂_congr fun field _ => (Term.value_eq_true zero).trans ?_
  rw [Field.value_initialValue]
  rfl

theorem represents (h : c.InitialEncoding e) (hν : e.Holds zero ν) (hfields : c.Initial fields) :
    Represents (c.fieldNames.map Prod.fst) e.signature e.table ν ⟨fields, none⟩ where
  vars := by
    simp only [fieldNames, List.map_map, List.forall_mem_map, h.declares.latest]
    intro field hfield
    exact (h.holds_iff.mp hν field hfield).trans (hfields field hfield).symm
  result := by simp [h.hasResult]

-- A model of the query shows that the invariant fails on the initial values.
theorem fails_of_holds (h : c.InitialEncoding e) (hquery : InitialQuery e invariant f)
    (hν : f.Holds zero ν) (hfields : c.Initial fields) : invariant.Fails zero ⟨fields, none⟩ := by
  have hvars := h.mentioned_mem hquery
  obtain ⟨t, ht, rfl⟩ := hquery
  simp only [Formula.Holds, List.forall_mem_append, List.forall_mem_singleton] at hν
  exact (ht.fails_iff (h.represents hν.1 hfields) hvars).mpr hν.2

-- Where the query has no model, the invariant holds on the initial values.
theorem holds_of_unsatisfiable (h : c.InitialEncoding e) (hinit : c.InitializersSorted)
    (hquery : InitialQuery e invariant f) (hf : f.Unsatisfiable) (hfields : c.Initial fields) :
    invariant.Holds zero ⟨fields, none⟩ := by
  have hvars := h.mentioned_mem hquery
  obtain ⟨t, ht, rfl⟩ := hquery
  have hν : e.Holds zero (.ofNames fields) := by
    refine h.holds_iff.mpr fun field hfield => ?_
    rw [Valuation.get_ofNames, hfields field hfield]
    rw [hfields field hfield]
    exact (h.sort_initialExact hinit hfield).2
  refine ht.holds_of_not_fails (h.represents hν hfields) hvars fun hfails =>
    hf zero (.ofNames fields) ?_
  simp only [Formula.Holds, List.forall_mem_append, List.forall_mem_singleton]
  exact ⟨hν, hfails⟩

end InitialEncoding

end ClassModel

end Covenant
