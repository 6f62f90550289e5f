import Covenant.Proofs.Verify.Queries
import Covenant.Proofs.Verify.Soundness

namespace Covenant

namespace ClassModel

variable {c : ClassModel} {m : Method} {e : Encoder} {invariant : Clause} {f : Formula}

namespace InitialEncoding

theorem eq_of_name_eq (h : c.InitialEncoding e) (hquery : InitialQuery e invariant f) :
    ∀ x ∈ f.occurrences, ∀ y ∈ f.occurrences, x.name = y.name → x = y := by
  obtain ⟨t, ht, rfl⟩ := hquery
  refine e.signature.eq_of_name_eq fun u hu => ?_
  rcases List.mem_append.mp hu with hu | hu
  · rw [h.assertions] at hu
    obtain ⟨field, -, rfl⟩ := List.mem_map.mp hu
    simp [Field.initialEquation, Term.symbols, Field.symbols_initialValue]
  · rw [List.mem_singleton.mp hu]
    exact ht.proper.symbols

-- An initializer goes into its equation as it is, whatever the sort of the field.
theorem wellSorted_iff (h : c.InitialEncoding e) (hquery : InitialQuery e invariant f) :
    f.WellSorted ↔ c.InitializersSorted := by
  refine ⟨fun hf field hfield l hl => ?_, fun hinit => h.query_wellSorted hinit hquery⟩
  obtain ⟨t, -, rfl⟩ := hquery
  obtain ⟨sort, htype, hsort⟩ := h.declares.sorts _ (List.mem_map_of_mem hfield)
  have hmem : field.initialEquation e.signature ∈ e.assertions ++ [.not t] := by
    rw [h.assertions]
    exact List.mem_append_left _ (List.mem_map_of_mem hfield)
  have hsides : (e.signature.symbolOf ⟨field.logicalName, 0⟩).sort = field.initialValue.sort :=
    (hf.terms _ hmem).1.2.2
  have hinitial : field.initialExact = l.exact := by
    rw [Option.mem_def] at hl
    simp [Field.initialExact, hl]
  rw [Signature.sort_symbolOf hsort, Field.sort_initialValue, hinitial] at hsides
  rw [htype, hsides]

end InitialEncoding

-- What a method asks is well-sorted: each part of it was checked where it was built.
theorem wellSorted_of_mem_methodObligations {o : Obligation} (ho : o ∈ c.methodObligations m)
    (hf : o.query = .ok f) : f.WellSorted := by
  rcases of_mem_methodObligations ho with ⟨first, rest, rfl⟩ | ⟨r, -, rfl⟩ | ⟨r, -, rfl⟩
  · obtain ⟨s, e, e', after, hencoding, rfl⟩ := map_ofMethod_eq_ok hf
    exact s.signature.formula_wellSorted hencoding.proper_precondition
  · obtain ⟨s, e, e', after, hencoding, hquery⟩ := bind_ofMethod_eq_ok hf
    exact s.signature.formula_wellSorted
      (hencoding.proper_query (MethodState.ensureQuery_eq_ok hquery))
  · obtain ⟨s, e, e', after, hencoding, hquery⟩ := bind_ofMethod_eq_ok hf
    exact s.signature.formula_wellSorted
      (hencoding.proper_query (MethodState.preservationQuery_eq_ok hquery))

theorem initialQuery_of_mem {o : Obligation} (ho : o ∈ c.initialObligations)
    (hf : o.query = .ok f) : ∃ e invariant, c.InitialEncoding e ∧ InitialQuery e invariant f := by
  obtain ⟨invariant, -, rfl⟩ := List.mem_map.mp ho
  obtain ⟨e, hencoding, hquery⟩ := initialQuery_eq_ok hf
  exact ⟨e, invariant, hencoding, hquery⟩

theorem eq_of_name_eq_of_mem_obligations {o : Obligation} (ho : o ∈ c.obligations)
    (hf : o.query = .ok f) :
    ∀ x ∈ f.occurrences, ∀ y ∈ f.occurrences, x.name = y.name → x = y := by
  rcases mem_obligations.mp ho with ho | ⟨m, -, ho⟩
  · obtain ⟨e, invariant, hencoding, hquery⟩ := initialQuery_of_mem ho hf
    exact hencoding.eq_of_name_eq hquery
  · exact (wellSorted_of_mem_methodObligations ho hf).names

theorem forall_query_wellSorted_iff :
    (∀ o ∈ c.obligations, ∀ f, o.query = .ok f → f.WellSorted) ↔
      c.InitializersSorted ∨ ∀ o ∈ c.initialObligations, ∃ error, o.query = .error error := by
  constructor
  · intro hall
    by_cases hinit : c.InitializersSorted
    · exact .inl hinit
    · right
      intro o ho
      cases hf : o.query with
      | error error => exact ⟨error, rfl⟩
      | ok f =>
          obtain ⟨e, invariant, hencoding, hquery⟩ := initialQuery_of_mem ho hf
          have hws := hall o (mem_obligations.mpr (.inl ho)) f hf
          exact absurd ((hencoding.wellSorted_iff hquery).mp hws) hinit
  · intro hinit o ho f hf
    rcases mem_obligations.mp ho with ho | ⟨m, -, ho⟩
    · obtain ⟨e, invariant, hencoding, hquery⟩ := initialQuery_of_mem ho hf
      rcases hinit with hinit | hnone
      · exact (hencoding.wellSorted_iff hquery).mpr hinit
      · obtain ⟨error, herror⟩ := hnone o ho
        rw [hf] at herror
        cases herror
    · exact wellSorted_of_mem_methodObligations ho hf

-- Each name has one sort in a query, and the queries of methods are well-sorted. A query about the
-- initial values is well-sorted only if the initializers are literals of the types of their fields.
theorem queries_wellSorted_iff (solver : Solver σ) (emitSmt : Bool) (hsealed : c.isSealed = true)
    (hsupported : c.firstUnsupported = none) (s : σ) :
    (∀ f ∈ c.queries solver emitSmt s, ∀ x ∈ f.occurrences, ∀ y ∈ f.occurrences,
      x.name = y.name → x = y) ∧
    (∀ m ∈ c.supportedMethods, ∀ o ∈ c.methodObligations m, ∀ f, o.query = .ok f →
      f ∈ c.queries solver emitSmt s ∧ f.WellSorted) ∧
    ((∀ f ∈ c.queries solver emitSmt s, f.WellSorted) ↔
      c.InitializersSorted ∨ ∀ o ∈ c.initialObligations, ∃ error, o.query = .error error) := by
  have hqueries : ∀ f, f ∈ c.queries solver emitSmt s ↔ ∃ o ∈ c.obligations, o.query = .ok f := by
    intro f
    rw [c.queries_of_gates solver emitSmt hsealed hsupported, Obligation.mem_queries]
  refine ⟨?_, ?_, ?_⟩
  · intro f hf
    obtain ⟨o, ho, hf⟩ := (hqueries f).mp hf
    exact eq_of_name_eq_of_mem_obligations ho hf
  · intro m hm o ho f hf
    exact ⟨(hqueries f).mpr ⟨o, mem_obligations.mpr (.inr ⟨m, hm, ho⟩), hf⟩,
      wellSorted_of_mem_methodObligations ho hf⟩
  · rw [← forall_query_wellSorted_iff]
    simp only [hqueries]
    exact ⟨fun h o ho f hf => h f ⟨o, ho, hf⟩, fun h f ⟨o, ho, hf⟩ => h o ho f hf⟩

theorem queries_wellSorted_iff_door :
    (Door.model.queries (.bounded ⟨1, 64⟩) false ()).length = 4 ∧
      ∀ f ∈ Door.model.queries (.bounded ⟨1, 64⟩) false (), f.WellSorted := by
  have hqueries := queries_wellSorted_iff (.bounded ⟨1, 64⟩) false (c := Door.model) (by decide)
    (by decide) ()
  exact ⟨by decide +kernel, hqueries.2.2.mpr (.inl (by decide))⟩

end ClassModel

namespace Meter

-- int reading = true;
def reading : Field := ⟨"reading", .named "int" false, some (.bool true), "Meter", none, default⟩

def nonZero : Clause :=
  .supported "reading != 0"
    (.comparison .unequal (.variable (.field reading)) (.literal (.int 0))) default

def model : ClassModel :=
  ⟨"Meter", ⟨[.supported reading], .ofList [("reading", 0)], true⟩, .sealedEmpty, [nonZero],
    default⟩

end Meter

-- Nothing refuses an integer field that starts at true, and the bounded search then calls the class
-- verified.
theorem ClassModel.ill_sorted_query_meter :
    Meter.model.isSealed = true ∧ Meter.model.firstUnsupported = none ∧
      (∃ f ∈ Meter.model.queries (.bounded ⟨1, 64⟩) false (), ¬f.WellSorted) ∧
      exitCode [(Meter.model.verify (.bounded ⟨1, 64⟩) false ()).1] = 0 := by
  have hsealed : Meter.model.isSealed = true := by decide
  have hsupported : Meter.model.firstUnsupported = none := by decide
  have hok : (initialQuery Meter.model.initialState Meter.nonZero).isOk = true := by decide +kernel
  refine ⟨hsealed, hsupported, ?_, by decide +kernel⟩
  cases hf : initialQuery Meter.model.initialState Meter.nonZero with
  | error error => simp [hf, Except.isOk, Except.toBool] at hok
  | ok f =>
      obtain ⟨e, hencoding, hquery⟩ := initialQuery_eq_ok hf
      refine ⟨f, ?_, fun hws => ?_⟩
      · rw [queries_of_gates _ _ _ hsealed hsupported, Obligation.mem_queries]
        exact ⟨_, mem_obligations.mpr (.inl (mem_initialObligations List.mem_cons_self)), hf⟩
      · exact absurd ((hencoding.wellSorted_iff hquery).mp hws) (by decide)

end Covenant
