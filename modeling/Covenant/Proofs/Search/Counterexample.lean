import Covenant.Proofs.Search.Exhaustive

namespace Covenant

namespace Search

-- What a counterexample is made of: a value for each name of the formula and for no other, under
-- which every assertion evaluates to true.
structure Models (f : Formula) (model : Assignment) (env : Env) : Prop where
  get? : ∀ name, model.get? name = (env.lookup name).map Scalar.toValue
  names : ∀ name, (∃ v, env.lookup name = some v) ↔ ∃ s ∈ f.occurrences, s.name = name
  evaluates : ∀ t ∈ f.assertions, t.eval env = some (.bool true)

-- A counterexample whose values have the sorts of their symbols.
structure Found (f : Formula) (model : Assignment) (env : Env) : Prop extends Models f model env where
  sorted : env.Sorted f.occurrences

theorem sorted_of_mem_tried {radius : UInt32} {f : Formula} (hf : f.WellSorted) {env : Env}
    (h : env ∈ tried radius f) : env.Sorted f.occurrences := by
  intro s hs v hv
  obtain ⟨other, hother, hname, hvalue⟩ := exists_of_mem_candidates h (NameMap.mem_of_lookup hv)
  rw [sort_of_mem_values hvalue, hf.names other (Plan.mem_free hother).1 s hs hname]

theorem models_of_check {bounds : Bounds} {f : Formula} {model : Assignment}
    (h : check bounds f = .counterexample model) :
    ∃ env, Models f model env ∧ (f.WellSorted → env.Sorted f.occurrences) := by
  obtain ⟨-, env, ⟨before, start, after, hsplit, -, hholds⟩, hget⟩ :=
    ((decides_check bounds f).found model).mp h
  have hstart : start ∈ tried bounds.radius f := by simp [hsplit]
  have hfst := map_fst_of_mem_candidates hstart
  have hcovered : Covered [] start f.assertions := fun name hname => .inr (hfst ▸ hname)
  refine ⟨env, ⟨hget, fun name => ?_, hholds.passes.evaluates hcovered⟩, fun hf => ?_⟩
  · rw [NameMap.exists_lookup_iff, (hholds.passes.perm_names hfst).mem_iff, Plan.ofFormula,
      Plan.mem_names]
    simp [Formula.occurrences]
  · exact hholds.passes.sorted hf.names (fun s hs => hs) (fun t ht => (hf.terms t ht).1)
      (sorted_of_mem_tried hf hstart)

theorem check_eq_counterexample {bounds : Bounds} {f : Formula} {model : Assignment}
    (hf : f.WellSorted) (h : check bounds f = .counterexample model) : ∃ env, Found f model env := by
  obtain ⟨env, hmodels, hsorted⟩ := models_of_check h
  exact ⟨env, hmodels, hsorted hf⟩

-- A counterexample satisfies the formula over all integers, whatever the valuation has elsewhere.
theorem Found.holds {f : Formula} {model : Assignment} {env : Env} (h : Found f model env)
    (zero : ZeroDivision) (ν : Valuation) : f.Holds zero (env.complete ν) := by
  intro t ht
  have hagrees := (Env.agrees_complete ν h.sorted).mono fun s hs => List.mem_flatMap.mpr ⟨t, ht, hs⟩
  exact Term.value_of_eval zero t hagrees (h.evaluates t ht)

end Search

-- A counterexample is a model: it has a value for each name of the formula and for no other, and
-- makes every assertion true. Where sorts are right, it does so over all integers.
theorem Solver.bounded_counterexample_models (bounds : Search.Bounds) {f : Formula}
    {model : Assignment} (h : ((Solver.bounded bounds).check f ()).1 = .ok (.counterexample model)) :
    (∀ name, name ∈ model.names ↔ ∃ s ∈ f.occurrences, s.name = name) ∧
    ∃ env : Env, (∀ name, model.get? name = (env.lookup name).map Scalar.toValue) ∧
      (∀ t ∈ f.assertions, t.eval env = some (.bool true)) ∧
      (f.WellSorted →
        (∀ s ∈ f.occurrences, ∃ v, env.lookup s.name = some v ∧ v.sort = s.sort) ∧
        ∀ zero ν, f.Holds zero (env.complete ν)) := by
  have hcheck : Search.check bounds f = .counterexample model := Except.ok.inj h
  obtain ⟨env, hmodels, hsorted⟩ := Search.models_of_check hcheck
  refine ⟨fun name => ?_, env, hmodels.get?, hmodels.evaluates, fun hf => ⟨fun s hs => ?_, ?_⟩⟩
  · rw [NameMap.mem_names, ← hmodels.names]
    simp [hmodels.get?]
  · obtain ⟨v, hv⟩ := (hmodels.names s.name).mpr ⟨s, hs, rfl⟩
    exact ⟨v, hv, hsorted hf s hs v hv⟩
  · exact Search.Found.holds ⟨hmodels, hsorted hf⟩

namespace Search

-- n@1 is defined through m@0, which has not appeared, and restricted by a second equation. The
-- equation of k@0 does not define it, since it stands on both sides.
def chained : Formula :=
  let m := Term.var ⟨"m@0", .int⟩
  let n := Term.var ⟨"n@1", .int⟩
  let k := Term.var ⟨"k@0", .int⟩
  ⟨[.eq n (.arith .add m (.int 1)), .eq n (.int 3), .eq k (.arith .mul k k),
    .eq (.var ⟨"b@1", .bool⟩) (.order .lt m n)]⟩

def chainedModel : Assignment :=
  .ofList [("b@1", .bool true), ("k@0", .int 0), ("m@0", .int 2), ("n@1", .int 3)]

end Search

theorem Solver.bounded_counterexample_models_chained :
    ((Solver.bounded ⟨2, 100⟩).check Search.chained ()).1 =
      .ok (.counterexample Search.chainedModel) ∧
    (∀ name, name ∈ Search.chainedModel.names ↔
      ∃ s ∈ Search.chained.occurrences, s.name = name) ∧
    ∃ env : Env,
      (∀ name, Search.chainedModel.get? name = (env.lookup name).map Scalar.toValue) ∧
      (∀ t ∈ Search.chained.assertions, t.eval env = some (.bool true)) ∧
      ∀ zero ν, Search.chained.Holds zero (env.complete ν) := by
  have hfound : ((Solver.bounded ⟨2, 100⟩).check Search.chained ()).1 =
      .ok (.counterexample Search.chainedModel) := by decide +kernel
  have hsorted : Search.chained.WellSorted :=
    ⟨by simp [Search.chained, Term.WellSorted, Term.sort], by decide⟩
  obtain ⟨hnames, env, hget, heval, hexact⟩ := bounded_counterexample_models ⟨2, 100⟩ hfound
  exact ⟨hfound, hnames, env, hget, heval, (hexact hsorted).2⟩

end Covenant
