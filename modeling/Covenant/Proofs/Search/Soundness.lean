import Covenant.Proofs.Search.Exhaustive

namespace Covenant.Search

-- Each boolean symbol takes the value that a satisfying valuation has for it in some candidate, and
-- that candidate does not fail. Integers are not enumerated in a search that proves.
theorem unsatisfiable_of_check {bounds : Bounds} {f : Formula}
    (hnames : ∀ s ∈ f.occurrences, ∀ other ∈ f.occurrences, s.name = other.name → s = other)
    (h : check bounds f = .proved) : f.Unsatisfiable := by
  intro zero ν hholds
  obtain ⟨-, hfruitless, hstalled, hbool⟩ := (decides_check bounds f).proved.mp h
  let env : Env := (Plan.ofFormula f).free.map fun s => (s.name, .bool (ν.bool s.name))
  have hmem : env ∈ tried bounds.radius f := by
    refine mem_candidates.mpr (List.forall₂_map_right_iff.mpr (List.forall₂_same.mpr fun s hs => ?_))
    rw [hbool s hs]
    cases ν.bool s.name <;> simp [values]
  have henv : env.Agrees ν f.occurrences := by
    intro s hs v hv
    obtain ⟨other, hother, hpair⟩ := List.mem_map.mp (NameMap.mem_of_lookup hv)
    obtain ⟨hname, rfl⟩ := Prod.mk.inj hpair
    have hsame : other = s := hnames other (Plan.mem_free hother).1 s hs hname
    rw [← hsame, Valuation.get, hbool other hother]
    rfl
  cases htrial : attempt env (Plan.ofFormula f).steps with
  | holds env' => exact hfruitless env hmem env' (attempt_eq_holds.mp htrial)
  | fails => exact attempt_ne_fails hnames (fun s hs => hs) hholds henv htrial
  | undetermined =>
      have hnone := List.countP_eq_zero.mp hstalled env hmem
      exact hnone (decide_eq_true (attempt_eq_undetermined.mp htrial))

end Covenant.Search

namespace Covenant

-- The search works with 64-bit integers in a finite window, and yet what it proves holds for all
-- integers.
theorem Solver.bounded_proved_unsatisfiable (bounds : Search.Bounds) (f : Formula)
    (hf : f.WellSorted) (h : ((Solver.bounded bounds).check f ()).1 = .ok .proved)
    (zero : ZeroDivision) (ν : Valuation) : ¬ f.Holds zero ν := by
  have hcheck : Search.check bounds f = .proved := Except.ok.inj h
  exact Search.unsatisfiable_of_check hf.names hcheck zero ν

-- An integer that is defined, and a boolean that is tried both ways.
theorem Solver.bounded_proved_unsatisfiable_defined :
    ((Solver.bounded .standard).check
      ⟨[.eq (.var ⟨"n@1", .int⟩) (.int 5), .var ⟨"b@0", .bool⟩,
        .eq (.var ⟨"b@0", .bool⟩) (.order .lt (.var ⟨"n@1", .int⟩) (.int 5))]⟩ ()).1 = .ok .proved ∧
    ¬ Formula.Holds (fun _ => 0) ⟨fun _ => 5, fun _ => true⟩
      ⟨[.eq (.var ⟨"n@1", .int⟩) (.int 5), .var ⟨"b@0", .bool⟩,
        .eq (.var ⟨"b@0", .bool⟩) (.order .lt (.var ⟨"n@1", .int⟩) (.int 5))]⟩ := by
  have hproved : ((Solver.bounded .standard).check
      ⟨[.eq (.var ⟨"n@1", .int⟩) (.int 5), .var ⟨"b@0", .bool⟩,
        .eq (.var ⟨"b@0", .bool⟩) (.order .lt (.var ⟨"n@1", .int⟩) (.int 5))]⟩ ()).1 =
      .ok .proved := by decide +kernel
  refine ⟨hproved, bounded_proved_unsatisfiable _ _ ⟨?_, by decide⟩ hproved _ _⟩
  simp [Term.WellSorted, Term.sort]

end Covenant
