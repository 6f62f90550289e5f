import Covenant.Proofs.Search.Exhaustive

namespace Covenant.Search

variable {radius wider : UInt32} {f : Formula}

-- A wider window takes in what was tried outside a narrower one, or leaves it outside.
theorem mem_integers_of_le {radius wider : Nat} (hle : radius ≤ wider) {n : Int}
    (h : n ∈ integers radius f) : n ∈ integers wider f := by
  rw [mem_integers] at h ⊢
  by_cases hwithin : n.natAbs ≤ wider
  · exact .inl hwithin
  · rcases h with hnarrow | ⟨hnear, hbounds, -⟩
    · omega
    · exact .inr ⟨hnear, hbounds, by omega⟩

theorem mem_values_of_le (hle : radius ≤ wider) {sort : TermSort} {v : Scalar}
    (h : v ∈ values radius f sort) : v ∈ values wider f sort := by
  cases sort with
  | bool => exact h
  | int =>
      obtain ⟨n, hn, rfl⟩ := List.mem_map.mp h
      exact List.mem_map_of_mem (mem_integers_of_le (UInt32.le_iff_toNat_le.mp hle) hn)

theorem mem_tried_of_le (hle : radius ≤ wider) {env : Env} (h : env ∈ tried radius f) :
    env ∈ tried wider f := by
  rw [tried, mem_candidates] at h ⊢
  exact h.imp fun s entry hentry => ⟨hentry.1, mem_values_of_le hle hentry.2⟩

theorem candidates_congr {choice other : TermSort → List Scalar} {free : List Symbol}
    (h : ∀ s ∈ free, choice s.sort = other s.sort) :
    candidates choice free = candidates other free := by
  induction free with
  | nil => rfl
  | cons s free ih =>
      rw [List.forall_mem_cons] at h
      simp only [candidates, h.1, ih h.2]

-- Booleans are tried both ways whatever the radius.
theorem tried_eq_of_bool (hfree : ∀ s ∈ (Plan.ofFormula f).free, s.sort = .bool)
    (radius wider : UInt32) : tried radius f = tried wider f := by
  refine candidates_congr fun s hs => ?_
  rw [hfree s hs]
  rfl

theorem exists_first (h : ¬Fruitless radius f) : ∃ env, First radius f env := by
  classical
  obtain ⟨env, henv, hholds⟩ :
      ∃ env ∈ tried radius f, ∃ env', Succeeds env (Plan.ofFormula f).steps env' := by
    simpa [Fruitless] using h
  have hsome : ((tried radius f).find? fun env =>
      ∃ env', Succeeds env (Plan.ofFormula f).steps env').isSome = true :=
    List.find?_isSome.mpr ⟨env, henv, decide_eq_true hholds⟩
  obtain ⟨start, hstart⟩ := Option.isSome_iff_exists.mp hsome
  obtain ⟨hfirst, before, after, hsplit, hbefore⟩ := List.find?_eq_some_iff_append.mp hstart
  obtain ⟨env', hholds'⟩ := of_decide_eq_true hfirst
  exact ⟨env', before, start, after, hsplit, by simpa using hbefore, hholds'⟩

theorem not_fruitless_of_le (hle : radius ≤ wider) (h : ¬Fruitless radius f) :
    ¬Fruitless wider f :=
  fun hnone => h fun env henv => hnone env (mem_tried_of_le hle henv)

variable {narrow wide : Bounds}

theorem check_proved_of_le (hcount : (tried wide.radius f).length ≤ wide.budget.toNat)
    (h : check narrow f = .proved) : check wide f = .proved := by
  obtain ⟨-, hfruitless, hstalled, hfree⟩ := (decides_check narrow f).proved.mp h
  have hsame := tried_eq_of_bool hfree narrow.radius wide.radius
  refine (decides_check wide f).proved.mpr ⟨hcount, ?_, ?_, hfree⟩
  · rwa [Fruitless, hsame] at hfruitless
  · rwa [stalled, hsame] at hstalled

-- The candidate that held is tried again. Another one may come before it now.
theorem check_counterexample_of_le (hradius : narrow.radius ≤ wide.radius)
    (hcount : (tried wide.radius f).length ≤ wide.budget.toNat) {model : Assignment}
    (h : check narrow f = .counterexample model) : ∃ other, check wide f = .counterexample other := by
  obtain ⟨-, env, hfirst, -⟩ := ((decides_check narrow f).found model).mp h
  obtain ⟨env', hfirst'⟩ := exists_first (not_fruitless_of_le hradius hfirst.not_fruitless)
  exact ⟨_, ((decides_check wide f).found _).mpr
    ⟨hcount, env', hfirst', get?_assignment hfirst'.nodup_names⟩⟩

end Covenant.Search

namespace Covenant

-- A search in a wider window, where its budget allows it, loses no verdict: what was proved stays
-- proved, and where there was a counterexample there still is one.
theorem Solver.bounded_widening (narrow wide : Search.Bounds) (f : Formula)
    (hradius : narrow.radius ≤ wide.radius)
    (hcount : Search.candidateCount wide.radius (Search.seeds wide.radius f)
      (Search.Plan.ofFormula f).free ≤ wide.budget.toNat) :
    (((Solver.bounded narrow).check f ()).1 = .ok .proved →
      ((Solver.bounded wide).check f ()).1 = .ok .proved) ∧
    ∀ model, ((Solver.bounded narrow).check f ()).1 = .ok (.counterexample model) →
      ∃ other, ((Solver.bounded wide).check f ()).1 = .ok (.counterexample other) := by
  rw [← Search.length_candidates] at hcount
  refine ⟨fun h => ?_, fun model h => ?_⟩
  · exact congrArg Except.ok (Search.check_proved_of_le hcount (Except.ok.inj h))
  · obtain ⟨other, hother⟩ := Search.check_counterexample_of_le hradius hcount (Except.ok.inj h)
    exact ⟨other, congrArg Except.ok hother⟩

namespace Search

-- Within radius 2 only the neighbours of the literal are large enough, and within radius 8 the
-- integer 4 is found before them.
def squared : Formula :=
  let n := Term.var ⟨"n@0", .int⟩
  ⟨[.order .gt (.arith .mul n n) (.int 10)]⟩

-- The integer is defined, and the boolean is tried both ways.
def refuted : Formula :=
  let b := Term.var ⟨"b@0", .bool⟩
  ⟨[.eq (.var ⟨"n@1", .int⟩) (.ite b (.int 3) (.int 30)), .order .lt (.var ⟨"n@1", .int⟩) (.int 3)]⟩

end Search

theorem Solver.bounded_widening_squared :
    ((Solver.bounded ⟨2, 9⟩).check Search.squared ()).1 =
      .ok (.counterexample (.ofList [("n@0", .int 9)])) ∧
    ((Solver.bounded ⟨8, 21⟩).check Search.squared ()).1 =
      .ok (.counterexample (.ofList [("n@0", .int 4)])) ∧
    (∃ other, ((Solver.bounded ⟨8, 21⟩).check Search.squared ()).1 = .ok (.counterexample other)) ∧
    ((Solver.bounded ⟨2, 2⟩).check Search.refuted ()).1 = .ok .proved ∧
    ((Solver.bounded ⟨50, 2⟩).check Search.refuted ()).1 = .ok .proved := by
  have hfound : ((Solver.bounded ⟨2, 9⟩).check Search.squared ()).1 =
      .ok (.counterexample (.ofList [("n@0", .int 9)])) := by decide +kernel
  have hproved : ((Solver.bounded ⟨2, 2⟩).check Search.refuted ()).1 = .ok .proved := by
    decide +kernel
  have hwider := bounded_widening ⟨2, 9⟩ ⟨8, 21⟩ Search.squared (by decide)
    (by decide +kernel)
  have hrefuted := bounded_widening ⟨2, 2⟩ ⟨50, 2⟩ Search.refuted (by decide)
    (by decide +kernel)
  exact ⟨hfound, by decide +kernel, hwider.2 _ hfound, hproved, hrefuted.1 hproved⟩

end Covenant
