import Covenant.Proofs.Data.NameMap
import Covenant.Proofs.Term.Eval
import Covenant.Search.Run

namespace Covenant

theorem Symbol.mem_of_mem_fresh {seen : List String} {symbols : List Symbol} {s : Symbol}
    (h : s ∈ fresh seen symbols) : s ∈ symbols ∧ s.name ∉ seen := by
  induction symbols generalizing seen with
  | nil => cases h
  | cons first rest ih =>
      simp only [fresh] at h
      split at h
      · exact ⟨List.mem_cons_of_mem _ (ih h).1, (ih h).2⟩
      · rename_i hfirst
        rcases List.mem_cons.mp h with rfl | h
        · exact ⟨List.mem_cons_self, hfirst⟩
        · obtain ⟨hmem, hseen⟩ := ih h
          exact ⟨List.mem_cons_of_mem _ hmem, fun hs => hseen (List.mem_cons_of_mem _ hs)⟩

theorem Symbol.nodup_fresh (seen : List String) (symbols : List Symbol) :
    ((fresh seen symbols).map (·.name)).Nodup := by
  induction symbols generalizing seen with
  | nil => simp [fresh]
  | cons first rest ih =>
      simp only [fresh]
      split
      · exact ih seen
      · refine List.nodup_cons.mpr ⟨?_, ih _⟩
        intro hmem
        obtain ⟨s, hs, hname⟩ := List.mem_map.mp hmem
        exact (mem_of_mem_fresh hs).2 (hname ▸ List.mem_cons_self)

theorem Symbol.mem_map_fresh {seen : List String} {symbols : List Symbol} {name : String} :
    name ∈ (fresh seen symbols).map (·.name) ↔ name ∉ seen ∧ ∃ s ∈ symbols, s.name = name := by
  induction symbols generalizing seen with
  | nil => simp [fresh]
  | cons first rest ih =>
      simp only [fresh]
      split
      · rename_i hfirst
        rw [ih, List.exists_mem_cons_iff]
        constructor
        · exact fun h => ⟨h.1, .inr h.2⟩
        · rintro ⟨hseen, rfl | hrest⟩
          · exact absurd hfirst hseen
          · exact ⟨hseen, hrest⟩
      · rename_i hfirst
        rw [List.map_cons, List.mem_cons, ih, List.exists_mem_cons_iff, List.mem_cons, not_or]
        constructor
        · rintro (rfl | ⟨⟨-, hseen⟩, hrest⟩)
          · exact ⟨hfirst, .inl rfl⟩
          · exact ⟨hseen, .inr hrest⟩
        · rintro ⟨hseen, heq | hrest⟩
          · exact .inl heq.symm
          · by_cases heq : name = first.name
            · exact .inl heq
            · exact .inr ⟨⟨heq, hseen⟩, hrest⟩

-- A name that has not been seen is noted at its first occurrence, here or further on.
theorem Symbol.mem_fresh_or {seen : List String} {symbols : List Symbol} {name : String} {p : Prop} :
    (name ∈ (fresh seen symbols).map (·.name) ∨
      name ∉ (fresh seen symbols).map (·.name) ++ seen ∧ p) ↔
      name ∉ seen ∧ ((∃ s ∈ symbols, s.name = name) ∨ p) := by
  rw [List.mem_append, mem_map_fresh]
  by_cases hseen : name ∈ seen
  · simp [hseen]
  · by_cases hname : ∃ s ∈ symbols, s.name = name <;> simp [hseen, hname]

namespace Search

-- The names that the steps define, in order.
def Step.defined : List Step → List String
  | [] => []
  | .define s _ :: steps => s.name :: defined steps
  | .require _ :: steps => defined steps

theorem Step.defined_append (steps more : List Step) :
    defined (steps ++ more) = defined steps ++ defined more := by
  induction steps with
  | nil => rfl
  | cons step rest ih => cases step <;> simp [defined, ih]

-- The names that get a value: those that are tried, and those that are defined.
def Plan.names (plan : Plan) : List String := plan.free.map (·.name) ++ Step.defined plan.steps

theorem definition?_eq_some {seen : List String} {a t : Term} {s : Symbol} :
    definition? seen a = some (s, t) ↔
      a = .eq (.var s) t ∧ s.name ∉ seen ∧ ∀ other ∈ t.symbols, other.name ≠ s.name := by
  unfold definition?
  split
  · rename_i s' t'
    simp only [Term.mentions, Option.ite_none_left_eq_some, not_or, List.any_eq_true,
      decide_eq_true_eq, not_exists, not_and, Option.some.injEq, Prod.mk.injEq, Term.eq.injEq,
      Term.var.injEq]
    constructor
    · rintro ⟨⟨hseen, hmentions⟩, rfl, rfl⟩
      exact ⟨⟨rfl, rfl⟩, hseen, hmentions⟩
    · rintro ⟨⟨rfl, rfl⟩, hseen, hmentions⟩
      exact ⟨⟨hseen, hmentions⟩, rfl, rfl⟩
  · rename_i hshape
    simp only [reduceCtorEq, false_iff, not_and]
    rintro rfl
    exact (hshape s t rfl).elim

namespace Plan

variable {seen : List String} {assertions : List Term}

theorem mem_free {s : Symbol} (h : s ∈ (build seen assertions).free) :
    s ∈ assertions.flatMap Term.symbols ∧ s.name ∉ seen := by
  induction assertions generalizing seen with
  | nil => cases h
  | cons a rest ih =>
      simp only [build] at h
      split at h
      · rename_i d t hd
        obtain ⟨rfl, -, -⟩ := definition?_eq_some.mp hd
        rcases List.mem_append.mp h with h | h
        · obtain ⟨hmem, hseen⟩ := Symbol.mem_of_mem_fresh h
          exact ⟨by simp [Term.symbols, hmem], hseen⟩
        · obtain ⟨hmem, hseen⟩ := ih h
          exact ⟨List.mem_append_right _ hmem, fun hs => hseen (by simp [hs])⟩
      · rcases List.mem_append.mp h with h | h
        · obtain ⟨hmem, hseen⟩ := Symbol.mem_of_mem_fresh h
          exact ⟨List.mem_append_left _ hmem, hseen⟩
        · obtain ⟨hmem, hseen⟩ := ih h
          exact ⟨List.mem_append_right _ hmem, fun hs => hseen (by simp [hs])⟩

variable {s : Symbol} {t a : Term} {rest : List Term}

theorem names_build_define (hd : definition? seen a = some (s, t)) :
    (build seen (a :: rest)).names.Perm
      (s.name :: ((Symbol.fresh seen t.symbols).map (·.name) ++
        (build (s.name :: ((Symbol.fresh seen t.symbols).map (·.name) ++ seen)) rest).names)) := by
  simp only [names, build, hd, Step.defined, List.map_append, List.append_assoc]
  rw [← List.append_assoc, ← List.append_assoc]
  exact List.perm_middle

theorem names_build_require (hd : definition? seen a = none) :
    (build seen (a :: rest)).names = (Symbol.fresh seen a.symbols).map (·.name) ++
      (build ((Symbol.fresh seen a.symbols).map (·.name) ++ seen) rest).names := by
  simp only [names, build, hd, Step.defined, List.map_append, List.append_assoc]

-- A plan has a place for every name that was not seen before it.
theorem mem_names {name : String} : name ∈ (build seen assertions).names ↔
    name ∉ seen ∧ ∃ s ∈ assertions.flatMap Term.symbols, s.name = name := by
  induction assertions generalizing seen with
  | nil => simp [build, names, Step.defined]
  | cons a rest ih =>
      cases hd : definition? seen a with
      | none =>
          rw [names_build_require hd, List.mem_append, ih, Symbol.mem_fresh_or]
          simp only [List.flatMap_cons, List.mem_append, or_and_right, exists_or]
      | some d =>
          obtain ⟨rfl, hseen, -⟩ := definition?_eq_some.mp hd
          rw [(names_build_define hd).mem_iff, List.mem_cons, List.mem_append, ih]
          simp only [List.flatMap_cons, Term.symbols, List.cons_append, List.nil_append,
            List.exists_mem_cons_iff, List.mem_append, or_and_right, exists_or]
          by_cases heq : name = d.1.name
          · simp [heq, hseen]
          · rw [List.mem_cons, not_or]
            simp only [heq, Ne.symm heq, false_or, not_false_eq_true, true_and]
            exact Symbol.mem_fresh_or

-- Each of these names is tried or defined, and not both, and not twice.
theorem nodup_names (seen : List String) (assertions : List Term) :
    (build seen assertions).names.Nodup := by
  induction assertions generalizing seen with
  | nil => simp [build, names, Step.defined]
  | cons a rest ih =>
      cases hd : definition? seen a with
      | none =>
          rw [names_build_require hd]
          refine List.nodup_append.mpr ⟨Symbol.nodup_fresh _ _, ih _, ?_⟩
          rintro name hname _ hrest rfl
          exact (mem_names.mp hrest).1 (List.mem_append_left _ hname)
      | some d =>
          obtain ⟨-, -, hmentions⟩ := definition?_eq_some.mp hd
          rw [(names_build_define hd).nodup_iff]
          refine List.nodup_cons.mpr ⟨?_, List.nodup_append.mpr ⟨Symbol.nodup_fresh _ _, ih _, ?_⟩⟩
          · intro hname
            rcases List.mem_append.mp hname with hname | hname
            · obtain ⟨other, hother, heq⟩ := List.mem_map.mp hname
              exact hmentions other (Symbol.mem_of_mem_fresh hother).1 heq
            · exact (mem_names.mp hname).1 List.mem_cons_self
          · rintro name hname _ hrest rfl
            exact (mem_names.mp hrest).1 (List.mem_cons_of_mem _ (List.mem_append_left _ hname))

theorem length_steps (seen : List String) (assertions : List Term) :
    (build seen assertions).steps.length = assertions.length := by
  induction assertions generalizing seen with
  | nil => rfl
  | cons a rest ih =>
      simp only [build]
      split <;> simp [ih]

-- What comes first is planned for itself, and what follows with its names seen.
theorem build_append (seen : List String) (first last : List Term) :
    ∃ after, (∀ name, name ∈ after ↔
        name ∈ seen ∨ ∃ s ∈ first.flatMap Term.symbols, s.name = name) ∧
      (build seen (first ++ last)).steps = (build seen first).steps ++ (build after last).steps := by
  induction first generalizing seen with
  | nil => exact ⟨seen, by simp, rfl⟩
  | cons a rest ih =>
      cases hd : definition? seen a with
      | none =>
          obtain ⟨after, hafter, hsteps⟩ := ih ((Symbol.fresh seen a.symbols).map (·.name) ++ seen)
          refine ⟨after, fun name => ?_, by simp only [List.cons_append, build, hd, hsteps]⟩
          rw [hafter, List.mem_append, Symbol.mem_map_fresh]
          simp only [List.flatMap_cons, List.mem_append, or_and_right, exists_or]
          by_cases hseen : name ∈ seen <;> simp [hseen]
      | some d =>
          obtain ⟨rfl, -, -⟩ := definition?_eq_some.mp hd
          obtain ⟨after, hafter, hsteps⟩ :=
            ih (d.1.name :: ((Symbol.fresh seen d.2.symbols).map (·.name) ++ seen))
          refine ⟨after, fun name => ?_, by simp only [List.cons_append, build, hd, hsteps]⟩
          rw [hafter, List.mem_cons, List.mem_append, Symbol.mem_map_fresh]
          simp only [List.flatMap_cons, Term.symbols, List.cons_append, List.nil_append,
            List.exists_mem_cons_iff, List.mem_append, or_and_right, exists_or]
          by_cases hseen : name ∈ seen
          · simp [hseen]
          · simp [hseen, eq_comm, or_assoc]

end Plan

-- A new value may be given to a symbol that is the only one of its name.
theorem all_cons {env : Env} {symbols : List Symbol} {p : Symbol → Scalar → Prop} {s : Symbol}
    {v : Scalar} (h : env.All symbols p) (hs : ∀ other ∈ symbols, other.name = s.name → other = s)
    (hv : p s v) : Env.All ((s.name, v) :: env) symbols p := by
  intro other hmem w hw
  by_cases heq : other.name = s.name
  · rw [heq, List.lookup_cons_self] at hw
    cases hw
    exact hs other hmem heq ▸ hv
  · rw [NameMap.lookup_cons_of_ne v env heq] at hw
    exact h other hmem w hw

-- A candidate that takes its values from a satisfying valuation meets no assertion that fails. Each
-- definition gives its symbol the value that the valuation has for it.
theorem attempt_ne_fails {zero : ZeroDivision} {ν : Valuation} {seen : List String}
    {assertions : List Term} {env : Env} {symbols : List Symbol}
    (hnames : ∀ s ∈ symbols, ∀ other ∈ symbols, s.name = other.name → s = other)
    (hsub : ∀ s ∈ assertions.flatMap Term.symbols, s ∈ symbols)
    (hholds : ∀ t ∈ assertions, t.value zero ν = .bool true) (henv : env.Agrees ν symbols) :
    attempt env (Plan.build seen assertions).steps ≠ .fails := by
  induction assertions generalizing seen env with
  | nil => simp [Plan.build, attempt]
  | cons a rest ih =>
      simp only [List.flatMap_cons, List.forall_mem_append] at hsub
      obtain ⟨ha, hrest⟩ := List.forall_mem_cons.mp hholds
      simp only [Plan.build]
      split
      · rename_i s t hd
        obtain ⟨rfl, -, -⟩ := definition?_eq_some.mp hd
        simp only [attempt]
        split
        · rename_i v hv
          have ht := Term.value_of_eval zero t
            (henv.mono fun x hx => hsub.1 x (by simp [Term.symbols, hx])) hv
          have hs : ν.get s = v.exact := ((Term.value_eq_true zero).mp ha).trans ht
          have hmem : s ∈ symbols := hsub.1 s (by simp [Term.symbols])
          exact ih hsub.2 hrest (all_cons henv (fun x hx => hnames x hx s hmem) hs)
        · simp
      · simp only [attempt]
        split
        · exact ih hsub.2 hrest henv
        · rename_i v hne hv
          have hvalue := Term.value_of_eval zero a (henv.mono hsub.1) hv
          rw [ha] at hvalue
          exact absurd (Scalar.exact_eq_bool.mp hvalue.symm) hne
        · simp

-- A candidate that holds: each assertion was read as a definition, or was true when it was reached.
inductive Passes : List String → Env → List Term → Env → Prop
  | nil (seen : List String) (env : Env) : Passes seen env [] env
  | define {seen : List String} {s : Symbol} {t : Term} {v : Scalar} {env env' : Env}
      {rest : List Term} (hd : definition? seen (.eq (.var s) t) = some (s, t))
      (hv : t.eval env = some v)
      (hrest : Passes (s.name :: ((Symbol.fresh seen t.symbols).map (·.name) ++ seen))
        ((s.name, v) :: env) rest env') : Passes seen env (.eq (.var s) t :: rest) env'
  | require {seen : List String} {a : Term} {env env' : Env} {rest : List Term}
      (hd : definition? seen a = none) (hv : a.eval env = some (.bool true))
      (hrest : Passes ((Symbol.fresh seen a.symbols).map (·.name) ++ seen) env rest env') :
      Passes seen env (a :: rest) env'

theorem passes_of_attempt {seen : List String} {assertions : List Term} {env env' : Env}
    (h : attempt env (Plan.build seen assertions).steps = .holds env') :
    Passes seen env assertions env' := by
  induction assertions generalizing seen env with
  | nil =>
      cases h
      exact .nil seen _
  | cons a rest ih =>
      simp only [Plan.build] at h
      split at h
      · rename_i s t hd
        obtain ⟨rfl, -, -⟩ := definition?_eq_some.mp hd
        simp only [attempt] at h
        split at h
        · rename_i v hv
          exact .define hd hv (ih h)
        · cases h
      · rename_i hd
        simp only [attempt] at h
        split at h
        · rename_i hv
          exact .require hd hv (ih h)
        · cases h
        · cases h

-- The names that have values were seen, or are free in what is to come.
def Covered (seen : List String) (env : Env) (assertions : List Term) : Prop :=
  ∀ name ∈ env.map Prod.fst,
    name ∈ seen ∨ name ∈ (Plan.build seen assertions).free.map (·.name)

namespace Covered

variable {seen : List String} {env : Env} {rest : List Term}

theorem not_mem {s : Symbol} {t : Term} (h : Covered seen env (.eq (.var s) t :: rest))
    (hd : definition? seen (.eq (.var s) t) = some (s, t)) : s.name ∉ env.map Prod.fst := by
  intro hmem
  obtain ⟨-, hseen, hmentions⟩ := definition?_eq_some.mp hd
  have hname := h s.name hmem
  simp only [Plan.build, hd, List.map_append, List.mem_append, List.mem_map] at hname
  rcases hname with hs | ⟨other, hother, hname⟩ | ⟨other, hother, hname⟩
  · exact hseen hs
  · exact hmentions other (Symbol.mem_of_mem_fresh hother).1 hname
  · exact (Plan.mem_free hother).2 (hname ▸ List.mem_cons_self)

theorem define {s : Symbol} {t : Term} (v : Scalar)
    (h : Covered seen env (.eq (.var s) t :: rest))
    (hd : definition? seen (.eq (.var s) t) = some (s, t)) :
    Covered (s.name :: ((Symbol.fresh seen t.symbols).map (·.name) ++ seen)) ((s.name, v) :: env)
      rest := by
  intro name hname
  rcases List.mem_cons.mp hname with rfl | hname
  · exact .inl List.mem_cons_self
  · have hcovered := h name hname
    simp only [Plan.build, hd, List.map_append, List.mem_append] at hcovered
    rcases hcovered with hs | hs | hs
    · exact .inl (by simp [hs])
    · exact .inl (by simp [hs])
    · exact .inr hs

theorem require {a : Term} (h : Covered seen env (a :: rest)) (hd : definition? seen a = none) :
    Covered ((Symbol.fresh seen a.symbols).map (·.name) ++ seen) env rest := by
  intro name hname
  have hcovered := h name hname
  simp only [Plan.build, hd, List.map_append, List.mem_append] at hcovered
  rcases hcovered with hs | hs | hs
  · exact .inl (by simp [hs])
  · exact .inl (by simp [hs])
  · exact .inr hs

end Covered

namespace Passes

variable {seen : List String} {assertions : List Term} {env env' : Env}

-- The values that a candidate ends with have the sorts of their symbols.
theorem sorted {symbols : List Symbol} (h : Passes seen env assertions env')
    (hnames : ∀ s ∈ symbols, ∀ other ∈ symbols, s.name = other.name → s = other)
    (hsub : ∀ s ∈ assertions.flatMap Term.symbols, s ∈ symbols)
    (hws : ∀ t ∈ assertions, t.WellSorted) (henv : env.Sorted symbols) : env'.Sorted symbols := by
  induction h with
  | nil seen env => exact henv
  | @define seen s t v env env' rest hd hv hrest ih =>
      simp only [List.flatMap_cons, List.forall_mem_append] at hsub
      obtain ⟨⟨-, ht, hsort⟩, hwsRest⟩ := List.forall_mem_cons.mp hws
      have hmem : s ∈ symbols := hsub.1 s (by simp [Term.symbols])
      have hvalue := Term.sort_of_eval t ht
        (henv.mono fun x hx => hsub.1 x (by simp [Term.symbols, hx])) hv
      refine ih hsub.2 hwsRest (all_cons henv (fun x hx => hnames x hx s hmem) ?_)
      exact hvalue.trans hsort.symm
  | require hd hv hrest ih =>
      simp only [List.flatMap_cons, List.forall_mem_append] at hsub
      exact ih hsub.2 (List.forall_mem_cons.mp hws).2 henv

-- No defined name is given a second value.
theorem within (h : Passes seen env assertions env') (hcovered : Covered seen env assertions) :
    env.Within env' := by
  induction h with
  | nil seen env => exact fun _ _ hv => hv
  | @define seen s t v env env' rest hd hv hrest ih =>
      have hlookup := NameMap.lookup_eq_none_of_not_mem (hcovered.not_mem hd)
      exact (Env.within_cons v hlookup).trans (ih (hcovered.define v hd))
  | require hd hv hrest ih => exact ih (hcovered.require hd)

-- The candidate ends with its own names and those that were defined.
theorem map_fst (h : Passes seen env assertions env') : env'.map Prod.fst =
    (Step.defined (Plan.build seen assertions).steps).reverse ++ env.map Prod.fst := by
  induction h with
  | nil seen env => rfl
  | define hd hv hrest ih => simp [ih, Plan.build, hd, Step.defined]
  | require hd hv hrest ih => simp [ih, Plan.build, hd, Step.defined]

-- They are those of the plan.
theorem perm_names {f : Formula} {env env' : Env} (h : Passes [] env f.assertions env')
    (henv : env.map Prod.fst = (Plan.ofFormula f).free.map (·.name)) :
    (env'.map Prod.fst).Perm (Plan.ofFormula f).names := by
  rw [h.map_fst, henv]
  exact List.perm_append_comm.trans ((List.reverse_perm _).append_left _)

-- Every assertion is true at the end, also one that was read as a definition.
theorem evaluates (h : Passes seen env assertions env') (hcovered : Covered seen env assertions) :
    ∀ t ∈ assertions, t.eval env' = some (.bool true) := by
  induction h with
  | nil seen env => simp
  | @define seen s t v env env' rest hd hv hrest ih =>
      have hcovered' := hcovered.define v hd
      have hwithin := hrest.within hcovered'
      have hold := (Env.within_cons v
        (NameMap.lookup_eq_none_of_not_mem (hcovered.not_mem hd))).trans hwithin
      have hs : env'.lookup s.name = some v := hwithin s.name v List.lookup_cons_self
      refine List.forall_mem_cons.mpr ⟨?_, ih hcovered'⟩
      exact Term.eval_eq_eq_some.mpr ⟨v, hs, v, Term.eval_of_within hold t hv, by simp⟩
  | @require seen a env env' rest hd hv hrest ih =>
      have hcovered' := hcovered.require hd
      have ha := Term.eval_of_within (hrest.within hcovered') a hv
      exact List.forall_mem_cons.mpr ⟨ha, ih hcovered'⟩

end Passes

end Search

end Covenant
