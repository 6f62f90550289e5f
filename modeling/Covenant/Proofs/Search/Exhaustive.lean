import Covenant.Proofs.Search.Candidate
import Covenant.Proofs.Search.Plan

namespace Covenant.Search

-- What becomes of a candidate

-- Every step succeeds from these values, and ends with those.
inductive Succeeds : Env → List Step → Env → Prop
  | done (env : Env) : Succeeds env [] env
  | define {env env' : Env} {s : Symbol} {term : Term} {v : Scalar} {steps : List Step}
      (hv : term.eval env = some v) (hrest : Succeeds ((s.name, v) :: env) steps env') :
      Succeeds env (.define s term :: steps) env'
  | require {env env' : Env} {term : Term} {steps : List Step}
      (hv : term.eval env = some (.bool true)) (hrest : Succeeds env steps env') :
      Succeeds env (.require term :: steps) env'

-- Some step has no value, and all before it succeed.
inductive Stalls : Env → List Step → Prop
  | definition {env : Env} {s : Symbol} {term : Term} {steps : List Step}
      (hv : term.eval env = none) : Stalls env (.define s term :: steps)
  | requirement {env : Env} {term : Term} {steps : List Step} (hv : term.eval env = none) :
      Stalls env (.require term :: steps)
  | afterDefine {env : Env} {s : Symbol} {term : Term} {v : Scalar} {steps : List Step}
      (hv : term.eval env = some v) (hrest : Stalls ((s.name, v) :: env) steps) :
      Stalls env (.define s term :: steps)
  | afterRequire {env : Env} {term : Term} {steps : List Step}
      (hv : term.eval env = some (.bool true)) (hrest : Stalls env steps) :
      Stalls env (.require term :: steps)

theorem attempt_eq_holds {env env' : Env} {steps : List Step} :
    attempt env steps = .holds env' ↔ Succeeds env steps env' := by
  constructor
  · intro h
    induction steps generalizing env with
    | nil =>
        cases h
        exact .done _
    | cons step rest ih =>
        cases step with
        | define s term =>
            simp only [attempt] at h
            split at h
            · exact .define ‹_› (ih h)
            · cases h
        | require term =>
            simp only [attempt] at h
            split at h
            · exact .require ‹_› (ih h)
            · cases h
            · cases h
  · intro h
    induction h with
    | done env => rfl
    | define hv _ ih => simp only [attempt, hv, ih]
    | require hv _ ih => simp only [attempt, hv, ih]

theorem attempt_eq_undetermined {env : Env} {steps : List Step} :
    attempt env steps = .undetermined ↔ Stalls env steps := by
  constructor
  · intro h
    induction steps generalizing env with
    | nil => cases h
    | cons step rest ih =>
        cases step with
        | define s term =>
            simp only [attempt] at h
            split at h
            · exact .afterDefine ‹_› (ih h)
            · exact .definition ‹_›
        | require term =>
            simp only [attempt] at h
            split at h
            · exact .afterRequire ‹_› (ih h)
            · cases h
            · exact .requirement ‹_›
  · intro h
    induction h with
    | definition hv => simp only [attempt, hv]
    | requirement hv => simp only [attempt, hv]
    | afterDefine hv _ ih => simp only [attempt, hv, ih]
    | afterRequire hv _ ih => simp only [attempt, hv, ih]

theorem Succeeds.unique {env env₁ env₂ : Env} {steps : List Step} (h₁ : Succeeds env steps env₁)
    (h₂ : Succeeds env steps env₂) : env₁ = env₂ := by
  rw [← attempt_eq_holds] at h₁ h₂
  exact Trial.holds.inj (h₁.symm.trans h₂)

instance (env : Env) (steps : List Step) : Decidable (Stalls env steps) :=
  decidable_of_iff (attempt env steps = .undetermined) attempt_eq_undetermined

-- The search

def tally (env : Env) (steps : List Step) : UInt64 := if Stalls env steps then 1 else 0

theorem toNat_add_tally {n : UInt64} (h : n.toNat + 1 < UInt64.size) (env : Env)
    (steps : List Step) :
    (n + tally env steps).toNat = n.toNat + if Stalls env steps then 1 else 0 := by
  unfold tally
  split_ifs with hstalls
  · rw [UInt64.toNat_add, UInt64.toNat_one, Nat.mod_eq_of_lt h]
  · simp

theorem scan_of_succeeds {steps : List Step} {slots : Cursor} {env : Env}
    (h : Succeeds slots.candidate steps env) (undetermined : UInt64) :
    scan steps slots undetermined = .found env := by
  rw [scan, attempt_eq_holds.mpr h]

-- A candidate that does not hold is counted if it stalls, and the search goes on.
theorem scan_of_not_succeeds {steps : List Step} {slots : Cursor}
    (h : ∀ env, ¬Succeeds slots.candidate steps env) (undetermined : UInt64) :
    scan steps slots undetermined =
      (slots.advance?.map fun next =>
        scan steps next (undetermined + tally slots.candidate steps)).getD
          (.exhausted (undetermined + tally slots.candidate steps)) := by
  rw [scan, tally]
  simp only [← attempt_eq_undetermined]
  split
  · exact absurd (attempt_eq_holds.mp ‹_›) (h _)
  · rename_i hfails hadvance
    simp [hfails, hadvance]
  · rename_i hfails hadvance
    simp [hfails, hadvance]
  · rename_i hundetermined hadvance
    simp [hundetermined, hadvance]
  · rename_i hundetermined hadvance
    simp [hundetermined, hadvance]

-- No candidate holds, and so many have no value; or this is the first that holds.
inductive Swept (steps : List Step) (undetermined : UInt64) (envs : List Env) : Verdict → Prop
  | exhausted {n : UInt64} (hnone : ∀ env ∈ envs, ∀ env', ¬Succeeds env steps env')
      (hn : n.toNat = undetermined.toNat + envs.countP fun env => Stalls env steps) :
      Swept steps undetermined envs (.exhausted n)
  | found {before after : List Env} {env env' : Env} (hsplit : envs = before ++ env :: after)
      (hbefore : ∀ other ∈ before, ∀ other', ¬Succeeds other steps other')
      (hfound : Succeeds env steps env') : Swept steps undetermined envs (.found env')

namespace Swept

variable {steps : List Step} {undetermined : UInt64} {env : Env} {rest : List Env}

theorem nil (steps : List Step) (undetermined : UInt64) :
    Swept steps undetermined [] (.exhausted undetermined) := .exhausted (by simp) rfl

theorem first {env' : Env} (h : Succeeds env steps env') :
    Swept steps undetermined (env :: rest) (.found env') :=
  .found (List.nil_append _).symm (by simp) h

theorem cons {verdict : Verdict} (hfails : ∀ env', ¬Succeeds env steps env')
    (hfits : undetermined.toNat + 1 < UInt64.size)
    (h : Swept steps (undetermined + tally env steps) rest verdict) :
    Swept steps undetermined (env :: rest) verdict := by
  cases h with
  | exhausted hnone hn =>
      refine .exhausted (List.forall_mem_cons.mpr ⟨hfails, hnone⟩) ?_
      rw [hn, toNat_add_tally hfits, List.countP_cons]
      simp only [decide_eq_true_eq]
      omega
  | @found before after first env' hsplit hbefore hfound =>
      have hsplit' : env :: rest = (env :: before) ++ first :: after := congrArg (env :: ·) hsplit
      exact .found hsplit' (List.forall_mem_cons.mpr ⟨hfails, hbefore⟩) hfound

end Swept

-- By induction on what the cursor goes through. The counter never comes near its limit.
theorem swept_scan (steps : List Step) {slots : Cursor} {envs : List Env} (h : slots.Visits envs)
    (undetermined : UInt64) (hfits : undetermined.toNat + envs.length < UInt64.size) :
    Swept steps undetermined envs (scan steps slots undetermined) := by
  induction h generalizing undetermined with
  | @last slots hlast =>
      by_cases hholds : ∃ env, Succeeds slots.candidate steps env
      · obtain ⟨env, henv⟩ := hholds
        rw [scan_of_succeeds henv]
        exact .first henv
      · rw [not_exists] at hholds
        rw [scan_of_not_succeeds hholds, hlast]
        exact .cons hholds hfits (.nil _ _)
  | @next slots next envs hnext hrest ih =>
      rw [List.length_cons] at hfits
      by_cases hholds : ∃ env, Succeeds slots.candidate steps env
      · obtain ⟨env, henv⟩ := hholds
        rw [scan_of_succeeds henv]
        exact .first henv
      · rw [not_exists] at hholds
        have hone : undetermined.toNat + 1 < UInt64.size := by
          have hpos := hrest.length_pos
          omega
        rw [scan_of_not_succeeds hholds, hnext]
        refine .cons hholds hone (ih _ ?_)
        rw [toNat_add_tally hone]
        split <;> omega

-- What the search goes through for a formula.
def tried (radius : UInt32) (f : Formula) : List Env :=
  candidates (values radius f) (Plan.ofFormula f).free

-- No candidate holds.
def Fruitless (radius : UInt32) (f : Formula) : Prop :=
  ∀ env ∈ tried radius f, ∀ env', ¬Succeeds env (Plan.ofFormula f).steps env'

-- How many candidates have no value.
def stalled (radius : UInt32) (f : Formula) : Nat :=
  (tried radius f).countP fun env => Stalls env (Plan.ofFormula f).steps

-- The first candidate that holds ends with these values.
def First (radius : UInt32) (f : Formula) (env' : Env) : Prop :=
  ∃ before env after, tried radius f = before ++ env :: after ∧
    (∀ other ∈ before, ∀ other', ¬Succeeds other (Plan.ofFormula f).steps other') ∧
    Succeeds env (Plan.ofFormula f).steps env'

theorem First.not_fruitless {radius : UInt32} {f : Formula} {env : Env} (h : First radius f env) :
    ¬Fruitless radius f := by
  obtain ⟨before, start, after, hsplit, -, hholds⟩ := h
  exact fun hnone => hnone start (by simp [hsplit]) env hholds

-- Neither of two candidates that are first stands before the other.
theorem First.unique {radius : UInt32} {f : Formula} {env₁ env₂ : Env} (h₁ : First radius f env₁)
    (h₂ : First radius f env₂) : env₁ = env₂ := by
  obtain ⟨before₁, start₁, after₁, hsplit₁, hbefore₁, hholds₁⟩ := h₁
  obtain ⟨before₂, start₂, after₂, hsplit₂, hbefore₂, hholds₂⟩ := h₂
  rcases List.append_eq_append_iff.mp (hsplit₁.symm.trans hsplit₂) with
    ⟨between, rfl, htail⟩ | ⟨between, rfl, htail⟩
  · cases between with
    | nil =>
        obtain rfl : start₁ = start₂ := (List.cons.inj htail).1
        exact hholds₁.unique hholds₂
    | cons other rest =>
        obtain rfl : start₁ = other := (List.cons.inj htail).1
        exact absurd hholds₁ (hbefore₂ start₁ (by simp) env₁)
  · cases between with
    | nil =>
        obtain rfl : start₂ = start₁ := (List.cons.inj htail).1
        exact hholds₁.unique hholds₂
    | cons other rest =>
        obtain rfl : start₂ = other := (List.cons.inj htail).1
        exact absurd hholds₂ (hbefore₁ start₂ (by simp) env₂)

-- The values that a candidate ends with

theorem lookup_map_toValue (env : Env) (name : String) :
    (env.map fun (name, v) => (name, v.toValue)).lookup name =
      (env.lookup name).map Scalar.toValue := by
  induction env with
  | nil => rfl
  | cons entry env ih =>
      rcases entry with ⟨other, v⟩
      simp only [List.map_cons, List.lookup_cons]
      split
      · rfl
      · exact ih

theorem get?_assignment {env : Env} (h : (env.map Prod.fst).Nodup) (name : String) :
    (assignment env).get? name = (env.lookup name).map Scalar.toValue := by
  have hkeys : ((env.map fun (name, v) => (name, v.toValue)).map Prod.fst) = env.map Prod.fst := by
    simp
  rw [assignment, NameMap.get?_ofList (hkeys ▸ h), lookup_map_toValue]

theorem Succeeds.passes {f : Formula} {env env' : Env}
    (h : Succeeds env (Plan.ofFormula f).steps env') : Passes [] env f.assertions env' :=
  passes_of_attempt (attempt_eq_holds.mpr h)

theorem First.nodup_names {radius : UInt32} {f : Formula} {env : Env} (h : First radius f env) :
    (env.map Prod.fst).Nodup := by
  obtain ⟨before, start, after, hsplit, -, hholds⟩ := h
  have hstart : start ∈ tried radius f := by simp [hsplit]
  have hperm := hholds.passes.perm_names (map_fst_of_mem_candidates hstart)
  exact hperm.nodup_iff.mpr (Plan.nodup_names [] f.assertions)

-- What it says

def undeterminedText (n : Nat) : String :=
  s!"{n} candidate assignments overflowed or divided by zero"

def windowText (radius : UInt32) : String := s!"no model within radius {radius}"

theorem getLast?_append {s t : String} {c : Char} (h : t.toList.getLast? = some c) :
    (s ++ t).toList.getLast? = some c := by
  have hne : t.toList ≠ [] := by
    rintro heq
    rw [heq] at h
    cases h
  rw [String.toList_append, List.getLast?_append_of_ne_nil _ hne, h]

theorem getLast?_overBudget (count : Nat) (budget : UInt64) :
    (overBudget count budget).toList.getLast? = some 's' := getLast?_append (by decide)

theorem getLast?_undeterminedText (n : Nat) :
    (undeterminedText n).toList.getLast? = some 'o' := getLast?_append (by decide)

theorem getLast?_windowText (radius : UInt32) :
    ∃ c, (windowText radius).toList.getLast? = some c ∧ c.isDigit = true := by
  have hdigits : (toString radius).toList = Nat.toDigits 10 radius.toNat := by simp [toString]
  have hne : Nat.toDigits 10 radius.toNat ≠ [] := Nat.toDigits_ne_nil
  have hlast : (toString radius).toList.getLast? = some ((Nat.toDigits 10 radius.toNat).getLast hne) := by
    rw [hdigits, List.getLast?_eq_some_getLast hne]
  exact ⟨_, getLast?_append hlast,
    Nat.isDigit_of_mem_toDigits (by omega) (by omega) (List.getLast_mem hne)⟩

theorem undeterminedText_injective {m n : Nat} (h : undeterminedText m = undeterminedText n) :
    m = n := by
  have hdigits : Nat.toDigits 10 m = Nat.toDigits 10 n := by
    have htext := congrArg String.toList h
    simp only [undeterminedText, String.toList_append] at htext
    simpa using List.append_cancel_right htext
  rw [← @Nat.ofDigitChars_ten_toDigits m, hdigits, Nat.ofDigitChars_ten_toDigits]

theorem overBudget_ne_undeterminedText (count : Nat) (budget : UInt64) (n : Nat) :
    overBudget count budget ≠ undeterminedText n := by
  intro h
  have hlast := getLast?_overBudget count budget
  rw [h, getLast?_undeterminedText] at hlast
  cases hlast

theorem windowText_ne_overBudget (radius : UInt32) (count : Nat) (budget : UInt64) :
    windowText radius ≠ overBudget count budget := by
  intro h
  obtain ⟨c, hlast, hdigit⟩ := getLast?_windowText radius
  rw [h, getLast?_overBudget] at hlast
  cases hlast
  cases hdigit

theorem windowText_ne_undeterminedText (radius : UInt32) (n : Nat) :
    windowText radius ≠ undeterminedText n := by
  intro h
  obtain ⟨c, hlast, hdigit⟩ := getLast?_windowText radius
  rw [h, getLast?_undeterminedText] at hlast
  cases hlast
  cases hdigit

-- Each answer is given where it is due, and nowhere else.
structure Decides (bounds : Bounds) (f : Formula) (answer : Outcome) : Prop where
  refused : answer = .unknown (overBudget (Plan.ofFormula f).free.length bounds.budget) ↔
    bounds.budget.toNat < (tried bounds.radius f).length
  found : ∀ model, answer = .counterexample model ↔
    (tried bounds.radius f).length ≤ bounds.budget.toNat ∧
      ∃ env, First bounds.radius f env ∧
        ∀ name, model.get? name = (env.lookup name).map Scalar.toValue
  undetermined : ∀ n, answer = .unknown (undeterminedText n) ↔
    (tried bounds.radius f).length ≤ bounds.budget.toNat ∧ Fruitless bounds.radius f ∧
      n = stalled bounds.radius f ∧ 0 < n
  proved : answer = .proved ↔
    (tried bounds.radius f).length ≤ bounds.budget.toNat ∧ Fruitless bounds.radius f ∧
      stalled bounds.radius f = 0 ∧ ∀ s ∈ (Plan.ofFormula f).free, s.sort = .bool
  window : answer = .unknown (windowText bounds.radius) ↔
    (tried bounds.radius f).length ≤ bounds.budget.toNat ∧ Fruitless bounds.radius f ∧
      stalled bounds.radius f = 0 ∧ ∃ s ∈ (Plan.ofFormula f).free, s.sort = .int

namespace Decides

variable {bounds : Bounds} {f : Formula}

theorem of_refused (hover : bounds.budget.toNat < (tried bounds.radius f).length) :
    Decides bounds f (.unknown (overBudget (Plan.ofFormula f).free.length bounds.budget)) := by
  refine ⟨iff_of_true rfl hover, fun model => iff_of_false (by simp) (by omega),
    fun n => iff_of_false (fun h => ?_) (by omega), iff_of_false (by simp) (by omega),
    iff_of_false (fun h => ?_) (by omega)⟩
  · exact overBudget_ne_undeterminedText _ _ n (Outcome.unknown.inj h)
  · exact windowText_ne_overBudget _ _ _ (Outcome.unknown.inj h).symm

theorem of_first (hwithin : (tried bounds.radius f).length ≤ bounds.budget.toNat) {env : Env}
    (hfirst : First bounds.radius f env) : Decides bounds f (.counterexample (assignment env)) := by
  have hfruitless := hfirst.not_fruitless
  refine ⟨iff_of_false (by simp) (by omega), fun model => ⟨fun h => ?_, ?_⟩,
    fun n => iff_of_false (by simp) fun h => hfruitless h.2.1,
    iff_of_false (by simp) fun h => hfruitless h.2.1,
    iff_of_false (by simp) fun h => hfruitless h.2.1⟩
  · obtain rfl := Outcome.counterexample.inj h
    exact ⟨hwithin, env, hfirst, get?_assignment hfirst.nodup_names⟩
  · rintro ⟨-, other, hother, hmodel⟩
    obtain rfl := hfirst.unique hother
    refine congrArg Outcome.counterexample (NameMap.ext_get? fun name => ?_)
    rw [get?_assignment hfirst.nodup_names, hmodel]

theorem of_stalled (hwithin : (tried bounds.radius f).length ≤ bounds.budget.toNat)
    (hfruitless : Fruitless bounds.radius f) (hstalled : 0 < stalled bounds.radius f) :
    Decides bounds f (.unknown (undeterminedText (stalled bounds.radius f))) := by
  refine ⟨iff_of_false (fun h => ?_) (by omega), fun model => iff_of_false (by simp) ?_,
    fun n => ⟨fun h => ?_, fun h => ?_⟩, iff_of_false (by simp) (by omega),
    iff_of_false (fun h => ?_) (by omega)⟩
  · exact overBudget_ne_undeterminedText _ _ _ (Outcome.unknown.inj h).symm
  · rintro ⟨-, env, hfirst, -⟩
    exact hfirst.not_fruitless hfruitless
  · have hn := undeterminedText_injective (Outcome.unknown.inj h)
    exact ⟨hwithin, hfruitless, hn.symm, by omega⟩
  · rw [h.2.2.1]
  · exact windowText_ne_undeterminedText _ _ (Outcome.unknown.inj h).symm

theorem of_proved (hwithin : (tried bounds.radius f).length ≤ bounds.budget.toNat)
    (hfruitless : Fruitless bounds.radius f) (hstalled : stalled bounds.radius f = 0)
    (hfree : ∀ s ∈ (Plan.ofFormula f).free, s.sort = .bool) : Decides bounds f .proved := by
  refine ⟨iff_of_false (by simp) (by omega), fun model => iff_of_false (by simp) ?_,
    fun n => iff_of_false (by simp) (by omega),
    iff_of_true rfl ⟨hwithin, hfruitless, hstalled, hfree⟩, iff_of_false (by simp) ?_⟩
  · rintro ⟨-, env, hfirst, -⟩
    exact hfirst.not_fruitless hfruitless
  · rintro ⟨-, -, -, s, hs, hint⟩
    rw [hfree s hs] at hint
    cases hint

theorem of_window (hwithin : (tried bounds.radius f).length ≤ bounds.budget.toNat)
    (hfruitless : Fruitless bounds.radius f) (hstalled : stalled bounds.radius f = 0)
    (hfree : ∃ s ∈ (Plan.ofFormula f).free, s.sort = .int) :
    Decides bounds f (.unknown (windowText bounds.radius)) := by
  refine ⟨iff_of_false (fun h => ?_) (by omega), fun model => iff_of_false (by simp) ?_,
    fun n => iff_of_false (fun h => ?_) (by omega), iff_of_false (by simp) ?_,
    iff_of_true rfl ⟨hwithin, hfruitless, hstalled, hfree⟩⟩
  · exact windowText_ne_overBudget _ _ _ (Outcome.unknown.inj h)
  · rintro ⟨-, env, hfirst, -⟩
    exact hfirst.not_fruitless hfruitless
  · exact windowText_ne_undeterminedText _ _ (Outcome.unknown.inj h)
  · rintro ⟨-, -, -, hbool⟩
    obtain ⟨s, hs, hint⟩ := hfree
    rw [hbool s hs] at hint
    cases hint

theorem of_exhausted (hwithin : (tried bounds.radius f).length ≤ bounds.budget.toNat)
    (hfruitless : Fruitless bounds.radius f) {n : UInt64} (hn : n.toNat = stalled bounds.radius f) :
    Decides bounds f (exhausted bounds (Plan.ofFormula f) n) := by
  have hpos : 0 < n ↔ 0 < stalled bounds.radius f := by rw [← hn, UInt64.lt_iff_toNat_lt]; rfl
  unfold exhausted
  split_ifs with hstalled hfree
  · rw [hpos] at hstalled
    have hdecides := of_stalled hwithin hfruitless hstalled
    rw [← hn] at hdecides
    exact hdecides
  · rw [hpos] at hstalled
    exact of_proved hwithin hfruitless (by omega) (by simpa using hfree)
  · rw [hpos] at hstalled
    refine of_window hwithin hfruitless (by omega) ?_
    obtain ⟨s, hs, hsort⟩ : ∃ s ∈ (Plan.ofFormula f).free, s.sort ≠ .bool := by simpa using hfree
    refine ⟨s, hs, ?_⟩
    cases hs' : s.sort with
    | int => rfl
    | bool => exact absurd hs' hsort

end Decides

theorem decides_check (bounds : Bounds) (f : Formula) : Decides bounds f (check bounds f) := by
  have hcount : Cursor.count (.start bounds.radius (seeds bounds.radius f) (Plan.ofFormula f).free) =
      (tried bounds.radius f).length := Cursor.count_start _ _ _
  simp only [check]
  split_ifs with hfits
  · rw [Cursor.fits_iff_count, hcount] at hfits
    have hlimit : (0 : UInt64).toNat + (tried bounds.radius f).length < UInt64.size := by
      rw [UInt64.toNat_zero, Nat.zero_add]
      exact hfits.trans_lt bounds.budget.toNat_lt_size
    have hswept := swept_scan (Plan.ofFormula f).steps
      (Cursor.visits_start bounds.radius f (Plan.ofFormula f).free) 0 hlimit
    generalize scan (Plan.ofFormula f).steps _ 0 = verdict at hswept
    cases hswept with
    | found hsplit hbefore hfound => exact .of_first hfits ⟨_, _, _, hsplit, hbefore, hfound⟩
    | exhausted hnone hn => exact .of_exhausted hfits hnone (hn.trans (Nat.zero_add _))
  · rw [Cursor.fits_iff_count, hcount] at hfits
    exact .of_refused (by omega)

end Covenant.Search

namespace Covenant

end Covenant
