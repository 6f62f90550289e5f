import Covenant.Proofs.Execution.Faults
import Covenant.Proofs.Search.Exhaustive
import Covenant.Proofs.Verify.Genuine
import Covenant.Proofs.Verify.SolvingOrder

namespace Covenant

open Search

-- A search with nothing to try follows the steps once.
theorem Search.check_of_free_nil {bounds : Bounds} {f : Formula}
    (hfree : (Plan.ofFormula f).free = []) (hbudget : 1 ≤ bounds.budget) :
    (∀ env, attempt [] (Plan.ofFormula f).steps = .holds env →
      check bounds f = .counterexample (assignment env)) ∧
    (attempt [] (Plan.ofFormula f).steps = .fails → check bounds f = .proved) ∧
    (attempt [] (Plan.ofFormula f).steps = .undetermined →
      ∃ reason, check bounds f = .unknown reason) := by
  have htried : tried bounds.radius f = [[]] := by
    rw [tried, hfree]
    rfl
  have hwithin : (tried bounds.radius f).length ≤ bounds.budget.toNat := by
    rw [htried]
    exact UInt64.le_iff_toNat_le.mp hbudget
  have hdecides := decides_check bounds f
  refine ⟨fun env h => ?_, fun h => ?_, fun h => ?_⟩
  · have hfirst : First bounds.radius f env :=
      ⟨[], [], [], htried, by simp, attempt_eq_holds.mp h⟩
    exact (hdecides.found _).mpr ⟨hwithin, env, hfirst, get?_assignment hfirst.nodup_names⟩
  · have hfruitless : Fruitless bounds.radius f := by
      simp [Fruitless, htried, ← attempt_eq_holds, h]
    have hstalled : stalled bounds.radius f = 0 := by
      simp [stalled, htried, ← attempt_eq_undetermined, h]
    exact hdecides.proved.mpr ⟨hwithin, hfruitless, hstalled, by simp [hfree]⟩
  · have hfruitless : Fruitless bounds.radius f := by
      simp [Fruitless, htried, ← attempt_eq_holds, h]
    have hstalled : stalled bounds.radius f = 1 := by
      simp [stalled, htried, ← attempt_eq_undetermined, h]
    exact ⟨_, (hdecides.undetermined 1).mpr ⟨hwithin, hfruitless, hstalled.symm, Nat.one_pos⟩⟩

-- The term of a clause has the truth value of the clause, or none where the clause faults.
theorem Signature.EncodesClause.checks {s : Signature} {table : AliasTable} {c : Clause} {t : Term}
    {env : Env} {st : State} (h : s.EncodesClause table c t) (henv : env.Reflects s table st)
    (zero : ZeroDivision) : c.Faults zero st ∧ t.eval env = none ∨
      ∃ b, c.Evaluates zero st b ∧ t.eval env = some (.bool b) := by
  obtain ⟨text, x, location, rfl, hx, hsort⟩ := h
  rcases hx.checks henv zero with ⟨hfaults, hnone⟩ | ⟨hsafe, v, hv, hvsort, hexact⟩
  · exact .inl ⟨hfaults, hnone⟩
  · obtain ⟨b, rfl⟩ := Scalar.exists_bool (hvsort.trans hsort)
    exact .inr ⟨b, ⟨hsafe, hexact⟩, hv⟩

namespace Field

-- The equation of a field, as the definition of its first alias.
def initialDefinition (f : Field) : Definition := ⟨⟨f.logicalName, 0⟩, f.initialValue⟩

theorem exists_eval_initialValue (f : Field) : ∃ v : Scalar, v.exact = f.initialExact ∧
    ∀ env, f.initialValue.eval env = some v := by
  cases hinit : f.initializer with
  | some l =>
      cases l with
      | int n => exact ⟨.int n, by simp [initialExact, hinit, Literal.exact, Scalar.exact],
          fun env => by simp [initialValue, hinit, Term.eval]⟩
      | bool b => exact ⟨.bool b, by simp [initialExact, hinit, Literal.exact, Scalar.exact],
          fun env => by simp [initialValue, hinit, Term.eval]⟩
  | none =>
      cases htype : f.type.isBoolean with
      | true => exact ⟨.bool false, by simp [initialExact, hinit, htype, Scalar.exact],
          fun env => by simp [initialValue, hinit, htype, Term.eval]⟩
      | false => exact ⟨.int 0, by simp [initialExact, hinit, htype, Scalar.exact],
          fun env => by simp [initialValue, hinit, htype, Term.eval]⟩

end Field

theorem nodup_of_initialFields {e e' : Encoder} {names : List (String × TypeRef)} {u : Unit}
    {fields : List Field} (h : e.Declares names) (hinit : initialFields fields e = .ok u e') :
    (fields.map Field.logicalName).Nodup ∧
      ∀ field ∈ fields, field.logicalName ∉ names.map Prod.fst := by
  induction fields generalizing e names with
  | nil => simp
  | cons f rest ih =>
      simp only [initialFields, Encode.bind_ok, Encode.symbol_ok, Encode.assert_ok] at hinit
      obtain ⟨a, e₁, hdeclare, t, e₂, ⟨-, rfl⟩, v, e₃, rfl, hrest⟩ := hinit
      obtain ⟨hname, -, hdeclares, -⟩ := Encode.declare_ok h hdeclare
      obtain ⟨hnodup, hfresh⟩ := ih (hdeclares.withAssertions _) hrest
      simp only [List.map_append, List.mem_append, not_or] at hfresh
      refine ⟨List.nodup_cons.mpr ⟨fun hmem => ?_, hnodup⟩, List.forall_mem_cons.mpr ⟨hname, ?_⟩⟩
      · obtain ⟨other, hother, heq⟩ := List.mem_map.mp hmem
        exact (hfresh other hother).2 (by simp [heq])
      · exact fun other hother => (hfresh other hother).1

namespace ClassModel

-- The value that a field has before any method runs.
def initialVars (c : ClassModel) (name : String) : Exact :=
  ((c.supportedFields.find? fun f => f.logicalName = name).map Field.initialExact).getD (.int 0)

theorem initial_initialVars {c : ClassModel}
    (hnodup : (c.supportedFields.map Field.logicalName).Nodup) : c.Initial c.initialVars := by
  intro field hfield
  obtain ⟨other, hother⟩ : ∃ other, c.supportedFields.find?
      (fun f => f.logicalName = field.logicalName) = some other :=
    Option.isSome_iff_exists.mp (List.find?_isSome.mpr ⟨field, hfield, by simp⟩)
  have hname : other.logicalName = field.logicalName := by simpa using List.find?_some hother
  obtain rfl := List.inj_on_of_nodup_map hnodup (List.mem_of_find?_eq_some hother) hfield hname
  simp [initialVars, hother]

end ClassModel

section Definitions

variable {s : Signature} {fields : List Field}

-- The equations of the fields define an alias each, from nothing but literals.
theorem ordered_initialDefinition {known : AliasName → Prop}
    (hnodup : (fields.map Field.logicalName).Nodup)
    (hfresh : ∀ field ∈ fields, ¬known ⟨field.logicalName, 0⟩)
    (hsort : ∀ field ∈ fields,
      field.initialValue.sort = (s.symbolOf ⟨field.logicalName, 0⟩).sort) :
    Definition.Ordered s known (fields.map Field.initialDefinition) := by
  induction fields generalizing known with
  | nil => trivial
  | cons field rest ih =>
      rw [List.forall_mem_cons] at hfresh hsort
      rw [List.map_cons, List.nodup_cons] at hnodup
      refine ⟨hfresh.1, ?_, field.initialValue_wellSorted, hsort.1, ih hnodup.2 ?_ hsort.2⟩
      · simp [Field.initialDefinition, Field.symbols_initialValue]
      · rintro other hother (hknown | heq)
        · exact hfresh.2 other hother hknown
        · exact hnodup.1 (List.mem_map.mpr ⟨other, hother, congrArg AliasName.base heq⟩)

-- Following them, a search gives each field its initial value.
theorem attempt_initialDefinition (hnodup : (fields.map Field.logicalName).Nodup) (rest : List Step)
    (env : Env) : ∃ env' : Env,
      attempt env ((fields.map Field.initialDefinition).map (Definition.step s) ++ rest) =
        attempt env' rest ∧
      (∀ field ∈ fields, ∃ v : Scalar, v.exact = field.initialExact ∧
        env'.lookup (s.symbolOf ⟨field.logicalName, 0⟩).name = some v) ∧
      ∀ name, (∀ field ∈ fields, (s.symbolOf ⟨field.logicalName, 0⟩).name ≠ name) →
        env'.lookup name = env.lookup name := by
  induction fields generalizing env with
  | nil => exact ⟨env, rfl, by simp, fun _ _ => rfl⟩
  | cons field more ih =>
      rw [List.map_cons, List.nodup_cons] at hnodup
      obtain ⟨v, hexact, hv⟩ := field.exists_eval_initialValue
      obtain ⟨env', hattempt, hvalues, hothers⟩ :=
        ih hnodup.2 (((s.symbolOf ⟨field.logicalName, 0⟩).name, v) :: env)
      refine ⟨env', ?_, List.forall_mem_cons.mpr ⟨⟨v, hexact, ?_⟩, hvalues⟩, fun name hname => ?_⟩
      · rw [← hattempt]
        simp only [List.map_cons, List.cons_append, Definition.step, Field.initialDefinition, attempt,
          hv, Definition.symbol]
      · rw [hothers, List.lookup_cons_self]
        intro other hother heq
        have hname := congrArg AliasName.base (AliasName.text_injective heq)
        exact hnodup.1 (List.mem_map.mpr ⟨other, hother, hname⟩)
      · rw [List.forall_mem_cons] at hname
        rw [hothers name hname.2, NameMap.lookup_cons_of_ne v env (Ne.symm hname.1)]

end Definitions

namespace ClassModel

theorem nodup_of_initialQuery {c : ClassModel} {invariant : Clause} {f : Formula}
    (h : initialQuery c.initialState invariant = .ok f) :
    (c.supportedFields.map Field.logicalName).Nodup := by
  simp only [initialQuery, bind_eq_ok] at h
  obtain ⟨e, he, -⟩ := h
  unfold initialState at he
  split at he
  · next hinit => exact (nodup_of_initialFields Encoder.declares_empty hinit).1
  · cases he

namespace InitialEncoding

variable {c : ClassModel} {e : Encoder} {invariant : Clause} {t : Term}

theorem exists_field (h : c.InitialEncoding e) {name : String}
    (hname : e.signature.Registered e.table name) :
    ∃ field ∈ c.supportedFields, field.logicalName = name := by
  obtain ⟨⟨g, hg⟩, -⟩ := hname
  have hmem := h.declares.mem_of_get? hg
  simpa [fieldNames] using hmem

-- All that a query about the initial values mentions is a field.
theorem mem_occurrences (h : c.InitialEncoding e)
    (ht : e.signature.EncodesClause e.table invariant t) {x : Symbol}
    (hx : x ∈ (Formula.mk (e.assertions ++ [.not t])).occurrences) :
    ∃ field ∈ c.supportedFields, x = e.signature.symbolOf ⟨field.logicalName, 0⟩ := by
  obtain ⟨u, hu, hxu⟩ := List.mem_flatMap.mp hx
  rcases List.mem_append.mp hu with hu | hu
  · rw [h.assertions] at hu
    obtain ⟨field, hfield, rfl⟩ := List.mem_map.mp hu
    refine ⟨field, hfield, ?_⟩
    simpa [Field.initialEquation, Term.symbols, Field.symbols_initialValue] using hxu
  · rw [List.mem_singleton.mp hu] at hxu
    obtain ⟨text, y, location, rfl, hy, -⟩ := ht
    obtain ⟨name, hname, rfl⟩ := hy.symbols x hxu
    obtain ⟨field, hfield, rfl⟩ := h.exists_field hname
    exact ⟨field, hfield, h.declares.latest _⟩

theorem steps_query (h : c.InitialEncoding e) (hinit : c.InitializersSorted)
    (hnodup : (c.supportedFields.map Field.logicalName).Nodup) (t : Term) :
    (Plan.ofFormula ⟨e.assertions ++ [.not t]⟩).steps =
      (c.supportedFields.map Field.initialDefinition).map (Definition.step e.signature) ++
        [.require (.not t)] := by
  have hdefines : e.assertions =
      (c.supportedFields.map Field.initialDefinition).map (Definition.equation e.signature) := by
    rw [h.assertions, List.map_map]
    rfl
  have hsort : ∀ field ∈ c.supportedFields,
      field.initialValue.sort = (e.signature.symbolOf ⟨field.logicalName, 0⟩).sort := by
    intro field hfield
    rw [field.sort_initialValue]
    exact (h.sort_initialExact hinit hfield).2
  have hordered : Definition.Ordered e.signature (fun _ => False)
      (c.supportedFields.map Field.initialDefinition) :=
    ordered_initialDefinition hnodup (fun _ _ => id) hsort
  obtain ⟨seen, -, hsteps⟩ := Plan.build_append [] e.assertions [.not t]
  rw [Plan.ofFormula, hsteps, hdefines, hordered.steps_build (by simp)]
  rfl

-- Every name is defined, so none is left to be tried.
theorem free_query (h : c.InitialEncoding e) (hinit : c.InitializersSorted)
    (hnodup : (c.supportedFields.map Field.logicalName).Nodup)
    (ht : e.signature.EncodesClause e.table invariant t) :
    (Plan.ofFormula ⟨e.assertions ++ [.not t]⟩).free = [] := by
  refine List.eq_nil_iff_forall_not_mem.mpr fun x hx => ?_
  obtain ⟨field, hfield, rfl⟩ := h.mem_occurrences ht (Plan.mem_free hx).1
  have hdefined : (e.signature.symbolOf ⟨field.logicalName, 0⟩).name ∈
      Step.defined (Plan.ofFormula ⟨e.assertions ++ [.not t]⟩).steps := by
    rw [h.steps_query hinit hnodup, Step.defined_append, Definition.defined_steps, List.map_map]
    exact List.mem_append_left _ (List.mem_map.mpr ⟨field, hfield, rfl⟩)
  have hnames := List.nodup_append.mp (Plan.nodup_names [] (e.assertions ++ [.not t]))
  exact hnames.2.2 _ (List.mem_map_of_mem hx) _ hdefined rfl

theorem reflects (h : c.InitialEncoding e) (hinit : c.InitializersSorted)
    (hnodup : (c.supportedFields.map Field.logicalName).Nodup) {env : Env}
    (henv : ∀ field ∈ c.supportedFields, ∃ v : Scalar, v.exact = field.initialExact ∧
      env.lookup (e.signature.symbolOf ⟨field.logicalName, 0⟩).name = some v) :
    env.Reflects e.signature e.table ⟨c.initialVars, none⟩ where
  vars := fun name hname => by
    obtain ⟨field, hfield, rfl⟩ := h.exists_field hname
    obtain ⟨v, hexact, hlookup⟩ := henv field hfield
    rw [h.declares.latest]
    refine ⟨v, hlookup, ?_, ?_⟩
    · rw [← v.sort_exact, hexact]
      exact (h.sort_initialExact hinit hfield).2
    · rw [hexact]
      exact initial_initialVars hnodup field hfield
  result := by simp [h.hasResult]

end InitialEncoding

-- The status is the one that evaluating the invariant calls for.
structure Settles (zero : ZeroDivision) (st : State) (invariant : Clause) (status : Status) :
    Prop where
  proved : status = .proved ↔ invariant.Evaluates zero st true
  violated : (∃ v, status = .violated v) ↔ invariant.Evaluates zero st false
  inconclusive : (∃ reason, status = .inconclusive reason) ↔ invariant.Faults zero st

namespace Settles

variable {zero : ZeroDivision} {st : State} {invariant : Clause}

theorem of_faults (h : invariant.Faults zero st) (reason : Inconclusive) :
    Settles zero st invariant (.inconclusive reason) where
  proved := by simp [Clause.Evaluates, h]
  violated := by simp [Clause.Evaluates, h]
  inconclusive := by simp [h]

theorem of_true (h : invariant.Evaluates zero st true) : Settles zero st invariant .proved where
  proved := by simp [h]
  violated := by simp [Clause.Evaluates, h.2]
  inconclusive := by simp [h.1]

theorem of_false (h : invariant.Evaluates zero st false) (v : Violation) :
    Settles zero st invariant (.violated v) where
  proved := by simp [Clause.Evaluates, h.2]
  violated := by simp [h]
  inconclusive := by simp [h.1]

end Settles

variable {c : ClassModel} {bounds : Bounds} {invariant : Clause} {f : Formula}

theorem status_initial (emitSmt : Bool) (hf : initialQuery c.initialState invariant = .ok f) :
    ((Obligation.mk (.initial invariant) c.fieldTypes
      (initialQuery c.initialState invariant)).discharge (.bounded bounds) emitSmt ()).1.status =
      (Obligation.mk (.initial invariant) c.fieldTypes (.ok f)).judge (.ok (check bounds f)) := by
  rw [hf]
  rfl

theorem free_initial (hinit : c.InitializersSorted)
    (hf : initialQuery c.initialState invariant = .ok f) : (Plan.ofFormula f).free = [] := by
  have hnodup := nodup_of_initialQuery hf
  obtain ⟨e, h, t, ht, rfl⟩ := initialQuery_eq_ok hf
  exact h.free_query hinit hnodup ht

-- The values of the fields are defined first. What is left is one evaluation of the invariant.
theorem settles_initial (hbudget : 1 ≤ bounds.budget) (hinit : c.InitializersSorted)
    (hf : initialQuery c.initialState invariant = .ok f) (zero : ZeroDivision) :
    Settles zero ⟨c.initialVars, none⟩ invariant
      ((Obligation.mk (.initial invariant) c.fieldTypes (.ok f)).judge (.ok (check bounds f))) := by
  have hnodup := nodup_of_initialQuery hf
  have hfree := free_initial hinit hf
  obtain ⟨e, h, t, ht, rfl⟩ := initialQuery_eq_ok hf
  obtain ⟨hholds, hfails, hundetermined⟩ := check_of_free_nil hfree hbudget
  obtain ⟨env, hattempt, henv, -⟩ :=
    @attempt_initialDefinition e.signature _ hnodup [.require (.not t)] []
  rw [← h.steps_query hinit hnodup t] at hattempt
  rcases ht.checks (h.reflects hinit hnodup henv) zero with ⟨hfaults, hnone⟩ | ⟨b, hevaluates, hb⟩
  · have hstalls : attempt env [.require (.not t)] = .undetermined := by
      simp [attempt, Term.eval, hnone]
    obtain ⟨reason, hcheck⟩ := hundetermined (hattempt.trans hstalls)
    rw [hcheck]
    exact .of_faults hfaults _
  · cases b with
    | true =>
        have hrefuted : attempt env [.require (.not t)] = .fails := by
          simp [attempt, Term.eval, hb, Scalar.asBool]
        rw [hfails (hattempt.trans hrefuted)]
        exact .of_true hevaluates
    | false =>
        have hpasses : attempt env [.require (.not t)] = .holds env := by
          simp [attempt, Term.eval, hb, Scalar.asBool]
        rw [hholds env (hattempt.trans hpasses)]
        exact .of_false hevaluates _

-- What is asked about the initial values is decided by evaluating the invariant on them once. It is
-- left open only where that faults.
theorem initial_obligations_decided (bounds : Bounds) (hbudget : 1 ≤ bounds.budget) (emitSmt : Bool)
    {c : ClassModel} (hsealed : c.isSealed = true) (hsupported : c.firstUnsupported = none)
    (hinit : c.InitializersSorted) :
    ∃ initial methods,
      (c.verify (.bounded bounds) emitSmt ()).1.outcome = .checked initial methods ∧
      List.Forall₂ (fun invariant r => r.kind = .invariantInitial ∧ r.subject = invariant.text ∧
        ∀ f, initialQuery c.initialState invariant = .ok f → (Plan.ofFormula f).free = [] ∧
          c.Initial c.initialVars ∧ ∀ zero, Settles zero ⟨c.initialVars, none⟩ invariant r.status)
        c.invariants initial := by
  refine ⟨_, _, outcome_bounded hsealed hsupported, ?_⟩
  rw [initialObligations, List.map_map, List.forall₂_map_right_iff, List.forall₂_same]
  intro invariant _
  refine ⟨Obligation.kind_discharge, Obligation.subject_discharge, fun f hf => ?_⟩
  refine ⟨free_initial hinit hf, initial_initialVars (nodup_of_initialQuery hf), fun zero => ?_⟩
  rw [Function.comp_apply, status_initial emitSmt hf]
  exact settles_initial hbudget hinit hf zero

end ClassModel

-- A gauge whose limit leaves no room above it, and whose level starts at zero.
namespace Gauge

def limit : Field :=
  ⟨"limit", .named "long" false, some (.int 9223372036854775807), "Gauge", none, default⟩

def level : Field := ⟨"level", .named "int" false, none, "Gauge", none, default⟩

def alarm : Field := ⟨"alarm", .named "bool" false, none, "Gauge", none, default⟩

def invariant (e : Expression) : Clause := .supported e.text e default

def read (f : Field) : Expression := .variable (.field f)

def number (n : Int64) : Expression := .literal (.int n)

-- The first holds and the second does not. The others have no value: one exceeds 64 bits, and one
-- divides by zero after a condition that holds.
def invariants : List Clause :=
  [invariant (.logical .and (.unary .not (read alarm)) (.comparison .equal (read level) (number 0))),
    invariant (.comparison (.order .lt) (read limit) (read level)),
    invariant (.comparison (.order .gt) (.arithmetic .add (read limit) (number 1)) (number 0)),
    invariant (.logical .or (.comparison .equal (read level) (number 0))
      (.comparison (.order .gt) (.arithmetic .div (read limit) (read level)) (number 1)))]

def model : ClassModel :=
  ⟨"Gauge", ⟨[.supported limit, .supported level, .supported alarm],
      .ofList [("alarm", 2), ("level", 1), ("limit", 0)], true⟩,
    .sealedEmpty, invariants, default⟩

end Gauge

theorem ClassModel.initial_obligations_decided_gauge :
    (∀ invariant ∈ Gauge.invariants,
      (initialQuery Gauge.model.initialState invariant).isOk = true) ∧
    (Gauge.model.verify (.bounded ⟨0, 1⟩) false ()).1.totals = ⟨1, 1, 2⟩ ∧
    ∃ initial methods,
      (Gauge.model.verify (.bounded ⟨0, 1⟩) false ()).1.outcome = .checked initial methods ∧
      List.Forall₂ (fun invariant r => r.kind = .invariantInitial ∧ r.subject = invariant.text ∧
        ∀ f, initialQuery Gauge.model.initialState invariant = .ok f →
          (Plan.ofFormula f).free = [] ∧ Gauge.model.Initial Gauge.model.initialVars ∧
          ∀ zero, Settles zero ⟨Gauge.model.initialVars, none⟩ invariant r.status)
        Gauge.invariants initial :=
  ⟨by decide +kernel, by decide +kernel,
    initial_obligations_decided ⟨0, 1⟩ (by decide) false rfl rfl (by decide)⟩

end Covenant
