import Covenant.Proofs.Search.Soundness
import Covenant.Proofs.Verify.Initial
import Covenant.Proofs.Verify.Query
import Covenant.Proofs.Verify.Report

namespace Covenant

open Statement

-- A solver that proves only what has no model.
def Solver.Sound {σ : Type} (solver : Solver σ) : Prop :=
  ∀ f s, f.WellSorted → (solver.check f s).1 = .ok .proved → f.Unsatisfiable

namespace ClassModel

variable {c : ClassModel} {m : Method}

theorem mem_initialObligations {invariant : Clause} (h : invariant ∈ c.invariants) :
    ⟨.initial invariant, c.fieldTypes, initialQuery c.initialState invariant⟩ ∈
      c.initialObligations := List.mem_map_of_mem h

theorem mem_methodObligations_ensure {clause : Clause} (h : clause ∈ m.ensures) :
    ⟨.ensure m.name clause, c.methodTypes m,
      (MethodState.ofMethod c m).bind (·.ensureQuery clause)⟩ ∈ c.methodObligations m :=
  List.mem_append_left _ (List.mem_append_right _ (List.mem_map.mpr ⟨clause, h, rfl⟩))

theorem mem_methodObligations_preservation {invariant : Clause} (hpublic : m.isPublic = true)
    (h : invariant ∈ c.invariants) : ⟨.preservation m.name invariant, c.methodTypes m,
      (MethodState.ofMethod c m).bind (·.preservationQuery invariant)⟩ ∈ c.methodObligations m := by
  refine List.mem_append_right _ (List.mem_map.mpr ⟨invariant, ?_, rfl⟩)
  rw [if_pos hpublic]
  exact h

theorem bind_ofMethod_eq_ok {query : MethodState → Except EncodeError Formula} {f : Formula}
    (h : (MethodState.ofMethod c m).bind query = .ok f) :
    ∃ s e e' after, MethodState.Encoding c m s e e' after ∧ query s = .ok f := by
  obtain ⟨s, hs, hquery⟩ := bind_eq_ok.mp h
  obtain ⟨e, e', after, hencoding⟩ := MethodState.ofMethod_eq_ok hs
  exact ⟨s, e, e', after, hencoding, hquery⟩

theorem map_ofMethod_eq_ok {f : Formula}
    (h : (MethodState.ofMethod c m).map (·.preconditionQuery) = .ok f) :
    ∃ s e e' after, MethodState.Encoding c m s e e' after ∧ f = s.preconditionQuery := by
  cases hs : MethodState.ofMethod c m with
  | error error =>
      rw [hs] at h
      cases h
  | ok s =>
      rw [hs] at h
      cases h
      obtain ⟨e, e', after, hencoding⟩ := MethodState.ofMethod_eq_ok hs
      exact ⟨s, e, e', after, hencoding, rfl⟩

section

variable {σ : Type} {solver : Solver σ} {emitSmt : Bool} {s : σ}

-- What a clean report says about each goal that wants no model.
structure Clean (c : ClassModel) : Prop where
  initial : ∀ invariant ∈ c.invariants, ∃ e f, c.InitialEncoding e ∧
    InitialQuery e invariant f ∧ f.Unsatisfiable
  ensure : ∀ m ∈ c.supportedMethods, ∀ clause ∈ m.ensures, ∃ s e e' after f,
    MethodState.Encoding c m s e e' after ∧ s.Query [] clause f ∧ f.Unsatisfiable
  preservation : ∀ m ∈ c.supportedMethods, m.isPublic = true → ∀ invariant ∈ c.invariants,
    ∃ s e e' after f, MethodState.Encoding c m s e e' after ∧ s.Query [invariant] invariant f ∧
      f.Unsatisfiable

-- A sound solver may be in any state at each query, so that the methods can be taken in any order.
theorem clean_of_discharges {r : ClassReport} (hsolver : solver.Sound)
    (hinit : c.InitializersSorted) (hreport : c.Discharges solver emitSmt r)
    (hproved : ∀ o ∈ r.obligations, o.status = .proved) : c.Clean := by
  constructor
  · intro invariant hinv
    obtain ⟨s', hs'⟩ := hreport _ (mem_obligations.mpr (.inl (mem_initialObligations hinv)))
    obtain ⟨f, hf, hanswer⟩ := Obligation.query_of_proved rfl (hproved _ hs')
    obtain ⟨e, hencoding, hquery⟩ := initialQuery_eq_ok hf
    exact ⟨e, f, hencoding, hquery, hsolver f s' (hencoding.query_wellSorted hinit hquery) hanswer⟩
  · intro m hm clause hclause
    obtain ⟨s', hs'⟩ := hreport _
      (mem_obligations.mpr (.inr ⟨m, hm, mem_methodObligations_ensure hclause⟩))
    obtain ⟨f, hf, hanswer⟩ := Obligation.query_of_proved rfl (hproved _ hs')
    obtain ⟨s, e, e', after, hencoding, hquery⟩ := bind_ofMethod_eq_ok hf
    replace hquery := MethodState.ensureQuery_eq_ok hquery
    exact ⟨s, e, e', after, f, hencoding, hquery,
      hsolver f s' (s.signature.formula_wellSorted (hencoding.proper_query hquery)) hanswer⟩
  · intro m hm hpublic invariant hinv
    obtain ⟨s', hs'⟩ := hreport _
      (mem_obligations.mpr (.inr ⟨m, hm, mem_methodObligations_preservation hpublic hinv⟩))
    obtain ⟨f, hf, hanswer⟩ := Obligation.query_of_proved rfl (hproved _ hs')
    obtain ⟨s, e, e', after, hencoding, hquery⟩ := bind_ofMethod_eq_ok hf
    replace hquery := MethodState.preservationQuery_eq_ok hquery
    exact ⟨s, e, e', after, f, hencoding, hquery,
      hsolver f s' (s.signature.formula_wellSorted (hencoding.proper_query hquery)) hanswer⟩

theorem clean_of_exitCode (hsolver : solver.Sound) (hinit : c.InitializersSorted)
    (hexit : exitCode [(c.verify solver emitSmt s).1] = 0) : c.Clean := by
  obtain ⟨⟨initial, methods, houtcome⟩, hproved⟩ := proved_of_exitCode hexit
  exact clean_of_discharges hsolver hinit (discharges_of_checked houtcome) hproved

end

-- By induction on the calls. The invariant is carried together with the sorts of the fields, which
-- make the state before a call one that the method can be called in.
theorem Clean.invariant_of_reachable (h : c.Clean) (hinit : c.InitializersSorted)
    (hc : c.WellScoped) {zero : ZeroDivision} {fields : String → Exact}
    (hreachable : c.Reachable zero fields) {invariant : Clause} (hinv : invariant ∈ c.invariants) :
    (∀ p ∈ c.fieldNames, p.2.sort? = some (fields p.1).sort) ∧
      invariant.Holds zero ⟨fields, none⟩ := by
  obtain ⟨e₀, f₀, hinitial, hquery₀, hunsat₀⟩ := h.initial invariant hinv
  induction hreachable with
  | @initial fields hfields =>
      refine ⟨?_, hinitial.holds_of_unsatisfiable hinit hquery₀ hunsat₀ hfields⟩
      simp only [fieldNames, List.forall_mem_map]
      intro field hfield
      rw [hfields field hfield]
      exact (hinitial.sort_initialExact hinit hfield).1
  | @call before after m entry exit returned hbefore hm hpublic hfields hargs hrequires hrun hafter
      ih =>
      obtain ⟨hsorts, hholds⟩ := ih
      obtain ⟨s, e, e', flag, f, hencoding, hquery, hunsat⟩ := h.preservation m hm hpublic invariant hinv
      have hentry : c.Entry m entry :=
        ⟨hargs, fun p hp => by rw [hfields p hp]; exact hsorts p hp⟩
      have hscope : ∀ v ∈ invariant.mentioned, v.logicalName ∈ c.scope m := by
        intro v hv
        have hmem := hinitial.mentioned_mem hquery₀ v hv
        simp only [scope, methodNames, List.map_append]
        exact List.mem_append_left _ hmem
      have hpre : invariant.Holds zero entry :=
        (hinitial.eval_congr hquery₀ hfields).trans hholds
      obtain ⟨exit', returned', hrun', hpost, hsorts'⟩ := hencoding.holds_of_unsatisfiable hquery hc hm
        (by simpa using hscope) hscope hunsat hentry hrequires (by simpa using hpre)
      obtain ⟨rfl, rfl⟩ := Prod.mk.inj (Option.some.inj (hrun.symm.trans hrun'))
      refine ⟨fun p hp => ?_, (hinitial.eval_congr hquery₀ hafter).trans hpost⟩
      rw [hafter p hp]
      exact hsorts' p (List.mem_append_left _ hp)

-- A clean report is right about all runs: the invariants hold between any calls of public methods,
-- and a method that is called where its requires hold ends where its ensures hold.
theorem clean_report_sound {σ : Type} {solver : Solver σ} {emitSmt : Bool} {s : σ} {c : ClassModel}
    (hsolver : solver.Sound) (hinit : c.InitializersSorted) (hc : c.WellScoped)
    (hexit : exitCode [(c.verify solver emitSmt s).1] = 0) (zero : ZeroDivision) :
    (∀ fields, c.Reachable zero fields → ∀ invariant ∈ c.invariants,
      invariant.Holds zero ⟨fields, none⟩) ∧
    ∀ m ∈ c.supportedMethods, ∀ entry, c.Entry m entry →
      (∀ r ∈ m.requires, r.Holds zero entry) → ∀ clause ∈ m.ensures,
        ∃ exit returned, execBlock zero m.body entry = some (exit, returned) ∧
          clause.Holds zero exit := by
  have hclean := clean_of_exitCode hsolver hinit hexit
  constructor
  · intro fields hreachable invariant hinv
    exact (hclean.invariant_of_reachable hinit hc hreachable hinv).2
  · intro m hm entry hentry hrequires clause hclause
    obtain ⟨s, e, e', flag, f, hencoding, hquery, hunsat⟩ := hclean.ensure m hm clause hclause
    obtain ⟨exit, returned, hrun, hholds, -⟩ := hencoding.holds_of_unsatisfiable hquery hc hm
      (by simp) (hc.ensures m hm clause hclause) hunsat hentry hrequires (by simp)
    exact ⟨exit, returned, hrun, hholds⟩

end ClassModel

theorem Solver.bounded_sound (bounds : Search.Bounds) : (Solver.bounded bounds).Sound :=
  fun _ _ hf h => Search.unsatisfiable_of_check hf.names (Except.ok.inj h)

-- A door that is never both open and locked.
namespace Door

def isOpen : Field := ⟨"open", .named "bool" false, none, "Door", none, default⟩

def isLocked : Field := ⟨"locked", .named "bool" false, some (.bool false), "Door", none, default⟩

def lock : Method :=
  ⟨"Lock", .pub, .named "void" false, .sealedEmpty, .sealedEmpty,
    [.supported "!open" (.unary .not (.variable (.field isOpen))) default],
    [.assignment (.field isLocked) (.literal (.bool true)) default],
    [.supported "locked" (.variable (.field isLocked)) default], default⟩

def model : ClassModel :=
  ⟨"Door", ⟨[.supported isOpen, .supported isLocked], .ofList [("locked", 1), ("open", 0)], true⟩,
    ⟨[.supported lock], .ofList [("Lock", 0)], true⟩,
    [.supported "!(open && locked)" (.unary .not (.parenthesized (.logical .and
      (.variable (.field isOpen)) (.variable (.field isLocked))))) default], default⟩

theorem reachable_locked (zero : ZeroDivision) :
    model.Reachable zero fun name => .bool (name = "this.locked") := by
  let entry : State := ⟨fun _ => .bool false, none⟩
  have hinitial : model.Initial entry.vars := by decide
  have hlock : lock ∈ model.supportedMethods := List.mem_singleton_self lock
  have hargs : lock.Arguments entry := ⟨by decide, by decide⟩
  have hrequires : ∀ r ∈ lock.requires, r.Holds zero entry := by
    simp [lock, entry, Clause.Holds, Clause.eval, Expression.eval, Unary.apply, Exact.asBool]
  have hrun : Statement.execBlock zero lock.body entry =
      some (entry.set "this.locked" (.bool true), false) := rfl
  exact .call (.initial hinitial) hlock rfl (fun _ _ => rfl) hargs hrequires hrun (by decide)

end Door

theorem ClassModel.clean_report_sound_door :
    exitCode [(Door.model.verify (Solver.bounded .standard) false ()).1] = 0 ∧
    Door.model.Reachable (fun n => n) (fun name => .bool (name = "this.locked")) ∧
    ∀ invariant ∈ Door.model.invariants,
      invariant.Holds (fun n => n) ⟨fun name => .bool (name = "this.locked"), none⟩ := by
  have hexit : exitCode [(Door.model.verify (Solver.bounded .standard) false ()).1] = 0 := by
    decide +kernel
  have hsound := clean_report_sound (Solver.bounded_sound .standard) (by decide)
    ⟨by decide, by decide, by decide⟩ hexit fun n => n
  exact ⟨hexit, Door.reachable_locked _, hsound.1 _ (Door.reachable_locked _)⟩

end Covenant
