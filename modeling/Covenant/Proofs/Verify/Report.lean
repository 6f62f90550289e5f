import Covenant.Proofs.Data.NameMap
import Covenant.Verify.Engine
import Mathlib.Data.List.Forall2

namespace Covenant

namespace Totals

theorem inconclusive_foldl (reports : List ObligationReport) (t : Totals) :
    (reports.foldl count t).inconclusive =
      t.inconclusive + reports.countP fun r => r.inconclusive?.isSome := by
  induction reports generalizing t with
  | nil => rfl
  | cons r rest ih =>
      have hone : (count t r).inconclusive =
          t.inconclusive + if r.inconclusive?.isSome then 1 else 0 := by
        unfold count ObligationReport.inconclusive?
        cases r.status <;> rfl
      rw [List.foldl_cons, ih, List.countP_cons, hone]
      omega

end Totals

-- The exit code of one class is 0 only if it was checked and all of its obligations are proved.
theorem proved_of_exitCode {r : ClassReport} (h : exitCode [r] = 0) :
    (∃ initial methods, r.outcome = .checked initial methods) ∧
      ∀ o ∈ r.obligations, o.status = .proved := by
  simp only [exitCode, List.any_cons, List.any_nil, Bool.or_false] at h
  split at h
  · cases h
  · rename_i hviolations
    split at h
    · cases h
    · rename_i hcomplete
      simp only [Bool.not_eq_true', Bool.not_eq_false, List.isEmpty_iff, ClassReport.violations,
        List.filterMap_eq_nil_iff] at hviolations
      unfold ClassReport.isIncomplete at hcomplete
      split at hcomplete
      · rename_i initial methods houtcome
        refine ⟨⟨initial, methods, houtcome⟩, fun o ho => ?_⟩
        have hcount : r.obligations.countP (fun o => o.inconclusive?.isSome) = 0 := by
          have htotal := Totals.inconclusive_foldl r.obligations .zero
          simp only [ClassReport.totals, gt_iff_lt, decide_eq_true_eq] at hcomplete
          simp only [Totals.zero] at htotal hcomplete
          omega
        have hinconclusive := List.countP_eq_zero.mp hcount o ho
        have hviolated := hviolations o ho
        unfold ObligationReport.inconclusive? at hinconclusive
        unfold ObligationReport.violation? at hviolated
        cases hstatus : o.status with
        | proved => rfl
        | violated v => simp [hstatus] at hviolated
        | inconclusive reason => simp [hstatus] at hinconclusive
      · exact absurd rfl hcomplete

section Discharge

variable {σ : Type} (solver : Solver σ) (emitSmt : Bool)

theorem Obligation.exists_mem_dischargeAll {os : List Obligation} {o : Obligation} (ho : o ∈ os)
    (s : σ) : ∃ s', (o.discharge solver emitSmt s').1 ∈ (dischargeAll solver emitSmt os s).1 := by
  induction os generalizing s with
  | nil => cases ho
  | cons first rest ih =>
      rcases List.mem_cons.mp ho with rfl | ho
      · exact ⟨s, List.mem_cons_self⟩
      · obtain ⟨s', hs'⟩ := ih ho (first.discharge solver emitSmt s).2
        exact ⟨s', List.mem_cons_of_mem _ hs'⟩

-- Each obligation is discharged from the state that the ones before it leave.
theorem Obligation.forall₂_dischargeAll (os : List Obligation) (s : σ) :
    List.Forall₂ (fun o r => ∃ s', r = (o.discharge solver emitSmt s').1) os
      (dischargeAll solver emitSmt os s).1 := by
  induction os generalizing s with
  | nil => exact .nil
  | cons o rest ih => exact .cons ⟨s, rfl⟩ (ih _)

theorem Obligation.dischargeAll_append (os more : List Obligation) (s : σ) :
    dischargeAll solver emitSmt (os ++ more) s =
      ((dischargeAll solver emitSmt os s).1 ++
          (dischargeAll solver emitSmt more (dischargeAll solver emitSmt os s).2).1,
        (dischargeAll solver emitSmt more (dischargeAll solver emitSmt os s).2).2) := by
  induction os generalizing s with
  | nil => rfl
  | cons o rest ih => simp [dischargeAll, ih]

-- All obligations of a class, in the order of the report.
def ClassModel.obligations (c : ClassModel) : List Obligation :=
  c.initialObligations ++ c.supportedMethods.flatMap c.methodObligations

theorem ClassModel.of_mem_methodObligations {c : ClassModel} {m : Method} {o : Obligation}
    (ho : o ∈ c.methodObligations m) :
    (∃ first rest, o = ⟨.precondition m.name first rest, c.methodTypes m,
      (MethodState.ofMethod c m).map (·.preconditionQuery)⟩) ∨
    (∃ clause ∈ m.ensures, o = ⟨.ensure m.name clause, c.methodTypes m,
      (MethodState.ofMethod c m).bind (·.ensureQuery clause)⟩) ∨
    ∃ invariant ∈ c.invariants, o = ⟨.preservation m.name invariant, c.methodTypes m,
      (MethodState.ofMethod c m).bind (·.preservationQuery invariant)⟩ := by
  simp only [methodObligations, List.mem_append, List.mem_map] at ho
  rcases ho with (⟨goal, hgoal, rfl⟩ | ⟨clause, hclause, rfl⟩) | ⟨invariant, hinv, rfl⟩
  · left
    unfold preconditions at hgoal
    split at hgoal
    · cases hgoal
    · rename_i first rest _
      exact ⟨first, rest, by rw [List.mem_singleton.mp hgoal]⟩
  · exact .inr (.inl ⟨clause, hclause, rfl⟩)
  · refine .inr (.inr ⟨invariant, ?_, rfl⟩)
    split at hinv
    · exact hinv
    · cases hinv

theorem ClassModel.mem_obligations {c : ClassModel} {o : Obligation} : o ∈ c.obligations ↔
    o ∈ c.initialObligations ∨ ∃ m ∈ c.supportedMethods, o ∈ c.methodObligations m := by
  rw [obligations, List.mem_append, List.mem_flatMap]

theorem ClassModel.dischargeAll_methods (c : ClassModel) (ms : List Method) (s : σ) :
    Obligation.dischargeAll solver emitSmt (ms.flatMap c.methodObligations) s =
      ((c.verifyMethods solver emitSmt ms s).1.flatMap MethodReport.obligations,
        (c.verifyMethods solver emitSmt ms s).2) := by
  induction ms generalizing s with
  | nil => rfl
  | cons m rest ih =>
      rw [List.flatMap_cons, Obligation.dischargeAll_append, ih]
      rfl

theorem ClassModel.verify_of_unsealed {c : ClassModel} (h : c.isSealed = false) (s : σ) :
    c.verify solver emitSmt s =
      (⟨c.name, solver.name, 0, .fault ("class `" ++ c.name ++ "` has unsealed tables")⟩, s) := by
  simp [verify, outcome, h]

theorem ClassModel.verify_of_unsupported {c : ClassModel} (hsealed : c.isSealed = true)
    {location : Location} (h : c.firstUnsupported = some location) (s : σ) :
    c.verify solver emitSmt s = (⟨c.name, solver.name, 0, .unsupported location⟩, s) := by
  simp [verify, outcome, hsealed, h]

-- A class that passes both gates is checked, one obligation after the other.
theorem ClassModel.verify_of_gates {c : ClassModel} (hsealed : c.isSealed = true)
    (hsupported : c.firstUnsupported = none) (s : σ) :
    (∃ initial methods, (c.verify solver emitSmt s).1.outcome = .checked initial methods) ∧
      Obligation.dischargeAll solver emitSmt c.obligations s =
        ((c.verify solver emitSmt s).1.obligations, (c.verify solver emitSmt s).2) := by
  simp only [verify, outcome, hsealed, hsupported, if_true]
  refine ⟨⟨_, _, rfl⟩, ?_⟩
  rw [obligations, Obligation.dischargeAll_append, dischargeAll_methods]
  rfl

variable {solver emitSmt}

theorem ClassModel.gates_of_checked {c : ClassModel} {s : σ} {initial : List ObligationReport}
    {methods : List MethodReport}
    (h : (c.verify solver emitSmt s).1.outcome = .checked initial methods) :
    c.isSealed = true ∧ c.firstUnsupported = none := by
  cases hsealed : c.isSealed with
  | false => simp [verify_of_unsealed solver emitSmt hsealed s] at h
  | true =>
      cases hsupported : c.firstUnsupported with
      | some location => simp [verify_of_unsupported solver emitSmt hsealed hsupported s] at h
      | none => exact ⟨rfl, rfl⟩

-- The report has each obligation of the class, discharged from some state of the solver. The order
-- in which they were taken is left open.
def ClassModel.Discharges (solver : Solver σ) (emitSmt : Bool) (c : ClassModel) (r : ClassReport) :
    Prop := ∀ o ∈ c.obligations, ∃ s, (o.discharge solver emitSmt s).1 ∈ r.obligations

theorem ClassModel.discharges_of_checked {c : ClassModel} {s : σ}
    {initial : List ObligationReport} {methods : List MethodReport}
    (h : (c.verify solver emitSmt s).1.outcome = .checked initial methods) :
    c.Discharges solver emitSmt (c.verify solver emitSmt s).1 := by
  intro o ho
  obtain ⟨hsealed, hsupported⟩ := gates_of_checked h
  have hreport := (verify_of_gates solver emitSmt hsealed hsupported s).2
  obtain ⟨s', hs'⟩ := Obligation.exists_mem_dischargeAll solver emitSmt ho s
  rw [hreport] at hs'
  exact ⟨s', hs'⟩

namespace Obligation

variable {o : Obligation} {s : σ}

-- A report is about the goal of its obligation, decided or not.

theorem kind_discharge : (o.discharge solver emitSmt s).1.kind = o.goal.kind := by
  unfold discharge
  split <;> rfl

theorem subject_discharge : (o.discharge solver emitSmt s).1.subject = o.goal.subject := by
  unfold discharge
  split <;> rfl

-- Only an answer of the solver decides a goal.
theorem judged_of_decided {status : Status} (h : (o.discharge solver emitSmt s).1.status = status)
    (hdecided : ∀ reason, status ≠ .inconclusive reason) :
    ∃ f, o.query = .ok f ∧ o.judge (solver.check f s).1 = status := by
  unfold discharge at h
  split at h
  · exact absurd h.symm (hdecided _)
  · rename_i f hf
    exact ⟨f, hf, h⟩

-- A goal that wants a model is proved by one and violated where there is none. It is the other way
-- round for any other goal.

theorem judge_eq_proved {answer : Answer} : o.judge answer = .proved ↔
    o.goal.wantsModel = false ∧ answer = .ok .proved ∨
      o.goal.wantsModel = true ∧ ∃ model, answer = .ok (.counterexample model) := by
  unfold judge
  cases o.goal.wantsModel <;> split <;> simp

theorem judge_eq_violated {answer : Answer} {v : Violation} : o.judge answer = .violated v ↔
    o.goal.wantsModel = true ∧ answer = .ok .proved ∧ v = o.goal.violation none ∨
      o.goal.wantsModel = false ∧ ∃ model, answer = .ok (.counterexample model) ∧
        v = o.goal.violation (Counterexample.ofAssignment o.types model).nonEmpty? := by
  unfold judge
  cases o.goal.wantsModel <;> split <;> simp [eq_comm]

theorem query_of_proved (hgoal : o.goal.wantsModel = false)
    (h : (o.discharge solver emitSmt s).1.status = .proved) :
    ∃ f, o.query = .ok f ∧ (solver.check f s).1 = .ok .proved := by
  obtain ⟨f, hf, hjudge⟩ := judged_of_decided h (by simp)
  rcases judge_eq_proved.mp hjudge with ⟨-, hanswer⟩ | ⟨hwants, -⟩
  · exact ⟨f, hf, hanswer⟩
  · rw [hgoal] at hwants
    cases hwants

end Obligation

end Discharge

end Covenant
