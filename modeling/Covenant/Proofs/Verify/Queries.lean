import Covenant.Proofs.Verify.Report

namespace Covenant

-- The same solver, which also keeps what it is asked.
def Solver.recording (solver : Solver σ) : Solver (σ × List Formula) where
  name := solver.name
  check f s := ((solver.check f s.1).1, (solver.check f s.1).2, s.2 ++ [f])

@[simp]
theorem Solver.name_recording (solver : Solver σ) : solver.recording.name = solver.name := rfl

-- What the solver is asked while a class is verified.
def ClassModel.queries (solver : Solver σ) (emitSmt : Bool) (c : ClassModel) (s : σ) :
    List Formula := (c.verify solver.recording emitSmt (s, [])).2.2

-- The queries that there are.
def Obligation.queries (os : List Obligation) : List Formula := os.filterMap (·.query.toOption)

section

variable {σ : Type} (solver : Solver σ) (emitSmt : Bool)

namespace Obligation

theorem mem_queries {os : List Obligation} {f : Formula} :
    f ∈ queries os ↔ ∃ o ∈ os, o.query = .ok f := by
  simp only [queries, List.mem_filterMap]
  refine exists_congr fun o => and_congr_right fun _ => ?_
  cases o.query <;> simp [Except.toOption]

theorem queries_append (os more : List Obligation) :
    queries (os ++ more) = queries os ++ queries more := List.filterMap_append

theorem discharge_recording (o : Obligation) (s : σ) (asked : List Formula) :
    o.discharge solver.recording emitSmt (s, asked) =
      ((o.discharge solver emitSmt s).1, (o.discharge solver emitSmt s).2,
        asked ++ queries [o]) := by
  unfold discharge queries
  cases hquery : o.query <;> simp [hquery, Except.toOption, Solver.recording]

theorem dischargeAll_recording (os : List Obligation) (s : σ) (asked : List Formula) :
    dischargeAll solver.recording emitSmt os (s, asked) =
      ((dischargeAll solver emitSmt os s).1, (dischargeAll solver emitSmt os s).2,
        asked ++ queries os) := by
  induction os generalizing s asked with
  | nil => simp [dischargeAll, queries]
  | cons o rest ih =>
      have hqueries : queries (o :: rest) = queries [o] ++ queries rest := queries_append [o] rest
      simp only [dischargeAll, discharge_recording, ih, hqueries, List.append_assoc]

end Obligation

namespace ClassModel

variable (c : ClassModel)

theorem verifyMethods_recording (ms : List Method) (s : σ) (asked : List Formula) :
    c.verifyMethods solver.recording emitSmt ms (s, asked) =
      ((c.verifyMethods solver emitSmt ms s).1, (c.verifyMethods solver emitSmt ms s).2,
        asked ++ Obligation.queries (ms.flatMap c.methodObligations)) := by
  induction ms generalizing s asked with
  | nil => simp [verifyMethods, Obligation.queries]
  | cons m rest ih =>
      simp only [verifyMethods, verifyMethod, Obligation.dischargeAll_recording, ih,
        List.flatMap_cons, Obligation.queries_append, List.append_assoc]

-- Recording changes nothing else. A class that does not pass both gates asks nothing.
theorem verify_recording (s : σ) (asked : List Formula) :
    c.verify solver.recording emitSmt (s, asked) =
      ((c.verify solver emitSmt s).1, (c.verify solver emitSmt s).2,
        asked ++ if c.isSealed = true ∧ c.firstUnsupported = none
          then Obligation.queries c.obligations else []) := by
  cases hsealed : c.isSealed with
  | false => simp [verify_of_unsealed _ emitSmt hsealed]
  | true =>
      cases hsupported : c.firstUnsupported with
      | some location => simp [verify_of_unsupported _ emitSmt hsealed hsupported]
      | none =>
          simp [verify, outcome, hsealed, hsupported, Obligation.dischargeAll_recording,
            verifyMethods_recording, obligations, Obligation.queries_append]

theorem queries_of_gates (hsealed : c.isSealed = true) (hsupported : c.firstUnsupported = none)
    (s : σ) : c.queries solver emitSmt s = Obligation.queries c.obligations := by
  simp [queries, verify_recording, hsealed, hsupported]

theorem queries_of_not_gates (h : ¬(c.isSealed = true ∧ c.firstUnsupported = none)) (s : σ) :
    c.queries solver emitSmt s = [] := by
  simp [queries, verify_recording, h]

end ClassModel

end

end Covenant
