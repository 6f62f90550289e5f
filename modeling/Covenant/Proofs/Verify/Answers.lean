import Covenant.Proofs.Verify.Queries
import Covenant.Proofs.Verify.Soundness

namespace Covenant

namespace Solver

-- The answers to formulas that are asked one after the other.
def answers (solver : Solver σ) : List Formula → σ → List Answer
  | [], _ => []
  | f :: rest, s => (solver.check f s).1 :: solver.answers rest (solver.check f s).2

-- The state that they leave.
def after (solver : Solver σ) : List Formula → σ → σ
  | [], s => s
  | f :: rest, s => solver.after rest (solver.check f s).2

-- A solver that answers from a list.
def scripted : Solver (List Answer) where
  name := "script"
  check _
    | [] => (.ok (.unknown "script exhausted"), [])
    | answer :: rest => (answer, rest)

end Solver

-- Which goal a report is about.
structure Heading where
  kind : ObligationKind
  method : Option String
  subject : String
  location : Location
  deriving DecidableEq, Repr

def ObligationReport.heading (r : ObligationReport) : Heading :=
  ⟨r.kind, r.method, r.subject, r.location⟩

def Goal.heading (g : Goal) : Heading := ⟨g.kind, g.method?, g.subject, g.location⟩

def Clause.heading (kind : ObligationKind) (method : Option String) (r : Clause) : Heading :=
  ⟨kind, method, r.text, r.location⟩

-- All requires of a method are one goal. Only a public method has to keep the invariants.
def Method.headings (m : Method) (invariants : List Clause) : List Heading :=
  (m.requires.head?.map fun first => ⟨.precondition, some m.name,
      " && ".intercalate (m.requires.map Clause.text), first.location⟩).toList ++
    m.ensures.map (Clause.heading .ensure (some m.name)) ++
    if m.isPublic then invariants.map (Clause.heading .invariantPreservation (some m.name)) else []

namespace Obligation

-- What an answer means. A model refutes any goal but a precondition, which it shows to be satisfiable.
inductive Verdict (o : Obligation) : Answer → Status → Prop
  | proved (h : o.goal.kind ≠ .precondition) : Verdict o (.ok .proved) .proved
  | refuted (h : o.goal.kind ≠ .precondition) (found : Assignment) (v : Violation) :
      Verdict o (.ok (.counterexample found)) (.violated v)
  | satisfiable (h : o.goal.kind = .precondition) (found : Assignment) :
      Verdict o (.ok (.counterexample found)) .proved
  | unsatisfiable (h : o.goal.kind = .precondition) (v : Violation) :
      Verdict o (.ok .proved) (.violated v)
  | unknown (reason : String) :
      Verdict o (.ok (.unknown reason)) (.inconclusive (.solverUnknown reason))
  | unavailable (reason : String) :
      Verdict o (.error (.unavailable reason)) (.inconclusive (.solverUnavailable reason))
  | backend (reason : String) :
      Verdict o (.error (.backend reason)) (.inconclusive (.internalFault reason))

-- The reports of obligations in order. One with a query takes the next answer, and one without takes
-- none.
inductive Settled : List Obligation → List Answer → List ObligationReport → Prop
  | nil : Settled [] [] []
  | faulty {o : Obligation} {e : EncodeError} {r : ObligationReport} {os : List Obligation}
      {answers : List Answer} {rs : List ObligationReport} (hquery : o.query = .error e)
      (hheading : r.heading = o.goal.heading)
      (hstatus : r.status = .inconclusive (.internalFault e.message))
      (hrest : Settled os answers rs) : Settled (o :: os) answers (r :: rs)
  | answered {o : Obligation} {f : Formula} {answer : Answer} {r : ObligationReport}
      {os : List Obligation} {answers : List Answer} {rs : List ObligationReport}
      (hquery : o.query = .ok f) (hheading : r.heading = o.goal.heading)
      (hstatus : r.status = o.judge answer) (hrest : Settled os answers rs) :
      Settled (o :: os) (answer :: answers) (r :: rs)

theorem verdict_judge (o : Obligation) (answer : Answer) : o.Verdict answer (o.judge answer) := by
  have hwants : o.goal.wantsModel = true ↔ o.goal.kind = .precondition := by
    cases o.goal <;> simp [Goal.wantsModel, Goal.kind]
  match answer with
  | .ok .proved =>
      simp only [judge]
      split
      · rename_i h
        exact .unsatisfiable (hwants.mp h) _
      · rename_i h
        exact .proved (fun hkind => h (hwants.mpr hkind))
  | .ok (.counterexample found) =>
      simp only [judge]
      split
      · rename_i h
        exact .satisfiable (hwants.mp h) found
      · rename_i h
        exact .refuted (fun hkind => h (hwants.mpr hkind)) found _
  | .ok (.unknown reason) => exact .unknown reason
  | .error (.unavailable reason) => exact .unavailable reason
  | .error (.backend reason) => exact .backend reason

theorem Settled.headings {os : List Obligation} {answers : List Answer}
    {rs : List ObligationReport} (h : Settled os answers rs) :
    rs.map ObligationReport.heading = os.map fun o => o.goal.heading := by
  induction h with
  | nil => rfl
  | faulty hquery hheading hstatus hrest ih => rw [List.map_cons, List.map_cons, hheading, ih]
  | answered hquery hheading hstatus hrest ih => rw [List.map_cons, List.map_cons, hheading, ih]

-- An obligation with a query asks it once, from the state that the ones before it leave.
theorem settled_dischargeAll (solver : Solver σ) (emitSmt : Bool) (os : List Obligation) (s : σ) :
    Settled os (solver.answers (queries os) s) (dischargeAll solver emitSmt os s).1 ∧
      (dischargeAll solver emitSmt os s).2 = solver.after (queries os) s := by
  induction os generalizing s with
  | nil => exact ⟨.nil, rfl⟩
  | cons o rest ih =>
      cases hquery : o.query with
      | error e =>
          have hqueries : queries (o :: rest) = queries rest := by
            simp [queries, hquery, Except.toOption]
          have hone : o.discharge solver emitSmt s =
              (o.report (.inconclusive (.internalFault e.message)) none, s) := by
            simp [discharge, hquery]
          rw [hqueries, dischargeAll, hone]
          exact ⟨.faulty hquery rfl rfl (ih s).1, (ih s).2⟩
      | ok f =>
          have hqueries : queries (o :: rest) = f :: queries rest := by
            simp [queries, hquery, Except.toOption]
          have hone : o.discharge solver emitSmt s =
              (o.report (o.judge (solver.check f s).1) (if emitSmt then some f.smtLib else none),
                (solver.check f s).2) := by
            simp [discharge, hquery]
          rw [hqueries, dischargeAll, hone]
          exact ⟨.answered hquery rfl rfl (ih _).1, (ih _).2⟩

end Obligation

namespace ClassModel

variable {c : ClassModel}

theorem headings_initialObligations (c : ClassModel) :
    c.initialObligations.map (fun o => o.goal.heading) =
      c.invariants.map (Clause.heading .invariantInitial none) := by
  rw [initialObligations, List.map_map]
  rfl

theorem headings_methodObligations (c : ClassModel) (m : Method) :
    (c.methodObligations m).map (fun o => o.goal.heading) = m.headings c.invariants := by
  have hrequires : (preconditions m).map Goal.heading =
      (m.requires.head?.map fun first => ⟨.precondition, some m.name,
        " && ".intercalate (m.requires.map Clause.text), first.location⟩).toList := by
    unfold preconditions
    split
    · rename_i h
      simp [h]
    · rename_i first rest h
      simp [h, Goal.heading, Goal.kind, Goal.method?, Goal.subject, Goal.location]
  simp only [methodObligations, Method.headings, List.map_append, List.map_map, ← hrequires]
  congr 1
  split <;> simp [Function.comp_def, Goal.heading, Clause.heading, Goal.kind, Goal.method?,
    Goal.subject, Goal.location]

-- No entry in the table of methods of a supported class is left out.
theorem entries_of_supported (h : c.firstUnsupported = none) :
    c.methods.entries = c.supportedMethods.map .supported := by
  have hnone : ∀ d ∈ c.methods.entries, methodUnsupported d = none := by
    rw [firstUnsupported, Option.or_eq_none_iff, Option.or_eq_none_iff,
      List.findSome?_eq_none_iff, List.findSome?_eq_none_iff] at h
    exact h.2.1
  unfold supportedMethods
  generalize c.methods.entries = entries at hnone ⊢
  induction entries with
  | nil => rfl
  | cons d rest ih =>
      rw [List.forall_mem_cons] at hnone
      cases d with
      | supported m =>
          simp only [Decl.supported?, List.filterMap_cons, List.map_cons]
          exact congrArg _ (ih hnone.2)
      | unsupported d => simp [methodUnsupported] at hnone

section

variable {σ : Type} (solver : Solver σ) (emitSmt : Bool)

theorem outcome_of_gates (hsealed : c.isSealed = true) (hsupported : c.firstUnsupported = none)
    (s : σ) : (c.verify solver emitSmt s).1.outcome =
      .checked (Obligation.dischargeAll solver emitSmt c.initialObligations s).1
        (c.verifyMethods solver emitSmt c.supportedMethods
          (Obligation.dischargeAll solver emitSmt c.initialObligations s).2).1 := by
  simp [verify, outcome, hsealed, hsupported]

-- Each method is verified from the state that the ones before it leave.
theorem forall₂_verifyMethods (c : ClassModel) (ms : List Method) (s : σ) :
    List.Forall₂ (fun m r => ∃ s', r = (c.verifyMethod solver emitSmt m s').1) ms
      (c.verifyMethods solver emitSmt ms s).1 := by
  induction ms generalizing s with
  | nil => exact .nil
  | cons m rest ih => exact .cons ⟨s, rfl⟩ (ih _)

end

-- A class that passes both gates is checked to the end, whatever the solver answers. Each goal has its
-- place in the report, a goal with a query takes one answer, and its status follows from that answer.
theorem one_query_per_obligation (solver : Solver σ) (emitSmt : Bool) (hsealed : c.isSealed = true)
    (hsupported : c.firstUnsupported = none) (s : σ) :
    (∃ initial methods, (c.verify solver emitSmt s).1.outcome = .checked initial methods ∧
      initial.map ObligationReport.heading =
        c.invariants.map (Clause.heading .invariantInitial none) ∧
      c.methods.entries = c.supportedMethods.map .supported ∧
      List.Forall₂ (fun m r => r.method = m.name ∧
          r.obligations.map ObligationReport.heading = m.headings c.invariants)
        c.supportedMethods methods) ∧
    c.queries solver emitSmt s = Obligation.queries c.obligations ∧
    Obligation.Settled c.obligations (solver.answers (c.queries solver emitSmt s) s)
      (c.verify solver emitSmt s).1.obligations ∧
    (c.verify solver emitSmt s).2 = solver.after (c.queries solver emitSmt s) s ∧
    ∀ o ∈ c.obligations, ∀ answer, o.Verdict answer (o.judge answer) := by
  have hqueries := c.queries_of_gates solver emitSmt hsealed hsupported s
  have hreport := (verify_of_gates solver emitSmt hsealed hsupported s).2
  have hsettled := Obligation.settled_dischargeAll solver emitSmt c.obligations s
  rw [hreport, ← hqueries] at hsettled
  refine ⟨⟨_, _, outcome_of_gates solver emitSmt hsealed hsupported s, ?_,
    entries_of_supported hsupported, ?_⟩, hqueries, hsettled.1, hsettled.2,
    fun o _ answer => o.verdict_judge answer⟩
  · have hinitial := Obligation.settled_dischargeAll solver emitSmt c.initialObligations s
    rw [hinitial.1.headings, headings_initialObligations]
  · refine (forall₂_verifyMethods solver emitSmt c c.supportedMethods _).imp ?_
    rintro m r ⟨s', rfl⟩
    have hmethod := Obligation.settled_dischargeAll solver emitSmt (c.methodObligations m) s'
    exact ⟨rfl, hmethod.1.headings.trans (c.headings_methodObligations m)⟩

theorem one_query_per_obligation_door :
    Obligation.Settled Door.model.obligations
      [.ok .proved, .ok (.unknown "late"), .error (.backend "lost"), .ok (.counterexample .empty)]
      (Door.model.verify .scripted false [.ok .proved, .ok (.unknown "late"),
        .error (.backend "lost"), .ok (.counterexample .empty), .ok .proved]).1.obligations ∧
    (Door.model.verify .scripted false [.ok .proved, .ok (.unknown "late"),
      .error (.backend "lost"), .ok (.counterexample .empty), .ok .proved]).2 = [.ok .proved] := by
  have h := one_query_per_obligation .scripted false (c := Door.model) (by decide) (by decide)
    [.ok .proved, .ok (.unknown "late"), .error (.backend "lost"), .ok (.counterexample .empty),
      .ok .proved]
  have hlength : (Obligation.queries Door.model.obligations).length = 4 := by decide +kernel
  rw [h.2.1] at h
  obtain ⟨f₁, f₂, f₃, f₄, hqueries⟩ := List.length_eq_four.mp hlength
  rw [hqueries] at h
  exact ⟨h.2.2.1, h.2.2.2.1⟩

end ClassModel

end Covenant
