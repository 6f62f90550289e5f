import Covenant.Proofs.Alias.Merge
import Covenant.Proofs.Verify.Answers

namespace Covenant

open Statement

-- A name that the table can resolve.
def AliasTable.Has (t : AliasTable) (name : String) : Prop := ∃ g, t.current.get? name = some g

theorem AliasTable.has_of_mem_divergences {left right : AliasTable} {d : Divergence}
    (h : d ∈ left.divergences right) : left.Has d.name :=
  contains_iff.mp (contains_of_mem_divergences h)

namespace Encoder

variable {e : Encoder} {name other : String} {rhs condition : Term}

theorem has_of_define (h : (e.define name rhs).table.Has other) (hname : e.table.Has name) :
    e.table.Has other := by
  obtain ⟨g, hg⟩ := h
  by_cases heq : other = name
  · exact heq ▸ hname
  · rw [define, AliasTable.set, NameMap.get?_insert_of_ne _ _ heq] at hg
    exact ⟨g, hg⟩

theorem has_of_joinAll {ds : List Divergence} (h : (e.joinAll condition ds).table.Has other)
    (hds : ∀ d ∈ ds, e.table.Has d.name) : e.table.Has other := by
  induction ds generalizing e with
  | nil => exact h
  | cons d rest ih =>
      rw [List.forall_mem_cons] at hds
      refine has_of_define (ih h fun d' hd' => ?_) hds.1
      obtain ⟨g, hg⟩ := hds.2 d' hd'
      simp only [AliasTable.Has, define, AliasTable.set, NameMap.get?_insert]
      split
      · exact ⟨_, rfl⟩
      · exact ⟨g, hg⟩

end Encoder

namespace BlockEncoding

variable {mayHaveReturned after : Bool} {stmts : List Statement} {e e' : Encoder}

-- A block adds generations but no names. Both branches of a conditional start from the table before
-- it, and their join is over the names of the first.
theorem has_of_exit (h : BlockEncoding mayHaveReturned stmts e after e') {name : String}
    (hname : e'.table.Has name) : e.table.Has name := by
  induction h with
  | nil mayHaveReturned e => exact hname
  | assignment location hvalue hsort hwrite hrest ih =>
      exact Encoder.has_of_define (ih hname) hwrite.1.1
  | conditional location hcondition hsort hthen helse hmerge hrest ihthen ihelse ih =>
      obtain ⟨-, rfl⟩ := AliasTable.merge_eq_ok hmerge
      have hjoin := Encoder.has_of_joinAll (ih hname) fun d hd => AliasTable.has_of_mem_divergences hd
      exact ihthen hjoin
  | «return» location hwrite hrest ih => exact Encoder.has_of_define (ih hname) hwrite.1.1
  | returnValue location hresult hvalue hsort hwrite he₁ hreturned hrest ih =>
      subst he₁
      have hone := Encoder.has_of_define (ih hname) hreturned.1.1
      exact Encoder.has_of_define hone hwrite.1.1

-- All that a block reads or writes is in the table at its start.
theorem has_of_mentioned (h : BlockEncoding mayHaveReturned stmts e after e') :
    ∀ v ∈ blockMentioned stmts, e.table.Has v.logicalName := by
  induction h with
  | nil mayHaveReturned e => simp [blockMentioned]
  | assignment location hvalue hsort hwrite hrest ih =>
      simp only [blockMentioned, mentioned, List.forall_mem_append, List.forall_mem_cons]
      refine ⟨⟨hwrite.1.1, fun v hv => (hvalue.registered v hv).1⟩, fun v hv => ?_⟩
      exact Encoder.has_of_define (ih v hv) hwrite.1.1
  | conditional location hcondition hsort hthen helse hmerge hrest ihthen ihelse ih =>
      simp only [blockMentioned, mentioned, List.forall_mem_append]
      refine ⟨⟨fun v hv => (hcondition.registered v hv).1, ihthen, ihelse⟩, fun v hv => ?_⟩
      exact (BlockEncoding.conditional location hcondition hsort hthen helse hmerge
        (.nil _ _)).has_of_exit (ih v hv)
  | «return» location hwrite hrest ih =>
      simp only [blockMentioned, mentioned, List.nil_append]
      exact fun v hv => Encoder.has_of_define (ih v hv) hwrite.1.1
  | returnValue location hresult hvalue hsort hwrite he₁ hreturned hrest ih =>
      subst he₁
      simp only [blockMentioned, mentioned, List.forall_mem_append]
      refine ⟨fun v hv => (hvalue.registered v hv).1, fun v hv => ?_⟩
      have hone := Encoder.has_of_define (ih v hv) hreturned.1.1
      exact Encoder.has_of_define hone hwrite.1.1

end BlockEncoding

theorem Signature.EncodesClause.has {s : Signature} {table : AliasTable} {r : Clause} {t : Term}
    (h : s.EncodesClause table r t) : ∀ v ∈ r.mentioned, table.Has v.logicalName := by
  obtain ⟨text, x, location, rfl, hx, -⟩ := h
  exact fun v hv => (hx.registered v hv).1

-- The clauses that a goal is about.
def Goal.clauses : Goal → List Clause
  | .precondition _ first rest => first :: rest
  | .ensure _ clause => [clause]
  | .initial invariant => [invariant]
  | .preservation _ invariant => [invariant]

def Goal.mentioned (g : Goal) : List Variable := g.clauses.flatMap Clause.mentioned

-- What is read or written in the requires, the body and the goal.
def Method.mentionedFor (m : Method) (g : Goal) : List Variable :=
  m.requires.flatMap Clause.mentioned ++ (blockMentioned m.body ++ g.mentioned)

-- The reserved names of the variables of a return.
def Method.ghosts (m : Method) : List String := (ghostNames m.returnType).map Prod.fst

namespace MethodState.Encoding

variable {c : ClassModel} {m : Method} {s : MethodState} {e e' : Encoder} {after : Bool}

theorem mem_of_has (h : Encoding c m s e e' after) {name : String} (hname : e.table.Has name) :
    name ∈ c.scope m ∨ name ∈ m.ghosts := by
  obtain ⟨g, hg⟩ := hname
  have hmem := h.prepared.declares.mem_of_get? hg
  rw [List.map_append, List.mem_append] at hmem
  exact hmem

theorem mem_of_clauses (h : Encoding c m s e e' after) {rs : List Clause} {ts : List Term}
    (hrs : List.Forall₂ (s.signature.EncodesClause s.entry) rs ts) :
    ∀ v ∈ rs.flatMap Clause.mentioned, v.logicalName ∈ c.scope m ∨ v.logicalName ∈ m.ghosts := by
  rw [h.entry] at hrs
  induction hrs with
  | nil => simp
  | cons hr hrest ih =>
      rw [List.flatMap_cons, List.forall_mem_append]
      exact ⟨fun v hv => h.mem_of_has (hr.has v hv), ih⟩

theorem mem_of_exit (h : Encoding c m s e e' after) {r : Clause} {t : Term}
    (hr : s.signature.EncodesClause s.exit r t) :
    ∀ v ∈ r.mentioned, v.logicalName ∈ c.scope m ∨ v.logicalName ∈ m.ghosts := by
  rw [h.exit] at hr
  exact fun v hv => h.mem_of_has (h.block.has_of_exit (hr.has v hv))

theorem mem_of_body (h : Encoding c m s e e' after) :
    ∀ v ∈ blockMentioned m.body, v.logicalName ∈ c.scope m ∨ v.logicalName ∈ m.ghosts :=
  fun v hv => h.mem_of_has (h.block.has_of_mentioned v hv)

-- A method that declares a reserved name has no query.
theorem ghosts_apart (h : Encoding c m s e e' after) : ∀ name ∈ m.ghosts, name ∉ c.scope m := by
  intro name hghost
  cases hvoid : m.returnType.isVoid with
  | true =>
      have hname : name = returnedName := by simpa [Method.ghosts, ghostNames, hvoid] using hghost
      exact hname ▸ h.prepared.returned_not_mem
  | false =>
      have hname : name = returnedName ∨ name = resultName := by
        simpa [Method.ghosts, ghostNames, hvoid] using hghost
      rcases hname with rfl | rfl
      · exact h.prepared.returned_not_mem
      · exact h.prepared.result_not_mem (by simp [h.prepared.hasResult, hvoid])

theorem mem_of_mentionedFor (h : Encoding c m s e e' after) {g : Goal}
    (hg : ∀ v ∈ g.mentioned, v.logicalName ∈ c.scope m ∨ v.logicalName ∈ m.ghosts) :
    ∀ v ∈ m.mentionedFor g, v.logicalName ∈ c.scope m ∨ v.logicalName ∈ m.ghosts := by
  rw [Method.mentionedFor, List.forall_mem_append, List.forall_mem_append]
  exact ⟨h.mem_of_clauses h.requires, h.mem_of_body, hg⟩

end MethodState.Encoding

namespace Obligation

-- How the names in an obligation are resolved: those of the class and the method, or those of a
-- return, which are others. Any other name leaves the obligation without a query.
structure Resolves (o : Obligation) (mentioned : List Variable) (declared ghosts : List String) :
    Prop where
  mem : ∀ f, o.query = .ok f → ∀ v ∈ mentioned, v.logicalName ∈ declared ∨ v.logicalName ∈ ghosts
  apart : ∀ f, o.query = .ok f → ∀ name ∈ ghosts, name ∉ declared

-- What follows for the query and the report.
structure Isolated (o : Obligation) (mentioned : List Variable) (declared ghosts : List String)
    (r : ObligationReport) : Prop extends o.Resolves mentioned declared ghosts where
  declared_iff : ∀ f, o.query = .ok f →
    ((∀ v ∈ mentioned, v.logicalName ∈ declared) ↔ ∀ v ∈ mentioned, v.logicalName ∉ ghosts)
  refused : ∀ v ∈ mentioned, v.logicalName ∉ declared → v.logicalName ∉ ghosts →
    ∃ e, o.query = .error e ∧ r.status = .inconclusive (.internalFault e.message)

variable {o : Obligation} {mentioned : List Variable} {declared ghosts : List String}

theorem Resolves.isolated (h : o.Resolves mentioned declared ghosts) (solver : Solver σ)
    (emitSmt : Bool) (s : σ) :
    o.Isolated mentioned declared ghosts (o.discharge solver emitSmt s).1 where
  toResolves := h
  declared_iff := by
    intro f hf
    constructor
    · intro hall v hv hghost
      exact h.apart f hf _ hghost (hall v hv)
    · intro hnone v hv
      exact (h.mem f hf v hv).resolve_right (hnone v hv)
  refused := by
    intro v hv hdeclared hghost
    cases hquery : o.query with
    | error e => exact ⟨e, rfl, by simp [discharge, hquery, report]⟩
    | ok f =>
        have hmem := h.mem f hquery v hv
        exact absurd hmem (not_or.mpr ⟨hdeclared, hghost⟩)

theorem forall₂_isolated (solver : Solver σ) (emitSmt : Bool) {os : List Obligation}
    (mentioned : Obligation → List Variable)
    (h : ∀ o ∈ os, o.Resolves (mentioned o) declared ghosts) (s : σ) :
    List.Forall₂ (fun o r => o.Isolated (mentioned o) declared ghosts r) os
      (dischargeAll solver emitSmt os s).1 := by
  have hdischarged := forall₂_dischargeAll solver emitSmt os s
  apply ((List.forall₂_and_left _ _).mpr ⟨h, hdischarged⟩).imp
  rintro o r ⟨ho, s', rfl⟩
  exact ho.isolated solver emitSmt s'

end Obligation

namespace ClassModel

variable {c : ClassModel} {m : Method} {o : Obligation}

theorem resolves_initial (ho : o ∈ c.initialObligations) :
    o.Resolves o.goal.mentioned (c.fieldNames.map Prod.fst) [] := by
  obtain ⟨invariant, -, rfl⟩ := List.mem_map.mp ho
  refine ⟨fun f hf v hv => .inl ?_, by simp⟩
  obtain ⟨e, hencoding, hquery⟩ := initialQuery_eq_ok hf
  exact hencoding.mentioned_mem hquery v (by simpa [Goal.mentioned, Goal.clauses] using hv)

theorem clauses_preconditions {g : Goal} (hg : g ∈ preconditions m) : g.clauses = m.requires := by
  unfold preconditions at hg
  split at hg
  · cases hg
  · rename_i first rest hrequires
    rw [List.mem_singleton.mp hg, hrequires]
    rfl

-- Whatever the goal, its query is of the requires and the body too.
theorem resolves_method (ho : o ∈ c.methodObligations m) :
    o.Resolves (m.mentionedFor o.goal) (c.scope m) m.ghosts := by
  have hencoded : ∀ f, o.query = .ok f → ∃ s e e' after, MethodState.Encoding c m s e e' after ∧
      ∀ v ∈ o.goal.mentioned, v.logicalName ∈ c.scope m ∨ v.logicalName ∈ m.ghosts := by
    intro f hf
    simp only [methodObligations, List.mem_append, List.mem_map] at ho
    rcases ho with (⟨goal, hgoal, rfl⟩ | ⟨clause, -, rfl⟩) | ⟨invariant, -, rfl⟩
    · obtain ⟨s, e, e', after, hencoding, -⟩ := map_ofMethod_eq_ok hf
      refine ⟨s, e, e', after, hencoding, ?_⟩
      rw [Goal.mentioned, clauses_preconditions hgoal]
      exact hencoding.mem_of_clauses hencoding.requires
    · obtain ⟨s, e, e', after, hencoding, hquery⟩ := bind_ofMethod_eq_ok hf
      obtain ⟨-, post, -, hpost, -⟩ := MethodState.ensureQuery_eq_ok hquery
      refine ⟨s, e, e', after, hencoding, ?_⟩
      simpa [Goal.mentioned, Goal.clauses] using hencoding.mem_of_exit hpost
    · obtain ⟨s, e, e', after, hencoding, hquery⟩ := bind_ofMethod_eq_ok hf
      obtain ⟨-, post, -, hpost, -⟩ := MethodState.preservationQuery_eq_ok hquery
      refine ⟨s, e, e', after, hencoding, ?_⟩
      simpa [Goal.mentioned, Goal.clauses] using hencoding.mem_of_exit hpost
  constructor
  · intro f hf
    obtain ⟨s, e, e', after, hencoding, hgoal⟩ := hencoded f hf
    exact hencoding.mem_of_mentionedFor hgoal
  · intro f hf
    obtain ⟨s, e, e', after, hencoding, -⟩ := hencoded f hf
    exact hencoding.ghosts_apart

-- A query is built only from names that are declared or reserved. The first alternative is the only
-- one exactly if no variable is spelled as a reserved name. A reference to any other name is an
-- internal fault in the place of the query.
theorem queries_declared_iff_no_ghost (solver : Solver σ) (emitSmt : Bool)
    (hsealed : c.isSealed = true) (hsupported : c.firstUnsupported = none) (s : σ) :
    (∀ o ∈ c.obligations, ∀ f, o.query = .ok f → f ∈ c.queries solver emitSmt s) ∧
    ∃ initial methods, (c.verify solver emitSmt s).1.outcome = .checked initial methods ∧
      List.Forall₂ (fun o r => o.Isolated o.goal.mentioned (c.fieldNames.map Prod.fst) [] r)
        c.initialObligations initial ∧
      List.Forall₂ (fun m r => List.Forall₂
          (fun o r => o.Isolated (m.mentionedFor o.goal) (c.scope m) m.ghosts r)
          (c.methodObligations m) r.obligations)
        c.supportedMethods methods := by
  refine ⟨fun o ho f hf => ?_, _, _, outcome_of_gates solver emitSmt hsealed hsupported s, ?_, ?_⟩
  · rw [c.queries_of_gates solver emitSmt hsealed hsupported, Obligation.mem_queries]
    exact ⟨o, ho, hf⟩
  · exact Obligation.forall₂_isolated solver emitSmt (fun o => o.goal.mentioned)
      (fun o ho => resolves_initial ho) s
  · refine (forall₂_verifyMethods solver emitSmt c c.supportedMethods _).imp ?_
    rintro m r ⟨s', rfl⟩
    exact Obligation.forall₂_isolated solver emitSmt (fun o => m.mentionedFor o.goal)
      (fun o ho => resolves_method ho) s'

-- A lock mentions its fields only.
theorem queries_declared_iff_no_ghost_door :
    (Door.model.queries (.bounded ⟨1, 64⟩) false ()).length = 4 ∧
      ∀ o ∈ Door.model.methodObligations Door.lock, ∀ f, o.query = .ok f →
        f ∈ Door.model.queries (.bounded ⟨1, 64⟩) false () ∧
        ∀ v ∈ Door.lock.mentionedFor o.goal, v.logicalName ∈ ["this.open", "this.locked"] := by
  obtain ⟨hasked, initial, methods, -, -, hmethods⟩ := queries_declared_iff_no_ghost
    (.bounded ⟨1, 64⟩) false (c := Door.model) (by decide) (by decide) ()
  have hghosts : ∀ o ∈ Door.model.methodObligations Door.lock, ∀ v ∈ Door.lock.mentionedFor o.goal,
      v.logicalName ∉ Door.lock.ghosts := by decide +kernel
  refine ⟨by decide +kernel, fun o ho f hf => ⟨?_, ?_⟩⟩
  · exact hasked o (mem_obligations.mpr (.inr ⟨Door.lock, List.mem_singleton_self _, ho⟩)) f hf
  · rw [show Door.model.supportedMethods = [Door.lock] from rfl] at hmethods
    obtain ⟨r, -, hlock, -, -⟩ := List.forall₂_cons_left_iff.mp hmethods
    obtain ⟨i, hi, rfl⟩ := List.getElem_of_mem ho
    exact ((hlock.get hi (hlock.length_eq ▸ hi)).declared_iff f hf).mpr (hghosts _ ho)

end ClassModel

namespace Latch

-- int count = 0;
def count : Field := ⟨"count", .named "int" false, some (.int 0), "Latch", none, default⟩

-- Spelled as the flag of a return, and declared nowhere.
def flag : Variable := .localVar ⟨"$returned", .named "bool" false, default⟩

-- if (false) { return; } $returned = true; count = 1;
def trip : Method :=
  ⟨"Trip", .pub, .named "void" false, .sealedEmpty, .sealedEmpty, [],
    [.conditional (.literal (.bool false)) [.return none default] [] default,
      .assignment flag (.literal (.bool true)) default,
      .assignment (.field count) (.literal (.int 1)) default],
    [], default⟩

def isZero : Clause :=
  .supported "count == 0"
    (.comparison .equal (.variable (.field count)) (.literal (.int 0))) default

def model : ClassModel :=
  ⟨"Latch", ⟨[.supported count], .ofList [("count", 0)], true⟩,
    ⟨[.supported trip], .ofList [("Trip", 0)], true⟩,
    [isZero], default⟩

theorem reachable_one (zero : ZeroDivision) : model.Reachable zero fun _ => .int 1 := by
  let entry : State := ⟨fun _ => .int 0, none⟩
  have hinitial : model.Initial entry.vars := by decide
  have htrip : trip ∈ model.supportedMethods := List.mem_singleton_self trip
  have hargs : trip.Arguments entry := ⟨by decide, by decide⟩
  have hrun : Statement.execBlock zero trip.body entry =
      some ((entry.set "$returned" (.bool true)).set "this.count" (.int 1), false) := rfl
  exact .call (.initial hinitial) htrip rfl (fun _ _ => rfl) hargs (by simp [trip]) hrun (by decide)

end Latch

-- An assignment to an undeclared variable spelled as the flag turns off the writes after it. The class
-- is called verified, and its method breaks the invariant.
theorem ClassModel.ghost_written_latch :
    Latch.model.isSealed = true ∧ Latch.model.firstUnsupported = none ∧
      (∃ o ∈ Latch.model.methodObligations Latch.trip, ∃ f, o.query = .ok f ∧
        f ∈ Latch.model.queries (.bounded ⟨1, 64⟩) false () ∧
        Latch.flag ∈ Latch.trip.mentionedFor o.goal ∧
        Latch.flag.logicalName ∉ Latch.model.scope Latch.trip) ∧
      exitCode [(Latch.model.verify (.bounded ⟨1, 64⟩) false ()).1] = 0 ∧
      Latch.model.Reachable (fun n => n) (fun _ => .int 1) ∧
      Latch.isZero.Fails (fun n => n) ⟨fun _ => .int 1, none⟩ := by
  have hsealed : Latch.model.isSealed = true := by decide
  have hsupported : Latch.model.firstUnsupported = none := by decide
  have hone : ∃ o, Latch.model.methodObligations Latch.trip = [o] ∧ o.query.isOk = true ∧
      Latch.flag ∈ Latch.trip.mentionedFor o.goal := ⟨_, rfl, by decide +kernel, by decide +kernel⟩
  refine ⟨hsealed, hsupported, ?_, by decide +kernel, Latch.reachable_one _, rfl⟩
  obtain ⟨o, hobligations, hok, hflag⟩ := hone
  have ho : o ∈ Latch.model.methodObligations Latch.trip := by simp [hobligations]
  cases hf : o.query with
  | error error => simp [hf, Except.isOk, Except.toBool] at hok
  | ok f =>
      refine ⟨o, ho, f, hf, ?_, hflag, by decide⟩
      rw [queries_of_gates _ _ _ hsealed hsupported, Obligation.mem_queries]
      exact ⟨o, mem_obligations.mpr (.inr ⟨Latch.trip, List.mem_singleton_self _, ho⟩), hf⟩

end Covenant
