import Covenant.Proofs.Encoding.Growth

namespace Covenant

namespace Statement

-- Goes on with a run unless it has returned.
def resume (zero : ZeroDivision) (s : Statement) : State × Bool → Option (State × Bool)
  | (st, true) => some (st, true)
  | (st, false) => s.exec zero st

def resumeBlock (zero : ZeroDivision) (stmts : List Statement) :
    State × Bool → Option (State × Bool)
  | (st, true) => some (st, true)
  | (st, false) => execBlock zero stmts st

variable (zero : ZeroDivision) (st : State) (returned : Bool)

theorem resumeBlock_nil : resumeBlock zero [] (st, returned) = some (st, returned) := by
  cases returned <;> rfl

theorem resumeBlock_cons (s : Statement) (rest : List Statement) :
    resumeBlock zero (s :: rest) (st, returned) =
      (s.resume zero (st, returned)).bind (resumeBlock zero rest) := by
  cases returned with
  | true => rfl
  | false =>
      simp only [resumeBlock, resume, execBlock]
      cases s.exec zero st with
      | none => rfl
      | some next =>
          obtain ⟨st', returned'⟩ := next
          cases returned' <;> rfl

theorem resume_conditional {c : Expression} {b : Bool} (thenBlock elseBlock : List Statement)
    (location : Location) (hc : c.eval zero st = some (.bool b)) :
    (conditional c thenBlock elseBlock location).resume zero (st, returned) =
      resumeBlock zero (if b then thenBlock else elseBlock) (st, returned) := by
  cases returned with
  | true => rfl
  | false => cases b <;> simp [resume, resumeBlock, exec, hc, Exact.asBool]

end Statement

open Statement

namespace Encoder

def Holds (zero : ZeroDivision) (ν : Valuation) (e : Encoder) : Prop :=
  ∀ t ∈ e.assertions, t.value zero ν = .bool true

section

variable {zero : ZeroDivision} {ν : Valuation} {e e' : Encoder} {name : String} {rhs : Term}

theorem Grows.holds (h : e.Grows e') (hν : e'.Holds zero ν) : e.Holds zero ν := by
  obtain ⟨-, defs, hgrowth⟩ := h
  intro t ht
  refine hν t ?_
  rw [hgrowth.assertions]
  exact List.mem_append_left _ ht

theorem latest_define_of_ne {other : String} (h : other ≠ name) :
    e.signature.latest (e.define name rhs).table other = e.signature.latest e.table other := by
  simp only [Signature.latest, define, AliasTable.generation_set_of_ne _ _ h]

theorem get_latest_define (hν : (e.define name rhs).Holds zero ν) :
    ν.get (e.signature.latest (e.define name rhs).table name) = rhs.value zero ν := by
  have hequation := hν (.eq (.var (e.signature.symbolOf (e.next name))) rhs) (by simp [define])
  simp only [Signature.latest, define, AliasTable.generation_set_self]
  exact (Term.value_eq_true zero).mp hequation

-- A path that has returned keeps the old value.
theorem value_kept {mayHaveReturned returned : Bool} {value : Term}
    (hreturned : ν.get (e.signature.latest e.table returnedName) = .bool returned)
    (hflag : returned = true → mayHaveReturned = true) :
    (e.kept mayHaveReturned name value).value zero ν =
      if returned then ν.get (e.signature.latest e.table name) else value.value zero ν := by
  unfold kept
  cases mayHaveReturned with
  | true => simp only [if_true, Term.value, hreturned, Exact.toBool]
  | false =>
      have hfalse : returned = false := by simpa using hflag
      simp [hfalse]

end

section Join

variable {zero : ZeroDivision} {ν : Valuation} {condition : Term}

theorem signature_joinAll (e : Encoder) (ds : List Divergence) :
    (e.joinAll condition ds).signature = e.signature := by
  induction ds generalizing e with
  | nil => rfl
  | cons d rest ih => exact ih _

theorem holds_of_joinAll {e : Encoder} (ds : List Divergence)
    (hν : (e.joinAll condition ds).Holds zero ν) : e.Holds zero ν := by
  induction ds generalizing e with
  | nil => exact hν
  | cons d rest ih => exact fun t ht => ih hν t (List.mem_append_left _ ht)

-- The join decides each name that it is given, and leaves the others as they are.
theorem get_latest_joinAll {e : Encoder} (ds : List Divergence) (name : String)
    (hν : (e.joinAll condition ds).Holds zero ν) :
    (∃ d ∈ ds, d.name = name ∧
      ν.get (e.signature.latest (e.joinAll condition ds).table name) =
        (d.choice e.signature condition).value zero ν) ∨
    (∀ d ∈ ds, d.name ≠ name) ∧
      e.signature.latest (e.joinAll condition ds).table name = e.signature.latest e.table name := by
  induction ds generalizing e with
  | nil => exact .inr ⟨by simp, rfl⟩
  | cons d rest ih =>
      rcases ih hν with ⟨d', hd', hname, hget⟩ | ⟨hrest, hlatest⟩
      · exact .inl ⟨d', List.mem_cons_of_mem _ hd', hname, hget⟩
      · by_cases hname : d.name = name
        · refine .inl ⟨d, List.mem_cons_self, hname, ?_⟩
          subst hname
          exact (congrArg ν.get hlatest).trans (get_latest_define (holds_of_joinAll rest hν))
        · refine .inr ⟨List.forall_mem_cons.mpr ⟨hname, hrest⟩, ?_⟩
          exact hlatest.trans (latest_define_of_ne (Ne.symm hname))

-- After the join each name has the value of the branch that was taken.
theorem get_latest_join {e₁ e₂ : Encoder} {merged : Merged} {b : Bool}
    (hmerge : e₁.table.merge e₂.table = .ok merged) (hcondition : condition.value zero ν = .bool b)
    (hν : ({ e₂ with table := merged.table }.joinAll condition merged.divergences).Holds zero ν)
    (name : String) :
    ν.get (e₂.signature.latest
        ({ e₂ with table := merged.table }.joinAll condition merged.divergences).table name) =
      ν.get (e₂.signature.latest (if b then e₁.table else e₂.table) name) := by
  obtain ⟨hnames, rfl⟩ := AliasTable.merge_eq_ok hmerge
  rcases get_latest_joinAll _ name hν with ⟨d, hd, rfl, hget⟩ | ⟨hsame, hlatest⟩
  · obtain ⟨hleft, hright, -⟩ := AliasTable.mem_divergences.mp hd
    refine hget.trans ?_
    cases b <;> simp [Divergence.choice, Term.value, hcondition, Exact.toBool, Signature.latest,
      AliasTable.generation_eq hleft, AliasTable.generation_eq hright, Divergence.leftAlias,
      Divergence.rightAlias]
  · refine (congrArg ν.get hlatest).trans ?_
    have hgeneration := AliasTable.generation_eq_of_not_divergent (hnames name) hsame
    cases b with
    | true => rfl
    | false => exact congrArg (fun g => ν.get (e₂.signature.symbolOf ⟨name, g⟩)) hgeneration

end Join

end Encoder

-- The current symbols have the values of a run, and the encoder knows that it may have returned.
structure Matches (names : List String) (e : Encoder) (ν : Valuation) (mayHaveReturned : Bool)
    (st : State) (returned : Bool) : Prop where
  state : Represents names e.signature e.table ν st
  flag_eq : ν.get (e.signature.latest e.table returnedName) = .bool returned
  flag_le : returned = true → mayHaveReturned = true
  returned_not_mem : returnedName ∉ names
  result_not_mem : e.signature.hasResult = true → resultName ∉ names

namespace Matches

variable {names : List String} {e e' : Encoder} {zero : ZeroDivision} {ν : Valuation}
variable {mayHaveReturned returned : Bool} {st : State} {name : String} {value : Term}

theorem transfer (h : Matches names e ν mayHaveReturned st returned)
    (hsignature : e'.signature = e.signature)
    (hget : ∀ name, ν.get (e'.signature.latest e'.table name) =
      ν.get (e.signature.latest e.table name)) {after : Bool}
    (hafter : mayHaveReturned = true → after = true) : Matches names e' ν after st returned where
  state := ⟨fun name hname => (hget name).trans (h.state.vars name hname), fun hresult => by
    rw [hget]
    exact h.state.result (hsignature ▸ hresult)⟩
  flag_eq := (hget returnedName).trans h.flag_eq
  flag_le := fun hreturned => hafter (h.flag_le hreturned)
  returned_not_mem := h.returned_not_mem
  result_not_mem := fun hresult => h.result_not_mem (hsignature ▸ hresult)

theorem withTable (h : Matches names e ν mayHaveReturned st returned)
    (hsignature : e'.signature = e.signature) :
    Matches names { e' with table := e.table } ν mayHaveReturned st returned := by
  refine h.transfer ?_ ?_ id
  · exact hsignature
  · exact fun name => congrArg (fun s => ν.get (s.latest e.table name)) hsignature

theorem get_latest_write (h : Matches names e ν mayHaveReturned st returned)
    (hν : (e.write mayHaveReturned name value).Holds zero ν) :
    ν.get (e.signature.latest (e.write mayHaveReturned name value).table name) =
      if returned then ν.get (e.signature.latest e.table name) else value.value zero ν :=
  (Encoder.get_latest_define hν).trans (Encoder.value_kept h.flag_eq h.flag_le)

theorem assign (h : Matches names e ν mayHaveReturned st returned) (hname : name ∈ names)
    (hν : (e.write mayHaveReturned name value).Holds zero ν) :
    Matches names (e.write mayHaveReturned name value) ν mayHaveReturned
      (if returned then st else st.set name (value.value zero ν)) returned where
  state := by
    constructor
    · intro other hother
      by_cases heq : other = name
      · subst heq
        refine (h.get_latest_write hν).trans ?_
        cases returned with
        | true => exact h.state.vars other hname
        | false => simp [State.set]
      · refine (congrArg ν.get (Encoder.latest_define_of_ne heq)).trans ?_
        rw [h.state.vars other hother]
        cases returned <;> simp [State.set, heq]
    · intro hresult
      have hne : resultName ≠ name := fun heq => h.result_not_mem hresult (heq ▸ hname)
      refine Eq.trans ?_
        (congrArg (fun x => some (ν.get x)) (Encoder.latest_define_of_ne hne)).symm
      rw [← h.state.result hresult]
      cases returned <;> rfl
  flag_eq := by
    have hne : returnedName ≠ name := fun heq => h.returned_not_mem (heq ▸ hname)
    exact (congrArg ν.get (Encoder.latest_define_of_ne hne)).trans h.flag_eq
  flag_le := h.flag_le
  returned_not_mem := h.returned_not_mem
  result_not_mem := h.result_not_mem

theorem setResult (h : Matches names e ν mayHaveReturned st returned)
    (hresult : e.signature.hasResult = true)
    (hν : (e.write mayHaveReturned resultName value).Holds zero ν) :
    Matches names (e.write mayHaveReturned resultName value) ν mayHaveReturned
      (if returned then st else st.setResult (value.value zero ν)) returned where
  state := by
    constructor
    · intro other hother
      have hne : other ≠ resultName := fun heq => h.result_not_mem hresult (heq ▸ hother)
      refine (congrArg ν.get (Encoder.latest_define_of_ne hne)).trans ?_
      rw [h.state.vars other hother]
      cases returned <;> rfl
    · intro _
      refine Eq.trans ?_ (congrArg some (h.get_latest_write hν).symm)
      cases returned with
      | true => exact h.state.result hresult
      | false => rfl
  flag_eq := (congrArg ν.get (Encoder.latest_define_of_ne (by decide))).trans h.flag_eq
  flag_le := h.flag_le
  returned_not_mem := h.returned_not_mem
  result_not_mem := h.result_not_mem

theorem setReturned (h : Matches names e ν mayHaveReturned st returned)
    (hν : (e.write mayHaveReturned returnedName (.bool true)).Holds zero ν) :
    Matches names (e.write mayHaveReturned returnedName (.bool true)) ν true st true where
  state := by
    constructor
    · intro other hother
      have hne : other ≠ returnedName := fun heq => h.returned_not_mem (heq ▸ hother)
      exact (congrArg ν.get (Encoder.latest_define_of_ne hne)).trans (h.state.vars other hother)
    · intro hresult
      exact (h.state.result hresult).trans
        (congrArg (fun x => some (ν.get x)) (Encoder.latest_define_of_ne (by decide))).symm
  flag_eq := by
    refine (h.get_latest_write hν).trans ?_
    cases returned with
    | true => exact h.flag_eq
    | false => rfl
  flag_le := fun _ => rfl
  returned_not_mem := h.returned_not_mem
  result_not_mem := h.result_not_mem

-- The join of two branches goes on from the one that was taken.
theorem join {e₁ e₂ : Encoder} {merged : Merged} {condition : Term} {b thenReturned elseReturned : Bool}
    (hmerge : e₁.table.merge e₂.table = .ok merged) (hsignature : e₂.signature = e₁.signature)
    (hcondition : condition.value zero ν = .bool b)
    (hν : ({ e₂ with table := merged.table }.joinAll condition merged.divergences).Holds zero ν)
    (h : Matches names (if b then e₁ else e₂) ν (if b then thenReturned else elseReturned) st
      returned) :
    Matches names ({ e₂ with table := merged.table }.joinAll condition merged.divergences) ν
      (thenReturned || elseReturned) st returned := by
  have hget := Encoder.get_latest_join hmerge hcondition hν
  cases b with
  | true =>
      refine h.transfer ?_ ?_ (by simp_all)
      · rw [Encoder.signature_joinAll]
        exact hsignature
      · intro name
        rw [Encoder.signature_joinAll]
        refine (hget name).trans ?_
        rw [hsignature]
        rfl
  | false =>
      refine h.transfer ?_ ?_ (by simp_all)
      · rw [Encoder.signature_joinAll]
        rfl
      · intro name
        rw [Encoder.signature_joinAll]
        exact hget name

end Matches

open Encoder in
-- Under values that satisfy the equations, the symbols follow the run. By induction on the block:
-- the induction hypothesis of a branch is used only where the condition takes it.
theorem BlockEncoding.simulates {names : List String} {zero : ZeroDivision} {ν : Valuation}
    {mayHaveReturned after : Bool} {stmts : List Statement} {e e' : Encoder}
    (h : BlockEncoding mayHaveReturned stmts e after e') (hv : e.Valid)
    (hvars : ∀ v ∈ blockMentioned stmts, v.logicalName ∈ names) (hν : e'.Holds zero ν)
    {st : State} {returned : Bool} (hst : Matches names e ν mayHaveReturned st returned) :
    ∃ st' returned', resumeBlock zero stmts (st, returned) = some (st', returned') ∧
      Matches names e' ν after st' returned' := by
  induction h generalizing st returned with
  | nil mayHaveReturned e => exact ⟨st, returned, resumeBlock_nil zero st returned, hst⟩
  | @assignment mayHaveReturned after destination x value rest e e' location hvalue hsort hwrite
      hrest ih =>
      simp only [blockMentioned, Statement.mentioned, List.cons_append, List.forall_mem_cons,
        List.forall_mem_append] at hvars
      have hgrows := grows_write hv hwrite (covers_of_encodes hv hvalue) hvalue.wellSorted hsort
      have hassign := hst.assign hvars.1 ((hrest.grows hgrows.1).holds hν)
      obtain ⟨st', returned', hrun, hmatches⟩ := ih hgrows.1 hvars.2.2 hν hassign
      refine ⟨st', returned', ?_, hmatches⟩
      rw [resumeBlock_cons, ← hrun]
      have heval := hvalue.eval_eq hst.state hvars.2.1 zero
      cases returned <;> simp [resume, exec, heval]
  | @conditional mayHaveReturned thenReturned elseReturned after x condition thenBlock elseBlock rest
      e e₁ e₂ e' merged location hcondition hsort hthen helse hmerge hrest ihthen ihelse ih =>
      simp only [blockMentioned, Statement.mentioned, List.forall_mem_append] at hvars
      obtain ⟨⟨hx, hthenVars, helseVars⟩, hrestVars⟩ := hvars
      have hthenGrows := hthen.grows hv
      have hvElse := hv.withTable hthenGrows
      have helseGrows := helse.grows hvElse
      have hjoin := grows_join hv hthenGrows helseGrows hmerge hcondition hsort
      have hνjoin := (hrest.grows hjoin.1).holds hν
      have hν₂ : e₂.Holds zero ν := hjoin.holds hνjoin
      have hν₁ : e₁.Holds zero ν := helseGrows.holds hν₂
      obtain ⟨b, hb⟩ : ∃ b, condition.value zero ν = .bool b :=
        ⟨_, Exact.eq_bool_toBool ((Term.sort_value zero ν _ hcondition.wellSorted).trans hsort)⟩
      have heval := (hcondition.eval_eq hst.state hx zero).trans (congrArg some hb)
      obtain ⟨st₁, returned₁, hbranch, hmatches₁⟩ : ∃ st₁ returned₁,
          resumeBlock zero (if b then thenBlock else elseBlock) (st, returned) =
            some (st₁, returned₁) ∧
          Matches names (if b then e₁ else e₂) ν (if b then thenReturned else elseReturned) st₁
            returned₁ := by
        cases b with
        | true => exact ihthen hv hthenVars hν₁ hst
        | false => exact ihelse hvElse helseVars hν₂ (hst.withTable hthenGrows.signature)
      replace hmatches₁ := hmatches₁.join hmerge helseGrows.signature hb hνjoin
      obtain ⟨st', returned', hrun, hmatches⟩ := ih hjoin.1 hrestVars hν hmatches₁
      refine ⟨st', returned', ?_, hmatches⟩
      rw [resumeBlock_cons, resume_conditional zero st returned _ _ _ heval, hbranch, ← hrun]
      rfl
  | @«return» mayHaveReturned after rest e e' location hwrite hrest ih =>
      have hgrows := grows_writeReturned hv hwrite
      have hreturned := hst.setReturned ((hrest.grows hgrows.1).holds hν)
      obtain ⟨st', returned', hrun, hmatches⟩ := ih hgrows.1 hvars hν hreturned
      refine ⟨st', returned', ?_, hmatches⟩
      rw [resumeBlock_cons, ← hrun]
      cases returned <;> rfl
  | @returnValue mayHaveReturned after x value rest e e₁ e' location hresult hvalue hsort hwrite he₁
      hreturned hrest ih =>
      subst he₁
      simp only [blockMentioned, Statement.mentioned, List.forall_mem_append] at hvars
      have hgrows := grows_write hv hwrite (covers_of_encodes hv hvalue) hvalue.wellSorted hsort
      have hflag := grows_writeReturned hgrows.1 hreturned
      have hνflag := (hrest.grows hflag.1).holds hν
      have hmatches₁ := (hst.setResult hresult (hflag.holds hνflag)).setReturned hνflag
      obtain ⟨st', returned', hrun, hmatches⟩ := ih hflag.1 hvars.2 hν hmatches₁
      refine ⟨st', returned', ?_, hmatches⟩
      rw [resumeBlock_cons, ← hrun]
      have heval := hvalue.eval_eq hst.state hvars.1 zero
      cases returned <;> simp [resume, exec, heval]

end Covenant
