import Covenant.Proofs.Search.Counterexample
import Covenant.Proofs.Verify.Counterexamples
import Covenant.Proofs.Verify.SolvingOrder
import Mathlib

namespace Covenant

open Statement

def Value.exact? : Value → Option Exact
  | .int n => some (.int n.toInt)
  | .bool b => some (.bool b)
  | .other _ => none

theorem Scalar.exact?_toValue (v : Scalar) : v.toValue.exact? = some v.exact := by
  cases v <;> rfl

namespace Exact

def text : Exact → String
  | .int n => toString n
  | .bool b => if b then "true" else "false"

-- The words for booleans are no numbers.
theorem text_int_ne_bool (n : Int) (b : Bool) : (Exact.int n).text ≠ (Exact.bool b).text := by
  intro h
  have hnumber : (Exact.bool b).text.isInt = true := h ▸ Int.isInt_repr n
  have hword : (Exact.bool b).text.isInt = false := by cases b <;> cbv
  rw [hword] at hnumber
  cases hnumber

theorem text_injective {x y : Exact} (h : x.text = y.text) : x = y := by
  cases x with
  | int n =>
      cases y with
      | int k => exact congrArg Exact.int (Int.repr_injective h)
      | bool b => exact absurd h (text_int_ne_bool n b)
  | bool b =>
      cases y with
      | int n => exact absurd h.symm (text_int_ne_bool n b)
      | bool b' =>
          revert h
          cases b <;> cases b' <;> decide

end Exact

theorem Value.text_eq_of_exact {v : Value} {x : Exact} (h : v.exact? = some x) :
    v.text = x.text := by
  cases v with
  | int n =>
      cases h
      rfl
  | bool b =>
      cases h
      rfl
  | other text => cases h

theorem Value.exact_of_text {v : Value} {x y : Exact} (hv : v.exact? = some y)
    (h : v.text = x.text) : v.exact? = some x := by
  rw [hv, Exact.text_injective ((text_eq_of_exact hv).symm.trans h)]

-- The bindings that a report has for the entry, if it has any.
def Counterexample.reported (x : Option Counterexample) : List Binding := x.elim [] inputs

theorem Counterexample.reported_nonEmpty? (x : Counterexample) :
    reported x.nonEmpty? = x.inputs := by
  unfold nonEmpty?
  split
  · rename_i hempty
    rw [isEmpty, List.isEmpty_iff] at hempty
    simp [reported, inputs, hempty]
  · rfl

namespace ClassModel

-- The state has the values that the model has for the entry symbols of the method. What the model
-- does not mention is free.
structure Describes (c : ClassModel) (m : Method) (model : Assignment) (st : State) : Prop where
  vars : ∀ p ∈ c.methodNames m, ∀ v, model.get? (AliasName.text ⟨p.1, 0⟩) = some v →
    v.exact? = some (st.vars p.1)
  result : m.returnType.isVoid = false →
    ∀ v, model.get? (AliasName.text ⟨resultName, 0⟩) = some v → v.exact? = st.result

-- The state has the values of the bindings, under the names and types that they are declared with.
structure Carries (c : ClassModel) (m : Method) (bindings : List Binding) (st : State) : Prop where
  vars : ∀ b ∈ bindings, ∀ p ∈ c.methodNames m, b.name = p.1 →
    b.type = p.2.text ∧ b.value = (st.vars p.1).text
  result : m.returnType.isVoid = false → ∀ b ∈ bindings, b.name = "result" →
    b.type = m.returnType.text ∧ some b.value = st.result.map Exact.text

-- No variable goes by a name of the result.
def ResultReserved (c : ClassModel) (m : Method) : Prop :=
  "result" ∉ c.scope m ∧ resultName ∉ c.scope m

instance (c : ClassModel) (m : Method) : Decidable (c.ResultReserved m) :=
  inferInstanceAs (Decidable (_ ∧ _))

-- The counterexample of a report is made from the model. Each of its entry values is that of a
-- variable or of the result, and they say of the entry what the model says. A report in which the
-- result and a variable share a name cannot be read so.
structure Reports (c : ClassModel) (m : Method) (x : Option Counterexample) (model : Assignment) :
    Prop where
  made : x = (Counterexample.ofAssignment (c.methodTypes m) model).nonEmpty?
  named : c.ResultReserved m → ∀ b ∈ Counterexample.reported x,
    b.name ∈ c.scope m ∨ m.returnType.isVoid = false ∧ b.name = "result"
  tells : c.ResultReserved m → ∀ st,
    c.Carries m (Counterexample.reported x) st ↔ c.Describes m model st

-- All states that the model describes, and there is one, start a run that breaks the clause.
structure Refutes (c : ClassModel) (m : Method) (assumed : List Clause) (clause : Clause)
    (model : Assignment) : Prop where
  described : ∃ entry, c.Entry m entry ∧ c.Describes m model entry
  breaks : ∀ zero entry, c.Entry m entry → c.Describes m model entry →
    (∀ r ∈ m.requires, r.Holds zero entry) ∧ (∀ r ∈ assumed, r.Holds zero entry) ∧
      ∃ exit returned, execBlock zero m.body entry = some (exit, returned) ∧
        clause.Fails zero exit

-- What a violation that is reported for a method says about its runs.
def Genuine (c : ClassModel) (m : Method) : ObligationKind → Violation → Prop
  | .precondition, .require method _ _ none => method = m.name ∧
      ∀ zero entry, c.Entry m entry → ¬∀ r ∈ m.requires, r.Holds zero entry
  | .ensure, .ensure method clause counterexample => method = m.name ∧ clause ∈ m.ensures ∧
      ∃ model, c.Reports m counterexample model ∧ c.Refutes m [] clause model
  | .invariantPreservation, .invariant invariant (some method) counterexample =>
      method = m.name ∧ invariant ∈ c.invariants ∧
      ∃ model, c.Reports m counterexample model ∧ c.Refutes m [invariant] invariant model
  | _, _ => False

-- What a violation that is reported for the initial values says.
def InitialGenuine (c : ClassModel) : ObligationKind → Violation → Prop
  | .invariantInitial, .invariant invariant none _ => invariant ∈ c.invariants ∧
      ∀ zero fields, c.Initial fields → invariant.Fails zero ⟨fields, none⟩
  | _, _ => False

-- Some call of the method is allowed.
def Callable (c : ClassModel) (m : Method) : Prop :=
  ∃ entry, c.Entry m entry ∧ ∀ zero, ∀ r ∈ m.requires, r.Holds zero entry

-- Invariants do not mention the variables of a return. Other names that are not declared are refused
-- when a query is made.
def InvariantsScoped (c : ClassModel) : Prop :=
  ∀ invariant ∈ c.invariants, ∀ v ∈ invariant.mentioned,
    v.logicalName ≠ returnedName ∧ v.logicalName ≠ resultName

instance (c : ClassModel) : Decidable c.InvariantsScoped :=
  inferInstanceAs (Decidable (∀ invariant ∈ c.invariants, ∀ v ∈ invariant.mentioned,
    v.logicalName ≠ returnedName ∧ v.logicalName ≠ resultName))

end ClassModel

namespace Search

variable {f : Formula} {model : Assignment} {env : Env} {s : Signature}

theorem Found.exists_symbol (h : Found f model env) {name : String} {v : Value}
    (hv : model.get? name = some v) : ∃ x ∈ f.occurrences, x.name = name := by
  rw [h.get?, Option.map_eq_some_iff] at hv
  obtain ⟨scalar, hlookup, -⟩ := hv
  exact (h.names _).mp ⟨scalar, hlookup⟩

theorem Found.exists_exact (h : Found f model env) {name : String} {v : Value}
    (hv : model.get? name = some v) : ∃ x, v.exact? = some x := by
  rw [h.get?, Option.map_eq_some_iff] at hv
  obtain ⟨scalar, -, rfl⟩ := hv
  exact ⟨scalar.exact, scalar.exact?_toValue⟩

theorem Found.get_complete (h : Found f model env) (hf : ∀ t ∈ f.assertions, s.Proper t)
    (ν : Valuation) {a : AliasName} {v : Value} (hv : model.get? a.text = some v) :
    v.exact? = some ((env.complete ν).get (s.symbolOf a)) := by
  rw [h.get?, Option.map_eq_some_iff] at hv
  obtain ⟨scalar, hlookup, rfl⟩ := hv
  obtain ⟨x, hx, hname⟩ := (h.names _).mp ⟨_, hlookup⟩
  obtain ⟨t, ht, hxt⟩ := List.mem_flatMap.mp hx
  obtain ⟨b, rfl⟩ := (hf t ht).symbols x hxt
  obtain rfl := AliasName.text_injective hname
  rw [Scalar.exact?_toValue, Env.get_complete_of_some ν hlookup (h.sorted _ hx _ hlookup)]

theorem Found.get_complete_of_none (h : Found f model env) (ν : Valuation) {a : AliasName}
    (ha : model.get? a.text = none) : (env.complete ν).get (s.symbolOf a) = ν.get (s.symbolOf a) := by
  rw [h.get?, Option.map_eq_none_iff] at ha
  exact Env.get_complete_of_none ν ha

-- A value that the model describes is the value of the completed model.
theorem Found.eq_get_complete (h : Found f model env) (hf : ∀ t ∈ f.assertions, s.Proper t)
    (ν : Valuation) {a : AliasName} {x : Exact} (hν : x = ν.get (s.symbolOf a))
    (hx : ∀ v, model.get? a.text = some v → v.exact? = some x) :
    x = (env.complete ν).get (s.symbolOf a) := by
  cases hv : model.get? a.text with
  | none => rw [h.get_complete_of_none ν hv, hν]
  | some v => exact Option.some.inj ((hx v hv).symm.trans (h.get_complete hf ν hv))

end Search

namespace MethodState.Encoding

variable {c : ClassModel} {m : Method} {s : MethodState} {e e' : Encoder} {after : Bool}
variable {f : Formula} {model : Assignment} {env : Env}

-- The completed model represents every state that the model describes.
theorem exists_represents (h : Encoding c m s e e' after) (hfound : Search.Found f model env)
    (hf : ∀ t ∈ f.assertions, s.signature.Proper t) {st : State} (hst : c.Entry m st)
    (hmodel : c.Describes m model st) :
    ∃ ν, Represents (c.scope m) s.signature s.entry (env.complete ν) st := by
  obtain ⟨ν, -, hvars, hresult⟩ := h.prepared.exists_valuation hst
  rw [← h.signature] at hvars hresult
  refine ⟨ν, h.represents_entry (fun p hp => ?_) (fun hvoid => ?_)⟩
  · exact hfound.eq_get_complete hf ν (hvars p hp) (hmodel.vars p hp)
  · rw [hresult hvoid]
    refine congrArg some (hfound.eq_get_complete hf ν rfl fun v hv => ?_)
    rw [hmodel.result hvoid v hv, hresult hvoid]

theorem represents_complete (h : Encoding c m s e e' after) (ν : Valuation) :
    Represents (c.scope m) s.signature s.entry ν (ν.entry s.signature) := by
  refine h.represents_entry (fun p _ => rfl) fun hvoid => ?_
  simp [Valuation.entry, h.signature, h.prepared.hasResult, hvoid]

theorem entry_complete (h : Encoding c m s e e' after) (ν : Valuation) :
    c.Entry m (ν.entry s.signature) := by
  rw [h.signature]
  exact h.prepared.entry ν

theorem describes_complete (h : Encoding c m s e e' after) (hfound : Search.Found f model env)
    (hf : ∀ t ∈ f.assertions, s.signature.Proper t) (ν : Valuation) :
    c.Describes m model ((env.complete ν).entry s.signature) where
  vars := fun p _ v hv => hfound.get_complete hf ν hv
  result := fun hvoid v hv => by
    rw [hfound.get_complete hf ν hv]
    simp [Valuation.entry, h.signature, h.prepared.hasResult, hvoid]

theorem refutes (h : Encoding c m s e e' after) {assumed : List Clause} {clause : Clause}
    (hquery : s.Query assumed clause f) (hc : c.WellScoped) (hm : m ∈ c.supportedMethods)
    (hassumed : ∀ r ∈ assumed, ∀ v ∈ r.mentioned, v.logicalName ∈ c.scope m)
    (hclause : ∀ v ∈ clause.mentioned, v.logicalName ∈ c.scope m)
    (hfound : Search.Found f model env) : c.Refutes m assumed clause model := by
  have hf := h.proper_query hquery
  let ν : Valuation := ⟨fun _ => 0, fun _ => false⟩
  refine ⟨⟨_, h.entry_complete (env.complete ν), h.describes_complete hfound hf ν⟩, ?_⟩
  intro zero entry hentry hmodel
  obtain ⟨ν, hst⟩ := h.exists_represents hfound hf hentry hmodel
  exact h.breaks_of_holds hquery hc hm hassumed hclause hst (hfound.holds zero ν)

-- What is declared, the flag of a return apart, is a variable in scope or the result.
theorem mem_scope_of_declared {name : String}
    (hname : name ∈ (c.methodNames m ++ ghostNames m.returnType).map Prod.fst)
    (hreturned : name ≠ returnedName) :
    name ∈ c.scope m ∨ m.returnType.isVoid = false ∧ name = resultName := by
  rw [List.map_append, List.mem_append] at hname
  refine hname.imp_right fun hghost => ?_
  unfold ghostNames at hghost
  split at hghost <;> simp_all

section Reports

open Counterexample

variable {assumed : List Clause} {clause : Clause}
variable (h : Encoding c m s e e' after) (hquery : s.Query assumed clause f)
variable (hfound : Search.Found f model env)

include h hquery hfound

-- The body defines no alias of the entry, so that only declared names have values there.
theorem declared_of_get? {base : String} {v : Value}
    (hv : model.get? (AliasName.text ⟨base, 0⟩) = some v) :
    base ∈ (c.methodNames m ++ ghostNames m.returnType).map Prod.fst := by
  obtain ⟨-, defs, hgrowth⟩ := h.grows
  obtain ⟨x, hx, hname⟩ := hfound.exists_symbol hv
  obtain ⟨t, ht, hxt⟩ := List.mem_flatMap.mp hx
  obtain ⟨a, ha, rfl⟩ := h.covers_query hgrowth hquery t ht x hxt
  obtain rfl := AliasName.text_injective hname
  have hknown : e.Knows ⟨base, 0⟩ := by
    refine ((hgrowth.knows _).mp ha).resolve_right fun hmem => ?_
    obtain ⟨d, hd, htarget⟩ := List.mem_map.mp hmem
    have hissued := hgrowth.issued d hd
    rw [htarget] at hissued
    exact absurd hissued (Nat.lt_irrefl 0)
  exact (h.prepared.declares.knows_iff.mp hknown).1

theorem aliased : Aliased model := by
  refine ClassModel.aliased_of_query h hquery fun symbol hsymbol => ?_
  obtain ⟨v, hv⟩ := NameMap.mem_names.mp hsymbol
  exact hfound.exists_symbol hv

-- Where the names of the result are its own, each input is that of one variable or of the result.
theorem mem_inputs_iff (hreserved : c.ResultReserved m) {b : Binding} :
    b ∈ (ofAssignment (c.methodTypes m) model).inputs ↔
      (∃ p ∈ c.methodNames m, ∃ v, model.get? (AliasName.text ⟨p.1, 0⟩) = some v ∧
        b = ⟨p.1, 0, p.2.text, v.text⟩) ∨
      m.returnType.isVoid = false ∧ ∃ v, model.get? (AliasName.text ⟨resultName, 0⟩) = some v ∧
        b = ⟨"result", 0, m.returnType.text, v.text⟩ := by
  have hvariable : ∀ p ∈ c.methodNames m, ∀ v,
      bindingOf (c.methodTypes m) ⟨p.1, 0⟩ v = ⟨p.1, 0, p.2.text, v.text⟩ := by
    intro p hp v
    have hne : p.1 ≠ resultName := fun heq => hreserved.2 (heq ▸ List.mem_map_of_mem hp)
    rw [bindingOf, sourceName, if_neg hne, ClassModel.get?_methodTypes h.nodup_names hp hne,
      Option.getD_some]
  have hresult : ∀ v, bindingOf (c.methodTypes m) ⟨resultName, 0⟩ v =
      ⟨"result", 0, m.returnType.text, v.text⟩ := by
    intro v
    rw [bindingOf, sourceName, if_pos rfl, ClassModel.methodTypes, NameMap.get?_insert_self,
      Option.getD_some]
  rw [mem_inputs (h.aliased hquery hfound)]
  constructor
  · rintro ⟨base, v, hreturned, hv, rfl⟩
    rcases mem_scope_of_declared (h.declared_of_get? hquery hfound hv) hreturned with
      hscope | ⟨hvoid, rfl⟩
    · obtain ⟨p, hp, rfl⟩ := List.mem_map.mp hscope
      exact .inl ⟨p, hp, v, hv, hvariable p hp v⟩
    · exact .inr ⟨hvoid, v, hv, hresult v⟩
  · rintro (⟨p, hp, v, hv, rfl⟩ | ⟨-, v, hv, rfl⟩)
    · have hreturned : p.1 ≠ returnedName := fun heq =>
        h.prepared.returned_not_mem (heq ▸ List.mem_map_of_mem hp)
      exact ⟨p.1, v, hreturned, hv, (hvariable p hp v).symm⟩
    · exact ⟨resultName, v, by decide, hv, (hresult v).symm⟩

theorem carries_of_describes (hreserved : c.ResultReserved m) {st : State}
    (hst : c.Describes m model st) :
    c.Carries m (ofAssignment (c.methodTypes m) model).inputs st where
  vars := fun b hb p hp hname => by
    rcases (h.mem_inputs_iff hquery hfound hreserved).mp hb with
      ⟨q, hq, v, hv, rfl⟩ | ⟨-, v, -, rfl⟩
    · obtain rfl := List.inj_on_of_nodup_map h.nodup_names hq hp hname
      exact ⟨rfl, Value.text_eq_of_exact (hst.vars q hq v hv)⟩
    · have hresult : p.1 = "result" := hname.symm
      exact absurd (hresult ▸ List.mem_map_of_mem hp) hreserved.1
  result := fun hvoid b hb hname => by
    rcases (h.mem_inputs_iff hquery hfound hreserved).mp hb with
      ⟨q, hq, v, -, rfl⟩ | ⟨-, v, hv, rfl⟩
    · have hresult : q.1 = "result" := hname
      exact absurd (hresult ▸ List.mem_map_of_mem hq) hreserved.1
    · obtain ⟨x, hx⟩ := hfound.exists_exact hv
      rw [← hst.result hvoid v hv, hx, Option.map_some, ← Value.text_eq_of_exact hx]
      exact ⟨rfl, rfl⟩

theorem describes_of_carries (hreserved : c.ResultReserved m) {st : State}
    (hst : c.Carries m (ofAssignment (c.methodTypes m) model).inputs st) :
    c.Describes m model st where
  vars := fun p hp v hv => by
    have hmem := (h.mem_inputs_iff hquery hfound hreserved).mpr (.inl ⟨p, hp, v, hv, rfl⟩)
    obtain ⟨x, hx⟩ := hfound.exists_exact hv
    exact Value.exact_of_text hx (hst.vars _ hmem p hp rfl).2
  result := fun hvoid v hv => by
    have hmem := (h.mem_inputs_iff hquery hfound hreserved).mpr (.inr ⟨hvoid, v, hv, rfl⟩)
    obtain ⟨x, hx⟩ := hfound.exists_exact hv
    obtain ⟨y, hy, htext⟩ := Option.map_eq_some_iff.mp (hst.result hvoid _ hmem rfl).2.symm
    rw [hy]
    exact Value.exact_of_text hx htext.symm

theorem reports : c.Reports m (ofAssignment (c.methodTypes m) model).nonEmpty? model where
  made := rfl
  named := fun hreserved b hb => by
    rw [reported_nonEmpty?] at hb
    rcases (h.mem_inputs_iff hquery hfound hreserved).mp hb with
      ⟨p, hp, v, -, rfl⟩ | ⟨hvoid, v, -, rfl⟩
    · exact .inl (List.mem_map_of_mem hp)
    · exact .inr ⟨hvoid, rfl⟩
  tells := fun hreserved st => by
    rw [reported_nonEmpty?]
    exact ⟨h.describes_of_carries hquery hfound hreserved,
      h.carries_of_describes hquery hfound hreserved⟩

end Reports

theorem callable (h : Encoding c m s e e' after) (hc : c.WellScoped) (hm : m ∈ c.supportedMethods)
    (hfound : Search.Found s.preconditionQuery model env) : c.Callable m := by
  let μ : Valuation := env.complete ⟨fun _ => 0, fun _ => false⟩
  refine ⟨_, h.entry_complete μ, fun zero => ?_⟩
  exact (h.requires_iff hc hm (h.represents_complete μ)).mpr (hfound.holds zero _)

theorem not_requires (h : Encoding c m s e e' after) (hc : c.WellScoped)
    (hm : m ∈ c.supportedMethods) (hunsat : s.preconditionQuery.Unsatisfiable)
    (zero : ZeroDivision) {entry : State} (hentry : c.Entry m entry) :
    ¬∀ r ∈ m.requires, r.Holds zero entry := by
  intro hrequires
  obtain ⟨μ, -, hst⟩ := h.exists_solution zero hentry
  exact hunsat zero μ ((h.requires_iff hc hm hst).mp hrequires)

-- A name that can be read on entry, and is no variable of a return, is in scope.
theorem mem_scope (h : Encoding c m s e e' after) {name : String}
    (hname : s.signature.Registered s.entry name) (hreturned : name ≠ returnedName)
    (hresult : name ≠ resultName) : name ∈ c.scope m := by
  obtain ⟨⟨g, hg⟩, -⟩ := hname
  rw [h.entry] at hg
  refine (mem_scope_of_declared (h.prepared.declares.mem_of_get? hg) hreturned).resolve_right ?_
  exact fun hghost => hresult hghost.2

theorem scope_of_query (h : Encoding c m s e e' after) {invariant : Clause}
    (hquery : s.Query [invariant] invariant f)
    (hinv : ∀ v ∈ invariant.mentioned, v.logicalName ≠ returnedName ∧ v.logicalName ≠ resultName) :
    ∀ v ∈ invariant.mentioned, v.logicalName ∈ c.scope m := by
  obtain ⟨pres, post, hpres, -, -⟩ := hquery
  cases hpres with
  | cons hpre hrest =>
      obtain ⟨text, x, location, rfl, hx, -⟩ := hpre
      intro v hv
      exact h.mem_scope (hx.registered v hv) (hinv v hv).1 (hinv v hv).2

end MethodState.Encoding

section Bounded

variable {bounds : Search.Bounds} {emitSmt : Bool}

namespace Obligation

variable {o : Obligation}

-- A goal that wants a model is violated only where there is none, and another goal only by a model.
theorem proved_of_violated (hgoal : o.goal.wantsModel = true) {v : Violation}
    (h : (o.discharge (.bounded bounds) emitSmt ()).1.status = .violated v) :
    ∃ f, o.query = .ok f ∧ Search.check bounds f = .proved ∧ v = o.goal.violation none := by
  obtain ⟨f, hf, hjudge⟩ := judged_of_decided h (by simp)
  rcases judge_eq_violated.mp hjudge with ⟨-, hanswer, hv⟩ | ⟨hwants, -⟩
  · exact ⟨f, hf, Except.ok.inj hanswer, hv⟩
  · rw [hgoal] at hwants
    cases hwants

theorem counterexample_of_violated (hgoal : o.goal.wantsModel = false) {v : Violation}
    (h : (o.discharge (.bounded bounds) emitSmt ()).1.status = .violated v) :
    ∃ f model, o.query = .ok f ∧ Search.check bounds f = .counterexample model ∧
      v = o.goal.violation (Counterexample.ofAssignment o.types model).nonEmpty? := by
  obtain ⟨f, hf, hjudge⟩ := judged_of_decided h (by simp)
  rcases judge_eq_violated.mp hjudge with ⟨hwants, -⟩ | ⟨-, model, hanswer, hv⟩
  · rw [hgoal] at hwants
    cases hwants
  · exact ⟨f, model, hf, Except.ok.inj hanswer, hv⟩

theorem counterexample_of_proved (hgoal : o.goal.wantsModel = true)
    (h : (o.discharge (.bounded bounds) emitSmt ()).1.status = .proved) :
    ∃ f model, o.query = .ok f ∧ Search.check bounds f = .counterexample model := by
  obtain ⟨f, hf, hjudge⟩ := judged_of_decided h (by simp)
  rcases judge_eq_proved.mp hjudge with ⟨hwants, -⟩ | ⟨-, model, hanswer⟩
  · rw [hgoal] at hwants
    cases hwants
  · exact ⟨f, model, hf, Except.ok.inj hanswer⟩

theorem dischargeAll_bounded (os : List Obligation) :
    (dischargeAll (.bounded bounds) emitSmt os ()).1 =
      os.map fun o => (o.discharge (.bounded bounds) emitSmt ()).1 := by
  induction os with
  | nil => rfl
  | cons o rest ih => exact congrArg (_ :: ·) ih

end Obligation

namespace ClassModel

variable {c : ClassModel} {m : Method} {o : Obligation}

theorem verifyMethods_bounded (ms : List Method) :
    (c.verifyMethods (.bounded bounds) emitSmt ms ()).1 =
      ms.map fun m => (c.verifyMethod (.bounded bounds) emitSmt m ()).1 := by
  induction ms with
  | nil => rfl
  | cons m rest ih => exact congrArg (_ :: ·) ih

-- The bounded search keeps no state, so that each obligation is decided on its own, in whatever
-- order they are taken.
theorem outcome_bounded (hsealed : c.isSealed = true) (hsupported : c.firstUnsupported = none) :
    (c.verify (.bounded bounds) emitSmt ()).1.outcome =
      .checked (c.initialObligations.map fun o => (o.discharge (.bounded bounds) emitSmt ()).1)
        (c.supportedMethods.map fun m => ⟨m.name,
          (c.methodObligations m).map fun o => (o.discharge (.bounded bounds) emitSmt ()).1⟩) := by
  simp only [verify, outcome, hsealed, hsupported, if_true]
  rw [Obligation.dischargeAll_bounded, verifyMethods_bounded]
  simp only [verifyMethod, Obligation.dischargeAll_bounded]

theorem genuine_of_violated (hc : c.WellScoped) (hinv : c.InvariantsScoped)
    (hm : m ∈ c.supportedMethods) (ho : o ∈ c.methodObligations m) {v : Violation}
    (h : (o.discharge (.bounded bounds) emitSmt ()).1.status = .violated v) :
    c.Genuine m o.goal.kind v := by
  rcases of_mem_methodObligations ho with ⟨first, rest, rfl⟩ | ⟨clause, hclause, rfl⟩ |
    ⟨invariant, hmem, rfl⟩
  · obtain ⟨f, hf, hcheck, rfl⟩ := Obligation.proved_of_violated rfl h
    obtain ⟨s, e, e', after, hencoding, rfl⟩ := map_ofMethod_eq_ok hf
    have hws := s.signature.formula_wellSorted hencoding.proper_precondition
    refine ⟨rfl, fun zero entry hentry => ?_⟩
    exact hencoding.not_requires hc hm (Search.unsatisfiable_of_check hws.names hcheck) zero hentry
  · obtain ⟨f, model, hf, hcheck, rfl⟩ := Obligation.counterexample_of_violated rfl h
    obtain ⟨s, e, e', after, hencoding, hquery⟩ := bind_ofMethod_eq_ok hf
    replace hquery := MethodState.ensureQuery_eq_ok hquery
    have hws := s.signature.formula_wellSorted (hencoding.proper_query hquery)
    obtain ⟨env, hfound⟩ := Search.check_eq_counterexample hws hcheck
    refine ⟨rfl, hclause, model, hencoding.reports hquery hfound, ?_⟩
    exact hencoding.refutes hquery hc hm (by simp) (hc.ensures m hm clause hclause) hfound
  · obtain ⟨f, model, hf, hcheck, rfl⟩ := Obligation.counterexample_of_violated rfl h
    obtain ⟨s, e, e', after, hencoding, hquery⟩ := bind_ofMethod_eq_ok hf
    replace hquery := MethodState.preservationQuery_eq_ok hquery
    have hws := s.signature.formula_wellSorted (hencoding.proper_query hquery)
    obtain ⟨env, hfound⟩ := Search.check_eq_counterexample hws hcheck
    have hscope := hencoding.scope_of_query hquery (hinv invariant hmem)
    refine ⟨rfl, hmem, model, hencoding.reports hquery hfound, ?_⟩
    exact hencoding.refutes hquery hc hm (by simpa using hscope) hscope hfound

theorem callable_of_proved (hc : c.WellScoped) (hm : m ∈ c.supportedMethods)
    (ho : o ∈ c.methodObligations m) (hkind : o.goal.kind = .precondition)
    (h : (o.discharge (.bounded bounds) emitSmt ()).1.status = .proved) : c.Callable m := by
  rcases of_mem_methodObligations ho with ⟨first, rest, rfl⟩ | ⟨clause, hclause, rfl⟩ |
    ⟨invariant, hmem, rfl⟩
  · obtain ⟨f, model, hf, hcheck⟩ := Obligation.counterexample_of_proved rfl h
    obtain ⟨s, e, e', after, hencoding, rfl⟩ := map_ofMethod_eq_ok hf
    have hws := s.signature.formula_wellSorted hencoding.proper_precondition
    obtain ⟨env, hfound⟩ := Search.check_eq_counterexample hws hcheck
    exact hencoding.callable hc hm hfound
  · cases hkind
  · cases hkind

theorem initialGenuine_of_violated (hinit : c.InitializersSorted) (ho : o ∈ c.initialObligations)
    {v : Violation} (h : (o.discharge (.bounded bounds) emitSmt ()).1.status = .violated v) :
    c.InitialGenuine o.goal.kind v := by
  obtain ⟨invariant, hmem, rfl⟩ := List.mem_map.mp ho
  obtain ⟨f, model, hf, hcheck, rfl⟩ := Obligation.counterexample_of_violated rfl h
  obtain ⟨e, hencoding, hquery⟩ := initialQuery_eq_ok hf
  obtain ⟨env, hfound⟩ :=
    Search.check_eq_counterexample (hencoding.query_wellSorted hinit hquery) hcheck
  refine ⟨hmem, fun zero fields hfields => ?_⟩
  exact hencoding.fails_of_holds hquery (hfound.holds zero ⟨fun _ => 0, fun _ => false⟩) hfields

-- What the bounded search reports for a class is right: a violated clause is broken by a run from
-- every state that the model describes, a violated invariant fails on the initial values, and the
-- verdict on the requires says whether the method can be called at all.
theorem bounded_reports_genuine (bounds : Search.Bounds) (emitSmt : Bool) {c : ClassModel}
    (hsealed : c.isSealed = true) (hsupported : c.firstUnsupported = none)
    (hinit : c.InitializersSorted) (hc : c.WellScoped) (hinv : c.InvariantsScoped) :
    ∃ initial methods,
      (c.verify (.bounded bounds) emitSmt ()).1.outcome = .checked initial methods ∧
      (∀ r ∈ initial, ∀ v, r.status = .violated v → c.InitialGenuine r.kind v) ∧
      List.Forall₂ (fun m report => report.method = m.name ∧ ∀ r ∈ report.obligations,
        (∀ v, r.status = .violated v → c.Genuine m r.kind v) ∧
        (r.kind = .precondition → r.status = .proved → c.Callable m))
        c.supportedMethods methods := by
  refine ⟨_, _, outcome_bounded hsealed hsupported, ?_, ?_⟩
  · rw [List.forall_mem_map]
    intro o ho v hv
    rw [Obligation.kind_discharge]
    exact initialGenuine_of_violated hinit ho hv
  · rw [List.forall₂_map_right_iff, List.forall₂_same]
    intro m hm
    refine ⟨rfl, ?_⟩
    simp only [List.forall_mem_map, Obligation.kind_discharge]
    intro o ho
    exact ⟨fun v hv => genuine_of_violated hc hinv hm ho hv,
      fun hkind hproved => callable_of_proved hc hm ho hkind hproved⟩

end ClassModel

end Bounded

-- An account that starts overdrawn, and of which more can be taken than it holds.
namespace Account

def balance : Field := ⟨"balance", .named "int" false, some (.int (-1)), "Account", none, default⟩

def amount : Binder := ⟨"amount", .named "int" false, default⟩

def flag : Binder := ⟨"flag", .named "bool" false, default⟩

def inCredit : Clause :=
  .supported "balance >= 0"
    (.comparison (.order .ge) (.variable (.field balance)) (.literal (.int 0))) default

def withdraw : Method :=
  ⟨"Withdraw", .pub, .named "void" false, ⟨[.supported amount], .ofList [("amount", 0)], true⟩,
    .sealedEmpty,
    [.supported "amount > 0"
      (.comparison (.order .gt) (.variable (.parameter amount)) (.literal (.int 0))) default],
    [.assignment (.field balance)
      (.arithmetic .sub (.variable (.field balance)) (.variable (.parameter amount))) default],
    [inCredit], default⟩

-- Its requires contradict each other.
def close : Method :=
  ⟨"Close", .priv, .named "void" false, ⟨[.supported flag], .ofList [("flag", 0)], true⟩,
    .sealedEmpty,
    [.supported "flag" (.variable (.parameter flag)) default,
      .supported "!flag" (.unary .not (.variable (.parameter flag))) default],
    [], [], default⟩

def model : ClassModel :=
  ⟨"Account", ⟨[.supported balance], .ofList [("balance", 0)], true⟩,
    ⟨[.supported withdraw, .supported close], .ofList [("Close", 1), ("Withdraw", 0)], true⟩,
    [inCredit], default⟩

end Account

theorem ClassModel.bounded_reports_genuine_account :
    (Account.model.verify (.bounded ⟨1, 64⟩) false ()).1.totals = ⟨1, 4, 0⟩ ∧
    (∀ m ∈ Account.model.supportedMethods, Account.model.ResultReserved m) ∧
    ∃ initial methods,
      (Account.model.verify (.bounded ⟨1, 64⟩) false ()).1.outcome = .checked initial methods ∧
      (∀ r ∈ initial, ∀ v, r.status = .violated v → Account.model.InitialGenuine r.kind v) ∧
      List.Forall₂ (fun m report => report.method = m.name ∧ ∀ r ∈ report.obligations,
        (∀ v, r.status = .violated v → Account.model.Genuine m r.kind v) ∧
        (r.kind = .precondition → r.status = .proved → Account.model.Callable m))
        Account.model.supportedMethods methods :=
  ⟨by decide +kernel, by decide, bounded_reports_genuine ⟨1, 64⟩ false rfl rfl (by decide)
    ⟨by decide, by decide, by decide⟩ (by decide)⟩

end Covenant
