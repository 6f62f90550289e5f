import Covenant.Proofs.Encoding.Entry

namespace Covenant

open Statement

-- The state that a method starts in under the given values.
def Valuation.entry (ν : Valuation) (s : Signature) : State where
  vars name := ν.get (s.symbolOf ⟨name, 0⟩)
  result := if s.hasResult then some (ν.get (s.symbolOf ⟨resultName, 0⟩)) else none

namespace Encoder

-- An encoder that is about to encode the body of a method over the names.
structure Prepared (e : Encoder) (names : List (String × TypeRef)) (returnType : TypeRef) : Prop where
  declares : e.Declares (names ++ ghostNames returnType)
  returned_not_mem : returnedName ∉ names.map Prod.fst
  result_not_mem : e.signature.hasResult = true → resultName ∉ names.map Prod.fst
  hasResult : e.signature.hasResult = !returnType.isVoid
  sort_returned : e.signature.sorts.get? returnedName = some .bool
  assertions : e.assertions = [.eq (.var (e.signature.symbolOf ⟨returnedName, 0⟩)) (.bool false)]

-- The second valuation gives values to the aliases issued since the first encoder, on top of those
-- of the first, and satisfies all equations.
structure Extends (zero : ZeroDivision) (e e' : Encoder) (ν μ : Valuation) : Prop where
  outside : ∀ x, (∀ a ∈ e'.table.difference e.table, x ≠ e'.signature.symbolOf a) →
    μ.get x = ν.get x
  holds : e'.Holds zero μ

theorem prepared_of_ok {names : List (String × TypeRef)} {returnType : TypeRef} {e₀ e : Encoder}
    {u v : Unit} (hdeclare : Encode.declareAll names .empty = .ok u e₀)
    (hbegin : Encode.beginBody returnType e₀ = .ok v e) : e.Prepared names returnType := by
  obtain ⟨hdeclares, hresult, hassertions⟩ := Encode.declareAll_ok names declares_empty hdeclare
  obtain ⟨hdeclares, hreturned, hnotResult, hhasResult, hsort, hassertions'⟩ :=
    Encode.beginBody_ok hdeclares hresult hbegin
  exact ⟨hdeclares, hreturned, hnotResult, hhasResult, hsort,
    hassertions'.trans (congrArg (· ++ _) hassertions)⟩

variable {zero : ZeroDivision} {names : List (String × TypeRef)} {returnType : TypeRef}
variable {stmts : List Statement} {after : Bool} {e e' : Encoder} {ν μ : Valuation}

namespace Prepared

theorem valid (h : e.Prepared names returnType) : e.Valid := h.declares.valid h.sort_returned

theorem registered_name (h : e.Prepared names returnType) {p : String × TypeRef} (hp : p ∈ names) :
    e.signature.Registered e.table p.1 :=
  h.declares.registered (List.mem_map_of_mem (List.mem_append_left _ hp))

theorem registered_returned (h : e.Prepared names returnType) :
    e.signature.Registered e.table returnedName :=
  h.declares.registered (by simp [ghostNames])

theorem registered_result (h : e.Prepared names returnType) (hvoid : returnType.isVoid = false) :
    e.signature.Registered e.table resultName :=
  h.declares.registered (by simp [ghostNames, hvoid])

theorem knows_of_registered (h : e.Prepared names returnType) {name : String}
    (hname : e.signature.Registered e.table name) : e.Knows ⟨name, 0⟩ := by
  obtain ⟨⟨g, hg⟩, -⟩ := hname
  exact h.declares.knows_iff.mpr ⟨h.declares.mem_of_get? hg, rfl⟩

theorem covers_assertions (h : e.Prepared names returnType) : ∀ t ∈ e.assertions, e.Covers t := by
  rw [h.assertions, List.forall_mem_singleton]
  intro x hx
  simp only [Term.symbols, List.append_nil, List.mem_singleton] at hx
  exact ⟨_, h.knows_of_registered h.registered_returned, hx⟩

theorem holds_iff (h : e.Prepared names returnType) : e.Holds zero ν ↔
    ν.get (e.signature.symbolOf ⟨returnedName, 0⟩) = .bool false := by
  simp only [Holds, h.assertions, List.forall_mem_singleton]
  exact Term.value_eq_true zero

theorem represents_entry (h : e.Prepared names returnType) {st : State}
    (hvars : ∀ p ∈ names, st.vars p.1 = ν.get (e.signature.symbolOf ⟨p.1, 0⟩))
    (hresult : returnType.isVoid = false →
      st.result = some (ν.get (e.signature.symbolOf ⟨resultName, 0⟩))) :
    Represents (names.map Prod.fst) e.signature e.table ν st where
  vars := by
    simp only [List.forall_mem_map, h.declares.latest]
    exact fun p hp => (hvars p hp).symm
  result := fun hhasResult => by
    rw [h.declares.latest]
    exact hresult (by simpa [h.hasResult] using hhasResult)

-- Values that satisfy the equations of a body follow its run.
theorem simulates (h : e.Prepared names returnType) (hbody : BlockEncoding false stmts e after e')
    (hvars : ∀ v ∈ blockMentioned stmts, v.logicalName ∈ names.map Prod.fst)
    (hμ : e'.Holds zero μ) {st : State}
    (hst : Represents (names.map Prod.fst) e.signature e.table μ st) :
    ∃ exit returned, execBlock zero stmts st = some (exit, returned) ∧
      Matches (names.map Prod.fst) e' μ after exit returned := by
  have hentry : Matches (names.map Prod.fst) e μ false st false := {
    state := hst
    flag_eq := by
      rw [h.declares.latest]
      exact h.holds_iff.mp ((hbody.grows h.valid).holds hμ)
    flag_le := by simp
    returned_not_mem := h.returned_not_mem
    result_not_mem := h.result_not_mem }
  exact hbody.simulates h.valid hvars hμ hentry

end Prepared

theorem mem_difference_of_growth {defs : List Definition} (hv : e.Valid) (h : Growth e e' defs)
    (a : AliasName) : a ∈ e'.table.difference e.table ↔ a ∈ defs.map Definition.target := by
  rw [AliasTable.mem_difference, h.history, List.mem_append]
  constructor
  · rintro ⟨hmem, hold⟩
    exact hmem.resolve_left hold
  · intro hmem
    obtain ⟨d, hd, rfl⟩ := List.mem_map.mp hmem
    exact ⟨.inr hmem, fun hold => h.ordered.not_known d hd (hv.history _ hold)⟩

-- The equations made since the first encoder can be solved in exactly one way.
theorem exists_unique_extends (hv : e.Valid) (h : e.Grows e') (zero : ZeroDivision) (ν : Valuation)
    (hν : e.Holds zero ν) (hcovers : ∀ t ∈ e.assertions, e.Covers t) :
    ∃ μ, Extends zero e e' ν μ ∧ (∀ a, e.Knows a →
      μ.get (e.signature.symbolOf a) = ν.get (e.signature.symbolOf a)) ∧
      ∀ μ', Extends zero e e' ν μ' → μ' = μ := by
  obtain ⟨-, defs, hgrowth⟩ := h
  have hagree : ∀ {μ : Valuation}, Extends zero e e' ν μ →
      ∀ x, (∀ d ∈ defs, x ≠ d.symbol e.signature) → μ.get x = ν.get x := by
    intro μ hμ x hx
    refine hμ.outside x fun a ha => ?_
    obtain ⟨d, hd, rfl⟩ := List.mem_map.mp ((mem_difference_of_growth hv hgrowth a).mp ha)
    rw [hgrowth.signature]
    exact hx d hd
  have hequations : ∀ {μ : Valuation}, Extends zero e e' ν μ →
      ∀ d ∈ defs, (d.equation e.signature).value zero μ = .bool true := by
    intro μ hμ d hd
    refine hμ.holds _ ?_
    rw [hgrowth.assertions]
    exact List.mem_append_right _ (List.mem_map_of_mem hd)
  have hknown : ∀ a, e.Knows a → (Definition.solve zero e.signature defs ν).get
      (e.signature.symbolOf a) = ν.get (e.signature.symbolOf a) :=
    fun a ha => Definition.get_solve_of_known zero hgrowth.ordered ν ha
  have hsolve : Extends zero e e' ν (Definition.solve zero e.signature defs ν) := by
    constructor
    · intro x hx
      refine Definition.get_solve_of_not_mem zero defs ν fun d hd => ?_
      rw [Definition.symbol, ← hgrowth.signature]
      exact hx _ ((mem_difference_of_growth hv hgrowth _).mpr (List.mem_map_of_mem hd))
    · intro t ht
      rw [hgrowth.assertions, List.mem_append] at ht
      rcases ht with ht | ht
      · refine Eq.trans (Term.value_congr zero t fun x hx => ?_) (hν t ht)
        obtain ⟨a, ha, rfl⟩ := hcovers t ht x hx
        exact hknown a ha
      · obtain ⟨d, hd, rfl⟩ := List.mem_map.mp ht
        exact Definition.equation_solve zero hgrowth.ordered ν d hd
  refine ⟨_, hsolve, hknown, fun μ' hμ' => ?_⟩
  refine Definition.eq_of_equations zero hgrowth.ordered (fun x hx => ?_) (hequations hμ')
    (hequations hsolve)
  rw [hagree hμ' x hx, hagree hsolve x hx]

theorem Prepared.exists_unique_extends (h : e.Prepared names returnType) (hgrows : e.Grows e')
    (zero : ZeroDivision) (ν : Valuation)
    (hν : ν.get (e.signature.symbolOf ⟨returnedName, 0⟩) = .bool false) :
    ∃ μ, Extends zero e e' ν μ ∧ (∀ a, e.Knows a →
      μ.get (e.signature.symbolOf a) = ν.get (e.signature.symbolOf a)) ∧
      ∀ μ', Extends zero e e' ν μ' → μ' = μ :=
  Encoder.exists_unique_extends h.valid hgrows zero ν (h.holds_iff.mpr hν) h.covers_assertions

theorem Grows.registered (h : e.Grows e') {name : String}
    (hname : e.signature.Registered e.table name) : e'.signature.Registered e'.table name := by
  obtain ⟨-, defs, hgrowth⟩ := h
  obtain ⟨⟨g, hg⟩, hsort⟩ := hname
  exact ⟨hgrowth.names name g hg, hgrowth.signature ▸ hsort⟩

end Encoder

namespace Encode

open Encoder

-- Declares the names of a method and those of a return.
def prepare (names : List (String × TypeRef)) (returnType : TypeRef) : Encode Unit := do
  declareAll names
  beginBody returnType

-- The equations of a body have exactly one solution over given entry values, and the exit symbols
-- have in it the values of the run from these: those of the names, whether a return ended the run,
-- and the result. With a counter of 32 bits this is so for fewer than 2 ^ 32 writes of a name.
theorem body_solved_by_run {names : List (String × TypeRef)} {returnType : TypeRef}
    {stmts : List Statement} {e e' : Encoder}
    (hentry : prepare names returnType .empty = .ok () e)
    (hbody : body stmts e = .ok () e')
    (hvars : ∀ v ∈ blockMentioned stmts, v.logicalName ∈ names.map Prod.fst)
    (zero : ZeroDivision) (ν : Valuation)
    (hν : ν.get (e.signature.symbolOf ⟨returnedName, 0⟩) = .bool false) :
    ∃ μ exit returned, Extends zero e e' ν μ ∧ (∀ μ', Extends zero e e' ν μ' → μ' = μ) ∧
      execBlock zero stmts (ν.entry e.signature) = some (exit, returned) ∧
      (∀ p ∈ names, ∃ x, e'.signature.current e'.table p.1 = .ok (.var x) ∧
        μ.get x = exit.vars p.1) ∧
      (∃ x, e'.signature.current e'.table returnedName = .ok (.var x) ∧
        μ.get x = .bool returned) ∧
      (returnType.isVoid = false → ∃ x, e'.signature.current e'.table resultName = .ok (.var x) ∧
        exit.result = some (μ.get x)) := by
  simp only [prepare, bind_ok] at hentry
  obtain ⟨u, e₀, hdeclare, hbegin⟩ := hentry
  have hprepared := prepared_of_ok hdeclare hbegin
  simp only [body, bind_ok, pure_ok] at hbody
  obtain ⟨after, e', hblock, -, rfl⟩ := hbody
  have hencoding := blockEncoding_of_block stmts hblock
  have hgrows := hencoding.grows hprepared.valid
  obtain ⟨μ, hμ, hknown, hunique⟩ := hprepared.exists_unique_extends hgrows zero ν hν
  have hst : Represents (names.map Prod.fst) e.signature e.table μ (ν.entry e.signature) := by
    refine hprepared.represents_entry (fun p hp => ?_) (fun hvoid => ?_)
    · exact (hknown _ (hprepared.knows_of_registered (hprepared.registered_name hp))).symm
    · rw [hknown _ (hprepared.knows_of_registered (hprepared.registered_result hvoid))]
      simp [Valuation.entry, hprepared.hasResult, hvoid]
  obtain ⟨exit, returned, hrun, hmatches⟩ := hprepared.simulates hencoding hvars hμ.holds hst
  have hcurrent : ∀ name, e.signature.Registered e.table name →
      e'.signature.current e'.table name = .ok (.var (e'.signature.latest e'.table name)) :=
    fun name hname => Signature.current_eq_ok.mpr ⟨hgrows.registered hname, rfl⟩
  refine ⟨μ, exit, returned, hμ, hunique, hrun, fun p hp => ?_, ?_, fun hvoid => ?_⟩
  · exact ⟨_, hcurrent _ (hprepared.registered_name hp),
      hmatches.state.vars _ (List.mem_map_of_mem hp)⟩
  · exact ⟨_, hcurrent _ hprepared.registered_returned, hmatches.flag_eq⟩
  · refine ⟨_, hcurrent _ (hprepared.registered_result hvoid), hmatches.state.result ?_⟩
    rw [hgrows.signature, hprepared.hasResult, hvoid]
    rfl

-- if (x < 0) { return -x; } return x;
def absBody : List Statement :=
  let x := Expression.variable (.parameter ⟨"x", .named "int" false, default⟩)
  [.conditional (.comparison (.order .lt) x (.literal (.int 0)))
      [.return (some (.unary .negate x)) default] [] default,
    .return (some x) default]

def absEntry : Encoder where
  signature := ⟨.ofList [("$result", .int), ("$returned", .bool), ("x", .int)], true⟩
  table := ⟨.ofList [("$result", 0), ("$returned", 0), ("x", 0)],
    [⟨"x", 0⟩, ⟨"$returned", 0⟩, ⟨"$result", 0⟩]⟩
  issued := .ofList [("$result", 0), ("$returned", 0), ("x", 0)]
  assertions := [.eq (.var ⟨"$returned@0", .bool⟩) (.bool false)]

theorem exists_body_abs : ∃ e', body absBody absEntry = .ok () e' := by
  have hok : (match body absBody absEntry with | .ok _ _ => true | .error _ _ => false) = true := by
    decide +kernel
  cases h : body absBody absEntry with
  | ok u e' => exact ⟨e', rfl⟩
  | error _ _ => simp [h] at hok

theorem body_solved_by_run_abs :
    prepare [("x", .named "int" false)] (.named "int" false) .empty = .ok () absEntry ∧
    ∃ e' μ x, body absBody absEntry = .ok () e' ∧
      Extends (fun n => n) absEntry e' ⟨fun _ => -5, fun _ => false⟩ μ ∧
      e'.signature.current e'.table resultName = .ok (.var x) ∧ μ.get x = .int 5 := by
  have hentry : prepare [("x", .named "int" false)] (.named "int" false) .empty =
    .ok () absEntry := by rfl
  obtain ⟨e', hbody⟩ := exists_body_abs
  obtain ⟨μ, exit, returned, hμ, -, hrun, -, -, hresult⟩ := body_solved_by_run hentry hbody (by decide)
    (fun n => n) ⟨fun _ => -5, fun _ => false⟩ rfl
  obtain ⟨x, hx, hget⟩ := hresult (by decide)
  have hvalue : (execBlock (fun n => n) absBody (Valuation.entry ⟨fun _ => -5, fun _ => false⟩
      absEntry.signature)).map (·.1.result) = some (some (.int 5)) := by decide
  rw [hrun, Option.map_some, hget] at hvalue
  exact ⟨hentry, e', μ, x, hbody, hμ, hx, Option.some.inj (Option.some.inj hvalue)⟩

end Encode

end Covenant
