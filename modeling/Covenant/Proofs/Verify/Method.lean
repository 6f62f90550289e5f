import Covenant.Proofs.Encoding.Run
import Covenant.Proofs.Execution.Calls
import Covenant.Proofs.Verify.Clause

namespace Covenant

open Statement

namespace Valuation

-- Gives the entry symbol of each name the value of the name.
noncomputable def ofNames (f : String → Exact) : Valuation where
  int := Function.extend (fun name => AliasName.text ⟨name, 0⟩) (fun name => (f name).toInt)
    fun _ => 0
  bool := Function.extend (fun name => AliasName.text ⟨name, 0⟩) (fun name => (f name).toBool)
    fun _ => false

theorem get_ofNames {f : String → Exact} {s : Signature} {name : String}
    (h : (f name).sort = (s.symbolOf ⟨name, 0⟩).sort) :
    (ofNames f).get (s.symbolOf ⟨name, 0⟩) = f name := by
  have hinjective : Function.Injective fun name => AliasName.text ⟨name, 0⟩ :=
    fun a b hab => congrArg AliasName.base (AliasName.text_injective hab)
  have hint : (ofNames f).int (AliasName.text ⟨name, 0⟩) = (f name).toInt :=
    hinjective.extend_apply (fun name => (f name).toInt) (fun _ => 0) name
  have hbool : (ofNames f).bool (AliasName.text ⟨name, 0⟩) = (f name).toBool :=
    hinjective.extend_apply (fun name => (f name).toBool) (fun _ => false) name
  unfold get
  split
  · rename_i hsort
    exact (congrArg Exact.int hint).trans (Exact.eq_int_toInt (h.trans hsort)).symm
  · rename_i hsort
    exact (congrArg Exact.bool hbool).trans (Exact.eq_bool_toBool (h.trans hsort)).symm

end Valuation

namespace Encoder.Prepared

variable {c : ClassModel} {m : Method} {e : Encoder}

theorem sort_symbolOf {names : List (String × TypeRef)} {returnType : TypeRef}
    (h : e.Prepared names returnType) {p : String × TypeRef}
    (hp : p ∈ names ++ ghostNames returnType) (g : Nat) :
    p.2.sort? = some (e.signature.symbolOf ⟨p.1, g⟩).sort := by
  obtain ⟨sort, htype, hsort⟩ := h.declares.sorts p hp
  rw [htype, Signature.sort_symbolOf hsort]

-- Each state in which a method can be called is given by values of the entry symbols.
theorem exists_valuation (h : e.Prepared (c.methodNames m) m.returnType) {st : State}
    (hst : c.Entry m st) : ∃ ν : Valuation,
      ν.get (e.signature.symbolOf ⟨returnedName, 0⟩) = .bool false ∧
      (∀ p ∈ c.methodNames m, st.vars p.1 = ν.get (e.signature.symbolOf ⟨p.1, 0⟩)) ∧
      (m.returnType.isVoid = false →
        st.result = some (ν.get (e.signature.symbolOf ⟨resultName, 0⟩))) := by
  let f : String → Exact := fun name =>
    if name = returnedName then .bool false
    else if name = resultName ∧ m.returnType.isVoid = false then st.result.getD (.int 0)
    else st.vars name
  refine ⟨.ofNames f, ?_, fun p hp => ?_, fun hvoid => ?_⟩
  · refine (Valuation.get_ofNames ?_).trans (by simp [f])
    rw [Signature.sort_symbolOf h.sort_returned]
    simp [f, Exact.sort]
  · have hname : p.1 ∈ (c.methodNames m).map Prod.fst := List.mem_map_of_mem hp
    have hreturned : p.1 ≠ returnedName := fun heq => h.returned_not_mem (heq ▸ hname)
    have hresult : ¬(p.1 = resultName ∧ m.returnType.isVoid = false) := by
      rintro ⟨heq, hvoid⟩
      exact h.result_not_mem (by simp [h.hasResult, hvoid]) (heq ▸ hname)
    have hf : f p.1 = st.vars p.1 := by simp only [f, if_neg hreturned, if_neg hresult]
    have htype : p.2.sort? = some (st.vars p.1).sort := by
      rcases List.mem_append.mp hp with hp | hp
      · exact hst.fields p hp
      · exact hst.binders p hp
    rw [Valuation.get_ofNames, hf]
    rw [hf]
    exact Option.some.inj (htype.symm.trans (h.sort_symbolOf (List.mem_append_left _ hp) 0))
  · obtain ⟨v, hv, htype⟩ : ∃ v, st.result = some v ∧ m.returnType.sort? = some v.sort := by
      simpa [hvoid] using hst.result
    have hf : f resultName = v := by simp [f, hvoid, hv, show resultName ≠ returnedName by decide]
    have hmem : (resultName, m.returnType) ∈ c.methodNames m ++ ghostNames m.returnType := by
      simp [ghostNames, hvoid]
    rw [Valuation.get_ofNames, hf, hv]
    rw [hf]
    exact Option.some.inj (htype.symm.trans (h.sort_symbolOf hmem 0))

-- Values of the entry symbols give a state in which the method can be called.
theorem entry (h : e.Prepared (c.methodNames m) m.returnType) (ν : Valuation) :
    c.Entry m (ν.entry e.signature) := by
  have hvars : ∀ p ∈ c.methodNames m, p.2.sort? = some ((ν.entry e.signature).vars p.1).sort := by
    intro p hp
    rw [h.sort_symbolOf (List.mem_append_left _ hp) 0]
    simp [Valuation.entry]
  refine ⟨⟨fun p hp => hvars p (List.mem_append_right _ hp), ?_⟩,
    fun p hp => hvars p (List.mem_append_left _ hp)⟩
  cases hvoid : m.returnType.isVoid with
  | true => simp [Valuation.entry, h.hasResult, hvoid]
  | false =>
      have hmem : (resultName, m.returnType) ∈ c.methodNames m ++ ghostNames m.returnType := by
        simp [ghostNames, hvoid]
      refine ⟨_, by simp [Valuation.entry, h.hasResult, hvoid]; rfl, ?_⟩
      rw [Valuation.sort_get]
      exact h.sort_symbolOf hmem 0

end Encoder.Prepared

theorem Definition.Ordered.proper {s : Signature} {known : AliasName → Prop}
    {defs : List Definition} (h : Definition.Ordered s known defs) :
    ∀ d ∈ defs, s.Proper (d.equation s) := by
  induction defs generalizing known with
  | nil => simp
  | cons d rest ih =>
      obtain ⟨-, hsymbols, hws, hsort, hrest⟩ := h
      refine List.forall_mem_cons.mpr ⟨⟨⟨trivial, hws, hsort.symm⟩, rfl, ?_⟩, ih hrest⟩
      simp only [equation, Term.symbols, List.singleton_append, List.forall_mem_cons]
      refine ⟨⟨_, rfl⟩, fun x hx => ?_⟩
      obtain ⟨a, -, rfl⟩ := hsymbols x hx
      exact ⟨a, rfl⟩

namespace MethodState

-- How a method was encoded: the encoders before and after its body.
structure Encoding (c : ClassModel) (m : Method) (s : MethodState) (e e' : Encoder) (after : Bool) :
    Prop where
  starts : Encode.prepare (c.methodNames m) m.returnType .empty = .ok () e
  runs : Encode.body m.body e = .ok () e'
  prepared : e.Prepared (c.methodNames m) m.returnType
  block : BlockEncoding false m.body e after e'
  requires : List.Forall₂ (s.signature.EncodesClause s.entry) m.requires s.requires
  signature : s.signature = e.signature
  entry : s.entry = e.table
  exit : s.exit = e'.table
  body : s.body = e'.assertions

theorem ofMethod_eq_ok {c : ClassModel} {m : Method} {s : MethodState}
    (h : ofMethod c m = .ok s) : ∃ e e' after, Encoding c m s e e' after := by
  unfold ofMethod at h
  split at h
  · rename_i entry requires e' hencode
    cases h
    simp only [entryAndRequires, Encode.table, Encode.bind_ok, Encode.reading_ok, Encode.body,
      Encode.pure_ok] at hencode
    obtain ⟨u, e₀, hdeclare, v, e, hbegin, table, e, ⟨htable, rfl⟩, terms, e, ⟨hrequires, rfl⟩, w, e',
      ⟨after, e', hblock, -, rfl⟩, hresult, rfl⟩ := hencode
    cases hresult
    cases htable
    have hprepared := Encoder.prepared_of_ok hdeclare hbegin
    have hencoding := blockEncoding_of_block m.body hblock
    have hsignature := (hencoding.grows hprepared.valid).signature
    have hruns : Encode.body m.body e = .ok () e' := Encode.bind_ok.mpr ⟨after, e', hblock, rfl⟩
    refine ⟨e, e', after, Encode.bind_ok.mpr ⟨u, e₀, hdeclare, hbegin⟩, hruns, hprepared, hencoding,
      ?_, hsignature, rfl, rfl, rfl⟩
    rw [hsignature]
    exact Signature.clauses_eq_ok hrequires
  · cases h

namespace Encoding

variable {c : ClassModel} {m : Method} {s : MethodState} {e e' : Encoder} {after : Bool}
variable {zero : ZeroDivision} {μ : Valuation} {st : State}

theorem grows (h : Encoding c m s e e' after) : e.Grows e' := h.block.grows h.prepared.valid

theorem represents_entry (h : Encoding c m s e e' after)
    (hvars : ∀ p ∈ c.methodNames m, st.vars p.1 = μ.get (s.signature.symbolOf ⟨p.1, 0⟩))
    (hresult : m.returnType.isVoid = false →
      st.result = some (μ.get (s.signature.symbolOf ⟨resultName, 0⟩))) :
    Represents (c.scope m) s.signature s.entry μ st := by
  rw [h.signature] at *
  rw [h.entry]
  exact h.prepared.represents_entry hvars hresult

-- The equations of the body have a solution for each state in which the method can be called.
theorem exists_solution (h : Encoding c m s e e' after) (zero : ZeroDivision)
    (hst : c.Entry m st) : ∃ μ, (∀ t ∈ s.body, t.value zero μ = .bool true) ∧
      Represents (c.scope m) s.signature s.entry μ st := by
  obtain ⟨ν, hreturned, hvars, hresult⟩ := h.prepared.exists_valuation hst
  obtain ⟨μ, hμ, hknown, -⟩ := h.prepared.exists_unique_extends h.grows zero ν hreturned
  refine ⟨μ, h.body ▸ hμ.holds, h.represents_entry (fun p hp => ?_) (fun hvoid => ?_)⟩
  · rw [h.signature, hknown _ (h.prepared.knows_of_registered (h.prepared.registered_name hp))]
    exact hvars p hp
  · rw [h.signature,
      hknown _ (h.prepared.knows_of_registered (h.prepared.registered_result hvoid))]
    exact hresult hvoid

-- A solution follows the run of the method.
theorem run (h : Encoding c m s e e' after)
    (hscope : ∀ v ∈ blockMentioned m.body, v.logicalName ∈ c.scope m)
    (hμ : ∀ t ∈ s.body, t.value zero μ = .bool true)
    (hst : Represents (c.scope m) s.signature s.entry μ st) :
    ∃ exit returned, execBlock zero m.body st = some (exit, returned) ∧
      Represents (c.scope m) s.signature s.exit μ exit := by
  rw [h.signature, h.entry] at hst
  rw [h.body] at hμ
  obtain ⟨exit, returned, hrun, hmatches⟩ := h.prepared.simulates h.block hscope hμ hst
  refine ⟨exit, returned, hrun, ?_⟩
  rw [h.signature, h.exit, ← h.grows.signature]
  exact hmatches.state

theorem sort_exit (h : Encoding c m s e e' after) {exit : State}
    (hexit : Represents (c.scope m) s.signature s.exit μ exit) :
    ∀ p ∈ c.methodNames m, p.2.sort? = some (exit.vars p.1).sort := by
  intro p hp
  rw [← hexit.vars p.1 (List.mem_map_of_mem hp), Valuation.sort_get, Signature.latest, h.signature]
  exact h.prepared.sort_symbolOf (List.mem_append_left _ hp) _

theorem proper_body (h : Encoding c m s e e' after) : ∀ t ∈ s.body, s.signature.Proper t := by
  obtain ⟨-, defs, hgrowth⟩ := h.grows
  intro t ht
  rw [h.body, hgrowth.assertions, h.prepared.assertions] at ht
  rw [h.signature]
  rcases List.mem_append.mp ht with ht | ht
  · rw [List.mem_singleton.mp ht]
    refine ⟨⟨trivial, trivial, Signature.sort_symbolOf h.prepared.sort_returned⟩, rfl, ?_⟩
    simp [Term.symbols]
  · obtain ⟨d, hd, rfl⟩ := List.mem_map.mp ht
    exact hgrowth.ordered.proper d hd

end Encoding

end MethodState

end Covenant
