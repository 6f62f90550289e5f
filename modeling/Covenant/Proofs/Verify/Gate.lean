import Covenant.Proofs.Encoding.Errors
import Covenant.Proofs.Verify.Queries
import Mathlib.Data.List.Forall2

namespace Covenant

namespace ClassModel

variable {c : ClassModel} {m : Method}

-- What is declared and supported has a sort.
theorem isVerifiable_of_supported {ds : List (Decl α)} {type : α → TypeRef}
    (h : ∀ d ∈ ds, ¬d.Unverifiable type) {a : α} (ha : a ∈ ds.filterMap Decl.supported?) :
    (type a).isVerifiable = true :=
  Bool.not_eq_false _ ▸ h _ (Decl.mem_filterMap_supported?.mp ha)

theorem isVerifiable_field (h : ¬c.HasUnsupported) {f : Field} (hf : f ∈ c.supportedFields) :
    f.type.isVerifiable = true :=
  isVerifiable_of_supported (fun d hd hd' => h (.field d hd hd')) hf

theorem isVerifiable_binder (h : ¬m.HasUnsupported) {b : Binder}
    (hb : b ∈ m.supportedParameters ++ m.supportedLocals) : b.type.isVerifiable = true := by
  rw [Method.supportedParameters, Method.supportedLocals, ← List.filterMap_append] at hb
  exact isVerifiable_of_supported (fun d hd hd' => h (.binder d hd hd')) hb

theorem clear_entryAndRequires (hc : ¬c.HasUnsupported) (hm : ¬m.HasUnsupported) :
    Encode.Clear (MethodState.entryAndRequires c m) := by
  have hnames : ∀ p ∈ c.fieldNames ++ m.binderNames, p.2.isVerifiable = true := by
    simp only [fieldNames, Method.binderNames, List.forall_mem_append, List.forall_mem_map]
    exact ⟨fun f hf => isVerifiable_field hc hf,
      List.forall_mem_append.mp fun b hb => isVerifiable_binder hm hb⟩
  have hreturn : m.returnType.isVoid = false → m.returnType.isVerifiable = true := by
    intro hvoid
    by_contra hverifiable
    exact hm (.returnType hvoid (Bool.not_eq_true _ ▸ hverifiable))
  have hrequires : ∀ r ∈ m.requires, ¬r.HasUnsupported := fun r hr hr' =>
    hm (.clause r (List.mem_append_left _ hr) hr')
  have hbody := Encode.clear_block false m.body fun s hs hs' => hm (.statement s hs hs')
  exact (Encode.clear_declareAll hnames).bind fun _ => (Encode.clear_beginBody hreturn).bind fun _ =>
    (Encode.Clear.reading fun _ => .ok _).bind fun entry =>
      (Encode.Clear.reading fun e => e.signature.clear_clauses entry hrequires).bind fun _ =>
        (hbody.bind fun _ => .pure _).bind fun _ => .pure _

theorem clear_ofMethod (hc : ¬c.HasUnsupported) (hm : ¬m.HasUnsupported) :
    Clear (MethodState.ofMethod c m) := by
  unfold MethodState.ofMethod
  split
  · exact .ok _
  · next hfails => exact .error (clear_entryAndRequires hc hm _ _ _ hfails)

theorem clear_initialFields {fields : List Field} (h : ∀ f ∈ fields, f.type.isVerifiable = true) :
    Encode.Clear (initialFields fields) := by
  induction fields with
  | nil => exact .pure _
  | cons f rest ih =>
      rw [List.forall_mem_cons] at h
      exact (Encode.clear_declare f.logicalName h.1).bind fun a =>
        (Encode.clear_symbol a).bind fun _ => (Encode.clear_assert _).bind fun _ => ih h.2

theorem clear_initialState (hc : ¬c.HasUnsupported) : Clear c.initialState := by
  have hfields := clear_initialFields fun f hf => isVerifiable_field (c := c) hc hf
  unfold initialState
  split
  · exact .ok _
  · next hfails => exact .error (hfields _ _ _ hfails)

-- The encoder meets nothing that the gate is there to keep out.
theorem clear_query (hc : ¬c.HasUnsupported) {o : Obligation} (ho : o ∈ c.obligations) :
    Clear o.query := by
  have hinvariant : ∀ r ∈ c.invariants, ¬r.HasUnsupported := fun r hr hr' => hc (.invariant r hr hr')
  rcases mem_obligations.mp ho with ho | ⟨m, hm, ho⟩
  · obtain ⟨r, hr, rfl⟩ := List.mem_map.mp ho
    exact (clear_initialState hc).bind fun e =>
      (e.signature.clear_clause e.table (hinvariant r hr)).bind fun _ => .ok _
  · have hm : ¬m.HasUnsupported := fun hm' => hc (.method m (mem_supportedMethods.mp hm) hm')
    have hstate := clear_ofMethod hc hm
    rcases of_mem_methodObligations ho with ⟨first, rest, rfl⟩ | ⟨r, hr, rfl⟩ | ⟨r, hr, rfl⟩
    · exact hstate.map _
    · have hr : ¬r.HasUnsupported := fun hr' => hm (.clause r (List.mem_append_right _ hr) hr')
      exact hstate.bind fun s => (s.signature.clear_clause s.exit hr).bind fun _ => .ok _
    · exact hstate.bind fun s => (s.signature.clear_clause s.entry (hinvariant r hr)).bind fun _ =>
        (s.signature.clear_clause s.exit (hinvariant r hr)).bind fun _ => .ok _

section

variable {σ : Type} (solver : Solver σ) (emitSmt : Bool)

theorem outcome_eq_fault_iff (c : ClassModel) (s : σ) :
    (∃ message, (c.verify solver emitSmt s).1.outcome = .fault message) ↔ c.HasUnsealed := by
  rw [← c.isSealed_eq_false]
  cases hsealed : c.isSealed with
  | false => simp [verify_of_unsealed solver emitSmt hsealed]
  | true =>
      cases hfirst : c.firstUnsupported with
      | some location => simp [verify_of_unsupported solver emitSmt hsealed hfirst]
      | none =>
          obtain ⟨⟨initial, methods, houtcome⟩, -⟩ :=
            verify_of_gates solver emitSmt hsealed hfirst s
          simp [houtcome]

theorem outcome_eq_unsupported_iff (h : ¬c.HasUnsealed) (s : σ) :
    (∃ location, (c.verify solver emitSmt s).1.outcome = .unsupported location) ↔
      c.HasUnsupported := by
  have hsealed : c.isSealed = true := by simpa [← c.isSealed_eq_false] using h
  rw [← c.isSome_firstUnsupported]
  cases hfirst : c.firstUnsupported with
  | some location => simp [verify_of_unsupported solver emitSmt hsealed hfirst]
  | none =>
      obtain ⟨⟨initial, methods, houtcome⟩, -⟩ := verify_of_gates solver emitSmt hsealed hfirst s
      simp [houtcome]

-- A class that is turned away costs no query and leaves the solver as it was.
theorem verify_of_refused (h : c.HasUnsealed ∨ c.HasUnsupported) (s : σ) :
    c.queries solver emitSmt s = [] ∧ (c.verify solver emitSmt s).2 = s ∧
      (c.verify solver emitSmt s).1.obligations = [] := by
  rw [← c.isSealed_eq_false, ← c.isSome_firstUnsupported] at h
  cases hsealed : c.isSealed with
  | false =>
      rw [verify_of_unsealed solver emitSmt hsealed]
      exact ⟨c.queries_of_not_gates solver emitSmt (by simp [hsealed]) s, rfl, rfl⟩
  | true =>
      have hfirst : c.firstUnsupported.isSome = true := h.resolve_left (by simp [hsealed])
      obtain ⟨location, hfirst⟩ := Option.isSome_iff_exists.mp hfirst
      rw [verify_of_unsupported solver emitSmt hsealed hfirst]
      exact ⟨c.queries_of_not_gates solver emitSmt (by simp [hfirst]) s, rfl, rfl⟩

theorem verify_of_admitted (hunsealed : ¬c.HasUnsealed) (hunsupported : ¬c.HasUnsupported) (s : σ) :
    (∃ initial methods, (c.verify solver emitSmt s).1.outcome = .checked initial methods) ∧
      List.Forall₂ (fun o r => Clear o.query ∧ ∃ s', r = (o.discharge solver emitSmt s').1)
        c.obligations (c.verify solver emitSmt s).1.obligations := by
  have hsealed : c.isSealed = true := by simpa [← c.isSealed_eq_false] using hunsealed
  have hfirst : c.firstUnsupported = none := by
    simpa [← c.isSome_firstUnsupported] using hunsupported
  obtain ⟨hchecked, hreport⟩ := verify_of_gates solver emitSmt hsealed hfirst s
  have hdischarged := Obligation.forall₂_dischargeAll solver emitSmt c.obligations s
  rw [hreport] at hdischarged
  exact ⟨hchecked,
    (List.forall₂_and_left _ _).mpr ⟨fun o ho => clear_query hunsupported ho, hdischarged⟩⟩

end

-- A class with an open table is at fault, and any other with a part that is not supported is refused.
-- Neither asks the solver anything. All that is left is checked, and the encoder meets nothing that
-- should have been refused.
theorem gate_fails_closed (solver : Solver σ) (emitSmt : Bool) (c : ClassModel) (s : σ) :
    ((∃ message, (c.verify solver emitSmt s).1.outcome = .fault message) ↔ c.HasUnsealed) ∧
    (¬c.HasUnsealed →
      ((∃ location, (c.verify solver emitSmt s).1.outcome = .unsupported location) ↔
        c.HasUnsupported)) ∧
    (c.HasUnsealed ∨ c.HasUnsupported →
      c.queries solver emitSmt s = [] ∧ (c.verify solver emitSmt s).2 = s ∧
        (c.verify solver emitSmt s).1.obligations = []) ∧
    (¬c.HasUnsealed → ¬c.HasUnsupported →
      (∃ initial methods, (c.verify solver emitSmt s).1.outcome = .checked initial methods) ∧
      List.Forall₂ (fun o r => ((∀ location, o.query ≠ .error (.unsupportedReached location)) ∧
            ∀ name type, o.query ≠ .error (.unsorted name type)) ∧
          ∃ s', r = (o.discharge solver emitSmt s').1)
        c.obligations (c.verify solver emitSmt s).1.obligations) := by
  refine ⟨outcome_eq_fault_iff solver emitSmt c s,
    fun h => outcome_eq_unsupported_iff solver emitSmt h s,
    fun h => verify_of_refused solver emitSmt h s, fun hunsealed hunsupported => ?_⟩
  obtain ⟨hchecked, hreports⟩ := verify_of_admitted solver emitSmt hunsealed hunsupported s
  refine ⟨hchecked, hreports.imp fun o r h => ⟨⟨?_, ?_⟩, h.2⟩⟩
  · exact fun location hquery => h.1 _ hquery trivial
  · exact fun name type hquery => h.1 _ hquery trivial

end ClassModel

end Covenant
