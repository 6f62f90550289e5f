import Covenant.Proofs.Search.Plan
import Covenant.Proofs.Verify.Query

namespace Covenant

open Search

namespace Definition

variable {s : Signature} {known : AliasName → Prop} {defs : List Definition}

-- The step of a search that gives the alias its value.
def step (s : Signature) (d : Definition) : Step := .define (d.symbol s) d.rhs

-- Equations that can be solved from the entry on: each defines an alias of its own past the entry,
-- from aliases of the entry and those defined before it. No generation is beyond the number of
-- definitions of its name, so that 32 bits hold it where there are fewer than 2 ^ 32 of them.
structure Sequence (s : Signature) (defs : List Definition) : Prop where
  distinct : (defs.map target).Nodup
  issued : ∀ d ∈ defs, 0 < d.target.generation
  numbered : ∀ d ∈ defs,
    d.target.generation ≤ defs.countP fun other => other.target.base = d.target.base
  reads : ∀ k d, defs[k]? = some d → ∀ x ∈ d.rhs.symbols,
    ∃ a, x = s.symbolOf a ∧ (a.generation = 0 ∨ a ∈ (defs.take k).map target)

-- An equation defines its alias when only known aliases have appeared, since it is new to them.
theorem definition?_equation {d : Definition} {seen : List String} (hfresh : ¬known d.target)
    (hsymbols : ∀ x ∈ d.rhs.symbols, ∃ a, known a ∧ x = s.symbolOf a)
    (hseen : ∀ name ∈ seen, ∃ a, known a ∧ name = a.text) :
    definition? seen (d.equation s) = some (d.symbol s, d.rhs) := by
  refine definition?_eq_some.mpr ⟨rfl, fun hmem => ?_, fun x hx hname => ?_⟩
  · obtain ⟨a, ha, heq⟩ := hseen _ hmem
    exact hfresh (AliasName.text_injective heq ▸ ha)
  · obtain ⟨a, ha, rfl⟩ := hsymbols x hx
    exact hfresh (AliasName.text_injective hname ▸ ha)

theorem Ordered.steps_build (h : Ordered s known defs) {seen : List String}
    (hseen : ∀ name ∈ seen, ∃ a, known a ∧ name = a.text) :
    (Plan.build seen (defs.map (equation s))).steps = defs.map (step s) := by
  induction defs generalizing known seen with
  | nil => rfl
  | cons d rest ih =>
      obtain ⟨hfresh, hsymbols, -, -, hrest⟩ := h
      simp only [List.map_cons, Plan.build, definition?_equation hfresh hsymbols hseen]
      refine congrArg (_ :: ·) (ih hrest fun name hname => ?_)
      rcases List.mem_cons.mp hname with rfl | hname
      · exact ⟨d.target, .inr rfl, rfl⟩
      · rcases List.mem_append.mp hname with hname | hname
        · obtain ⟨-, x, hx, rfl⟩ := Symbol.mem_map_fresh.mp hname
          obtain ⟨a, ha, rfl⟩ := hsymbols x hx
          exact ⟨a, .inl ha, rfl⟩
        · obtain ⟨a, ha, rfl⟩ := hseen name hname
          exact ⟨a, .inl ha, rfl⟩

theorem defined_steps (defs : List Definition) :
    Step.defined (defs.map (step s)) = defs.map fun d => d.target.text := by
  induction defs with
  | nil => rfl
  | cons d rest ih => exact congrArg (_ :: ·) ih

end Definition

theorem Signature.EncodesClause.covers {e : Encoder} {c : Clause} {t : Term} (hv : e.Valid)
    (h : e.signature.EncodesClause e.table c t) : e.Covers t := by
  obtain ⟨text, x, location, rfl, hx, -⟩ := h
  exact Encoder.covers_of_encodes hv hx

theorem Signature.forall_covers {e : Encoder} {cs : List Clause} {ts : List Term} (hv : e.Valid)
    (h : List.Forall₂ (e.signature.EncodesClause e.table) cs ts) : ∀ t ∈ ts, e.Covers t := by
  induction h with
  | nil => simp
  | cons hc hrest ih => exact List.forall_mem_cons.mpr ⟨hc.covers hv, ih⟩

theorem Encoder.Growth.covers_assertions {e e' : Encoder} {defs : List Definition}
    (h : Growth e e' defs) (he : ∀ t ∈ e.assertions, e.Covers t) :
    ∀ t ∈ e'.assertions, e'.Covers t := by
  rw [h.assertions, List.forall_mem_append]
  refine ⟨fun t ht => h.covers (he t ht), fun t ht => ?_⟩
  obtain ⟨d, hd, rfl⟩ := List.mem_map.mp ht
  have htarget : e'.Knows d.target := (h.knows _).mpr (.inr (List.mem_map_of_mem hd))
  obtain ⟨k, hk⟩ := List.getElem?_of_mem hd
  simp only [Covers, Definition.equation, Term.symbols, List.singleton_append,
    List.forall_mem_cons]
  refine ⟨⟨d.target, htarget, by rw [h.signature]; rfl⟩, fun x hx => ?_⟩
  obtain ⟨a, rfl, ha⟩ := h.ordered.reads hk hx
  refine ⟨a, (h.knows a).mpr (ha.imp_right fun ha => ?_), by rw [h.signature]⟩
  exact (List.map_subset _ (List.take_subset k defs)) ha

-- All earlier generations of a defined alias were defined too, and each by an equation of its own.
theorem Encoder.Growth.generation_le_countP {e e' : Encoder} {defs : List Definition}
    (h : Growth e e' defs) (hentry : ∀ a, e.Knows a → a.generation = 0) {d : Definition}
    (hd : d ∈ defs) :
    d.target.generation ≤ defs.countP fun other => other.target.base = d.target.base := by
  let earlier := (List.range d.target.generation).map fun k => AliasName.mk d.target.base (k + 1)
  have hnodup : earlier.Nodup := by
    refine List.nodup_range.map fun k l hkl => ?_
    simpa using hkl
  obtain ⟨newest, hnewest, hle⟩ := (h.knows d.target).mpr (.inr (List.mem_map_of_mem hd))
  have hsubset : earlier ⊆
      (defs.filter fun other => other.target.base = d.target.base).map Definition.target := by
    intro a ha
    obtain ⟨k, hk, rfl⟩ := List.mem_map.mp ha
    rw [List.mem_range] at hk
    have hknown : e'.Knows ⟨d.target.base, k + 1⟩ := ⟨newest, hnewest, by simp only; omega⟩
    have hdefined := ((h.knows _).mp hknown).resolve_left fun hold =>
      absurd (hentry _ hold) (Nat.succ_ne_zero k)
    obtain ⟨other, hother, htarget⟩ := List.mem_map.mp hdefined
    exact List.mem_map.mpr ⟨other, List.mem_filter.mpr ⟨hother, by simp [htarget]⟩, htarget⟩
  simpa [earlier, List.countP_eq_length_filter] using hnodup.length_le_of_subset hsubset

namespace MethodState

-- The symbols of the names of a method, and of those of a return, on entry.
def entrySymbols (c : ClassModel) (m : Method) (s : MethodState) : List Symbol :=
  (c.methodNames m ++ ghostNames m.returnType).map fun p => s.signature.symbolOf ⟨p.1, 0⟩

-- How a search takes a query about a run: it defines what the body defines, by the equations in their
-- places, and tries values for symbols of the entry only.
structure Planned (c : ClassModel) (m : Method) (s : MethodState) (e : Encoder)
    (defs : List Definition) (f : Formula) : Prop where
  steps : ∃ assumed post before,
    f.assertions = s.requires ++ assumed ++ s.body ++ [.not post] ∧
    (Plan.ofFormula f).steps =
      before ++ defs.map (Definition.step s.signature) ++ [.require (.not post)] ∧
    before.length = s.requires.length + assumed.length + e.assertions.length
  free : ∀ x ∈ (Plan.ofFormula f).free, x ∈ s.entrySymbols c m

namespace Encoding

variable {c : ClassModel} {m : Method} {s : MethodState} {e e' : Encoder} {after : Bool}
variable {assumed : List Clause} {clause : Clause} {defs : List Definition} {f : Formula}

theorem mem_entrySymbols (h : Encoding c m s e e' after) {a : AliasName} (ha : e.Knows a) :
    s.signature.symbolOf a ∈ s.entrySymbols c m := by
  obtain ⟨base, generation⟩ := a
  obtain ⟨hbase, rfl⟩ := h.prepared.declares.knows_iff.mp ha
  obtain ⟨p, hp, rfl⟩ := List.mem_map.mp hbase
  exact List.mem_map.mpr ⟨p, hp, rfl⟩

theorem sequence (h : Encoding c m s e e' after) (hgrowth : Encoder.Growth e e' defs) :
    Definition.Sequence s.signature defs where
  distinct := hgrowth.ordered.nodup
  issued := hgrowth.issued
  numbered := fun d hd =>
    hgrowth.generation_le_countP (fun a ha => (h.prepared.declares.knows_iff.mp ha).2) hd
  reads := fun k d hd x hx => by
    obtain ⟨a, rfl, ha⟩ := hgrowth.ordered.reads hd hx
    rw [h.signature]
    exact ⟨a, rfl, ha.imp_left fun ha => (h.prepared.declares.knows_iff.mp ha).2⟩

theorem covers_requires (h : Encoding c m s e e' after) : ∀ t ∈ s.requires, e.Covers t := by
  have hrequires := h.requires
  rw [h.signature, h.entry] at hrequires
  exact Signature.forall_covers h.prepared.valid hrequires

theorem free_precondition (h : Encoding c m s e e' after) :
    ∀ x ∈ (Plan.ofFormula s.preconditionQuery).free, x ∈ s.entrySymbols c m := by
  intro x hx
  obtain ⟨t, ht, hxt⟩ := List.mem_flatMap.mp (Plan.mem_free hx).1
  obtain ⟨a, ha, rfl⟩ := h.covers_requires t ht x hxt
  rw [← h.signature]
  exact h.mem_entrySymbols ha

-- What stands before the equations of the body has appeared when they come, and is over the entry.
-- So each of them is a definition.
theorem steps_query (h : Encoding c m s e e' after) (hgrowth : Encoder.Growth e e' defs)
    (hquery : s.Query assumed clause f) : ∃ pres post before,
      f.assertions = s.requires ++ pres ++ s.body ++ [.not post] ∧
      (Plan.ofFormula f).steps =
        before ++ defs.map (Definition.step s.signature) ++ [.require (.not post)] ∧
      before.length = s.requires.length + pres.length + e.assertions.length := by
  obtain ⟨pres, post, hpres, -, rfl⟩ := hquery
  rw [h.signature, h.entry] at hpres
  have hbody : s.body = e.assertions ++ defs.map (Definition.equation e.signature) :=
    h.body.trans hgrowth.assertions
  have hcovers : ∀ t ∈ s.requires ++ pres ++ e.assertions, e.Covers t := by
    simp only [List.forall_mem_append]
    exact ⟨⟨h.covers_requires, Signature.forall_covers h.prepared.valid hpres⟩,
      h.prepared.covers_assertions⟩
  obtain ⟨seen, hseen, hfirst⟩ := Plan.build_append [] (s.requires ++ pres ++ e.assertions)
    (defs.map (Definition.equation e.signature) ++ [.not post])
  obtain ⟨seen', -, hlast⟩ := Plan.build_append seen (defs.map (Definition.equation e.signature))
    [.not post]
  have hknown : ∀ name ∈ seen, ∃ a, e.Knows a ∧ name = a.text := by
    intro name hname
    obtain ⟨x, hx, rfl⟩ := ((hseen name).mp hname).resolve_left List.not_mem_nil
    obtain ⟨t, ht, hxt⟩ := List.mem_flatMap.mp hx
    obtain ⟨a, ha, rfl⟩ := hcovers t ht x hxt
    exact ⟨a, ha, rfl⟩
  refine ⟨pres, post, (Plan.build [] (s.requires ++ pres ++ e.assertions)).steps, rfl, ?_, ?_⟩
  · rw [hgrowth.ordered.steps_build hknown] at hlast
    rw [Plan.ofFormula, hbody, h.signature]
    simp only [List.append_assoc] at hfirst hlast ⊢
    rw [hfirst, hlast]
    rfl
  · rw [Plan.length_steps]
    simp only [List.length_append]

theorem covers_query (h : Encoding c m s e e' after) (hgrowth : Encoder.Growth e e' defs)
    (hquery : s.Query assumed clause f) : ∀ t ∈ f.assertions, e'.Covers t := by
  obtain ⟨pres, post, hpres, hpost, rfl⟩ := hquery
  rw [h.signature] at hpres hpost
  rw [h.entry] at hpres
  rw [h.exit, ← hgrowth.signature] at hpost
  simp only [List.forall_mem_append, List.forall_mem_singleton, h.body]
  refine ⟨⟨⟨fun t ht => hgrowth.covers (h.covers_requires t ht), fun t ht => ?_⟩,
    hgrowth.covers_assertions h.prepared.covers_assertions⟩,
    fun x hx => hpost.covers h.grows.1 x hx⟩
  exact hgrowth.covers (Signature.forall_covers h.prepared.valid hpres t ht)

theorem planned (h : Encoding c m s e e' after) (hgrowth : Encoder.Growth e e' defs)
    (hquery : s.Query assumed clause f) : s.Planned c m e defs f where
  steps := h.steps_query hgrowth hquery
  free := fun x hx => by
    obtain ⟨t, ht, hxt⟩ := List.mem_flatMap.mp (Plan.mem_free hx).1
    obtain ⟨a, ha, rfl⟩ := h.covers_query hgrowth hquery t ht x hxt
    rw [hgrowth.signature, ← h.signature] at hx ⊢
    rcases (hgrowth.knows a).mp ha with ha | ha
    · exact h.mem_entrySymbols ha
    · -- A name that a step defines is not tried.
      obtain ⟨d, hd, rfl⟩ := List.mem_map.mp ha
      obtain ⟨pres, post, before, -, hsteps, -⟩ := h.steps_query hgrowth hquery
      have hdefined : d.target.text ∈ Step.defined (Plan.ofFormula f).steps := by
        rw [hsteps, Step.defined_append, Step.defined_append, Definition.defined_steps]
        simp [List.mem_map_of_mem hd]
      have hnodup := List.nodup_append.mp (Plan.nodup_names [] f.assertions)
      exact (hnodup.2.2 _ (List.mem_map_of_mem hx) _ hdefined rfl).elim

end Encoding

-- The equations that encoding a body adds define the aliases past the entry one after the other, and a
-- search takes them so in each query: only symbols of the entry are left to be tried.
theorem queries_solved_in_order {c : ClassModel} {m : Method} {s : MethodState}
    (h : ofMethod c m = .ok s) : ∃ e e' defs,
      Encode.prepare (c.methodNames m) m.returnType .empty = .ok () e ∧
      Encode.body m.body e = .ok () e' ∧ s.body = e'.assertions ∧
      e'.assertions = e.assertions ++ defs.map (Definition.equation s.signature) ∧
      Definition.Sequence s.signature defs ∧
      (∀ x ∈ (Plan.ofFormula s.preconditionQuery).free, x ∈ s.entrySymbols c m) ∧
      ∀ clause f, s.ensureQuery clause = .ok f ∨ s.preservationQuery clause = .ok f →
        s.Planned c m e defs f := by
  obtain ⟨e, e', after, hencoding⟩ := ofMethod_eq_ok h
  obtain ⟨-, defs, hgrowth⟩ := hencoding.grows
  refine ⟨e, e', defs, hencoding.starts, hencoding.runs, hencoding.body, ?_,
    hencoding.sequence hgrowth, hencoding.free_precondition, ?_⟩
  · rw [hencoding.signature]
    exact hgrowth.assertions
  · rintro clause f (hf | hf)
    · exact hencoding.planned hgrowth (ensureQuery_eq_ok hf)
    · exact hencoding.planned hgrowth (preservationQuery_eq_ok hf)

end MethodState

-- A till that pays out only what it holds.
namespace Till

def cash : Field := ⟨"cash", .named "int" false, none, "Till", none, default⟩

def amount : Binder := ⟨"amount", .named "int" false, default⟩

def notEmpty : Clause :=
  .supported "cash >= 0"
    (.comparison (.order .ge) (.variable (.field cash)) (.literal (.int 0))) default

-- if (cash < amount) { return false; } cash = cash - amount; return true;
def pay : Method :=
  ⟨"Pay", .pub, .named "bool" false, ⟨[.supported amount], .ofList [("amount", 0)], true⟩,
    .sealedEmpty,
    [.supported "amount > 0"
      (.comparison (.order .gt) (.variable (.parameter amount)) (.literal (.int 0))) default],
    [.conditional
        (.comparison (.order .lt) (.variable (.field cash)) (.variable (.parameter amount)))
        [.return (some (.literal (.bool false))) default] [] default,
      .assignment (.field cash)
        (.arithmetic .sub (.variable (.field cash)) (.variable (.parameter amount))) default,
      .return (some (.literal (.bool true))) default],
    [], default⟩

def model : ClassModel :=
  ⟨"Till", ⟨[.supported cash], .ofList [("cash", 0)], true⟩,
    ⟨[.supported pay], .ofList [("Pay", 0)], true⟩,
    [notEmpty], default⟩

theorem exists_query : ∃ s f, MethodState.ofMethod model pay = .ok s ∧
    s.preservationQuery notEmpty = .ok f := by
  have hok : (match MethodState.ofMethod model pay with
      | .ok s => (s.preservationQuery notEmpty).isOk
      | .error _ => false) = true := by decide +kernel
  cases hs : MethodState.ofMethod model pay with
  | error e => simp [hs] at hok
  | ok s =>
      cases hf : s.preservationQuery notEmpty with
      | error e => simp [hs, hf, Except.isOk, Except.toBool] at hok
      | ok f => exact ⟨s, f, rfl, hf⟩

end Till

theorem MethodState.queries_solved_in_order_till : ∃ s e e' defs f,
    ofMethod Till.model Till.pay = .ok s ∧ Encode.body Till.pay.body e = .ok () e' ∧
    e'.assertions = e.assertions ++ defs.map (Definition.equation s.signature) ∧
    Definition.Sequence s.signature defs ∧ s.preservationQuery Till.notEmpty = .ok f ∧
    s.Planned Till.model Till.pay e defs f := by
  obtain ⟨s, f, hs, hf⟩ := Till.exists_query
  obtain ⟨e, e', defs, -, hbody, -, hdefs, hsequence, -, hplanned⟩ := queries_solved_in_order hs
  exact ⟨s, e, e', defs, f, hs, hbody, hdefs, hsequence, hf, hplanned _ f (.inr hf)⟩

end Covenant
