import Covenant.Proofs.Report.Mapping
import Covenant.Proofs.Verify.Soundness

namespace Covenant

theorem Encode.nodup_of_declareAll {e e' : Encoder} {names : List (String × TypeRef)} {u : Unit}
    {more : List (String × TypeRef)} (h : e.Declares names)
    (hdeclare : declareAll more e = .ok u e') :
    (more.map Prod.fst).Nodup ∧ ∀ p ∈ more, p.1 ∉ names.map Prod.fst := by
  induction more generalizing e names with
  | nil => simp
  | cons p rest ih =>
      simp only [declareAll, bind_ok] at hdeclare
      obtain ⟨a, e₁, hone, hrest⟩ := hdeclare
      obtain ⟨hname, -, hdeclares, -⟩ := declare_ok h hone
      obtain ⟨hnodup, hfresh⟩ := ih hdeclares hrest
      simp only [List.map_append, List.mem_append, not_or] at hfresh
      refine ⟨List.nodup_cons.mpr ⟨fun hmem => ?_, hnodup⟩, List.forall_mem_cons.mpr ⟨hname, ?_⟩⟩
      · obtain ⟨q, hq, heq⟩ := List.mem_map.mp hmem
        exact (hfresh q hq).2 (by simp [heq])
      · exact fun q hq => (hfresh q hq).1

theorem MethodState.Encoding.nodup_names {c : ClassModel} {m : Method} {s : MethodState}
    {e e' : Encoder} {after : Bool} (h : Encoding c m s e e' after) :
    ((c.methodNames m).map Prod.fst).Nodup := by
  obtain ⟨u, e₁, hdeclare, -⟩ := Encode.bind_ok.mp h.starts
  exact (Encode.nodup_of_declareAll Encoder.declares_empty hdeclare).1

namespace ClassModel

variable {c : ClassModel} {m : Method} {o : Obligation} {f : Formula}

theorem get?_typeTexts {names : List (String × TypeRef)} (hnodup : (names.map Prod.fst).Nodup)
    (types : NameMap String) {p : String × TypeRef} (hp : p ∈ names) :
    (typeTexts types names).get? p.1 = some p.2.text := by
  have hentries : typeTexts types names =
      (names.map fun p => (p.1, p.2.text)).foldl (fun m (name, a) => m.insert name a) types := by
    rw [List.foldl_map]
    rfl
  have hkeys : ((names.map fun p => (p.1, p.2.text)).map Prod.fst).Nodup := by
    rw [List.map_map]
    exact hnodup
  have hmem : (p.1, p.2.text) ∈ names.map fun p => (p.1, p.2.text) :=
    List.mem_map_of_mem (f := fun p : String × TypeRef => (p.1, p.2.text)) hp
  rw [hentries, NameMap.get?_foldl_insert _ _ hkeys, NameMap.lookup_of_nodup hkeys hmem,
    Option.some_or]

theorem get?_methodTypes (hnodup : ((c.methodNames m).map Prod.fst).Nodup) {p : String × TypeRef}
    (hp : p ∈ c.methodNames m) (hname : p.1 ≠ resultName) :
    (c.methodTypes m).get? p.1 = some p.2.text := by
  have htypes : typeTexts c.fieldTypes m.binderNames = typeTexts .empty (c.methodNames m) := by
    rw [methodNames, fieldTypes, typeTexts, typeTexts, typeTexts, List.foldl_append]
  rw [methodTypes, NameMap.get?_insert_of_ne _ _ hname, htypes]
  exact get?_typeTexts hnodup _ hp

-- The query of an obligation about a run, and how its method was encoded.
theorem exists_encoding_of_mem (ho : o ∈ c.methodObligations m)
    (hkind : o.goal.kind = .ensure ∨ o.goal.kind = .invariantPreservation) (hf : o.query = .ok f) :
    o.types = c.methodTypes m ∧ o.goal.wantsModel = false ∧
      ∃ s e e' after assumed clause,
        MethodState.Encoding c m s e e' after ∧ s.Query assumed clause f := by
  rcases of_mem_methodObligations ho with ⟨first, rest, rfl⟩ | ⟨r, -, rfl⟩ | ⟨r, -, rfl⟩
  · rcases hkind with hkind | hkind <;> cases hkind
  · obtain ⟨s, e, e', after, hencoding, hquery⟩ := bind_ofMethod_eq_ok hf
    exact ⟨rfl, rfl, s, e, e', after, _, _, hencoding, MethodState.ensureQuery_eq_ok hquery⟩
  · obtain ⟨s, e, e', after, hencoding, hquery⟩ := bind_ofMethod_eq_ok hf
    exact ⟨rfl, rfl, s, e, e', after, _, _, hencoding, MethodState.preservationQuery_eq_ok hquery⟩

end ClassModel

namespace Counterexample

-- What the bindings are to tell: no two of them are for the same name and version, and each name
-- has on entry the value that the assignment gives it, and the type that it is declared with.
structure Identifies (x : Counterexample) (names : List (String × TypeRef)) (model : Assignment) :
    Prop where
  distinct : (x.bindings.map fun b => (b.name, b.version)).Nodup
  inputs : ∀ p ∈ names, ∀ v, model.get? (AliasName.text ⟨p.1, 0⟩) = some v →
    x.input? p.1 = some ⟨p.1, 0, p.2.text, v.text⟩

-- The result is no variable, and where it has a value, no variable that is named as it is shown has
-- one at the same version.
structure ResultApart (names : List (String × TypeRef)) (model : Assignment) : Prop where
  versions : ∀ g < AliasName.generationLimit,
    ¬(model.contains (AliasName.text ⟨resultName, g⟩) = true ∧
      model.contains (AliasName.text ⟨"result", g⟩) = true)
  declared : ∀ p ∈ names, p.1 = resultName →
    model.contains (AliasName.text ⟨resultName, 0⟩) = false

theorem identifies_iff {types : NameMap String} {names : List (String × TypeRef)}
    {model : Assignment} (haliased : Aliased model)
    (hreturned : returnedName ∉ names.map Prod.fst)
    (htypes : ∀ p ∈ names, p.1 ≠ resultName → types.get? p.1 = some p.2.text) :
    (ofAssignment types model).Identifies names model ↔ ResultApart names model := by
  constructor
  · rintro ⟨hdistinct, hinputs⟩
    refine ⟨(nodup_bindings_iff haliased).mp hdistinct, fun p hp hname => ?_⟩
    by_contra hcontains
    obtain ⟨v, hv⟩ := (NameMap.contains_iff _ _).mp (Bool.eq_true_of_not_eq_false hcontains)
    have hinput := hinputs p hp v (hname ▸ hv)
    rw [hname, input?_resultName] at hinput
    cases hinput
  · rintro ⟨hversions, hdeclared⟩
    refine ⟨(nodup_bindings_iff haliased).mpr hversions, fun p hp v hv => ?_⟩
    have hlimit : 0 < AliasName.generationLimit := by decide
    have hbase : p.1 ≠ returnedName := fun heq => hreturned (heq ▸ List.mem_map_of_mem hp)
    have hname : p.1 ≠ resultName := by
      intro heq
      have hnone := hdeclared p hp heq
      rw [NameMap.contains, ← heq, hv] at hnone
      cases hnone
    have hmem : (⟨p.1, 0⟩, v) ∈ shown model := (mem_shown haliased).mpr ⟨hbase, hlimit, hv⟩
    rw [input?_of_apart haliased hname hmem]
    · simp only [bindingOf, sourceName, if_neg hname, htypes p hp hname, Option.getD_some]
    · intro hresult w hghost
      obtain ⟨-, -, hw⟩ := (mem_shown haliased).mp hghost
      refine hversions 0 hlimit ⟨(NameMap.contains_iff _ _).mpr ⟨w, hw⟩, ?_⟩
      exact (NameMap.contains_iff _ _).mpr ⟨v, hresult ▸ hv⟩

theorem contains_eq_false {model : Assignment} {aliases : List AliasName}
    (hnames : model.names = aliases.map AliasName.text) {base : String}
    (hbase : ∀ a ∈ aliases, a.base ≠ base) (g : Nat) :
    model.contains (AliasName.text ⟨base, g⟩) = false := by
  by_contra hcontains
  have hmem := NameMap.mem_names.mpr
    ((NameMap.contains_iff _ _).mp (Bool.eq_true_of_not_eq_false hcontains))
  rw [hnames] at hmem
  obtain ⟨a, ha, htext⟩ := List.mem_map.mp hmem
  exact hbase a ha (congrArg AliasName.base (AliasName.text_injective htext))

end Counterexample

namespace ClassModel

open Counterexample

variable {c : ClassModel} {m : Method} {o : Obligation} {f : Formula} {model : Assignment}

-- The symbols of a query are those of aliases.
theorem aliased_of_query {s : MethodState} {e e' : Encoder} {after : Bool} {assumed : List Clause}
    {clause : Clause} (hencoding : MethodState.Encoding c m s e e' after)
    (hquery : s.Query assumed clause f)
    (hmodel : ∀ symbol ∈ model.names, ∃ x ∈ f.occurrences, x.name = symbol) : Aliased model := by
  intro symbol hsymbol
  obtain ⟨x, hx, rfl⟩ := hmodel symbol hsymbol
  obtain ⟨t, ht, hxt⟩ := List.mem_flatMap.mp hx
  obtain ⟨a, rfl⟩ := (hencoding.proper_query hquery t ht).symbols x hxt
  exact ⟨a, rfl⟩

-- A violation shows one binding for each alias in the model that it comes from, the flag of a
-- return apart, inputs first and then by name and version. They tell the values of the source
-- exactly if the result keeps out of the way of the variables.
theorem counterexample_identifies_iff (ho : o ∈ c.methodObligations m)
    (hkind : o.goal.kind = .ensure ∨ o.goal.kind = .invariantPreservation)
    (hquery : o.query = .ok f)
    (hmodel : ∀ symbol ∈ model.names, ∃ x ∈ f.symbols, x.name = symbol) :
    o.judge (.ok (.counterexample model)) =
      .violated (o.goal.violation (ofAssignment o.types model).nonEmpty?) ∧
    (∀ symbol ∈ model.names, ∃ a : AliasName, symbol = a.text) ∧
    (∃ found : List (AliasName × Value), (found.map Prod.fst).Nodup ∧
      (∀ a v, (a, v) ∈ found ↔ a.base ≠ returnedName ∧ a.generation < AliasName.generationLimit ∧
        model.get? a.text = some v) ∧
      (ofAssignment o.types model).bindings.Perm (found.map fun p => bindingOf o.types p.1 p.2)) ∧
    (ofAssignment o.types model).bindings.Pairwise Binding.Precedes ∧
    ((ofAssignment o.types model).Identifies (c.methodNames m) model ↔
      ResultApart (c.methodNames m) model) := by
  obtain ⟨htypes, hgoal, s, e, e', after, assumed, clause, hencoding, hs⟩ :=
    exists_encoding_of_mem ho hkind hquery
  have haliased := aliased_of_query hencoding hs fun symbol hsymbol =>
    (hmodel symbol hsymbol).imp fun x hx => ⟨(Symbol.mem_of_mem_fresh hx.1).1, hx.2⟩
  refine ⟨?_, haliased, ?_, pairwise_bindings _ _, ?_⟩
  · simp [Obligation.judge, hgoal]
  · exact ⟨shown model, nodup_shown haliased, fun a v => mem_shown haliased,
      perm_bindings _ _⟩
  · rw [htypes]
    exact identifies_iff haliased hencoding.prepared.returned_not_mem
      fun p hp hname => get?_methodTypes hencoding.nodup_names hp hname

end ClassModel

-- A sum whose second operand is named like a later version of the first.
namespace Sum

def first : Binder := ⟨"n", .named "int" false, default⟩

def second : Binder := ⟨"n@1", .named "long" false, default⟩

def positive : Clause :=
  .supported "result > 0" (.comparison (.order .gt) .result (.literal (.int 0))) default

-- n = n + n@1; return n;
def add : Method :=
  ⟨"Add", .pub, .named "int" false,
    ⟨[.supported first, .supported second], .ofList [("n", 0), ("n@1", 1)], true⟩, .sealedEmpty, [],
    [.assignment (.parameter first)
        (.arithmetic .add (.variable (.parameter first)) (.variable (.parameter second))) default,
      .return (some (.variable (.parameter first))) default],
    [positive], default⟩

def model : ClassModel :=
  ⟨"Sum", .sealedEmpty, ⟨[.supported add], .ofList [("Add", 0)], true⟩, [], default⟩

def obligation : Obligation :=
  ⟨.ensure "Add" positive, model.methodTypes add,
    (MethodState.ofMethod model add).bind (·.ensureQuery positive)⟩

def found : Assignment :=
  .ofList [("$result@1", .int (-1)), ("$returned@0", .bool false), ("$returned@1", .bool true),
    ("n@0", .int 2), ("n@1", .int (-1)), ("n@1@0", .int (-3))]

end Sum

theorem ClassModel.counterexample_identifies_iff_sum :
    Sum.obligation ∈ Sum.model.methodObligations Sum.add ∧
    (Counterexample.ofAssignment Sum.obligation.types Sum.found).Identifies
      (Sum.model.methodNames Sum.add) Sum.found ∧
    (Counterexample.ofAssignment Sum.obligation.types Sum.found).input? "n@1" =
      some ⟨"n@1", 0, "long", "-3"⟩ := by
  have ho : Sum.obligation ∈ Sum.model.methodObligations Sum.add :=
    mem_methodObligations_ensure (List.mem_singleton_self _)
  have hcheck : Sum.obligation.query.map (fun f => decide (∀ symbol ∈ Sum.found.names,
      ∃ x ∈ f.symbols, x.name = symbol)) = .ok true := by decide +kernel
  obtain ⟨f, hquery, hmodel⟩ := exists_ok_of_map hcheck
  have hnames : Sum.found.names =
      [⟨"$result", 1⟩, ⟨"$returned", 0⟩, ⟨"$returned", 1⟩, ⟨"n", 0⟩, ⟨"n", 1⟩, ⟨"n@1", 0⟩].map
        AliasName.text := by decide +kernel
  have hapart : Counterexample.ResultApart (Sum.model.methodNames Sum.add) Sum.found := by
    refine ⟨fun g _ hboth => ?_, by decide +kernel⟩
    have hnone : Sum.found.contains (AliasName.text ⟨"result", g⟩) = false :=
      Counterexample.contains_eq_false hnames (by decide) g
    rw [hboth.2] at hnone
    cases hnone
  obtain ⟨-, -, -, -, hiff⟩ := counterexample_identifies_iff ho (.inl rfl) hquery
    (of_decide_eq_true hmodel)
  have hidentifies := hiff.mpr hapart
  refine ⟨ho, hidentifies, ?_⟩
  exact hidentifies.inputs ("n@1", .named "long" false) (by decide +kernel) (.int (-3))
    (by decide +kernel)

-- The parameter is named like the result, which keeps its old value where nothing is returned.
namespace Picker

def given : Binder := ⟨"result", .named "int" false, default⟩

def notNegative : Clause :=
  .supported "result >= 0" (.comparison (.order .ge) .result (.literal (.int 0))) default

-- if (result > 0) { return result; }
def pick : Method :=
  ⟨"Pick", .pub, .named "int" false, ⟨[.supported given], .ofList [("result", 0)], true⟩,
    .sealedEmpty, [],
    [.conditional (.comparison (.order .gt) (.variable (.parameter given)) (.literal (.int 0)))
      [.return (some (.variable (.parameter given))) default] [] default],
    [notNegative], default⟩

def model : ClassModel :=
  ⟨"Picker", .sealedEmpty, ⟨[.supported pick], .ofList [("Pick", 0)], true⟩, [], default⟩

def obligation : Obligation :=
  ⟨.ensure "Pick" notNegative, model.methodTypes pick,
    (MethodState.ofMethod model pick).bind (·.ensureQuery notNegative)⟩

def found : Assignment :=
  .ofList [("$result@0", .int (-1)), ("$result@1", .int 0), ("$result@2", .int (-1)),
    ("$returned@0", .bool false), ("$returned@1", .bool true), ("$returned@2", .bool false),
    ("result@0", .int 0)]

end Picker

-- Two entry values are shown for one name, and the one that is found first is not the parameter's.
theorem ClassModel.result_hides_parameter :
    Picker.obligation ∈ Picker.model.methodObligations Picker.pick ∧
    ("result", TypeRef.named "int" false) ∈ Picker.model.methodNames Picker.pick ∧
    Picker.obligation.query.map (Search.check .standard) = .ok (.counterexample Picker.found) ∧
    Picker.found.get? (AliasName.text ⟨"result", 0⟩) = some (.int 0) ∧
    (Counterexample.ofAssignment Picker.obligation.types Picker.found).input? "result" =
      some ⟨"result", 0, "int", "-1"⟩ ∧
    ¬((Counterexample.ofAssignment Picker.obligation.types Picker.found).bindings.map
      fun b => (b.name, b.version)).Nodup := by
  have ho : Picker.obligation ∈ Picker.model.methodObligations Picker.pick :=
    mem_methodObligations_ensure (List.mem_singleton_self _)
  have hnames : Picker.found.names =
      [⟨"$result", 0⟩, ⟨"$result", 1⟩, ⟨"$result", 2⟩, ⟨"$returned", 0⟩, ⟨"$returned", 1⟩,
        ⟨"$returned", 2⟩, ⟨"result", 0⟩].map AliasName.text := by decide +kernel
  have haliased : Counterexample.Aliased Picker.found := by
    intro symbol hsymbol
    rw [hnames] at hsymbol
    obtain ⟨a, -, rfl⟩ := List.mem_map.mp hsymbol
    exact ⟨a, rfl⟩
  have hghost : (⟨resultName, 0⟩, .int (-1)) ∈ Counterexample.shown Picker.found :=
    (Counterexample.mem_shown haliased).mpr ⟨by decide, by decide, by decide +kernel⟩
  refine ⟨ho, by decide +kernel, by decide +kernel, by decide +kernel, ?_, ?_⟩
  · rw [Counterexample.input?_result haliased hghost]
    decide +kernel
  · rw [Counterexample.nodup_bindings_iff haliased]
    intro hapart
    exact hapart 0 (by decide) ⟨by decide +kernel, by decide +kernel⟩

end Covenant
