import Covenant.Proofs.Encoding.Simulation
import Covenant.Verify.Obligation

namespace Covenant

-- Exactly the names are declared, each with the sort of its type, and nothing was written yet.
structure Encoder.Declares (e : Encoder) (names : List (String × TypeRef)) : Prop where
  current : ∀ name, e.table.current.get? name = if name ∈ names.map Prod.fst then some 0 else none
  issued : ∀ name, e.issued.get? name = e.table.current.get? name
  sorts : ∀ p ∈ names, ∃ sort, p.2.sort? = some sort ∧ e.signature.sorts.get? p.1 = some sort
  history : ∀ a ∈ e.table.history, a.base ∈ names.map Prod.fst ∧ a.generation = 0

-- The type of the flag of a return.
def flagType : TypeRef := .named "bool" false

-- The variables of a return.
def ghostNames (returnType : TypeRef) : List (String × TypeRef) :=
  (returnedName, flagType) :: if returnType.isVoid then [] else [(resultName, returnType)]

namespace Encoder.Declares

variable {e : Encoder} {names : List (String × TypeRef)}

theorem withAssertions (h : e.Declares names) (assertions : List Term) :
    { e with assertions }.Declares names :=
  ⟨h.current, h.issued, h.sorts, h.history⟩

theorem withHasResult (h : e.Declares names) (hasResult : Bool) :
    { e with signature := ⟨e.signature.sorts, hasResult⟩ }.Declares names :=
  ⟨h.current, h.issued, h.sorts, h.history⟩

theorem get?_of_mem (h : e.Declares names) {name : String} (hname : name ∈ names.map Prod.fst) :
    e.table.current.get? name = some 0 := by
  rw [h.current, if_pos hname]

theorem mem_of_get? (h : e.Declares names) {name : String} {g : Nat}
    (hg : e.table.current.get? name = some g) : name ∈ names.map Prod.fst := by
  rw [h.current] at hg
  by_contra hname
  rw [if_neg hname] at hg
  cases hg

theorem generation (h : e.Declares names) (name : String) : e.table.generation name = 0 := by
  unfold AliasTable.generation
  rw [h.current]
  split <;> rfl

theorem latest (h : e.Declares names) (name : String) :
    e.signature.latest e.table name = e.signature.symbolOf ⟨name, 0⟩ := by
  rw [Signature.latest, h.generation]

theorem registered (h : e.Declares names) {name : String} (hname : name ∈ names.map Prod.fst) :
    e.signature.Registered e.table name := by
  obtain ⟨p, hp, rfl⟩ := List.mem_map.mp hname
  obtain ⟨sort, -, hsort⟩ := h.sorts p hp
  exact ⟨⟨0, h.get?_of_mem hname⟩, sort, hsort⟩

theorem knows_iff (h : e.Declares names) {a : AliasName} :
    e.Knows a ↔ a.base ∈ names.map Prod.fst ∧ a.generation = 0 := by
  unfold Knows
  rw [h.issued, h.current]
  split <;> simp_all

theorem valid (h : e.Declares names)
    (hreturned : e.signature.sorts.get? returnedName = some .bool) : e.Valid where
  current := fun name g hg => by
    have hname := h.mem_of_get? hg
    rw [h.get?_of_mem hname] at hg
    cases hg
    exact h.knows_iff.mpr ⟨hname, rfl⟩
  history := fun a ha => h.knows_iff.mpr (h.history a ha)
  returned := hreturned

end Encoder.Declares

theorem Encoder.declares_empty : Encoder.empty.Declares [] where
  current := by simp [empty, AliasTable.empty]
  issued := by simp [empty, AliasTable.empty]
  sorts := by simp
  history := by simp [empty, AliasTable.empty]

namespace Encode

theorem declareSorted_ok {e e' : Encoder} {names : List (String × TypeRef)} {name : String}
    {type : TypeRef} {sort : TermSort} {a : AliasName} (h : e.Declares names)
    (htype : type.sort? = some sort) (hdeclare : declareSorted name sort e = .ok a e') :
    name ∉ names.map Prod.fst ∧ a = ⟨name, 0⟩ ∧ e'.Declares (names ++ [(name, type)]) ∧
      e'.signature = ⟨e.signature.sorts.insert name sort, e.signature.hasResult⟩ ∧
      e'.assertions = e.assertions := by
  simp only [declareSorted, add, onTable, AliasTable.add, AliasTable.contains, bind_ok, pure_ok,
    setSort] at hdeclare
  obtain ⟨b, e₁, hadd, u, e₂, hset, rfl, rfl⟩ := hdeclare
  by_cases hname : name ∈ names.map Prod.fst
  · simp [NameMap.contains, h.get?_of_mem hname] at hadd
  · have hnone : e.table.current.get? name = none := by rw [h.current, if_neg hname]
    have hissued : e.issued.get? name = none := (h.issued name).trans hnone
    simp only [NameMap.contains, hnone, hissued, Option.isSome_none, Bool.false_eq_true, if_false,
      EStateM.Result.ok.injEq] at hadd
    obtain ⟨rfl, rfl⟩ := hadd
    cases hset
    refine ⟨hname, rfl, ?_, rfl, rfl⟩
    exact {
      current := fun other => by
        simp only [AliasTable.set, NameMap.get?_insert, h.current, List.map_append, List.mem_append,
          List.map_cons, List.map_nil, List.mem_singleton]
        by_cases hother : other = name
        · simp [hother]
        · rw [if_neg hother]
          exact if_congr (by simp [hother]) rfl rfl
      issued := fun other => by
        simp only [AliasTable.set, NameMap.get?_insert, h.issued]
      sorts := by
        simp only [NameMap.get?_insert, List.forall_mem_append, List.forall_mem_singleton, if_true,
          htype, Option.some.injEq, exists_eq_left', and_true]
        intro p hp
        have hne : p.1 ≠ name := fun heq => hname (heq ▸ List.mem_map_of_mem hp)
        rw [if_neg hne]
        exact h.sorts p hp
      history := fun a ha => by
        simp only [List.map_append, List.mem_append]
        rcases List.mem_append.mp ha with ha | ha
        · exact ⟨.inl (h.history a ha).1, (h.history a ha).2⟩
        · rw [List.mem_singleton.mp ha]
          exact ⟨.inr (List.mem_singleton_self _), rfl⟩ }

theorem declare_ok {e e' : Encoder} {names : List (String × TypeRef)} {name : String}
    {type : TypeRef} {a : AliasName} (h : e.Declares names)
    (hdeclare : declare name type e = .ok a e') :
    name ∉ names.map Prod.fst ∧ a = ⟨name, 0⟩ ∧ e'.Declares (names ++ [(name, type)]) ∧
      e'.signature.hasResult = e.signature.hasResult ∧
      (∀ other ≠ name, e'.signature.sorts.get? other = e.signature.sorts.get? other) ∧
      e'.assertions = e.assertions := by
  cases htype : type.sort? with
  | none =>
      simp only [declare, htype] at hdeclare
      cases hdeclare
  | some sort =>
      simp only [declare, htype] at hdeclare
      obtain ⟨hname, ha, hdeclares, hsignature, hassertions⟩ := declareSorted_ok h htype hdeclare
      refine ⟨hname, ha, hdeclares, by rw [hsignature], ?_, hassertions⟩
      intro other hne
      rw [hsignature]
      exact NameMap.get?_insert_of_ne _ _ hne

theorem declareAll_ok {e e' : Encoder} {names : List (String × TypeRef)} {u : Unit}
    (more : List (String × TypeRef)) (h : e.Declares names)
    (hdeclare : declareAll more e = .ok u e') :
    e'.Declares (names ++ more) ∧ e'.signature.hasResult = e.signature.hasResult ∧
      e'.assertions = e.assertions := by
  induction more generalizing e names with
  | nil =>
      obtain ⟨-, rfl⟩ := pure_ok.mp hdeclare
      exact ⟨by simpa using h, rfl, rfl⟩
  | cons p rest ih =>
      simp only [declareAll, bind_ok] at hdeclare
      obtain ⟨a, e₁, hone, hrest⟩ := hdeclare
      obtain ⟨-, -, hdeclares, hresult, -, hassertions⟩ := declare_ok h hone
      obtain ⟨hdeclares, hresult', hassertions'⟩ := ih hdeclares hrest
      refine ⟨?_, hresult'.trans hresult, hassertions'.trans hassertions⟩
      rwa [List.append_assoc, List.singleton_append] at hdeclares

-- What a method starts with: its names and those of a return. No path has returned.
theorem beginBody_ok {e e' : Encoder} {names : List (String × TypeRef)} {returnType : TypeRef}
    {u : Unit} (h : e.Declares names) (hresult : e.signature.hasResult = false)
    (hbegin : beginBody returnType e = .ok u e') :
    e'.Declares (names ++ ghostNames returnType) ∧ returnedName ∉ names.map Prod.fst ∧
      (e'.signature.hasResult = true → resultName ∉ names.map Prod.fst) ∧
      e'.signature.hasResult = !returnType.isVoid ∧
      e'.signature.sorts.get? returnedName = some .bool ∧
      e'.assertions = e.assertions ++
        [.eq (.var (e'.signature.symbolOf ⟨returnedName, 0⟩)) (.bool false)] := by
  simp only [beginBody, bind_ok, symbol_ok, assert_ok] at hbegin
  obtain ⟨a, e₁, hflag, t, e₂, ⟨⟨-, rfl⟩, rfl⟩, v, e₃, rfl, hrest⟩ := hbegin
  have htype : flagType.sort? = some .bool := by decide
  obtain ⟨hname, rfl, hdeclares, hsignature, hassertions⟩ := declareSorted_ok h htype hflag
  have hsort : e₁.signature.sorts.get? returnedName = some .bool := by
    rw [hsignature]
    exact NameMap.get?_insert_self _ _ _
  cases hvoid : returnType.isVoid with
  | true =>
      simp only [hvoid, if_true, pure_ok] at hrest
      obtain ⟨-, rfl⟩ := hrest
      refine ⟨?_, hname, ?_, ?_, hsort, ?_⟩
      · simpa [ghostNames, hvoid] using hdeclares.withAssertions _
      · simp [hsignature, hresult]
      · simp [hsignature, hresult]
      · simp [hassertions]
  | false =>
      simp only [hvoid, Bool.false_eq_true, if_false, bind_ok] at hrest
      obtain ⟨b, e₂, hdeclare, hset⟩ := hrest
      cases hset
      obtain ⟨hname', -, hdeclares, -, hothers, hassertions'⟩ :=
        declare_ok (hdeclares.withAssertions _) hdeclare
      have hsorts := hothers returnedName (by decide)
      simp only [List.map_append, List.mem_append, not_or] at hname'
      refine ⟨?_, hname, fun _ => hname'.1, rfl, hsorts.trans hsort, ?_⟩
      · simpa [ghostNames, hvoid] using hdeclares.withHasResult true
      · simp [hassertions', hassertions, Signature.symbolOf, hsorts]

end Encode

end Covenant
