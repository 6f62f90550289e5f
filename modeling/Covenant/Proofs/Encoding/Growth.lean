import Covenant.Proofs.Encoding.Definitions
import Covenant.Proofs.Encoding.Steps

namespace Covenant

namespace Encoder

-- An alias that some table of the encoder has issued.
def Knows (e : Encoder) (a : AliasName) : Prop :=
  ∃ newest, e.issued.get? a.base = some newest ∧ a.generation ≤ newest

-- What the table holds was issued, and the flag of a return is a boolean.
structure Valid (e : Encoder) : Prop where
  current : ∀ name g, e.table.current.get? name = some g → e.Knows ⟨name, g⟩
  history : ∀ a ∈ e.table.history, e.Knows a
  returned : e.signature.sorts.get? returnedName = some .bool

-- All symbols of the term stand for issued aliases.
def Covers (e : Encoder) (t : Term) : Prop :=
  ∀ x ∈ t.symbols, ∃ a, e.Knows a ∧ x = e.signature.symbolOf a

-- The second encoder has made the definitions since the first.
structure Growth (e e' : Encoder) (defs : List Definition) : Prop where
  signature : e'.signature = e.signature
  assertions : e'.assertions = e.assertions ++ defs.map (Definition.equation e.signature)
  history : e'.table.history = e.table.history ++ defs.map Definition.target
  names : ∀ name g, e.table.current.get? name = some g → ∃ g', e'.table.current.get? name = some g'
  knows : ∀ a, e'.Knows a ↔ e.Knows a ∨ a ∈ defs.map Definition.target
  ordered : Definition.Ordered e.signature e.Knows defs
  issued : ∀ d ∈ defs, 0 < d.target.generation

theorem knows_table {e : Encoder} {table : AliasTable} {a : AliasName} :
    { e with table }.Knows a ↔ e.Knows a := Iff.rfl

theorem Growth.refl (e : Encoder) : Growth e e [] where
  signature := rfl
  assertions := by simp
  history := by simp
  names := fun _ g h => ⟨g, h⟩
  knows := by simp
  ordered := trivial
  issued := by simp

theorem Growth.trans {e e₁ e₂ : Encoder} {defs more : List Definition} (h : Growth e e₁ defs)
    (hmore : Growth e₁ e₂ more) : Growth e e₂ (defs ++ more) where
  signature := hmore.signature.trans h.signature
  assertions := by
    simp only [hmore.assertions, h.assertions, h.signature, List.map_append, List.append_assoc]
  history := by simp only [hmore.history, h.history, List.map_append, List.append_assoc]
  names := fun name g hg => by
    obtain ⟨g', hg'⟩ := h.names name g hg
    exact hmore.names name g' hg'
  knows := by simp only [hmore.knows, h.knows, List.map_append, List.mem_append, or_assoc, implies_true]
  ordered := by
    refine h.ordered.append ?_
    have hknows : e₁.Knows = fun a => e.Knows a ∨ a ∈ defs.map Definition.target :=
      funext fun a => propext (h.knows a)
    rw [← hknows, ← h.signature]
    exact hmore.ordered
  issued := List.forall_mem_append.mpr ⟨h.issued, hmore.issued⟩

theorem Growth.knows_of_knows {e e' : Encoder} {defs : List Definition} (h : Growth e e' defs)
    {a : AliasName} (ha : e.Knows a) : e'.Knows a := (h.knows a).mpr (.inl ha)

theorem Growth.covers {e e' : Encoder} {defs : List Definition} (h : Growth e e' defs) {t : Term}
    (ht : e.Covers t) : e'.Covers t := by
  intro x hx
  obtain ⟨a, ha, rfl⟩ := ht x hx
  exact ⟨a, h.knows_of_knows ha, by rw [h.signature]⟩

-- The second encoder comes from the first by definitions, and is as valid as it.
def Grows (e e' : Encoder) : Prop := e'.Valid ∧ ∃ defs, Growth e e' defs

theorem Grows.trans {e e₁ e₂ : Encoder} (h : e.Grows e₁) (hmore : e₁.Grows e₂) : e.Grows e₂ := by
  obtain ⟨-, defs, hgrowth⟩ := h
  obtain ⟨hv, more, hgrowth'⟩ := hmore
  exact ⟨hv, defs ++ more, hgrowth.trans hgrowth'⟩

theorem Grows.signature {e e' : Encoder} (h : e.Grows e') : e'.signature = e.signature := by
  obtain ⟨-, defs, hgrowth⟩ := h
  exact hgrowth.signature

-- A table of which all was issued can be put in place of the current one.
theorem Valid.withTable {e e' : Encoder} (hv : e.Valid) (h : e.Grows e') :
    { e' with table := e.table }.Valid := by
  obtain ⟨hv', defs, hgrowth⟩ := h
  exact {
    current := fun name g hg => hgrowth.knows_of_knows (hv.current name g hg)
    history := fun a ha => hgrowth.knows_of_knows (hv.history a ha)
    returned := hv'.returned }

section Define

variable {e : Encoder} {name : String} {rhs : Term}

theorem not_knows_next (e : Encoder) (name : String) : ¬e.Knows (e.next name) := by
  rintro ⟨newest, hnewest, hle⟩
  simp only [next] at hnewest hle
  rw [hnewest, Option.getD_some] at hle
  omega

theorem knows_define (hv : e.Valid) {g : Nat} (hname : e.table.current.get? name = some g)
    (a : AliasName) : (e.define name rhs).Knows a ↔ e.Knows a ∨ a = e.next name := by
  obtain ⟨newest, hnewest, -⟩ := hv.current name g hname
  obtain ⟨base, generation⟩ := a
  have hnext : e.next name = ⟨name, newest + 1⟩ := by
    simp only [next, AliasName.mk.injEq, true_and]
    rw [show e.issued.get? name = some newest from hnewest, Option.getD_some]
  simp only [Knows, define, hnext, NameMap.get?_insert, AliasName.mk.injEq]
  by_cases hbase : base = name
  · subst hbase
    simp only [if_true, Option.some.injEq, exists_eq_left', true_and,
      show e.issued.get? base = some newest from hnewest]
    omega
  · simp [hbase]

theorem valid_define (hv : e.Valid) {g : Nat} (hname : e.table.current.get? name = some g) :
    (e.define name rhs).Valid where
  current := fun other g' hg' => by
    rw [knows_define hv hname]
    simp only [define, AliasTable.set, NameMap.get?_insert] at hg'
    split at hg'
    · rename_i hother
      cases hg'
      exact .inr (by rw [hother]; rfl)
    · exact .inl (hv.current other g' hg')
  history := fun a ha => by
    rw [knows_define hv hname]
    rcases List.mem_append.mp ha with ha | ha
    · exact .inl (hv.history a ha)
    · exact .inr (List.mem_singleton.mp ha)
  returned := hv.returned

theorem growth_define (hv : e.Valid) {g : Nat} (hname : e.table.current.get? name = some g)
    (hrhs : e.Covers rhs) (hws : rhs.WellSorted)
    (hsort : rhs.sort = (e.signature.symbolOf (e.next name)).sort) :
    Growth e (e.define name rhs) [⟨e.next name, rhs⟩] where
  signature := rfl
  assertions := rfl
  history := rfl
  names := fun other g' hg' => by
    simp only [define, AliasTable.set, NameMap.get?_insert]
    split
    · exact ⟨_, rfl⟩
    · exact ⟨g', hg'⟩
  knows := by simpa using knows_define hv hname
  ordered := ⟨not_knows_next e name, hrhs, hws, hsort, trivial⟩
  issued := List.forall_mem_singleton.mpr (Nat.succ_pos _)

end Define

section Write

variable {e : Encoder} {mayHaveReturned : Bool} {name : String} {value : Term}

theorem covers_latest (hv : e.Valid) (h : e.signature.Registered e.table name) :
    e.Covers (.var (e.signature.latest e.table name)) := by
  obtain ⟨g, hg⟩ := h.1
  intro x hx
  refine ⟨⟨name, g⟩, hv.current name g hg, ?_⟩
  rw [List.mem_singleton.mp hx, Signature.latest, AliasTable.generation_eq hg]

theorem covers_of_encodes (hv : e.Valid) {x : Expression} (h : e.signature.Encodes e.table x value) :
    e.Covers value := by
  intro y hy
  obtain ⟨name, hname, rfl⟩ := h.symbols y hy
  exact covers_latest hv hname _ (List.mem_singleton_self _)

theorem Covers.ite {c t f : Term} (hc : e.Covers c) (ht : e.Covers t) (hf : e.Covers f) :
    e.Covers (.ite c t f) := by
  simp only [Covers, Term.symbols, List.forall_mem_append]
  exact ⟨hc, ht, hf⟩

theorem covers_kept (hv : e.Valid) (hwrite : e.Writable mayHaveReturned name)
    (hvalue : e.Covers value) : e.Covers (e.kept mayHaveReturned name value) := by
  unfold kept
  split
  · rename_i hflag
    exact (covers_latest hv (hwrite.2 hflag)).ite (covers_latest hv hwrite.1) hvalue
  · exact hvalue

theorem sort_latest (h : e.signature.sorts.get? name = some value.sort) :
    (e.signature.latest e.table name).sort = value.sort := Signature.sort_symbolOf h

theorem wellSorted_kept (hv : e.Valid) (hvalue : value.WellSorted)
    (hsort : e.signature.sorts.get? name = some value.sort) :
    (e.kept mayHaveReturned name value).WellSorted := by
  unfold kept
  split
  · exact ⟨trivial, trivial, hvalue, Signature.sort_symbolOf hv.returned, sort_latest hsort⟩
  · exact hvalue

theorem sort_kept (hsort : e.signature.sorts.get? name = some value.sort) :
    (e.kept mayHaveReturned name value).sort = value.sort := by
  unfold kept
  split
  · exact sort_latest hsort
  · rfl

theorem grows_write (hv : e.Valid) (hwrite : e.Writable mayHaveReturned name)
    (hcovers : e.Covers value) (hvalue : value.WellSorted)
    (hsort : e.signature.sorts.get? name = some value.sort) :
    e.Grows (e.write mayHaveReturned name value) := by
  obtain ⟨g, hname⟩ := hwrite.1.1
  refine ⟨valid_define hv hname, _, growth_define hv hname (covers_kept hv hwrite hcovers)
    (wellSorted_kept hv hvalue hsort) ?_⟩
  rw [sort_kept hsort]
  exact (Signature.sort_symbolOf hsort).symm

theorem grows_writeReturned (hv : e.Valid) (hwrite : e.Writable mayHaveReturned returnedName) :
    e.Grows (e.write mayHaveReturned returnedName (.bool true)) := by
  have hcovers : e.Covers (.bool true) := by simp [Covers, Term.symbols]
  exact grows_write hv hwrite hcovers trivial hv.returned

end Write

section Join

variable {condition : Term}

theorem grows_joinAll {e : Encoder} {ds : List Divergence} (hv : e.Valid)
    (hcovers : e.Covers condition) (hws : condition.WellSorted) (hsort : condition.sort = .bool)
    (hds : ∀ d ∈ ds, (∃ g, e.table.current.get? d.name = some g) ∧ e.Knows d.leftAlias ∧
      e.Knows d.rightAlias) : e.Grows (e.joinAll condition ds) := by
  induction ds generalizing e with
  | nil => exact ⟨hv, [], .refl e⟩
  | cons d rest ih =>
      rw [List.forall_mem_cons] at hds
      obtain ⟨⟨⟨g, hname⟩, hleft, hright⟩, hrest⟩ := hds
      have hchoice : e.Covers (d.choice e.signature condition) :=
        hcovers.ite (fun x hx => ⟨_, hleft, List.mem_singleton.mp hx⟩)
          (fun x hx => ⟨_, hright, List.mem_singleton.mp hx⟩)
      have hgrowth := growth_define hv hname hchoice ⟨hws, trivial, trivial, hsort, rfl⟩ rfl
      have hone : e.Grows (e.define d.name (d.choice e.signature condition)) :=
        ⟨valid_define hv hname, _, hgrowth⟩
      refine hone.trans (ih hone.1 (hgrowth.covers hcovers) fun d' hd' => ?_)
      obtain ⟨⟨g', hname'⟩, hleft', hright'⟩ := hrest d' hd'
      exact ⟨hgrowth.names _ _ hname', hgrowth.knows_of_knows hleft', hgrowth.knows_of_knows hright'⟩

variable {e e₁ e₂ : Encoder} {defs more : List Definition} {merged : Merged}

-- The branches start from one table, and the second draws on the counter that the first leaves. So
-- the definitions of the second are new to the history of the first.
theorem growth_fork (hv₁ : e₁.Valid) (hthen : Growth e e₁ defs)
    (helse : Growth { e₁ with table := e.table } e₂ more)
    (hmerge : e₁.table.merge e₂.table = .ok merged) :
    Growth e { e₂ with table := merged.table } (defs ++ more) := by
  obtain ⟨-, rfl⟩ := AliasTable.merge_eq_ok hmerge
  have hnew : e₂.table.history.filter (· ∉ e₁.table.history) = more.map Definition.target := by
    rw [helse.history, List.filter_append]
    have hold : e.table.history.filter (· ∉ e₁.table.history) = [] := by
      simp only [List.filter_eq_nil_iff, decide_not, Bool.not_eq_true', decide_eq_false_iff_not,
        not_not]
      intro a ha
      rw [hthen.history]
      exact List.mem_append_left _ ha
    have hmore : (more.map Definition.target).filter (· ∉ e₁.table.history) =
        more.map Definition.target := by
      simp only [List.filter_eq_self, decide_not, Bool.not_eq_true', decide_eq_false_iff_not,
        List.forall_mem_map]
      exact fun d hd hmem => helse.ordered.not_known d hd (hv₁.history _ hmem)
    rw [hold, hmore, List.nil_append]
  exact {
    signature := helse.signature.trans hthen.signature
    assertions := by
      simp only [helse.assertions, hthen.assertions, hthen.signature, List.map_append,
        List.append_assoc]
    history := by
      simp only [hnew]
      rw [hthen.history, List.map_append, List.append_assoc]
    names := hthen.names
    knows := by
      intro a
      rw [knows_table, helse.knows, knows_table, hthen.knows, List.map_append, List.mem_append,
        or_assoc]
    ordered := by
      refine hthen.ordered.append ?_
      have hknows : e₁.Knows = fun a => e.Knows a ∨ a ∈ defs.map Definition.target :=
        funext fun a => propext (hthen.knows a)
      rw [← hknows, ← hthen.signature]
      exact helse.ordered
    issued := List.forall_mem_append.mpr ⟨hthen.issued, helse.issued⟩ }

theorem grows_fork (hv : e.Valid) (hthen : e.Grows e₁)
    (helse : { e₁ with table := e.table }.Grows e₂)
    (hmerge : e₁.table.merge e₂.table = .ok merged) : e.Grows { e₂ with table := merged.table } := by
  obtain ⟨hv₁, defs, hthen⟩ := hthen
  obtain ⟨-, more, helse⟩ := helse
  have hfork := growth_fork hv₁ hthen helse hmerge
  refine ⟨?_, _, hfork⟩
  obtain ⟨-, rfl⟩ := AliasTable.merge_eq_ok hmerge
  exact {
    current := fun name g hg => helse.knows_of_knows (hv₁.current name g hg)
    history := by
      intro a ha
      rw [hfork.history] at ha
      rw [hfork.knows]
      exact (List.mem_append.mp ha).imp_left (hv.history a)
    returned := by
      rw [hfork.signature]
      exact hv.returned }

-- Both sides of a divergence were issued, each in its branch.
theorem grows_join {x : Expression} (hv : e.Valid) (hthen : e.Grows e₁)
    (helse : { e₁ with table := e.table }.Grows e₂)
    (hmerge : e₁.table.merge e₂.table = .ok merged)
    (hcondition : e.signature.Encodes e.table x condition) (hsort : condition.sort = .bool) :
    { e₂ with table := merged.table }.Grows
      ({ e₂ with table := merged.table }.joinAll condition merged.divergences) := by
  obtain ⟨hvalid, defs, hfork⟩ := grows_fork hv hthen helse hmerge
  refine grows_joinAll hvalid (hfork.covers (covers_of_encodes hv hcondition))
    hcondition.wellSorted hsort fun d hd => ?_
  obtain ⟨hv₁, -, -⟩ := hthen
  obtain ⟨hv₂, more, helse⟩ := helse
  obtain ⟨-, rfl⟩ := AliasTable.merge_eq_ok hmerge
  obtain ⟨hleft, hright, -⟩ := AliasTable.mem_divergences.mp hd
  exact ⟨⟨_, hleft⟩, helse.knows_of_knows (hv₁.current _ _ hleft), hv₂.current _ _ hright⟩

end Join

end Encoder

open Encoder in
-- By induction on the block: each write adds one definition, and a conditional those of its
-- branches and one for each name that they leave at different generations.
theorem BlockEncoding.grows {mayHaveReturned after : Bool} {stmts : List Statement} {e e' : Encoder}
    (h : BlockEncoding mayHaveReturned stmts e after e') (hv : e.Valid) : e.Grows e' := by
  induction h with
  | nil mayHaveReturned e => exact ⟨hv, [], .refl e⟩
  | assignment location hvalue hsort hwrite hrest ih =>
      have hgrows := grows_write hv hwrite (covers_of_encodes hv hvalue) hvalue.wellSorted hsort
      exact hgrows.trans (ih hgrows.1)
  | conditional location hcondition hsort hthen helse hmerge hrest ihthen ihelse ih =>
      have hthen := ihthen hv
      have helse := ihelse (hv.withTable hthen)
      have hjoin := grows_join hv hthen helse hmerge hcondition hsort
      exact (grows_fork hv hthen helse hmerge).trans (hjoin.trans (ih hjoin.1))
  | «return» location hwrite hrest ih =>
      have hgrows := grows_writeReturned hv hwrite
      exact hgrows.trans (ih hgrows.1)
  | returnValue location hresult hvalue hsort hwrite he₁ hreturned hrest ih =>
      subst he₁
      have hgrows := grows_write hv hwrite (covers_of_encodes hv hvalue) hvalue.wellSorted hsort
      have hflag := grows_writeReturned hgrows.1 hreturned
      exact hgrows.trans (hflag.trans (ih hflag.1))

end Covenant
