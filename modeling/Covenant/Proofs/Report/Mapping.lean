import Covenant.Proofs.Alias.Text
import Covenant.Proofs.Data.NameMap
import Covenant.Report.Counterexample
import Mathlib.Data.List.Nodup
import Mathlib.Data.Prod.Lex
import Mathlib.Tactic

namespace Covenant

namespace Binding

-- What bindings are sorted by.
def rank (b : Binding) : Bool ×ₗ String ×ₗ Nat := toLex (!b.isInput, toLex (b.name, b.version))

-- The order in which bindings are listed: inputs come first, and then it goes by name and version.
def Precedes (a b : Binding) : Prop :=
  a.isInput = true ∧ b.isInput = false ∨
    a.isInput = b.isInput ∧ (a.name < b.name ∨ a.name = b.name ∧ a.version ≤ b.version)

variable {a b : Binding}

theorem before_iff : a.before b = true ↔ a.rank < b.rank := by
  rw [rank, rank, Prod.Lex.toLex_lt_toLex, Prod.Lex.toLex_lt_toLex, before]
  cases a.isInput <;> cases b.isInput <;> simp

theorem precedes_iff : a.Precedes b ↔ a.rank ≤ b.rank := by
  rw [rank, rank, Prod.Lex.toLex_le_toLex, Prod.Lex.toLex_le_toLex, Precedes]
  cases a.isInput <;> cases b.isInput <;> simp

theorem not_before_iff : (!b.before a) = true ↔ a.rank ≤ b.rank := by
  rw [Bool.not_eq_true', ← Bool.not_eq_true, before_iff, not_lt]

end Binding

-- Sorting moves no two elements that may stand in either order.
theorem filter_mergeSort {α : Type} {le : α → α → Bool} {p : α → Bool}
    (htrans : ∀ a b c, le a b = true → le b c = true → le a c = true)
    (htotal : ∀ a b, (le a b || le b a) = true) (l : List α)
    (hp : ∀ a b, p a = true → p b = true → le a b = true) :
    (l.mergeSort le).filter p = l.filter p := by
  have hpairwise : (l.filter p).Pairwise fun a b => le a b = true := by
    rw [List.pairwise_iff_forall_sublist]
    intro a b hab
    have ha := hab.subset (List.mem_cons_self : a ∈ [a, b])
    have hb := hab.subset (List.mem_cons_of_mem a List.mem_cons_self : b ∈ [a, b])
    exact hp a b (List.mem_filter.mp ha).2 (List.mem_filter.mp hb).2
  have hsublist := (List.sublist_mergeSort htrans htotal hpairwise List.filter_sublist).filter p
  simp only [List.filter_filter, Bool.and_self] at hsublist
  exact (hsublist.eq_of_length ((List.mergeSort_perm l le).filter p).length_eq.symm).symm

theorem find?_of_first {α : Type} {R : α → α → Prop} {p : α → Bool} {l : List α}
    (hl : l.Pairwise R) {a : α} (ha : a ∈ l) (hp : p a = true)
    (hfirst : ∀ b ∈ l, p b = true → ¬R b a) : l.find? p = some a := by
  induction l with
  | nil => cases ha
  | cons b rest ih =>
      obtain ⟨hb, hrest⟩ := List.pairwise_cons.mp hl
      rcases List.mem_cons.mp ha with rfl | ha
      · exact List.find?_cons_of_pos hp
      · have hnot : ¬p b = true := fun hpb => hfirst b List.mem_cons_self hpb (hb a ha)
        rw [List.find?_cons_of_neg hnot]
        exact ih hrest ha fun c hc => hfirst c (List.mem_cons_of_mem _ hc)

namespace Counterexample

-- The name under which a variable is shown.
def sourceName (base : String) : String := if base = resultName then "result" else base

def bindingOf (types : NameMap String) (a : AliasName) (v : Value) : Binding :=
  ⟨sourceName a.base, a.generation, (types.get? a.base).getD v.typeText, v.text⟩

-- The aliases that are shown with their values, in the order of the symbols.
def shown (model : Assignment) : List (AliasName × Value) :=
  model.entries.filterMap fun entry =>
    ((AliasName.parse? entry.1).filter fun a => a.base ≠ returnedName).map fun a => (a, entry.2)

theorem bindings_ofAssignment (types : NameMap String) (model : Assignment) :
    (ofAssignment types model).bindings =
      ((shown model).map fun p => bindingOf types p.1 p.2).mergeSort fun a b => !b.before a := by
  have hbinding : ∀ entry : String × Value, binding? types entry.1 entry.2 =
      (((AliasName.parse? entry.1).filter fun a => a.base ≠ returnedName).map fun a =>
        (a, entry.2)).map fun p => bindingOf types p.1 p.2 := by
    intro entry
    unfold binding?
    split
    · rename_i hparse
      simp [hparse]
    · rename_i a hparse
      by_cases hbase : a.base = returnedName
      · simp [hparse, hbase, Option.filter]
      · simp [hparse, hbase, Option.filter, bindingOf, sourceName]
  rw [shown, List.map_filterMap, ofAssignment]
  simp only [hbinding]

theorem perm_bindings (types : NameMap String) (model : Assignment) :
    (ofAssignment types model).bindings.Perm
      ((shown model).map fun p => bindingOf types p.1 p.2) := by
  rw [bindings_ofAssignment]
  exact List.mergeSort_perm _ _

section Order

theorem le_trans_before (a b c : Binding) (hab : (!b.before a) = true)
    (hbc : (!c.before b) = true) : (!c.before a) = true := by
  rw [Binding.not_before_iff] at *
  exact hab.trans hbc

theorem le_total_before (a b : Binding) : ((!b.before a) || (!a.before b)) = true := by
  rw [Bool.or_eq_true, Binding.not_before_iff, Binding.not_before_iff]
  exact le_total _ _

theorem pairwise_bindings (types : NameMap String) (model : Assignment) :
    (ofAssignment types model).bindings.Pairwise Binding.Precedes := by
  rw [bindings_ofAssignment]
  refine (List.pairwise_mergeSort le_trans_before le_total_before _).imp fun {a b} hab => ?_
  exact Binding.precedes_iff.mpr (Binding.not_before_iff.mp hab)

-- The entry value of a name is that of the first alias that is shown under it.
theorem input?_eq_find? (types : NameMap String) (model : Assignment) (name : String) :
    (ofAssignment types model).input? name =
      ((shown model).map fun p => bindingOf types p.1 p.2).find? fun b =>
        b.isInput && decide (b.name = name) := by
  have hfind : (ofAssignment types model).input? name = (ofAssignment types model).bindings.find?
      fun b => b.isInput && decide (b.name = name) := by
    rw [input?, inputs, List.find?_filter]
    congr 1
    funext b
    simp
  rw [hfind, ← List.head?_filter, ← List.head?_filter, bindings_ofAssignment,
    filter_mergeSort le_trans_before le_total_before]
  intro a b ha hb
  simp only [Bool.and_eq_true, decide_eq_true_eq] at ha hb
  obtain ⟨hinput, hname⟩ := ha
  obtain ⟨hinput', hname'⟩ := hb
  have hversion : a.version = b.version := by
    rw [Binding.isInput, beq_iff_eq] at hinput hinput'
    rw [hinput, hinput']
  rw [Binding.not_before_iff, Binding.rank, Binding.rank, hinput, hinput', hname, hname', hversion]

end Order

section Aliases

variable {model : Assignment} {types : NameMap String}

-- Each symbol of the assignment is that of an alias.
def Aliased (model : Assignment) : Prop := ∀ symbol ∈ model.names, ∃ a : AliasName, symbol = a.text

variable (haliased : Aliased model)

include haliased

theorem text_of_parse? {entry : String × Value} (hentry : entry ∈ model.entries) {a : AliasName}
    (hparse : AliasName.parse? entry.1 = some a) :
    entry.1 = a.text ∧ a.generation < AliasName.generationLimit := by
  obtain ⟨b, hb⟩ := haliased entry.1 (List.mem_map_of_mem hentry)
  rw [hb, AliasName.parse?_text] at hparse
  split at hparse
  · rename_i hlimit
    cases hparse
    exact ⟨hb, hlimit⟩
  · cases hparse

theorem mem_shown {a : AliasName} {v : Value} : (a, v) ∈ shown model ↔
    a.base ≠ returnedName ∧ a.generation < AliasName.generationLimit ∧
      model.get? a.text = some v := by
  simp only [shown, List.mem_filterMap, Option.map_eq_some_iff, Option.filter_eq_some_iff]
  constructor
  · rintro ⟨entry, hentry, b, ⟨hparse, hbase⟩, heq⟩
    cases heq
    obtain ⟨htext, hlimit⟩ := text_of_parse? haliased hentry hparse
    refine ⟨by simpa using hbase, hlimit, htext ▸ NameMap.get?_eq_some_of_mem hentry⟩
  · rintro ⟨hbase, hlimit, hget⟩
    refine ⟨(a.text, v), NameMap.mem_of_get?_eq_some hget, a, ⟨?_, by simpa using hbase⟩, rfl⟩
    rw [AliasName.parse?_text, if_pos hlimit]

-- The inputs are the aliases on entry.
theorem mem_inputs {b : Binding} : b ∈ (ofAssignment types model).inputs ↔
    ∃ base v, base ≠ returnedName ∧ model.get? (AliasName.text ⟨base, 0⟩) = some v ∧
      b = bindingOf types ⟨base, 0⟩ v := by
  rw [inputs, List.mem_filter, (perm_bindings types model).mem_iff, List.mem_map]
  constructor
  · rintro ⟨⟨⟨⟨base, generation⟩, v⟩, hmem, rfl⟩, hinput⟩
    obtain rfl : generation = 0 := by simpa [bindingOf, Binding.isInput] using hinput
    obtain ⟨hbase, -, hget⟩ := (mem_shown haliased).mp hmem
    exact ⟨base, v, hbase, hget, rfl⟩
  · rintro ⟨base, v, hbase, hget, rfl⟩
    have hlimit : 0 < AliasName.generationLimit := by decide
    exact ⟨⟨(⟨base, 0⟩, v), (mem_shown haliased).mpr ⟨hbase, hlimit, hget⟩, rfl⟩, rfl⟩

theorem pairwise_shown : (shown model).Pairwise fun p q => p.1.text < q.1.text := by
  refine List.Pairwise.filterMap _ ?_ (List.Pairwise.and_mem.mp model.ordered)
  rintro entry other ⟨hentry, hother, hlt⟩ p hp q hq
  simp only [Option.map_eq_some_iff, Option.filter_eq_some_iff] at hp hq
  obtain ⟨a, ⟨hparse, -⟩, rfl⟩ := hp
  obtain ⟨b, ⟨hparse', -⟩, rfl⟩ := hq
  rw [← (text_of_parse? haliased hentry hparse).1, ← (text_of_parse? haliased hother hparse').1]
  exact hlt

theorem nodup_shown : ((shown model).map Prod.fst).Nodup := by
  refine List.pairwise_map.mpr ((pairwise_shown haliased).imp fun {p q} hlt heq => ?_)
  rw [heq] at hlt
  exact lt_irrefl _ hlt

theorem value_unique {a : AliasName} {v w : Value} (hv : (a, v) ∈ shown model)
    (hw : (a, w) ∈ shown model) : v = w := by
  rw [mem_shown haliased] at hv hw
  exact Option.some.inj (hv.2.2.symm.trans hw.2.2)

theorem input?_of_first {base name : String} {v : Value} (hmem : (⟨base, 0⟩, v) ∈ shown model)
    (hname : sourceName base = name)
    (hfirst : ∀ other w, (⟨other, 0⟩, w) ∈ shown model → sourceName other = name →
      ¬AliasName.text ⟨other, 0⟩ < AliasName.text ⟨base, 0⟩) :
    (ofAssignment types model).input? name = some (bindingOf types ⟨base, 0⟩ v) := by
  rw [input?_eq_find?, List.find?_map, find?_of_first (pairwise_shown haliased) hmem
    (by simp [bindingOf, Binding.isInput, hname])]
  · rfl
  · rintro ⟨⟨other, generation⟩, w⟩ hother hp
    simp only [Function.comp, bindingOf, Binding.isInput, Bool.and_eq_true, beq_iff_eq] at hp
    obtain ⟨rfl, hshown⟩ := hp
    exact hfirst other w hother (of_decide_eq_true hshown)

omit haliased in
theorem sourceName_ne_resultName (base : String) : sourceName base ≠ resultName := by
  unfold sourceName
  split
  · decide
  · assumption

-- Two variables share a name only where one is the result and the other is named like it.
omit haliased in
theorem sourceName_inj {base other : String} (h : sourceName base = sourceName other) :
    base = other ∨ base = resultName ∧ other = "result" ∨ base = "result" ∧ other = resultName := by
  unfold sourceName at h
  split at h
  · rename_i hbase
    split at h
    · rename_i hother
      exact .inl (hbase.trans hother.symm)
    · exact .inr (.inl ⟨hbase, h.symm⟩)
  · split at h
    · rename_i hother
      exact .inr (.inr ⟨h, hother⟩)
    · exact .inl h

-- A name that is no name of the result has its own value, unless the result is in its place.
theorem input?_of_apart {name : String} {v : Value} (hname : name ≠ resultName)
    (hmem : (⟨name, 0⟩, v) ∈ shown model)
    (hapart : name = "result" → ∀ w, (⟨resultName, 0⟩, w) ∉ shown model) :
    (ofAssignment types model).input? name = some (bindingOf types ⟨name, 0⟩ v) := by
  have hsource : sourceName name = name := if_neg hname
  refine input?_of_first haliased hmem hsource fun other w hother hshown => ?_
  rcases sourceName_inj (hshown.trans hsource.symm) with rfl | ⟨rfl, hresult⟩ | ⟨-, hresult⟩
  · exact lt_irrefl _
  · exact absurd hother (hapart hresult w)
  · exact absurd hresult hname

-- The result comes before a variable of its name, as its symbol does.
theorem input?_result {v : Value} (hmem : (⟨resultName, 0⟩, v) ∈ shown model) :
    (ofAssignment types model).input? "result" = some (bindingOf types ⟨resultName, 0⟩ v) := by
  have hsource : sourceName resultName = "result" := rfl
  refine input?_of_first haliased hmem hsource fun other w hother hshown => ?_
  rcases sourceName_inj (hshown.trans hsource.symm) with rfl | ⟨rfl, -⟩ | ⟨rfl, -⟩
  · exact lt_irrefl _
  · exact lt_irrefl _
  · decide +kernel

omit haliased in
theorem input?_resultName : (ofAssignment types model).input? resultName = none := by
  rw [input?_eq_find?, List.find?_eq_none]
  intro b hb
  obtain ⟨p, -, rfl⟩ := List.mem_map.mp hb
  simp [bindingOf, sourceName_ne_resultName]

-- Bindings share a name and a version exactly where the result and a variable of its name do.
theorem nodup_bindings_iff :
    ((ofAssignment types model).bindings.map fun b => (b.name, b.version)).Nodup ↔
      ∀ g < AliasName.generationLimit, ¬(model.contains (AliasName.text ⟨resultName, g⟩) = true ∧
        model.contains (AliasName.text ⟨"result", g⟩) = true) := by
  have hnodup : (shown model).Nodup := .of_map _ (nodup_shown haliased)
  rw [((perm_bindings types model).map _).nodup_iff, List.map_map,
    List.nodup_map_iff_inj_on hnodup]
  constructor
  · rintro hinj g hg ⟨hresult, hname⟩
    obtain ⟨v, hv⟩ := (NameMap.contains_iff _ _).mp hresult
    obtain ⟨w, hw⟩ := (NameMap.contains_iff _ _).mp hname
    have hghost : resultName ≠ returnedName := by decide
    have hother : "result" ≠ returnedName := by decide
    have hv' := (mem_shown haliased).mpr ⟨hghost, hg, hv⟩
    have hw' := (mem_shown haliased).mpr ⟨hother, hg, hw⟩
    have hbase : resultName = "result" := congrArg (fun p => p.1.base) (hinj _ hv' _ hw' rfl)
    exact absurd hbase (by decide)
  · rintro hapart ⟨⟨base, g⟩, v⟩ hv ⟨⟨other, g'⟩, w⟩ hw heq
    simp only [Function.comp, bindingOf, Prod.mk.injEq] at heq
    obtain ⟨hsource, rfl⟩ := heq
    have hcontains : ∀ {base v}, (AliasName.mk base g, v) ∈ shown model →
        g < AliasName.generationLimit ∧ model.contains (AliasName.text ⟨base, g⟩) = true := by
      intro base v hmem
      obtain ⟨-, hg, hget⟩ := (mem_shown haliased).mp hmem
      exact ⟨hg, (NameMap.contains_iff _ _).mpr ⟨v, hget⟩⟩
    rcases sourceName_inj hsource with rfl | ⟨rfl, rfl⟩ | ⟨rfl, rfl⟩
    · rw [value_unique haliased hv hw]
    · exact absurd ⟨(hcontains hv).2, (hcontains hw).2⟩ (hapart g (hcontains hv).1)
    · exact absurd ⟨(hcontains hw).2, (hcontains hv).2⟩ (hapart g (hcontains hv).1)

end Aliases

end Counterexample

end Covenant
