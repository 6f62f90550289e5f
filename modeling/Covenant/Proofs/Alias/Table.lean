import Covenant.Alias.Table
import Covenant.Proofs.Data.NameMap

namespace Covenant.AliasTable

def generation (t : AliasTable) (name : String) : Nat := (t.current.get? name).getD 0

theorem generation_eq {t : AliasTable} {name : String} {g : Nat} (h : t.current.get? name = some g) :
    t.generation name = g := by
  simp [generation, h]

theorem generation_set_self (t : AliasTable) (name : String) (g : Nat) :
    (t.set name g).generation name = g := by
  simp [generation, set]

theorem generation_set_of_ne (t : AliasTable) {name other : String} (g : Nat) (h : other ≠ name) :
    (t.set name g).generation other = t.generation other := by
  simp [generation, set, NameMap.get?_insert_of_ne _ _ h]

theorem mem_insertOrdered {a b : AliasName} {l : List AliasName} :
    a ∈ insertOrdered b l ↔ a = b ∨ a ∈ l := by
  induction l with
  | nil => simp [insertOrdered]
  | cons c rest ih =>
      simp only [insertOrdered]
      split
      · simp
      · split
        · rename_i h
          simp [h]
        · simp only [List.mem_cons, ih]
          exact or_left_comm

theorem mem_difference {s t : AliasTable} {a : AliasName} :
    a ∈ s.difference t ↔ a ∈ s.history ∧ a ∉ t.history := by
  have hfold : ∀ l : List AliasName, a ∈ l.foldr insertOrdered [] ↔ a ∈ l := by
    intro l
    induction l with
    | nil => simp
    | cons b rest ih => simp [mem_insertOrdered, ih]
  simp [difference, hfold]

theorem namesOnlyIn_isEmpty {s t : AliasTable} : (s.namesOnlyIn t).isEmpty = true ↔
    ∀ name g, s.current.get? name = some g → ∃ g', t.current.get? name = some g' := by
  simp only [namesOnlyIn, names, contains, List.isEmpty_iff, List.filter_eq_nil_iff,
    Bool.not_eq_eq_eq_not, Bool.not_true, Bool.not_eq_false, NameMap.contains_iff, NameMap.mem_names,
    exists_imp]

-- Two tables merge when they are over the same names.
theorem merge_eq_ok {left right : AliasTable} {merged : Merged} (h : left.merge right = .ok merged) :
    (∀ name, (∃ g, left.current.get? name = some g) ↔ ∃ g, right.current.get? name = some g) ∧
      merged = ⟨⟨left.current, left.history ++ right.history.filter (· ∉ left.history)⟩,
        left.divergences right⟩ := by
  simp only [merge] at h
  split at h
  · rename_i hnames
    rw [Bool.and_eq_true, namesOnlyIn_isEmpty, namesOnlyIn_isEmpty] at hnames
    cases h
    exact ⟨fun name => ⟨fun ⟨g, hg⟩ => hnames.1 name g hg, fun ⟨g, hg⟩ => hnames.2 name g hg⟩, rfl⟩
  · cases h

theorem mem_divergences {left right : AliasTable} {d : Divergence} :
    d ∈ left.divergences right ↔ left.current.get? d.name = some d.left ∧
      right.current.get? d.name = some d.right ∧ d.left ≠ d.right := by
  simp only [divergences, List.mem_filterMap, Prod.exists]
  constructor
  · rintro ⟨name, l, hmem, hd⟩
    split at hd
    · rename_i r hr
      split at hd
      · cases hd
      · rename_i hne
        cases hd
        exact ⟨NameMap.get?_eq_some_of_mem hmem, hr, hne⟩
    · cases hd
  · rintro ⟨hleft, hright, hne⟩
    exact ⟨d.name, d.left, NameMap.mem_of_get?_eq_some hleft, by simp [hright, hne]⟩

theorem generation_eq_of_not_divergent {left right : AliasTable} {name : String}
    (hnames : (∃ g, left.current.get? name = some g) ↔ ∃ g, right.current.get? name = some g)
    (hname : ∀ d ∈ left.divergences right, d.name ≠ name) :
    left.generation name = right.generation name := by
  cases hleft : left.current.get? name with
  | none =>
      have hright : right.current.get? name = none := by
        cases hright : right.current.get? name with
        | none => rfl
        | some r => simp [hleft, hright] at hnames
      simp [generation, hleft, hright]
  | some l =>
      obtain ⟨r, hright⟩ := hnames.mp ⟨l, hleft⟩
      by_contra hne
      rw [generation_eq hleft, generation_eq hright] at hne
      exact hname ⟨name, l, r⟩ (mem_divergences.mpr ⟨hleft, hright, hne⟩) rfl

end Covenant.AliasTable
