import Covenant.Proofs.Alias.Table
import Mathlib.Data.List.Nodup

namespace Covenant

namespace AliasName

theorem before_iff {a b : AliasName} :
    a.before b = true ↔ a.base < b.base ∨ a.base = b.base ∧ a.generation < b.generation := by
  simp [before]

theorem before_trans {a b c : AliasName} (hab : a.before b = true) (hbc : b.before c = true) :
    a.before c = true := by
  rw [before_iff] at *
  rcases hab with hab | ⟨hab, hgab⟩ <;> rcases hbc with hbc | ⟨hbc, hgbc⟩
  · exact .inl (hab.trans hbc)
  · exact .inl (hbc ▸ hab)
  · exact .inl (hab ▸ hbc)
  · exact .inr ⟨hab.trans hbc, by omega⟩

theorem before_of_not_before {a b : AliasName} (h : ¬a.before b = true) (hne : a ≠ b) :
    b.before a = true := by
  rw [before_iff, not_or, not_and] at h
  rw [before_iff]
  rcases lt_or_eq_of_le (not_lt.mp h.1) with hlt | heq
  · exact .inl hlt
  · have hgeneration := h.2 heq.symm
    have hdiffer : a.generation ≠ b.generation := fun hg => hne (by
      cases a
      cases b
      simp_all)
    exact .inr ⟨heq, by omega⟩

end AliasName

namespace AliasTable

-- The differences and divergences of two tables, in order

theorem pairwise_insertOrdered {a : AliasName} {l : List AliasName}
    (h : l.Pairwise fun a b => a.before b = true) :
    (insertOrdered a l).Pairwise fun a b => a.before b = true := by
  induction l with
  | nil => exact List.pairwise_singleton _ _
  | cons b rest ih =>
      obtain ⟨hfirst, hrest⟩ := List.pairwise_cons.mp h
      simp only [insertOrdered]
      split_ifs with hbefore heq
      · refine List.pairwise_cons.mpr ⟨List.forall_mem_cons.mpr ⟨hbefore, fun c hc => ?_⟩, h⟩
        exact AliasName.before_trans hbefore (hfirst c hc)
      · exact h
      · refine List.pairwise_cons.mpr ⟨fun c hc => ?_, ih hrest⟩
        rcases mem_insertOrdered.mp hc with rfl | hc
        · exact AliasName.before_of_not_before hbefore heq
        · exact hfirst c hc

theorem pairwise_difference (s t : AliasTable) :
    (s.difference t).Pairwise fun a b => a.before b = true := by
  unfold difference
  induction s.history.filter (· ∉ t.history) with
  | nil => exact .nil
  | cons a rest ih => exact pairwise_insertOrdered ih

theorem divergences_eq (left right : AliasTable) : left.divergences right =
    left.current.entries.filterMap fun p => (right.current.get? p.1).bind fun r =>
      if p.2 = r then none else some ⟨p.1, p.2, r⟩ := by
  unfold divergences
  congr 1
  funext p
  rcases p with ⟨name, l⟩
  simp only
  cases right.current.get? name <;> rfl

theorem pairwise_divergences (left right : AliasTable) :
    ((left.divergences right).map Divergence.name).Pairwise (· < ·) := by
  rw [List.pairwise_map, divergences_eq]
  refine List.Pairwise.filterMap _ (fun p q hpq d hd d' hd' => ?_) left.current.ordered
  obtain ⟨r, -, hd⟩ := Option.bind_eq_some_iff.mp hd
  obtain ⟨r', -, hd'⟩ := Option.bind_eq_some_iff.mp hd'
  obtain rfl := Option.some.inj (Option.ite_none_left_eq_some.mp hd).2
  obtain rfl := Option.some.inj (Option.ite_none_left_eq_some.mp hd').2
  exact hpq

-- Tables over the same names diverge where their generations differ.
theorem mem_names_divergences {left right : AliasTable} {name : String}
    (hcontains : left.contains name = right.contains name) :
    name ∈ (left.divergences right).map Divergence.name ↔
      left.current.get? name ≠ right.current.get? name := by
  constructor
  · intro hname
    obtain ⟨d, hd, rfl⟩ := List.mem_map.mp hname
    obtain ⟨hleft, hright, hne⟩ := mem_divergences.mp hd
    simpa [hleft, hright] using hne
  · intro hne
    simp only [contains, NameMap.contains] at hcontains
    cases hleft : left.current.get? name with
    | none =>
        rw [hleft, Option.isSome_none, eq_comm, Option.isSome_eq_false_iff,
          Option.isNone_iff_eq_none] at hcontains
        exact absurd (hleft.trans hcontains.symm) hne
    | some l =>
        obtain ⟨r, hright⟩ : ∃ r, right.current.get? name = some r := by
          rw [← Option.isSome_iff_exists, ← hcontains, hleft]
          rfl
        have hdiffer : l ≠ r := fun heq => hne (by rw [hleft, hright, heq])
        exact List.mem_map.mpr
          ⟨⟨name, l, r⟩, mem_divergences.mpr ⟨hleft, hright, hdiffer⟩, rfl⟩

theorem pairwise_namesOnlyIn (s t : AliasTable) : (s.namesOnlyIn t).Pairwise (· < ·) :=
  (List.pairwise_map.mpr s.current.ordered).filter _

theorem contains_iff {t : AliasTable} {name : String} :
    t.contains name = true ↔ ∃ g, t.current.get? name = some g := NameMap.contains_iff _ _

theorem contains_set (t : AliasTable) (name other : String) (g : Nat) :
    (t.set name g).contains other = (decide (other = name) || t.contains other) :=
  NameMap.contains_insert _ _ _ _

-- Setting a name that is there adds none.
theorem contains_set_of_contains {t : AliasTable} {name : String} (h : t.contains name = true)
    (g : Nat) (other : String) : (t.set name g).contains other = t.contains other := by
  rw [contains_set]
  by_cases heq : other = name
  · simp [heq, h]
  · simp [heq]

theorem contains_of_mem_divergences {left right : AliasTable} {d : Divergence}
    (h : d ∈ left.divergences right) : left.contains d.name = true := by
  rw [divergences_eq] at h
  obtain ⟨p, hp, hd⟩ := List.mem_filterMap.mp h
  obtain ⟨r, -, hd⟩ := Option.bind_eq_some_iff.mp hd
  have hname : d.name = p.1 := by
    split at hd
    · cases hd
    · cases hd
      rfl
  rw [contains_iff, ← NameMap.mem_names, hname]
  exact List.mem_map_of_mem hp

theorem mem_namesOnlyIn {s t : AliasTable} {name : String} :
    name ∈ s.namesOnlyIn t ↔ s.contains name = true ∧ t.contains name = false := by
  rw [namesOnlyIn, List.mem_filter, names, NameMap.mem_names, contains_iff, Bool.not_eq_true']

-- Tables merge exactly where they are over the same names.
theorem merge_of_contains {left right : AliasTable}
    (h : ∀ name, left.contains name = right.contains name) :
    left.merge right = .ok ⟨⟨left.current, left.history ++ right.history.filter (· ∉ left.history)⟩,
      left.divergences right⟩ := by
  have hleft : left.namesOnlyIn right = [] := by
    refine List.eq_nil_iff_forall_not_mem.mpr fun name hname => ?_
    rw [mem_namesOnlyIn, h name] at hname
    simp [hname.1] at hname
  have hright : right.namesOnlyIn left = [] := by
    refine List.eq_nil_iff_forall_not_mem.mpr fun name hname => ?_
    rw [mem_namesOnlyIn, h name] at hname
    simp [hname.1] at hname
  simp [merge, hleft, hright]

theorem merge_eq_error {left right : AliasTable} {error : AliasError} :
    left.merge right = .error error ↔ (∃ name, left.contains name ≠ right.contains name) ∧
      error = .mismatchedNames (left.namesOnlyIn right) (right.namesOnlyIn left) := by
  by_cases h : ∃ name, left.contains name ≠ right.contains name
  · obtain ⟨name, hname⟩ := h
    have hsome : ¬((left.namesOnlyIn right).isEmpty && (right.namesOnlyIn left).isEmpty) = true := by
      rw [Bool.and_eq_true, List.isEmpty_iff, List.isEmpty_iff]
      rintro ⟨hleft, hright⟩
      cases hcontains : left.contains name with
      | true =>
          have hmem : name ∈ left.namesOnlyIn right := mem_namesOnlyIn.mpr ⟨hcontains, by simp_all⟩
          simp [hleft] at hmem
      | false =>
          have hmem : name ∈ right.namesOnlyIn left := mem_namesOnlyIn.mpr ⟨by simp_all, hcontains⟩
          simp [hright] at hmem
    rw [merge, if_neg hsome]
    simp only [Except.error.injEq]
    exact ⟨fun heq => ⟨⟨name, hname⟩, heq.symm⟩, fun heq => heq.2.symm⟩
  · refine iff_of_false ?_ fun h' => h h'.1
    rw [merge_of_contains (by simpa using h)]
    simp

theorem advance_of_get? {t : AliasTable} {name : String} {g : Nat}
    (h : t.current.get? name = some g) (issued : Issued) : t.advance issued name =
      .ok (⟨name, (issued.get? name).getD g + 1⟩, t.set name ((issued.get? name).getD g + 1),
        issued.insert name ((issued.get? name).getD g + 1)) := by
  simp [advance, h]

theorem advance_of_none {t : AliasTable} {name : String} (h : t.current.get? name = none)
    (issued : Issued) : t.advance issued name = .error (.unregistered name) := by
  simp [advance, h]

end AliasTable

end Covenant
