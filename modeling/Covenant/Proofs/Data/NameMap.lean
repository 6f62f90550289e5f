import Covenant.Data.NameMap
import Mathlib.Data.List.Nodup
import Mathlib.Data.String.Basic

namespace Covenant.NameMap

variable {α : Type}

theorem lookup_cons_of_ne {name other : String} (a : α) (rest : List (String × α))
    (h : name ≠ other) : ((other, a) :: rest).lookup name = rest.lookup name := by
  rw [List.lookup_cons, beq_eq_false_iff_ne.mpr h]

theorem mem_of_lookup {name : String} {a : α} {entries : List (String × α)}
    (h : entries.lookup name = some a) : (name, a) ∈ entries := by
  obtain ⟨before, after, heq, -⟩ := List.lookup_eq_some_iff.mp h
  rw [heq]
  simp

theorem lookup_eq_none_of_not_mem {name : String} {entries : List (String × α)}
    (h : name ∉ entries.map Prod.fst) : entries.lookup name = none := by
  rw [List.lookup_eq_none_iff]
  intro entry hentry
  simp only [bne_iff_ne, ne_eq]
  exact fun heq => h (List.mem_map.mpr ⟨entry, hentry, heq.symm⟩)

theorem lookup_of_nodup {entries : List (String × α)} (h : (entries.map Prod.fst).Nodup)
    {entry : String × α} (hmem : entry ∈ entries) : entries.lookup entry.1 = some entry.2 := by
  induction entries with
  | nil => cases hmem
  | cons first rest ih =>
      rcases first with ⟨name, a⟩
      obtain ⟨hfirst, hrest⟩ := List.nodup_cons.mp h
      rcases List.mem_cons.mp hmem with rfl | hmem
      · simp
      · have hne : entry.1 ≠ name := fun heq =>
          hfirst (List.mem_map.mpr ⟨entry, hmem, heq⟩)
        rw [lookup_cons_of_ne a rest hne]
        exact ih hrest hmem

theorem lookup_insertEntry_self (name : String) (a : α) (entries : List (String × α)) :
    (insertEntry name a entries).lookup name = some a := by
  induction entries with
  | nil => simp [insertEntry]
  | cons entry rest ih =>
      rcases entry with ⟨other, b⟩
      simp only [insertEntry]
      split
      · simp
      · split
        · simp
        · rename_i hne
          rw [lookup_cons_of_ne b _ hne]
          exact ih

theorem lookup_insertEntry_of_ne {name other : String} (a : α) (entries : List (String × α))
    (h : other ≠ name) : (insertEntry name a entries).lookup other = entries.lookup other := by
  induction entries with
  | nil => simp [insertEntry, h]
  | cons entry rest ih =>
      rcases entry with ⟨key, b⟩
      simp only [insertEntry]
      split
      · exact lookup_cons_of_ne a _ h
      · split
        · rename_i hkey
          subst hkey
          rw [lookup_cons_of_ne a _ h, lookup_cons_of_ne b _ h]
        · simp only [List.lookup_cons, ih]

@[simp] theorem get?_empty (name : String) : (empty : NameMap α).get? name = none := rfl

@[simp] theorem get?_insert_self (m : NameMap α) (name : String) (a : α) :
    (m.insert name a).get? name = some a := lookup_insertEntry_self name a m.entries

theorem get?_insert_of_ne (m : NameMap α) {name other : String} (a : α) (h : other ≠ name) :
    (m.insert name a).get? other = m.get? other := lookup_insertEntry_of_ne a m.entries h

theorem get?_insert (m : NameMap α) (name other : String) (a : α) :
    (m.insert name a).get? other = if other = name then some a else m.get? other := by
  split
  · rename_i h
    rw [h, get?_insert_self]
  · rename_i h
    exact get?_insert_of_ne m a h

theorem contains_iff (m : NameMap α) (name : String) :
    m.contains name = true ↔ ∃ a, m.get? name = some a := Option.isSome_iff_exists

theorem contains_insert (m : NameMap α) (name other : String) (a : α) :
    (m.insert name a).contains other = (decide (other = name) || m.contains other) := by
  rw [contains, contains, get?_insert]
  split
  · next h => simp [h]
  · next h => simp [h]

-- A new name is added to what was there.
theorem get?_insert_of_not_contains {m : NameMap α} {name : String} (h : m.contains name = false)
    (other : String) (a b : α) : (m.insert name a).get? other = some b ↔
      m.get? other = some b ∨ other = name ∧ b = a := by
  rw [contains, Option.isSome_eq_false_iff, Option.isNone_iff_eq_none] at h
  rw [get?_insert]
  by_cases heq : other = name
  · simp [heq, h, eq_comm]
  · simp [heq]

theorem exists_lookup_iff {entries : List (String × α)} {name : String} :
    (∃ a, entries.lookup name = some a) ↔ name ∈ entries.map Prod.fst := by
  constructor
  · rintro ⟨a, ha⟩
    exact List.mem_map.mpr ⟨(name, a), mem_of_lookup ha, rfl⟩
  · intro h
    by_contra hnone
    have hlookup : entries.lookup name = none :=
      Option.eq_none_iff_forall_ne_some.mpr fun a ha => hnone ⟨a, ha⟩
    obtain ⟨entry, hentry, rfl⟩ := List.mem_map.mp h
    simpa using List.lookup_eq_none_iff.mp hlookup entry hentry

theorem mem_names {m : NameMap α} {name : String} : name ∈ m.names ↔ ∃ a, m.get? name = some a :=
  exists_lookup_iff.symm

theorem nodup_names (m : NameMap α) : m.names.Nodup :=
  List.pairwise_map.mpr (m.ordered.imp ne_of_lt)

-- The entries are exactly what can be looked up.
theorem get?_eq_some_of_mem {m : NameMap α} {name : String} {a : α} (hmem : (name, a) ∈ m.entries) :
    m.get? name = some a := lookup_of_nodup m.nodup_names hmem

theorem mem_of_get?_eq_some {m : NameMap α} {name : String} {a : α} (h : m.get? name = some a) :
    (name, a) ∈ m.entries := mem_of_lookup h

-- Two maps that answer alike have the same entries, and in the same order.
theorem ext_get? {m n : NameMap α} (h : ∀ name, m.get? name = n.get? name) : m = n := by
  have hmem : ∀ entry, entry ∈ m.entries ↔ entry ∈ n.entries := fun entry =>
    ⟨fun hentry => mem_of_get?_eq_some (h entry.1 ▸ get?_eq_some_of_mem hentry),
      fun hentry => mem_of_get?_eq_some ((h entry.1).symm ▸ get?_eq_some_of_mem hentry)⟩
  have hperm : m.entries.Perm n.entries :=
    (List.perm_ext_iff_of_nodup (List.Nodup.of_map _ m.nodup_names)
      (List.Nodup.of_map _ n.nodup_names)).mpr hmem
  exact NameMap.ext (hperm.eq_of_pairwise (fun _ _ _ _ hab hba => absurd hab hba.asymm)
    m.ordered n.ordered)

theorem get?_foldl_insert (entries : List (String × α)) (m : NameMap α)
    (h : (entries.map Prod.fst).Nodup) (name : String) :
    (entries.foldl (fun m (name, a) => m.insert name a) m).get? name =
      (entries.lookup name).or (m.get? name) := by
  induction entries generalizing m with
  | nil => rfl
  | cons entry rest ih =>
      rcases entry with ⟨key, a⟩
      obtain ⟨hkey, hrest⟩ := List.nodup_cons.mp h
      rw [List.foldl_cons, ih _ hrest, get?_insert, List.lookup_cons]
      by_cases heq : name = key
      · subst heq
        simp [lookup_eq_none_of_not_mem hkey]
      · simp only [heq, if_false, beq_eq_false_iff_ne.mpr heq]

-- Where no name is repeated, none of the entries is lost.
theorem get?_ofList {entries : List (String × α)} (h : (entries.map Prod.fst).Nodup)
    (name : String) : (ofList entries).get? name = entries.lookup name := by
  rw [ofList, get?_foldl_insert entries empty h]
  simp

theorem insertEntry_eq_append {name : String} (a : α) {entries : List (String × α)}
    (h : ∀ entry ∈ entries, entry.1 < name) : insertEntry name a entries = entries ++ [(name, a)] := by
  induction entries with
  | nil => rfl
  | cons entry rest ih =>
      rw [List.forall_mem_cons] at h
      rw [insertEntry, if_neg h.1.not_gt, if_neg h.1.ne', ih h.2]
      rfl

theorem foldl_insert_entries (entries : List (String × α)) (m : NameMap α)
    (h : (m.entries ++ entries).Pairwise fun a b => a.1 < b.1) :
    (entries.foldl (fun m (name, a) => m.insert name a) m).entries = m.entries ++ entries := by
  induction entries generalizing m with
  | nil => exact (List.append_nil _).symm
  | cons entry rest ih =>
      have hbefore : ∀ earlier ∈ m.entries, earlier.1 < entry.1 := fun earlier hearlier =>
        (List.pairwise_append.mp h).2.2 earlier hearlier entry List.mem_cons_self
      have hinsert : (m.insert entry.1 entry.2).entries = m.entries ++ [entry] :=
        insertEntry_eq_append entry.2 hbefore
      rw [List.foldl_cons, ih, hinsert, List.append_assoc]
      · rfl
      · rw [hinsert, List.append_assoc]
        exact h

-- A map is read back from its entries.
theorem ofList_entries (m : NameMap α) : ofList m.entries = m :=
  NameMap.ext (foldl_insert_entries m.entries empty m.ordered)

end Covenant.NameMap
