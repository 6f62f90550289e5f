import Covenant.Model.Json
import Covenant.Proofs.Model.NameTable
import Mathlib.Data.List.Forall2
import Mathlib.Data.List.Nodup

namespace Covenant

-- The name of the entry that was turned away.
def TableError.name : TableError → String
  | .duplicate name | .sealed name => name

namespace NameTable

variable {α : Type} [Named α] {t t' : NameTable α} {name : String} {entry : α}

-- The names by which entries can be found, in the order of the entries.
def resolvedNames (entries : List α) : List String :=
  (entries.map Named.name).filter (· ≠ unresolvedName)

-- The index has the resolved names of the entries and no others, each with the place of its only
-- entry.
def Indexed (t : NameTable α) : Prop :=
  ∀ name place, t.index.get? name = some place ↔
    name ≠ unresolvedName ∧ ∃ entry, t.entries[place]? = some entry ∧ Named.name entry = name

-- The first entry that has the resolved name of an earlier one.
def FirstRepeat (entries : List α) (entry : α) : Prop :=
  ∃ before after, entries = before ++ entry :: after ∧ (resolvedNames before).Nodup ∧
    Named.name entry ∈ resolvedNames before

theorem mem_resolvedNames {entries : List α} : name ∈ resolvedNames entries ↔
    name ≠ unresolvedName ∧ ∃ entry ∈ entries, Named.name entry = name := by
  simp only [resolvedNames, List.mem_filter, List.mem_map, decide_eq_true_eq]
  exact and_comm

theorem resolvedNames_append (entries more : List α) :
    resolvedNames (entries ++ more) = resolvedNames entries ++ resolvedNames more := by
  simp [resolvedNames]

-- One more entry repeats a name exactly if its own name is there already.
theorem nodup_resolvedNames_concat {entries : List α} (entry : α) :
    (resolvedNames (entries ++ [entry])).Nodup ↔
      (resolvedNames entries).Nodup ∧ Named.name entry ∉ resolvedNames entries := by
  rw [resolvedNames_append]
  by_cases hname : Named.name entry = unresolvedName
  · have hnone : resolvedNames [entry] = [] := by simp [resolvedNames, hname]
    have hnot : Named.name entry ∉ resolvedNames entries := fun h =>
      (mem_resolvedNames.mp h).1 hname
    rw [hnone, List.append_nil, and_iff_left hnot]
  · have hone : resolvedNames [entry] = [Named.name entry] := by simp [resolvedNames, hname]
    rw [hone, List.nodup_append]
    simp only [List.nodup_singleton, List.mem_singleton, forall_eq, true_and]
    exact and_congr_right fun _ => ⟨fun h hmem => h _ hmem rfl, fun h _ hmem heq => h (heq ▸ hmem)⟩

theorem FirstRepeat.not_nodup {entries : List α} (h : FirstRepeat entries entry) :
    ¬(resolvedNames entries).Nodup := by
  obtain ⟨before, after, rfl, -, hmem⟩ := h
  intro hnodup
  have hsplit : before ++ entry :: after = (before ++ [entry]) ++ after := by simp
  rw [hsplit, resolvedNames_append] at hnodup
  exact ((nodup_resolvedNames_concat entry).mp hnodup.of_append_left).2 hmem

-- One more entry is found by its own name only.
theorem exists_named_concat {entries : List α} {place : Nat} (h : name ≠ Named.name entry) :
    (∃ found, (entries ++ [entry])[place]? = some found ∧ Named.name found = name) ↔
      ∃ found, entries[place]? = some found ∧ Named.name found = name := by
  refine exists_congr fun found => ?_
  rw [List.getElem?_append]
  split_ifs with hplace
  · rfl
  · have hnone : entries[place]? = none := List.getElem?_eq_none (Nat.not_lt.mp hplace)
    simp only [hnone, reduceCtorEq, false_and, iff_false, not_and]
    intro hfound hname
    rw [List.mem_singleton.mp (List.mem_of_getElem? hfound)] at hname
    exact h hname.symm

namespace Indexed

theorem contains_iff (h : t.Indexed) : t.contains name = true ↔ name ∈ resolvedNames t.entries := by
  rw [contains, NameMap.contains_iff, mem_resolvedNames]
  constructor
  · rintro ⟨place, hplace⟩
    obtain ⟨hresolved, entry, hentry, hname⟩ := (h name place).mp hplace
    exact ⟨hresolved, entry, List.mem_of_getElem? hentry, hname⟩
  · rintro ⟨hresolved, entry, hmem, hname⟩
    obtain ⟨place, hplace⟩ := List.getElem?_of_mem hmem
    exact ⟨place, (h name place).mpr ⟨hresolved, entry, hplace, hname⟩⟩

-- No two places hold entries with one resolved name.
theorem place_unique (h : t.Indexed) {i j : Nat} {a b : α} (hi : t.entries[i]? = some a)
    (hj : t.entries[j]? = some b) (hname : Named.name a = Named.name b)
    (hresolved : Named.name a ≠ unresolvedName) : i = j := by
  have hfirst := (h _ i).mpr ⟨hresolved, a, hi, rfl⟩
  have hsecond := (h _ j).mpr ⟨hresolved, b, hj, hname.symm⟩
  exact Option.some.inj (hfirst.symm.trans hsecond)

theorem get?_eq_some (h : t.Indexed) : t.get? name = some entry ↔
    name ≠ unresolvedName ∧ entry ∈ t.entries ∧ Named.name entry = name := by
  rw [get?, Option.bind_eq_some_iff]
  constructor
  · rintro ⟨place, hindex, hplace⟩
    obtain ⟨hresolved, found, hfound, hname⟩ := (h name place).mp hindex
    obtain rfl := Option.some.inj (hfound.symm.trans hplace)
    exact ⟨hresolved, List.mem_of_getElem? hplace, hname⟩
  · rintro ⟨hresolved, hmem, hname⟩
    obtain ⟨place, hplace⟩ := List.getElem?_of_mem hmem
    exact ⟨place, (h name place).mpr ⟨hresolved, entry, hplace, hname⟩, hplace⟩

-- What is inserted, and what is turned away. That the table is sealed is said first.
theorem insert_eq (h : t.Indexed) (entry : α) : t.insert entry =
    if t.isSealed then .error (.sealed (Named.name entry))
    else if Named.name entry ∈ resolvedNames t.entries then .error (.duplicate (Named.name entry))
    else .ok (t.push (if Named.name entry = unresolvedName then t.index
      else t.index.insert (Named.name entry) t.size) entry) := by
  simp only [NameTable.insert]
  by_cases hname : Named.name entry = unresolvedName
  · have hnot : Named.name entry ∉ resolvedNames t.entries := fun hmem =>
      (mem_resolvedNames.mp hmem).1 hname
    simp only [hname, if_true, if_neg (hname ▸ hnot)]
  · simp only [hname, if_false, h.contains_iff]

theorem not_mem_of_insert (h : t.Indexed) (hok : t.insert entry = .ok t') :
    Named.name entry ∉ resolvedNames t.entries := by
  intro hmem
  simp only [h.insert_eq, if_pos hmem] at hok
  split_ifs at hok

theorem insert (h : t.Indexed) (hok : t.insert entry = .ok t') : t'.Indexed := by
  rw [h.insert_eq] at hok
  split_ifs at hok with hsealed hmem hname
  · -- An entry without a name takes a place, and the index stays as it is.
    cases hok
    intro other place
    rw [push, h other place]
    refine and_congr_right fun hother => ?_
    rw [exists_named_concat (hname ▸ hother)]
  · -- A new name is indexed with the place after all others.
    cases hok
    intro other place
    simp only [push, size, NameMap.get?_insert]
    split_ifs with hother
    · subst hother
      simp only [Option.some.injEq]
      constructor
      · rintro rfl
        exact ⟨hname, entry, List.getElem?_concat_length, rfl⟩
      · rintro ⟨-, found, hfound, heq⟩
        by_contra hne
        have hplace : place < t.entries.length := by
          obtain ⟨hlt, -⟩ := List.getElem?_eq_some_iff.mp hfound
          rw [List.length_append, List.length_singleton] at hlt
          omega
        rw [List.getElem?_append_left hplace] at hfound
        exact hmem (mem_resolvedNames.mpr ⟨hname, found, List.mem_of_getElem? hfound, heq⟩)
    · rw [h other place, exists_named_concat hother]

end Indexed

theorem indexed_empty : (empty : NameTable α).Indexed := by
  intro name place
  simp [empty]

namespace Built

-- Tables that are made entry by entry have a true index.
theorem indexed (h : Built t) : t.Indexed := by
  induction h with
  | new => exact indexed_empty
  | inserted h hinsert ih => exact ih.insert hinsert
  | finished h ih => exact ih

theorem nodup (h : Built t) : (resolvedNames t.entries).Nodup := by
  induction h with
  | new => exact List.nodup_nil
  | @inserted t t' entry h hinsert ih =>
      rw [(insert_eq_ok hinsert).2.2]
      exact (nodup_resolvedNames_concat entry).mpr ⟨ih, h.indexed.not_mem_of_insert hinsert⟩
  | finished h ih => exact ih

-- Entries go in one after the other, up to the first that repeats a name.
theorem insertAll_cases (h : Built t) (hopen : t.isSealed = false) (entries : List α) :
    (∃ t', t.insertAll entries = .ok t' ∧ Built t' ∧ t'.entries = t.entries ++ entries) ∨
      ∃ before entry after, entries = before ++ entry :: after ∧
        (resolvedNames (t.entries ++ before)).Nodup ∧
        Named.name entry ∈ resolvedNames (t.entries ++ before) ∧
        t.insertAll entries = .error (.duplicate (Named.name entry)) := by
  induction entries generalizing t with
  | nil => exact .inl ⟨t, rfl, h, (List.append_nil _).symm⟩
  | cons entry rest ih =>
      rw [insertAll]
      cases hfirst : t.insert entry with
      | error e =>
          rw [h.indexed.insert_eq, hopen] at hfirst
          simp only [Bool.false_eq_true, if_false] at hfirst
          split_ifs at hfirst with hmem
          cases hfirst
          refine .inr ⟨[], entry, rest, rfl, ?_⟩
          rw [List.append_nil]
          exact ⟨h.nodup, hmem, rfl⟩
      | ok next =>
          obtain ⟨-, hnext, hentries⟩ := insert_eq_ok hfirst
          rcases ih (h.inserted hfirst) hnext with hok | hrepeat
          · obtain ⟨t', hok, hbuilt, hall⟩ := hok
            exact .inl ⟨t', hok, hbuilt, by simp [hall, hentries]⟩
          · obtain ⟨before, repeated, after, rfl, hnodup, hmem, herror⟩ := hrepeat
            have hsplit : t.entries ++ entry :: before = next.entries ++ before := by
              simp [hentries]
            exact .inr ⟨entry :: before, repeated, after, rfl, hsplit ▸ hnodup, hsplit ▸ hmem,
              herror⟩

end Built

-- What comes of making a table from a list of entries: all of them in their order in a sealed
-- table, or the first that repeats a name is named.
structure Collects {ε : Type} (entries : List α) (failure : String → ε)
    (made : Except ε (NameTable α)) : Prop where
  ok_iff : (∃ t, made = .ok t) ↔ (resolvedNames entries).Nodup
  ok : ∀ t, made = .ok t → t.entries = entries ∧ t.isSealed = true
  error : ∀ e, made = .error e → ∃ entry, FirstRepeat entries entry ∧ e = failure (Named.name entry)

theorem collects_sealedOf (entries : List α) :
    Collects entries TableError.duplicate (sealedOf entries) := by
  rcases Built.new.insertAll_cases rfl entries with hok | hrepeat
  · obtain ⟨t, hok, hbuilt, hentries⟩ := hok
    have hmade : sealedOf entries = .ok t.toSealed := by
      rw [sealedOf, hok]
      rfl
    have hall : t.entries = entries := hentries
    rw [hmade]
    exact {
      ok_iff := ⟨fun _ => hall ▸ hbuilt.nodup, fun _ => ⟨_, rfl⟩⟩
      ok := fun t' h => by
        cases h
        exact ⟨hall, rfl⟩
      error := fun e h => by cases h }
  · obtain ⟨before, entry, after, hsplit, hnodup, hmem, herror⟩ := hrepeat
    have hfirst : FirstRepeat entries entry := ⟨before, after, hsplit, hnodup, hmem⟩
    have hmade : sealedOf entries = .error (.duplicate (Named.name entry)) := by
      rw [sealedOf, herror]
      rfl
    rw [hmade]
    exact {
      ok_iff := ⟨fun h => h.elim fun t h => absurd h (by simp), fun h => absurd h hfirst.not_nodup⟩
      ok := fun t h => by cases h
      error := fun e h => by
        cases h
        exact ⟨entry, hfirst, rfl⟩ }

-- A table keeps its verdict on the entries under another text for it.
theorem Collects.mapError {ε ε' : Type} {entries : List α} {failure : String → ε}
    {made : Except ε (NameTable α)} (h : Collects entries failure made) (f : ε → ε') :
    Collects entries (f ∘ failure) (made.mapError f) := by
  cases made with
  | ok t =>
      refine ⟨by simpa [Except.mapError] using h.ok_iff, fun t' h' => ?_, nofun⟩
      cases h'
      exact h.ok t rfl
  | error e =>
      refine ⟨by simpa [Except.mapError] using h.ok_iff, nofun, fun e' h' => ?_⟩
      obtain ⟨entry, hfirst, rfl⟩ := h.error e rfl
      cases h'
      exact ⟨entry, hfirst, rfl⟩

section Reading

open Json (Reader)

variable {reader : Reader α} {depth : Nat}

-- Reading entries is inserting what they are read as. Only a repeated name is ever in the way.
theorem readEntries_eq {trees : List Json.Tree} {entries : List α}
    (h : List.Forall₂ (fun tree entry => reader depth tree = .ok entry) trees entries)
    (t : NameTable α) : t.readEntries reader depth trees =
      (t.insertAll entries).mapError fun e => .mismatch (.duplicateName e.name) := by
  induction h generalizing t with
  | nil => rfl
  | @cons tree entry trees entries hread hrest ih =>
      cases hinsert : t.insert entry with
      | ok next =>
          simp only [readEntries, insertAll, hread, hinsert, bind, Except.bind]
          exact ih next
      | error e =>
          have hname : e.name = Named.name entry := by
            simp only [NameTable.insert] at hinsert
            split_ifs at hinsert
            all_goals
              cases hinsert
              rfl
          simp only [readEntries, insertAll, hread, hinsert, bind, Except.bind, ← hname]
          rfl

-- A list of entries is read with the same outcome as it is collected.
theorem collects_reader {trees : List Json.Tree} {entries : List α}
    (h : List.Forall₂ (fun tree entry => reader depth tree = .ok entry) trees entries) :
    Collects entries (fun name => .mismatch (.duplicateName name))
      (NameTable.reader reader (depth + 1) (.array trees none)) := by
  have hmade : NameTable.reader reader (depth + 1) (.array trees none) =
      (sealedOf entries).mapError fun e => .mismatch (.duplicateName e.name) := by
    rw [NameTable.reader, Reader.enter, readEntries_eq h, sealedOf]
    cases (empty : NameTable α).insertAll entries <;> rfl
  rw [hmade]
  exact (collects_sealedOf entries).mapError fun e =>
    Json.ReadError.mismatch (.duplicateName e.name)

theorem Built.of_readEntries {trees : List Json.Tree} (h : Built t)
    (hread : t.readEntries reader depth trees = .ok t') : Built t' := by
  induction trees generalizing t with
  | nil =>
      cases hread
      exact h
  | cons tree rest ih =>
      rw [readEntries] at hread
      cases hentry : reader depth tree with
      | error e =>
          rw [hentry] at hread
          cases hread
      | ok entry =>
          rw [hentry] at hread
          simp only [bind, Except.bind] at hread
          split at hread
          · rename_i next hinsert
            exact ih (h.inserted hinsert) hread
          · cases hread

-- Whatever the document, a table that is read was made entry by entry.
theorem Built.of_reader {tree : Json.Tree} (hread : NameTable.reader reader depth tree = .ok t) :
    Built t := by
  unfold NameTable.reader at hread
  split at hread
  · rename_i trees ending
    cases depth with
    | zero => cases hread
    | succ depth =>
        simp only [Reader.enter] at hread
        cases hentries : (empty : NameTable α).readEntries reader depth trees with
        | error e =>
            rw [hentries] at hread
            cases hread
        | ok next =>
            rw [hentries] at hread
            cases ending with
            | some fault => cases hread
            | none =>
                cases hread
                exact (Built.new.of_readEntries hentries).finished
  · unfold Reader.unexpected at hread
    split at hread <;> cases hread

end Reading

section Equality

variable [BEq α] {s : NameTable α}

omit [Named α] in
theorem forall₂_of_beq {as bs : List α} (h : (as == bs) = true) :
    List.Forall₂ (fun a b => (a == b) = true) as bs := by
  induction as generalizing bs with
  | nil =>
      cases bs with
      | nil => exact .nil
      | cons b rest => cases h
  | cons a rest ih =>
      cases bs with
      | nil => cases h
      | cons b rest' =>
          rw [List.cons_beq_cons, Bool.and_eq_true] at h
          exact .cons h.1 (ih h.2)

omit [Named α] [BEq α] in
theorem rel_getElem? {r : α → α → Prop} {as bs : List α} (h : List.Forall₂ r as bs) (place : Nat) :
    Option.Rel r as[place]? bs[place]? := by
  induction h generalizing place with
  | nil => exact .none
  | cons hfirst hrest ih =>
      cases place with
      | zero => exact .some hfirst
      | succ place => exact ih place

theorem exists_named_of_rel (hname : ∀ a b : α, (a == b) = true → Named.name a = Named.name b)
    {x y : Option α} (h : Option.Rel (fun a b => (a == b) = true) x y) :
    (∃ a, x = some a ∧ Named.name a = name) ↔ ∃ b, y = some b ∧ Named.name b = name := by
  cases h with
  | none => simp
  | some hab => simp [hname _ _ hab]

-- Tables that hold equal entries, compared without their indexes, are not told apart by any lookup.
structure Alike (s t : NameTable α) : Prop where
  entries : List.Forall₂ (fun a b => (a == b) = true) s.entries t.entries
  size : s.size = t.size
  contains : ∀ name, s.contains name = t.contains name
  get? : ∀ name, Option.Rel (fun a b => (a == b) = true) (s.get? name) (t.get? name)

theorem alike_of_beq (hname : ∀ a b : α, (a == b) = true → Named.name a = Named.name b)
    (hs : s.Indexed) (ht : t.Indexed) (h : (s == t) = true) : Alike s t := by
  have hentries : List.Forall₂ (fun a b => (a == b) = true) s.entries t.entries :=
    forall₂_of_beq (Bool.and_eq_true_iff.mp h).2
  -- The index of a table follows from the names at its places.
  have hindex : ∀ name, s.index.get? name = t.index.get? name := by
    intro name
    apply Option.ext
    intro place
    rw [hs, ht, exists_named_of_rel hname (rel_getElem? hentries place)]
  refine ⟨hentries, hentries.length_eq, fun name => ?_, fun name => ?_⟩
  · rw [contains, contains, NameMap.contains, NameMap.contains, hindex]
  · rw [get?, get?, hindex]
    cases t.index.get? name with
    | none => exact .none
    | some place => exact rel_getElem? hentries place

end Equality

end NameTable

end Covenant
