import Covenant.Model.NameTable
import Covenant.Proofs.Data.NameMap

namespace Covenant.NameTable

variable {α : Type} [Named α] {t t' : NameTable α}

-- The tables that there are: entries go in one by one until the table is sealed.
inductive Built : NameTable α → Prop
  | new : Built empty
  | inserted {t t' : NameTable α} {entry : α} (h : Built t) (hinsert : t.insert entry = .ok t') :
      Built t'
  | finished {t : NameTable α} (h : Built t) : Built t.toSealed

-- The table as it was before it was sealed.
def opened (t : NameTable α) : NameTable α := ⟨t.entries, t.index, false⟩

omit [Named α] in
theorem toSealed_opened (h : t.isSealed = true) : t.opened.toSealed = t := by
  cases t
  cases h
  rfl

omit [Named α] in
theorem opened_of_not_sealed (h : t.isSealed = false) : t.opened = t := by
  cases t
  cases h
  rfl

-- An entry goes to the end of a table that is not sealed.
theorem insert_eq_ok {entry : α} (h : t.insert entry = .ok t') :
    t.isSealed = false ∧ t'.isSealed = false ∧ t'.entries = t.entries ++ [entry] := by
  simp only [insert] at h
  split_ifs at h with hsealed
  · cases h
    simp [push, hsealed]
  · cases h
    simp [push, hsealed]

theorem insertAll_append (entries more : List α) :
    t.insertAll (entries ++ more) = t.insertAll entries >>= fun t' => t'.insertAll more := by
  induction entries generalizing t with
  | nil => rfl
  | cons entry rest ih =>
      change (t.insert entry >>= fun t' => t'.insertAll (rest ++ more)) =
        (t.insert entry >>= fun t' => t'.insertAll rest) >>= fun t' => t'.insertAll more
      cases t.insert entry with
      | error e => rfl
      | ok next => exact ih

-- A table is what its entries make when they are inserted again.
theorem Built.insertAll_entries (h : Built t) : empty.insertAll t.entries = .ok t.opened := by
  induction h with
  | new => rfl
  | @inserted t t' entry h hinsert ih =>
      obtain ⟨hopen, hopen', hentries⟩ := insert_eq_ok hinsert
      rw [hentries, insertAll_append, ih, opened_of_not_sealed hopen, opened_of_not_sealed hopen']
      change (t.insert entry >>= fun t' => t'.insertAll []) = .ok t'
      rw [hinsert]
      rfl
  | finished h ih => exact ih

theorem Built.of_insertAll {entries : List α} (h : Built t) (hinsert : t.insertAll entries = .ok t') :
    Built t' := by
  induction entries generalizing t with
  | nil =>
      cases hinsert
      exact h
  | cons entry rest ih =>
      cases hfirst : t.insert entry with
      | error e =>
          simp only [insertAll, hfirst, bind, Except.bind] at hinsert
          cases hinsert
      | ok next =>
          simp only [insertAll, hfirst, bind, Except.bind] at hinsert
          exact ih (.inserted h hfirst) hinsert

theorem Built.of_sealedOf {entries : List α} (h : sealedOf entries = .ok t) : Built t := by
  cases hinsert : (empty : NameTable α).insertAll entries with
  | error e =>
      rw [sealedOf, hinsert] at h
      cases h
  | ok next =>
      rw [sealedOf, hinsert] at h
      cases h
      exact (Built.new.of_insertAll hinsert).finished

end Covenant.NameTable
