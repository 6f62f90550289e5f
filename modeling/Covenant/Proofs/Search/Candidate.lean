import Covenant.Proofs.Search.Window
import Covenant.Search.Cursor

namespace Covenant.Search

-- The candidates

-- Every choice of one value for each symbol. The value of the first symbol changes fastest.
def candidates (choice : TermSort → List Scalar) : List Symbol → List Env
  | [] => [[]]
  | s :: free =>
      (candidates choice free).flatMap fun env => (choice s.sort).map fun v => (s.name, v) :: env

theorem mem_candidates {choice : TermSort → List Scalar} {free : List Symbol} {env : Env} :
    env ∈ candidates choice free ↔
      List.Forall₂ (fun s entry => entry.1 = s.name ∧ entry.2 ∈ choice s.sort) free env := by
  induction free generalizing env with
  | nil => simp [candidates]
  | cons s free ih =>
      simp only [candidates, List.mem_flatMap, List.mem_map, ih, List.forall₂_cons_left_iff]
      constructor
      · rintro ⟨rest, hrest, v, hv, rfl⟩
        exact ⟨(s.name, v), rest, ⟨rfl, hv⟩, hrest, rfl⟩
      · rintro ⟨⟨name, v⟩, rest, ⟨rfl, hv⟩, hrest, rfl⟩
        exact ⟨rest, hrest, v, hv, rfl⟩

theorem map_fst_of_mem_candidates {choice : TermSort → List Scalar} {free : List Symbol} {env : Env}
    (h : env ∈ candidates choice free) : env.map Prod.fst = free.map (·.name) := by
  rw [mem_candidates] at h
  induction h with
  | nil => rfl
  | cons hentry _ ih => rw [List.map_cons, List.map_cons, hentry.1, ih]

theorem exists_of_mem_candidates {choice : TermSort → List Scalar} {free : List Symbol} {env : Env}
    (h : env ∈ candidates choice free) {entry : String × Scalar} (hentry : entry ∈ env) :
    ∃ s ∈ free, s.name = entry.1 ∧ entry.2 ∈ choice s.sort := by
  rw [mem_candidates] at h
  induction h with
  | nil => cases hentry
  | cons hfirst _ ih =>
      rcases List.mem_cons.mp hentry with rfl | hentry
      · exact ⟨_, List.mem_cons_self, hfirst.1.symm, hfirst.2⟩
      · obtain ⟨s, hs, hchoice⟩ := ih hentry
        exact ⟨s, List.mem_cons_of_mem _ hs, hchoice⟩

def candidateCount (radius : UInt32) (seeds : List Int64) (free : List Symbol) : Nat :=
  (free.map fun s => domainSize radius seeds s.sort).foldr (· * ·) 1

theorem length_candidates (radius : UInt32) (f : Formula) (free : List Symbol) :
    (candidates (values radius f) free).length = candidateCount radius (seeds radius f) free := by
  induction free with
  | nil => rfl
  | cons s free ih =>
      rw [candidates, List.length_flatMap]
      simp only [List.length_map, List.map_const', List.sum_replicate_nat, ih, length_values]
      exact Nat.mul_comm _ _

namespace Cursor

-- What the cursor goes through: the candidate that it stands at, and those that it moves on to.
inductive Visits : Cursor → List Env → Prop
  | last {slots : Cursor} (h : slots.advance? = none) : Visits slots [slots.candidate]
  | next {slots next : Cursor} {envs : List Env} (h : slots.advance? = some next)
      (hrest : Visits next envs) : Visits slots (slots.candidate :: envs)

theorem Visits.length_pos {slots : Cursor} {envs : List Env} (h : slots.Visits envs) :
    0 < envs.length := by cases h <;> simp

-- The candidates from this one on: first those that differ from it in the first slot only, then for
-- each move of the others all values of that slot.
def following : Cursor → List Env
  | [] => [[]]
  | slot :: rest =>
      (slot.values.toList.drop slot.position).map (fun v => (slot.symbol.name, v) :: candidate rest) ++
        (following rest).tail.flatMap fun env =>
          slot.values.toList.map fun v => (slot.symbol.name, v) :: env

theorem drop_position (slot : Slot) : slot.values.toList.drop slot.position =
    slot.value :: slot.values.toList.drop (slot.position + 1) := by
  rw [List.drop_eq_getElem_cons (by simp)]
  rfl

theorem following_eq_cons (slots : Cursor) :
    following slots = candidate slots :: (following slots).tail := by
  cases slots with
  | nil => rfl
  | cons slot rest =>
      rw [following, drop_position]
      rfl

theorem following_rewind (slot : Slot) (rest : Cursor) : following (slot.rewind :: rest) =
    (following rest).flatMap fun env =>
      slot.values.toList.map fun v => (slot.symbol.name, v) :: env := by
  rw [following_eq_cons rest]
  rfl

-- A step of the cursor leaves out the candidate that it stands at, and no other.
theorem following_advance? (slots : Cursor) :
    (following slots).tail = (slots.advance?.map following).getD [] := by
  induction slots with
  | nil => rfl
  | cons slot rest ih =>
      rw [following, drop_position, List.map_cons, List.cons_append, List.tail_cons, advance?,
        Slot.next?]
      split_ifs with hlast
      · rfl
      · have hnone : slot.values.toList.drop (slot.position + 1) = [] :=
          List.drop_eq_nil_of_le (by simpa using hlast)
        rw [hnone, ih]
        cases advance? rest with
        | none => rfl
        | some others => exact (following_rewind slot others).symm

theorem visits_following (slots : Cursor) : slots.Visits (following slots) := by
  rw [following_eq_cons, following_advance?]
  cases h : slots.advance? with
  | none => exact .last h
  | some next => exact .next h (visits_following next)
termination_by slots.remaining
decreasing_by
  rw [remaining_of_advance? h]
  exact Nat.lt_succ_self _

-- From the first values on, the cursor goes through all candidates.
theorem visits_start (radius : UInt32) (f : Formula) (free : List Symbol) :
    (start radius (seeds radius f) free).Visits (candidates (values radius f) free) := by
  have hfollowing : following (start radius (seeds radius f) free) =
      candidates (values radius f) free := by
    induction free with
    | nil => rfl
    | cons s free ih =>
        rw [candidates, ← ih, ← domain_eq_values]
        exact following_rewind (.first s _ (domain_ne_nil radius (seeds radius f) s.sort)) _
  rw [← hfollowing]
  exact visits_following _

-- The budget

-- The number of candidates, without bounds.
def count (slots : Cursor) : Nat := (slots.map (·.values.size)).foldr (· * ·) 1

theorem count_pos (slots : Cursor) : 0 < count slots := by
  induction slots with
  | nil => exact Nat.one_pos
  | cons slot rest ih => exact Nat.mul_pos slot.position.pos ih

theorem toNat_times? {total product : UInt64} {size : Nat} (h : times? total size = some product) :
    product.toNat = total.toNat * size := by
  simp only [times?, Option.ite_none_right_eq_some, Option.some.injEq] at h
  obtain ⟨hfits, rfl⟩ := h
  rw [UInt64.toNat_mul, UInt64.toNat_ofNat', Nat.mul_mod_mod, Nat.mod_eq_of_lt hfits]

-- A product that does not have 64 bits does not get them back, since no slot is without values.
theorem map_toNat_foldlM (slots : Cursor) (total : UInt64) :
    (slots.foldlM (fun total slot => times? total slot.values.size) total).map UInt64.toNat =
      if total.toNat * count slots < UInt64.size then some (total.toNat * count slots) else none := by
  induction slots generalizing total with
  | nil =>
      have hlt := total.toNat_lt_size
      simp [count, hlt]
  | cons slot rest ih =>
      have hcount : total.toNat * count (slot :: rest) =
          total.toNat * slot.values.size * count rest := (Nat.mul_assoc _ _ _).symm
      rw [List.foldlM_cons, hcount]
      cases hproduct : times? total slot.values.size with
      | some product =>
          rw [← toNat_times? hproduct]
          exact ih product
      | none =>
          have hover : UInt64.size ≤ total.toNat * slot.values.size := by
            simpa [times?] using hproduct
          have hrest := Nat.le_mul_of_pos_right (total.toNat * slot.values.size) (count_pos rest)
          rw [if_neg (by omega)]
          rfl

-- The test is that of the number without bounds.
theorem fits_iff_count (slots : Cursor) (budget : UInt64) :
    slots.fits budget = true ↔ count slots ≤ budget.toNat := by
  have htotal := map_toNat_foldlM slots 1
  rw [UInt64.toNat_one, Nat.one_mul, ← total?] at htotal
  have hbudget := budget.toNat_lt_size
  unfold fits
  cases htotal' : slots.total? with
  | some total =>
      rw [htotal', Option.map_some] at htotal
      split_ifs at htotal
      rw [decide_eq_true_iff, UInt64.le_iff_toNat_le, Option.some.inj htotal]
  | none =>
      rw [htotal', Option.map_none] at htotal
      split_ifs at htotal with hfits
      simp
      omega

theorem count_start (radius : UInt32) (f : Formula) (free : List Symbol) :
    count (start radius (seeds radius f) free) = (candidates (values radius f) free).length := by
  have hsize : ∀ s : Symbol, (Slot.first s (domain radius (seeds radius f) s.sort)
      (domain_ne_nil radius (seeds radius f) s.sort)).values.size =
        domainSize radius (seeds radius f) s.sort := by
    intro s
    rw [Slot.first, List.size_toArray, domain_eq_values, length_values]
  rw [length_candidates, count, start, List.map_map, candidateCount]
  exact congrArg (List.foldr (· * ·) 1) (List.map_congr_left fun s _ => hsize s)

end Cursor

end Covenant.Search
