import Covenant.Proofs.Alias.Family
import Covenant.Proofs.Alias.Merge

namespace Covenant

namespace AliasTable

-- A table that began as the other, and the aliases that it was given since, oldest first.
inductive Since (start : AliasTable) : List AliasName → AliasTable → Prop
  | fork : Since start [] start
  | advance {given : List AliasName} {t : AliasTable} {name : String} {g : Nat}
      (h : Since start given t) (hg : t.current.get? name = some g) (next : Nat) :
      Since start (given ++ [⟨name, next⟩]) (t.set name next)

namespace Since

variable {start t : AliasTable} {given : List AliasName} {name : String}

theorem eq_of_nil (h : Since start [] t) : t = start := by
  generalize hnil : [] = given at h
  cases h with
  | fork => rfl
  | advance h hg next => simp at hnil

theorem history (h : Since start given t) : t.history = start.history ++ given := by
  induction h with
  | fork => simp
  | advance h hg next ih => simp [set, ih]

theorem contains (h : Since start given t) (name : String) :
    t.contains name = start.contains name := by
  induction h with
  | fork => rfl
  | advance h hg next ih =>
      rw [← ih]
      exact contains_set_of_contains (contains_iff.mpr ⟨_, hg⟩) next name

-- A name is current at the newest alias that it was given, or where it was at the start.
theorem current (h : Since start given t) (name : String) :
    (∃ a ∈ given, a.base = name ∧ t.current.get? name = some a.generation) ∨
      (∀ a ∈ given, a.base ≠ name) ∧ t.current.get? name = start.current.get? name := by
  induction h with
  | fork => exact .inr ⟨by simp, rfl⟩
  | @advance given t other g h hg next ih =>
      rw [set, NameMap.get?_insert]
      split_ifs with hname
      · exact .inl ⟨⟨other, next⟩, by simp, hname.symm, rfl⟩
      · rcases ih with ⟨a, ha, hbase, hcurrent⟩ | ⟨hnone, hcurrent⟩
        · exact .inl ⟨a, by simp [ha], hbase, hcurrent⟩
        · refine .inr ⟨List.forall_mem_append.mpr ⟨hnone, ?_⟩, hcurrent⟩
          simpa using Ne.symm hname

end Since

section Forks

variable {start s t : AliasTable} {left right : List AliasName}

theorem mem_difference_of_since (hs : Since start left s) (ht : Since start right t)
    (hnodup : s.history.Nodup) (happart : left.Disjoint right) {a : AliasName} :
    a ∈ s.difference t ↔ a ∈ left := by
  rw [hs.history, List.nodup_append] at hnodup
  rw [mem_difference, hs.history, ht.history, List.mem_append, List.mem_append, not_or]
  constructor
  · rintro ⟨ha | ha, hstart, -⟩
    · exact absurd ha hstart
    · exact ha
  · intro ha
    exact ⟨.inr ha, fun hstart => hnodup.2.2 a hstart a ha rfl, fun hright => happart ha hright⟩

-- What one fork was given is in no other, so its generation is not current there.
theorem get?_ne_of_since (hs : Since start left s) (ht : Since start right t)
    (hnodup : s.history.Nodup) (happart : left.Disjoint right)
    (hcurrent : ∀ name g, t.current.get? name = some g → ⟨name, g⟩ ∈ t.history) {a : AliasName}
    (ha : a ∈ left) : s.current.get? a.base ≠ t.current.get? a.base := by
  intro heq
  rcases hs.current a.base with ⟨b, hb, hbase, hg⟩ | ⟨hnone, -⟩
  · have hmem := hcurrent a.base b.generation (heq ▸ hg)
    rw [← hbase] at hmem
    have hdifference := (mem_difference_of_since hs ht hnodup happart).mpr hb
    exact (mem_difference.mp hdifference).2 hmem
  · exact hnone a ha rfl

theorem history_merge (hs : Since start left s) (ht : Since start right t)
    (hnodup : t.history.Nodup) (happart : left.Disjoint right) :
    s.history ++ t.history.filter (· ∉ s.history) = start.history ++ left ++ right := by
  have hnew : ∀ a ∈ right, a ∉ start.history ∧ a ∉ left := by
    rw [ht.history, List.nodup_append] at hnodup
    exact fun a ha => ⟨fun hstart => hnodup.2.2 a hstart a ha rfl, fun hleft => happart hleft ha⟩
  have hold : start.history.filter (· ∉ s.history) = [] := by
    rw [List.filter_eq_nil_iff]
    intro a ha
    simp [hs.history, ha]
  have hright : right.filter (· ∉ s.history) = right := by
    rw [List.filter_eq_self]
    intro a ha
    simp [hs.history, hnew a ha]
  rw [ht.history, List.filter_append, hold, hright, List.nil_append, hs.history]

-- What the merge of two forks gives: one divergence for each name that either was given an alias of,
-- and both of the new histories.
structure Rejoins (start s t : AliasTable) (left right : List AliasName) (merged : Merged) : Prop where
  current : merged.table.current = s.current
  history : merged.table.history = start.history ++ left ++ right
  order : (merged.divergences.map Divergence.name).Pairwise (· < ·)
  names : ∀ name, name ∈ merged.divergences.map Divergence.name ↔
    name ∈ (left ++ right).map AliasName.base
  aliases : ∀ d ∈ merged.divergences,
    s.get d.name = .ok d.leftAlias ∧ t.get d.name = .ok d.rightAlias

-- Two forks hold a name at one generation exactly where neither was given an alias of it.
theorem get?_ne_iff_of_since (hs : Since start left s) (ht : Since start right t)
    {issued : Issued} (hsound : s.Sound issued) (hsound' : t.Sound issued)
    (happart : left.Disjoint right) {name : String} :
    s.current.get? name ≠ t.current.get? name ↔ name ∈ (left ++ right).map AliasName.base := by
  rw [List.map_append, List.mem_append]
  constructor
  · intro hne
    rcases hs.current name with ⟨a, ha, rfl, -⟩ | ⟨-, hsame⟩
    · exact .inl (List.mem_map_of_mem ha)
    rcases ht.current name with ⟨a, ha, rfl, -⟩ | ⟨-, hsame'⟩
    · exact .inr (List.mem_map_of_mem ha)
    · exact absurd (hsame.trans hsame'.symm) hne
  · rintro (hname | hname)
    · obtain ⟨a, ha, rfl⟩ := List.mem_map.mp hname
      exact get?_ne_of_since hs ht hsound.nodup happart hsound'.current ha
    · obtain ⟨a, ha, rfl⟩ := List.mem_map.mp hname
      have happart' : right.Disjoint left := fun _ hright hleft => happart hleft hright
      exact (get?_ne_of_since ht hs hsound'.nodup happart' hsound.current ha).symm

theorem exists_rejoins (hs : Since start left s) (ht : Since start right t)
    {issued : Issued} (hsound : s.Sound issued) (hsound' : t.Sound issued)
    (happart : left.Disjoint right) :
    ∃ merged, s.merge t = .ok merged ∧ Rejoins start s t left right merged := by
  have hcontains : ∀ name, s.contains name = t.contains name :=
    fun name => (hs.contains name).trans (ht.contains name).symm
  refine ⟨_, merge_of_contains hcontains, rfl, history_merge hs ht hsound'.nodup happart,
    pairwise_divergences s t, fun name => ?_, fun d hd => ?_⟩
  · rw [mem_names_divergences (hcontains name)]
    exact get?_ne_iff_of_since hs ht hsound hsound' happart
  · obtain ⟨hleft, hright, -⟩ := mem_divergences.mp hd
    simp [get, hleft, hright, Divergence.leftAlias, Divergence.rightAlias]

end Forks

end AliasTable

namespace AliasFamily

variable {f : AliasFamily} {start : AliasTable}

-- Advances of tables at their positions, one after the other.
def increments (advances : List (Nat × String)) : List Call :=
  advances.map fun p => .advance p.1 p.2

-- The alias that a call gives to the table at the position, if it gives one.
def given? (f : AliasFamily) (i : Nat) : Call → Option AliasName
  | .advance j name =>
      if j = i then f.tables[i]?.bind fun t => (t.advance f.issued name).toOption.map (·.1) else none
  | .fork _ | .add _ _ | .merge _ _ => none

-- The aliases that the table at the position is given in a run, oldest first.
def given (i : Nat) : AliasFamily → List Call → List AliasName
  | _, [] => []
  | f, call :: rest => (f.given? i call).toList ++ given i (f.step call) rest

theorem given_append (i : Nat) (f : AliasFamily) (calls more : List Call) :
    given i f (calls ++ more) = given i f calls ++ given i (calls.foldl step f) more := by
  induction calls generalizing f with
  | nil => rfl
  | cons call rest ih => simp only [List.cons_append, given, ih, List.append_assoc, List.foldl_cons]

theorem given?_eq_some {i : Nat} {call : Call} {a : AliasName} (h : f.given? i call = some a) :
    ∃ t g, f.tables[i]? = some t ∧ call = .advance i a.base ∧ t.current.get? a.base = some g ∧
      a.generation = (f.issued.get? a.base).getD g + 1 := by
  cases call with
  | advance j name =>
      simp only [given?] at h
      split_ifs at h with hj
      subst hj
      obtain ⟨t, ht, h⟩ := Option.bind_eq_some_iff.mp h
      cases hadvance : t.advance f.issued name with
      | error e => simp [hadvance, Except.toOption] at h
      | ok result =>
          obtain ⟨g, hg, ha, -, -⟩ := AliasTable.advance_eq_ok hadvance
          simp only [hadvance, Except.toOption, Option.map_some, Option.some.injEq] at h
          rw [← h, ha]
          exact ⟨t, g, ht, rfl, hg, rfl⟩
  | fork i => cases h
  | add i name => cases h
  | merge i j => cases h

theorem not_reaches_given (h : f.Inv) {i : Nat} {call : Call} {a : AliasName}
    (ha : f.given? i call = some a) : ¬f.issued.Reaches a := by
  obtain ⟨t, g, ht, -, hg, hgeneration⟩ := given?_eq_some ha
  obtain ⟨newest, hnewest⟩ := (h.tables t (List.mem_of_getElem? ht)).exists_newest hg
  rw [hnewest, Option.getD_some] at hgeneration
  obtain ⟨base, generation⟩ := a
  subst hgeneration
  exact Issued.not_reaches_succ hnewest

theorem given?_of_ne {i j : Nat} (h : j ≠ i) (name : String) :
    f.given? i (.advance j name) = none := if_neg h

theorem step_advance {i : Nat} {t : AliasTable} (ht : f.tables[i]? = some t) (name : String) :
    f.step (.advance i name) = f.issue i true (t.advance f.issued name) := by
  simp only [step, ht]

theorem given?_advance {i : Nat} {t : AliasTable} (ht : f.tables[i]? = some t) (name : String) :
    f.given? i (.advance i name) = (t.advance f.issued name).toOption.map (·.1) := by
  simp [given?, ht]

-- An advance of the table at the position, or of another.
theorem since_advance {i : Nat} {t : AliasTable} {given : List AliasName} (ht : f.tables[i]? = some t)
    (h : start.Since given t) (j : Nat) (name : String) :
    ∃ t', (f.step (.advance j name)).tables[i]? = some t' ∧
      start.Since (given ++ (f.given? i (.advance j name)).toList) t' := by
  by_cases hj : j = i
  · subst hj
    rw [step_advance ht, given?_advance ht]
    cases hg : t.current.get? name with
    | none =>
        rw [AliasTable.advance_of_none hg]
        exact ⟨t, ht, by simpa [Except.toOption] using h⟩
    | some g =>
        rw [AliasTable.advance_of_get? hg]
        have hlt := (List.getElem?_eq_some_iff.mp ht).1
        exact ⟨_, List.getElem?_set_self hlt, h.advance hg _⟩
  · refine ⟨t, ?_, by simpa [given?_of_ne hj] using h⟩
    simp only [step]
    split
    · unfold issue
      split
      · simpa [List.getElem?_set_ne hj] using ht
      · exact ht
    · exact ht

-- Two tables of the family began as the same one, and were given different aliases since.
structure Forked (f : AliasFamily) (start : AliasTable) (i j : Nat) (left right : List AliasName) :
    Prop where
  inv : f.Inv
  apart : left.Disjoint right
  left : ∃ s, f.tables[i]? = some s ∧ start.Since left s
  right : ∃ t, f.tables[j]? = some t ∧ start.Since right t

namespace Forked

variable {i j : Nat} {left right : List AliasName}

theorem symm (h : f.Forked start i j left right) : f.Forked start j i right left :=
  ⟨h.inv, fun _ hright hleft => h.apart hleft hright, h.right, h.left⟩

-- What is given now was not given before.
theorem not_mem_of_given (h : f.Forked start i j left right) {k : Nat} {call : Call} {a : AliasName}
    (ha : f.given? k call = some a) : a ∉ left := by
  obtain ⟨s, hs, hsince⟩ := h.left
  intro hmem
  refine not_reaches_given h.inv ha ((h.inv.tables s (List.mem_of_getElem? hs)).reached a ?_)
  rw [hsince.history]
  exact List.mem_append_right _ hmem

theorem advance (h : f.Forked start i j left right) (hne : i ≠ j) (k : Nat) (name : String) :
    (f.step (.advance k name)).Forked start i j
      (left ++ (f.given? i (.advance k name)).toList)
      (right ++ (f.given? j (.advance k name)).toList) where
  inv := h.inv.step _
  apart := by
    intro a hleft hright
    rw [List.mem_append, Option.mem_toList] at hleft hright
    rcases hleft with hleft | hleft <;> rcases hright with hright | hright
    · exact h.apart hleft hright
    · exact h.not_mem_of_given hright hleft
    · exact h.symm.not_mem_of_given hleft hright
    · obtain ⟨-, -, -, hcall, -⟩ := given?_eq_some hleft
      obtain ⟨-, -, -, hcall', -⟩ := given?_eq_some hright
      exact hne (Call.advance.inj (hcall.symm.trans hcall')).1
  left := h.left.elim fun _ hs => since_advance hs.1 hs.2 k name
  right := h.right.elim fun _ ht => since_advance ht.1 ht.2 k name

theorem increments (h : f.Forked start i j left right) (hne : i ≠ j)
    (advances : List (Nat × String)) :
    ((increments advances).foldl step f).Forked start i j
      (left ++ given i f (AliasFamily.increments advances))
      (right ++ given j f (AliasFamily.increments advances)) := by
  induction advances generalizing f left right with
  | nil => simpa [AliasFamily.increments, given] using h
  | cons p rest ih =>
      have hrest := ih (h.advance hne p.1 p.2)
      rw [List.append_assoc, List.append_assoc] at hrest
      exact hrest

end Forked

-- The names that the table at the position is asked to advance.
def requested (i : Nat) (advances : List (Nat × String)) : List String :=
  (advances.filter (·.1 = i)).map (·.2)

theorem map_base_given? {i : Nat} {t : AliasTable} (ht : f.tables[i]? = some t) (p : Nat × String) :
    (f.given? i (.advance p.1 p.2)).toList.map AliasName.base =
      (requested i [p]).filter t.contains := by
  by_cases hp : p.1 = i
  · rw [← hp] at ht ⊢
    rw [given?_advance ht]
    cases hg : t.current.get? p.2 with
    | none =>
        have hcontains : t.contains p.2 = false := by simp [AliasTable.contains, NameMap.contains, hg]
        simp [AliasTable.advance_of_none hg, Except.toOption, requested, hcontains]
    | some g =>
        have hcontains : t.contains p.2 = true := AliasTable.contains_iff.mpr ⟨g, hg⟩
        simp [AliasTable.advance_of_get? hg, Except.toOption, requested, hcontains]
  · simp [given?_of_ne hp, requested, hp]

-- Every advance of a registered name succeeds, and no other.
theorem map_base_given {i : Nat} {t : AliasTable} {old : List AliasName} (ht : f.tables[i]? = some t)
    (h : start.Since old t) (advances : List (Nat × String)) :
    (given i f (increments advances)).map AliasName.base =
      (requested i advances).filter start.contains := by
  induction advances generalizing f t old with
  | nil => rfl
  | cons p rest ih =>
      obtain ⟨t', ht', hsince⟩ := since_advance ht h p.1 p.2
      have hrest := ih ht' hsince
      have hone := map_base_given? ht p
      rw [show t.contains = start.contains from funext h.contains] at hone
      have hrequested : requested i (p :: rest) = requested i [p] ++ requested i rest := by
        simp only [requested, ← List.map_append, ← List.filter_append, List.singleton_append]
      rw [hrequested, List.filter_append, ← hone, ← hrest, ← List.map_append]
      rfl

theorem given_eq_nil {i : Nat} {advances : List (Nat × String)} (h : ∀ p ∈ advances, p.1 ≠ i) :
    given i f (increments advances) = [] := by
  induction advances generalizing f with
  | nil => rfl
  | cons p rest ih =>
      rw [List.forall_mem_cons] at h
      simp only [increments, List.map_cons, given, given?_of_ne h.1]
      exact ih h.2

theorem length_step_advance (f : AliasFamily) (i : Nat) (name : String) :
    (f.step (.advance i name)).tables.length = f.tables.length := by
  simp only [step]
  split
  · unfold issue
    split
    · exact List.length_set
    · rfl
  · rfl

theorem length_increments (f : AliasFamily) (advances : List (Nat × String)) :
    ((increments advances).foldl step f).tables.length = f.tables.length := by
  induction advances generalizing f with
  | nil => rfl
  | cons p rest ih => exact (ih _).trans (f.length_step_advance p.1 p.2)

-- Nothing is given to a table that is not there.
theorem given_of_length_le {i : Nat} (h : f.tables.length ≤ i) (advances : List (Nat × String)) :
    given i f (increments advances) = [] := by
  induction advances generalizing f with
  | nil => rfl
  | cons p rest ih =>
      have hnone : f.given? i (.advance p.1 p.2) = none := by
        simp [given?, List.getElem?_eq_none h]
      simp only [increments, List.map_cons, given, hnone]
      exact ih (by rwa [length_step_advance])

-- A table is forked, tables are advanced, it is forked again, and tables are advanced.
def forkTwice (i : Nat) (between after : List (Nat × String)) : List Call :=
  .fork i :: increments between ++ .fork i :: increments after

theorem step_fork {i : Nat} {t : AliasTable} (ht : f.tables[i]? = some t) :
    f.step (.fork i) = ⟨f.tables ++ [t], f.issued, f.log⟩ := by
  simp only [step, ht]

-- What becomes of the two forks: the first is opened, tables are advanced, and the second is opened
-- from the table as it was.
theorem exists_phases (h : f.Inv) {i : Nat} (ht : f.tables[i]? = some start)
    {between : List (Nat × String)} (hbetween : ∀ p ∈ between, p.1 ≠ i)
    (after : List (Nat × String)) : ∃ opened : AliasFamily,
      (f.step (.fork i)).Forked start f.tables.length i [] [] ∧
      (opened.step (.fork i)).Forked start f.tables.length (f.tables.length + 1)
        (given f.tables.length (f.step (.fork i)) (increments between)) [] ∧
      (forkTwice i between after).foldl step f =
        (increments after).foldl step (opened.step (.fork i)) ∧
      given f.tables.length f (forkTwice i between after) =
        given f.tables.length (f.step (.fork i)) (increments between) ++
          given f.tables.length (opened.step (.fork i)) (increments after) ∧
      given (f.tables.length + 1) f (forkTwice i between after) =
        given (f.tables.length + 1) (opened.step (.fork i)) (increments after) := by
  have hlt := (List.getElem?_eq_some_iff.mp ht).1
  have hfirst : (f.step (.fork i)).Forked start f.tables.length i [] [] := by
    refine ⟨h.step _, List.disjoint_nil_left _, ⟨start, ?_, .fork⟩, ⟨start, ?_, .fork⟩⟩
    · simp [step_fork ht]
    · simpa [step_fork ht, List.getElem?_append_left hlt] using ht
  have hopen := hfirst.increments (by omega) between
  rw [given_eq_nil hbetween, List.nil_append, List.nil_append] at hopen
  generalize hopened : (increments between).foldl step (f.step (.fork i)) = opened at hopen
  have hlength : opened.tables.length = f.tables.length + 1 := by
    rw [← hopened, length_increments, step_fork ht]
    simp
  have hgiven : ∀ k, given k f (forkTwice i between after) =
      given k (f.step (.fork i)) (increments between) ++
        given k (opened.step (.fork i)) (increments after) := by
    intro k
    rw [forkTwice, given_append, ← hopened]
    rfl
  have hnothing : given (f.tables.length + 1) (f.step (.fork i)) (increments between) = [] :=
    given_of_length_le (by simp [step_fork ht]) between
  obtain ⟨t, ht', hsince⟩ := hopen.right
  obtain rfl := hsince.eq_of_nil
  refine ⟨opened, hfirst, ?_, ?_, hgiven _, ?_⟩
  · obtain ⟨s, hs, hsince⟩ := hopen.left
    refine ⟨hopen.inv.step _, List.disjoint_nil_right _, ⟨s, ?_, hsince⟩, ⟨t, ?_, .fork⟩⟩
    · rwa [step_fork ht', List.getElem?_append_left (by omega)]
    · simp [step_fork ht', ← hlength]
  · rw [forkTwice, List.foldl_append, List.foldl_cons, List.foldl_cons, hopened]
  · rw [hgiven, hnothing, List.nil_append]

-- Two forks of a table, advanced in any interleaving with each other and with the other tables of
-- their family, differ in what each was given since, and merge into a table that has all of it. Any
-- two tables that do not merge are over different names, and the error tells them.
theorem forks_rejoin (calls : List Call) {i : Nat} {start : AliasTable}
    (hstart : (run calls).tables[i]? = some start) (between after : List (Nat × String))
    (hbetween : ∀ p ∈ between, p.1 ≠ i) :
    (∃ s t merged left right,
      (run (calls ++ forkTwice i between after)).tables[(run calls).tables.length]? = some s ∧
      (run (calls ++ forkTwice i between after)).tables[(run calls).tables.length + 1]? = some t ∧
      left = given (run calls).tables.length (run calls) (forkTwice i between after) ∧
      right = given ((run calls).tables.length + 1) (run calls) (forkTwice i between after) ∧
      left.map AliasName.base =
        (requested (run calls).tables.length (between ++ after)).filter start.contains ∧
      right.map AliasName.base =
        (requested ((run calls).tables.length + 1) after).filter start.contains ∧
      (s.difference t).Pairwise (fun a b => a.before b = true) ∧
      (∀ a, a ∈ s.difference t ↔ a ∈ left) ∧
      s.merge t = .ok merged ∧ AliasTable.Rejoins start s t left right merged) ∧
    ∀ s t : AliasTable,
      ((∃ error, s.merge t = .error error) ↔ ∃ name, s.contains name ≠ t.contains name) ∧
      ∀ error, s.merge t = .error error →
        ∃ onlyLeft onlyRight, error = .mismatchedNames onlyLeft onlyRight ∧
          onlyLeft.Pairwise (· < ·) ∧ onlyRight.Pairwise (· < ·) ∧
          (∀ name, name ∈ onlyLeft ↔ s.contains name = true ∧ t.contains name = false) ∧
          ∀ name, name ∈ onlyRight ↔ t.contains name = true ∧ s.contains name = false := by
  refine ⟨?_, fun s t => ⟨?_, fun error herror => ?_⟩⟩
  · have hinv : (run calls).Inv := Inv.root.foldl calls
    obtain ⟨opened, hfirst, hsecond, hrun, hleft, hright⟩ :=
      exists_phases hinv hstart hbetween after
    have hforked := hsecond.increments (by omega) after
    rw [← hleft, List.nil_append, ← hright, ← hrun, run, ← List.foldl_append, ← run] at hforked
    obtain ⟨s, hs, hsince⟩ := hforked.left
    obtain ⟨t, ht, hsince'⟩ := hforked.right
    have hsound := hforked.inv.tables s (List.mem_of_getElem? hs)
    have hsound' := hforked.inv.tables t (List.mem_of_getElem? ht)
    obtain ⟨merged, hmerged, hrejoins⟩ :=
      AliasTable.exists_rejoins hsince hsince' hsound hsound' hforked.apart
    refine ⟨s, t, merged, _, _, hs, ht, rfl, rfl, ?_, ?_, s.pairwise_difference t, fun a => ?_,
      hmerged, hrejoins⟩
    · obtain ⟨s₁, hs₁, hsince₁⟩ := hfirst.left
      obtain ⟨s₂, hs₂, hsince₂⟩ := hsecond.left
      rw [hleft, List.map_append, map_base_given hs₁ hsince₁, map_base_given hs₂ hsince₂,
        ← List.filter_append, requested, requested, requested, ← List.map_append,
        ← List.filter_append]
    · obtain ⟨t₂, ht₂, hsince₂⟩ := hsecond.right
      rw [hright, map_base_given ht₂ hsince₂]
    · exact AliasTable.mem_difference_of_since hsince hsince' hsound.nodup hforked.apart
  · simp only [AliasTable.merge_eq_error, exists_and_left, exists_eq, and_true]
  · obtain ⟨-, rfl⟩ := AliasTable.merge_eq_error.mp herror
    exact ⟨_, _, rfl, AliasTable.pairwise_namesOnlyIn s t, AliasTable.pairwise_namesOnlyIn t s,
      fun name => AliasTable.mem_namesOnlyIn, fun name => AliasTable.mem_namesOnlyIn⟩

-- Both forks advance x, only the first advances y, and neither has a name z. A third table and the
-- first one of all draw on the counter in between.
theorem forks_rejoin_crossed :
    (∃ s t merged,
      (run ([.add 0 "x", .add 0 "y", .fork 0, .advance 1 "x"] ++ forkTwice 0 [(2, "x"), (1, "y")]
        [(3, "x"), (2, "y"), (0, "x"), (2, "x"), (3, "z")])).tables[2]? = some s ∧
      (∀ a, a ∈ s.difference t ↔ a ∈ [⟨"x", 2⟩, ⟨"y", 2⟩, ⟨"x", 5⟩]) ∧
      s.merge t = .ok merged ∧
      merged.table.history = [⟨"x", 0⟩, ⟨"y", 0⟩, ⟨"x", 2⟩, ⟨"y", 2⟩, ⟨"x", 5⟩, ⟨"x", 3⟩] ∧
      ∀ name, name ∈ merged.divergences.map Divergence.name ↔ name ∈ ["x", "y", "x", "x"]) ∧
    ∃ onlyLeft onlyRight,
      AliasTable.merge ⟨.ofList [("x", 0)], [⟨"x", 0⟩]⟩ ⟨.ofList [("y", 0)], [⟨"y", 0⟩]⟩ =
      .error (.mismatchedNames onlyLeft onlyRight) ∧ onlyLeft.Pairwise (· < ·) := by
  have hstart : (run [.add 0 "x", .add 0 "y", .fork 0, .advance 1 "x"]).tables[0]? =
      some ⟨.ofList [("x", 0), ("y", 0)], [⟨"x", 0⟩, ⟨"y", 0⟩]⟩ := by decide +kernel
  have h := forks_rejoin _ hstart [(2, "x"), (1, "y")]
    [(3, "x"), (2, "y"), (0, "x"), (2, "x"), (3, "z")] (by decide)
  obtain ⟨⟨s, t, merged, left, right, hs, -, hleft, hright, -, -, -, hdifference, hmerged, hrejoins⟩,
    hmismatch⟩ := h
  have hleft' : left = [⟨"x", 2⟩, ⟨"y", 2⟩, ⟨"x", 5⟩] := hleft.trans (by decide +kernel)
  have hright' : right = [⟨"x", 3⟩] := hright.trans (by decide +kernel)
  have hlength : (run [.add 0 "x", .add 0 "y", .fork 0, .advance 1 "x"]).tables.length = 2 := by
    decide +kernel
  have hnames := hrejoins.names
  have hhistory := hrejoins.history
  rw [hleft'] at hdifference hnames hhistory
  rw [hright'] at hnames hhistory
  rw [hlength] at hs
  refine ⟨⟨s, t, merged, hs, hdifference, hmerged, hhistory, hnames⟩, ?_⟩
  obtain ⟨hfails, herror⟩ := hmismatch ⟨.ofList [("x", 0)], [⟨"x", 0⟩]⟩
    ⟨.ofList [("y", 0)], [⟨"y", 0⟩]⟩
  obtain ⟨error, hmerge⟩ := hfails.mpr ⟨"x", by decide⟩
  obtain ⟨onlyLeft, onlyRight, rfl, hordered, -⟩ := herror error hmerge
  exact ⟨onlyLeft, onlyRight, hmerge, hordered⟩

end AliasFamily

end Covenant
