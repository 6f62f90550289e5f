import Covenant.Proofs.Alias.Table
import Mathlib.Data.List.Nodup

namespace Covenant

-- An alias that was handed out, and whether it registers its name or advances it.
structure Issue where
  given : AliasName
  advances : Bool
  deriving DecidableEq, Repr

-- The live tables that descend from one root, the counter that they share, and what they have handed
-- out, oldest first.
structure AliasFamily where
  tables : List AliasTable
  issued : Issued
  log : List Issue
  deriving DecidableEq, Repr

namespace AliasFamily

def root : AliasFamily := ⟨[.empty], .empty, []⟩

-- A call on the tables at these positions.
inductive Call
  | fork (i : Nat)
  | add (i : Nat) (name : String)
  | advance (i : Nat) (name : String)
  | merge (i j : Nat)
  deriving DecidableEq, Repr

-- The table at the position takes the place of the old one if the call succeeds.
def issue (f : AliasFamily) (i : Nat) (advances : Bool)
    (result : Except AliasError (AliasName × AliasTable × Issued)) : AliasFamily :=
  match result with
  | .ok (a, t, issued) => ⟨f.tables.set i t, issued, f.log ++ [⟨a, advances⟩]⟩
  | .error _ => f

-- A merge takes both tables, also when it fails.
def absorb (f : AliasFamily) (i j : Nat) (result : Except AliasError Merged) : AliasFamily :=
  let rest := (f.tables.eraseIdx (max i j)).eraseIdx (min i j)
  match result with
  | .ok merged => ⟨merged.table :: rest, f.issued, f.log⟩
  | .error _ => ⟨rest, f.issued, f.log⟩

-- Nothing happens where there is no such table.
def step (f : AliasFamily) : Call → AliasFamily
  | .fork i =>
      match f.tables[i]? with
      | some t => ⟨f.tables ++ [t], f.issued, f.log⟩
      | none => f
  | .add i name =>
      match f.tables[i]? with
      | some t => f.issue i false (t.add f.issued name)
      | none => f
  | .advance i name =>
      match f.tables[i]? with
      | some t => f.issue i true (t.advance f.issued name)
      | none => f
  | .merge i j =>
      match f.tables[i]?, f.tables[j]? with
      | some left, some right => if i = j then f else f.absorb i j (left.merge right)
      | _, _ => f

def run (calls : List Call) : AliasFamily := calls.foldl step root

-- How often a name was advanced, on any table.
def advances (f : AliasFamily) (name : String) : Nat :=
  f.log.countP fun issue => issue.advances && issue.given.base = name

end AliasFamily

-- The counter has reached the alias.
def Issued.Reaches (issued : Issued) (a : AliasName) : Prop :=
  ∃ newest, issued.get? a.base = some newest ∧ a.generation ≤ newest

-- The counter with a count for the name.
def Issued.register (issued : Issued) (name : String) : Issued :=
  if NameMap.contains issued name then issued else NameMap.insert issued name 0

-- A table holds its aliases once each, those that are current among them, and none that the counter
-- has not reached.
structure AliasTable.Sound (issued : Issued) (t : AliasTable) : Prop where
  current : ∀ name g, t.current.get? name = some g → ⟨name, g⟩ ∈ t.history
  registered : ∀ a ∈ t.history, ∃ g, t.current.get? a.base = some g
  nodup : t.history.Nodup
  reached : ∀ a ∈ t.history, issued.Reaches a

namespace Issued

variable {issued : Issued} {a : AliasName} {name : String}

theorem Reaches.insert {newest : Nat} (h : issued.Reaches a)
    (hnewest : ∀ n, issued.get? name = some n → n ≤ newest) :
    Reaches (NameMap.insert issued name newest) a := by
  obtain ⟨n, hn, hle⟩ := h
  by_cases hbase : a.base = name
  · have hn' : n ≤ newest := hnewest n (hbase ▸ hn)
    exact ⟨newest, by rw [hbase, NameMap.get?_insert_self], by omega⟩
  · exact ⟨n, by rw [NameMap.get?_insert_of_ne _ _ hbase, hn], hle⟩

theorem Reaches.register (h : issued.Reaches a) (name : String) :
    (issued.register name).Reaches a := by
  unfold Issued.register
  split
  · exact h
  · rename_i hcontains
    refine h.insert fun n hn => absurd ?_ hcontains
    exact (NameMap.contains_iff _ _).mpr ⟨n, hn⟩

theorem reaches_register (issued : Issued) (name : String) :
    (issued.register name).Reaches ⟨name, 0⟩ := by
  unfold register
  split
  · rename_i hcontains
    obtain ⟨newest, hnewest⟩ := (NameMap.contains_iff _ _).mp hcontains
    exact ⟨newest, hnewest, Nat.zero_le _⟩
  · exact ⟨0, NameMap.get?_insert_self _ _ _, Nat.le_refl _⟩

-- The generation after the newest is one that no table has.
theorem not_reaches_succ {newest : Nat} (h : issued.get? name = some newest) :
    ¬issued.Reaches ⟨name, newest + 1⟩ := by
  rintro ⟨n, hn, hle⟩
  have heq : newest = n := Option.some.inj (h.symm.trans hn)
  simp only at hle
  omega

end Issued

namespace AliasTable

variable {t left right : AliasTable} {issued issued' : Issued} {name : String} {a : AliasName}
variable {t' : AliasTable} {merged : Merged}

theorem add_eq_ok (h : t.add issued name = .ok (a, t', issued')) :
    t.current.get? name = none ∧ a = ⟨name, 0⟩ ∧ t' = t.set name 0 ∧
      issued' = issued.register name := by
  unfold add at h
  split at h
  · cases h
  · rename_i hcontains
    cases h
    refine ⟨?_, rfl, rfl, rfl⟩
    rw [contains, NameMap.contains, Bool.not_eq_true, Option.isSome_eq_false_iff,
      Option.isNone_iff_eq_none] at hcontains
    exact hcontains

theorem advance_eq_ok (h : t.advance issued name = .ok (a, t', issued')) :
    ∃ g, t.current.get? name = some g ∧ a = ⟨name, (NameMap.get? issued name).getD g + 1⟩ ∧
      t' = t.set name a.generation ∧ issued' = NameMap.insert issued name a.generation := by
  unfold advance at h
  split at h
  · cases h
  · rename_i g hg
    cases h
    exact ⟨g, hg, rfl, rfl, rfl⟩

namespace Sound

theorem empty (issued : Issued) : AliasTable.empty.Sound issued where
  current := by simp [AliasTable.empty]
  registered := by simp [AliasTable.empty]
  nodup := List.nodup_nil
  reached := by simp [AliasTable.empty]

theorem mono (h : t.Sound issued) (hissued : ∀ a, issued.Reaches a → issued'.Reaches a) :
    t.Sound issued' :=
  ⟨h.current, h.registered, h.nodup, fun a ha => hissued a (h.reached a ha)⟩

-- A registered name has a place in the counter.
theorem exists_newest (h : t.Sound issued) {g : Nat} (hg : t.current.get? name = some g) :
    ∃ newest, issued.get? name = some newest := by
  obtain ⟨newest, hnewest, -⟩ := h.reached _ (h.current name g hg)
  exact ⟨newest, hnewest⟩

-- An alias that the table does not have yet may become current.
theorem set {g : Nat} (h : t.Sound issued) (hnew : ⟨name, g⟩ ∉ t.history)
    (hreached : issued.Reaches ⟨name, g⟩) : (t.set name g).Sound issued where
  current := fun other g' hg' => by
    simp only [AliasTable.set, NameMap.get?_insert] at hg' ⊢
    split at hg'
    · rename_i hother
      cases hg'
      simp [hother]
    · exact List.mem_append_left _ (h.current other g' hg')
  registered := fun a ha => by
    simp only [AliasTable.set, NameMap.get?_insert] at ha ⊢
    split
    · exact ⟨g, rfl⟩
    · rename_i hbase
      rcases List.mem_append.mp ha with ha | ha
      · exact h.registered a ha
      · exact absurd (congrArg AliasName.base (List.mem_singleton.mp ha)) hbase
  nodup := by
    have hdisjoint : t.history.Disjoint [⟨name, g⟩] := by simpa using hnew
    exact h.nodup.append (List.nodup_singleton _) hdisjoint
  reached := fun a ha => by
    rcases List.mem_append.mp ha with ha | ha
    · exact h.reached a ha
    · exact List.mem_singleton.mp ha ▸ hreached

-- Each alias of the right history comes in once, unless the left has it.
theorem merge (hleft : left.Sound issued) (hright : right.Sound issued)
    (h : left.merge right = .ok merged) : merged.table.Sound issued := by
  obtain ⟨hnames, rfl⟩ := merge_eq_ok h
  have hmem : ∀ a, a ∈ left.history ++ right.history.filter (· ∉ left.history) →
      a ∈ left.history ∨ a ∈ right.history := by
    intro a ha
    rw [List.mem_append, List.mem_filter] at ha
    exact ha.imp_right And.left
  refine ⟨fun name g hg => List.mem_append_left _ (hleft.current name g hg), fun a ha => ?_, ?_,
    fun a ha => (hmem a ha).elim (hleft.reached a) (hright.reached a)⟩
  · rcases hmem a ha with ha | ha
    · exact hleft.registered a ha
    · exact (hnames a.base).mpr (hright.registered a ha)
  · refine hleft.nodup.append (hright.nodup.filter _) fun a ha ha' => ?_
    have hnot : a ∉ left.history := by simpa using (List.mem_filter.mp ha').2
    exact hnot ha

end Sound

end AliasTable

namespace AliasFamily

variable {f : AliasFamily}

-- What holds between the calls: all tables are sound, the counter has reached all that was handed out,
-- and it counts the advances.
structure Inv (f : AliasFamily) : Prop where
  tables : ∀ t ∈ f.tables, t.Sound f.issued
  reached : ∀ issue ∈ f.log, f.issued.Reaches issue.given
  fresh : f.log.Pairwise fun earlier later => later.advances = true → later.given ≠ earlier.given
  counted : ∀ name newest, f.issued.get? name = some newest → newest = f.advances name

theorem advances_append (f : AliasFamily) (tables : List AliasTable) (issued : Issued) (entry : Issue)
    (name : String) : advances ⟨tables, issued, f.log ++ [entry]⟩ name =
      f.advances name + if entry.advances && entry.given.base = name then 1 else 0 := by
  simp [advances, List.countP_append, List.countP_singleton]

namespace Inv

theorem root : AliasFamily.root.Inv where
  tables := by simpa [AliasFamily.root] using .empty _
  reached := by simp [AliasFamily.root]
  fresh := .nil
  counted := by simp [AliasFamily.root]

-- A family hands out one more alias. The counter never falls behind.
theorem hand (h : f.Inv) {i : Nat} {t : AliasTable} {issued : Issued} {entry : Issue}
    (hgrows : ∀ a, f.issued.Reaches a → issued.Reaches a) (ht : t.Sound issued)
    (hreached : issued.Reaches entry.given)
    (hfresh : entry.advances = true → ¬f.issued.Reaches entry.given)
    (hcounted : ∀ name newest, issued.get? name = some newest →
      newest = f.advances name + if entry.advances && entry.given.base = name then 1 else 0) :
    Inv ⟨f.tables.set i t, issued, f.log ++ [entry]⟩ where
  tables := by
    intro s hs
    rcases List.mem_or_eq_of_mem_set hs with hs | rfl
    · exact (h.tables s hs).mono hgrows
    · exact ht
  reached := by
    intro issue hissue
    rcases List.mem_append.mp hissue with hissue | hissue
    · exact hgrows _ (h.reached issue hissue)
    · exact List.mem_singleton.mp hissue ▸ hreached
  fresh := by
    refine List.pairwise_append.mpr ⟨h.fresh, List.pairwise_singleton _ _, ?_⟩
    intro earlier hearlier later hlater hadvances heq
    rw [List.mem_singleton.mp hlater] at hadvances heq
    exact hfresh hadvances (heq ▸ h.reached earlier hearlier)
  counted := by
    intro name newest hnewest
    rw [advances_append]
    exact hcounted name newest hnewest

-- A name without a count was never advanced.
theorem advances_eq_zero (h : f.Inv) {name : String} (hnone : f.issued.get? name = none) :
    f.advances name = 0 := by
  rw [advances, List.countP_eq_zero]
  intro issue hissue hname
  simp only [Bool.and_eq_true, decide_eq_true_eq] at hname
  obtain ⟨newest, hnewest, -⟩ := h.reached issue hissue
  rw [hname.2, hnone] at hnewest
  cases hnewest

theorem add (h : f.Inv) {i : Nat} {t : AliasTable} (ht : t ∈ f.tables) (name : String) :
    (f.issue i false (t.add f.issued name)).Inv := by
  unfold issue
  split
  · rename_i a t' issued' hadd
    obtain ⟨hnone, rfl, rfl, rfl⟩ := AliasTable.add_eq_ok hadd
    have hgrows : ∀ a, f.issued.Reaches a → (f.issued.register name).Reaches a :=
      fun a ha => ha.register name
    have hreached := Issued.reaches_register f.issued name
    have hsound := (h.tables t ht).mono hgrows
    have hnew : ⟨name, 0⟩ ∉ t.history := by
      intro hmem
      obtain ⟨g, hg⟩ := hsound.registered _ hmem
      simp [hnone] at hg
    refine h.hand hgrows (hsound.set hnew hreached) hreached (by simp) ?_
    intro other newest hnewest
    simp only [Bool.false_and, Bool.false_eq_true, if_false, Nat.add_zero]
    unfold Issued.register at hnewest
    split at hnewest
    · exact h.counted other newest hnewest
    · rename_i hcontains
      rw [NameMap.get?_insert] at hnewest
      split at hnewest
      · rename_i hother
        have hnone' : f.issued.get? name = none := by
          rw [NameMap.contains_iff, not_exists] at hcontains
          exact Option.eq_none_iff_forall_ne_some.mpr hcontains
        cases hnewest
        rw [hother, h.advances_eq_zero hnone']
      · exact h.counted other newest hnewest
  · exact h

-- The counter of a registered name is at its newest generation, so the next one is new to all tables.
theorem advance (h : f.Inv) {i : Nat} {t : AliasTable} (ht : t ∈ f.tables) (name : String) :
    (f.issue i true (t.advance f.issued name)).Inv := by
  unfold issue
  split
  · rename_i a t' issued' hadvance
    obtain ⟨g, hg, rfl, rfl, rfl⟩ := AliasTable.advance_eq_ok hadvance
    have hsound := h.tables t ht
    obtain ⟨newest, hnewest⟩ := hsound.exists_newest hg
    simp only [hnewest, Option.getD_some]
    have hgrows : ∀ a, f.issued.Reaches a →
        Issued.Reaches (NameMap.insert f.issued name (newest + 1)) a := by
      intro a ha
      refine ha.insert fun n hn => ?_
      have heq : newest = n := Option.some.inj (hnewest.symm.trans hn)
      omega
    have hnew := Issued.not_reaches_succ hnewest
    have hreached : Issued.Reaches (NameMap.insert f.issued name (newest + 1))
        ⟨name, newest + 1⟩ := ⟨_, NameMap.get?_insert_self _ _ _, Nat.le_refl _⟩
    have hset := (hsound.mono hgrows).set (fun hmem => hnew (hsound.reached _ hmem)) hreached
    refine h.hand hgrows hset hreached (fun _ => hnew) ?_
    intro other n hn
    rw [NameMap.get?_insert] at hn
    split at hn
    · rename_i hother
      cases hn
      simp [hother, h.counted name newest hnewest]
    · rename_i hother
      simp [Ne.symm hother, h.counted other n hn]
  · exact h

-- Tables that are copied, merged or given up leave the counter as it is.
theorem withTables (h : f.Inv) {tables : List AliasTable}
    (htables : ∀ t ∈ tables, t.Sound f.issued) : Inv ⟨tables, f.issued, f.log⟩ :=
  ⟨htables, h.reached, h.fresh, h.counted⟩

theorem absorb (h : f.Inv) {i j : Nat} {left right : AliasTable} (hleft : left ∈ f.tables)
    (hright : right ∈ f.tables) : (f.absorb i j (left.merge right)).Inv := by
  have hrest : ∀ t ∈ (f.tables.eraseIdx (max i j)).eraseIdx (min i j), t.Sound f.issued := by
    intro t ht
    exact h.tables t (List.mem_of_mem_eraseIdx (List.mem_of_mem_eraseIdx ht))
  unfold AliasFamily.absorb
  split
  · rename_i merged hmerge
    have hmerged := (h.tables left hleft).merge (h.tables right hright) hmerge
    exact h.withTables (List.forall_mem_cons.mpr ⟨hmerged, hrest⟩)
  · exact h.withTables hrest

theorem step (h : f.Inv) (call : Call) : (f.step call).Inv := by
  cases call with
  | fork i =>
      simp only [AliasFamily.step]
      split
      · rename_i t ht
        have hsound := h.tables t (List.mem_of_getElem? ht)
        refine h.withTables (List.forall_mem_append.mpr ⟨h.tables, ?_⟩)
        exact List.forall_mem_singleton.mpr hsound
      · exact h
  | add i name =>
      simp only [AliasFamily.step]
      split
      · rename_i t ht
        exact h.add (List.mem_of_getElem? ht) name
      · exact h
  | advance i name =>
      simp only [AliasFamily.step]
      split
      · rename_i t ht
        exact h.advance (List.mem_of_getElem? ht) name
      · exact h
  | merge i j =>
      simp only [AliasFamily.step]
      split
      · rename_i left right hleft hright
        split
        · exact h
        · exact h.absorb (List.mem_of_getElem? hleft) (List.mem_of_getElem? hright)
      · exact h

theorem foldl (h : f.Inv) (calls : List Call) : (calls.foldl AliasFamily.step f).Inv := by
  induction calls generalizing f with
  | nil => exact h
  | cons call rest ih => exact ih (h.step call)

-- A registered name can always be advanced, to an alias that no table was given before.
theorem exists_advance (h : f.Inv) {t : AliasTable} (ht : t ∈ f.tables) {name : String} {g : Nat}
    (hg : t.current.get? name = some g) :
    ∃ a t' issued', t.advance f.issued name = .ok (a, t', issued') ∧ t'.get name = .ok a ∧
      ∀ issue ∈ f.log, issue.given ≠ a := by
  obtain ⟨newest, hnewest⟩ := (h.tables t ht).exists_newest hg
  refine ⟨⟨name, newest + 1⟩, t.set name (newest + 1), NameMap.insert f.issued name (newest + 1), ?_,
    ?_, ?_⟩
  · simp [AliasTable.advance, hg, hnewest]
  · simp [AliasTable.get, AliasTable.set]
  · intro issue hissue heq
    exact Issued.not_reaches_succ hnewest (heq ▸ h.reached issue hissue)

end Inv

-- However tables are forked, advanced and merged, no alias of an advance was handed out before by any
-- of them. The counter of a name is the number of its advances, and no table is ahead of it: a
-- generation stays within 32 bits until a name has been advanced that often.
theorem advances_fresh_across_forks (calls : List Call) :
    ((run calls).log.Pairwise fun earlier later =>
      later.advances = true → later.given ≠ earlier.given) ∧
    (∀ t ∈ (run calls).tables,
      (∀ name g, t.current.get? name = some g → ⟨name, g⟩ ∈ t.history) ∧ t.history.Nodup ∧
      ∀ a ∈ t.history, ∃ newest, (run calls).issued.get? a.base = some newest ∧
        a.generation ≤ newest) ∧
    (∀ name newest, (run calls).issued.get? name = some newest →
      newest = (run calls).advances name) ∧
    ∀ t ∈ (run calls).tables, ∀ name g, t.current.get? name = some g →
      ∃ a t' issued', t.advance (run calls).issued name = .ok (a, t', issued') ∧
        t'.get name = .ok a ∧ ∀ issue ∈ (run calls).log, issue.given ≠ a := by
  have h : (run calls).Inv := Inv.root.foldl calls
  refine ⟨h.fresh, fun t ht => ?_, h.counted, fun t ht name g hg => h.exists_advance ht hg⟩
  have hsound := h.tables t ht
  exact ⟨hsound.current, hsound.nodup, hsound.reached⟩

-- A name that one fork registers late starts below what another has advanced it to.
example : (run [.add 0 "x", .fork 0, .add 0 "y", .advance 0 "y", .advance 1 "x", .add 1 "y",
    .merge 0 1, .advance 0 "y"]).log =
      [⟨⟨"x", 0⟩, false⟩, ⟨⟨"y", 0⟩, false⟩, ⟨⟨"y", 1⟩, true⟩, ⟨⟨"x", 1⟩, true⟩, ⟨⟨"y", 0⟩, false⟩,
        ⟨⟨"y", 2⟩, true⟩] := by
  decide +kernel

end AliasFamily

end Covenant
