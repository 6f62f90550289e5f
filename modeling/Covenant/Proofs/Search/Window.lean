import Covenant.Proofs.Term.Eval
import Covenant.Search.Window
import Mathlib.Algebra.Ring.Int.Defs
import Mathlib.Data.List.Nodup

namespace Covenant.Search

variable {radius : UInt32} {f : Formula}

-- What a search tries for an integer, as numbers without bounds

-- The integers next to each literal, and its opposite.
def nearLiterals (f : Formula) : List Int :=
  (f.assertions.flatMap Term.literals).flatMap fun c =>
    [c.toInt - 1, c.toInt, c.toInt + 1, -c.toInt]

-- 0, 1, -1, 2, -2 and so on up to the radius.
def upTo (radius : Nat) : List Int :=
  0 :: (List.range radius).flatMap fun (k : Nat) => [(k + 1 : Int), -(k + 1 : Int)]

-- What has 64 bits and is not within the radius.
def Outside (radius : Nat) (n : Int) : Prop := (-2 ^ 63 ≤ n ∧ n < 2 ^ 63) ∧ radius < n.natAbs

instance (radius : Nat) (n : Int) : Decidable (Outside radius n) :=
  inferInstanceAs (Decidable (_ ∧ _))

def integers (radius : Nat) (f : Formula) : List Int :=
  upTo radius ++ ((nearLiterals f).filter fun n => Outside radius n).eraseDups

theorem map_eraseDups {α β : Type} [BEq α] [LawfulBEq α] [BEq β] [LawfulBEq β] {g : α → β}
    (hg : Function.Injective g) (l : List α) : l.eraseDups.map g = (l.map g).eraseDups := by
  cases l with
  | nil => simp
  | cons a rest =>
      have hothers : (rest.filter fun b => !b == a).map g = (rest.map g).filter fun b => !b == g a := by
        rw [List.filter_map]
        congr 1
        apply List.filter_congr
        intro b _
        simp [hg.eq_iff]
      rw [List.eraseDups_cons, List.map_cons, List.map_cons, List.eraseDups_cons,
        map_eraseDups hg (rest.filter fun b => !b == a), hothers]
termination_by l.length
decreasing_by exact Nat.lt_succ_of_le (List.length_filter_le _ _)

theorem toInt_window (radius : UInt32) : (window radius).map Int64.toInt = upTo radius.toNat := by
  have hradius := radius.toNat_lt
  have hpair : ∀ k ∈ List.range radius.toNat,
      [Int64.ofNat (k + 1), Int64.ofInt (-(k + 1 : Nat))].map Int64.toInt =
        [(k + 1 : Int), -(k + 1 : Int)] := by
    intro k hk
    rw [List.mem_range] at hk
    have hup : (Int64.ofNat (k + 1)).toInt = (k + 1 : Nat) := Int64.toInt_ofNat_of_lt (by omega)
    have hdown : (Int64.ofInt (-(k + 1 : Nat))).toInt = -(k + 1 : Nat) :=
      Int64.toInt_ofInt_of_le (by omega) (by omega)
    rw [List.map_cons, List.map_singleton, hup, hdown]
    push_cast
    rfl
  rw [window, upTo, List.map_cons, List.map_flatMap, List.flatMap_congr hpair]
  rfl

theorem fit_eq_some {n : Int} {v : Int64} : fit n = some v ↔ v.toInt = n := by
  simp only [fit]
  constructor
  · intro h
    exact toInt_of_fit h
  · rintro rfl
    simp

theorem fits_iff {n : Int} : (∃ v, fit n = some v) ↔ -2 ^ 63 ≤ n ∧ n < 2 ^ 63 := by
  constructor
  · rintro ⟨v, hv⟩
    rw [← fit_eq_some.mp hv]
    exact ⟨Int64.le_toInt v, Int64.toInt_lt v⟩
  · rintro ⟨hlow, hhigh⟩
    exact ⟨Int64.ofInt n, fit_eq_some.mpr (Int64.toInt_ofInt_of_le hlow hhigh)⟩

-- Among the integers that fit, those outside the window are kept.
theorem toInt_outside (radius : UInt32) (ns : List Int) :
    ((ns.filterMap fit).filter fun v => !inWindow radius v).map Int64.toInt =
      ns.filter fun n => Outside radius.toNat n := by
  induction ns with
  | nil => rfl
  | cons n rest ih =>
      cases hfit : fit n with
      | none =>
          have hbounds : ¬(-2 ^ 63 ≤ n ∧ n < 2 ^ 63) := by
            rw [← fits_iff, hfit]
            simp
          have hout : ¬Outside radius.toNat n := fun h => hbounds h.1
          rw [List.filterMap_cons_none hfit, ih, List.filter_cons_of_neg (by simpa using hout)]
      | some v =>
          have hv := fit_eq_some.mp hfit
          have hout : (!inWindow radius v) = decide (Outside radius.toNat n) := by
            have hbounds := fits_iff.mp ⟨v, hfit⟩
            rw [inWindow, hv, ← decide_not]
            apply decide_eq_decide.mpr
            unfold Outside
            omega
          rw [List.filterMap_cons_some hfit, List.filter_cons, List.filter_cons, hout]
          split_ifs
          · rw [List.map_cons, hv, ih]
          · exact ih

theorem toInt_seeds (radius : UInt32) (f : Formula) :
    (seeds radius f).map Int64.toInt =
      ((nearLiterals f).filter fun n => Outside radius.toNat n).eraseDups := by
  have hinjective : Function.Injective Int64.toInt := fun _ _ h => Int64.toInt_inj.mp h
  have hneighbours : (f.assertions.flatMap Term.literals).flatMap neighbours =
      (nearLiterals f).filterMap fit := by
    rw [nearLiterals, List.filterMap_flatMap]
    rfl
  rw [seeds, map_eraseDups hinjective, hneighbours, toInt_outside]

-- The values of a sort

-- What is tried for a symbol of that sort.
def values (radius : UInt32) (f : Formula) : TermSort → List Scalar
  | .bool => [.bool false, .bool true]
  | .int => (integers radius.toNat f).map fun n => .int (Int64.ofInt n)

theorem domain_eq_values (radius : UInt32) (f : Formula) (sort : TermSort) :
    domain radius (seeds radius f) sort = values radius f sort := by
  cases sort with
  | bool => rfl
  | int =>
      have hintegers : (window radius ++ seeds radius f).map Int64.toInt =
          integers radius.toNat f := by
        rw [List.map_append, toInt_window, toInt_seeds, integers]
      simp [domain, values, ← hintegers, Function.comp_def]

theorem sort_of_mem_values {sort : TermSort} {v : Scalar} (h : v ∈ values radius f sort) :
    v.sort = sort := by
  cases sort with
  | bool =>
      simp only [values, List.mem_cons, List.not_mem_nil, or_false] at h
      rcases h with rfl | rfl <;> rfl
  | int =>
      obtain ⟨n, -, rfl⟩ := List.mem_map.mp h
      rfl

def domainSize (radius : UInt32) (seeds : List Int64) : TermSort → Nat
  | .bool => 2
  | .int => 2 * radius.toNat + 1 + seeds.length

theorem length_window (radius : UInt32) : (window radius).length = 2 * radius.toNat + 1 := by
  simp [window, List.length_flatMap, Nat.mul_comm]

theorem length_values (radius : UInt32) (f : Formula) (sort : TermSort) :
    (values radius f sort).length = domainSize radius (seeds radius f) sort := by
  rw [← domain_eq_values]
  cases sort with
  | bool => rfl
  | int => simp [domain, domainSize, length_window]

-- No integer is tried twice

theorem mem_upTo {radius : Nat} {n : Int} : n ∈ upTo radius ↔ n.natAbs ≤ radius := by
  simp only [upTo, List.mem_cons, List.mem_flatMap, List.mem_range, List.not_mem_nil, or_false]
  constructor
  · rintro (rfl | ⟨k, hk, rfl | rfl⟩) <;> omega
  · intro h
    by_cases hzero : n = 0
    · exact .inl hzero
    · exact .inr ⟨n.natAbs - 1, by omega, by omega⟩

theorem mem_integers {radius : Nat} {n : Int} : n ∈ integers radius f ↔
    n.natAbs ≤ radius ∨ n ∈ nearLiterals f ∧ Outside radius n := by
  simp [integers, mem_upTo, List.mem_eraseDups]

end Covenant.Search
