import Covenant.Term.Basic
import Mathlib.Logic.Function.Basic

namespace Covenant

-- A value over the unbounded integers.
inductive Exact
  | int (n : Int)
  | bool (b : Bool)
  deriving DecidableEq, Repr

namespace Exact

def sort : Exact → TermSort
  | .int _ => .int
  | .bool _ => .bool

-- A value of the other sort reads as 0 or false. Well-sorted terms do not read one.
def toInt : Exact → Int
  | .int n => n
  | .bool _ => 0

def toBool : Exact → Bool
  | .bool b => b
  | .int _ => false

theorem eq_int_toInt {v : Exact} (h : v.sort = .int) : v = .int v.toInt := by
  cases v with
  | int n => rfl
  | bool b => cases h

theorem eq_bool_toBool {v : Exact} (h : v.sort = .bool) : v = .bool v.toBool := by
  cases v with
  | int n => cases h
  | bool b => rfl

end Exact

-- What a division by zero gives for each dividend. No rule fixes it.
abbrev ZeroDivision := Int → Int

-- Division is Euclidean where the divisor is not zero.
def Arith.exact (zero : ZeroDivision) : Arith → Int → Int → Int
  | .add, a, b => a + b
  | .sub, a, b => a - b
  | .mul, a, b => a * b
  | .div, a, b => if b = 0 then zero a else a / b

-- An integer for each integer symbol and a boolean for each boolean symbol.
@[ext]
structure Valuation where
  int : String → Int
  bool : String → Bool

namespace Valuation

def get (ν : Valuation) (s : Symbol) : Exact :=
  match s.sort with
  | .int => .int (ν.int s.name)
  | .bool => .bool (ν.bool s.name)

def set (ν : Valuation) (s : Symbol) (v : Exact) : Valuation :=
  match s.sort with
  | .int => { ν with int := Function.update ν.int s.name v.toInt }
  | .bool => { ν with bool := Function.update ν.bool s.name v.toBool }

@[simp] theorem sort_get (ν : Valuation) (s : Symbol) : (ν.get s).sort = s.sort := by
  unfold get
  split <;> simp [Exact.sort, *]

theorem get_set_self (ν : Valuation) (s : Symbol) {v : Exact} (h : v.sort = s.sort) :
    (ν.set s v).get s = v := by
  rcases s with ⟨name, sort⟩
  cases sort with
  | int => simpa [set, get] using (Exact.eq_int_toInt h).symm
  | bool => simpa [set, get] using (Exact.eq_bool_toBool h).symm

theorem get_set_of_ne (ν : Valuation) {s other : Symbol} (v : Exact) (h : other ≠ s) :
    (ν.set s v).get other = ν.get other := by
  rcases s with ⟨name, sort⟩
  rcases other with ⟨name', sort'⟩
  cases sort <;> cases sort' <;> simp_all [set, get, Function.update]

theorem ext_get {ν μ : Valuation} (h : ∀ s, ν.get s = μ.get s) : ν = μ := by
  ext name
  · simpa [get] using h ⟨name, .int⟩
  · simpa [get] using h ⟨name, .bool⟩

end Valuation

namespace Term

variable (zero : ZeroDivision) (ν μ : Valuation)

mutual

-- The value of a term over the unbounded integers.
def value : Term → Exact
  | .int n => .int n.toInt
  | .bool b => .bool b
  | .var s => ν.get s
  | .arith op l r => .int (op.exact zero (value l).toInt (value r).toInt)
  | .neg a => .int (-(value a).toInt)
  | .not a => .bool !(value a).toBool
  | .and parts => .bool ((partsValue parts).all id)
  | .or parts => .bool ((partsValue parts).any id)
  | .implies l r => .bool (!(value l).toBool || (value r).toBool)
  | .eq l r => .bool (value l = value r)
  | .order op l r => .bool (op.holds (value l).toInt (value r).toInt)
  | .ite c t e => if (value c).toBool then value t else value e

def partsValue : List Term → List Bool
  | [] => []
  | part :: parts => (value part).toBool :: partsValue parts

end

mutual

-- Operands have the sort that their operation takes.
def WellSorted : Term → Prop
  | .int _ | .bool _ | .var _ => True
  | .arith _ l r | .order _ l r => l.WellSorted ∧ r.WellSorted ∧ l.sort = .int ∧ r.sort = .int
  | .neg a => a.WellSorted ∧ a.sort = .int
  | .not a => a.WellSorted ∧ a.sort = .bool
  | .and parts | .or parts => PartsWellSorted parts
  | .implies l r => l.WellSorted ∧ r.WellSorted ∧ l.sort = .bool ∧ r.sort = .bool
  | .eq l r => l.WellSorted ∧ r.WellSorted ∧ l.sort = r.sort
  | .ite c t e => c.WellSorted ∧ t.WellSorted ∧ e.WellSorted ∧ c.sort = .bool ∧ t.sort = e.sort

def PartsWellSorted : List Term → Prop
  | [] => True
  | part :: parts => part.WellSorted ∧ part.sort = .bool ∧ PartsWellSorted parts

end

-- Only a choice between two terms can have either sort, and its sides agree.
theorem sort_value (t : Term) (h : t.WellSorted) : (t.value zero ν).sort = t.sort := by
  match t with
  | .int _ | .bool _ | .arith _ _ _ | .neg _ | .not _ | .and _ | .or _ | .implies _ _ | .eq _ _
  | .order _ _ _ => simp [value, Exact.sort, sort]
  | .var s => simp [value, sort]
  | .ite c t e =>
      obtain ⟨-, ht, he, -, hsort⟩ := h
      simp only [value, sort]
      split
      · exact sort_value t ht
      · rw [hsort]
        exact sort_value e he

variable {ν μ}

mutual

theorem value_congr (t : Term) (h : ∀ s ∈ t.symbols, ν.get s = μ.get s) :
    t.value zero ν = t.value zero μ := by
  match t with
  | .int _ | .bool _ => rfl
  | .var s => exact h s (by simp [symbols])
  | .neg a | .not a => simp only [value, value_congr a h]
  | .and parts | .or parts => simp only [value, partsValue_congr parts h]
  | .arith _ l r | .implies l r | .eq l r | .order _ l r =>
      simp only [symbols, List.forall_mem_append] at h
      simp only [value, value_congr l h.1, value_congr r h.2]
  | .ite c t e =>
      simp only [symbols, List.forall_mem_append] at h
      simp only [value, value_congr c h.1, value_congr t h.2.1, value_congr e h.2.2]

theorem partsValue_congr (parts : List Term) (h : ∀ s ∈ partsSymbols parts, ν.get s = μ.get s) :
    partsValue zero ν parts = partsValue zero μ parts := by
  match parts with
  | [] => rfl
  | part :: parts =>
      simp only [partsSymbols, List.forall_mem_append] at h
      simp only [partsValue, value_congr part h.1, partsValue_congr parts h.2]

end

theorem value_eq_true {l r : Term} :
    (Term.eq l r).value zero ν = .bool true ↔ l.value zero ν = r.value zero ν := by
  simp [value]

theorem value_not_true {a : Term} (h : a.WellSorted) (hsort : a.sort = .bool) :
    (Term.not a).value zero ν = .bool true ↔ a.value zero ν = .bool false := by
  rw [Exact.eq_bool_toBool ((sort_value zero ν a h).trans hsort)]
  simp [value]

end Term

namespace Formula

-- Assertions are well-sorted and boolean, and no name stands for symbols of both sorts.
structure WellSorted (f : Formula) : Prop where
  terms : ∀ t ∈ f.assertions, t.WellSorted ∧ t.sort = .bool
  names : ∀ s ∈ f.occurrences, ∀ other ∈ f.occurrences, s.name = other.name → s = other

def Holds (zero : ZeroDivision) (ν : Valuation) (f : Formula) : Prop :=
  ∀ t ∈ f.assertions, t.value zero ν = .bool true

-- No valuation satisfies the formula, whatever a division by zero gives.
def Unsatisfiable (f : Formula) : Prop := ∀ zero ν, ¬ f.Holds zero ν

end Formula

end Covenant
