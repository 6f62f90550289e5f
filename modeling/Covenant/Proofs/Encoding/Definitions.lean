import Covenant.Proofs.Encoding.Expression

namespace Covenant

-- An equation that gives an alias its value.
structure Definition where
  target : AliasName
  rhs : Term

namespace Definition

variable (zero : ZeroDivision) (s : Signature)

def symbol (d : Definition) : Symbol := s.symbolOf d.target

def equation (d : Definition) : Term := .eq (.var (d.symbol s)) d.rhs

-- Each definition is of a new alias and reads aliases that are known when it is made.
def Ordered : (AliasName → Prop) → List Definition → Prop
  | _, [] => True
  | known, d :: rest =>
      ¬known d.target ∧ (∀ x ∈ d.rhs.symbols, ∃ a, known a ∧ x = s.symbolOf a) ∧
        d.rhs.WellSorted ∧ d.rhs.sort = (d.symbol s).sort ∧
        Ordered (fun a => known a ∨ a = d.target) rest

-- The values that the definitions give, one after the other.
def solve : List Definition → Valuation → Valuation
  | [], ν => ν
  | d :: rest, ν => solve rest (ν.set (d.symbol s) (d.rhs.value zero ν))

variable {s} {known : AliasName → Prop} {defs : List Definition}

theorem Ordered.not_known (h : Ordered s known defs) : ∀ d ∈ defs, ¬known d.target := by
  induction defs generalizing known with
  | nil => simp
  | cons d rest ih =>
      obtain ⟨hfresh, -, -, -, hrest⟩ := h
      intro d' hd'
      rcases List.mem_cons.mp hd' with rfl | hd'
      · exact hfresh
      · exact fun hknown => ih hrest d' hd' (.inl hknown)

theorem Ordered.nodup (h : Ordered s known defs) : (defs.map target).Nodup := by
  induction defs generalizing known with
  | nil => exact List.nodup_nil
  | cons d rest ih =>
      obtain ⟨-, -, -, -, hrest⟩ := h
      refine List.nodup_cons.mpr ⟨fun hmem => ?_, ih hrest⟩
      obtain ⟨d', hd', heq⟩ := List.mem_map.mp hmem
      exact hrest.not_known d' hd' (.inr heq)

-- A definition reads what was known from the start, and what the definitions before it define.
theorem Ordered.reads (h : Ordered s known defs) {k : Nat} {d : Definition}
    (hd : defs[k]? = some d) {x : Symbol} (hx : x ∈ d.rhs.symbols) :
    ∃ a, x = s.symbolOf a ∧ (known a ∨ a ∈ (defs.take k).map target) := by
  induction defs generalizing known k with
  | nil => cases hd
  | cons first rest ih =>
      obtain ⟨-, hsymbols, -, -, hrest⟩ := h
      cases k with
      | zero =>
          cases hd
          obtain ⟨a, ha, rfl⟩ := hsymbols x hx
          exact ⟨a, rfl, .inl ha⟩
      | succ k =>
          obtain ⟨a, rfl, ha⟩ := ih hrest hd
          refine ⟨a, rfl, ?_⟩
          simp only [List.take_succ_cons, List.map_cons, List.mem_cons]
          rw [or_assoc] at ha
          exact ha

theorem Ordered.append {more : List Definition} (h : Ordered s known defs)
    (hmore : Ordered s (fun a => known a ∨ a ∈ defs.map target) more) :
    Ordered s known (defs ++ more) := by
  induction defs generalizing known with
  | nil => simpa using hmore
  | cons d rest ih =>
      obtain ⟨hfresh, hsymbols, hws, hsort, hrest⟩ := h
      refine ⟨hfresh, hsymbols, hws, hsort, ih hrest ?_⟩
      simpa only [List.map_cons, List.mem_cons, or_assoc] using hmore

theorem get_solve_of_not_mem {x : Symbol} (defs : List Definition) (ν : Valuation)
    (h : ∀ d ∈ defs, x ≠ d.symbol s) : (solve zero s defs ν).get x = ν.get x := by
  induction defs generalizing ν with
  | nil => rfl
  | cons d rest ih =>
      rw [List.forall_mem_cons] at h
      rw [solve, ih _ h.2, Valuation.get_set_of_ne _ _ h.1]

theorem get_solve_of_known (h : Ordered s known defs) (ν : Valuation) {a : AliasName}
    (ha : known a) : (solve zero s defs ν).get (s.symbolOf a) = ν.get (s.symbolOf a) := by
  refine get_solve_of_not_mem zero defs ν fun d hd heq => h.not_known d hd ?_
  rwa [← Signature.symbolOf_injective heq]

-- Later definitions neither change an alias nor what its right side reads.
theorem equation_solve (h : Ordered s known defs) (ν : Valuation) :
    ∀ d ∈ defs, (d.equation s).value zero (solve zero s defs ν) = .bool true := by
  induction defs generalizing known ν with
  | nil => simp
  | cons d rest ih =>
      obtain ⟨hfresh, hsymbols, hws, hsort, hrest⟩ := h
      intro d' hd'
      rcases List.mem_cons.mp hd' with rfl | hd'
      · refine (Term.value_eq_true zero).mpr ?_
        have hrhs : d'.rhs.value zero (solve zero s (d' :: rest) ν) = d'.rhs.value zero ν := by
          refine Term.value_congr zero d'.rhs fun x hx => ?_
          obtain ⟨a, ha, rfl⟩ := hsymbols x hx
          have hne : s.symbolOf a ≠ d'.symbol s :=
            fun heq => hfresh (Signature.symbolOf_injective heq ▸ ha)
          rw [solve, get_solve_of_known zero hrest _ (.inl ha), Valuation.get_set_of_ne _ _ hne]
        rw [hrhs, Term.value, solve, symbol, get_solve_of_known zero hrest _ (.inr rfl)]
        exact Valuation.get_set_self ν _ ((Term.sort_value zero ν _ hws).trans hsort)
      · exact ih hrest _ d' hd'

-- Values that agree on the known aliases agree on all that the definitions define.
theorem get_eq_of_equations (h : Ordered s known defs) {ν μ : Valuation}
    (hknown : ∀ a, known a → ν.get (s.symbolOf a) = μ.get (s.symbolOf a))
    (hν : ∀ d ∈ defs, (d.equation s).value zero ν = .bool true)
    (hμ : ∀ d ∈ defs, (d.equation s).value zero μ = .bool true) :
    ∀ d ∈ defs, ν.get (d.symbol s) = μ.get (d.symbol s) := by
  induction defs generalizing known with
  | nil => simp
  | cons d rest ih =>
      obtain ⟨-, hsymbols, -, -, hrest⟩ := h
      rw [List.forall_mem_cons] at hν hμ
      have hd : ν.get (d.symbol s) = μ.get (d.symbol s) :=
        calc ν.get (d.symbol s) = d.rhs.value zero ν := (Term.value_eq_true zero).mp hν.1
          _ = d.rhs.value zero μ := Term.value_congr zero d.rhs fun x hx => by
              obtain ⟨a, ha, rfl⟩ := hsymbols x hx
              exact hknown a ha
          _ = μ.get (d.symbol s) := ((Term.value_eq_true zero).mp hμ.1).symm
      refine List.forall_mem_cons.mpr ⟨hd, ih hrest ?_ hν.2 hμ.2⟩
      rintro a (ha | rfl)
      · exact hknown a ha
      · exact hd

-- Two solutions that differ at most on the targets are the same.
theorem eq_of_equations (h : Ordered s known defs) {ν μ : Valuation}
    (hagree : ∀ x, (∀ d ∈ defs, x ≠ d.symbol s) → ν.get x = μ.get x)
    (hν : ∀ d ∈ defs, (d.equation s).value zero ν = .bool true)
    (hμ : ∀ d ∈ defs, (d.equation s).value zero μ = .bool true) : ν = μ := by
  have hknown : ∀ a, known a → ν.get (s.symbolOf a) = μ.get (s.symbolOf a) := by
    intro a ha
    refine hagree _ fun d hd heq => h.not_known d hd ?_
    rwa [← Signature.symbolOf_injective heq]
  refine Valuation.ext_get fun x => ?_
  by_cases hx : ∃ d ∈ defs, x = d.symbol s
  · obtain ⟨d, hd, rfl⟩ := hx
    exact get_eq_of_equations zero h hknown hν hμ d hd
  · exact hagree x fun d hd heq => hx ⟨d, hd, heq⟩

end Definition

end Covenant
