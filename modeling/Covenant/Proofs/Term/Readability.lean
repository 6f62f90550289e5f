import Covenant.Proofs.Term.Exact
import Covenant.Proofs.Term.Sexp

namespace Covenant

namespace Term

mutual

-- The tree of a term's text.
def sexp : Term → Sexp
  | .int n =>
      if n.toInt < 0 then .app (.arith .sub) [.numeral n.toInt.natAbs] else .numeral n.toInt.natAbs
  | .bool b => .truth b
  | .var s => .symbol s.name
  | .arith op l r => .app (.arith op) [l.sexp, r.sexp]
  | .neg a => .app (.arith .sub) [a.sexp]
  | .not a => .app .not [a.sexp]
  | .and [] => .truth true
  | .or [] => .truth false
  | .and (part :: parts) => .app .and (part.sexp :: partsSexp parts)
  | .or (part :: parts) => .app .or (part.sexp :: partsSexp parts)
  | .implies l r => .app .implies [l.sexp, r.sexp]
  | .eq l r => .app .eq [l.sexp, r.sexp]
  | .order op l r => .app (.order op) [l.sexp, r.sexp]
  | .ite c t e => .app .ite [c.sexp, t.sexp, e.sexp]

def partsSexp : List Term → List Sexp
  | [] => []
  | part :: parts => part.sexp :: partsSexp parts

end

mutual

theorem chars_sexp (t : Term) : t.sexp.chars = t.smt.toList := by
  match t with
  | .int n =>
      simp only [sexp, smt, intSmt]
      split <;> simp [Sexp.chars, Sexp.argsChars, Head.text, Arith.smt]
  | .bool b => rfl
  | .var s => rfl
  | .neg a => simp [sexp, smt, Sexp.chars, Sexp.argsChars, Head.text, Arith.smt, chars_sexp a]
  | .not a => simp [sexp, smt, Sexp.chars, Sexp.argsChars, Head.text, chars_sexp a]
  | .and [] => rfl
  | .or [] => rfl
  | .and (part :: parts) | .or (part :: parts) =>
      simp [sexp, smt, Sexp.chars, Sexp.argsChars, Head.text, chars_sexp part,
        argsChars_partsSexp parts]
  | .arith _ l r | .implies l r | .eq l r | .order _ l r =>
      simp [sexp, smt, Sexp.chars, Sexp.argsChars, Head.text, chars_sexp l, chars_sexp r]
  | .ite c t e =>
      simp [sexp, smt, Sexp.chars, Sexp.argsChars, Head.text, chars_sexp c, chars_sexp t, chars_sexp e]

theorem argsChars_partsSexp (parts : List Term) :
    Sexp.argsChars (partsSexp parts) = (partsSmt parts).toList := by
  match parts with
  | [] => rfl
  | part :: parts =>
      simp [partsSexp, partsSmt, Sexp.argsChars, chars_sexp part, argsChars_partsSexp parts]

end

mutual

theorem names_sexp (t : Term) : t.sexp.names = t.symbols.map Symbol.name := by
  match t with
  | .int n =>
      simp only [sexp, symbols]
      split <;> rfl
  | .bool b => rfl
  | .var s => rfl
  | .neg a | .not a => simp [sexp, symbols, Sexp.names, Sexp.argsNames, names_sexp a]
  | .and [] => rfl
  | .or [] => rfl
  | .and (part :: parts) | .or (part :: parts) =>
      simp [sexp, symbols, partsSymbols, Sexp.names, Sexp.argsNames, names_sexp part,
        argsNames_partsSexp parts]
  | .arith _ l r | .implies l r | .eq l r | .order _ l r =>
      simp [sexp, symbols, Sexp.names, Sexp.argsNames, names_sexp l, names_sexp r]
  | .ite c t e =>
      simp [sexp, symbols, Sexp.names, Sexp.argsNames, names_sexp c, names_sexp t, names_sexp e]

theorem argsNames_partsSexp (parts : List Term) :
    Sexp.argsNames (partsSexp parts) = (partsSymbols parts).map Symbol.name := by
  match parts with
  | [] => rfl
  | part :: parts =>
      simp [partsSexp, partsSymbols, Sexp.argsNames, names_sexp part, argsNames_partsSexp parts]

end

def positive? : Term → Option Int64
  | .int n => if 0 < n.toInt then some n else none
  | _ => none

theorem positive?_eq_some {t : Term} {n : Int64} : t.positive? = some n ↔ t = .int n ∧ 0 < n.toInt := by
  cases t with
  | int m =>
      simp only [positive?, Option.ite_none_right_eq_some, Option.some.injEq, Term.int.injEq]
      constructor
      · rintro ⟨hpos, rfl⟩
        exact ⟨rfl, hpos⟩
      · rintro ⟨rfl, hpos⟩
        exact ⟨hpos, rfl⟩
  | _ => simp [positive?]

mutual

-- Of the terms with one text, the one that has a negative literal in the place of a literal negated,
-- and truth values in the place of a conjunction or disjunction of nothing.
def canonical : Term → Term
  | .int n => .int n
  | .bool b => .bool b
  | .var s => .var s
  | .arith op l r => .arith op l.canonical r.canonical
  | .neg a =>
      match a.positive? with
      | some n => .int (Int64.ofInt (-n.toInt))
      | none => .neg a.canonical
  | .not a => .not a.canonical
  | .and [] => .bool true
  | .or [] => .bool false
  | .and (part :: parts) => .and (part.canonical :: partsCanonical parts)
  | .or (part :: parts) => .or (part.canonical :: partsCanonical parts)
  | .implies l r => .implies l.canonical r.canonical
  | .eq l r => .eq l.canonical r.canonical
  | .order op l r => .order op l.canonical r.canonical
  | .ite c t e => .ite c.canonical t.canonical e.canonical

def partsCanonical : List Term → List Term
  | [] => []
  | part :: parts => part.canonical :: partsCanonical parts

end

-- The negation of a positive literal fits 64 bits.
theorem toInt_ofInt_neg {n : Int64} (h : 0 < n.toInt) : (Int64.ofInt (-n.toInt)).toInt = -n.toInt := by
  have hlt := Int64.toInt_lt n
  exact Int64.toInt_ofInt_of_le (by omega) (by omega)

mutual

theorem sexp_canonical (t : Term) : t.canonical.sexp = t.sexp := by
  match t with
  | .int n => rfl
  | .bool b => rfl
  | .var s => rfl
  | .neg a =>
      cases ha : a.positive? with
      | none => simp only [canonical, ha, sexp, sexp_canonical a]
      | some n =>
          obtain ⟨rfl, hpos⟩ := positive?_eq_some.mp ha
          have hneg : -n.toInt < 0 := by omega
          have hnot : ¬n.toInt < 0 := by omega
          simp only [canonical, ha, sexp, toInt_ofInt_neg hpos, Int.natAbs_neg, if_pos hneg,
            if_neg hnot]
  | .not a => simp only [canonical, sexp, sexp_canonical a]
  | .and [] => rfl
  | .or [] => rfl
  | .and (part :: parts) | .or (part :: parts) =>
      simp only [canonical, sexp, sexp_canonical part, partsSexp_canonical parts]
  | .arith _ l r | .implies l r | .eq l r | .order _ l r =>
      simp only [canonical, sexp, sexp_canonical l, sexp_canonical r]
  | .ite c t e =>
      simp only [canonical, sexp, sexp_canonical c, sexp_canonical t, sexp_canonical e]

theorem partsSexp_canonical (parts : List Term) : partsSexp (partsCanonical parts) = partsSexp parts := by
  match parts with
  | [] => rfl
  | part :: parts =>
      simp only [partsCanonical, partsSexp, sexp_canonical part, partsSexp_canonical parts]

end

section Value

variable (zero : ZeroDivision) (ν : Valuation)

mutual

theorem value_canonical (t : Term) : t.canonical.value zero ν = t.value zero ν := by
  match t with
  | .int n => rfl
  | .bool b => rfl
  | .var s => rfl
  | .neg a =>
      cases ha : a.positive? with
      | none => simp only [canonical, ha, value, value_canonical a]
      | some n =>
          obtain ⟨rfl, hpos⟩ := positive?_eq_some.mp ha
          simp only [canonical, ha, value, toInt_ofInt_neg hpos, Exact.toInt]
  | .not a => simp only [canonical, value, value_canonical a]
  | .and [] => rfl
  | .or [] => rfl
  | .and (part :: parts) | .or (part :: parts) =>
      simp only [canonical, value, partsValue, value_canonical part, partsValue_canonical parts]
  | .arith _ l r | .implies l r | .eq l r | .order _ l r =>
      simp only [canonical, value, value_canonical l, value_canonical r]
  | .ite c t e =>
      simp only [canonical, value, value_canonical c, value_canonical t, value_canonical e]

theorem partsValue_canonical (parts : List Term) :
    partsValue zero ν (partsCanonical parts) = partsValue zero ν parts := by
  match parts with
  | [] => rfl
  | part :: parts =>
      simp only [partsCanonical, partsValue, value_canonical part, partsValue_canonical parts]

end

end Value

end Term

-- The term that the word makes of its arguments, if it takes so many.
def Head.apply? : Head → List Term → Option Term
  | .arith op, [l, r] => some (.arith op l r)
  | .arith .sub, [a] => some (.neg a)
  | .order op, [l, r] => some (.order op l r)
  | .not, [a] => some (.not a)
  | .and, parts => some (.and parts)
  | .or, parts => some (.or parts)
  | .implies, [l, r] => some (.implies l r)
  | .eq, [l, r] => some (.eq l r)
  | .ite, [c, t, e] => some (.ite c t e)
  | _, _ => none

namespace Sexp

-- The absolute value of a negative literal.
def negative? (head : Head) : List Sexp → Option Nat
  | [.numeral n] => if head = .arith .sub ∧ n ≠ 0 then some n else none
  | _ => none

mutual

-- Reads a tree as a canonical term, given the sorts of the names.
def term? (sorts : String → TermSort) : Sexp → Option Term
  | .numeral n => some (.int (Int64.ofInt n))
  | .truth b => some (.bool b)
  | .symbol name => some (.var ⟨name, sorts name⟩)
  | .app head args =>
      match negative? head args with
      | some n => some (.int (Int64.ofInt (-n)))
      | none => (argsTerms? sorts args).bind head.apply?

def argsTerms? (sorts : String → TermSort) : List Sexp → Option (List Term)
  | [] => some []
  | a :: args => (a.term? sorts).bind fun t => (argsTerms? sorts args).map (t :: ·)

end

theorem negative?_numeral (n : Nat) :
    negative? (.arith .sub) [.numeral n] = if n ≠ 0 then some n else none := by
  simp only [negative?, true_and]

theorem negative?_pair (head : Head) (a b : Sexp) (args : List Sexp) :
    negative? head (a :: b :: args) = none := by
  cases a <;> rfl

theorem negative?_of_ne {head : Head} (h : head ≠ .arith .sub) (args : List Sexp) :
    negative? head args = none := by
  unfold negative?
  split
  · rw [if_neg fun hn => h hn.1]
  · rfl

variable {sorts : String → TermSort} {head : Head} {args : List Sexp} {ts : List Term}

theorem term?_negative {n : Nat} (h : negative? head args = some n) :
    (app head args).term? sorts = some (.int (Int64.ofInt (-n))) := by
  rw [term?, h]

theorem term?_app (hargs : argsTerms? sorts args = some ts) (h : negative? head args = none) :
    (app head args).term? sorts = head.apply? ts := by
  simp [term?, h, hargs]

theorem argsTerms?_nil : argsTerms? sorts [] = some [] := rfl

theorem argsTerms?_cons {a : Sexp} {t : Term} (ha : a.term? sorts = some t)
    (hargs : argsTerms? sorts args = some ts) : argsTerms? sorts (a :: args) = some (t :: ts) := by
  simp [argsTerms?, ha, hargs]

end Sexp

namespace Term

-- What is negated and reads as a literal is a positive literal.
theorem negative?_sexp (a : Term) :
    Sexp.negative? (.arith .sub) [a.sexp] = a.positive?.map fun n => n.toInt.natAbs := by
  cases a with
  | int n =>
      simp only [sexp, positive?]
      split
      · next hneg =>
          rw [if_neg (by omega)]
          rfl
      · next hneg =>
          rw [Sexp.negative?_numeral]
          by_cases hpos : 0 < n.toInt
          · rw [if_pos hpos, if_pos (by omega), Option.map_some]
          · rw [if_neg hpos, if_neg (by omega), Option.map_none]
  | and parts => cases parts <;> rfl
  | or parts => cases parts <;> rfl
  | _ => rfl

variable {sorts : String → TermSort}

mutual

-- The tree of a term is read as the canonical one of the terms with that text.
theorem term?_sexp (t : Term) (h : ∀ s ∈ t.symbols, sorts s.name = s.sort) :
    t.sexp.term? sorts = some t.canonical := by
  match t with
  | .int n =>
      simp only [sexp, canonical]
      split
      · next hneg =>
          have hnonzero : n.toInt.natAbs ≠ 0 := by omega
          have habs : -(n.toInt.natAbs : Int) = n.toInt := by omega
          rw [Sexp.term?_negative ((Sexp.negative?_numeral _).trans (if_pos hnonzero)), habs,
            Int64.ofInt_toInt]
      · next hneg =>
          have habs : (n.toInt.natAbs : Int) = n.toInt := by omega
          rw [Sexp.term?, habs, Int64.ofInt_toInt]
  | .bool b => rfl
  | .var s => simp only [sexp, Sexp.term?, canonical, h s (by simp [symbols])]
  | .neg a =>
      cases ha : a.positive? with
      | none =>
          simp only [sexp, canonical, ha]
          exact Sexp.term?_app (Sexp.argsTerms?_cons (term?_sexp a h) Sexp.argsTerms?_nil)
            (by rw [negative?_sexp, ha, Option.map_none])
      | some n =>
          have habs : (n.toInt.natAbs : Int) = n.toInt := by
            have hpos := (positive?_eq_some.mp ha).2
            omega
          simp only [sexp, canonical, ha]
          rw [Sexp.term?_negative ((negative?_sexp a).trans (congrArg _ ha)), habs]
  | .not a =>
      rw [sexp, canonical]
      exact Sexp.term?_app (Sexp.argsTerms?_cons (term?_sexp a h) Sexp.argsTerms?_nil)
        (Sexp.negative?_of_ne (by decide) _)
  | .and [] => rfl
  | .or [] => rfl
  | .and (part :: parts) | .or (part :: parts) =>
      simp only [symbols, partsSymbols, List.forall_mem_append] at h
      rw [sexp, canonical]
      exact Sexp.term?_app
        (Sexp.argsTerms?_cons (term?_sexp part h.1) (argsTerms?_partsSexp parts h.2))
        (Sexp.negative?_of_ne (by decide) _)
  | .arith _ l r | .implies l r | .eq l r | .order _ l r =>
      simp only [symbols, List.forall_mem_append] at h
      rw [sexp, canonical]
      exact Sexp.term?_app
        (Sexp.argsTerms?_cons (term?_sexp l h.1) (Sexp.argsTerms?_cons (term?_sexp r h.2) Sexp.argsTerms?_nil))
        (Sexp.negative?_pair _ _ _ _)
  | .ite c t e =>
      simp only [symbols, List.forall_mem_append] at h
      rw [sexp, canonical]
      exact Sexp.term?_app
        (Sexp.argsTerms?_cons (term?_sexp c h.1) (Sexp.argsTerms?_cons (term?_sexp t h.2.1)
          (Sexp.argsTerms?_cons (term?_sexp e h.2.2) Sexp.argsTerms?_nil)))
        (Sexp.negative?_pair _ _ _ _)

theorem argsTerms?_partsSexp (parts : List Term)
    (h : ∀ s ∈ partsSymbols parts, sorts s.name = s.sort) :
    Sexp.argsTerms? sorts (partsSexp parts) = some (partsCanonical parts) := by
  match parts with
  | [] => rfl
  | part :: parts =>
      simp only [partsSymbols, List.forall_mem_append] at h
      exact Sexp.argsTerms?_cons (term?_sexp part h.1) (argsTerms?_partsSexp parts h.2)

end

-- Symbols that agree on the sort of each name have a table of sorts.
theorem exists_sorts {symbols : List Symbol}
    (h : ∀ s ∈ symbols, ∀ other ∈ symbols, s.name = other.name → s.sort = other.sort) :
    ∃ sorts : String → TermSort, ∀ s ∈ symbols, sorts s.name = s.sort := by
  refine ⟨fun name => ((symbols.find? (·.name = name)).map Symbol.sort).getD .int, fun s hs => ?_⟩
  have hsome : (symbols.find? (·.name = s.name)).isSome := by
    rw [List.find?_isSome]
    exact ⟨s, hs, by simp⟩
  obtain ⟨other, hother⟩ := Option.isSome_iff_exists.mp hsome
  have hname : other.name = s.name := by simpa using List.find?_some hother
  simp only [hother, Option.map_some, Option.getD_some]
  exact h other (List.mem_of_find?_eq_some hother) s hs hname

theorem legible_names {t u : Term}
    (haliases : ∀ s ∈ t.symbols ++ u.symbols, ∃ a : AliasName, s.name = a.text)
    (hcuts : ∀ s ∈ t.symbols, ∀ other ∈ u.symbols,
      ¬Symbol.Cuts s.name other.name ∧ ¬Symbol.Cuts other.name s.name) :
    Sexp.Legible t.sexp.names u.sexp.names := by
  have hseparator : ∀ s ∈ t.symbols ++ u.symbols, '@' ∈ s.name.toList := by
    intro s hs
    obtain ⟨a, ha⟩ := haliases s hs
    simp [ha, AliasName.text]
  simp only [names_sexp]
  refine ⟨?_, ?_, ?_⟩
  · intro name hname
    obtain ⟨s, hs, rfl⟩ := List.mem_map.mp hname
    exact hseparator s (List.mem_append_left _ hs)
  · intro name hname
    obtain ⟨s, hs, rfl⟩ := List.mem_map.mp hname
    exact hseparator s (List.mem_append_right _ hs)
  · intro name hname other hother
    obtain ⟨s, hs, rfl⟩ := List.mem_map.mp hname
    obtain ⟨s', hs', rfl⟩ := List.mem_map.mp hother
    exact hcuts s hs s' hs'

-- Two terms over aliases have one text exactly if they have one canonical term, and then they have
-- the same value, unless a symbol of one cuts a symbol of the other.
theorem same_text_same_value {t u : Term}
    (haliases : ∀ s ∈ t.symbols ++ u.symbols, ∃ a : AliasName, s.name = a.text)
    (hsorts : ∀ s ∈ t.symbols ++ u.symbols, ∀ other ∈ t.symbols ++ u.symbols,
      s.name = other.name → s.sort = other.sort)
    (hcuts : ∀ s ∈ t.symbols, ∀ other ∈ u.symbols,
      ¬Symbol.Cuts s.name other.name ∧ ¬Symbol.Cuts other.name s.name) :
    (t.smt = u.smt ↔ t.canonical = u.canonical) ∧
    (t.smt = u.smt → ∀ zero ν, t.value zero ν = u.value zero ν) := by
  have hcanonical : t.smt = u.smt → t.canonical = u.canonical := by
    intro h
    have hchars : t.sexp.chars = u.sexp.chars := by rw [chars_sexp, chars_sexp, h]
    have hsexp := Sexp.eq_of_chars (legible_names haliases hcuts) hchars
    obtain ⟨sorts, hsort⟩ := exists_sorts hsorts
    have ht := term?_sexp t fun s hs => hsort s (List.mem_append_left _ hs)
    have hu := term?_sexp u fun s hs => hsort s (List.mem_append_right _ hs)
    rw [hsexp, hu] at ht
    exact (Option.some.inj ht).symm
  refine ⟨⟨hcanonical, fun h => ?_⟩, fun h zero ν => ?_⟩
  · rw [← String.toList_inj, ← chars_sexp, ← chars_sexp, ← sexp_canonical t, h, sexp_canonical]
  · rw [← value_canonical, hcanonical h, value_canonical]

theorem same_text_same_value_barred :
    (Term.arith .sub (.var ⟨"a| b@0", .int⟩) (.int (-5))).value (fun n => n)
      ⟨fun _ => 3, fun _ => true⟩ =
    (Term.arith .sub (.var ⟨"a| b@0", .int⟩) (.neg (.int 5))).value (fun n => n)
      ⟨fun _ => 3, fun _ => true⟩ := by
  have hsymbol : ∀ s : Symbol, s ∈ [⟨"a| b@0", .int⟩, ⟨"a| b@0", .int⟩] → s = ⟨"a| b@0", .int⟩ := by
    simp
  refine (same_text_same_value ?_ ?_ ?_).2 (by decide +kernel) _ _
  · intro s hs
    rw [hsymbol s hs]
    exact ⟨⟨"a| b", 0⟩, by decide⟩
  · intro s hs other hother _
    rw [hsymbol s hs, hsymbol other hother]
  · intro s hs other hother
    rw [hsymbol s (List.mem_cons_of_mem _ hs), hsymbol other (List.mem_cons_of_mem _ hother)]
    simp [Symbol.Cuts]

end Term

-- An alias whose symbol reads as the symbols of two others.
def AliasName.splice (a b : AliasName) : AliasName := ⟨a.text ++ "| |" ++ b.base, b.generation⟩

theorem Symbol.smt_splice {a b : AliasName} (ha : isPlain a.text = false) (hb : isPlain b.text = false) :
    smt (a.splice b).text = smt a.text ++ " " ++ smt b.text := by
  have htext : (a.splice b).text = a.text ++ "| |" ++ b.text := by
    simp [AliasName.splice, AliasName.text, String.append_assoc]
  have hplain : isPlain (a.splice b).text = false := by
    rw [Bool.eq_false_iff]
    intro h
    have hbar := (Sexp.isPlain_eq_true h).2 '|' (by simp [htext])
    exact absurd hbar (by decide)
  rw [smt, hplain, htext, ← String.toList_inj]
  simp [smt, ha, hb]

namespace Term

-- A name can end its own quoting: with bars and a blank inside, it is written as two names are.
theorem smt_and_splice {a b : AliasName} (ha : Symbol.isPlain a.text = false)
    (hb : Symbol.isPlain b.text = false) :
    (Term.and [.var ⟨(a.splice b).text, .bool⟩]).smt =
      (Term.and [.var ⟨a.text, .bool⟩, .var ⟨b.text, .bool⟩]).smt := by
  rw [← String.toList_inj]
  simp [smt, partsSmt, Symbol.smt_splice ha hb]

def spliced : Term := .and [.var ⟨"a b@0| |c d@0", .bool⟩]

def paired : Term := .and [.var ⟨"a b@0", .bool⟩, .var ⟨"c d@0", .bool⟩]

theorem spliced_symbol_ambiguous :
    spliced.WellSorted ∧ paired.WellSorted ∧
    (∀ s ∈ spliced.symbols ++ paired.symbols, ∃ a : AliasName, s.name = a.text) ∧
    (∀ s ∈ spliced.symbols ++ paired.symbols, ∀ other ∈ spliced.symbols ++ paired.symbols,
      s.name = other.name → s.sort = other.sort) ∧
    spliced.smt = paired.smt ∧
    spliced.value (fun n => n) ⟨fun _ => 0, fun name => name = "a b@0| |c d@0"⟩ = .bool true ∧
    paired.value (fun n => n) ⟨fun _ => 0, fun name => name = "a b@0| |c d@0"⟩ = .bool false := by
  have hsymbols : spliced.symbols ++ paired.symbols =
      [⟨"a b@0| |c d@0", .bool⟩, ⟨"a b@0", .bool⟩, ⟨"c d@0", .bool⟩] := rfl
  refine ⟨by simp [spliced, WellSorted, PartsWellSorted, sort],
    by simp [paired, WellSorted, PartsWellSorted, sort], ?_, ?_, ?_, by decide, by decide⟩
  · intro s hs
    simp only [hsymbols, List.mem_cons, List.not_mem_nil, or_false] at hs
    rcases hs with rfl | rfl | rfl
    · exact ⟨⟨"a b@0| |c d", 0⟩, by decide⟩
    · exact ⟨⟨"a b", 0⟩, by decide⟩
    · exact ⟨⟨"c d", 0⟩, by decide⟩
  · rw [hsymbols]
    decide
  · exact smt_and_splice (a := ⟨"a b", 0⟩) (b := ⟨"c d", 0⟩) (by decide) (by decide)

end Term

end Covenant
