import Covenant.Alias.Name

namespace Covenant.AliasName

theorem splitLast_append_cons (c : Char) (left right : List Char) (h : c ∉ right) :
    splitLast c (left ++ c :: right) = some (left, right) := by
  have hright : splitLast c right = none := by
    induction right with
    | nil => rfl
    | cons d rest ih =>
        simp only [List.mem_cons, not_or] at h
        simp [splitLast, ih h.2, Ne.symm h.1]
  induction left with
  | nil => simp [splitLast, hright]
  | cons d left ih => simp [splitLast, ih]

theorem separator_not_mem_toDigits (n : Nat) : '@' ∉ Nat.toDigits 10 n := by
  intro hmem
  have hdigit := Nat.isDigit_of_mem_toDigits (by omega) (by omega) hmem
  exact absurd hdigit (by decide)

theorem splitLast_text (a : AliasName) :
    splitLast '@' a.text.toList = some (a.base.toList, Nat.toDigits 10 a.generation) := by
  have htext : a.text.toList = a.base.toList ++ '@' :: Nat.toDigits 10 a.generation := by
    simp [text]
  rw [htext]
  exact splitLast_append_cons '@' _ _ (separator_not_mem_toDigits a.generation)

-- The generation stands after the last separator, so two aliases never share a symbol.
theorem text_injective {a b : AliasName} (h : a.text = b.text) : a = b := by
  have hsplit := (splitLast_text a).symm.trans (h ▸ splitLast_text b)
  simp only [Option.some.injEq, Prod.mk.injEq] at hsplit
  obtain ⟨hbase, hdigits⟩ := hsplit
  have hgeneration : a.generation = b.generation := by
    rw [← @Nat.ofDigitChars_ten_toDigits a.generation, hdigits, Nat.ofDigitChars_ten_toDigits]
  cases a
  cases b
  simp_all [String.toList_inj]

theorem decimal_toDigits (n : Nat) : decimal (Nat.toDigits 10 n) = n := by
  have h := Nat.ofDigitChars_ten_toDigits (n := n)
  rw [Nat.ofDigitChars_eq_foldl] at h
  exact h

section Digits

variable {ds : List Char} (hne : ds ≠ []) (hds : ∀ c ∈ ds, c.isDigit = true)

include hne hds

theorem readGeneration_plus :
    readGeneration ('+' :: ds) = if decimal ds < generationLimit then some (decimal ds) else none := by
  have hempty : ds.isEmpty = false := List.isEmpty_eq_false_iff.mpr hne
  have hall : ds.all Char.isDigit = true := List.all_eq_true.mpr hds
  simp [readGeneration, hempty, hall]

-- Without a sign, digits are read as after one.
theorem readGeneration_digits :
    readGeneration ds = if decimal ds < generationLimit then some (decimal ds) else none := by
  rw [← readGeneration_plus hne hds]
  unfold readGeneration
  split
  · have hplus := hds '+' List.mem_cons_self
    exact absurd hplus (by decide)
  · rfl

end Digits

theorem readGeneration_toDigits (n : Nat) :
    readGeneration (Nat.toDigits 10 n) = if n < generationLimit then some n else none := by
  have hdigits : ∀ c ∈ Nat.toDigits 10 n, c.isDigit = true := fun c hc =>
    Nat.isDigit_of_mem_toDigits (by omega) (by omega) hc
  rw [readGeneration_digits Nat.toDigits_ne_nil hdigits, decimal_toDigits]

-- An alias is read back from its symbol, unless its generation is too large for a word.
theorem parse?_text (a : AliasName) :
    parse? a.text = if a.generation < generationLimit then some a else none := by
  rw [parse?, splitLast_text]
  simp only [readGeneration_toDigits]
  split
  · simp
  · rfl

end Covenant.AliasName
