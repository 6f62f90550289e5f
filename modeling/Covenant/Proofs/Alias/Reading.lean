import Covenant.Proofs.Alias.Text
import Covenant.Proofs.Encoding.Expression

namespace Covenant

namespace AliasName

-- A digit is the one digit of its own value.
theorem toDigits_digit {c : Char} (h : c.isDigit = true) :
    c.toNat - '0'.toNat < 10 ∧ Nat.toDigits 10 (c.toNat - '0'.toNat) = [c] := by
  have hrange : 48 ≤ c.toNat ∧ c.toNat ≤ 57 := Char.isDigit_iff_toNat.mp h
  have hzero : '0'.toNat = 48 := rfl
  have hlt : c.toNat - '0'.toNat < 10 := by omega
  have hdigit : Nat.digitChar (c.toNat - '0'.toNat) = c := by
    apply Char.toNat_inj.mp
    rw [Nat.toNat_digitChar_of_lt_ten hlt]
    omega
  exact ⟨hlt, by rw [Nat.toDigits_of_lt_base hlt, hdigit]⟩

-- Digits that follow the digits of a number other than zero make up the digits of a larger one.
theorem toDigits_append_digits {ds : List Char} (hds : ∀ c ∈ ds, c.isDigit = true) {n : Nat}
    (hn : 0 < n) : Nat.toDigits 10 n ++ ds = Nat.toDigits 10 (Nat.ofDigitChars 10 ds n) := by
  induction ds generalizing n with
  | nil => simp
  | cons c cs ih =>
      obtain ⟨hlt, hdigit⟩ := toDigits_digit (hds c List.mem_cons_self)
      have hstep := Nat.toDigits_append_toDigits (by omega) hn hlt
      rw [hdigit] at hstep
      calc Nat.toDigits 10 n ++ c :: cs
        _ = Nat.toDigits 10 n ++ [c] ++ cs := by simp
        _ = Nat.toDigits 10 (10 * n + (c.toNat - '0'.toNat)) ++ cs := by rw [hstep]
        _ = Nat.toDigits 10 (Nat.ofDigitChars 10 (c :: cs) n) := by
          rw [ih (fun d hd => hds d (List.mem_cons_of_mem c hd)) (by omega), Nat.ofDigitChars_cons]

theorem decimal_eq (ds : List Char) : decimal ds = Nat.ofDigitChars 10 ds 0 :=
  Nat.ofDigitChars_eq_foldl.symm

-- Digits are those of the number that they stand for, with zeros in front of them.
theorem eq_zeros_append_toDigits {ds : List Char} (hne : ds ≠ []) (hds : ∀ c ∈ ds, c.isDigit = true) :
    ∃ zeros, ds = List.replicate zeros '0' ++ Nat.toDigits 10 (decimal ds) := by
  induction ds with
  | nil => exact absurd rfl hne
  | cons c cs ih =>
      have hcs : ∀ d ∈ cs, d.isDigit = true := fun d hd => hds d (List.mem_cons_of_mem c hd)
      by_cases hc : c = '0'
      · subst hc
        cases cs with
        | nil => exact ⟨0, by decide⟩
        | cons d cs =>
            obtain ⟨zeros, hzeros⟩ := ih (by simp) hcs
            have hdecimal : decimal ('0' :: d :: cs) = decimal (d :: cs) := by
              simp only [decimal_eq, Nat.ofDigitChars_cons]
              rfl
            refine ⟨zeros + 1, ?_⟩
            rw [hdecimal, List.replicate_succ, List.cons_append, ← hzeros]
      · -- The first digit is not zero, so nothing stands in front of the number.
        have hfirst := (toDigits_digit (hds c List.mem_cons_self)).2
        have hpos : 0 < c.toNat - '0'.toNat := by
          apply Nat.pos_of_ne_zero
          intro hzero
          rw [hzero] at hfirst
          exact hc (List.singleton_inj.mp hfirst).symm
        have happend := toDigits_append_digits hcs hpos
        rw [hfirst] at happend
        exact ⟨0, by simpa [decimal_eq, Nat.ofDigitChars_cons] using happend⟩

theorem decimal_zeros_append (zeros n : Nat) :
    decimal (List.replicate zeros '0' ++ Nat.toDigits 10 n) = n := by
  rw [decimal_eq, Nat.ofDigitChars_append, Nat.ofDigitChars_replicate_zero, Nat.mul_zero,
    Nat.ofDigitChars_ten_toDigits]

-- A generation is written with a plus sign or none, zeros, and its decimal digits.
theorem readGeneration_eq_some {text : List Char} {n : Nat} :
    readGeneration text = some n ↔ n < generationLimit ∧
      ∃ sign ∈ [[], ['+']], ∃ zeros, text = sign ++ (List.replicate zeros '0' ++ Nat.toDigits 10 n) := by
  constructor
  · intro h
    have hread : ∀ ds : List Char,
        (if !ds.isEmpty && ds.all Char.isDigit && decimal ds < generationLimit then
          some (decimal ds) else none) = some n →
        n < generationLimit ∧ ∃ zeros, ds = List.replicate zeros '0' ++ Nat.toDigits 10 n := by
      intro ds hds
      simp only [Option.ite_none_right_eq_some, Bool.and_eq_true, Bool.not_eq_true',
        List.isEmpty_eq_false_iff, List.all_eq_true, decide_eq_true_eq, Option.some.injEq] at hds
      obtain ⟨⟨⟨hne, hdigits⟩, hlimit⟩, rfl⟩ := hds
      exact ⟨hlimit, eq_zeros_append_toDigits hne hdigits⟩
    unfold readGeneration at h
    split at h
    · obtain ⟨hlimit, zeros, hzeros⟩ := hread _ h
      exact ⟨hlimit, ['+'], by simp, zeros, by rw [← hzeros]; rfl⟩
    · obtain ⟨hlimit, zeros, hzeros⟩ := hread _ h
      exact ⟨hlimit, [], by simp, zeros, hzeros⟩
  · rintro ⟨hlimit, sign, hsign, zeros, rfl⟩
    have hne : List.replicate zeros '0' ++ Nat.toDigits 10 n ≠ [] := by simp [Nat.toDigits_ne_nil]
    have hdigits : ∀ c ∈ List.replicate zeros '0' ++ Nat.toDigits 10 n, c.isDigit = true := by
      intro c hc
      rcases List.mem_append.mp hc with hzero | hdigit
      · rw [List.eq_of_mem_replicate hzero]
        rfl
      · exact Nat.isDigit_of_mem_toDigits (by omega) (by omega) hdigit
    simp only [List.mem_cons, List.not_mem_nil, or_false] at hsign
    rcases hsign with rfl | rfl
    · rw [List.nil_append, readGeneration_digits hne hdigits, decimal_zeros_append, if_pos hlimit]
    · rw [List.singleton_append, readGeneration_plus hne hdigits, decimal_zeros_append,
        if_pos hlimit]

theorem not_mem_of_splitLast {c : Char} {cs : List Char} (h : splitLast c cs = none) : c ∉ cs := by
  induction cs with
  | nil => simp
  | cons d rest ih =>
      simp only [splitLast] at h
      split at h
      · cases h
      · rename_i hrest
        split at h
        · cases h
        · rename_i hne
          simp [ih hrest, Ne.symm hne]

-- The parts are those before and after the last separator.
theorem splitLast_eq_some {c : Char} {cs left right : List Char} :
    splitLast c cs = some (left, right) ↔ cs = left ++ c :: right ∧ c ∉ right := by
  constructor
  · intro h
    induction cs generalizing left with
    | nil => cases h
    | cons d rest ih =>
        simp only [splitLast] at h
        split at h
        · rename_i hrest
          cases h
          obtain ⟨rfl, hmem⟩ := ih hrest
          exact ⟨rfl, hmem⟩
        · rename_i hrest
          split at h
          · rename_i hd
            cases h
            exact ⟨by rw [hd, List.nil_append], not_mem_of_splitLast hrest⟩
          · cases h
  · rintro ⟨rfl, hmem⟩
    exact splitLast_append_cons c left right hmem

-- The symbol is the base, the separator, a plus sign or none, zeros, and the generation in decimal.
def SpelledBy (a : AliasName) (symbol : String) : Prop :=
  ∃ sign ∈ ["", "+"], ∃ zeros : Nat, symbol =
    a.base ++ "@" ++ sign ++ String.ofList (List.replicate zeros '0') ++ toString a.generation

theorem spelledBy_iff {a : AliasName} {symbol : String} : a.SpelledBy symbol ↔
    ∃ sign ∈ [[], ['+']], ∃ zeros, symbol.toList = a.base.toList ++
      '@' :: (sign ++ (List.replicate zeros '0' ++ Nat.toDigits 10 a.generation)) := by
  constructor
  · rintro ⟨sign, hsign, zeros, rfl⟩
    exact ⟨sign.toList, List.mem_map_of_mem hsign, zeros, by simp⟩
  · rintro ⟨sign, hsign, zeros, h⟩
    refine ⟨String.ofList sign, List.mem_map_of_mem hsign, zeros, ?_⟩
    rw [← String.toList_inj, h]
    simp

theorem separator_not_mem_generation {sign : List Char} (hsign : sign ∈ [[], ['+']]) (zeros n : Nat) :
    '@' ∉ sign ++ (List.replicate zeros '0' ++ Nat.toDigits 10 n) := by
  have hdigits := separator_not_mem_toDigits n
  simp only [List.mem_cons, List.not_mem_nil, or_false] at hsign
  rcases hsign with rfl | rfl <;> simp [hdigits]

-- Exactly the spellings of an alias are read as that alias.
theorem parse?_eq_some {symbol : String} {a : AliasName} :
    parse? symbol = some a ↔ a.generation < generationLimit ∧ a.SpelledBy symbol := by
  rw [spelledBy_iff]
  constructor
  · intro h
    unfold parse? at h
    split at h
    · cases h
    · rename_i base generation hsplit
      obtain ⟨n, hread, rfl⟩ := Option.map_eq_some_iff.mp h
      obtain ⟨hlimit, sign, hsign, zeros, rfl⟩ := readGeneration_eq_some.mp hread
      refine ⟨hlimit, sign, hsign, zeros, ?_⟩
      rw [(splitLast_eq_some.mp hsplit).1, String.toList_ofList]
  · rintro ⟨hlimit, sign, hsign, zeros, htext⟩
    have hmem := separator_not_mem_generation hsign zeros a.generation
    have hread := readGeneration_eq_some.mpr ⟨hlimit, sign, hsign, zeros, rfl⟩
    rw [parse?, htext, splitLast_append_cons '@' _ _ hmem]
    simp only [hread, Option.map_some, String.ofList_toList]

-- Every alias of a generation that fits a word is read back from its own symbol, so no two aliases
-- share one, and what is read as an alias is a spelling of it.
theorem read_back_from_symbol :
    (∀ a : AliasName, a.generation < generationLimit → parse? a.text = some a) ∧
    (∀ a b : AliasName, a ≠ b → a.text ≠ b.text) ∧
    (∀ (signature : Signature) (a b : AliasName) (s : Term), a ≠ b →
      signature.symbol a = .ok s → signature.symbol b ≠ .ok s) ∧
    (∀ (symbol : String) (a : AliasName), parse? symbol = some a ↔
      a.generation < generationLimit ∧ a.SpelledBy symbol) ∧
    (∀ (symbol : String) (a : AliasName), parse? symbol = some a → parse? a.text = some a) := by
  have hback : ∀ a : AliasName, a.generation < generationLimit → parse? a.text = some a := by
    intro a hlimit
    rw [parse?_text, if_pos hlimit]
  refine ⟨hback, fun a b hne htext => hne (text_injective htext), ?_,
    fun symbol a => parse?_eq_some, ?_⟩
  · intro signature a b s hne ha hb
    obtain ⟨-, rfl⟩ := Signature.symbol_eq_ok.mp ha
    obtain ⟨-, hsymbol⟩ := Signature.symbol_eq_ok.mp hb
    exact hne (Signature.symbolOf_injective (Term.var.inj hsymbol))
  · intro symbol a h
    exact hback a (parse?_eq_some.mp h).1

theorem read_back_from_symbol_nested :
    parse? (text ⟨"x@+07@", 4294967295⟩) = some ⟨"x@+07@", 4294967295⟩ ∧
    text ⟨"x@1", 1⟩ ≠ text ⟨"x", 11⟩ ∧
    parse? "@+00" = some ⟨"", 0⟩ ∧ parse? (text ⟨"", 0⟩) = some ⟨"", 0⟩ := by
  have hspelled : parse? "@+00" = some ⟨"", 0⟩ :=
    (read_back_from_symbol.2.2.2.1 _ _).mpr ⟨by decide, "+", by simp, 1, by decide⟩
  exact ⟨read_back_from_symbol.1 _ (by decide), read_back_from_symbol.2.1 _ _ (by decide), hspelled,
    read_back_from_symbol.2.2.2.2 _ _ hspelled⟩

end AliasName

end Covenant
