import Covenant.Json.Print
import Mathlib.Tactic

namespace Covenant.Json

-- The digits of a number

theorem val_of_mem_digits {n : Nat} {c : Char} (h : c ∈ digits n) : 48 ≤ c.val ∧ c.val ≤ 57 := by
  have hdigit := Nat.isDigit_of_mem_toDigits (by omega) (by omega) h
  simpa [Char.isDigit] using hdigit

-- They are written as they are in a string, with one byte each.
theorem escape_of_val {c : Char} (h : 48 ≤ c.val ∧ c.val ≤ 57) : escape c = [c] := by
  obtain ⟨hlow, hhigh⟩ := h
  have hne : ∀ d : Char, d.val < 48 ∨ 57 < d.val → c ≠ d := by
    rintro d hd rfl
    rcases hd with hd | hd
    · exact absurd hd (UInt32.not_lt.mpr hlow)
    · exact absurd hd (UInt32.not_lt.mpr hhigh)
  have hcontrol : ¬c.toNat < 32 := by
    have hnat : (48 : UInt32).toNat ≤ c.val.toNat := hlow
    change ¬c.val.toNat < 32
    simp only [UInt32.reduceToNat] at hnat
    omega
  simp only [escape, hne '"' (by decide), hne '\\' (by decide), hne '\n' (by decide),
    hne '\r' (by decide), hne '\t' (by decide), hne '\x08' (by decide), hne '\x0c' (by decide),
    hcontrol, if_false]

theorem flatMap_escape_digits (n : Nat) : (digits n).flatMap escape = digits n := by
  have hdigits : ∀ c ∈ digits n, escape c = [c] := fun c hc => escape_of_val (val_of_mem_digits hc)
  rw [List.flatMap_congr hdigits, List.flatMap_singleton']

theorem ascii_digits (n : Nat) : (digits n).all (·.val ≤ 127) = true :=
  List.all_eq_true.mpr fun c hc =>
    decide_eq_true (UInt32.le_trans (val_of_mem_digits hc).2 (by decide))

-- A number of a machine word has at most 20 of them.
theorem length_digits_le {n : Nat} (h : n < 0x10000000000000000) : (digits n).length ≤ 20 :=
  (Nat.length_toDigits_le_iff (by omega) (by omega)).mpr (by omega)

theorem digitChar_ne_zero : ∀ n < 10, n ≠ 0 → Nat.digitChar n ≠ '0' := by decide

-- Only zero is written with a leading zero.
theorem digits_eq_cons {n : Nat} (h : n ≠ 0) : ∃ c ds, digits n = c :: ds ∧ c ≠ '0' := by
  induction n using Nat.strong_induction_on with
  | _ n ih =>
      by_cases hlt : n < 10
      · exact ⟨Nat.digitChar n, [], Nat.toDigits_of_lt_base hlt, digitChar_ne_zero n hlt h⟩
      · obtain ⟨c, ds, hds, hc⟩ := ih (n / 10) (by omega) (by omega)
        have hdigits : digits n = digits (n / 10) ++ [Nat.digitChar (n % 10)] :=
          Nat.toDigits_of_base_le (by omega) (by omega)
        exact ⟨c, ds ++ [Nat.digitChar (n % 10)], by rw [hdigits, hds]; rfl, hc⟩

end Covenant.Json
