import Covenant.Text.Utf8
import Mathlib.Tactic

namespace Covenant.Text

-- The text of some bytes is the one that was written.
theorem ofBytes_toBytes (s : String) : ofBytes (toBytes s) = s.toList := by
  have hbytes : (toBytes s).toByteArray = s.toByteArray := by
    apply ByteArray.ext
    rw [List.data_toByteArray, toBytes]
    exact Array.toArray_toList
  have hutf8 : String.fromUTF8? s.toByteArray = some s := by
    rw [String.fromUTF8?, dif_pos s.isValidUTF8]
    rfl
  simp only [ofBytes, hbytes, hutf8]

theorem toBytes_injective {s t : String} (h : toBytes s = toBytes t) : s = t := by
  have hchars := congrArg ofBytes h
  rw [ofBytes_toBytes, ofBytes_toBytes] at hchars
  exact String.toList_injective hchars

theorem toBytes_ofList (cs : List Char) :
    toBytes (String.ofList cs) = cs.flatMap String.utf8EncodeChar := by
  rw [toBytes, String.toUTF8_eq_toByteArray, String.toByteArray_ofList, List.utf8Encode,
    List.data_toByteArray]

theorem length_toBytes_ofList (cs : List Char) :
    (toBytes (String.ofList cs)).length ≤ 4 * cs.length := by
  rw [toBytes_ofList]
  induction cs with
  | nil => exact Nat.zero_le _
  | cons c rest ih =>
      have hc := Char.utf8Size_le_four c
      rw [List.flatMap_cons, List.length_append, String.length_utf8EncodeChar, List.length_cons]
      omega

-- Said with `all`, which is decided along the list and not over all characters.
theorem length_toBytes_of_ascii {cs : List Char} (h : cs.all (·.val ≤ 127) = true) :
    (toBytes (String.ofList cs)).length = cs.length := by
  rw [toBytes_ofList]
  induction cs with
  | nil => rfl
  | cons c rest ih =>
      rw [List.all_cons, Bool.and_eq_true, decide_eq_true_iff] at h
      rw [List.flatMap_cons, List.length_append, String.length_utf8EncodeChar, ih h.2,
        Char.utf8Size_eq_one_iff.mpr h.1, List.length_cons, Nat.add_comm]

end Covenant.Text
