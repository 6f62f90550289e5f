namespace Covenant.Text

-- Adds the bits of so many continuation bytes to a number.
def continued (n : Nat) : Nat → List UInt8 → Option Nat
  | 0, _ => some n
  | _ + 1, [] => none
  | count + 1, b :: rest =>
      if 0x80 ≤ b && b < 0xC0 then continued (64 * n + (b.toNat - 0x80)) count rest else none

-- The character that starts with a byte, and how many of the bytes after it belong to it. A
-- character is written with as few bytes as it can be.
def charAt (first : UInt8) (rest : List UInt8) : Option (Char × Nat) :=
  let wide (lead least size : Nat) : Option (Char × Nat) :=
    match continued (first.toNat - lead) size rest with
    | some n => if least ≤ n ∧ n.isValidChar then some (Char.ofNat n, size) else none
    | none => none
  if first < 0x80 then some (Char.ofNat first.toNat, 0)
  else if first < 0xC0 then none
  else if first < 0xE0 then wide 0xC0 0x80 1
  else if first < 0xF0 then wide 0xE0 0x800 2
  else if first < 0xF8 then wide 0xF0 0x10000 3
  else none

-- What stands for a stray byte in a text: the escape of half a surrogate pair, and a letter that
-- keeps it from meeting the other half.
def strayEscape : List Char := "\\ud800x".toList

-- A text that JSON takes for the bytes where it takes the bytes. A stray byte is fine only in a
-- string that is skipped, and never after a backslash.
def patched (escaped : Bool) (bytes : List UInt8) : List Char :=
  match bytes with
  | [] => []
  | b :: rest =>
      match charAt b rest with
      | some (c, size) => c :: patched (c = '\\' && !escaped) (rest.drop size)
      | none => (if escaped then ['x'] else strayEscape) ++ patched false rest
termination_by bytes.length
decreasing_by
  · simp only [List.length_drop, List.length_cons]
    omega
  · simp only [List.length_cons]
    omega

def ofBytes (bytes : List UInt8) : List Char :=
  match String.fromUTF8? bytes.toByteArray with
  | some s => s.toList
  | none => patched false bytes

def toBytes (s : String) : List UInt8 := s.toUTF8.data.toList

end Covenant.Text
