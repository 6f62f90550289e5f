namespace Covenant

-- A path as it is written.
abbrev Path := List Char

namespace Path

-- How much of a path its parents share: the root, or a dot for the current directory.
def leadLength : Path → Nat
  | '/' :: _ => 1
  | ['.'] => 1
  | '.' :: '/' :: _ => 1
  | _ => 0

-- The last name of a reversed path, and what is left before its separator.
def splitName : List Char → List Char × List Char
  | [] => ([], [])
  | '/' :: rest => ([], rest)
  | c :: rest =>
      let (name, before) := splitName rest
      (c :: name, before)

-- Drops separators and dots at the end of a path, which is reversed.
def trimReversed : Nat → List Char → List Char
  | 0, cs => cs
  | _ + 1, [] => []
  | rounds + 1, c :: cs =>
      let (name, before) := splitName (c :: cs)
      if name = [] ∨ name = ['.'] then trimReversed rounds before else c :: cs

-- The directory that a path names as the parent of its last name. Names are not looked up.
def parent? (p : Path) : Option Path :=
  let lead := p.take p.leadLength
  let body := (p.drop p.leadLength).reverse
  match trimReversed body.length body with
  | [] => if lead = ['.'] then some [] else none
  | c :: cs =>
      let before := (splitName (c :: cs)).2
      some (lead ++ (trimReversed before.length before).reverse)

def join (p : Path) (name : String) : Path :=
  match p.getLast? with
  | none => name.toList
  | some '/' => p ++ name.toList
  | some _ => p ++ '/' :: name.toList

def byteSize : Path → Nat
  | [] => 0
  | c :: rest => c.utf8Size + byteSize rest

-- The names in a path, where nothing stands between two separators that touch.
def names : Path → List (List Char)
  | [] => [[]]
  | '/' :: rest => [] :: names rest
  | c :: rest =>
      match names rest with
      | [] => [[c]]
      | name :: more => (c :: name) :: more

end Path

end Covenant
