import Covenant.Term.Eval

namespace Covenant.Search

-- How far a search goes: integers up to the radius, and at most so many candidates.
structure Bounds where
  radius : UInt32
  budget : UInt64
  deriving DecidableEq, Repr

def Bounds.standard : Bounds := ⟨8, 250000⟩

-- The integers next to a literal, and its opposite.
def neighbours (c : Int64) : List Int64 :=
  [c.toInt - 1, c.toInt, c.toInt + 1, -c.toInt].filterMap fit

def inWindow (radius : UInt32) (n : Int64) : Bool := n.toInt.natAbs ≤ radius.toNat

-- The neighbours of all literals that lie outside the window, each once.
def seeds (radius : UInt32) (f : Formula) : List Int64 :=
  (((f.assertions.flatMap Term.literals).flatMap neighbours).filter
    fun n => !inWindow radius n).eraseDups

-- 0, 1, -1, 2, -2 and so on up to the radius.
def window (radius : UInt32) : List Int64 :=
  0 :: (List.range radius.toNat).flatMap fun k =>
    [Int64.ofNat (k + 1), Int64.ofInt (-(k + 1 : Nat))]

def domain (radius : UInt32) (seeds : List Int64) : TermSort → List Scalar
  | .bool => [.bool false, .bool true]
  | .int => (window radius ++ seeds).map .int

theorem domain_ne_nil (radius : UInt32) (seeds : List Int64) (sort : TermSort) :
    domain radius seeds sort ≠ [] := by
  cases sort <;> simp [domain, window]

end Covenant.Search
