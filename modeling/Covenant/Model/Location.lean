namespace Covenant

-- A place in the source text: line and column, and the span of bytes.
structure Location where
  line : UInt32
  column : UInt32
  offset : UInt64
  len : UInt64
  deriving DecidableEq, Repr, Inhabited

namespace Location

-- The place of whatever comes without one.
def unknown : Location := ⟨0, 0, 0, 0⟩

def text (l : Location) : String := s!"{l.line}:{l.column}"

end Location

end Covenant
