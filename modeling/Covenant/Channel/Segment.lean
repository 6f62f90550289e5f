namespace Covenant

abbrev Bytes := List UInt8

-- A bounded queue of bytes. Each message stands in it as a length and the bytes of the message.
structure Segment where
  capacity : Nat
  bytes : Bytes
  closed : Bool
  deriving DecidableEq, Repr

namespace Segment

-- How many bytes the length of a message takes.
def headerSize : Nat := 4

-- One more than the longest message whose length fits the header.
def lengthLimit : Nat := 0x100000000

-- The lowest byte of a length comes first.
def header (length : Nat) : Bytes :=
  [UInt8.ofNat length, UInt8.ofNat (length / 0x100), UInt8.ofNat (length / 0x10000),
    UInt8.ofNat (length / 0x1000000)]

def lengthOf (b₀ b₁ b₂ b₃ : UInt8) : Nat :=
  b₀.toNat + 0x100 * b₁.toNat + 0x10000 * b₂.toNat + 0x1000000 * b₃.toNat

def empty (capacity : Nat) : Segment := ⟨capacity, [], false⟩

-- The longest message that there is room for.
def free (s : Segment) : Nat := s.capacity - s.bytes.length - headerSize

def push (s : Segment) (message : Bytes) : Segment :=
  ⟨s.capacity, s.bytes ++ (header message.length ++ message), s.closed⟩

-- The oldest message, and the queue without it.
def pop (s : Segment) : Option (Bytes × Segment) :=
  match s.bytes with
  | b₀ :: b₁ :: b₂ :: b₃ :: rest =>
      let length := lengthOf b₀ b₁ b₂ b₃
      some (rest.take length, ⟨s.capacity, rest.drop length, s.closed⟩)
  | _ => none

-- A closed queue holds nothing.
def close (s : Segment) : Segment := ⟨s.capacity, [], true⟩

end Segment

end Covenant
