import Covenant.Channel.Segment
import Covenant.Data.NameMap

namespace Covenant

inductive ChannelMode
  | send
  | receive
  deriving DecidableEq, Repr

def ChannelMode.text : ChannelMode → String
  | .send => "Send"
  | .receive => "Receive"

inductive ChannelError
  | unknownSegment (name : String)
  | segmentExists (name : String)
  | notOpen (name : String)
  | alreadyOpen (name : String)
  | closed (name : String)
  | wrongMode (name : String) (mode : ChannelMode)
  | overflow (length free : Nat)
  deriving DecidableEq, Repr

def ChannelError.message : ChannelError → String
  | .unknownSegment name => s!"no segment named `{name}`"
  | .segmentExists name => s!"a segment named `{name}` already exists"
  | .notOpen name => s!"channel `{name}` is not open"
  | .alreadyOpen name => s!"channel `{name}` is already open"
  | .closed name => s!"channel `{name}` is closed"
  | .wrongMode name mode => "channel `" ++ name ++ "` is open for " ++ mode.text
  | .overflow length free => s!"payload of {length} bytes exceeds free length {free}"

-- All segments by number, and the one that each name stands for now. A segment whose name is taken
-- away lives on for the ends that have it open.
structure Registry where
  owner : String
  names : NameMap Nat
  segments : List Segment
  freshCount : Nat
  deriving DecidableEq, Repr

namespace Registry

def empty (owner : String) : Registry := ⟨owner, .empty, [], 0⟩

def contains (r : Registry) (name : String) : Bool := r.names.contains name

def create (r : Registry) (name : String) (capacity : Nat) : Except ChannelError Registry :=
  if r.contains name then .error (.segmentExists name)
  else .ok { r with
    names := r.names.insert name r.segments.length
    segments := r.segments ++ [.empty capacity] }

def remove (r : Registry) (name : String) : Registry := { r with names := r.names.erase name }

-- A name that this registry has not given out before.
def freshName (r : Registry) (stem : String) : String × Registry :=
  (stem ++ "-" ++ r.owner ++ "-" ++ toString r.freshCount,
    { r with freshCount := r.freshCount + 1 })

-- A number without a segment counts as a closed one.
def segment (r : Registry) (number : Nat) : Segment :=
  (r.segments[number]?).getD (Segment.empty 0).close

def update (r : Registry) (number : Nat) (f : Segment → Segment) : Registry :=
  { r with segments := r.segments.modify number f }

end Registry

inductive Attachment
  | unopened
  | attached (segment : Nat)
  | detached
  deriving DecidableEq, Repr

-- One end of a segment.
structure Channel where
  name : String
  mode : ChannelMode
  attachment : Attachment
  deriving DecidableEq, Repr

namespace Channel

def new (name : String) (mode : ChannelMode) : Channel := ⟨name, mode, .unopened⟩

def openEnd (c : Channel) (r : Registry) : Except ChannelError Channel :=
  match c.attachment with
  | .attached _ => .error (.alreadyOpen c.name)
  | .detached => .error (.closed c.name)
  | .unopened =>
      match r.names.get? c.name with
      | none => .error (.unknownSegment c.name)
      | some number =>
          if (r.segment number).closed then .error (.closed c.name)
          else .ok { c with attachment := .attached number }

-- Closes the segment for all of its ends.
def close (c : Channel) (r : Registry) : Channel × Registry :=
  let closed := { c with attachment := .detached }
  match c.attachment with
  | .attached number => (closed, r.update number Segment.close)
  | _ => (closed, r)

def isOpen (c : Channel) (r : Registry) : Bool :=
  match c.attachment with
  | .attached number => !(r.segment number).closed
  | _ => false

-- The segment of an end that is open for the mode.
def segmentFor (c : Channel) (mode : ChannelMode) (r : Registry) : Except ChannelError Nat :=
  match c.attachment with
  | .unopened => .error (.notOpen c.name)
  | .detached => .error (.closed c.name)
  | .attached number =>
      if c.mode ≠ mode then .error (.wrongMode c.name c.mode)
      else if (r.segment number).closed then .error (.closed c.name)
      else .ok number

-- The longest message that a write would take now.
def freeLength (c : Channel) (r : Registry) : Except ChannelError Nat := do
  let number ← c.segmentFor .send r
  return (r.segment number).free

-- Queues a message, or leaves the segment as it is.
def write (c : Channel) (message : Bytes) (r : Registry) : Except ChannelError Registry := do
  let number ← c.segmentFor .send r
  let free := (r.segment number).free
  if message.length < Segment.lengthLimit ∧ message.length ≤ free then
    return r.update number (·.push message)
  else throw (.overflow message.length free)

-- Takes the oldest message, where there is one.
def read (c : Channel) (r : Registry) : Except ChannelError (Option Bytes × Registry) := do
  let number ← c.segmentFor .receive r
  match (r.segment number).pop with
  | none => return (none, r)
  | some (message, rest) => return (some message, r.update number fun _ => rest)

-- How many bytes are queued for the end.
def pending (c : Channel) (r : Registry) : Nat :=
  match c.attachment with
  | .attached number => (r.segment number).bytes.length
  | _ => 0

end Channel

end Covenant
