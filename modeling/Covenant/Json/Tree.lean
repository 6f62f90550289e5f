namespace Covenant.Json

-- Why a text stops being a document: something stands where it cannot, or the text ends too early.
inductive Fault
  | malformed
  | truncated
  deriving DecidableEq, Repr

-- What stands at a place, as far as a message about it goes.
inductive Found
  | null
  | bool (b : Bool)
  | int (n : Int)
  | float
  | string (s : String)
  | sequence
  | map
  | unitVariant
  deriving DecidableEq, Repr

-- What stands where the name of a member is due. A flawed name began with a quote, and what is
-- misplaced did not. A skipped name may pass where a name that is read does not.
inductive Key
  | name (s : String)
  | flawed (onRead : Fault) (onSkip : Option Fault)
  | misplaced

-- A text as far as it can be followed. Faults are kept where they stand, so whoever walks the
-- tree in order meets the first of them first. A container's ending is `none` when it is closed.
-- A flawed value keeps its first character, and what goes wrong when it is read and when it is
-- skipped. A missing value is the end of the text where a value is due.
inductive Tree
  | null
  | bool (b : Bool)
  | int (n : Int)
  | float
  | string (s : String)
  | array (items : List Tree) (ending : Option Fault)
  | object (members : List (Key × Tree)) (ending : Option Fault)
  | flawed (first : Char) (onRead : Fault) (onSkip : Option Fault)
  | missing

namespace Key

def skip : Key → Option Fault
  | .name _ => none
  | .flawed _ onSkip => onSkip
  | .misplaced => some .malformed

def read : Key → Except Fault String
  | .name s => .ok s
  | .flawed onRead _ => .error onRead
  | .misplaced => .error .malformed

end Key

namespace Tree

def found : Tree → Except Fault Found
  | .null => .ok .null
  | .bool b => .ok (.bool b)
  | .int n => .ok (.int n)
  | .float => .ok .float
  | .string s => .ok (.string s)
  | .array _ _ => .ok .sequence
  | .object _ _ => .ok .map
  | .flawed _ onRead _ => .error onRead
  | .missing => .error .truncated

mutual

-- The first fault in a value whose content does not matter.
def skip : Tree → Option Fault
  | .array items ending => (skipItems items).or ending
  | .object members ending => (skipMembers members).or ending
  | .flawed _ _ onSkip => onSkip
  | .missing => some .truncated
  | _ => none

def skipItems : List Tree → Option Fault
  | [] => none
  | item :: items => (skip item).or (skipItems items)

def skipMembers : List (Key × Tree) → Option Fault
  | [] => none
  | (key, value) :: members => (key.skip.or (skip value)).or (skipMembers members)

end

mutual

-- Whether every value can be read and at most `depth` containers are open at once.
def sound (depth : Nat) : Tree → Bool
  | .array items ending => 0 < depth && ending.isNone && soundItems (depth - 1) items
  | .object members ending => 0 < depth && ending.isNone && soundMembers (depth - 1) members
  | .flawed _ _ _ => false
  | .missing => false
  | _ => true

def soundItems (depth : Nat) : List Tree → Bool
  | [] => true
  | item :: items => sound depth item && soundItems depth items

def soundMembers (depth : Nat) : List (Key × Tree) → Bool
  | [] => true
  | (key, value) :: members =>
      key.read.isOk && sound depth value && soundMembers depth members

end

end Tree

end Covenant.Json
