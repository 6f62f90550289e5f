import Covenant.Json.Parse
import Covenant.Text.Quoted

namespace Covenant.Json

-- Why a value that could be followed is not of the wanted shape.
inductive Mismatch
  | invalidType (found : Found)
  | outOfRange (n : Int)
  | invalidLength (n : Nat)
  | missingField (name : String)
  | duplicateField (name : String)
  | unknownVariant (name : String)
  | duplicateName (name : String)
  deriving DecidableEq, Repr

inductive ReadError
  | fault (f : Fault)
  | mismatch (m : Mismatch)
  deriving DecidableEq, Repr

def Found.message : Found → String
  | .null => "null"
  | .bool b => if b then "boolean `true`" else "boolean `false`"
  | .int n => s!"integer `{n}`"
  | .float => "floating point"
  | .string s => "string " ++ Text.quoted s
  | .sequence => "sequence"
  | .map => "map"
  | .unitVariant => "unit variant"

def Mismatch.message : Mismatch → String
  | .invalidType found => "invalid type: " ++ found.message
  | .outOfRange n => s!"invalid value: integer `{n}`"
  | .invalidLength n => s!"invalid length {n}"
  | .missingField name => s!"missing field `{name}`"
  | .duplicateField name => s!"duplicate field `{name}`"
  | .unknownVariant name => s!"unknown variant `{name}`"
  | .duplicateName name => s!"duplicate name `{name}`"

abbrev Result (α : Type) := Except ReadError α

-- Reads a value of a type from a tree. The number is how many containers may still be entered.
abbrev Reader (α : Type) := Nat → Tree → Result α

namespace Reader

def fail (m : Mismatch) : Result α := .error (.mismatch m)

def stop (f : Fault) : Result α := .error (.fault f)

def unexpected (t : Tree) : Result α :=
  match t.found with
  | .ok found => fail (.invalidType found)
  | .error fault => stop fault

-- A container may be entered while the depth allows it.
def enter (depth : Nat) (inside : Nat → Result α) : Result α :=
  match depth with
  | 0 => stop .malformed
  | depth + 1 => inside depth

def close (ending : Option Fault) (a : α) : Result α :=
  match ending with
  | none => .ok a
  | some fault => stop fault

def key (k : Key) : Result String :=
  match k.read with
  | .ok name => .ok name
  | .error fault => stop fault

def map (f : α → β) (reader : Reader α) : Reader β := fun depth t => (reader depth t).map f

def bool : Reader Bool
  | _, .bool b => .ok b
  | _, t => unexpected t

def string : Reader String
  | _, .string s => .ok s
  | _, t => unexpected t

def integer (low high : Int) : Reader Int
  | _, .int n => if low ≤ n ∧ n ≤ high then .ok n else fail (.outOfRange n)
  | _, t => unexpected t

def natBelow (bound : Nat) : Reader Nat := map Int.toNat (integer 0 (bound - 1))

def uint32 : Reader UInt32 := map UInt32.ofNat (natBelow 0x100000000)

def uint64 : Reader UInt64 := map UInt64.ofNat (natBelow 0x10000000000000000)

def int64 : Reader Int64 := map Int64.ofInt (integer (-0x8000000000000000) 0x7FFFFFFFFFFFFFFF)

-- Null is `none`.
def option (reader : Reader α) : Reader (Option α)
  | _, .null => .ok none
  | depth, .flawed first onRead onSkip =>
      if first = 'n' then stop onRead else (reader depth (.flawed first onRead onSkip)).map some
  | depth, t => (reader depth t).map some

def items (reader : Reader α) (depth : Nat) : List Tree → Result (List α)
  | [] => .ok []
  | t :: ts => do
      let a ← reader depth t
      let as ← items reader depth ts
      return a :: as

def list (reader : Reader α) : Reader (List α)
  | depth, .array trees ending => enter depth fun depth => do
      let as ← items reader depth trees
      close ending as
  | _, t => unexpected t

def entries (reader : Reader α) (depth : Nat) : List (Key × Tree) → Result (List (String × α))
  | [] => .ok []
  | (k, t) :: members => do
      let name ← key k
      let a ← reader depth t
      let rest ← entries reader depth members
      return (name, a) :: rest

-- The members of an object with free names, in order.
def dictionary (reader : Reader α) : Reader (List (String × α))
  | depth, .object members ending => enter depth fun depth => do
      let rest ← entries reader depth members
      close ending rest
  | _, t => unexpected t

end Reader

-- A field of a record: its name, how it is read, and its value where it is left out.
structure Field (α : Type) where
  name : String
  reader : Reader α
  absent : Option α

def Field.required (name : String) (reader : Reader α) : Field α := ⟨name, reader, none⟩

def Field.defaulting (name : String) (reader : Reader α) (value : α) : Field α :=
  ⟨name, reader, some value⟩

-- The fields of a record in order, with their types.
inductive Fields : List Type → Type 1
  | nil : Fields []
  | cons {α : Type} {αs : List Type} (field : Field α) (rest : Fields αs) : Fields (α :: αs)

-- One value for each field.
def Row : List Type → Type
  | [] => Unit
  | α :: αs => α × Row αs

-- The values read so far.
def Slots : List Type → Type
  | [] => Unit
  | α :: αs => Option α × Slots αs

namespace Fields

open Reader

def emptySlots : Fields αs → Slots αs
  | .nil => ()
  | .cons _ rest => (none, rest.emptySlots)

-- Reads one member. A field is filled once, and a member that is no field is skipped.
def fill (depth : Nat) (name : String) (t : Tree) : Fields αs → Slots αs → Result (Slots αs)
  | .nil, () => close t.skip ()
  | .cons field rest, (slot, slots) =>
      if field.name = name then
        match slot with
        | some _ => fail (.duplicateField name)
        | none => do
            let a ← field.reader depth t
            return (some a, slots)
      else do
        let slots ← rest.fill depth name t slots
        return (slot, slots)

def fillAll (fields : Fields αs) (depth : Nat) : List (Key × Tree) → Slots αs → Result (Slots αs)
  | [], slots => .ok slots
  | (k, t) :: members, slots => do
      let name ← key k
      let slots ← fields.fill depth name t slots
      fields.fillAll depth members slots

def finish : Fields αs → Slots αs → Result (Row αs)
  | .nil, () => .ok ()
  | .cons field rest, (slot, slots) =>
      match slot.or field.absent with
      | none => fail (.missingField field.name)
      | some a => do
          let row ← rest.finish slots
          return (a, row)

-- Reads the fields from the items of an array, which start at position `index`.
def ofItems (depth : Nat) (ending : Option Fault) :
    (index : Nat) → Fields αs → List Tree → Result (Row αs)
  | _, .nil, [] => close ending ()
  | _, .nil, _ :: _ => stop .malformed
  | index, .cons field rest, t :: ts => do
      let a ← field.reader depth t
      let row ← rest.ofItems depth ending (index + 1) ts
      return (a, row)
  | index, .cons field rest, [] =>
      match ending, field.absent with
      | some fault, _ => stop fault
      | none, none => fail (.invalidLength index)
      | none, some a => do
          let row ← rest.ofItems depth ending (index + 1) []
          return (a, row)

end Fields

-- One form of a value that has several: a bare name, or a name with content.
inductive Variant (α : Type)
  | unit (name : String) (value : α)
  | content (name : String) (reader : Reader α)

def Variant.name : Variant α → String
  | .unit name _ => name
  | .content name _ => name

namespace Reader

-- A record is an object, or an array of its fields in order.
def record (fields : Fields αs) : Reader (Row αs)
  | depth, .object members ending => enter depth fun depth => do
      let slots ← fields.fillAll depth members fields.emptySlots
      let slots ← close ending slots
      fields.finish slots
  | depth, .array trees ending => enter depth fun depth => fields.ofItems depth ending 0 trees
  | _, t => unexpected t

-- A tuple is an array with exactly its parts.
def tuple (fields : Fields αs) : Reader (Row αs)
  | depth, .array trees ending => enter depth fun depth => fields.ofItems depth ending 0 trees
  | _, t => unexpected t

def find (variants : List (Variant α)) (name : String) : Result (Variant α) :=
  match variants.find? fun variant => variant.name = name with
  | some variant => .ok variant
  | none => fail (.unknownVariant name)

def content (depth : Nat) (t : Tree) : Variant α → Result α
  | .unit _ value =>
      match t with
      | .null => .ok value
      | t => unexpected t
  | .content _ reader => reader depth t

-- A bare name, or an object whose only member is named for the variant.
def choice (variants : List (Variant α)) : Reader α
  | _, .string s => do
      match ← find variants s with
      | .unit _ value => .ok value
      | .content _ _ => fail (.invalidType .unitVariant)
  | depth, .object members ending => enter depth fun depth =>
      match members with
      | [] => stop (ending.getD .malformed)
      | (k, t) :: more => do
          let name ← key k
          let variant ← find variants name
          let a ← content depth t variant
          match more with
          | [] => close ending a
          | _ :: _ => stop .malformed
  | _, .flawed first onRead _ => stop (if first = '"' then onRead else .malformed)
  | _, .missing => stop .truncated
  | _, _ => stop .malformed

end Reader

-- How many containers a document may have open at once.
def depthLimit : Nat := 127

-- Reads a whole document. Nothing but blanks may follow its value.
def Document.read (reader : Reader α) (document : Document) : Result α := do
  let a ← reader depthLimit document.root
  if document.trailing then Reader.stop .malformed else return a

def read (reader : Reader α) (text : List Char) : Result α := (Document.parse text).read reader

end Covenant.Json
