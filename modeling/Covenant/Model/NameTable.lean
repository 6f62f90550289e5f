import Covenant.Data.NameMap
import Covenant.Model.Variable

namespace Covenant

class Named (α : Type) where
  name : α → String

-- Entries in the order of their insertion, found by name through the index. An entry without a
-- resolved name is kept but not found. A sealed table takes no more entries.
structure NameTable (α : Type) where
  entries : List α
  index : NameMap Nat
  isSealed : Bool
  deriving Repr

inductive TableError
  | duplicate (name : String)
  | sealed (name : String)
  deriving DecidableEq, Repr

def TableError.message : TableError → String
  | .duplicate name => s!"duplicate name `{name}`"
  | .sealed name => s!"table is sealed; cannot insert `{name}`"

namespace NameTable

def empty : NameTable α := ⟨[], .empty, false⟩

def toSealed (t : NameTable α) : NameTable α := ⟨t.entries, t.index, true⟩

def sealedEmpty : NameTable α := empty.toSealed

def size (t : NameTable α) : Nat := t.entries.length

def contains (t : NameTable α) (name : String) : Bool := t.index.contains name

def get? (t : NameTable α) (name : String) : Option α :=
  (t.index.get? name).bind fun i => t.entries[i]?

-- Tables are compared by what they hold. The index follows from it.
instance [BEq α] : BEq (NameTable α) where
  beq s t := s.isSealed == t.isSealed && s.entries == t.entries

def push (t : NameTable α) (index : NameMap Nat) (entry : α) : NameTable α :=
  ⟨t.entries ++ [entry], index, t.isSealed⟩

def insert [Named α] (t : NameTable α) (entry : α) : Except TableError (NameTable α) :=
  let name := Named.name entry
  if t.isSealed then .error (.sealed name)
  else if name = unresolvedName then .ok (t.push t.index entry)
  else if t.contains name then .error (.duplicate name)
  else .ok (t.push (t.index.insert name t.size) entry)

def insertAll [Named α] (t : NameTable α) : List α → Except TableError (NameTable α)
  | [] => .ok t
  | entry :: rest => do
      let t ← t.insert entry
      t.insertAll rest

def sealedOf [Named α] (entries : List α) : Except TableError (NameTable α) :=
  (empty.insertAll entries).map toSealed

end NameTable

end Covenant
