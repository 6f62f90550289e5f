import Covenant.Search.Window

namespace Covenant.Search

-- A symbol with what is tried for it, and the position that the search has reached there.
structure Slot where
  symbol : Symbol
  values : Array Scalar
  position : Fin values.size

namespace Slot

def first (s : Symbol) (values : List Scalar) (h : values ≠ []) : Slot :=
  ⟨s, values.toArray, ⟨0, List.length_pos_iff.mpr h⟩⟩

def value (slot : Slot) : Scalar := slot.values[slot.position]

def entry (slot : Slot) : String × Scalar := (slot.symbol.name, slot.value)

-- One value further, unless this is the last.
def next? (slot : Slot) : Option Slot :=
  if h : slot.position + 1 < slot.values.size then
    some ⟨slot.symbol, slot.values, ⟨slot.position + 1, h⟩⟩
  else none

def rewind (slot : Slot) : Slot := ⟨slot.symbol, slot.values, ⟨0, slot.position.pos⟩⟩

end Slot

-- The slots of a search, the first of which moves fastest.
abbrev Cursor := List Slot

namespace Cursor

def start (radius : UInt32) (seeds : List Int64) (free : List Symbol) : Cursor :=
  free.map fun s => .first s (domain radius seeds s.sort) (domain_ne_nil radius seeds s.sort)

def candidate (slots : Cursor) : Env := slots.map Slot.entry

-- Moves the first slot that has a value left, and those before it back to their first values.
-- When none has one, all candidates were seen.
def advance? : Cursor → Option Cursor
  | [] => none
  | slot :: rest =>
      match slot.next? with
      | some next => some (next :: rest)
      | none => (advance? rest).map (slot.rewind :: ·)

-- How many candidates are still to come.
def remaining : Cursor → Nat
  | [] => 0
  | slot :: rest => (slot.values.size - 1 - slot.position) + slot.values.size * remaining rest

theorem remaining_of_advance? {slots next : Cursor} (h : slots.advance? = some next) :
    slots.remaining = next.remaining + 1 := by
  induction slots generalizing next with
  | nil => cases h
  | cons slot rest ih =>
      have hlt := slot.position.isLt
      simp only [advance?, Slot.next?] at h
      split at h
      · rename_i moved hmoved
        cases h
        split at hmoved
        · cases hmoved
          simp only [remaining]
          omega
        · cases hmoved
      · rename_i hlast
        split at hlast
        · cases hlast
        · obtain ⟨others, hothers, rfl⟩ := Option.map_eq_some_iff.mp h
          simp only [remaining, Slot.rewind, ih hothers, Nat.mul_succ]
          omega

-- The product, if it has 64 bits.
def times? (total : UInt64) (size : Nat) : Option UInt64 :=
  if total.toNat * size < UInt64.size then some (total * .ofNat size) else none

-- The number of candidates, if it has 64 bits.
def total? (slots : Cursor) : Option UInt64 :=
  slots.foldlM (fun total slot => times? total slot.values.size) 1

def fits (slots : Cursor) (budget : UInt64) : Bool :=
  match slots.total? with
  | some total => total ≤ budget
  | none => false

end Cursor

end Covenant.Search
