namespace Covenant

-- A JSON value as it is written. Integers are exact and members keep their order.
inductive Json
  | null
  | bool (b : Bool)
  | int (n : Int)
  | str (s : String)
  | arr (items : List Json)
  | obj (members : List (String × Json))
  deriving BEq, Repr, Inhabited

namespace Json

def nat (n : Nat) : Json := .int n

-- `none` is written as null.
def option (f : α → Json) : Option α → Json
  | none => .null
  | some a => f a

def list (f : α → Json) (items : List α) : Json := .arr (items.map f)

-- A variant with content is an object with one member.
def tagged (name : String) (content : Json) : Json := .obj [(name, content)]

mutual

-- The number of containers open at the deepest point.
def depth : Json → Nat
  | .arr items => itemsDepth items + 1
  | .obj members => membersDepth members + 1
  | _ => 0

def itemsDepth : List Json → Nat
  | [] => 0
  | item :: items => max item.depth (itemsDepth items)

def membersDepth : List (String × Json) → Nat
  | [] => 0
  | (_, value) :: members => max value.depth (membersDepth members)

end

end Json

end Covenant
