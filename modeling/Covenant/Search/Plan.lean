import Covenant.Term.Basic

namespace Covenant.Search

-- An assertion read in order: it defines a symbol that has not appeared, or it restricts those
-- that have.
inductive Step
  | define (s : Symbol) (term : Term)
  | require (term : Term)

-- The symbols to be enumerated, and what is done with each choice of values for them.
structure Plan where
  free : List Symbol
  steps : List Step

-- An equation defines the symbol on its left if that symbol is new and not on the right.
def definition? (seen : List String) : Term → Option (Symbol × Term)
  | .eq (.var s) term =>
      if s.name ∈ seen ∨ term.mentions s.name then none else some (s, term)
  | _ => none

namespace Plan

def build (seen : List String) : List Term → Plan
  | [] => ⟨[], []⟩
  | a :: rest =>
      match definition? seen a with
      | some (s, term) =>
          let new := Symbol.fresh seen term.symbols
          let plan := build (s.name :: (new.map (·.name) ++ seen)) rest
          ⟨new ++ plan.free, .define s term :: plan.steps⟩
      | none =>
          let new := Symbol.fresh seen a.symbols
          let plan := build (new.map (·.name) ++ seen) rest
          ⟨new ++ plan.free, .require a :: plan.steps⟩

def ofFormula (f : Formula) : Plan := build [] f.assertions

end Plan

end Covenant.Search
