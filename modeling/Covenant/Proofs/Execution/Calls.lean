import Covenant.Proofs.Execution.Basic
import Covenant.Verify.Obligation

namespace Covenant

open Statement

-- The parameters and locals of a method have values of their types, and so has the result before
-- any return, where there is one.
structure Method.Arguments (m : Method) (st : State) : Prop where
  binders : ∀ p ∈ m.binderNames, p.2.sort? = some (st.vars p.1).sort
  result : if m.returnType.isVoid then st.result = none
    else ∃ v, st.result = some v ∧ m.returnType.sort? = some v.sort

def Field.initialExact (f : Field) : Exact :=
  match f.initializer with
  | some l => l.exact
  | none => if f.type.isBoolean then .bool false else .int 0

namespace ClassModel

def methodNames (c : ClassModel) (m : Method) : List (String × TypeRef) :=
  c.fieldNames ++ m.binderNames

-- The names that a method can mention: those of the fields, its parameters and its locals.
def scope (c : ClassModel) (m : Method) : List String := (c.methodNames m).map Prod.fst

-- A state in which a method can be called.
structure Entry (c : ClassModel) (m : Method) (st : State) : Prop extends m.Arguments st where
  fields : ∀ p ∈ c.fieldNames, p.2.sort? = some (st.vars p.1).sort

-- The clauses and bodies of the methods mention names in scope only.
structure WellScoped (c : ClassModel) : Prop where
  requires : ∀ m ∈ c.supportedMethods, ∀ r ∈ m.requires, ∀ v ∈ r.mentioned,
    v.logicalName ∈ c.scope m
  ensures : ∀ m ∈ c.supportedMethods, ∀ r ∈ m.ensures, ∀ v ∈ r.mentioned,
    v.logicalName ∈ c.scope m
  body : ∀ m ∈ c.supportedMethods, ∀ v ∈ blockMentioned m.body, v.logicalName ∈ c.scope m

-- Initializers are literals of the types of their fields.
def InitializersSorted (c : ClassModel) : Prop :=
  ∀ f ∈ c.supportedFields, ∀ l ∈ f.initializer, f.type.sort? = some l.exact.sort

instance (c : ClassModel) : Decidable c.InitializersSorted :=
  inferInstanceAs (Decidable (∀ f ∈ c.supportedFields, ∀ l ∈ f.initializer,
    f.type.sort? = some l.exact.sort))

def Initial (c : ClassModel) (fields : String → Exact) : Prop :=
  ∀ f ∈ c.supportedFields, fields f.logicalName = f.initialExact

instance (c : ClassModel) (fields : String → Exact) : Decidable (c.Initial fields) :=
  inferInstanceAs (Decidable (∀ f ∈ c.supportedFields, fields f.logicalName = f.initialExact))

-- The values of the fields between calls of public methods, each made where its requires hold.
inductive Reachable (zero : ZeroDivision) (c : ClassModel) : (String → Exact) → Prop
  | initial {fields : String → Exact} (h : c.Initial fields) : Reachable zero c fields
  | call {before after : String → Exact} {m : Method} {entry exit : State} {returned : Bool}
      (hbefore : Reachable zero c before) (hm : m ∈ c.supportedMethods) (hpublic : m.isPublic = true)
      (hfields : ∀ p ∈ c.fieldNames, entry.vars p.1 = before p.1) (hargs : m.Arguments entry)
      (hrequires : ∀ r ∈ m.requires, r.Holds zero entry)
      (hrun : execBlock zero m.body entry = some (exit, returned))
      (hafter : ∀ p ∈ c.fieldNames, after p.1 = exit.vars p.1) : Reachable zero c after

end ClassModel

end Covenant
