import Covenant.Encoding.Body
import Covenant.Proofs.Encoding.Expression

namespace Covenant

namespace Encode

theorem bind_ok {α β : Type} {x : Encode α} {f : α → Encode β} {e e' : Encoder} {b : β} :
    (x >>= f) e = .ok b e' ↔ ∃ a next, x e = .ok a next ∧ f a next = .ok b e' := by
  change EStateM.bind x f e = .ok b e' ↔ _
  unfold EStateM.bind
  cases x e <;> simp

theorem pure_ok {α : Type} {a b : α} {e e' : Encoder} :
    (pure a : Encode α) e = .ok b e' ↔ a = b ∧ e = e' := by
  change EStateM.Result.ok a e = .ok b e' ↔ _
  simp

theorem reading_ok {α : Type} {f : Encoder → Except EncodeError α} {a : α} {e e' : Encoder} :
    reading f e = .ok a e' ↔ f e = .ok a ∧ e = e' := by
  unfold reading
  cases f e <;> simp

theorem assert_ok {t : Term} {u : Unit} {e e' : Encoder} :
    assert t e = .ok u e' ↔ e' = { e with assertions := e.assertions ++ [t] } := by
  simp [assert, eq_comm]

theorem symbol_ok {a : AliasName} {t : Term} {e e' : Encoder} : symbol a e = .ok t e' ↔
    ((∃ sort, e.signature.sorts.get? a.base = some sort) ∧ t = .var (e.signature.symbolOf a)) ∧
      e = e' := by
  rw [symbol, reading_ok, Signature.symbol_eq_ok]

theorem current_ok {name : String} {t : Term} {e e' : Encoder} : current name e = .ok t e' ↔
    (e.signature.Registered e.table name ∧ t = .var (e.signature.latest e.table name)) ∧
      e = e' := by
  rw [current, reading_ok, Signature.current_eq_ok]

end Encode

namespace Encoder

-- The alias that the next write of a name makes.
def next (e : Encoder) (name : String) : AliasName :=
  ⟨name, (e.issued.get? name).getD (e.table.generation name) + 1⟩

-- The encoder after a write: a new alias, which its equation defines.
def define (e : Encoder) (name : String) (rhs : Term) : Encoder where
  signature := e.signature
  table := e.table.set name (e.next name).generation
  issued := e.issued.insert name (e.next name).generation
  assertions := e.assertions ++ [.eq (.var (e.signature.symbolOf (e.next name))) rhs]

-- What a write stores: where a return may have run, it depends on the flag.
def kept (e : Encoder) (mayHaveReturned : Bool) (name : String) (value : Term) : Term :=
  if mayHaveReturned then
    .ite (.var (e.signature.latest e.table returnedName)) (.var (e.signature.latest e.table name))
      value
  else value

def write (e : Encoder) (mayHaveReturned : Bool) (name : String) (value : Term) : Encoder :=
  e.define name (e.kept mayHaveReturned name value)

-- Both names that a write may read are there to be read.
def Writable (e : Encoder) (mayHaveReturned : Bool) (name : String) : Prop :=
  e.signature.Registered e.table name ∧
    (mayHaveReturned = true → e.signature.Registered e.table returnedName)

end Encoder

-- The term that joins the two generations of a name.
def Divergence.choice (d : Divergence) (s : Signature) (condition : Term) : Term :=
  .ite condition (.var (s.symbolOf d.leftAlias)) (.var (s.symbolOf d.rightAlias))

-- The encoder after the join of two branches.
def Encoder.joinAll (condition : Term) (e : Encoder) : List Divergence → Encoder
  | [] => e
  | d :: rest => (e.define d.name (d.choice e.signature condition)).joinAll condition rest

namespace Encode

theorem advance_ok {name : String} {a : AliasName} {e e' : Encoder} :
    advance name e = .ok a e' ↔ (∃ generation, e.table.current.get? name = some generation) ∧
      a = e.next name ∧ e' = { e with
        table := e.table.set name (e.next name).generation
        issued := e.issued.insert name (e.next name).generation } := by
  unfold advance onTable AliasTable.advance Encoder.next AliasTable.generation
  cases h : e.table.current.get? name <;> simp [h, eq_comm]

theorem write_ok {mayHaveReturned : Bool} {name : String} {value : Term} {u : Unit}
    {e e' : Encoder} (h : write mayHaveReturned name value e = .ok u e') :
    e.Writable mayHaveReturned name ∧ e' = e.write mayHaveReturned name value := by
  cases mayHaveReturned with
  | false =>
      simp only [write, Bool.false_eq_true, if_false, bind_ok, pure_ok, advance_ok, symbol_ok,
        assert_ok] at h
      obtain ⟨stored, e₁, ⟨rfl, rfl⟩, a, e₂, ⟨hgeneration, rfl, rfl⟩, fresh, e₃, ⟨⟨hsort, rfl⟩, rfl⟩,
        rfl⟩ := h
      exact ⟨⟨⟨hgeneration, hsort⟩, by simp⟩, rfl⟩
  | true =>
      simp only [write, if_true, bind_ok, pure_ok, current_ok, advance_ok, symbol_ok, assert_ok] at h
      obtain ⟨returned, e₁, ⟨⟨hreturned, rfl⟩, rfl⟩, old, e₂, ⟨⟨hname, rfl⟩, rfl⟩, stored, e₃,
        ⟨rfl, rfl⟩, a, e₄, ⟨-, rfl, rfl⟩, fresh, e₅, ⟨⟨-, rfl⟩, rfl⟩, rfl⟩ := h
      exact ⟨⟨hname, fun _ => hreturned⟩, rfl⟩

theorem joinOne_ok {condition : Term} {d : Divergence} {u : Unit} {e e' : Encoder}
    (h : joinOne condition d e = .ok u e') :
    e.signature.Registered e.table d.name ∧ e' = e.define d.name (d.choice e.signature condition) := by
  simp only [joinOne, bind_ok, advance_ok, symbol_ok, assert_ok] at h
  obtain ⟨a, e₁, ⟨hgeneration, rfl, rfl⟩, joined, e₂, ⟨⟨hsort, rfl⟩, rfl⟩, left, e₃, ⟨⟨-, rfl⟩, rfl⟩,
    right, e₄, ⟨⟨-, rfl⟩, rfl⟩, rfl⟩ := h
  exact ⟨⟨hgeneration, hsort⟩, rfl⟩

theorem joinAll_ok {condition : Term} {ds : List Divergence} {u : Unit} {e e' : Encoder}
    (h : joinAll condition ds e = .ok u e') : e' = e.joinAll condition ds := by
  induction ds generalizing e with
  | nil => exact (pure_ok.mp h).2.symm
  | cons d rest ih =>
      simp only [joinAll, bind_ok] at h
      obtain ⟨u, e₁, hone, hrest⟩ := h
      obtain ⟨-, rfl⟩ := joinOne_ok hone
      exact ih hrest

theorem join_ok {condition : Term} {thenTable elseTable : AliasTable} {u : Unit} {e e' : Encoder}
    (h : join condition thenTable elseTable e = .ok u e') :
    ∃ merged, thenTable.merge elseTable = .ok merged ∧
      e' = { e with table := merged.table }.joinAll condition merged.divergences := by
  unfold join at h
  split at h
  · cases h
  · rename_i merged hmerged
    exact ⟨merged, hmerged, joinAll_ok h⟩

theorem branch_ok {fork table : AliasTable} {action : Encode Bool} {r : Bool} {e e' : Encoder}
    (h : branch fork action e = .ok (r, table) e') :
    ∃ e₁, action { e with table := fork } = .ok r e₁ ∧ table = e₁.table ∧
      e' = { e₁ with table := fork } := by
  unfold branch at h
  split at h
  · rename_i mayHaveReturned e₁ haction
    cases h
    exact ⟨e₁, haction, rfl, rfl⟩
  · cases h

theorem assign_ok {mayHaveReturned : Bool} {name : String} {x : Expression} {u : Unit}
    {e e' : Encoder} (h : assign mayHaveReturned name x e = .ok u e') :
    ∃ value, e.signature.Encodes e.table x value ∧ e.signature.sorts.get? name = some value.sort ∧
      e.Writable mayHaveReturned name ∧ e' = e.write mayHaveReturned name value := by
  simp only [assign, expression, bind_ok, reading_ok, expectSort_eq_ok] at h
  obtain ⟨value, e₁, ⟨hvalue, rfl⟩, sort, e₂, ⟨hsort, rfl⟩, u, e₃, ⟨rfl, rfl⟩, hwrite⟩ := h
  obtain ⟨hwritable, rfl⟩ := write_ok hwrite
  refine ⟨value, Signature.encodes_of_expression x hvalue, ?_, hwritable, rfl⟩
  unfold Signature.sort at hsort
  split at hsort
  · rename_i found hfound
    cases hsort
    exact hfound
  · cases hsort

theorem returnValue_ok {mayHaveReturned : Bool} {x : Expression} {u : Unit} {e e' : Encoder}
    (h : returnValue mayHaveReturned x e = .ok u e') :
    ∃ value, e.signature.hasResult = true ∧ e.signature.Encodes e.table x value ∧
      e.signature.sorts.get? resultName = some value.sort ∧ e.Writable mayHaveReturned resultName ∧
      e' = e.write mayHaveReturned resultName value := by
  simp only [returnValue, expression, bind_ok, reading_ok, expectSort_eq_ok] at h
  obtain ⟨u, e₁, ⟨hresult, rfl⟩, value, e₂, ⟨hvalue, rfl⟩, sort, e₃, ⟨hsort, rfl⟩, u, e₄, ⟨hexpect, rfl⟩,
    hwrite⟩ := h
  obtain ⟨hwritable, rfl⟩ := write_ok hwrite
  cases hsort
  obtain ⟨sort, hsort⟩ := hwritable.1.2
  refine ⟨value, ?_, Signature.encodes_of_expression x hvalue, ?_, hwritable, rfl⟩
  · split at hresult
    · assumption
    · cases hresult
  · rw [hexpect, hsort]
    rfl

end Encode

-- How a block is encoded, with the flag and the encoder before it and after it.
inductive BlockEncoding : Bool → List Statement → Encoder → Bool → Encoder → Prop
  | nil (mayHaveReturned : Bool) (e : Encoder) : BlockEncoding mayHaveReturned [] e mayHaveReturned e
  | assignment {mayHaveReturned after : Bool} {destination : Variable} {x : Expression} {value : Term}
      {rest : List Statement} {e e' : Encoder} (location : Location)
      (hvalue : e.signature.Encodes e.table x value)
      (hsort : e.signature.sorts.get? destination.logicalName = some value.sort)
      (hwrite : e.Writable mayHaveReturned destination.logicalName)
      (hrest : BlockEncoding mayHaveReturned rest
        (e.write mayHaveReturned destination.logicalName value) after e') :
      BlockEncoding mayHaveReturned (.assignment destination x location :: rest) e after e'
  | conditional {mayHaveReturned thenReturned elseReturned after : Bool} {x : Expression}
      {condition : Term} {thenBlock elseBlock rest : List Statement} {e e₁ e₂ e' : Encoder}
      {merged : Merged} (location : Location) (hcondition : e.signature.Encodes e.table x condition)
      (hsort : condition.sort = .bool)
      (hthen : BlockEncoding mayHaveReturned thenBlock e thenReturned e₁)
      (helse : BlockEncoding mayHaveReturned elseBlock { e₁ with table := e.table } elseReturned e₂)
      (hmerge : e₁.table.merge e₂.table = .ok merged)
      (hrest : BlockEncoding (thenReturned || elseReturned) rest
        ({ e₂ with table := merged.table }.joinAll condition merged.divergences) after e') :
      BlockEncoding mayHaveReturned (.conditional x thenBlock elseBlock location :: rest) e after e'
  | return {mayHaveReturned after : Bool} {rest : List Statement} {e e' : Encoder}
      (location : Location) (hwrite : e.Writable mayHaveReturned returnedName)
      (hrest : BlockEncoding true rest (e.write mayHaveReturned returnedName (.bool true)) after e') :
      BlockEncoding mayHaveReturned (.return none location :: rest) e after e'
  | returnValue {mayHaveReturned after : Bool} {x : Expression} {value : Term}
      {rest : List Statement} {e e₁ e' : Encoder} (location : Location)
      (hresult : e.signature.hasResult = true) (hvalue : e.signature.Encodes e.table x value)
      (hsort : e.signature.sorts.get? resultName = some value.sort)
      (hwrite : e.Writable mayHaveReturned resultName)
      (he₁ : e₁ = e.write mayHaveReturned resultName value)
      (hreturned : e₁.Writable mayHaveReturned returnedName)
      (hrest : BlockEncoding true rest (e₁.write mayHaveReturned returnedName (.bool true)) after e') :
      BlockEncoding mayHaveReturned (.return (some x) location :: rest) e after e'

open Encode in
theorem blockEncoding_of_block {mayHaveReturned after : Bool} {e e' : Encoder}
    (stmts : List Statement) (h : block mayHaveReturned stmts e = .ok after e') :
    BlockEncoding mayHaveReturned stmts e after e' := by
  match stmts with
  | [] =>
      obtain ⟨rfl, rfl⟩ := pure_ok.mp h
      exact .nil _ _
  | .assignment destination x location :: rest =>
      simp only [block, statement, bind_ok, pure_ok] at h
      obtain ⟨flag, e₁, ⟨u, e₂, hassign, rfl, rfl⟩, hrest⟩ := h
      obtain ⟨value, hvalue, hsort, hwrite, rfl⟩ := assign_ok hassign
      exact .assignment location hvalue hsort hwrite (blockEncoding_of_block rest hrest)
  | .conditional x thenBlock elseBlock location :: rest =>
      simp only [block, statement, condition, bind_ok, pure_ok, reading_ok] at h
      obtain ⟨flag, e₃, ⟨cond, e, ⟨hcond, rfl⟩, fork, e, ⟨hfork, rfl⟩, ⟨thenReturned, thenTable⟩, e₁,
        hbranch, ⟨elseReturned, elseTable⟩, e₂, hbranch', u, e₃, hjoin, rfl, rfl⟩, hrest⟩ := h
      cases hfork
      obtain ⟨e₁, hthen, rfl, rfl⟩ := branch_ok hbranch
      obtain ⟨e₂, helse, rfl, rfl⟩ := branch_ok hbranch'
      obtain ⟨merged, hmerge, rfl⟩ := join_ok hjoin
      obtain ⟨hcondition, hsort⟩ := Signature.encodes_of_condition hcond
      exact .conditional location hcondition hsort (blockEncoding_of_block thenBlock hthen)
        (blockEncoding_of_block elseBlock helse) hmerge (blockEncoding_of_block rest hrest)
  | .return none location :: rest =>
      simp only [block, statement, bind_ok, pure_ok] at h
      obtain ⟨flag, e₁, ⟨u, e₂, hwrite, rfl, rfl⟩, hrest⟩ := h
      obtain ⟨hwritable, rfl⟩ := write_ok hwrite
      exact .return location hwritable (blockEncoding_of_block rest hrest)
  | .return (some x) location :: rest =>
      simp only [block, statement, bind_ok, pure_ok] at h
      obtain ⟨flag, e₁, ⟨u, e₂, hreturn, u', e₃, hwrite, rfl, rfl⟩, hrest⟩ := h
      obtain ⟨value, hresult, hvalue, hsort, hwritable, rfl⟩ := returnValue_ok hreturn
      obtain ⟨hreturned, rfl⟩ := write_ok hwrite
      exact .returnValue location hresult hvalue hsort hwritable rfl hreturned
        (blockEncoding_of_block rest hrest)
  | .unsupported location :: rest =>
      simp only [block, statement, bind_ok] at h
      obtain ⟨flag, e₁, hthrow, hrest⟩ := h
      cases hthrow
termination_by sizeOf stmts

end Covenant
