import Covenant.Proofs.Alias.Merge
import Covenant.Proofs.Encoding.Steps
import Covenant.Proofs.Encoding.Typing

namespace Covenant

-- The encoder has the signature, and its table is over the names that are declared there.
structure Encoder.Scoped (s : Signature) (e : Encoder) : Prop where
  signature : e.signature = s
  names : ∀ name, e.table.contains name = s.sorts.contains name

namespace Encoder.Scoped

variable {s : Signature} {e : Encoder}

theorem registered_iff (h : e.Scoped s) {name : String} :
    e.signature.Registered e.table name ↔ s.sorts.contains name = true := by
  have hnames := h.names name
  rw [Bool.eq_iff_iff, AliasTable.contains_iff, NameMap.contains_iff] at hnames
  rw [Signature.Registered, h.signature, hnames, and_self, NameMap.contains_iff]

theorem withTable (h : e.Scoped s) {table : AliasTable}
    (htable : ∀ name, table.contains name = s.sorts.contains name) :
    { e with table }.Scoped s := ⟨h.signature, htable⟩

theorem withAssertions (h : e.Scoped s) (assertions : List Term) :
    { e with assertions }.Scoped s := ⟨h.signature, h.names⟩

-- Writing a name that is there adds none.
theorem define (h : e.Scoped s) {name : String} (hname : s.sorts.contains name = true)
    (rhs : Term) : (e.define name rhs).Scoped s where
  signature := h.signature
  names := fun other => by
    rw [← h.names other]
    exact AliasTable.contains_set_of_contains ((h.names name).trans hname) _ other

theorem write (h : e.Scoped s) {mayHaveReturned : Bool} {name : String}
    (hname : e.Writable mayHaveReturned name) (value : Term) :
    (e.write mayHaveReturned name value).Scoped s := h.define (h.registered_iff.mp hname.1) _

theorem joinAll (condition : Term) {ds : List Divergence} (h : e.Scoped s)
    (hds : ∀ d ∈ ds, s.sorts.contains d.name = true) : (e.joinAll condition ds).Scoped s := by
  induction ds generalizing e with
  | nil => exact h
  | cons d rest ih =>
      rw [List.forall_mem_cons] at hds
      exact ih (h.define hds.1 _) hds.2

-- Two branches that each leave the names as they are do so together.
theorem join (condition : Term) {e₁ e₂ : Encoder} {merged : Merged} (hleft : e₁.Scoped s)
    (hright : e₂.Scoped s) (hmerge : e₁.table.merge e₂.table = .ok merged) :
    ({ e₂ with table := merged.table }.joinAll condition merged.divergences).Scoped s := by
  obtain ⟨-, rfl⟩ := AliasTable.merge_eq_ok hmerge
  refine .joinAll _ (hright.withTable hleft.names) fun d hd => ?_
  rw [← hleft.names]
  exact AliasTable.contains_of_mem_divergences hd

theorem writable (h : e.Scoped s) {name : String} (hname : s.sorts.contains name = true)
    (hreturned : s.sorts.contains returnedName = true) (mayHaveReturned : Bool) :
    e.Writable mayHaveReturned name :=
  ⟨h.registered_iff.mpr hname, fun _ => h.registered_iff.mpr hreturned⟩

end Encoder.Scoped

-- A block that is encoded leaves the names as they are.
theorem BlockEncoding.scoped {s : Signature} {mayHaveReturned after : Bool} {stmts : List Statement}
    {e e' : Encoder} (h : BlockEncoding mayHaveReturned stmts e after e') (hs : e.Scoped s) :
    e'.Scoped s := by
  induction h with
  | nil mayHaveReturned e => exact hs
  | assignment location hvalue hsort hwrite hrest ih =>
      exact ih (hs.write hwrite _)
  | conditional location hcondition hsort hthen helse hmerge hrest ihthen ihelse ih =>
      have hleft := ihthen hs
      have hright := ihelse (hleft.withTable hs.names)
      exact ih (hleft.join _ hright hmerge)
  | «return» location hwrite hrest ih => exact ih (hs.write hwrite _)
  | returnValue location hresult hvalue hsort hwrite he₁ hreturned hrest ih =>
      subst he₁
      exact ih ((hs.write hwrite _).write hreturned _)

namespace Signature

-- What a body may write besides the names that it mentions.
structure HasGhosts (s : Signature) : Prop where
  returned : s.sorts.contains returnedName = true
  result : s.hasResult = true → s.sorts.contains resultName = true

section Expressions

variable {s : Signature} {table : AliasTable}

theorem map_sort_current (hnames : ∀ name, table.contains name = s.sorts.contains name)
    (name : String) : (s.current table name).map Term.sort = s.sort name := by
  have hname := hnames name
  simp only [AliasTable.contains, NameMap.contains] at hname
  simp only [current, AliasTable.get, Signature.sort]
  cases hsort : s.sorts.get? name with
  | none =>
      rw [hsort, Option.isSome_none, Option.isSome_eq_false_iff, Option.isNone_iff_eq_none] at hname
      rw [hname]
      rfl
  | some sort =>
      rw [hsort, Option.isSome_some, Option.isSome_iff_exists] at hname
      obtain ⟨g, hg⟩ := hname
      rw [hg]
      simp [symbol, Signature.sort, hsort, bind, Except.bind, pure, Except.pure, Except.map, Term.sort]

theorem map_bind_of_sort {x : Except EncodeError Term} {y : Except EncodeError TermSort}
    {f : Term → Except EncodeError α} {g : TermSort → Except EncodeError β} {q : α → β}
    (hx : x.map Term.sort = y) (hf : ∀ t, (f t).map q = g t.sort) : (x >>= f).map q = y >>= g := by
  subst hx
  cases x with
  | error error => rfl
  | ok t => exact hf t

theorem map_expectSort_bind (op : String) (sort : TermSort) (t : Term)
    {f : Unit → Except EncodeError α} {g : Unit → Except EncodeError β} {q : α → β}
    (hf : (f ()).map q = g ()) : (expectSort op sort t >>= f).map q = agree op sort t.sort >>= g := by
  change (agree op sort t.sort >>= f).map q = _
  cases agree op sort t.sort with
  | error error => rfl
  | ok u => exact hf

theorem map_sort_binary (op : String) (sides result : TermSort) {build : Term → Term → Term}
    (hbuild : ∀ l r, (build l r).sort = result) (left right : Term) :
    (binary op sides build left right).map Term.sort =
      sortOfBinary op sides result left.sort right.sort := by
  refine map_expectSort_bind op sides left (map_expectSort_bind op sides right ?_)
  exact congrArg Except.ok (hbuild left right)

-- Encoding an expression finds the sort that the check finds, or the same error.
theorem map_sort_expression (hnames : ∀ name, table.contains name = s.sorts.contains name)
    (e : Expression) : (s.expression table e).map Term.sort = s.sortOf e := by
  induction e with
  | literal l => cases l <;> rfl
  | «variable» v => exact map_sort_current hnames _
  | arithmetic op l r ihl ihr =>
      exact map_bind_of_sort ihl fun left => map_bind_of_sort ihr fun right =>
        map_sort_binary _ _ _ (fun _ _ => rfl) left right
  | logical op l r ihl ihr =>
      have hbuild : ∀ a b, (op.build a b).sort = .bool := fun _ _ => by cases op <;> rfl
      exact map_bind_of_sort ihl fun left => map_bind_of_sort ihr fun right =>
        map_sort_binary _ _ _ hbuild left right
  | comparison op l r ihl ihr =>
      have hbuild : ∀ a b, (op.build a b).sort = .bool := fun _ _ => by cases op <;> rfl
      refine map_bind_of_sort ihl fun left => map_bind_of_sort ihr fun right => ?_
      have hsides : op.operandSort left = op.sides left.sort := by cases op <;> rfl
      rw [hsides]
      exact map_sort_binary _ _ _ hbuild left right
  | unary op a ih =>
      cases op with
      | not | negate =>
          exact map_bind_of_sort ih fun inner => map_expectSort_bind _ _ inner rfl
  | parenthesized a ih => exact ih
  | result =>
      rw [expression, sortOf]
      split
      · exact map_sort_current hnames _
      · rfl
  | unsupported location => rfl

theorem map_unit_condition (hnames : ∀ name, table.contains name = s.sorts.contains name)
    (c : Expression) : (s.condition table c).map (fun _ => ()) = s.checkCondition c := by
  refine map_bind_of_sort (map_sort_expression hnames c) fun t => ?_
  change (agree "condition" .bool t.sort >>= fun _ => .ok t).map _ = _
  cases agree "condition" .bool t.sort <;> rfl

end Expressions

end Signature

namespace Encode

-- Whether an action fails, and with which error.
def verdict : EStateM.Result EncodeError Encoder α → Except EncodeError Unit
  | .ok _ _ => .ok ()
  | .error error _ => .error error

theorem verdict_eq_ok {r : EStateM.Result EncodeError Encoder α} :
    verdict r = .ok () ↔ ∃ a e, r = .ok a e := by
  cases r <;> simp [verdict]

theorem verdict_eq_error {r : EStateM.Result EncodeError Encoder α} {error : EncodeError} :
    verdict r = .error error ↔ ∃ e, r = .error error e := by
  cases r <;> simp [verdict]

-- What follows an action gives the same verdict from all that the action may end with.
theorem verdict_bind {x : Encode α} {f : α → Encode β} {e : Encoder}
    {first second : Except EncodeError Unit} (hx : verdict (x e) = first)
    (hf : ∀ a e', x e = .ok a e' → verdict (f a e') = second) :
    verdict ((x >>= f) e) = (first >>= fun _ => second) := by
  subst hx
  change verdict (EStateM.bind x f e) = _
  unfold EStateM.bind
  cases h : x e with
  | ok a e' => exact hf a e' h
  | error error e' => rfl

theorem verdict_bind_of_ok {x : Encode α} {f : α → Encode β} {e : Encoder}
    (hf : ∀ a e', x e = .ok a e' → verdict (f a e') = .ok ()) :
    verdict ((x >>= f) e) = verdict (x e) := by
  rw [verdict_bind rfl hf]
  cases x e <;> rfl

theorem verdict_bind_of_eq {x : Encode α} {f : α → Encode β} {e e' : Encoder} {a : α}
    (hx : x e = .ok a e') : verdict ((x >>= f) e) = verdict (f a e') := by
  change verdict (EStateM.bind x f e) = _
  unfold EStateM.bind
  rw [hx]

theorem verdict_reading (read : Encoder → Except EncodeError Unit) (e : Encoder) :
    verdict (reading read e) = read e := by
  unfold reading
  cases read e <;> rfl

-- What is read has an influence through what the view keeps of it.
theorem verdict_reading_bind (view : α → β) {read : Encoder → Except EncodeError α}
    {f : α → Encode γ} {e : Encoder} {first : Except EncodeError β}
    {second : β → Except EncodeError Unit} (hread : (read e).map view = first)
    (hf : ∀ a, read e = .ok a → verdict (f a e) = second (view a)) :
    verdict ((reading read >>= f) e) = first >>= second := by
  subst hread
  change verdict (EStateM.bind (reading read) f e) = _
  unfold EStateM.bind reading
  cases h : read e with
  | ok a => exact hf a h
  | error error => rfl

theorem verdict_branch (fork : AliasTable) (action : Encode Bool) (e : Encoder) :
    verdict (branch fork action e) = verdict (action { e with table := fork }) := by
  unfold branch
  cases action { e with table := fork } <;> rfl

-- Writes and joins over declared names do not fail

theorem store_of_registered {name : String} {e : Encoder}
    (h : e.signature.Registered e.table name) (kept : Term) :
    (do let fresh ← symbol (← advance name)
        assert (.eq fresh kept) : Encode Unit) e = .ok () (e.define name kept) := by
  simp only [bind_ok, advance_ok, symbol_ok, assert_ok]
  exact ⟨_, _, ⟨h.1, rfl, rfl⟩, _, _, ⟨⟨h.2, rfl⟩, rfl⟩, rfl⟩

theorem write_of_writable {mayHaveReturned : Bool} {name : String} {e : Encoder}
    (h : e.Writable mayHaveReturned name) (value : Term) :
    write mayHaveReturned name value e = .ok () (e.write mayHaveReturned name value) := by
  cases mayHaveReturned with
  | false =>
      simp only [write, Bool.false_eq_true, if_false]
      exact bind_ok.mpr ⟨value, e, rfl, store_of_registered h.1 value⟩
  | true =>
      have hreturned := current_ok.mpr ⟨⟨h.2 rfl, rfl⟩, rfl⟩
      have hold := current_ok.mpr ⟨⟨h.1, rfl⟩, rfl⟩
      simp only [write, if_true]
      exact bind_ok.mpr ⟨_, e, hreturned, bind_ok.mpr ⟨_, e, hold, bind_ok.mpr ⟨_, e, rfl,
        store_of_registered h.1 _⟩⟩⟩

theorem joinOne_of_registered (condition : Term) {d : Divergence} {e : Encoder}
    (h : e.signature.Registered e.table d.name) :
    joinOne condition d e = .ok () (e.define d.name (d.choice e.signature condition)) := by
  simp only [joinOne, bind_ok, advance_ok, symbol_ok, assert_ok]
  exact ⟨_, _, ⟨h.1, rfl, rfl⟩, _, _, ⟨⟨h.2, rfl⟩, rfl⟩, _, _, ⟨⟨h.2, rfl⟩, rfl⟩, _, _, ⟨⟨h.2, rfl⟩, rfl⟩,
    rfl⟩

variable {s : Signature} {e : Encoder}

theorem joinAll_of_scoped (condition : Term) {ds : List Divergence} (h : e.Scoped s)
    (hds : ∀ d ∈ ds, s.sorts.contains d.name = true) :
    joinAll condition ds e = .ok () (e.joinAll condition ds) := by
  induction ds generalizing e with
  | nil => rfl
  | cons d rest ih =>
      rw [List.forall_mem_cons] at hds
      rw [joinAll, bind_ok]
      exact ⟨(), _, joinOne_of_registered condition (h.registered_iff.mpr hds.1),
        ih (h.define hds.1 _) hds.2⟩

theorem verdict_join (condition : Term) {left right : AliasTable} (h : e.Scoped s)
    (hleft : ∀ name, left.contains name = s.sorts.contains name)
    (hright : ∀ name, right.contains name = s.sorts.contains name) :
    verdict (join condition left right e) = .ok () := by
  have hmerge := AliasTable.merge_of_contains fun name => (hleft name).trans (hright name).symm
  have hscoped : Encoder.Scoped s { e with
      table := ⟨left.current, left.history ++ right.history.filter (· ∉ left.history)⟩ } :=
    h.withTable hleft
  have hdeclared : ∀ d ∈ left.divergences right, s.sorts.contains d.name = true := by
    intro d hd
    rw [← hleft]
    exact AliasTable.contains_of_mem_divergences hd
  simp only [join, hmerge, joinAll_of_scoped condition hscoped hdeclared, verdict]

theorem blockEncoding_of_statement {mayHaveReturned after : Bool} {a : Statement} {e' : Encoder}
    (h : statement mayHaveReturned a e = .ok after e') :
    BlockEncoding mayHaveReturned [a] e after e' := by
  apply blockEncoding_of_block
  rw [block, bind_ok]
  exact ⟨after, e', h, rfl⟩

theorem scoped_of_statement {mayHaveReturned after : Bool} {a : Statement} {e' : Encoder}
    (h : e.Scoped s) (hok : statement mayHaveReturned a e = .ok after e') : e'.Scoped s :=
  (blockEncoding_of_statement hok).scoped h

section Verdicts

variable (hghosts : s.HasGhosts) (mayHaveReturned : Bool)

include hghosts

theorem verdict_write (h : e.Scoped s) {name : String} (hname : s.sorts.contains name = true)
    (value : Term) : verdict (write mayHaveReturned name value e) = .ok () := by
  rw [write_of_writable (h.writable hname hghosts.returned mayHaveReturned)]
  rfl

-- A value is written where it has the sort of the name.
theorem verdict_store (h : e.Scoped s) (op : String) {name : String} {sort : TermSort}
    (hsort : s.sorts.get? name = some sort) (value : Term) :
    verdict ((do reading fun _ => expectSort op sort value
                 write mayHaveReturned name value : Encode Unit) e) =
      Signature.agree op sort value.sort := by
  rw [verdict_bind_of_ok, verdict_reading]
  · rfl
  · intro u e' hexpect
    obtain ⟨-, rfl⟩ := reading_ok.mp hexpect
    exact verdict_write hghosts mayHaveReturned h ((NameMap.contains_iff _ _).mpr ⟨sort, hsort⟩) value

theorem verdict_assign (h : e.Scoped s) (name : String) (x : Expression) :
    verdict (assign mayHaveReturned name x e) = s.checkStored "=" name x := by
  obtain ⟨rfl, hnames⟩ := h
  refine verdict_reading_bind Term.sort (Signature.map_sort_expression hnames x) fun value _ => ?_
  refine verdict_reading_bind id (by cases e.signature.sort name <;> rfl) fun sort hsort => ?_
  exact verdict_store hghosts mayHaveReturned ⟨rfl, hnames⟩ "=" (Signature.sort_eq_ok.mp hsort) value

theorem verdict_returnValue (h : e.Scoped s) (x : Expression) :
    verdict (returnValue mayHaveReturned x e) =
      if s.hasResult then s.checkStored "return" resultName x else .error .noResult := by
  obtain ⟨rfl, hnames⟩ := h
  cases hresult : e.signature.hasResult with
  | false => simp [returnValue, reading, bind, EStateM.bind, hresult, verdict]
  | true =>
      obtain ⟨sort, hsort⟩ := (NameMap.contains_iff _ _).mp (hghosts.result hresult)
      have hchecks : e.signature.checkStored "return" resultName x = (do
          let found ← e.signature.sortOf x
          Signature.agree "return" sort found) := by
        simp only [Signature.checkStored, Signature.sort_eq_ok.mpr hsort]
        rfl
      have hguard : reading (fun s =>
          if s.signature.hasResult then .ok () else .error .noResult) e = .ok () e := by
        simp [reading, hresult]
      have hlookup : reading (fun s =>
          .ok ((s.signature.sorts.get? resultName).getD .int)) e = .ok sort e := by
        simp [reading, hsort]
      rw [if_pos rfl, hchecks, returnValue, verdict_bind_of_eq hguard]
      refine verdict_reading_bind Term.sort (Signature.map_sort_expression hnames x) fun value _ => ?_
      rw [verdict_bind_of_eq hlookup]
      exact verdict_store hghosts mayHaveReturned ⟨rfl, hnames⟩ "return" hsort value

-- A return sets the flag.
theorem verdict_setReturned (h : e.Scoped s) :
    verdict ((do write mayHaveReturned returnedName (.bool true)
                 return true : Encode Bool) e) = .ok () := by
  rw [verdict_bind_of_ok fun _ _ _ => rfl]
  exact verdict_write hghosts mayHaveReturned h hghosts.returned _

end Verdicts

mutual

theorem verdict_statement {s : Signature} {e : Encoder} (hghosts : s.HasGhosts)
    (mayHaveReturned : Bool) (h : e.Scoped s) (a : Statement) :
    verdict (statement mayHaveReturned a e) = s.checkStatement a := by
  match a with
  | .assignment destination x location =>
      rw [statement, verdict_bind_of_ok fun _ _ _ => rfl, Signature.checkStatement]
      exact verdict_assign hghosts mayHaveReturned h _ x
  | .conditional c thenBlock elseBlock location =>
      obtain ⟨rfl, hnames⟩ := id h
      have hfork : reading (fun e => .ok e.table) e = .ok e.table e := rfl
      rw [statement, Signature.checkStatement]
      refine verdict_reading_bind (fun _ => ()) (Signature.map_unit_condition hnames c) fun cond _ => ?_
      rw [verdict_bind_of_eq hfork]
      refine verdict_bind ?_ ?_
      · rw [verdict_branch]
        exact verdict_block hghosts mayHaveReturned h thenBlock
      · rintro ⟨thenReturned, thenTable⟩ e₁ hbranch
        obtain ⟨e₁, hthen, rfl, rfl⟩ := branch_ok hbranch
        have hleft := (blockEncoding_of_block thenBlock hthen).scoped h
        have hforked := hleft.withTable hnames
        rw [verdict_bind_of_ok, verdict_branch]
        · exact verdict_block hghosts mayHaveReturned hforked elseBlock
        · rintro ⟨elseReturned, elseTable⟩ e₂ hbranch
          obtain ⟨e₂, helse, rfl, rfl⟩ := branch_ok hbranch
          have hright := (blockEncoding_of_block elseBlock helse).scoped hforked
          rw [verdict_bind_of_ok fun _ _ _ => rfl]
          exact verdict_join cond (hright.withTable hnames) hleft.names hright.names
  | .return none location =>
      rw [statement, Signature.checkStatement]
      exact verdict_setReturned hghosts mayHaveReturned h
  | .return (some x) location =>
      rw [statement, Signature.checkStatement, ← verdict_returnValue hghosts mayHaveReturned h x]
      refine verdict_bind_of_ok fun _ e' hreturn => ?_
      obtain ⟨value, -, -, -, hwrite, rfl⟩ := returnValue_ok hreturn
      exact verdict_setReturned hghosts mayHaveReturned (h.write hwrite value)
  | .unsupported location => rfl

-- The verdict on a block is that of the check, whatever was written and returned before.
theorem verdict_block {s : Signature} {e : Encoder} (hghosts : s.HasGhosts)
    (mayHaveReturned : Bool) (h : e.Scoped s) (stmts : List Statement) :
    verdict (block mayHaveReturned stmts e) = s.checkBlock stmts := by
  match stmts with
  | [] => rfl
  | a :: rest =>
      rw [block, Signature.checkBlock]
      exact verdict_bind (verdict_statement hghosts mayHaveReturned h a) fun after e' hok =>
        verdict_block hghosts after (scoped_of_statement h hok) rest

end

end Encode

end Covenant
