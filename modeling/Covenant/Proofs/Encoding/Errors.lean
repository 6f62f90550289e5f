import Covenant.Proofs.Model.Unsupported
import Covenant.Verify.Obligation

namespace Covenant

-- What the gate is there to keep from the encoder.
def EncodeError.Gated : EncodeError → Prop
  | .unsupportedReached _ | .unsorted _ _ => True
  | .alias _ | .sortMismatch _ _ _ | .noResult => False

-- The result is there, or it fails for a reason that no gate looks for.
def Clear (x : Except EncodeError α) : Prop := ∀ error, x = .error error → ¬error.Gated

namespace Clear

theorem ok (a : α) : Clear (.ok a) := by
  intro error h
  cases h

theorem error {error : EncodeError} (h : ¬error.Gated) : Clear (.error error : Except _ α) := by
  intro error' heq
  cases heq
  exact h

theorem bind {x : Except EncodeError α} {f : α → Except EncodeError β} (hx : Clear x)
    (hf : ∀ a, Clear (f a)) : Clear (x >>= f) := by
  cases x with
  | error error => exact .error (hx error rfl)
  | ok a => exact hf a

theorem map {x : Except EncodeError α} (hx : Clear x) (f : α → β) : Clear (x.map f) := by
  cases x with
  | error error => exact .error (hx error rfl)
  | ok a => exact .ok _

end Clear

theorem TypeRef.isVerifiable_eq_isSome (type : TypeRef) :
    type.isVerifiable = type.sort?.isSome := by
  unfold isVerifiable sort?
  cases type.isIntegral <;> cases type.isBoolean <;> rfl

theorem clear_expectSort (op : String) (sort : TermSort) (t : Term) :
    Clear (expectSort op sort t) := by
  unfold expectSort
  split
  · exact .ok _
  · exact .error id

namespace Signature

variable (s : Signature) (table : AliasTable)

theorem clear_sort (name : String) : Clear (s.sort name) := by
  unfold sort
  split
  · exact .ok _
  · exact .error id

theorem clear_symbol (a : AliasName) : Clear (s.symbol a) :=
  (s.clear_sort a.base).bind fun _ => .ok _

theorem clear_current (name : String) : Clear (s.current table name) := by
  unfold current
  split
  · exact s.clear_symbol _
  · exact .error id

theorem clear_binary (op : String) (sort : TermSort) (build : Term → Term → Term)
    (left right : Term) : Clear (binary op sort build left right) :=
  (clear_expectSort op sort left).bind fun _ => (clear_expectSort op sort right).bind fun _ => .ok _

theorem clear_expression {e : Expression} (h : ¬e.HasUnsupported) :
    Clear (s.expression table e) := by
  induction e with
  | literal l => cases l <;> exact .ok _
  | «variable» v => exact s.clear_current table _
  | arithmetic op l r ihl ihr | logical op l r ihl ihr | comparison op l r ihl ihr =>
      have hl := ihl fun hl => h (.of_operand List.mem_cons_self hl)
      have hr := ihr fun hr => h (.of_operand (List.mem_cons_of_mem _ List.mem_cons_self) hr)
      exact hl.bind fun left => hr.bind fun right => clear_binary _ _ _ left right
  | unary op a ih =>
      have ha := ih fun ha => h (.of_operand List.mem_cons_self ha)
      cases op <;> exact ha.bind fun inner => (clear_expectSort _ _ inner).bind fun _ => .ok _
  | parenthesized a ih => exact ih fun ha => h (.of_operand List.mem_cons_self ha)
  | result =>
      unfold expression
      split
      · exact s.clear_current table _
      · exact .error id
  | unsupported location => exact absurd ⟨location, .self⟩ h

theorem clear_condition {e : Expression} (h : ¬e.HasUnsupported) :
    Clear (s.condition table e) :=
  (s.clear_expression table h).bind fun t => (clear_expectSort _ _ t).bind fun _ => .ok _

theorem clear_clause {r : Clause} (h : ¬r.HasUnsupported) : Clear (s.clause table r) := by
  cases r with
  | supported text e location => exact s.clear_condition table h
  | unsupported text location => exact absurd trivial h

theorem clear_clauses {rs : List Clause} (h : ∀ r ∈ rs, ¬r.HasUnsupported) :
    Clear (s.clauses table rs) := by
  induction rs with
  | nil => exact .ok _
  | cons r rest ih =>
      rw [List.forall_mem_cons] at h
      exact (s.clear_clause table h.1).bind fun _ => (ih h.2).bind fun _ => .ok _

end Signature

namespace Encode

-- The action fails only for reasons that no gate looks for.
def Clear (x : Encode α) : Prop := ∀ e error e', x e = .error error e' → ¬error.Gated

namespace Clear

theorem pure (a : α) : Clear (pure a) := by
  intro e error e' h
  cases h

theorem bind {x : Encode α} {f : α → Encode β} (hx : Clear x) (hf : ∀ a, Clear (f a)) :
    Clear (x >>= f) := by
  intro e error e' h
  change EStateM.bind x f e = _ at h
  unfold EStateM.bind at h
  split at h
  · exact hf _ _ _ _ h
  · next hfails =>
    cases h
    exact hx _ _ _ hfails

theorem reading {f : Encoder → Except EncodeError α} (hf : ∀ e, Covenant.Clear (f e)) :
    Clear (reading f) := by
  intro e error e' h
  unfold Encode.reading at h
  split at h
  · cases h
  · next hfails =>
    cases h
    exact hf _ _ hfails

theorem onTable (action : AliasTable → Issued → Except AliasError (AliasName × AliasTable × Issued)) :
    Clear (onTable action) := by
  intro e error e' h
  unfold Encode.onTable at h
  split at h
  · cases h
  · cases h
    exact id

theorem branch {action : Encode Bool} (h : Clear action) (fork : AliasTable) :
    Clear (branch fork action) := by
  intro e error e' hbranch
  unfold Encode.branch at hbranch
  split at hbranch
  · cases hbranch
  · next hfails =>
    cases hbranch
    exact h _ _ _ hfails

end Clear

theorem clear_assert (t : Term) : Clear (assert t) := by
  intro e error e' h
  cases h

theorem clear_setSort (name : String) (sort : TermSort) : Clear (setSort name sort) := by
  intro e error e' h
  cases h

theorem clear_setHasResult : Clear setHasResult := by
  intro e error e' h
  cases h

theorem clear_symbol (a : AliasName) : Clear (symbol a) :=
  .reading fun e => e.signature.clear_symbol a

theorem clear_current (name : String) : Clear (current name) :=
  .reading fun e => e.signature.clear_current e.table name

theorem clear_declareSorted (name : String) (sort : TermSort) : Clear (declareSorted name sort) :=
  Clear.bind (.onTable _) fun _ => (clear_setSort name sort).bind fun _ => .pure _

theorem clear_declare (name : String) {type : TypeRef} (h : type.isVerifiable = true) :
    Clear (declare name type) := by
  rw [TypeRef.isVerifiable_eq_isSome, Option.isSome_iff_exists] at h
  obtain ⟨sort, hsort⟩ := h
  unfold declare
  rw [hsort]
  exact clear_declareSorted name sort

theorem clear_declareAll {names : List (String × TypeRef)}
    (h : ∀ p ∈ names, p.2.isVerifiable = true) : Clear (declareAll names) := by
  induction names with
  | nil => exact .pure _
  | cons p rest ih =>
      rw [List.forall_mem_cons] at h
      exact (clear_declare p.1 h.1).bind fun _ => ih h.2

theorem clear_beginBody {returnType : TypeRef}
    (h : returnType.isVoid = false → returnType.isVerifiable = true) :
    Clear (beginBody returnType) := by
  unfold beginBody
  refine (clear_declareSorted _ _).bind fun a => (clear_symbol a).bind fun _ =>
    (clear_assert _).bind fun _ => ?_
  cases hvoid : returnType.isVoid with
  | true => exact .pure _
  | false => exact (clear_declare resultName (h hvoid)).bind fun _ => clear_setHasResult

theorem clear_write (mayHaveReturned : Bool) (name : String) (value : Term) :
    Clear (write mayHaveReturned name value) := by
  have hstore : ∀ kept, Clear (do
      let fresh ← symbol (← advance name)
      assert (.eq fresh kept)) := fun kept =>
    Clear.bind (.onTable _) fun a => (clear_symbol a).bind fun _ => clear_assert _
  cases mayHaveReturned with
  | false => exact (Clear.pure _).bind hstore
  | true =>
      exact (clear_current returnedName).bind fun _ => (clear_current name).bind fun _ =>
        (Clear.pure _).bind hstore

theorem clear_assign (mayHaveReturned : Bool) (name : String) {e : Expression}
    (h : ¬e.HasUnsupported) : Clear (assign mayHaveReturned name e) :=
  (Clear.reading fun s => s.signature.clear_expression s.table h).bind fun value =>
    (Clear.reading fun s => s.signature.clear_sort name).bind fun sort =>
      (Clear.reading fun _ => clear_expectSort _ sort value).bind fun _ =>
        clear_write mayHaveReturned name value

theorem clear_returnValue (mayHaveReturned : Bool) {e : Expression} (h : ¬e.HasUnsupported) :
    Clear (returnValue mayHaveReturned e) := by
  refine (Clear.reading fun s => ?_).bind fun _ =>
    (Clear.reading fun s => s.signature.clear_expression s.table h).bind fun value =>
      (Clear.reading fun s => .ok _).bind fun sort =>
        (Clear.reading fun _ => clear_expectSort _ sort value).bind fun _ =>
          clear_write mayHaveReturned resultName value
  split
  · exact .ok _
  · exact .error id

theorem clear_joinOne (condition : Term) (d : Divergence) : Clear (joinOne condition d) :=
  Clear.bind (.onTable _) fun a => (clear_symbol a).bind fun _ =>
    (clear_symbol d.leftAlias).bind fun _ => (clear_symbol d.rightAlias).bind fun _ =>
      clear_assert _

theorem clear_joinAll (condition : Term) (ds : List Divergence) : Clear (joinAll condition ds) := by
  induction ds with
  | nil => exact .pure _
  | cons d rest ih => exact (clear_joinOne condition d).bind fun _ => ih

theorem clear_join (condition : Term) (thenTable elseTable : AliasTable) :
    Clear (join condition thenTable elseTable) := by
  intro e error e' h
  unfold join at h
  split at h
  · cases h
    exact id
  · exact clear_joinAll condition _ _ _ _ h

mutual

theorem clear_statement (mayHaveReturned : Bool) (s : Statement) (h : ¬s.HasUnsupported) :
    Clear (statement mayHaveReturned s) := by
  match s with
  | .assignment destination e location =>
      have he : ¬e.HasUnsupported := fun he => h (.of_expression List.mem_cons_self he)
      exact (clear_assign mayHaveReturned _ he).bind fun _ => .pure _
  | .conditional c thenBlock elseBlock location =>
      have hc : ¬c.HasUnsupported := fun hc => h (.of_expression List.mem_cons_self hc)
      have hthen := clear_block mayHaveReturned thenBlock fun a ha ha' =>
        h (.of_branch (List.mem_append_left _ ha) ha')
      have helse := clear_block mayHaveReturned elseBlock fun a ha ha' =>
        h (.of_branch (List.mem_append_right _ ha) ha')
      exact (Clear.reading fun e => e.signature.clear_condition e.table hc).bind fun cond =>
        (Clear.reading fun e => .ok _).bind fun fork =>
          (hthen.branch fork).bind fun _ => (helse.branch fork).bind fun _ =>
            (clear_join cond _ _).bind fun _ => .pure _
  | .return none location =>
      exact (Clear.pure _).bind fun _ => (clear_write _ _ _).bind fun _ => .pure _
  | .return (some e) location =>
      have he : ¬e.HasUnsupported := fun he => h (.of_expression List.mem_cons_self he)
      exact (clear_returnValue mayHaveReturned he).bind fun _ =>
        (clear_write _ _ _).bind fun _ => .pure _
  | .unsupported location => exact absurd ⟨_, .self, .inl ⟨location, rfl⟩⟩ h

theorem clear_block (mayHaveReturned : Bool) (stmts : List Statement)
    (h : ∀ s ∈ stmts, ¬s.HasUnsupported) : Clear (block mayHaveReturned stmts) := by
  match stmts with
  | [] => exact .pure _
  | s :: rest =>
      rw [List.forall_mem_cons] at h
      exact (clear_statement mayHaveReturned s h.1).bind fun flag => clear_block flag rest h.2

end

end Encode

end Covenant
