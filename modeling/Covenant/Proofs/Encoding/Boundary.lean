import Covenant.Proofs.Encoding.Setup

namespace Covenant

-- How actions fail. Those that only look leave the encoder as it is.
namespace Encode

theorem bind_error {x : Encode α} {f : α → Encode β} {e e' : Encoder} {error : EncodeError} :
    (x >>= f) e = .error error e' ↔
      x e = .error error e' ∨ ∃ a next, x e = .ok a next ∧ f a next = .error error e' := by
  change EStateM.bind x f e = .error error e' ↔ _
  unfold EStateM.bind
  cases x e <;> simp

theorem pure_ne_error {a : α} {e e' : Encoder} {error : EncodeError} :
    ¬(pure a : Encode α) e = .error error e' := by
  intro h
  cases h

theorem reading_error {f : Encoder → Except EncodeError α} {e e' : Encoder} {error : EncodeError} :
    reading f e = .error error e' ↔ f e = .error error ∧ e = e' := by
  unfold reading
  cases f e <;> simp

theorem branch_error {fork : AliasTable} {action : Encode Bool} {e e' : Encoder}
    {error : EncodeError} (h : branch fork action e = .error error e') :
    ∃ e₁, action { e with table := fork } = .error error e₁ ∧ e' = { e₁ with table := fork } := by
  unfold branch at h
  split at h
  · cases h
  · rename_i found e₁ haction
    cases h
    exact ⟨e₁, haction, rfl⟩

theorem block_append (first rest : List Statement) (mayHaveReturned : Bool) :
    block mayHaveReturned (first ++ rest) =
      (do let mayHaveReturned ← block mayHaveReturned first
          block mayHaveReturned rest : Encode Bool) := by
  induction first generalizing mayHaveReturned with
  | nil => simp [block]
  | cons a first ih => simp [block, ih]

theorem body_eq_ok {stmts : List Statement} {e e' : Encoder} :
    body stmts e = .ok () e' ↔ ∃ after, block false stmts e = .ok after e' := by
  simp only [body, bind_ok, pure_ok, true_and]
  constructor
  · rintro ⟨after, e₁, hblock, rfl⟩
    exact ⟨after, hblock⟩
  · rintro ⟨after, hblock⟩
    exact ⟨after, e', hblock, rfl⟩

theorem body_eq_error {stmts : List Statement} {e e' : Encoder} {error : EncodeError} :
    body stmts e = .error error e' ↔ block false stmts e = .error error e' := by
  simp only [body, bind_error, pure_ne_error, and_false, exists_false, or_false]

end Encode

-- What holds of an encoder between two statements: the table is over the names that are declared,
-- and what a return writes is there where a return may run to its end or has done so.
structure Encoder.Settled (mayHaveReturned : Bool) (e : Encoder) : Prop where
  names : ∀ name, e.table.contains name = e.signature.sorts.contains name
  result : e.signature.hasResult = true → e.signature.sorts.contains resultName = true
  returned : e.signature.hasResult = true ∨ mayHaveReturned = true →
    e.signature.sorts.contains returnedName = true

namespace Encoder.Settled

variable {mayHaveReturned : Bool} {e e' : Encoder}

theorem toScoped (h : e.Settled mayHaveReturned) : e.Scoped e.signature := ⟨rfl, h.names⟩

theorem writable (h : e.Settled mayHaveReturned) {name : String}
    (hname : e.signature.sorts.contains name = true) : e.Writable mayHaveReturned name :=
  ⟨h.toScoped.registered_iff.mpr hname,
    fun hflag => h.toScoped.registered_iff.mpr (h.returned (.inr hflag))⟩

theorem weaken (h : e.Settled mayHaveReturned) : e.Settled false where
  names := h.names
  result := h.result
  returned := fun hflag => h.returned (hflag.imp_right (by simp))

-- What is settled at a fork is settled for the second branch, after the first.
theorem fork (h : e.Settled mayHaveReturned) (hsignature : e'.signature = e.signature) :
    Encoder.Settled mayHaveReturned { e' with table := e.table } where
  names := fun name => (h.names name).trans (by rw [hsignature])
  result := fun hresult => by
    rw [hsignature] at hresult ⊢
    exact h.result hresult
  returned := fun hflag => by
    rw [hsignature] at hflag ⊢
    exact h.returned hflag

end Encoder.Settled

namespace BlockEncoding

variable {mayHaveReturned after : Bool} {stmts : List Statement} {e e' : Encoder}

-- The flag is set by a return only, and that writes the name that stands for it.
theorem returned (h : BlockEncoding mayHaveReturned stmts e after e') {s : Signature}
    (hs : e.Scoped s) (hafter : after = true) :
    mayHaveReturned = true ∨ s.sorts.contains returnedName = true := by
  induction h with
  | nil mayHaveReturned e => exact .inl hafter
  | assignment location hvalue hsort hwrite hrest ih => exact ih (hs.write hwrite _) hafter
  | conditional location hcondition hsort hthen helse hmerge hrest ihthen ihelse ih =>
      have hleft := hthen.scoped hs
      have hfork := hleft.withTable hs.names
      have hright := helse.scoped hfork
      rcases ih (hleft.join _ hright hmerge) hafter with hflag | hname
      · rcases Bool.or_eq_true_iff.mp hflag with hflag | hflag
        · exact ihthen hs hflag
        · exact ihelse hfork hflag
      · exact .inr hname
  | «return» location hwrite hrest ih => exact .inr (hs.registered_iff.mp hwrite.1)
  | returnValue location hresult hvalue hsort hwrite he₁ hreturned hrest ih =>
      subst he₁
      exact .inr ((hs.write hwrite _).registered_iff.mp hreturned.1)

theorem settled (h : BlockEncoding mayHaveReturned stmts e after e')
    (hs : e.Settled mayHaveReturned) : e'.Settled after := by
  have hscoped := h.scoped hs.toScoped
  refine ⟨fun name => ?_, ?_, ?_⟩
  · rw [hscoped.names, hscoped.signature]
  · rw [hscoped.signature]
    exact hs.result
  · rw [hscoped.signature]
    rintro (hresult | hafter)
    · exact hs.returned (.inl hresult)
    · rcases h.returned hs.toScoped hafter with hflag | hname
      · exact hs.returned (.inr hflag)
      · exact hname

theorem assertions_joinAll (condition : Term) (ds : List Divergence) (e : Encoder) :
    e.assertions <+: (e.joinAll condition ds).assertions := by
  induction ds generalizing e with
  | nil => exact List.prefix_rfl
  | cons d rest ih =>
      exact (List.prefix_append _ _).trans (ih (e.define d.name (d.choice e.signature condition)))

-- Assertions are added at the end.
theorem assertions (h : BlockEncoding mayHaveReturned stmts e after e') :
    e.assertions <+: e'.assertions := by
  induction h with
  | nil mayHaveReturned e => exact List.prefix_rfl
  | assignment location hvalue hsort hwrite hrest ih => exact (List.prefix_append _ _).trans ih
  | @conditional _ _ _ _ _ _ _ _ _ _ _ e₂ _ merged location hcondition hsort hthen helse hmerge
      hrest ihthen ihelse ih =>
      refine ihthen.trans (ihelse.trans ?_)
      exact (assertions_joinAll _ _ { e₂ with table := merged.table }).trans ih
  | «return» location hwrite hrest ih => exact (List.prefix_append _ _).trans ih
  | returnValue location hresult hvalue hsort hwrite he₁ hreturned hrest ih =>
      subst he₁
      exact (List.prefix_append _ _).trans ((List.prefix_append _ _).trans ih)

end BlockEncoding

-- What a failure leaves of an encoder. Aliases may have been issued and equations made, but names
-- and their generations are as they were.
structure Encoder.Left (e e' : Encoder) : Prop where
  signature : e'.signature = e.signature
  table : e'.table = e.table
  assertions : e.assertions <+: e'.assertions

namespace Encoder.Left

theorem refl (e : Encoder) : e.Left e := ⟨rfl, rfl, List.prefix_rfl⟩

theorem settled {mayHaveReturned : Bool} {e e' : Encoder} (h : e.Left e')
    (hs : e.Settled mayHaveReturned) : e'.Settled mayHaveReturned := by
  have hfork := hs.fork h.signature
  rw [← h.table] at hfork
  exact hfork

end Encoder.Left

namespace Encode

variable {mayHaveReturned : Bool} {e e' : Encoder} {error : EncodeError}

theorem assign_error {name : String} {x : Expression} (hs : e.Settled mayHaveReturned)
    (h : assign mayHaveReturned name x e = .error error e') : e' = e := by
  simp only [assign, expression, bind_error, reading_ok, reading_error] at h
  rcases h with ⟨-, rfl⟩ | ⟨value, e₁, ⟨-, rfl⟩, ⟨-, rfl⟩ | ⟨sort, e₂, ⟨hsort, rfl⟩, ⟨-, rfl⟩ |
    ⟨u, e₃, ⟨-, rfl⟩, hwrite⟩⟩⟩
  · rfl
  · rfl
  · rfl
  · -- A name that has a sort can be written.
    have hname := (NameMap.contains_iff _ _).mpr ⟨sort, Signature.sort_eq_ok.mp hsort⟩
    rw [write_of_writable (hs.writable hname)] at hwrite
    cases hwrite

theorem returnValue_error {x : Expression} (hs : e.Settled mayHaveReturned)
    (h : returnValue mayHaveReturned x e = .error error e') : e' = e := by
  simp only [returnValue, expression, bind_error, reading_ok, reading_error] at h
  rcases h with ⟨-, rfl⟩ | ⟨u, e₁, ⟨hresult, rfl⟩, ⟨-, rfl⟩ | ⟨value, e₂, ⟨-, rfl⟩, ⟨hsort, -⟩ |
    ⟨sort, e₃, ⟨-, rfl⟩, ⟨-, rfl⟩ | ⟨v, e₄, ⟨-, rfl⟩, hwrite⟩⟩⟩⟩
  · rfl
  · rfl
  · cases hsort
  · rfl
  · have hresult : e.signature.hasResult = true := by
      by_contra hno
      simp [hno] at hresult
    rw [write_of_writable (hs.writable (hs.result hresult))] at hwrite
    cases hwrite

-- The flag cannot be written only where it is not declared, and then nothing has been written.
theorem write_returned_error {value : Term} (hs : e.Settled mayHaveReturned)
    (h : write mayHaveReturned returnedName value e = .error error e') : e' = e := by
  cases hname : e.signature.sorts.contains returnedName with
  | true =>
      rw [write_of_writable (hs.writable hname)] at h
      cases h
  | false =>
      have hflag : mayHaveReturned = false := by
        by_contra hflag
        simp [hs.returned (.inr (Bool.eq_true_of_not_eq_false hflag))] at hname
      subst hflag
      have htable := hs.names returnedName
      rw [hname, AliasTable.contains, NameMap.contains, Option.isSome_eq_false_iff,
        Option.isNone_iff_eq_none] at htable
      simp [write, advance, onTable, AliasTable.advance, htable, bind, EStateM.bind, pure,
        EStateM.pure] at h
      exact h.2.symm

theorem return_error {value : Option Expression} {location : Location}
    (hs : e.Settled mayHaveReturned)
    (h : statement mayHaveReturned (.return value location) e = .error error e') : e' = e := by
  cases value with
  | none =>
      simp only [statement, bind_error, pure_ne_error, and_false, exists_false, or_false] at h
      exact write_returned_error hs h
  | some x =>
      simp only [statement, bind_error, pure_ne_error, and_false, exists_false, or_false] at h
      rcases h with hvalue | ⟨u, e₁, hvalue, hwrite⟩
      · exact returnValue_error hs hvalue
      · -- Where a value has been written, there is a flag to write.
        obtain ⟨value, hresult, -, -, hwritable, rfl⟩ := returnValue_ok hvalue
        have hreturned := hs.returned (.inl hresult)
        have hnext :=
          (hs.toScoped.write hwritable value).writable hreturned hreturned mayHaveReturned
        rw [write_of_writable hnext] at hwrite
        cases hwrite

-- A join of two branches of one fork does not fail.
theorem join_ne_error {condition : Term} {left right : AliasTable} {s : Signature}
    (h : e.Scoped s) (hleft : ∀ name, left.contains name = s.sorts.contains name)
    (hright : ∀ name, right.contains name = s.sorts.contains name) :
    join condition left right e ≠ .error error e' := by
  intro herror
  have hverdict := verdict_join condition h hleft hright
  rw [herror] at hverdict
  cases hverdict

theorem unbranched_of_statement {a : Statement} (hs : e.Settled mayHaveReturned)
    (h : statement mayHaveReturned a e = .error error e')
    (ha : ∀ c thenBlock elseBlock location, a ≠ .conditional c thenBlock elseBlock location) :
    e' = e := by
  cases a with
  | assignment destination x location =>
      simp only [statement, bind_error, pure_ne_error, and_false, exists_false, or_false] at h
      exact assign_error hs h
  | conditional c thenBlock elseBlock location =>
      exact absurd rfl (ha c thenBlock elseBlock location)
  | «return» value location => exact return_error hs h
  | unsupported location =>
      cases h
      rfl

mutual

theorem left_of_statement {mayHaveReturned : Bool} {e e' : Encoder} {error : EncodeError}
    (a : Statement) (hs : e.Settled mayHaveReturned)
    (h : statement mayHaveReturned a e = .error error e') : e.Left e' := by
  match a with
  | .assignment _ _ _ | .return _ _ | .unsupported _ =>
      exact unbranched_of_statement hs h (by simp) ▸ .refl e
  | .conditional c thenBlock elseBlock location =>
      simp only [statement, condition, bind_error, reading_ok, reading_error, pure_ne_error,
        and_false, exists_false, or_false] at h
      rcases h with
        ⟨-, rfl⟩ | ⟨cond, e₀, ⟨-, rfl⟩, ⟨hfork, -⟩ | ⟨fork, e₀, ⟨hfork, rfl⟩, hbranches⟩⟩
      · exact .refl e
      · cases hfork
      cases hfork
      rcases hbranches with hbranch | ⟨⟨thenReturned, thenTable⟩, e₁, hbranch, hrest⟩
      · obtain ⟨e₁, hthen, rfl⟩ := branch_error hbranch
        obtain ⟨hsignature, hassertions⟩ := left_of_block thenBlock hs hthen
        exact ⟨hsignature, rfl, hassertions⟩
      obtain ⟨e₁, hthen, rfl, rfl⟩ := branch_ok hbranch
      have hleft := blockEncoding_of_block thenBlock hthen
      have hscoped := hleft.scoped hs.toScoped
      rcases hrest with hbranch | ⟨⟨elseReturned, elseTable⟩, e₂, hbranch, hjoin⟩
      · obtain ⟨e₂, helse, rfl⟩ := branch_error hbranch
        obtain ⟨hsignature, hassertions⟩ :=
          left_of_block elseBlock (hs.fork hscoped.signature) helse
        exact ⟨hsignature.trans hscoped.signature, rfl, hleft.assertions.trans hassertions⟩
      · obtain ⟨e₂, helse, rfl, rfl⟩ := branch_ok hbranch
        have hright := (blockEncoding_of_block elseBlock helse).scoped (hscoped.withTable hs.names)
        exact absurd hjoin (join_ne_error (hright.withTable hs.names) hscoped.names hright.names)

theorem left_of_block {mayHaveReturned : Bool} {e e' : Encoder} {error : EncodeError}
    (stmts : List Statement) (hs : e.Settled mayHaveReturned)
    (h : block mayHaveReturned stmts e = .error error e') :
    e'.signature = e.signature ∧ e.assertions <+: e'.assertions := by
  match stmts with
  | [] => cases h
  | a :: rest =>
      rw [block, bind_error] at h
      rcases h with hone | ⟨after, e₁, hone, hrest⟩
      · have hleft := left_of_statement a hs hone
        exact ⟨hleft.signature, hleft.assertions⟩
      · have hencoding := blockEncoding_of_statement hone
        obtain ⟨hsignature, hassertions⟩ := left_of_block rest (hencoding.settled hs) hrest
        exact ⟨hsignature.trans (hencoding.scoped hs.toScoped).signature,
          hencoding.assertions.trans hassertions⟩

end

-- A block that fails does so at one statement, which the ones before it lead up to.
theorem block_error {stmts : List Statement} (h : block mayHaveReturned stmts e = .error error e') :
    ∃ first a rest after boundary, stmts = first ++ a :: rest ∧
      block mayHaveReturned first e = .ok after boundary ∧
      statement after a boundary = .error error e' := by
  induction stmts generalizing mayHaveReturned e with
  | nil => cases h
  | cons a rest ih =>
      rw [block, bind_error] at h
      rcases h with hone | ⟨next, e₁, hone, hrest⟩
      · exact ⟨[], a, rest, mayHaveReturned, e, rfl, rfl, hone⟩
      · obtain ⟨first, b, last, after, boundary, rfl, hfirst, hfails⟩ := ih hrest
        refine ⟨a :: first, b, last, after, boundary, rfl, ?_, hfails⟩
        rw [block, bind_ok]
        exact ⟨next, e₁, hone, hfirst⟩

theorem body_of_append {first stmts : List Statement} (hbegins : first <+: stmts)
    (h : body stmts e = .ok () e') : ∃ e₁, body first e = .ok () e₁ := by
  obtain ⟨rest, rfl⟩ := hbegins
  obtain ⟨after, hblock⟩ := body_eq_ok.mp h
  rw [block_append, bind_ok] at hblock
  obtain ⟨next, e₁, hfirst, -⟩ := hblock
  exact ⟨e₁, body_eq_ok.mpr ⟨next, hfirst⟩⟩

-- How many statements a body gets through: as many as stand before the one that fails.
theorem body_take_iff {first rest : List Statement} {a : Statement} {after : Bool}
    {boundary : Encoder} (hfirst : block false first e = .ok after boundary)
    (hfails : statement after a boundary = .error error e') (j : Nat) :
    (∃ e₁, body ((first ++ a :: rest).take j) e = .ok () e₁) ↔ j ≤ first.length := by
  constructor
  · rintro ⟨e₁, hok⟩
    by_contra hj
    have hbegins : first ++ [a] <+: (first ++ a :: rest).take j := by
      rw [List.prefix_take_iff]
      refine ⟨⟨rest, by simp⟩, ?_⟩
      simp only [List.length_append, List.length_singleton]
      omega
    obtain ⟨e₂, hbody⟩ := body_of_append hbegins hok
    obtain ⟨last, hblock⟩ := body_eq_ok.mp hbody
    rw [block_append, bind_ok] at hblock
    obtain ⟨next, e₃, hbefore, hone⟩ := hblock
    rw [hfirst] at hbefore
    cases hbefore
    rw [block, bind_ok, hfails] at hone
    obtain ⟨flag, e₄, hone, -⟩ := hone
    cases hone
  · intro hj
    rw [List.take_append_of_le_length hj]
    exact body_of_append (List.take_prefix j first) (body_eq_ok.mpr ⟨after, hfirst⟩)

-- The encoder that a call ends with, whether it succeeds or fails.
def final {α : Type} : EStateM.Result EncodeError Encoder α → Encoder
  | .ok _ e => e
  | .error _ e => e

end Encode

namespace Setup

-- The encoder after a call. One that fails keeps what it has built.
def after (e : Encoder) (c : Setup) : Encoder := Encode.final (c.perform e)

def prepared (calls : List Setup) : Encoder := calls.foldl after .empty

variable {e e' : Encoder} {error : EncodeError}

-- A call that succeeds adds names and takes none away.
theorem settled_of_adds {c : Setup} (h : e.Settled false) (hadds : Adds e.signature c e') :
    e'.Settled false := by
  have hsignature := hadds.ready.signature
  refine ⟨fun name => ?_, ?_, ?_⟩
  · rw [hadds.ready.names, hsignature]
  · rw [hsignature]
    exact hadds.ready.result
  · rw [hsignature, or_iff_left Bool.false_ne_true]
    intro hresult
    rw [NameMap.contains_iff]
    rcases Bool.or_eq_true_iff.mp hresult with hbefore | hhere
    · obtain ⟨sort, hsort⟩ := (NameMap.contains_iff _ _).mp (h.returned (.inl hbefore))
      exact ⟨sort, (hadds.sorts _ _).mpr (.inl hsort)⟩
    · refine ⟨.bool, (hadds.sorts _ _).mpr (.inr ?_)⟩
      cases c with
      | declare name type => cases hhere
      | beginBody returnType => exact List.mem_cons_self
      | body statements => cases hhere

theorem declareSorted_error {name : String} {sort : TermSort}
    (h : Encode.declareSorted name sort e = .error error e') : e' = e := by
  simp only [Encode.declareSorted, Encode.bind_error, Encode.pure_ne_error, and_false, exists_false,
    or_false, Encode.setSort, reduceCtorEq] at h
  simp only [Encode.add, Encode.onTable, AliasTable.add] at h
  cases hcontains : e.table.contains name with
  | true =>
      simp only [hcontains, if_true, EStateM.Result.error.injEq] at h
      exact h.2.symm
  | false => simp [hcontains] at h

theorem declare_error {name : String} {type : TypeRef}
    (h : Encode.declare name type e = .error error e') : e' = e := by
  cases htype : type.sort? with
  | none =>
      simp only [Encode.declare, htype] at h
      cases h
      rfl
  | some sort =>
      simp only [Encode.declare, htype] at h
      exact declareSorted_error h

-- Where the result cannot be declared, the flag has been, and that is all.
theorem settled_of_beginBody_error {returnType : TypeRef} (h : e.Settled false)
    (herror : Encode.beginBody returnType e = .error error e') : e'.Settled false := by
  simp only [Encode.beginBody, Encode.bind_error, Encode.symbol_ok, Encode.assert_ok] at herror
  rcases herror with hflag | ⟨a, e₁, hflag, hrest⟩
  · exact declareSorted_error hflag ▸ h
  obtain ⟨-, hscoped⟩ := declareSorted_eq_ok h.toScoped hflag
  have hdeclared : ∀ assertions, Encoder.Settled false { e₁ with assertions } := by
    intro assertions
    refine ⟨fun name => ?_, ?_, ?_⟩
    · exact (hscoped.names name).trans (by rw [hscoped.signature])
    · rw [hscoped.signature]
      intro hresult
      rw [NameMap.contains_insert, h.result hresult, Bool.or_true]
    · rw [hscoped.signature]
      simp [NameMap.contains_insert]
  rcases hrest with hsymbol | ⟨t, e₂, ⟨-, rfl⟩, hassert | ⟨u, e₃, rfl, hresult⟩⟩
  · obtain ⟨-, rfl⟩ := Encode.reading_error.mp hsymbol
    exact hdeclared e₁.assertions
  · cases hassert
  · split at hresult
    · cases hresult
    · simp only [Encode.bind_error, Encode.setHasResult, reduceCtorEq, and_false, exists_false,
        or_false] at hresult
      exact declare_error hresult ▸ hdeclared _

theorem settled_of_body_error {stmts : List Statement} (h : e.Settled false)
    (herror : Encode.body stmts e = .error error e') : e'.Settled false := by
  obtain ⟨first, a, rest, after, boundary, -, hfirst, hfails⟩ :=
    Encode.block_error (Encode.body_eq_error.mp herror)
  have hboundary := (blockEncoding_of_block first hfirst).settled h
  exact ((Encode.left_of_statement a hboundary hfails).settled hboundary).weaken

theorem settled_after (h : e.Settled false) (c : Setup) : (after e c).Settled false := by
  unfold after
  cases hcall : c.perform e with
  | ok u e' => exact settled_of_adds h (adds_perform ⟨h.toScoped, h.result⟩ hcall)
  | error error e' =>
      cases c with
      | declare name type =>
          simp only [perform, Encode.bind_error, Encode.pure_ne_error, and_false, exists_false,
            or_false] at hcall
          exact declare_error hcall ▸ h
      | beginBody returnType => exact settled_of_beginBody_error h hcall
      | body statements => exact settled_of_body_error h hcall

theorem settled_foldl {calls : List Setup} (h : e.Settled false) :
    (calls.foldl after e).Settled false := by
  induction calls generalizing e with
  | nil => exact h
  | cons c rest ih => exact ih (settled_after h c)

theorem settled_prepared (calls : List Setup) : (prepared calls).Settled false := by
  refine settled_foldl ⟨fun _ => rfl, ?_, ?_⟩ <;> simp [Encoder.empty, Signature.empty]

end Setup

-- A body that fails stops at a statement boundary, however deep in branches the failure lies: names
-- and generations are as the statements before the failing one leave them alone, and of the failing
-- one there are equations at most. Outside of branches there are not even those. This is after any
-- calls on the encoder, those that fail included.
theorem Encode.failed_body_at_boundary (calls : List Setup) {stmts : List Statement}
    {error : EncodeError} {e' : Encoder}
    (h : body stmts (Setup.prepared calls) = .error error e') :
    ∃ (k : Nat) (failing : Statement) (mayHaveReturned : Bool) (boundary : Encoder)
      (made : List Term),
      (∀ j, (∃ e₁, body (stmts.take j) (Setup.prepared calls) = .ok () e₁) ↔ j ≤ k) ∧
      body (stmts.take k) (Setup.prepared calls) = .ok () boundary ∧
      e'.table = boundary.table ∧
      e'.signature = (Setup.prepared calls).signature ∧
      e'.assertions = boundary.assertions ++ made ∧
      stmts[k]? = some failing ∧
      block false (stmts.take k) (Setup.prepared calls) = .ok mayHaveReturned boundary ∧
      statement mayHaveReturned failing boundary = .error error e' ∧
      ((∀ c thenBlock elseBlock location, failing ≠ .conditional c thenBlock elseBlock location) →
        e' = boundary) := by
  have hs := Setup.settled_prepared calls
  obtain ⟨first, a, rest, after, boundary, rfl, hfirst, hfails⟩ := block_error (body_eq_error.mp h)
  have hencoding := blockEncoding_of_block first hfirst
  have hboundary := hencoding.settled hs
  have hleft := left_of_statement a hboundary hfails
  obtain ⟨made, hmade⟩ := hleft.assertions
  have htake : (first ++ a :: rest).take first.length = first := List.take_left
  refine ⟨first.length, a, after, boundary, made, body_take_iff hfirst hfails, ?_, hleft.table, ?_,
    hmade.symm, by simp, ?_, hfails, unbranched_of_statement hboundary hfails⟩
  · rw [htake]
    exact body_eq_ok.mpr ⟨after, hfirst⟩
  · rw [hleft.signature, (hencoding.scoped hs.toScoped).signature]
  · rw [htake]
    exact hfirst

namespace Setup

-- The failure is in the second branch of the second branch of the second statement.
def buried : List Statement :=
  let n := Variable.parameter ⟨"n", .named "int" false, default⟩
  let negative := Expression.comparison (.order .lt) (.variable n) (.literal (.int 0))
  [.assignment n (.literal (.int 1)) default,
    .conditional negative [.return (some (.variable n)) default]
      [.assignment n .result default,
        .conditional negative [.assignment n (.literal (.int 2)) default]
          [.assignment n (.literal (.bool true)) default] default] default,
    .assignment n (.literal (.int 3)) default]

-- The second declaration of a name fails, and so does the first body.
def stumbling : List Setup :=
  [.declare "n" (.named "int" false), .declare "n" (.named "bool" false),
    .beginBody (.named "long" false), .body buried]

end Setup

theorem Encode.failed_body_at_boundary_buried : ∃ (boundary e' : Encoder) (made : List Term),
    body Setup.buried (Setup.prepared Setup.stumbling) = .error (.sortMismatch "=" .int .bool) e' ∧
    body (Setup.buried.take 1) (Setup.prepared Setup.stumbling) = .ok () boundary ∧
    e'.table = boundary.table ∧ e'.assertions = boundary.assertions ++ made ∧
    e'.signature = (Setup.prepared Setup.stumbling).signature := by
  have hverdict : verdict (body Setup.buried (Setup.prepared Setup.stumbling)) =
      .error (.sortMismatch "=" .int .bool) := by decide +kernel
  have hone : verdict (body (Setup.buried.take 1) (Setup.prepared Setup.stumbling)) = .ok () := by
    decide +kernel
  have htwo : verdict (body (Setup.buried.take 2) (Setup.prepared Setup.stumbling)) =
      .error (.sortMismatch "=" .int .bool) := by decide +kernel
  obtain ⟨e', hfails⟩ := verdict_eq_error.mp hverdict
  obtain ⟨k, failing, flag, boundary, made, htake, hbody, htable, hsignature, hassertions, -⟩ :=
    failed_body_at_boundary Setup.stumbling hfails
  have hk : k = 1 := by
    have hlower := (htake 1).mp ((verdict_eq_ok.mp hone).elim fun u h => h)
    have hupper : ¬2 ≤ k := by
      intro hk
      obtain ⟨e₂, hok⟩ := (htake 2).mpr hk
      rw [hok] at htwo
      cases htwo
    omega
  subst hk
  exact ⟨boundary, e', made, hfails, hbody, htable, hassertions, hsignature⟩

end Covenant
