import Covenant.Proofs.Encoding.Acceptance

namespace Covenant

-- A call on an encoder before a body is encoded.
inductive Setup
  | declare (name : String) (type : TypeRef)
  | beginBody (returnType : TypeRef)
  | body (statements : List Statement)

namespace Setup

def perform : Setup → Encode Unit
  | .declare name type => do
      let _ ← Encode.declare name type
  | .beginBody returnType => Encode.beginBody returnType
  | .body statements => Encode.body statements

def performAll : List Setup → Encode Unit
  | [] => return
  | c :: rest => do
      c.perform
      performAll rest

-- The names that a call declares, with their sorts. A body declares none.
def sorts : Setup → List (String × TermSort)
  | .declare name type => type.sort?.toList.map fun sort => (name, sort)
  | .beginBody returnType =>
      (returnedName, .bool) :: if returnType.isVoid then []
        else returnType.sort?.toList.map fun sort => (resultName, sort)
  | .body _ => []

def hasResult : Setup → Bool
  | .beginBody returnType => !returnType.isVoid
  | .declare _ _ | .body _ => false

def extend (s : Signature) (c : Setup) : Signature :=
  ⟨c.sorts.foldl (fun m p => m.insert p.1 p.2) s.sorts, s.hasResult || c.hasResult⟩

-- What the calls declare.
def signature (calls : List Setup) : Signature := calls.foldl extend .empty

end Setup

-- The signature of an encoder that is set up: the table is over its names, and where there is a
-- result, there is a name for it.
structure Encoder.Ready (s : Signature) (e : Encoder) : Prop extends e.Scoped s where
  result : s.hasResult = true → s.sorts.contains resultName = true

namespace Setup

variable {s : Signature} {e e' : Encoder}

theorem declareSorted_eq_ok {name : String} {sort : TermSort} {a : AliasName} (h : e.Scoped s)
    (hok : Encode.declareSorted name sort e = .ok a e') : s.sorts.contains name = false ∧
      e'.Scoped ⟨s.sorts.insert name sort, s.hasResult⟩ := by
  obtain ⟨rfl, hnames⟩ := h
  simp only [Encode.declareSorted, Encode.bind_ok, Encode.pure_ok, Encode.setSort] at hok
  obtain ⟨b, e₁, hadd, u, e₂, hset, rfl, rfl⟩ := hok
  cases hset
  simp only [Encode.add, Encode.onTable, AliasTable.add] at hadd
  cases hcontains : e.table.contains name with
  | true => simp [hcontains] at hadd
  | false =>
      simp only [hcontains, Bool.false_eq_true, if_false, EStateM.Result.ok.injEq] at hadd
      obtain ⟨rfl, rfl⟩ := hadd
      refine ⟨(hnames name).symm.trans hcontains, rfl, fun other => ?_⟩
      rw [AliasTable.contains_set, NameMap.contains_insert, hnames other]

theorem declare_eq_ok {name : String} {type : TypeRef} {a : AliasName} (h : e.Scoped s)
    (hok : Encode.declare name type e = .ok a e') : ∃ sort, type.sort? = some sort ∧
      s.sorts.contains name = false ∧ e'.Scoped ⟨s.sorts.insert name sort, s.hasResult⟩ := by
  cases htype : type.sort? with
  | none =>
      simp only [Encode.declare, htype] at hok
      cases hok
  | some sort =>
      simp only [Encode.declare, htype] at hok
      exact ⟨sort, rfl, declareSorted_eq_ok h hok⟩

-- The signature after a call that succeeds: the names that the call declares are new.
structure Adds (s : Signature) (c : Setup) (e' : Encoder) : Prop where
  ready : e'.Ready (c.extend s)
  sorts : ∀ name sort, (c.extend s).sorts.get? name = some sort ↔
    s.sorts.get? name = some sort ∨ (name, sort) ∈ c.sorts

theorem adds_declare {name : String} {type : TypeRef} {a : AliasName} (h : e.Ready s)
    (hok : Encode.declare name type e = .ok a e') : Adds s (.declare name type) e' := by
  obtain ⟨sort, htype, hfresh, hscoped⟩ := declare_eq_ok h.toScoped hok
  have hextend : extend s (.declare name type) = ⟨s.sorts.insert name sort, s.hasResult⟩ := by
    simp [extend, sorts, hasResult, htype]
  refine ⟨hextend ▸ ⟨hscoped, fun hresult => ?_⟩, fun other found => ?_⟩
  · rw [NameMap.contains_insert, h.result hresult, Bool.or_true]
  · rw [hextend, NameMap.get?_insert_of_not_contains hfresh]
    simp [sorts, htype, Prod.ext_iff]

theorem adds_beginBody {returnType : TypeRef} {u : Unit} (h : e.Ready s)
    (hok : Encode.beginBody returnType e = .ok u e') : Adds s (.beginBody returnType) e' := by
  simp only [Encode.beginBody, Encode.bind_ok, Encode.symbol_ok, Encode.assert_ok] at hok
  obtain ⟨a, e₁, hflag, t, e₂, ⟨-, rfl⟩, v, e₃, rfl, hrest⟩ := hok
  obtain ⟨hfresh, hscoped⟩ := declareSorted_eq_ok h.toScoped hflag
  cases hvoid : returnType.isVoid with
  | true =>
      simp only [hvoid, if_true, Encode.pure_ok] at hrest
      obtain ⟨-, rfl⟩ := hrest
      have hextend : extend s (.beginBody returnType) =
          ⟨s.sorts.insert returnedName .bool, s.hasResult⟩ := by
        simp [extend, sorts, hasResult, hvoid]
      refine ⟨hextend ▸ ⟨hscoped.withAssertions _, fun hresult => ?_⟩, fun name sort => ?_⟩
      · rw [NameMap.contains_insert, h.result hresult, Bool.or_true]
      · rw [hextend, NameMap.get?_insert_of_not_contains hfresh]
        simp [sorts, hvoid, Prod.ext_iff]
  | false =>
      simp only [hvoid, Bool.false_eq_true, if_false, Encode.bind_ok] at hrest
      obtain ⟨b, e₂, hdeclare, hset⟩ := hrest
      cases hset
      obtain ⟨sort, htype, hfresh', hscoped'⟩ := declare_eq_ok (hscoped.withAssertions _) hdeclare
      have hextend : extend s (.beginBody returnType) =
          ⟨(s.sorts.insert returnedName .bool).insert resultName sort, true⟩ := by
        simp [extend, sorts, hasResult, hvoid, htype]
      refine ⟨hextend ▸ ⟨⟨?_, hscoped'.names⟩, fun _ => ?_⟩, fun name found => ?_⟩
      · rw [hscoped'.signature]
      · simp [NameMap.contains_insert]
      · rw [hextend, NameMap.get?_insert_of_not_contains hfresh',
          NameMap.get?_insert_of_not_contains hfresh]
        simp [sorts, hvoid, htype, Prod.ext_iff, or_assoc]

theorem adds_body {statements : List Statement} {u : Unit} (h : e.Ready s)
    (hok : Encode.body statements e = .ok u e') : Adds s (.body statements) e' := by
  simp only [Encode.body, Encode.bind_ok, Encode.pure_ok] at hok
  obtain ⟨after, e₁, hblock, -, rfl⟩ := hok
  have hextend : extend s (.body statements) = s := by
    simp [extend, sorts, hasResult]
  have hscoped := (blockEncoding_of_block statements hblock).scoped h.toScoped
  refine ⟨?_, fun name sort => ?_⟩
  · rw [hextend]
    exact ⟨hscoped, h.result⟩
  · rw [hextend]
    simp [sorts]

theorem adds_perform {c : Setup} {u : Unit} (h : e.Ready s) (hok : c.perform e = .ok u e') :
    Adds s c e' := by
  cases c with
  | declare name type =>
      simp only [perform, Encode.bind_ok, Encode.pure_ok] at hok
      obtain ⟨a, e₁, hdeclare, -, rfl⟩ := hok
      exact adds_declare h hdeclare
  | beginBody returnType => exact adds_beginBody h hok
  | body statements => exact adds_body h hok

theorem ready_performAll {calls : List Setup} {u : Unit} (h : e.Ready s)
    (hok : performAll calls e = .ok u e') : e'.Ready (calls.foldl extend s) ∧
      ∀ name sort, (calls.foldl extend s).sorts.get? name = some sort ↔
        s.sorts.get? name = some sort ∨ ∃ c ∈ calls, (name, sort) ∈ c.sorts := by
  induction calls generalizing s e with
  | nil =>
      obtain ⟨-, rfl⟩ := Encode.pure_ok.mp hok
      exact ⟨h, by simp⟩
  | cons c rest ih =>
      simp only [performAll, Encode.bind_ok] at hok
      obtain ⟨v, e₁, hone, hrest⟩ := hok
      have hadds := adds_perform h hone
      obtain ⟨hready, hsorts⟩ := ih hadds.ready hrest
      refine ⟨hready, fun name sort => ?_⟩
      rw [List.foldl_cons, hsorts, hadds.sorts, or_assoc]
      simp

theorem hasResult_foldl (calls : List Setup) (s : Signature) :
    (calls.foldl extend s).hasResult = (s.hasResult || calls.any hasResult) := by
  induction calls generalizing s with
  | nil => simp
  | cons c rest ih => simp [ih, extend, Bool.or_assoc]

theorem ready_empty : Encoder.empty.Ready .empty where
  signature := rfl
  names := fun _ => rfl
  result := by simp [Signature.empty]

theorem hasGhosts_signature {calls : List Setup} {u : Unit} {returnType : TypeRef}
    (hok : performAll calls .empty = .ok u e) (hbegin : .beginBody returnType ∈ calls) :
    (signature calls).HasGhosts := by
  obtain ⟨hready, hsorts⟩ := ready_performAll ready_empty hok
  refine ⟨(NameMap.contains_iff _ _).mpr ⟨.bool, ?_⟩, hready.result⟩
  exact (hsorts _ _).mpr (.inr ⟨_, hbegin, List.mem_cons_self⟩)

end Setup

-- A body is encoded exactly if it is well-typed by what was declared. Which generations are current,
-- whether a return may have run, and where in branches a statement stands make no difference, and
-- neither has an error to do with any of them.
theorem Encode.body_accepted_iff_wellTyped {calls : List Setup} {returnType : TypeRef} {e : Encoder}
    (hcalls : Setup.performAll calls .empty = .ok () e) (hbegin : .beginBody returnType ∈ calls)
    (stmts : List Statement) :
    (∀ name sort, (Setup.signature calls).sorts.get? name = some sort ↔
      ∃ c ∈ calls, (name, sort) ∈ c.sorts) ∧
    ((Setup.signature calls).hasResult = true ↔ ∃ c ∈ calls, c.hasResult = true) ∧
    ((∃ e', body stmts e = .ok () e') ↔ (Setup.signature calls).WellTyped stmts) ∧
    (∀ mayHaveReturned,
      verdict (block mayHaveReturned stmts e) = (Setup.signature calls).checkBlock stmts) ∧
    ∀ error e', body stmts e = .error error e' →
      (Setup.signature calls).checkBlock stmts = .error error ∧
      (Setup.signature calls).Explains error ∧ (∀ name, error ≠ .alias (.alreadyRegistered name)) ∧
      ∀ leftOnly rightOnly, error ≠ .alias (.mismatchedNames leftOnly rightOnly) := by
  obtain ⟨hready, hsorts⟩ := Setup.ready_performAll Setup.ready_empty hcalls
  have hghosts := Setup.hasGhosts_signature hcalls hbegin
  have hblock : ∀ mayHaveReturned, verdict (block mayHaveReturned stmts e) =
      (Setup.signature calls).checkBlock stmts :=
    fun mayHaveReturned => verdict_block hghosts mayHaveReturned hready.toScoped stmts
  have hbody : verdict (body stmts e) = (Setup.signature calls).checkBlock stmts := by
    rw [body, verdict_bind_of_ok fun _ _ _ => rfl]
    exact hblock false
  refine ⟨fun name sort => ?_, ?_, ?_, hblock, fun error e' herror => ?_⟩
  · rw [Setup.signature, hsorts]
    simp [Signature.empty]
  · rw [Setup.signature, Setup.hasResult_foldl]
    simp [Signature.empty]
  · rw [← Signature.checkBlock_eq_ok, ← hbody, verdict_eq_ok]
    exact ⟨fun h => ⟨(), h⟩, fun h => h.elim fun _ h => h⟩
  · have hcheck : (Setup.signature calls).checkBlock stmts = .error error := by
      rw [← hbody, herror]
      rfl
    have hexplains := Signature.Explained.checkBlock stmts error hcheck
    refine ⟨hcheck, hexplains, ?_, ?_⟩
    · rintro name rfl
      exact hexplains
    · rintro leftOnly rightOnly rfl
      exact hexplains

namespace Setup

def countdown (value : Expression) : List Statement :=
  let n := Variable.parameter ⟨"n", .named "int" false, default⟩
  [.conditional (.comparison (.order .lt) (.variable n) (.literal (.int 0)))
      [.return (some (.variable n)) default] [.assignment n value default] default,
    .assignment n value default]

-- An earlier body has left the names at later generations.
def counting : List Setup :=
  [.declare "n" (.named "int" false), .beginBody (.named "long" false),
    .body (countdown (.literal (.int 7)))]

end Setup

theorem Encode.body_accepted_iff_wellTyped_countdown : ∃ e : Encoder,
    Setup.performAll Setup.counting .empty = .ok () e ∧
    (∃ e', body (Setup.countdown .result) e = .ok () e') ∧
    ∃ e', body (Setup.countdown (.literal (.bool true))) e =
      .error (.sortMismatch "=" .int .bool) e' := by
  have hok : verdict (Setup.performAll Setup.counting .empty) = .ok () := by decide +kernel
  obtain ⟨u, e, hcalls⟩ := verdict_eq_ok.mp hok
  have hbegin : .beginBody (.named "long" false) ∈ Setup.counting := by simp [Setup.counting]
  have htyped : (Setup.signature Setup.counting).WellTyped (Setup.countdown .result) :=
    (Signature.checkBlock_eq_ok _).mp (by decide +kernel)
  have hrejects : (Setup.signature Setup.counting).checkBlock
      (Setup.countdown (.literal (.bool true))) = .error (.sortMismatch "=" .int .bool) := by
    decide +kernel
  obtain ⟨-, -, haccepted, -, -⟩ := body_accepted_iff_wellTyped hcalls hbegin (Setup.countdown .result)
  obtain ⟨-, -, -, hverdict, -⟩ :=
    body_accepted_iff_wellTyped hcalls hbegin (Setup.countdown (.literal (.bool true)))
  refine ⟨e, hcalls, haccepted.mpr htyped, verdict_eq_error.mp ?_⟩
  rw [body, verdict_bind_of_ok fun _ _ _ => rfl, hverdict, hrejects]

end Covenant
