import Covenant.Proofs.Encoding.Expression
import Covenant.Proofs.Model.Unsupported

namespace Covenant

def Literal.sort : Literal → TermSort
  | .int _ => .int
  | .bool _ => .bool

-- The sort that both sides have to have, where the left one has a sort.
def Comparison.sides : Comparison → TermSort → TermSort
  | .equal, left | .unequal, left => left
  | .order _, _ => .int

-- The sort of the operand, which is that of the whole.
def Unary.sort : Unary → TermSort
  | .not => .bool
  | .negate => .int

namespace Signature

-- The sort of an expression, by the declared sorts alone
inductive HasSort (s : Signature) : Expression → TermSort → Prop
  | literal (l : Literal) : HasSort s (.literal l) l.sort
  | reads {v : Variable} {sort : TermSort} (h : s.sorts.get? v.logicalName = some sort) :
      HasSort s (.variable v) sort
  | arithmetic (op : Arith) {l r : Expression} (hl : HasSort s l .int) (hr : HasSort s r .int) :
      HasSort s (.arithmetic op l r) .int
  | logical (op : Logical) {l r : Expression} (hl : HasSort s l .bool) (hr : HasSort s r .bool) :
      HasSort s (.logical op l r) .bool
  | equal {l r : Expression} {sort : TermSort} (hl : HasSort s l sort) (hr : HasSort s r sort) :
      HasSort s (.comparison .equal l r) .bool
  | unequal {l r : Expression} {sort : TermSort} (hl : HasSort s l sort) (hr : HasSort s r sort) :
      HasSort s (.comparison .unequal l r) .bool
  | order (op : Order) {l r : Expression} (hl : HasSort s l .int) (hr : HasSort s r .int) :
      HasSort s (.comparison (.order op) l r) .bool
  | not {e : Expression} (h : HasSort s e .bool) : HasSort s (.unary .not e) .bool
  | negate {e : Expression} (h : HasSort s e .int) : HasSort s (.unary .negate e) .int
  | parenthesized {e : Expression} {sort : TermSort} (h : HasSort s e sort) :
      HasSort s (.parenthesized e) sort
  | result {sort : TermSort} (hresult : s.hasResult = true)
      (h : s.sorts.get? resultName = some sort) : HasSort s .result sort

-- What a statement itself asks of the declared sorts, its branches left aside.
def Types (s : Signature) : Statement → Prop
  | .assignment destination e _ =>
      ∃ sort, s.sorts.get? destination.logicalName = some sort ∧ s.HasSort e sort
  | .conditional c _ _ _ => s.HasSort c .bool
  | .return none _ => True
  | .return (some e) _ =>
      s.hasResult = true ∧ ∃ sort, s.sorts.get? resultName = some sort ∧ s.HasSort e sort
  | .unsupported _ => False

-- Every statement of the block types, however deep in branches it stands.
def WellTyped (s : Signature) (stmts : List Statement) : Prop :=
  ∀ a ∈ stmts, ∀ x, Statement.Occurs x a → s.Types x

theorem wellTyped_nil (s : Signature) : s.WellTyped [] := by
  intro a ha
  cases ha

theorem wellTyped_append {s : Signature} {left right : List Statement} :
    s.WellTyped (left ++ right) ↔ s.WellTyped left ∧ s.WellTyped right := List.forall_mem_append

theorem wellTyped_cons {s : Signature} {a : Statement} {rest : List Statement} :
    s.WellTyped (a :: rest) ↔ (s.Types a ∧ s.WellTyped a.branches) ∧ s.WellTyped rest := by
  refine List.forall_mem_cons.trans (and_congr_left' ⟨fun h => ⟨h a .self, ?_⟩, ?_⟩)
  · intro b hb x hx
    exact h x (.branch hb hx)
  · rintro ⟨hself, hbranches⟩ x hx
    cases hx with
    | self => exact hself
    | branch hb hx => exact hbranches _ hb x hx

-- A check by the declared sorts alone, which says what it finds wrong first

def agree (op : String) (expected found : TermSort) : Except EncodeError Unit :=
  if found = expected then .ok () else .error (.sortMismatch op expected found)

def sortOfBinary (op : String) (sides result left right : TermSort) :
    Except EncodeError TermSort := do
  agree op sides left
  agree op sides right
  return result

def sortOf (s : Signature) : Expression → Except EncodeError TermSort
  | .literal l => .ok l.sort
  | .variable v => s.sort v.logicalName
  | .arithmetic op l r => do
      let left ← s.sortOf l
      let right ← s.sortOf r
      sortOfBinary op.symbol .int .int left right
  | .logical op l r => do
      let left ← s.sortOf l
      let right ← s.sortOf r
      sortOfBinary op.symbol .bool .bool left right
  | .comparison op l r => do
      let left ← s.sortOf l
      let right ← s.sortOf r
      sortOfBinary op.symbol (op.sides left) .bool left right
  | .unary op a => do
      let found ← s.sortOf a
      agree op.symbol op.sort found
      return op.sort
  | .parenthesized a => s.sortOf a
  | .result => if s.hasResult then s.sort resultName else .error .noResult
  | .unsupported location => .error (.unsupportedReached location)

def checkCondition (s : Signature) (c : Expression) : Except EncodeError Unit := do
  let found ← s.sortOf c
  agree "condition" .bool found

-- A value is stored under a name of its sort.
def checkStored (s : Signature) (op name : String) (e : Expression) : Except EncodeError Unit := do
  let found ← s.sortOf e
  let sort ← s.sort name
  agree op sort found

mutual

def checkStatement (s : Signature) : Statement → Except EncodeError Unit
  | .assignment destination e _ => s.checkStored "=" destination.logicalName e
  | .conditional c thenBlock elseBlock _ => do
      s.checkCondition c
      s.checkBlock thenBlock
      s.checkBlock elseBlock
  | .return none _ => .ok ()
  | .return (some e) _ =>
      if s.hasResult then s.checkStored "return" resultName e else .error .noResult
  | .unsupported location => .error (.unsupportedReached location)

def checkBlock (s : Signature) : List Statement → Except EncodeError Unit
  | [] => .ok ()
  | a :: rest => do
      s.checkStatement a
      s.checkBlock rest

end

theorem agree_eq_ok {op : String} {expected found : TermSort} {u : Unit} :
    agree op expected found = .ok u ↔ found = expected := by
  simp [agree]

theorem sort_eq_ok {s : Signature} {name : String} {sort : TermSort} :
    s.sort name = .ok sort ↔ s.sorts.get? name = some sort := by
  unfold Signature.sort
  cases s.sorts.get? name <;> simp

theorem sortOfBinary_eq_ok {op : String} {sides result left right sort : TermSort} :
    sortOfBinary op sides result left right = .ok sort ↔
      left = sides ∧ right = sides ∧ sort = result := by
  simp only [sortOfBinary, bind_eq_ok, agree_eq_ok, exists_and_left, exists_const]
  simp [pure, Except.pure, eq_comm]

theorem hasSort_of_sortOf {s : Signature} {e : Expression} {sort : TermSort}
    (h : s.sortOf e = .ok sort) : s.HasSort e sort := by
  induction e generalizing sort with
  | literal l =>
      cases h
      exact .literal l
  | «variable» v => exact .reads (sort_eq_ok.mp h)
  | arithmetic op l r ihl ihr =>
      simp only [sortOf, bind_eq_ok, sortOfBinary_eq_ok] at h
      obtain ⟨left, hl, right, hr, rfl, rfl, rfl⟩ := h
      exact .arithmetic op (ihl hl) (ihr hr)
  | logical op l r ihl ihr =>
      simp only [sortOf, bind_eq_ok, sortOfBinary_eq_ok] at h
      obtain ⟨left, hl, right, hr, rfl, rfl, rfl⟩ := h
      exact .logical op (ihl hl) (ihr hr)
  | comparison op l r ihl ihr =>
      simp only [sortOf, bind_eq_ok, sortOfBinary_eq_ok] at h
      obtain ⟨left, hl, right, hr, hleft, hright, rfl⟩ := h
      cases op with
      | equal =>
          obtain rfl : right = left := hright
          exact .equal (ihl hl) (ihr hr)
      | unequal =>
          obtain rfl : right = left := hright
          exact .unequal (ihl hl) (ihr hr)
      | order op =>
          obtain rfl : left = .int := hleft
          obtain rfl : right = .int := hright
          exact .order op (ihl hl) (ihr hr)
  | unary op a ih =>
      simp only [sortOf, bind_eq_ok, agree_eq_ok] at h
      obtain ⟨found, ha, u, rfl, hsort⟩ := h
      cases hsort
      cases op with
      | not => exact .not (ih ha)
      | negate => exact .negate (ih ha)
  | parenthesized a ih => exact .parenthesized (ih h)
  | result =>
      simp only [sortOf] at h
      split at h
      · next hresult => exact .result hresult (sort_eq_ok.mp h)
      · cases h
  | unsupported location => cases h

theorem sortOf_of_hasSort {s : Signature} {e : Expression} {sort : TermSort}
    (h : s.HasSort e sort) : s.sortOf e = .ok sort := by
  induction h with
  | literal l => rfl
  | reads h => exact sort_eq_ok.mpr h
  | arithmetic op hl hr ihl ihr | logical op hl hr ihl ihr | order op hl hr ihl ihr
  | equal hl hr ihl ihr | unequal hl hr ihl ihr =>
      simp only [sortOf, bind_eq_ok, sortOfBinary_eq_ok]
      exact ⟨_, ihl, _, ihr, rfl, rfl, trivial⟩
  | not h ih | negate h ih =>
      simp only [sortOf, bind_eq_ok, agree_eq_ok]
      exact ⟨_, ih, (), rfl, rfl⟩
  | parenthesized h ih => exact ih
  | result hresult h =>
      simp only [sortOf, hresult, if_true]
      exact sort_eq_ok.mpr h

theorem sortOf_eq_ok {s : Signature} {e : Expression} {sort : TermSort} :
    s.sortOf e = .ok sort ↔ s.HasSort e sort := ⟨hasSort_of_sortOf, sortOf_of_hasSort⟩

theorem checkStored_eq_ok {s : Signature} {op name : String} {e : Expression} :
    s.checkStored op name e = .ok () ↔ ∃ sort, s.sorts.get? name = some sort ∧ s.HasSort e sort := by
  simp only [checkStored, bind_eq_ok, agree_eq_ok, sortOf_eq_ok, sort_eq_ok]
  simp [and_comm]

mutual

theorem checkStatement_eq_ok {s : Signature} (a : Statement) :
    s.checkStatement a = .ok () ↔ s.Types a ∧ s.WellTyped a.branches := by
  match a with
  | .assignment destination e location =>
      simp only [checkStatement, checkStored_eq_ok, Types, Statement.branches, wellTyped_nil, and_true]
  | .conditional c thenBlock elseBlock location =>
      simp only [checkStatement, checkCondition, bind_eq_ok, agree_eq_ok, sortOf_eq_ok,
        checkBlock_eq_ok thenBlock, checkBlock_eq_ok elseBlock, Types, Statement.branches,
        wellTyped_append]
      simp
  | .return none location => simp [checkStatement, Types, Statement.branches, wellTyped_nil]
  | .return (some e) location =>
      simp only [checkStatement, Types, Statement.branches, wellTyped_nil, and_true]
      split
      · next hresult => simp only [checkStored_eq_ok, hresult, true_and]
      · next hresult => simp [hresult]
  | .unsupported location => simp [checkStatement, Types]

theorem checkBlock_eq_ok {s : Signature} (stmts : List Statement) :
    s.checkBlock stmts = .ok () ↔ s.WellTyped stmts := by
  match stmts with
  | [] => simp [checkBlock, wellTyped_nil]
  | a :: rest =>
      simp only [checkBlock, bind_eq_ok, wellTyped_cons, ← checkStatement_eq_ok a,
        ← checkBlock_eq_ok rest]
      exact ⟨fun h => h.elim fun _ h => h, fun h => ⟨(), h⟩⟩

end

-- What an error of the check says about the declared sorts. Nothing is registered twice, and there
-- are no tables to merge.
def Explains (s : Signature) : EncodeError → Prop
  | .alias (.unregistered name) => s.sorts.get? name = none
  | .sortMismatch _ expected found => found ≠ expected
  | .noResult => s.hasResult = false
  | .unsupportedReached _ => True
  | .alias (.alreadyRegistered _) | .alias (.mismatchedNames _ _) | .unsorted _ _ => False

-- Where there is an error, it says what is wrong.
def Explained (s : Signature) (x : Except EncodeError α) : Prop :=
  ∀ error, x = .error error → s.Explains error

namespace Explained

variable {s : Signature}

theorem ok (a : α) : s.Explained (.ok a) := by
  intro error h
  cases h

theorem error {error : EncodeError} (h : s.Explains error) :
    s.Explained (.error error : Except _ α) := by
  intro error' heq
  cases heq
  exact h

theorem bind {x : Except EncodeError α} {f : α → Except EncodeError β} (hx : s.Explained x)
    (hf : ∀ a, s.Explained (f a)) : s.Explained (x >>= f) := by
  cases x with
  | error error => exact .error (hx error rfl)
  | ok a => exact hf a

theorem agree (op : String) (expected found : TermSort) : s.Explained (agree op expected found) := by
  unfold Signature.agree
  split
  · exact .ok ()
  · next hne => exact .error hne

theorem sort (name : String) : s.Explained (s.sort name) := by
  unfold Signature.sort
  split
  · exact .ok _
  · next hnone => exact .error hnone

theorem sortOf (e : Expression) : s.Explained (s.sortOf e) := by
  induction e with
  | literal l => exact .ok _
  | «variable» v => exact .sort _
  | arithmetic op l r ihl ihr | logical op l r ihl ihr | comparison op l r ihl ihr =>
      exact ihl.bind fun _ => ihr.bind fun _ => (agree _ _ _).bind fun _ => (agree _ _ _).bind fun _ =>
        .ok _
  | unary op a ih => exact ih.bind fun _ => (agree _ _ _).bind fun _ => .ok _
  | parenthesized a ih => exact ih
  | result =>
      unfold Signature.sortOf
      split
      · exact .sort _
      · next hresult => exact .error (Bool.eq_false_iff.mpr hresult)
  | unsupported location => exact .error trivial

theorem checkStored (op name : String) (e : Expression) : s.Explained (s.checkStored op name e) :=
  (sortOf e).bind fun _ => (sort name).bind fun _ => agree _ _ _

mutual

theorem checkStatement (a : Statement) : s.Explained (s.checkStatement a) := by
  match a with
  | .assignment destination e location => exact checkStored _ _ e
  | .conditional c thenBlock elseBlock location =>
      exact ((sortOf c).bind fun _ => agree _ _ _).bind fun _ => (checkBlock thenBlock).bind fun _ =>
        checkBlock elseBlock
  | .return none location => exact .ok _
  | .return (some e) location =>
      unfold Signature.checkStatement
      split
      · exact checkStored _ _ e
      · next hresult => exact .error (Bool.eq_false_iff.mpr hresult)
  | .unsupported location => exact .error trivial

theorem checkBlock (stmts : List Statement) : s.Explained (s.checkBlock stmts) := by
  match stmts with
  | [] => exact .ok _
  | a :: rest => exact (checkStatement a).bind fun _ => checkBlock rest

end

end Explained

end Signature

end Covenant
