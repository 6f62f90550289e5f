import Covenant.Json.Parse
import Covenant.Proofs.Json.Print

namespace Covenant.Json

-- Strings

namespace Parse

theorem hexValue_hexDigit {n : Nat} (h : n < 16) : hexValue (hexDigit n) = some n := by
  revert n
  decide

theorem hexFour_hexDigit {n : Nat} (h : n < 256) :
    hexFour '0' '0' (hexDigit (n / 16)) (hexDigit (n % 16)) = some n := by
  have hzero : hexValue '0' = some 0 := by decide
  have hhigh := hexValue_hexDigit (show n / 16 < 16 by omega)
  have hlow := hexValue_hexDigit (show n % 16 < 16 by omega)
  simp only [hexFour, hzero, hhigh, hlow, Option.bind_eq_bind, Option.bind_some, Option.pure_def,
    Option.some.injEq]
  omega

-- Only control characters are written by number, so no surrogate is.
theorem string_escape (c : Char) (rest : List Char) :
    string (escape c ++ rest) = (string rest).map fun (s, rest) => (c :: s, rest) := by
  unfold escape
  split_ifs with hquote hslash hn hr ht hb hf hcontrol
  · subst hquote
    simp [string, simpleEscape]
  · subst hslash
    simp [string, simpleEscape]
  · subst hn
    simp [string, simpleEscape]
  · subst hr
    simp [string, simpleEscape]
  · subst ht
    simp [string, simpleEscape]
  · subst hb
    simp [string, simpleEscape]
  · subst hf
    simp [string, simpleEscape]
  · have hfour := hexFour_hexDigit (show c.toNat < 256 by omega)
    have hlow : isLowSurrogate c.toNat = false := by
      simp [isLowSurrogate]
      omega
    have hhigh : isHighSurrogate c.toNat = false := by
      simp [isHighSurrogate]
      omega
    simp [string, hfour, hlow, hhigh, Char.ofNat_toNat]
  · rw [List.singleton_append, string.eq_def]
    split <;> simp_all

theorem string_quoted (s rest : List Char) :
    string (s.flatMap escape ++ '"' :: rest) = .ok (s, rest) := by
  induction s with
  | nil => simp [string]
  | cons c s ih =>
      rw [List.flatMap_cons, List.append_assoc, string_escape, ih]
      rfl

end Parse

-- Numbers

namespace Number

-- Nothing that would go on with a number.
def Ends (rest : List Char) : Prop :=
  ∀ c ∈ rest.head?, isDigit c = false ∧ c ≠ '.' ∧ startsExponent c = false

theorem ends_nil : Ends [] := by simp [Ends]

theorem natOfDigits_digits (n : Nat) : natOfDigits (digits n) = n := by
  have h := Nat.ofDigitChars_ten_toDigits (n := n)
  rw [Nat.ofDigitChars_eq_foldl] at h
  exact h

theorem isDigit_of_mem_digits {n : Nat} : ∀ c ∈ digits n, isDigit c = true := by
  intro c hc
  simp only [isDigit, Char.le_def, Bool.and_eq_true, decide_eq_true_eq]
  exact val_of_mem_digits hc

theorem afterWhole_of_ends {rest : List Char} (h : Ends rest) (negative : Bool)
    (whole : List Char) : afterWhole negative whole rest = (wholeNumber negative whole, rest) := by
  cases rest with
  | nil => rfl
  | cons c more =>
      obtain ⟨-, hpoint, hexponent⟩ := h c rfl
      rw [afterWhole.eq_def]
      split
      · rename_i heq
        cases heq
        exact absurd rfl hpoint
      · rename_i heq
        cases heq
        simp [hexponent]
      · rename_i heq
        cases heq

theorem span_of_ends {ds rest : List Char} (hds : ∀ c ∈ ds, isDigit c = true) (h : Ends rest) :
    (ds ++ rest).takeWhile isDigit = ds ∧ (ds ++ rest).dropWhile isDigit = rest := by
  have hrest : rest.takeWhile isDigit = [] ∧ rest.dropWhile isDigit = rest := by
    cases rest with
    | nil => exact ⟨rfl, rfl⟩
    | cons c more => simp [(h c rfl).1]
  rw [List.takeWhile_append_of_pos hds, List.dropWhile_append_of_pos hds, hrest.1, hrest.2]
  exact ⟨List.append_nil ds, rfl⟩

theorem scan_digits {rest : List Char} (h : Ends rest) (negative : Bool) (n : Nat) :
    scan negative (digits n ++ rest) = (wholeNumber negative (digits n), rest) := by
  by_cases hzero : n = 0
  · subst hzero
    have hdigits : digits 0 = ['0'] := by decide
    have hdigit : isDigit '0' = true := by decide
    have hafter := afterWhole_of_ends h negative ['0']
    rw [hdigits]
    cases rest with
    | nil => simp [scan, hdigit, hafter]
    | cons d more => simp [scan, hdigit, (h d rfl).1, hafter]
  · obtain ⟨c, ds, hdigits, hc⟩ := digits_eq_cons hzero
    have hall := isDigit_of_mem_digits (n := n)
    rw [hdigits, List.forall_mem_cons] at hall
    obtain ⟨htake, hdrop⟩ := span_of_ends hall.2 h
    simp [hdigits, scan, hall.1, hc, htake, hdrop, afterWhole_of_ends h]

end Number

-- The tree of a value

mutual

-- The tree of a text without faults.
def toTree : Json → Tree
  | .null => .null
  | .bool b => .bool b
  | .int n => .int n
  | .str s => .string s
  | .arr items => .array (itemTrees items) none
  | .obj members => .object (memberTrees members) none

def itemTrees : List Json → List Tree
  | [] => []
  | item :: items => item.toTree :: itemTrees items

def memberTrees : List (String × Json) → List (Key × Tree)
  | [] => []
  | (name, value) :: members => (.name name, value.toTree) :: memberTrees members

end

mutual

-- Every integer fits 64 bits, with or without a sign. Others are read as floating point.
def Exact : Json → Prop
  | .int n => -0x8000000000000000 ≤ n ∧ n < 0x10000000000000000
  | .arr items => ItemsExact items
  | .obj members => MembersExact members
  | .null | .bool _ | .str _ => True

def ItemsExact : List Json → Prop
  | [] => True
  | item :: items => item.Exact ∧ ItemsExact items

def MembersExact : List (String × Json) → Prop
  | [] => True
  | (_, value) :: members => value.Exact ∧ MembersExact members

end

theorem itemsExact_iff {items : List Json} : ItemsExact items ↔ ∀ j ∈ items, j.Exact := by
  induction items with
  | nil => simp [ItemsExact]
  | cons item rest ih => simp [ItemsExact, ih]

theorem membersExact_iff {members : List (String × Json)} :
    MembersExact members ↔ ∀ m ∈ members, m.2.Exact := by
  induction members with
  | nil => simp [MembersExact]
  | cons member rest ih => simp [MembersExact, ih]

theorem exact_tagged {name : String} {j : Json} : (tagged name j).Exact ↔ j.Exact :=
  and_iff_left trivial

theorem exact_int64 (n : Int64) : (Json.int n.toInt).Exact := by
  have hlow := Int64.le_toInt n
  have hhigh := Int64.toInt_lt n
  exact ⟨by omega, by omega⟩

theorem exact_nat {n : Nat} (h : n < 0x10000000000000000) : (Json.nat n).Exact :=
  ⟨by omega, by omega⟩

namespace Parse

theorem number_digits {rest : List Char} (h : Number.Ends rest) {n : Nat}
    (hn : n < 0x10000000000000000) (first : Char) :
    number first false (digits n ++ rest) = (.int n, some rest) := by
  simp [number, Number.scan_digits h, Number.wholeNumber, Number.natOfDigits_digits, hn]

theorem number_negative {rest : List Char} (h : Number.Ends rest) {n : Nat}
    (hn : n + 1 ≤ 0x8000000000000000) (first : Char) :
    number first true (digits (n + 1) ++ rest) = (.int (.negSucc n), some rest) := by
  have hwhole : Number.wholeNumber true (digits (n + 1)) = .int (.negSucc n) := by
    simp only [Number.wholeNumber, Number.natOfDigits_digits, if_true,
      if_pos (And.intro (Nat.succ_pos n) hn)]
    rfl
  simp only [number, Number.scan_digits h, hwhole]

theorem stringValue_quoted (s : String) (rest : List Char) :
    stringValue (s.toList.flatMap escape ++ '"' :: rest) = (.string s, some rest) := by
  simp [stringValue, string_quoted]

theorem key_quoted (s : String) (rest : List Char) :
    key (s.toList.flatMap escape ++ '"' :: rest) = (.name s, some rest) := by
  simp [key, string_quoted]

theorem skipBlanks_cons {c : Char} (h : isBlank c = false) (rest : List Char) :
    skipBlanks (c :: rest) = c :: rest := by
  simp [skipBlanks, h]

theorem value_scalar {first : Char} (hblank : isBlank first = false) (harray : first ≠ '[')
    (hobject : first ≠ '\x7b') (fuel : Nat) (text : List Char) :
    value (fuel + 1) (first :: text) = scalar first text := by
  simp only [value, skipBlanks_cons hblank]

-- A first character that is neither blank nor a bracket.
def Opens (c : Char) : Prop := isBlank c = false ∧ c ≠ '[' ∧ c ≠ '\x7b' ∧ c ≠ ']'

instance (c : Char) : Decidable (Opens c) :=
  inferInstanceAs (Decidable (isBlank c = false ∧ c ≠ '[' ∧ c ≠ '\x7b' ∧ c ≠ ']'))

theorem opens_of_isDigit {c : Char} (h : Number.isDigit c = true) :
    Opens c ∧ c ≠ '"' ∧ c ≠ '-' := by
  have hne : ∀ d, Number.isDigit d = false → c ≠ d := by
    rintro d hd rfl
    simp [hd] at h
  have hblank : isBlank c = false := by
    simp [isBlank, hne ' ' (by decide), hne '\n' (by decide), hne '\t' (by decide),
      hne '\r' (by decide)]
  exact ⟨⟨hblank, hne _ (by decide), hne _ (by decide), hne _ (by decide)⟩, hne _ (by decide),
    hne _ (by decide)⟩

theorem digits_opens (n : Nat) :
    ∃ c ds, digits n = c :: ds ∧ Number.isDigit c = true ∧ Opens c ∧ c ≠ '"' ∧ c ≠ '-' := by
  cases hdigits : digits n with
  | nil => exact absurd hdigits Nat.toDigits_ne_nil
  | cons c ds =>
      have hc := Number.isDigit_of_mem_digits c (hdigits ▸ List.mem_cons_self : c ∈ digits n)
      exact ⟨c, ds, rfl, hc, opens_of_isDigit hc⟩

theorem value_eq_number (n fuel : Nat) (rest : List Char) :
    ∃ first, value (fuel + 1) (digits n ++ rest) = number first false (digits n ++ rest) := by
  obtain ⟨c, ds, hdigits, hc, ⟨hblank, harray, hobject, -⟩, hquote, hminus⟩ := digits_opens n
  refine ⟨c, ?_⟩
  rw [hdigits, List.cons_append, value_scalar hblank harray hobject, scalar, if_neg hquote,
    if_neg hminus, if_pos hc]

theorem value_digits {rest : List Char} (h : Number.Ends rest) {n : Nat}
    (hn : n < 0x10000000000000000) (fuel : Nat) :
    value (fuel + 1) (digits n ++ rest) = (.int n, some rest) := by
  obtain ⟨first, hnumber⟩ := value_eq_number n fuel rest
  rw [hnumber, number_digits h hn]

-- A larger number is no integer.
theorem value_digits_of_le {rest : List Char} (h : Number.Ends rest) {n : Nat}
    (hn : 0x10000000000000000 ≤ n) (fuel : Nat) :
    ∃ t, value (fuel + 1) (digits n ++ rest) = (t, some rest) ∧ ∀ k, t ≠ .int k := by
  obtain ⟨first, hnumber⟩ := value_eq_number n fuel rest
  have hwhole : Number.wholeNumber false (digits n) =
      if Number.inRange (digits n) [] 0 then .float else .outOfRange := by
    simp only [Number.wholeNumber, Number.natOfDigits_digits, Bool.false_eq_true, if_false,
      if_neg (Nat.not_lt.mpr hn)]
  rw [hnumber]
  simp only [number, Number.scan_digits h, hwhole]
  split_ifs
  · exact ⟨.float, rfl, by simp⟩
  · exact ⟨.flawed first .malformed none, rfl, by simp⟩

theorem head_render (j : Json) :
    ∃ first text, j.render = first :: text ∧ isBlank first = false ∧ first ≠ ']' := by
  match j with
  | .null => exact ⟨_, _, rfl, by decide, by decide⟩
  | .bool true => exact ⟨_, _, rfl, by decide, by decide⟩
  | .bool false => exact ⟨_, _, rfl, by decide, by decide⟩
  | .int (.ofNat n) =>
      obtain ⟨c, ds, hdigits, -, ⟨hblank, -, -, hclosed⟩, -⟩ := digits_opens n
      exact ⟨c, ds, by rw [render, intText, hdigits], hblank, hclosed⟩
  | .int (.negSucc n) => exact ⟨'-', digits (n + 1), rfl, by decide, by decide⟩
  | .str s => exact ⟨_, _, rfl, by decide, by decide⟩
  | .arr [] => exact ⟨_, _, rfl, by decide, by decide⟩
  | .arr (item :: items) => exact ⟨_, _, by rw [render], by decide, by decide⟩
  | .obj [] => exact ⟨_, _, rfl, by decide, by decide⟩
  | .obj ((name, content) :: members) => exact ⟨_, _, by rw [render], by decide, by decide⟩

-- One step of the loops over items and members.

theorem items_last {fuel : Nat} {text rest : List Char} {t : Tree}
    (h : value fuel text = (t, some (']' :: rest))) :
    items (fuel + 1) text = ([t], none, some rest) := by
  simp only [items, h, skipBlanks_cons (c := ']') (by decide)]

theorem items_next {fuel : Nat} {text rest : List Char} {t : Tree}
    (h : value fuel text = (t, some (',' :: rest))) :
    items (fuel + 1) text = (t :: (items fuel rest).1, (items fuel rest).2) := by
  simp only [items, h, skipBlanks_cons (c := ',') (by decide)]

theorem value_items {fuel : Nat} {first : Char} (hblank : isBlank first = false)
    (hclosed : first ≠ ']') (text : List Char) :
    value (fuel + 1) ('[' :: first :: text) =
      (.array (items fuel (first :: text)).1 (items fuel (first :: text)).2.1,
        (items fuel (first :: text)).2.2) := by
  simp only [value, skipBlanks_cons (c := '[') (by decide), skipBlanks_cons hblank]
  split <;> simp_all

theorem members_last {fuel : Nat} {text rest : List Char} {t : Tree} (name : String)
    (h : value fuel text = (t, some ('\x7d' :: rest))) :
    members (fuel + 1) (quote name ++ ':' :: text) = ([(.name name, t)], none, some rest) := by
  simp only [members, quote, List.cons_append, List.append_assoc, List.nil_append,
    skipBlanks_cons (c := '"') (by decide), key_quoted, skipBlanks_cons (c := ':') (by decide), h,
    skipBlanks_cons (c := '\x7d') (by decide)]

theorem members_next {fuel : Nat} {text rest : List Char} {t : Tree} (name : String)
    (h : value fuel text = (t, some (',' :: rest))) :
    members (fuel + 1) (quote name ++ ':' :: text) =
      ((.name name, t) :: (members fuel rest).1, (members fuel rest).2) := by
  simp only [members, quote, List.cons_append, List.append_assoc, List.nil_append,
    skipBlanks_cons (c := '"') (by decide), key_quoted, skipBlanks_cons (c := ':') (by decide), h,
    skipBlanks_cons (c := ',') (by decide)]

theorem value_members {fuel : Nat} (name : String) (text : List Char) :
    value (fuel + 1) ('\x7b' :: (quote name ++ text)) =
      (.object (members fuel (quote name ++ text)).1 (members fuel (quote name ++ text)).2.1,
        (members fuel (quote name ++ text)).2.2) := by
  simp only [value, quote, List.cons_append, skipBlanks_cons (c := '\x7b') (by decide),
    skipBlanks_cons (c := '"') (by decide)]
  rfl

theorem ends_cons {c : Char} (h : Number.isDigit c = false ∧ c ≠ '.' ∧
    Number.startsExponent c = false) (rest : List Char) : Number.Ends (c :: rest) := by
  rintro d ⟨⟩
  exact h

theorem ends_renderItems (items : List Json) (rest : List Char) :
    Number.Ends (renderItems items ++ rest) := by
  cases items with
  | nil => exact ends_cons (by decide) _
  | cons item items => exact ends_cons (by decide) _

theorem ends_renderMembers (members : List (String × Json)) (rest : List Char) :
    Number.Ends (renderMembers members ++ rest) := by
  cases members with
  | nil => exact ends_cons (by decide) _
  | cons member members => exact ends_cons (by decide) _

mutual

-- The reader finds what the printer wrote, whatever follows it.
theorem value_render (j : Json) (hj : j.Exact) (fuel : Nat) (hfuel : 2 * j.render.length ≤ fuel)
    {rest : List Char} (hrest : Number.Ends rest) :
    value fuel (j.render ++ rest) = (j.toTree, some rest) := by
  obtain ⟨less, rfl⟩ : ∃ less, fuel = less + 1 := by
    obtain ⟨first, text, hrender, -⟩ := head_render j
    rw [hrender, List.length_cons] at hfuel
    exact ⟨fuel - 1, by omega⟩
  match j with
  | .null => exact value_scalar (by decide) (by decide) (by decide) less _
  | .bool true => exact value_scalar (by decide) (by decide) (by decide) less _
  | .bool false => exact value_scalar (by decide) (by decide) (by decide) less _
  | .int (.ofNat n) =>
      have hn : (n : Int) < 0x10000000000000000 := hj.2
      exact value_digits hrest (by omega) less
  | .int (.negSucc n) =>
      have hn : -0x8000000000000000 ≤ Int.negSucc n := hj.1
      rw [render, intText, List.cons_append, value_scalar (by decide) (by decide) (by decide), scalar,
        if_neg (by decide), if_pos rfl, number_negative hrest (by omega), toTree]
  | .str s =>
      rw [render, quote, List.cons_append, value_scalar (by decide) (by decide) (by decide), scalar,
        if_pos rfl, List.append_assoc]
      exact stringValue_quoted s rest
  | .arr [] => rfl
  | .arr (item :: more) =>
      obtain ⟨first, text, hrender, hblank, hclosed⟩ := head_render item
      rw [render, List.length_cons, List.length_append, hrender, List.length_cons] at hfuel
      obtain ⟨fewer, rfl⟩ : ∃ fewer, less = fewer + 1 := ⟨less - 1, by omega⟩
      have hitem := value_render item hj.1 fewer (by rw [hrender, List.length_cons]; omega)
        (ends_renderItems more rest)
      have hmore := items_render more hj.2 (by omega) hitem
      rw [hrender, List.cons_append] at hmore
      rw [render, hrender, List.cons_append, List.cons_append, List.cons_append, List.append_assoc,
        value_items hblank hclosed, hmore]
      rfl
  | .obj [] => rfl
  | .obj ((name, content) :: more) =>
      rw [render, List.length_cons, List.length_append, List.length_cons, List.length_append] at hfuel
      obtain ⟨fewer, rfl⟩ : ∃ fewer, less = fewer + 1 := ⟨less - 1, by omega⟩
      have hcontent := value_render content hj.1 fewer (by omega)
        (ends_renderMembers more rest)
      have hmore := members_render more hj.2 (by omega) name hcontent
      rw [render, List.cons_append, List.append_assoc, List.cons_append, List.append_assoc,
        value_members, hmore]
      rfl

-- The first item is read, and what follows it is what was written after it.
theorem items_render (items : List Json) (hitems : ItemsExact items) {fuel : Nat}
    (hfuel : 2 * (renderItems items).length ≤ fuel) {text rest : List Char} {t : Tree}
    (ht : value fuel text = (t, some (renderItems items ++ rest))) :
    Parse.items (fuel + 1) text = (t :: itemTrees items, none, some rest) := by
  match items with
  | [] => exact items_last ht
  | item :: more =>
      rw [renderItems, List.length_cons, List.length_append] at hfuel
      obtain ⟨less, rfl⟩ : ∃ less, fuel = less + 1 := ⟨fuel - 1, by omega⟩
      have hitem := value_render item hitems.1 less (by omega) (ends_renderItems more rest)
      have hmore := items_render more hitems.2 (by omega) hitem
      rw [renderItems, List.cons_append, List.append_assoc] at ht
      rw [items_next ht, hmore]
      rfl

theorem members_render (members : List (String × Json)) (hmembers : MembersExact members)
    {fuel : Nat} (hfuel : 2 * (renderMembers members).length ≤ fuel) {text rest : List Char}
    {t : Tree} (name : String)
    (ht : value fuel text = (t, some (renderMembers members ++ rest))) :
    Parse.members (fuel + 1) (quote name ++ ':' :: text) =
      ((.name name, t) :: memberTrees members, none, some rest) := by
  match members with
  | [] => exact members_last name ht
  | (name', content) :: more =>
      rw [renderMembers, List.length_cons, List.length_append, List.length_cons,
        List.length_append] at hfuel
      obtain ⟨less, rfl⟩ : ∃ less, fuel = less + 1 := ⟨fuel - 1, by omega⟩
      have hcontent := value_render content hmembers.1 less (by omega)
        (ends_renderMembers more rest)
      have hmore := members_render more hmembers.2 (by omega) name' hcontent
      rw [renderMembers, List.cons_append, List.append_assoc, List.cons_append,
        List.append_assoc] at ht
      rw [members_next name ht, hmore]
      rfl

end

end Parse

theorem Document.root_parse (text : List Char) :
    (Document.parse text).root = (Parse.value (2 * text.length + 2) text).1 := by
  unfold Document.parse
  split <;> rename_i heq <;> rw [heq]

theorem Document.parse_render {j : Json} (hj : j.Exact) :
    Document.parse j.render = ⟨j.toTree, false⟩ := by
  have hvalue := Parse.value_render j hj (2 * j.render.length + 2) (by omega)
    Number.ends_nil
  rw [List.append_nil] at hvalue
  simp [parse, hvalue, Parse.skipBlanks]

-- A text is written for one tree only.
theorem toTree_eq_of_compact_eq {j j' : Json} (hj : j.Exact) (hj' : j'.Exact)
    (h : j.compact = j'.compact) : j.toTree = j'.toTree := by
  have hrender : j.render = j'.render := String.ofList_injective h
  have hparse := congrArg Document.parse hrender
  rw [Document.parse_render hj, Document.parse_render hj'] at hparse
  exact congrArg Document.root hparse

end Covenant.Json
