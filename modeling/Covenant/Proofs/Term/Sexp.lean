import Covenant.Proofs.Alias.Text
import Covenant.Term.Smt

namespace Covenant

-- The word that an application begins with. A minus sign with one argument negates.
inductive Head
  | arith (op : Arith)
  | order (op : Order)
  | not
  | and
  | or
  | implies
  | eq
  | ite
  deriving DecidableEq, Repr

def Head.text : Head → String
  | .arith op => op.smt
  | .order op => op.symbol
  | .not => "not"
  | .and => "and"
  | .or => "or"
  | .implies => "=>"
  | .eq => "="
  | .ite => "ite"

theorem Head.text_injective {head other : Head} (h : head.text = other.text) : head = other := by
  revert h
  rcases head with (_ | _ | _ | _) | (_ | _ | _ | _) | _ | _ | _ | _ | _ | _ <;>
    rcases other with (_ | _ | _ | _) | (_ | _ | _ | _) | _ | _ | _ | _ | _ | _ <;> decide

-- A text of the term language as a tree: a literal, the name of a symbol, or an application.
inductive Sexp
  | numeral (n : Nat)
  | truth (b : Bool)
  | symbol (name : String)
  | app (head : Head) (args : List Sexp)

namespace Sexp

mutual

def chars : Sexp → List Char
  | .numeral n => Nat.toDigits 10 n
  | .truth b => (Term.boolSmt b).toList
  | .symbol name => (Symbol.smt name).toList
  | .app head args => '(' :: (head.text.toList ++ (argsChars args ++ [')']))

-- Each argument follows a blank.
def argsChars : List Sexp → List Char
  | [] => []
  | a :: args => ' ' :: (a.chars ++ argsChars args)

end

mutual

def names : Sexp → List String
  | .numeral _ | .truth _ => []
  | .symbol name => [name]
  | .app _ args => argsNames args

def argsNames : List Sexp → List String
  | [] => []
  | a :: args => a.names ++ argsNames args

end

end Sexp

-- The quoted text of the first name is a beginning of the quoted text of the second, and what comes
-- after it there could follow a symbol. This takes a bar in the second name.
def Symbol.Cuts (name other : String) : Prop :=
  isPlain name = false ∧ ∃ c ∈ [' ', ')'], ∃ rest, other.toList = name.toList ++ '|' :: c :: rest

namespace Sexp

-- What may stand after a text: nothing, a blank, or a parenthesis that closes.
def Follows (rest : List Char) : Prop := ∀ c ∈ rest.head?, c ∈ [' ', ')']

-- A character that goes on with a word.
def IsWordChar (c : Char) : Prop := c ∉ [' ', ')', '(', '|']

instance (c : Char) : Decidable (IsWordChar c) := inferInstanceAs (Decidable (_ ∉ _))

theorem follows_cons {c : Char} {rest : List Char} : Follows (c :: rest) ↔ c ∈ [' ', ')'] := by
  simp [Follows]

theorem follows_argsChars (args : List Sexp) (rest : List Char) :
    Follows (argsChars args ++ ')' :: rest) := by
  cases args with
  | nil => simp [argsChars, follows_cons]
  | cons a args => simp [argsChars, follows_cons]

theorem not_follows_of_isWordChar {c : Char} {rest : List Char} (h : IsWordChar c) :
    ¬Follows (c :: rest) := by
  rw [follows_cons]
  intro hmem
  exact h (List.mem_append_left ['(', '|'] hmem)

-- A word ends where something follows that may stand after a text.
theorem word_append_inj {word other rest rest' : List Char} (hword : ∀ c ∈ word, IsWordChar c)
    (hother : ∀ c ∈ other, IsWordChar c) (hrest : Follows rest) (hrest' : Follows rest')
    (h : word ++ rest = other ++ rest') : word = other ∧ rest = rest' := by
  induction word generalizing other with
  | nil =>
      cases other with
      | nil => exact ⟨rfl, h⟩
      | cons c other =>
          rw [List.nil_append] at h
          exact absurd (h ▸ hrest) (not_follows_of_isWordChar (hother c List.mem_cons_self))
  | cons c word ih =>
      cases other with
      | nil =>
          rw [List.nil_append] at h
          exact absurd (h ▸ hrest') (not_follows_of_isWordChar (hword c List.mem_cons_self))
      | cons d other =>
          obtain ⟨rfl, htail⟩ := List.cons.inj h
          obtain ⟨rfl, hrests⟩ := ih (fun c hc => hword c (List.mem_cons_of_mem _ hc))
            (fun c hc => hother c (List.mem_cons_of_mem _ hc)) htail
          exact ⟨rfl, hrests⟩

-- Where a quoted name goes on after a bar that could end it, it is cut there.
theorem eq_nil_of_not_cuts {name other : String} {more rest rest' : List Char}
    (hname : Symbol.isPlain name = false) (hcuts : ¬Symbol.Cuts name other) (hrest : Follows rest)
    (hother : other.toList = name.toList ++ more) (h : '|' :: rest = more ++ '|' :: rest') :
    more = [] := by
  cases more with
  | nil => rfl
  | cons d more =>
      rw [List.cons_append, List.cons.injEq] at h
      obtain ⟨rfl, rfl⟩ := h
      cases more with
      | nil => exact absurd (follows_cons.mp hrest) (by decide)
      | cons c more =>
          rw [List.cons_append, follows_cons] at hrest
          exact absurd ⟨hname, c, hrest, more, hother⟩ hcuts

theorem quoted_append_inj {name other : String} {rest rest' : List Char}
    (hname : Symbol.isPlain name = false) (hother : Symbol.isPlain other = false)
    (hcuts : ¬Symbol.Cuts name other) (hcuts' : ¬Symbol.Cuts other name)
    (hrest : Follows rest) (hrest' : Follows rest')
    (h : name.toList ++ '|' :: rest = other.toList ++ '|' :: rest') : name = other ∧ rest = rest' := by
  rcases List.append_eq_append_iff.mp h with ⟨more, hmore, hbar⟩ | ⟨more, hmore, hbar⟩
  · obtain rfl := eq_nil_of_not_cuts hname hcuts hrest hmore hbar
    rw [List.append_nil, String.toList_inj] at hmore
    exact ⟨hmore.symm, (List.cons.inj hbar).2⟩
  · obtain rfl := eq_nil_of_not_cuts hother hcuts' hrest' hmore hbar
    rw [List.append_nil, String.toList_inj] at hmore
    exact ⟨hmore, (List.cons.inj hbar).2.symm⟩

-- A literal, or a symbol that is written without bars.
def IsWord : Sexp → Prop
  | .numeral _ | .truth _ => True
  | .symbol name => Symbol.isPlain name = true
  | .app _ _ => False

-- A class of characters without the four that end a word.
theorem isWordChar_of {p : Char → Bool} (hp : [' ', ')', '(', '|'].all (fun c => !p c) = true)
    {c : Char} (h : p c = true) : IsWordChar c := by
  intro hmem
  have hnot := List.all_eq_true.mp hp c hmem
  simp [h] at hnot

theorem isWordChar_of_isDigit {c : Char} (h : c.isDigit = true) : IsWordChar c :=
  isWordChar_of (p := Char.isDigit) (by decide) h

theorem isWordChar_of_isPlainChar {c : Char} (h : Symbol.isPlainChar c = true) : IsWordChar c :=
  isWordChar_of (by decide) h

theorem isPlain_eq_true {name : String} (h : Symbol.isPlain name = true) :
    name.toList ≠ [] ∧ ∀ c ∈ name.toList, Symbol.isPlainChar c = true := by
  unfold Symbol.isPlain at h
  cases hname : name.toList with
  | nil => simp [hname] at h
  | cons c cs => simp_all

theorem chars_plain {name : String} (h : Symbol.isPlain name = true) :
    (symbol name).chars = name.toList := by
  rw [chars, Symbol.smt, if_pos h]

theorem chars_quoted {name : String} (h : Symbol.isPlain name = false) :
    (symbol name).chars = '|' :: (name.toList ++ ['|']) := by
  simp [chars, Symbol.smt, h]

theorem isWordChar_of_mem {a : Sexp} (ha : a.IsWord) {c : Char} (hc : c ∈ a.chars) : IsWordChar c := by
  cases a with
  | numeral n => exact isWordChar_of_isDigit (Nat.isDigit_of_mem_toDigits (by omega) (by omega) hc)
  | truth b =>
      have hplain : (Term.boolSmt b).toList.all Symbol.isPlainChar = true := by
        cases b <;> decide
      exact isWordChar_of_isPlainChar (List.all_eq_true.mp hplain c hc)
  | symbol name =>
      rw [chars_plain ha] at hc
      exact isWordChar_of_isPlainChar ((isPlain_eq_true ha).2 c hc)
  | app head args => exact absurd ha id

theorem chars_ne_nil (a : Sexp) : a.chars ≠ [] := by
  cases a with
  | numeral n => exact Nat.toDigits_ne_nil
  | truth b => cases b <;> decide
  | symbol name =>
      cases hname : Symbol.isPlain name with
      | false => simp [chars_quoted hname]
      | true =>
          rw [chars_plain hname]
          exact (isPlain_eq_true hname).1
  | app head args => simp [chars]

-- What is not a word begins with a parenthesis or with a bar.
theorem chars_of_not_isWord {a : Sexp} (ha : ¬a.IsWord) : (∃ head args, a = .app head args) ∨
    ∃ name, a = .symbol name ∧ Symbol.isPlain name = false := by
  cases a with
  | numeral n => exact absurd trivial ha
  | truth b => exact absurd trivial ha
  | symbol name => exact .inr ⟨name, rfl, Bool.eq_false_iff.mpr ha⟩
  | app head args => exact .inl ⟨head, args, rfl⟩

-- Names that are written in a text each hold a separator, and no name of one text cuts a name of
-- the other.
structure Legible (names others : List String) : Prop where
  named : ∀ name ∈ names, '@' ∈ name.toList
  named' : ∀ name ∈ others, '@' ∈ name.toList
  apart : ∀ name ∈ names, ∀ other ∈ others, ¬Symbol.Cuts name other ∧ ¬Symbol.Cuts other name

theorem Legible.symm {names others : List String} (h : Legible names others) :
    Legible others names where
  named := h.named'
  named' := h.named
  apart name hmem other hmem' := (h.apart other hmem' name hmem).symm

theorem Legible.mono {names names' others others' : List String} (h : Legible names others)
    (hn : ∀ name ∈ names', name ∈ names) (ho : ∀ name ∈ others', name ∈ others) :
    Legible names' others' where
  named name hmem := h.named name (hn name hmem)
  named' name hmem := h.named' name (ho name hmem)
  apart name hmem other hmem' := h.apart name (hn name hmem) other (ho other hmem')

-- The word that is written so: only a name holds a separator, and only a number is made of digits.
def ofWord (cs : List Char) : Sexp :=
  if '@' ∈ cs then .symbol (String.ofList cs)
  else if cs.all Char.isDigit then .numeral (Nat.ofDigitChars 10 cs 0)
  else .truth (cs = ['t', 'r', 'u', 'e'])

theorem ofWord_chars {a : Sexp} (ha : a.IsWord) (hnamed : ∀ name ∈ a.names, '@' ∈ name.toList) :
    ofWord a.chars = a := by
  cases a with
  | numeral n =>
      have hdigits : (Nat.toDigits 10 n).all Char.isDigit = true :=
        List.all_eq_true.mpr fun c hc => Nat.isDigit_of_mem_toDigits (by omega) (by omega) hc
      rw [ofWord, chars, if_neg (AliasName.separator_not_mem_toDigits n), if_pos hdigits,
        Nat.ofDigitChars_ten_toDigits]
  | truth b => cases b <;> rfl
  | symbol name =>
      rw [ofWord, chars_plain ha, if_pos (hnamed name (by simp [names])), String.ofList_toList]
  | app head args => exact absurd ha id

-- The first character of a text tells a word from the others.
theorem isWord_of_append {a b : Sexp} {rest rest' : List Char} (ha : a.IsWord)
    (h : a.chars ++ rest = b.chars ++ rest') : b.IsWord := by
  obtain ⟨c, cs, hcs⟩ := List.exists_cons_of_ne_nil (chars_ne_nil a)
  have hword : IsWordChar c := isWordChar_of_mem ha (hcs ▸ List.mem_cons_self)
  rw [hcs, List.cons_append] at h
  cases b with
  | numeral n => trivial
  | truth b => trivial
  | symbol name =>
      cases hname : Symbol.isPlain name with
      | true => exact hname
      | false =>
          rw [chars_quoted hname, List.cons_append] at h
          exact absurd hword ((List.cons.inj h).1 ▸ by decide)
  | app head args =>
      rw [chars, List.cons_append] at h
      exact absurd hword ((List.cons.inj h).1 ▸ by decide)

theorem eq_of_isWord {a b : Sexp} {rest rest' : List Char} (ha : a.IsWord)
    (h : Legible a.names b.names) (hrest : Follows rest) (hrest' : Follows rest')
    (heq : a.chars ++ rest = b.chars ++ rest') : a = b ∧ rest = rest' := by
  have hb : b.IsWord := isWord_of_append ha heq
  obtain ⟨hchars, hrests⟩ := word_append_inj (fun _ => isWordChar_of_mem ha)
    (fun _ => isWordChar_of_mem hb) hrest hrest' heq
  refine ⟨?_, hrests⟩
  rw [← ofWord_chars ha h.named, hchars, ofWord_chars hb h.named']

theorem isWordChar_of_mem_head (head : Head) : ∀ c ∈ head.text.toList, IsWordChar c := by
  have hplain : head.text.toList.all Symbol.isPlainChar = true := by
    rcases head with (_ | _ | _ | _) | (_ | _ | _ | _) | _ | _ | _ | _ | _ | _ <;> decide
  exact fun c hc => isWordChar_of_isPlainChar (List.all_eq_true.mp hplain c hc)

theorem eq_of_quoted {name : String} {b : Sexp} {rest rest' : List Char}
    (hname : Symbol.isPlain name = false) (hb : ¬b.IsWord) (h : Legible [name] b.names)
    (hrest : Follows rest) (hrest' : Follows rest')
    (heq : (symbol name).chars ++ rest = b.chars ++ rest') : symbol name = b ∧ rest = rest' := by
  rw [chars_quoted hname, List.cons_append] at heq
  rcases chars_of_not_isWord hb with ⟨head, args, rfl⟩ | ⟨other, rfl, hother⟩
  · rw [chars, List.cons_append] at heq
    exact absurd (List.cons.inj heq).1 (by decide)
  · rw [chars_quoted hother, List.cons_append] at heq
    obtain ⟨hcuts, hcuts'⟩ := h.apart name (by simp) other (by simp [names])
    obtain ⟨rfl, hrests⟩ := quoted_append_inj hname hother hcuts hcuts' hrest hrest'
      (by simpa using (List.cons.inj heq).2)
    exact ⟨rfl, hrests⟩

mutual

-- A text can be read in one way only, also when more follows.
theorem eq_of_chars_append (a b : Sexp) (h : Legible a.names b.names) {rest rest' : List Char}
    (hrest : Follows rest) (hrest' : Follows rest') (heq : a.chars ++ rest = b.chars ++ rest') :
    a = b ∧ rest = rest' := by
  by_cases hb : b.IsWord
  · obtain ⟨rfl, hrests⟩ := eq_of_isWord hb h.symm hrest' hrest heq.symm
    exact ⟨rfl, hrests.symm⟩
  · match a with
    | .numeral n => exact eq_of_isWord trivial h hrest hrest' heq
    | .truth n => exact eq_of_isWord trivial h hrest hrest' heq
    | .symbol name =>
        cases hname : Symbol.isPlain name with
        | true => exact eq_of_isWord hname h hrest hrest' heq
        | false => exact eq_of_quoted hname hb h hrest hrest' heq
    | .app head args =>
        rcases chars_of_not_isWord hb with ⟨head', args', rfl⟩ | ⟨name, rfl, hname⟩
        · simp only [chars, List.cons_append, List.append_assoc, List.cons.injEq, true_and,
            List.nil_append] at heq
          obtain ⟨hhead, hargs⟩ := word_append_inj (isWordChar_of_mem_head head)
            (isWordChar_of_mem_head head') (follows_argsChars args rest)
            (follows_argsChars args' rest') heq
          obtain ⟨rfl, hrests⟩ := eq_of_argsChars_append args args' h hargs
          exact ⟨by rw [Head.text_injective (String.toList_inj.mp hhead)], hrests⟩
        · rw [chars_quoted hname, chars, List.cons_append] at heq
          exact absurd (List.cons.inj heq).1 (by decide)

theorem eq_of_argsChars_append (args args' : List Sexp)
    (h : Legible (argsNames args) (argsNames args')) {rest rest' : List Char}
    (heq : argsChars args ++ ')' :: rest = argsChars args' ++ ')' :: rest') :
    args = args' ∧ rest = rest' := by
  match args with
  | [] =>
      cases args' with
      | nil => exact ⟨rfl, by simpa [argsChars] using heq⟩
      | cons b args' => simp [argsChars] at heq
  | a :: args =>
      cases args' with
      | nil => simp [argsChars] at heq
      | cons b args' =>
          simp only [argsChars, List.cons_append, List.append_assoc, List.cons.injEq, true_and] at heq
          obtain ⟨rfl, hargs⟩ := eq_of_chars_append a b
            (h.mono (by simp +contextual [argsNames]) (by simp +contextual [argsNames]))
            (follows_argsChars args rest) (follows_argsChars args' rest') heq
          obtain ⟨rfl, hrests⟩ := eq_of_argsChars_append args args'
            (h.mono (by simp +contextual [argsNames]) (by simp +contextual [argsNames])) hargs
          exact ⟨rfl, hrests⟩

end

-- Two texts that can be told apart are the same only if their trees are.
theorem eq_of_chars {a b : Sexp} (h : Legible a.names b.names) (heq : a.chars = b.chars) : a = b :=
  (eq_of_chars_append a b h (by simp [Follows]) (by simp [Follows]) (congrArg (· ++ []) heq)).1

end Sexp

end Covenant
