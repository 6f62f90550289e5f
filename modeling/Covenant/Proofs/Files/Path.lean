import Covenant.Files.Path
import Mathlib.Data.List.Infix

namespace Covenant.Path

section Names

theorem names_cons {c : Char} (hc : c ≠ '/') {rest : Path} {name : List Char}
    {more : List (List Char)} (h : names rest = name :: more) :
    names (c :: rest) = (c :: name) :: more := by
  rw [names.eq_3 c rest (fun e => hc e), h]

theorem names_ne_nil (p : Path) : p.names ≠ [] := by
  induction p with
  | nil => simp [names]
  | cons c rest ih =>
      by_cases hc : c = '/'
      · simp [hc, names]
      · obtain ⟨name, more, hnames⟩ := List.exists_cons_of_ne_nil ih
        simp [names_cons hc hnames]

theorem names_append_separator (p q : Path) : names (p ++ '/' :: q) = p.names ++ q.names := by
  induction p with
  | nil => rfl
  | cons c rest ih =>
      by_cases hc : c = '/'
      · subst hc
        simp only [List.cons_append, names, ih]
      · obtain ⟨name, more, hnames⟩ := List.exists_cons_of_ne_nil (names_ne_nil rest)
        have hrest : names (rest ++ '/' :: q) = name :: (more ++ q.names) := by
          rw [ih, hnames, List.cons_append]
        rw [List.cons_append, names_cons hc hrest, names_cons hc hnames, List.cons_append]

theorem names_of_not_mem {p : Path} (h : '/' ∉ p) : p.names = [p] := by
  induction p with
  | nil => rfl
  | cons c rest ih =>
      obtain ⟨hc, hrest⟩ := List.ne_and_not_mem_of_not_mem_cons h
      exact names_cons (Ne.symm hc) (ih hrest)

end Names

section Steps

-- An empty name and a dot lead nowhere.
def IsStep (name : List Char) : Prop := ¬(name = [] ∨ name = ['.'])

instance : DecidablePred IsStep := fun _ => inferInstanceAs (Decidable ¬_)

-- The names in a path that lead from one directory to the next.
def steps (p : Path) : List (List Char) := p.names.filter (IsStep ·)

theorem steps_append_separator (p q : Path) : steps (p ++ '/' :: q) = p.steps ++ q.steps := by
  simp only [steps, names_append_separator, List.filter_append]

theorem steps_separator (p : Path) : steps ('/' :: p) = p.steps :=
  steps_append_separator [] p

theorem steps_of_isStep {p : Path} (hp : '/' ∉ p) (h : IsStep p) : p.steps = [p] := by
  simp [steps, names_of_not_mem hp, h]

theorem steps_of_not_isStep {p : Path} (hp : '/' ∉ p) (h : ¬IsStep p) : p.steps = [] := by
  simp [steps, names_of_not_mem hp, h]

theorem isStep_reverse (name : List Char) : IsStep name.reverse ↔ IsStep name := by
  simp [IsStep, List.reverse_eq_iff]

end Steps

section Splitting

-- Where a reversed path has no separator all of it is its last name.
theorem splitName_cases (r : List Char) :
    r = (splitName r).1 ++ '/' :: (splitName r).2 ∨ r = (splitName r).1 ∧ (splitName r).2 = [] := by
  fun_induction splitName r with
  | case1 => exact .inr ⟨rfl, rfl⟩
  | case2 rest => exact .inl rfl
  | case3 c rest hc name before hsplit ih =>
      rw [hsplit] at ih
      rcases ih with h | ⟨h, hbefore⟩
      · exact .inl (congrArg (c :: ·) h)
      · exact .inr ⟨congrArg (c :: ·) h, hbefore⟩

theorem not_mem_splitName (r : List Char) : '/' ∉ (splitName r).1 := by
  fun_induction splitName r with
  | case1 => exact List.not_mem_nil
  | case2 rest => exact List.not_mem_nil
  | case3 c rest hc name before hsplit ih =>
      rw [hsplit] at ih
      exact List.not_mem_cons_of_ne_of_not_mem (fun e => hc e.symm) ih

theorem splitName_suffix (r : List Char) : (splitName r).2 <:+ r := by
  rcases splitName_cases r with h | ⟨-, h⟩
  · exact ⟨(splitName r).1 ++ ['/'], by rw [List.append_assoc]; exact h.symm⟩
  · exact h ▸ List.nil_suffix

theorem splitName_length {r : List Char} (hr : r ≠ []) : (splitName r).2.length < r.length := by
  rcases splitName_cases r with h | ⟨-, h⟩
  · have := congrArg List.length h
    simp only [List.length_append, List.length_cons] at this
    omega
  · rw [h]
    exact List.length_pos_iff.mpr hr

theorem steps_reverse (r : List Char) :
    steps r.reverse = steps (splitName r).2.reverse ++ steps (splitName r).1.reverse := by
  rcases splitName_cases r with h | ⟨h, hbefore⟩
  · have hr : r.reverse = (splitName r).2.reverse ++ '/' :: (splitName r).1.reverse := by
      conv_lhs => rw [h]
      simp
    rw [hr, steps_append_separator]
  · rw [hbefore, ← h]
    rfl

theorem not_mem_splitName_reverse (r : List Char) : '/' ∉ (splitName r).1.reverse :=
  fun h => not_mem_splitName r (List.mem_reverse.mp h)

-- What is left after trimming ends in a name that leads on.
theorem trimReversed_spec (rounds : Nat) (r : List Char) (h : r.length ≤ rounds) :
    trimReversed rounds r <:+ r ∧ steps (trimReversed rounds r).reverse = steps r.reverse ∧
      (trimReversed rounds r ≠ [] → IsStep (splitName (trimReversed rounds r)).1) := by
  fun_induction trimReversed rounds r with
  | case1 r =>
      have hr : r = [] := List.length_eq_zero_iff.mp (by omega)
      exact ⟨List.suffix_rfl, rfl, fun hne => absurd hr hne⟩
  | case2 => exact ⟨List.suffix_rfl, rfl, fun hne => absurd rfl hne⟩
  | case3 rounds c cs name before hsplit hskip ih =>
      have hsuffix := splitName_suffix (c :: cs)
      have hlength := splitName_length (List.cons_ne_nil c cs)
      have hsteps := steps_reverse (c :: cs)
      rw [steps_of_not_isStep (not_mem_splitName_reverse _)
        (fun hs => (isStep_reverse _).mp hs (by rw [hsplit]; exact hskip)), List.append_nil] at hsteps
      rw [hsplit] at hsuffix hlength hsteps
      obtain ⟨hi, he, hl⟩ := ih (by simp only at hlength; omega)
      exact ⟨hi.trans hsuffix, he.trans hsteps.symm, hl⟩
  | case4 rounds c cs name before hsplit hstep =>
      refine ⟨List.suffix_rfl, rfl, fun _ => ?_⟩
      rw [hsplit]
      exact hstep

end Splitting

section Parent

-- Whether a path starts from the root.
def rooted (p : Path) : Bool := p.head? == some '/'

theorem rooted_of_isPrefix {p q : Path} (h : q <+: p) (hq : q ≠ []) : q.rooted = p.rooted := by
  obtain ⟨rest, rfl⟩ := h
  rw [rooted, rooted, List.head?_append_of_ne_nil q hq]

theorem take_leadLength (p : Path) :
    p.take p.leadLength = ['/'] ∧ p.rooted = true ∨
    p.take p.leadLength = ['.'] ∧ p.rooted = false ∧
      (p.drop p.leadLength = [] ∨ rooted (p.drop p.leadLength) = true) ∨
    p.take p.leadLength = [] ∧ p.rooted = false := by
  fun_cases leadLength p with
  | case1 rest => exact .inl ⟨rfl, rfl⟩
  | case2 => exact .inr (.inl ⟨rfl, rfl, .inl rfl⟩)
  | case3 rest => exact .inr (.inl ⟨rfl, rfl, .inr rfl⟩)
  | case4 p hroot hdot hhere =>
      refine .inr (.inr ⟨rfl, ?_⟩)
      cases p with
      | nil => rfl
      | cons c rest =>
          have hc : c ≠ '/' := fun e => hroot rest (congrArg (· :: rest) e)
          simp [rooted, hc]

-- A lead adds no step to a path that goes on like the one it was taken from.
theorem steps_lead_append {p b : Path} (hb : b <+: p.drop p.leadLength) :
    steps (p.take p.leadLength ++ b) = b.steps := by
  rcases take_leadLength p with ⟨hlead, -⟩ | ⟨hlead, -, hbody⟩ | ⟨hlead, -⟩
  · rw [hlead]
    exact steps_separator b
  · rw [hlead]
    cases b with
    | nil => rfl
    | cons c rest =>
        have hroot : rooted (p.drop p.leadLength) = true :=
          hbody.resolve_left fun e => List.cons_ne_nil c rest (List.prefix_nil.mp (e ▸ hb))
        have hc : c = '/' := by
          rw [← rooted_of_isPrefix hb (List.cons_ne_nil c rest)] at hroot
          simpa [rooted] using hroot
        subst hc
        rw [steps_separator]
        exact steps_append_separator ['.'] rest
  · rw [hlead, List.nil_append]

theorem lead_append_isPrefix {p b : Path} (hb : b <+: p.drop p.leadLength) :
    p.take p.leadLength ++ b <+: p := by
  obtain ⟨rest, hrest⟩ := hb
  exact ⟨rest, by rw [List.append_assoc, hrest, List.take_append_drop]⟩

theorem rooted_lead_append {p b : Path} (hb : b <+: p.drop p.leadLength) :
    rooted (p.take p.leadLength ++ b) = p.rooted := by
  have hp := lead_append_isPrefix hb
  rcases take_leadLength p with ⟨hlead, -⟩ | ⟨hlead, -, -⟩ | ⟨hlead, hroot⟩
  · exact rooted_of_isPrefix hp (by simp [hlead])
  · exact rooted_of_isPrefix hp (by simp [hlead])
  · by_cases hne : p.take p.leadLength ++ b = []
    · rw [hne, hroot]
      rfl
    · exact rooted_of_isPrefix hp hne

theorem steps_eq_trimmed (p : Path) :
    p.steps = steps (trimReversed (p.drop p.leadLength).reverse.length
      (p.drop p.leadLength).reverse).reverse := by
  rw [(trimReversed_spec _ _ Nat.le.refl).2.1, List.reverse_reverse,
    ← steps_lead_append List.prefix_rfl, List.take_append_drop]

theorem parent?_eq_none {p : Path} (h : p.parent? = none) : p.steps = [] := by
  rw [steps_eq_trimmed]
  simp only [parent?] at h
  split at h
  · rename_i htrim
    rw [htrim]
    rfl
  · cases h

-- A parent has one step less, but for a path that stays where it starts, whose parent is empty.
theorem parent?_eq_some {p q : Path} (h : p.parent? = some q) :
    q <+: p ∧ q.length < p.length ∧ q.rooted = p.rooted ∧
      ((∃ name, p.steps = q.steps ++ [name]) ∨ p.steps = [] ∧ q = []) := by
  have htrimmed := trimReversed_spec _ (p.drop p.leadLength).reverse Nat.le.refl
  have hsteps := steps_eq_trimmed p
  simp only [parent?] at h
  split at h
  · rename_i htrim
    rw [htrim] at hsteps
    split at h
    · rename_i hlead
      obtain rfl := Option.some.inj h
      have hp : p ≠ [] := by
        rintro rfl
        cases hlead
      have hroot : p.rooted = false := by
        rcases take_leadLength p with ⟨hslash, -⟩ | ⟨-, hroot, -⟩ | ⟨-, hroot⟩
        · rw [hlead] at hslash
          exact absurd hslash (by decide)
        · exact hroot
        · exact hroot
      exact ⟨List.nil_prefix, List.length_pos_iff.mpr hp, hroot.symm, .inr ⟨hsteps, rfl⟩⟩
    · cases h
  · rename_i c cs htrim
    rw [htrim] at hsteps htrimmed
    obtain ⟨hsuffix, -, hstep⟩ := htrimmed
    have hbefore := trimReversed_spec _ (splitName (c :: cs)).2 Nat.le.refl
    obtain rfl := Option.some.inj h
    have hb : (trimReversed (splitName (c :: cs)).2.length (splitName (c :: cs)).2).reverse <+:
        p.drop p.leadLength := by
      rw [← List.reverse_suffix, List.reverse_reverse]
      exact (hbefore.1.trans (splitName_suffix (c :: cs))).trans hsuffix
    have hlength : (trimReversed (splitName (c :: cs)).2.length (splitName (c :: cs)).2).length <
        (p.drop p.leadLength).length := by
      have hname := splitName_length (List.cons_ne_nil c cs)
      have hle := hbefore.1.length_le
      have hwhole := hsuffix.length_le
      rw [List.length_reverse] at hwhole
      omega
    refine ⟨lead_append_isPrefix hb, ?_, rooted_lead_append hb,
      .inl ⟨(splitName (c :: cs)).1.reverse, ?_⟩⟩
    · calc
        _ = (p.take p.leadLength).length +
            (trimReversed (splitName (c :: cs)).2.length (splitName (c :: cs)).2).length := by
          rw [List.length_append, List.length_reverse]
        _ < (p.take p.leadLength).length + (p.drop p.leadLength).length := by omega
        _ = p.length := by rw [← List.length_append, List.take_append_drop]
    · have hlast := (isStep_reverse _).mpr (hstep (List.cons_ne_nil c cs))
      rw [steps_lead_append hb, hbefore.2.1, hsteps, steps_reverse,
        steps_of_isStep (not_mem_splitName_reverse _) hlast]

end Parent

section Join

theorem join_separator (p : Path) (name : String) : join (p ++ ['/']) name = p ++ '/' :: name.toList := by
  rw [join, List.getLast?_concat]
  simp only [List.append_assoc, List.cons_append, List.nil_append]

theorem join_char {p : Path} {c : Char} (hc : c ≠ '/') (name : String) :
    join (p ++ [c]) name = p ++ [c] ++ '/' :: name.toList := by
  rw [join, List.getLast?_concat]
  split
  · rename_i h
    cases h
  · rename_i h
    exact absurd (Option.some.inj h) hc
  · rfl

-- How a path goes on when a name is put after it: the separator may be there already.
theorem join_cases (p : Path) (name : String) :
    p = [] ∧ p.join name = name.toList ∨
    (∃ q, p = q ++ ['/'] ∧ p.join name = q ++ '/' :: name.toList) ∨
    p ≠ [] ∧ p.join name = p ++ '/' :: name.toList := by
  induction p using List.reverseRecOn with
  | nil => exact .inl ⟨rfl, rfl⟩
  | append_singleton p c =>
      by_cases hc : c = '/'
      · subst hc
        exact .inr (.inl ⟨p, rfl, join_separator p name⟩)
      · exact .inr (.inr ⟨by simp, join_char hc name⟩)

theorem names_join (p : Path) {name : String} (hname : '/' ∉ name.toList) :
    ∃ before, names (p.join name) = before ++ [name.toList] ∧ before.filter (IsStep ·) = p.steps := by
  rcases join_cases p name with ⟨rfl, h⟩ | ⟨q, rfl, h⟩ | ⟨hp, h⟩
  · exact ⟨[], by rw [h, names_of_not_mem hname]; rfl, rfl⟩
  · refine ⟨q.names, by rw [h, names_append_separator, names_of_not_mem hname], ?_⟩
    rw [steps_append_separator]
    exact (List.append_nil _).symm
  · exact ⟨p.names, by rw [h, names_append_separator, names_of_not_mem hname], rfl⟩

theorem rooted_join (p : Path) {name : String} (hname : '/' ∉ name.toList) :
    (p.join name).rooted = p.rooted := by
  rcases join_cases p name with ⟨rfl, h⟩ | ⟨q, rfl, h⟩ | ⟨hp, h⟩
  · rw [h]
    cases hl : name.toList with
    | nil => rfl
    | cons c rest =>
        have hc : c ≠ '/' := fun e => hname (by simp [hl, e])
        simp [rooted, hc]
  · rw [h]
    cases q <;> rfl
  · exact (rooted_of_isPrefix ⟨_, h.symm⟩ hp).symm

theorem mem_join {p : Path} {name : String} {c : Char} (h : c ∈ p.join name) :
    c ∈ p ∨ c = '/' ∨ c ∈ name.toList := by
  rcases join_cases p name with ⟨-, e⟩ | ⟨q, rfl, e⟩ | ⟨-, e⟩ <;> rw [e] at h
  · exact .inr (.inr h)
  · rcases List.mem_append.mp h with h | h
    · exact .inl (List.mem_append_left _ h)
    · exact .inr (List.mem_cons.mp h)
  · exact (List.mem_append.mp h).imp_right List.mem_cons.mp

theorem byteSize_append (p q : Path) : byteSize (p ++ q) = p.byteSize + q.byteSize := by
  induction p with
  | nil => simp [byteSize]
  | cons c rest ih =>
      rw [List.cons_append, byteSize, byteSize, ih, Nat.add_assoc]

theorem length_le_byteSize (p : Path) : p.length ≤ p.byteSize := by
  induction p with
  | nil => exact Nat.le.refl
  | cons c rest ih =>
      have hc := c.utf8Size_pos
      rw [List.length_cons, byteSize]
      omega

theorem byteSize_join (p : Path) (name : String) :
    p.byteSize + byteSize name.toList ≤ (p.join name).byteSize ∧
      (p.join name).byteSize ≤ p.byteSize + 1 + byteSize name.toList := by
  have hslash : '/'.utf8Size = 1 := rfl
  rcases join_cases p name with ⟨rfl, e⟩ | ⟨q, rfl, e⟩ | ⟨-, e⟩ <;>
    rw [e] <;> simp only [byteSize_append, byteSize, hslash] <;> omega

-- The separator that a shorter path needs takes the place of what it has lost.
theorem byteSize_join_le {p q : Path} (h : q <+: p) (hlt : q.length < p.length) (name : String) :
    (q.join name).byteSize ≤ (p.join name).byteSize := by
  obtain ⟨rest, rfl⟩ := h
  have hrest := length_le_byteSize rest
  have hq := (byteSize_join q name).2
  have hp := (byteSize_join (q ++ rest) name).1
  rw [byteSize_append] at hp
  rw [List.length_append] at hlt
  omega

end Join

end Covenant.Path
