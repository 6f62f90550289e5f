import Covenant.Files.Tree
import Covenant.Proofs.Files.Path

namespace Covenant.FileTree

variable {t : FileTree}

def HasFile (t : FileTree) (names : List String) : Prop := (t.files.lookup names).isSome

instance (names : List String) : Decidable (t.HasFile names) := inferInstanceAs (Decidable (_ = _))

-- A name that a file or a directory can have.
structure IsName (name : String) : Prop where
  nonempty : name ≠ ""
  notDot : name ≠ "."
  notParent : name ≠ ".."
  fits : name.utf8ByteSize ≤ 255
  noSeparator : '/' ∉ name.toList
  noNul : '\x00' ∉ name.toList

theorem IsName.leadsOn {name : String} (h : IsName name) : ¬(name = "" ∨ name = ".") :=
  not_or.mpr ⟨h.nonempty, h.notDot⟩

section Walk

theorem walk_file_eq_ok {file names : List String} {node : Node} :
    t.walk (.file file) names = .ok node ↔ names = [] ∧ node = .file file := by
  cases names with
  | nil => exact ⟨fun h => ⟨rfl, (Except.ok.inj h).symm⟩, fun h => congrArg Except.ok h.2.symm⟩
  | cons name rest =>
      constructor
      · intro h
        cases h
      · rintro ⟨h, -⟩
        cases h

theorem walk_cons_eq_ok {d : List String} {name : String} {rest : List String} {node : Node} :
    t.walk (.directory d) (name :: rest) = .ok node ↔
      ∃ next, t.enter d name = .ok next ∧ t.walk next rest = .ok node := by
  rw [walk]
  cases hnext : t.enter d name with
  | error e =>
      constructor
      · intro h
        cases h
      · rintro ⟨_, h, -⟩
        cases h
  | ok next =>
      constructor
      · intro h
        exact ⟨next, rfl, h⟩
      · rintro ⟨_, h, hrest⟩
        obtain rfl := Except.ok.inj h
        exact hrest

theorem walk_append_eq_ok {xs ys : List String} {start node : Node} :
    t.walk start (xs ++ ys) = .ok node ↔
      ∃ middle, t.walk start xs = .ok middle ∧ t.walk middle ys = .ok node := by
  induction xs generalizing start with
  | nil => simp [walk]
  | cons x xs ih =>
      cases start with
      | file file =>
          simp only [List.cons_append, walk_file_eq_ok, reduceCtorEq, false_and, exists_false]
      | directory d =>
          simp only [List.cons_append, walk_cons_eq_ok, ih]
          constructor
          · rintro ⟨next, hnext, middle, hxs, hys⟩
            exact ⟨middle, ⟨next, hnext, hxs⟩, hys⟩
          · rintro ⟨middle, ⟨next, hnext, hxs⟩, hys⟩
            exact ⟨next, hnext, middle, hxs, hys⟩

theorem enter_of_not_isStep {d : List String} {name : List Char} (h : ¬Path.IsStep name) :
    t.enter d (String.ofList name) = .ok (.directory d) := by
  have hname : String.ofList name = "" ∨ String.ofList name = "." :=
    (Decidable.not_not.mp h).imp (congrArg String.ofList) (congrArg String.ofList)
  rw [enter, if_pos hname]

-- Only a directory can be passed through without a step, so dots after a file are an error that
-- leaving them out hides. The two directions differ by that.
theorem walk_steps {d : List String} {node : Node} {names : List (List Char)}
    (h : t.walk (.directory d) (names.map String.ofList) = .ok node) :
    t.walk (.directory d) ((names.filter (Path.IsStep ·)).map String.ofList) = .ok node := by
  induction names generalizing d with
  | nil => exact h
  | cons name rest ih =>
      obtain ⟨next, hnext, hrest⟩ := walk_cons_eq_ok.mp h
      by_cases hs : Path.IsStep name
      · rw [List.filter_cons_of_pos (by simpa using hs)]
        refine walk_cons_eq_ok.mpr ⟨next, hnext, ?_⟩
        cases next with
        | file file =>
            obtain ⟨hnil, rfl⟩ := walk_file_eq_ok.mp hrest
            obtain rfl := List.map_eq_nil_iff.mp hnil
            rfl
        | directory e => exact ih hrest
      · rw [List.filter_cons_of_neg (by simpa using hs)]
        rw [enter_of_not_isStep hs] at hnext
        obtain rfl := Except.ok.inj hnext
        exact ih hrest

theorem walk_of_steps {d e : List String} {names : List (List Char)}
    (h : t.walk (.directory d) ((names.filter (Path.IsStep ·)).map String.ofList) =
      .ok (.directory e)) :
    t.walk (.directory d) (names.map String.ofList) = .ok (.directory e) := by
  induction names generalizing d with
  | nil => exact h
  | cons name rest ih =>
      by_cases hs : Path.IsStep name
      · rw [List.filter_cons_of_pos (by simpa using hs)] at h
        obtain ⟨next, hnext, hrest⟩ := walk_cons_eq_ok.mp h
        refine walk_cons_eq_ok.mpr ⟨next, hnext, ?_⟩
        cases next with
        | file file => cases (walk_file_eq_ok.mp hrest).2
        | directory d' => exact ih hrest
      · rw [List.filter_cons_of_neg (by simpa using hs)] at h
        exact walk_cons_eq_ok.mpr ⟨_, enter_of_not_isStep hs, ih h⟩

theorem enter_below {d : List String} {name : String} (hn : ¬(name = "" ∨ name = "."))
    (hp : name ≠ "..") {node : Node} (h : t.enter d name = .ok node) :
    node = .file (d ++ [name]) ∧ t.HasFile (d ++ [name]) ∨ node = .directory (d ++ [name]) := by
  rw [enter, if_neg hn, if_neg hp] at h
  split at h
  · cases h
  · simp only at h
    split at h
    · rename_i hfile
      exact .inl ⟨(Except.ok.inj h).symm, hfile⟩
    · split at h
      · exact .inr (Except.ok.inj h).symm
      · cases h

theorem enter_of_isName {d : List String} {name : String} (hname : IsName name) :
    t.enter d name =
      if t.HasFile (d ++ [name]) then .ok (.file (d ++ [name]))
      else if t.hasDirectory (d ++ [name]) then .ok (.directory (d ++ [name]))
      else .error .notFound := by
  have hfits := hname.fits
  rw [enter, if_neg hname.leadsOn, if_neg hname.notParent, if_neg (by omega)]
  rfl

-- Where every name is a step down, what they lead to is named by all of them.
theorem walk_below {d names : List String}
    (hnames : ∀ name ∈ names, ¬(name = "" ∨ name = ".") ∧ name ≠ "..") {node : Node}
    (h : t.walk (.directory d) names = .ok node) :
    node = .file (d ++ names) ∧ names ≠ [] ∨ node = .directory (d ++ names) := by
  induction names generalizing d with
  | nil =>
      rw [List.append_nil]
      exact .inr (Except.ok.inj h).symm
  | cons name rest ih =>
      obtain ⟨next, hnext, hrest⟩ := walk_cons_eq_ok.mp h
      obtain ⟨hn, hp⟩ := hnames name List.mem_cons_self
      rcases enter_below hn hp hnext with ⟨rfl, -⟩ | rfl
      · obtain ⟨rfl, rfl⟩ := walk_file_eq_ok.mp hrest
        exact .inl ⟨rfl, List.cons_ne_nil _ _⟩
      · have hbelow := ih (fun n hn => hnames n (List.mem_cons_of_mem _ hn)) hrest
        rw [List.append_assoc, List.cons_append, List.nil_append] at hbelow
        exact hbelow.imp_left fun h => ⟨h.1, List.cons_ne_nil _ _⟩

end Walk

section Find

-- The directory that the names in a path start from.
def origin (t : FileTree) (p : Path) : List String := if p.rooted then [] else t.current

theorem origin_congr {p q : Path} (h : q.rooted = p.rooted) : t.origin q = t.origin p := by
  rw [origin, origin, h]

def stepNames (p : Path) : List String := p.steps.map String.ofList

theorem names_of_mem_stepNames {p : Path} {name : String} (h : name ∈ stepNames p) :
    name ∈ names p := by
  obtain ⟨cs, hcs, rfl⟩ := List.mem_map.mp h
  exact List.mem_map_of_mem (List.mem_filter.mp hcs).1

theorem stepNames_clean {p : Path} (hdots : ".." ∉ stepNames p) :
    ∀ name ∈ stepNames p, ¬(name = "" ∨ name = ".") ∧ name ≠ ".." := by
  intro name hname
  refine ⟨?_, fun h => hdots (h ▸ hname)⟩
  obtain ⟨cs, hcs, rfl⟩ := List.mem_map.mp hname
  refine fun h => of_decide_eq_true (List.mem_filter.mp hcs).2 ?_
  exact h.imp (fun e => String.ofList_injective e) (fun e => String.ofList_injective e)

theorem find_eq_ok {p : Path} {node : Node} :
    t.find p = .ok node ↔ p ≠ [] ∧ '\x00' ∉ p ∧ p.byteSize ≤ 4095 ∧
      t.walk (.directory (t.origin p)) (names p) = .ok node := by
  rw [find.eq_def]
  split
  · rename_i hnul
    constructor
    · intro h
      cases h
    · intro h
      exact absurd hnul h.2.1
  · rename_i hnul
    split
    · constructor
      · intro h
        cases h
      · intro h
        omega
    · have hsize : p.byteSize ≤ 4095 := by omega
      cases p with
      | nil =>
          constructor
          · intro h
            cases h
          · intro h
            exact absurd rfl h.1
      | cons c rest =>
          simp only [ne_eq, reduceCtorEq, not_false_eq_true, hnul, hsize, true_and]
          by_cases hc : c = '/'
          · subst hc
            exact Iff.rfl
          · have hroot : Path.rooted (c :: rest) = false := by simp [Path.rooted, hc]
            have horigin : t.origin (c :: rest) = t.current := by simp [origin, hroot]
            rw [horigin]
            split
            · rename_i h
              cases h
            · rename_i h
              exact absurd (List.cons.inj h).1 hc
            · exact Iff.rfl

-- Whether a path leads to a directory. The empty path, which finds nothing, leads to the current
-- one.
def Reaches (t : FileTree) (p : Path) (d : List String) : Prop :=
  t.walk (.directory (t.origin p)) (stepNames p) = .ok (.directory d)

theorem Reaches.eq {p : Path} {d : List String} (h : t.Reaches p d) (hdots : ".." ∉ stepNames p) :
    d = t.origin p ++ stepNames p := by
  rcases walk_below (stepNames_clean hdots) h with ⟨he, -⟩ | he
  · cases he
  · exact Node.directory.inj he

-- What is passed on the way to a node is a directory, also where the node is a file.
theorem reaches_of_steps {p q : Path} {name : List Char} {node : Node}
    (h : t.walk (.directory (t.origin p)) (stepNames p) = .ok node)
    (hdots : ".." ∉ stepNames q) (hroot : q.rooted = p.rooted)
    (hsteps : p.steps = q.steps ++ [name]) : t.Reaches q (t.origin p ++ stepNames q) := by
  rw [stepNames, hsteps, List.map_append] at h
  obtain ⟨middle, hmiddle, hlast⟩ := walk_append_eq_ok.mp h
  rw [Reaches, origin_congr hroot]
  rcases walk_below (stepNames_clean hdots) hmiddle with ⟨rfl, -⟩ | rfl
  · cases (walk_file_eq_ok.mp hlast).1
  · exact hmiddle

theorem find_join_eq_file {p : Path} {d file : List String} {name : String} (hname : IsName name)
    (h : t.Reaches p d) (hnul : '\x00' ∉ p) (hfits : (p.join name).byteSize ≤ 4095) :
    t.find (p.join name) = .ok (.file file) ↔ file = d ++ [name] ∧ t.HasFile file := by
  obtain ⟨before, hnames, hbefore⟩ := Path.names_join p hname.noSeparator
  have hreach : t.walk (.directory (t.origin p)) (before.map String.ofList) = .ok (.directory d) := by
    apply walk_of_steps
    rw [hbefore]
    exact h
  have hjoin : t.find (p.join name) = .ok (.file file) ↔ t.enter d name = .ok (.file file) := by
    rw [find_eq_ok, origin_congr (Path.rooted_join p hname.noSeparator), names, hnames,
      List.map_append, walk_append_eq_ok]
    constructor
    · rintro ⟨-, -, -, middle, hmiddle, hlast⟩
      obtain rfl := Except.ok.inj (hreach.symm.trans hmiddle)
      obtain ⟨next, hnext, hend⟩ := walk_cons_eq_ok.mp hlast
      obtain rfl := Except.ok.inj hend
      rwa [String.ofList_toList] at hnext
    · intro hnext
      refine ⟨?_, ?_, hfits, .directory d, hreach, walk_cons_eq_ok.mpr ⟨.file file, ?_, rfl⟩⟩
      · intro hnil
        have hempty : some [] = some name.toList := by
          have hlast := congrArg List.getLast? hnames
          rwa [hnil, List.getLast?_concat] at hlast
        exact hname.nonempty (String.toList_eq_nil_iff.mp (Option.some.inj hempty).symm)
      · intro hmem
        rcases Path.mem_join hmem with h | h | h
        · exact hnul h
        · exact absurd h (by decide)
        · exact hname.noNul h
      · rwa [String.ofList_toList]
  rw [hjoin]
  constructor
  · intro hnext
    rcases enter_below hname.leadsOn hname.notParent hnext with ⟨he, hfile⟩ | he
    · obtain rfl := Node.file.inj he
      exact ⟨rfl, hfile⟩
    · cases he
  · rintro ⟨rfl, hfile⟩
    exact (enter_of_isName hname).trans (if_pos hfile)

end Find

section Absolute

-- The current directory is there: its names can be names, and no file is in their way.
structure Proper (t : FileTree) : Prop where
  isName : ∀ name ∈ t.current, IsName name
  noFile : ∀ d, d <+: t.current → ¬t.HasFile d

def spell (d : List String) : Path := d.flatMap fun name => '/' :: name.toList

-- A path with the current directory before it, where it is not absolute already.
def absolute (t : FileTree) (p : Path) : Path :=
  if p.rooted then p else spell t.current ++ '/' :: p

theorem rooted_absolute (t : FileTree) (p : Path) : (t.absolute p).rooted = true := by
  rw [absolute]
  split
  · assumption
  · cases t.current <;> rfl

theorem names_spell {d : List String} (hd : ∀ name ∈ d, IsName name) (p : Path) :
    names (spell d ++ '/' :: p) = "" :: (d ++ names p) := by
  induction d with
  | nil => rfl
  | cons name rest ih =>
      have hname := (hd name List.mem_cons_self).noSeparator
      have hrest := ih fun n hn => hd n (List.mem_cons_of_mem _ hn)
      have hspell : spell (name :: rest) ++ '/' :: p =
          '/' :: (name.toList ++ (spell rest ++ '/' :: p)) := by
        simp [spell]
      -- What comes after the name starts with a separator, which splits off the name.
      obtain ⟨after, hafter⟩ : ∃ after, spell rest ++ '/' :: p = '/' :: after := by
        cases rest <;> exact ⟨_, rfl⟩
      rw [hafter] at hspell hrest
      have htail : names after = rest ++ names p := (List.cons.inj hrest).2
      calc
        names (spell (name :: rest) ++ '/' :: p) =
            "" :: names (name.toList ++ '/' :: after) := by rw [hspell]; rfl
        _ = "" :: (name :: names after) := by
          rw [names, Path.names_append_separator, Path.names_of_not_mem hname, List.cons_append,
            List.nil_append, List.map_cons, String.ofList_toList]
          rfl
        _ = "" :: (name :: rest ++ names p) := by rw [htail, List.cons_append]

theorem nul_not_mem_spell {d : List String} (hd : ∀ name ∈ d, IsName name) : '\x00' ∉ spell d := by
  intro h
  obtain ⟨name, hname, hmem⟩ := List.mem_flatMap.mp h
  rcases List.mem_cons.mp hmem with he | hmem
  · exact absurd he (by decide)
  · exact (hd name hname).noNul hmem

theorem Proper.enter {d rest : List String} {name : String} (ht : t.Proper)
    (h : d ++ name :: rest = t.current) : t.enter d name = .ok (.directory (d ++ [name])) := by
  have hsplit : d ++ [name] ++ rest = t.current := by rw [← h, List.append_assoc]; rfl
  have hpre : d ++ [name] <+: t.current := ⟨rest, hsplit⟩
  have hthere : t.hasDirectory (d ++ [name]) = true := by simp [hasDirectory, hpre]
  rw [enter_of_isName (ht.isName name (h ▸ by simp)), if_neg (ht.noFile _ hpre), if_pos hthere]

theorem Proper.walk_current {d rest : List String} (ht : t.Proper) (h : d ++ rest = t.current) :
    t.walk (.directory d) rest = .ok (.directory t.current) := by
  induction rest generalizing d with
  | nil =>
      rw [List.append_nil] at h
      rw [h]
      rfl
  | cons name rest ih =>
      have hsplit : d ++ [name] ++ rest = t.current := by rw [← h, List.append_assoc]; rfl
      exact walk_cons_eq_ok.mpr ⟨_, ht.enter h, ih hsplit⟩

theorem names_absolute {p : Path} (ht : t.Proper) :
    names (t.absolute p) = if p.rooted then names p else "" :: (t.current ++ names p) := by
  rw [absolute]
  split
  · rfl
  · exact names_spell ht.isName p

theorem find_absolute {p : Path} {node : Node} (ht : t.Proper) (h : t.find p = .ok node)
    (hfits : (t.absolute p).byteSize ≤ 4095) : t.find (t.absolute p) = .ok node := by
  obtain ⟨hne, hnul, -, hwalk⟩ := find_eq_ok.mp h
  by_cases hroot : p.rooted = true
  · rw [absolute, if_pos hroot]
    exact h
  · have horigin : t.origin (t.absolute p) = [] := by rw [origin, if_pos (rooted_absolute t p)]
    rw [origin, if_neg hroot] at hwalk
    refine find_eq_ok.mpr ⟨?_, ?_, hfits, ?_⟩
    · rw [absolute, if_neg hroot]
      simp
    · rw [absolute, if_neg hroot, List.mem_append, List.mem_cons, not_or, not_or]
      exact ⟨nul_not_mem_spell ht.isName, by decide, hnul⟩
    · rw [horigin, names_absolute ht, if_neg hroot]
      refine walk_cons_eq_ok.mpr ⟨.directory [], rfl, ?_⟩
      exact walk_append_eq_ok.mpr ⟨_, ht.walk_current (List.nil_append _), hwalk⟩

theorem dots_not_mem_absolute {p : Path} (ht : t.Proper) (hdots : ".." ∉ names p) :
    ".." ∉ names (t.absolute p) := by
  rw [names_absolute ht]
  split
  · exact hdots
  · rw [List.mem_cons, List.mem_append, not_or, not_or]
    exact ⟨by decide, fun h => (ht.isName _ h).notParent rfl, hdots⟩

end Absolute

end Covenant.FileTree
