import Covenant.Settings.Discovery
import Covenant.Proofs.Files.Tree
import Mathlib.Logic.Relation

namespace Covenant

-- The directory that a node is in, or is.
def Node.home : Node → List String
  | .file names => names.dropLast
  | .directory names => names

-- Of a directory and those above it, the first one with a property.
structure Nearest (S : List String → Prop) (d a : List String) : Prop where
  holds : S a
  above : a <+: d
  closest : ∀ b, S b → b <+: d → b <+: a

-- That what was found is the settings file of the nearest directory with a property, and nothing
-- where no directory has it.
def FindsNearest (S : List String → Prop) (d : List String)
    (found : Option (Except FileError Node)) : Prop :=
  found = none ∧ (∀ a, a <+: d → ¬S a) ∨
  ∃ a, Nearest S d a ∧ found = some (.ok (.file (a ++ [settingsFile])))

section Nearest

variable {S T : List String → Prop} {d e a b : List String}
  {found other : Option (Except FileError Node)}

theorem Nearest.unique (ha : Nearest S d a) (hb : Nearest S d b) : a = b :=
  (hb.closest a ha.holds ha.above).eq_of_length_le (ha.closest b hb.holds hb.above).length_le

theorem nearest_self (h : S d) : Nearest S d d := ⟨h, List.prefix_rfl, fun _ _ hb => hb⟩

theorem nearest_iff_inits :
    Nearest S d a ↔ S a ∧ a <+: d ∧ ∀ b ∈ d.inits, S b → b <+: a := by
  constructor
  · intro h
    exact ⟨h.holds, h.above, fun b hb hS => h.closest b hS ((List.mem_inits b d).mp hb)⟩
  · rintro ⟨hS, had, hclosest⟩
    exact ⟨hS, had, fun b hb hbd => hclosest b ((List.mem_inits b d).mpr hbd) hb⟩

instance [DecidablePred S] : Decidable (Nearest S d a) := decidable_of_iff _ nearest_iff_inits.symm

theorem Nearest.of_narrower (hed : e <+: d) (hT : ∀ a, a <+: d → (T a ↔ S a ∧ a <+: e))
    (h : Nearest S e a) : Nearest T d a := by
  have had := h.above.trans hed
  refine ⟨(hT a had).mpr ⟨h.holds, h.above⟩, had, fun b hb hbd => ?_⟩
  obtain ⟨hS, hbe⟩ := (hT b hbd).mp hb
  exact h.closest b hS hbe

theorem FindsNearest.of_narrower (hed : e <+: d) (hT : ∀ a, a <+: d → (T a ↔ S a ∧ a <+: e))
    (h : FindsNearest S e found) : FindsNearest T d found := by
  rcases h with ⟨hnone, hempty⟩ | ⟨a, ha, hfound⟩
  · refine .inl ⟨hnone, fun a had ha => ?_⟩
    obtain ⟨hS, hae⟩ := (hT a had).mp ha
    exact hempty a hae hS
  · exact .inr ⟨a, ha.of_narrower hed hT, hfound⟩

theorem exists_nearest (h : S b) (hd : b <+: d) : ∃ a, Nearest S d a := by
  induction d using List.reverseRecOn with
  | nil =>
      obtain rfl := List.prefix_nil.mp hd
      exact ⟨[], nearest_self h⟩
  | append_singleton d name ih =>
      by_cases hlast : S (d ++ [name])
      · exact ⟨_, nearest_self hlast⟩
      · have hupper : ∀ a, S a → a <+: d ++ [name] → a <+: d := fun a ha had =>
          (List.prefix_concat_iff.mp had).resolve_left fun e => hlast (e ▸ ha)
        obtain ⟨a, ha⟩ := ih (hupper b h hd)
        refine ⟨a, ha.of_narrower (List.prefix_append _ _) fun c hc => ?_⟩
        exact ⟨fun hS => ⟨hS, hupper c hS hc⟩, fun hS => hS.1⟩

theorem FindsNearest.unique (h : FindsNearest S d found) (h' : FindsNearest S d other) :
    found = other := by
  rcases h with ⟨rfl, hempty⟩ | ⟨a, ha, rfl⟩ <;> rcases h' with ⟨rfl, hempty'⟩ | ⟨b, hb, rfl⟩
  · rfl
  · exact absurd hb.holds (hempty b hb.above)
  · exact absurd ha.holds (hempty' a ha.above)
  · rw [ha.unique hb]

-- A search that sees only some of the directories is right exactly if it sees the nearest.
theorem FindsNearest.iff_sees (h : FindsNearest S d found) (hST : ∀ a, S a → T a) :
    FindsNearest T d found ↔ ∀ a, Nearest T d a → S a := by
  constructor
  · intro hT a ha
    rcases hT with ⟨-, hempty⟩ | ⟨b, hb, hfound⟩
    · exact absurd ha.holds (hempty a ha.above)
    · obtain rfl := hb.unique ha
      rcases h with ⟨hnone, -⟩ | ⟨c, hc, hfound'⟩
      · cases hnone.symm.trans hfound
      · have hfile := Except.ok.inj (Option.some.inj (hfound.symm.trans hfound'))
        rw [List.append_cancel_right (Node.file.inj hfile)]
        exact hc.holds
  · intro hsees
    rcases h with ⟨hnone, hempty⟩ | ⟨a, ha, hfound⟩
    · refine .inl ⟨hnone, fun b hd hb => ?_⟩
      obtain ⟨a, ha⟩ := exists_nearest hb hd
      exact hempty a ha.above (hsees a ha)
    · refine .inr ⟨a, ⟨hST a ha.holds, ha.above, fun b hb hd => ?_⟩, hfound⟩
      obtain ⟨c, hc⟩ := exists_nearest hb hd
      have hca : c <+: a := ha.closest c (hsees c hc) hc.above
      exact (hc.closest b hb hd).trans hca

end Nearest

namespace FileTree

variable {t : FileTree}

section Climb

-- From a path to those that taking its parent again and again gives.
def Climbs : Path → Path → Prop := Relation.ReflTransGen fun p q => p.parent? = some q

theorem Climbs.cases {p q : Path} (h : Climbs p q) :
    q = p ∨ ∃ parent, p.parent? = some parent ∧ Climbs parent q := by
  rcases Relation.ReflTransGen.cases_head h with rfl | ⟨parent, hparent, hrest⟩
  · exact .inl rfl
  · exact .inr ⟨parent, hparent, hrest⟩

theorem Reaches.unique {p : Path} {d e : List String} (hd : t.Reaches p d) (he : t.Reaches p e) :
    d = e :=
  Node.directory.inj (Except.ok.inj (hd.symm.trans he))

theorem dots_not_mem_parent {p q : Path} (h : p.parent? = some q) (hdots : ".." ∉ stepNames p) :
    ".." ∉ stepNames q := by
  obtain ⟨-, -, -, ⟨name, hsteps⟩ | ⟨-, rfl⟩⟩ := Path.parent?_eq_some h
  · intro hmem
    apply hdots
    rw [stepNames, hsteps, List.map_append]
    exact List.mem_append_left _ hmem
  · exact List.not_mem_nil

-- A parent leads one directory up, but for a path that stays in the current directory: its parent
-- is the empty path, which leads there too.
theorem Reaches.parent {p q : Path} {d : List String} (h : t.Reaches p d)
    (hdots : ".." ∉ stepNames p) (hparent : p.parent? = some q) :
    ∃ e, t.Reaches q e ∧ ((∃ name, d = e ++ [name]) ∨ d = e ∧ d = t.origin p) := by
  obtain ⟨-, -, hroot, ⟨name, hsteps⟩ | ⟨hsteps, rfl⟩⟩ := Path.parent?_eq_some hparent
  · refine ⟨_, reaches_of_steps h (dots_not_mem_parent hparent hdots) hroot hsteps, .inl ?_⟩
    refine ⟨String.ofList name, ?_⟩
    rw [h.eq hdots, stepNames, hsteps, List.map_append, ← List.append_assoc]
    rfl
  · refine ⟨d, ?_, .inr ⟨rfl, ?_⟩⟩
    · rw [Reaches, stepNames, hsteps] at h
      rw [Reaches, origin_congr hroot]
      exact h
    · rw [h.eq hdots, stepNames, hsteps, List.map_nil, List.append_nil]

theorem Reaches.parent_isPrefix {p q : Path} {d e : List String} (h : t.Reaches p d)
    (hdots : ".." ∉ stepNames p) (hparent : p.parent? = some q) (hq : t.Reaches q e) : e <+: d := by
  obtain ⟨e', hq', ⟨name, rfl⟩ | ⟨rfl, -⟩⟩ := h.parent hdots hparent
  · rw [hq.unique hq']
    exact List.prefix_append _ _
  · rw [hq.unique hq']

theorem origin_isPrefix {p : Path} {d : List String} (h : t.Reaches p d)
    (hdots : ".." ∉ stepNames p) : t.origin p <+: d :=
  ⟨_, (h.eq hdots).symm⟩

theorem Climbs.isPrefix {p q : Path} {d a : List String} (h : Climbs p q) (hp : t.Reaches p d)
    (hdots : ".." ∉ stepNames p) (hq : t.Reaches q a) : t.origin p <+: a ∧ a <+: d := by
  induction h using Relation.ReflTransGen.head_induction_on generalizing d with
  | refl =>
      obtain rfl := hq.unique hp
      exact ⟨origin_isPrefix hp hdots, List.prefix_rfl⟩
  | head hparent _ ih =>
      obtain ⟨e, he, -⟩ := hp.parent hdots hparent
      obtain ⟨horigin, hae⟩ := ih he (dots_not_mem_parent hparent hdots)
      rw [origin_congr (Path.parent?_eq_some hparent).2.2.1] at horigin
      exact ⟨horigin, hae.trans (hp.parent_isPrefix hdots hparent he)⟩

-- Climbing passes every directory up to where the names of the path start.
theorem exists_climbs {p : Path} {d a : List String} (h : t.Reaches p d)
    (hdots : ".." ∉ stepNames p) (horigin : t.origin p <+: a) (had : a <+: d) :
    ∃ q, Climbs p q ∧ t.Reaches q a ∧ (q = p ∨ q <+: p ∧ q.length < p.length) := by
  induction hn : p.length using Nat.strong_induction_on generalizing p d with
  | _ n ih =>
      by_cases htop : a = d
      · exact ⟨p, .refl, htop ▸ h, .inl rfl⟩
      · have hbelow : d ≠ t.origin p := by
          rintro rfl
          exact htop (had.eq_of_length_le horigin.length_le)
        cases hparent : p.parent? with
        | none =>
            refine absurd ?_ hbelow
            rw [h.eq hdots, stepNames, Path.parent?_eq_none hparent, List.map_nil, List.append_nil]
        | some parent =>
            obtain ⟨hpre, hshorter, hroot, -⟩ := Path.parent?_eq_some hparent
            obtain ⟨e, he, ⟨name, rfl⟩ | ⟨-, hd⟩⟩ := h.parent hdots hparent
            · have hae : a <+: e := (List.prefix_concat_iff.mp had).resolve_left htop
              obtain ⟨q, hclimbs, hq, hup⟩ := ih parent.length (by omega) he
                (dots_not_mem_parent hparent hdots) (origin_congr hroot ▸ horigin) hae rfl
              refine ⟨q, .head hparent hclimbs, hq, .inr ?_⟩
              rcases hup with rfl | ⟨hqpre, hqlt⟩
              · exact ⟨hpre, hn ▸ hshorter⟩
              · exact ⟨hqpre.trans hpre, by omega⟩
            · exact absurd hd hbelow

end Climb

section Search

def HoldsSettings (t : FileTree) (d : List String) : Prop := t.HasFile (d ++ [settingsFile])

instance : DecidablePred t.HoldsSettings := fun d =>
  inferInstanceAs (Decidable (t.HasFile (d ++ [settingsFile])))

-- The directories whose settings file a search that starts from a path can come to: a path on the
-- way up leads to them, and is not too long with the name of the file after it.
def SeesFrom (t : FileTree) (p : Path) (a : List String) : Prop :=
  t.HoldsSettings a ∧
  ∃ q, Climbs p q ∧ t.Reaches q a ∧ (q.join settingsFile).byteSize ≤ 4095

theorem seesFrom_iff {p : Path} {a : List String} :
    t.SeesFrom p a ↔
      t.HoldsSettings a ∧ t.Reaches p a ∧ (p.join settingsFile).byteSize ≤ 4095 ∨
      ∃ parent, p.parent? = some parent ∧ t.SeesFrom parent a := by
  constructor
  · rintro ⟨hholds, q, hclimbs, hq, hfits⟩
    rcases hclimbs.cases with rfl | ⟨parent, hparent, hrest⟩
    · exact .inl ⟨hholds, hq, hfits⟩
    · exact .inr ⟨parent, hparent, hholds, q, hrest, hq, hfits⟩
  · rintro (⟨hholds, hp, hfits⟩ | ⟨parent, hparent, hholds, q, hrest, hq, hfits⟩)
    · exact ⟨hholds, p, .refl, hp, hfits⟩
    · exact ⟨hholds, q, .head hparent hrest, hq, hfits⟩

theorem isName_settingsFile : IsName settingsFile := by
  constructor <;> decide

theorem isFile_eq_true {p : Path} : t.isFile p = true ↔ ∃ file, t.find p = .ok (.file file) := by
  rw [isFile]
  split
  · rename_i file h
    exact ⟨fun _ => ⟨file, h⟩, fun _ => rfl⟩
  · rename_i h
    constructor
    · intro hfalse
      cases hfalse
    · rintro ⟨file, hfile⟩
      exact absurd hfile (h file)

theorem access_isFile (t : FileTree) (p : Path) : t.access.isFile p = pure (t.isFile p) := rfl

theorem searchWithin_succ (t : FileTree) (steps : Nat) (p : Path) :
    (Settings.searchWithin t.access (steps + 1) p).run =
      if t.isFile (p.join settingsFile) then some (p.join settingsFile)
      else p.parent?.bind fun parent => (Settings.searchWithin t.access steps parent).run := by
  rw [Settings.searchWithin, access_isFile, pure_bind]
  cases t.isFile (p.join settingsFile) <;> cases p.parent? <;> rfl

-- The settings file in a directory is found if it is there and the path to it is not too long.
theorem isFile_join_iff {p : Path} {d : List String} (h : t.Reaches p d) (hnul : '\x00' ∉ p) :
    t.isFile (p.join settingsFile) = true ↔
      t.HoldsSettings d ∧ (p.join settingsFile).byteSize ≤ 4095 := by
  rw [isFile_eq_true]
  constructor
  · rintro ⟨file, hfind⟩
    have hfits := (find_eq_ok.mp hfind).2.2.1
    obtain ⟨rfl, hfile⟩ := (find_join_eq_file isName_settingsFile h hnul hfits).mp hfind
    exact ⟨hfile, hfits⟩
  · rintro ⟨hholds, hfits⟩
    exact ⟨_, (find_join_eq_file isName_settingsFile h hnul hfits).mpr ⟨rfl, hholds⟩⟩

-- Each parent is shorter, so that the steps do not run out.
theorem searchWithin_findsNearest {p : Path} {d : List String} {steps : Nat}
    (hlength : p.length < steps) (hdots : ".." ∉ stepNames p) (hnul : '\x00' ∉ p)
    (h : t.Reaches p d) :
    FindsNearest (t.SeesFrom p) d ((Settings.searchWithin t.access steps p).run.map t.find) := by
  induction steps generalizing p d with
  | zero => omega
  | succ steps ih =>
      rw [searchWithin_succ]
      by_cases hhere : t.HoldsSettings d ∧ (p.join settingsFile).byteSize ≤ 4095
      · rw [if_pos ((isFile_join_iff h hnul).mpr hhere)]
        have hfind : t.find (p.join settingsFile) = .ok (.file (d ++ [settingsFile])) :=
          (find_join_eq_file isName_settingsFile h hnul hhere.2).mpr ⟨rfl, hhere.1⟩
        have hsees : t.SeesFrom p d := seesFrom_iff.mpr (.inl ⟨hhere.1, h, hhere.2⟩)
        exact .inr ⟨d, nearest_self hsees, congrArg some hfind⟩
      · rw [if_neg fun hfile => hhere ((isFile_join_iff h hnul).mp hfile)]
        have hup : ∀ a, t.SeesFrom p a ↔
            ∃ parent, p.parent? = some parent ∧ t.SeesFrom parent a := by
          intro a
          rw [seesFrom_iff, or_iff_right]
          rintro ⟨hholds, ha, hfits⟩
          obtain rfl := h.unique ha
          exact hhere ⟨hholds, hfits⟩
        cases hparent : p.parent? with
        | none =>
            refine .inl ⟨rfl, fun a _ ha => ?_⟩
            obtain ⟨parent, he, -⟩ := (hup a).mp ha
            cases hparent.symm.trans he
        | some q =>
            obtain ⟨hpre, hshorter, -, -⟩ := Path.parent?_eq_some hparent
            have hdots' := dots_not_mem_parent hparent hdots
            obtain ⟨e, hq, -⟩ := h.parent hdots hparent
            refine (ih (by omega) hdots' (fun hmem => hnul (hpre.subset hmem)) hq).of_narrower
              (h.parent_isPrefix hdots hparent hq) fun a _ => ?_
            rw [hup, hparent]
            constructor
            · rintro ⟨_, he, hsees⟩
              obtain rfl := Option.some.inj he
              obtain ⟨-, r, hclimbs, hr, -⟩ := id hsees
              exact ⟨hsees, (hclimbs.isPrefix hq hdots' hr).2⟩
            · rintro ⟨hsees, -⟩
              exact ⟨q, rfl, hsees⟩

end Search

section Discovery

-- Where a search starts: in the directory of a file, or in the directory itself.
def searchStart (t : FileTree) (p : Path) : Option Path :=
  if t.isFile p then p.parent? else some p

def Sees (t : FileTree) (p : Path) (a : List String) : Prop :=
  ∃ start, t.searchStart p = some start ∧ t.SeesFrom start a

-- What the path found by a search leads to.
def discovered (t : FileTree) (p : Path) : Option (Except FileError Node) :=
  (Settings.find t.access p).run.map t.find

-- That the longest path looked at is not too long for a path.
def Fits (t : FileTree) (p : Path) : Prop :=
  p.byteSize ≤ 4095 ∧ ∀ start ∈ t.searchStart p, (start.join settingsFile).byteSize ≤ 4095

instance (p : Path) : Decidable (t.Fits p) := inferInstanceAs (Decidable (_ ∧ _))

theorem find_eq_searchWithin (t : FileTree) (p : Path) :
    (Settings.find t.access p).run = (t.searchStart p).bind fun start =>
      (Settings.searchWithin t.access (start.length + 1) start).run := by
  rw [Settings.find, searchStart, access_isFile, pure_bind]
  cases t.isFile p <;> cases p.parent? <;> rfl

theorem searchStart_directory {p : Path} {d : List String}
    (hnode : t.find p = .ok (.directory d)) : t.searchStart p = some p := by
  refine if_neg fun hfile => ?_
  obtain ⟨file, hfind⟩ := isFile_eq_true.mp hfile
  cases hnode.symm.trans hfind

theorem searchStart_reaches {p : Path} {node : Node} (hnode : t.find p = .ok node)
    (hdots : ".." ∉ stepNames p) :
    ∃ start, t.searchStart p = some start ∧ t.Reaches start node.home ∧ start <+: p ∧
      start.rooted = p.rooted ∧ ".." ∉ stepNames start := by
  obtain ⟨-, -, -, hnames⟩ := find_eq_ok.mp hnode
  have hwalk : t.walk (.directory (t.origin p)) (stepNames p) = .ok node := walk_steps hnames
  cases node with
  | directory d => exact ⟨p, searchStart_directory hnode, hwalk, List.prefix_rfl, rfl, hdots⟩
  | file file =>
      have hstart : t.searchStart p = p.parent? := if_pos (isFile_eq_true.mpr ⟨file, hnode⟩)
      obtain ⟨hfile, hne⟩ | hfile := walk_below (stepNames_clean hdots) hwalk
      · have hsome : p.steps ≠ [] := fun e => hne (congrArg (List.map String.ofList) e)
        cases hparent : p.parent? with
        | none => exact absurd (Path.parent?_eq_none hparent) hsome
        | some q =>
            obtain ⟨hpre, -, hroot, ⟨name, hsteps⟩ | ⟨hnil, -⟩⟩ := Path.parent?_eq_some hparent
            · have hdots' := dots_not_mem_parent hparent hdots
              have hq := reaches_of_steps hwalk hdots' hroot hsteps
              have hhome : Node.home (.file file) = t.origin p ++ stepNames q := by
                rw [hfile, Node.home, stepNames, hsteps, List.map_append, ← List.append_assoc]
                exact List.dropLast_concat
              exact ⟨q, hstart.trans hparent, hhome ▸ hq, hpre, hroot, hdots'⟩
            · exact absurd hnil hsome
      · cases hfile

theorem discovered_findsNearest {p : Path} {node : Node} (hnode : t.find p = .ok node)
    (hdots : ".." ∉ stepNames p) : FindsNearest (t.Sees p) node.home (t.discovered p) := by
  have hnul := (find_eq_ok.mp hnode).2.1
  obtain ⟨start, hstart, hreaches, hpre, -, hdots'⟩ := searchStart_reaches hnode hdots
  have hsees : t.Sees p = t.SeesFrom start := by
    funext a
    simp only [Sees, hstart, Option.some.injEq, exists_eq_left']
  rw [discovered, find_eq_searchWithin, hstart, hsees]
  exact searchWithin_findsNearest (Nat.lt_succ_self _) hdots' (fun h => hnul (hpre.subset h))
    hreaches

theorem Sees.holds {p : Path} {a : List String} (h : t.Sees p a) : t.HoldsSettings a := by
  obtain ⟨_, -, hholds, -⟩ := h
  exact hholds

theorem sees_iff {p : Path} {node : Node} (hnode : t.find p = .ok node)
    (hdots : ".." ∉ stepNames p) (hfits : t.Fits p) (a : List String) :
    t.Sees p a ↔ t.HoldsSettings a ∧ t.origin p <+: a ∧ a <+: node.home := by
  obtain ⟨start, hstart, hreaches, -, hroot, hdots'⟩ := searchStart_reaches hnode hdots
  rw [← origin_congr hroot]
  constructor
  · rintro ⟨_, he, hholds, q, hclimbs, hq, -⟩
    obtain rfl := Option.some.inj (hstart.symm.trans he)
    exact ⟨hholds, hclimbs.isPrefix hreaches hdots' hq⟩
  · rintro ⟨hholds, horigin, had⟩
    obtain ⟨q, hclimbs, hq, hup⟩ := exists_climbs hreaches hdots' horigin had
    refine ⟨start, hstart, hholds, q, hclimbs, hq, ?_⟩
    have hlimit := hfits.2 start hstart
    rcases hup with rfl | ⟨hpre, hshorter⟩
    · exact hlimit
    · exact (Path.byteSize_join_le hpre hshorter settingsFile).trans hlimit

-- The search goes by how its path is written. It finds the nearest settings file exactly if it
-- sees it, and within the length of a path it sees what lies below where the names in the path
-- start: that is the root for an absolute path, and the current directory for any other.
theorem discovery_nearest_iff (t : FileTree) (p : Path) (node : Node) (hnode : t.find p = .ok node)
    (hdots : ".." ∉ names p) :
    FindsNearest (t.Sees p) node.home (t.discovered p) ∧
    (FindsNearest t.HoldsSettings node.home (t.discovered p) ↔
      ∀ a, Nearest t.HoldsSettings node.home a → t.Sees p a) ∧
    (t.Fits p →
      ∀ a, t.Sees p a ↔ t.HoldsSettings a ∧ t.origin p <+: a ∧ a <+: node.home) ∧
    (t.Proper → t.Fits (t.absolute p) →
      FindsNearest t.HoldsSettings node.home (t.discovered (t.absolute p)) ∧
      (t.discovered p = t.discovered (t.absolute p) ↔
        ∀ a, Nearest t.HoldsSettings node.home a → t.Sees p a)) := by
  have hclean : ".." ∉ stepNames p := fun h => hdots (names_of_mem_stepNames h)
  have hfound := discovered_findsNearest hnode hclean
  have hiff := hfound.iff_sees fun _ => Sees.holds
  refine ⟨hfound, hiff, sees_iff hnode hclean, fun ht hfits => ?_⟩
  have hnode' := find_absolute ht hnode hfits.1
  have hclean' : ".." ∉ stepNames (t.absolute p) := fun h =>
    dots_not_mem_absolute ht hdots (names_of_mem_stepNames h)
  have hroot : t.origin (t.absolute p) = [] := if_pos (rooted_absolute t p)
  have habsolute : FindsNearest t.HoldsSettings node.home (t.discovered (t.absolute p)) := by
    refine ((discovered_findsNearest hnode' hclean').iff_sees fun _ => Sees.holds).mpr ?_
    intro a ha
    rw [sees_iff hnode' hclean' hfits, hroot]
    exact ⟨ha.holds, List.nil_prefix, ha.above⟩
  refine ⟨habsolute, ?_⟩
  rw [← hiff]
  constructor
  · intro h
    exact h ▸ habsolute
  · intro h
    exact h.unique habsolute

-- `/w/vow.toml` and `/w/sub/m.json`.
def workspace (current : List String) : FileTree :=
  ⟨[(["w", "vow.toml"], ""), (["w", "sub", "m.json"], "{}")], [], current⟩

theorem proper_workspace : (workspace ["w"]).Proper := by
  constructor
  · intro name hname
    obtain rfl := List.mem_singleton.mp hname
    constructor <;> decide
  · have hfiles : ∀ d ∈ List.inits ["w"], ¬(workspace ["w"]).HasFile d := by decide
    intro d hd
    exact hfiles d ((List.mem_inits d _).mpr hd)

theorem discovery_nearest_iff_below :
    FindsNearest (workspace ["w"]).HoldsSettings ["w", "sub"]
      ((workspace ["w"]).discovered "sub/m.json".toList) ∧
    (workspace ["w"]).discovered "sub/m.json".toList =
      (workspace ["w"]).discovered ((workspace ["w"]).absolute "sub/m.json".toList) := by
  obtain ⟨-, hright, hsees, hsame⟩ := discovery_nearest_iff (workspace ["w"]) "sub/m.json".toList
    (.file ["w", "sub", "m.json"]) (by decide) (by decide)
  have hnearest : Nearest (workspace ["w"]).HoldsSettings ["w", "sub"] ["w"] := by decide
  have hseen : ∀ a, Nearest (workspace ["w"]).HoldsSettings ["w", "sub"] a →
      (workspace ["w"]).Sees "sub/m.json".toList a := by
    intro a ha
    obtain rfl := ha.unique hnearest
    exact (hsees (by decide) ["w"]).mpr ⟨hnearest.holds, by decide, hnearest.above⟩
  exact ⟨hright.mpr hseen, (hsame proper_workspace (by decide)).2.mpr hseen⟩

-- A directory that is reached by a path too long to put a name after it is not looked into, since
-- the next path looked at leads to the directory above.
theorem not_sees_of_too_long {p : Path} {d : List String} (hnode : t.find p = .ok (.directory d))
    (hdots : ".." ∉ names p) (hbelow : d ≠ t.origin p)
    (hlong : 4095 < (p.join settingsFile).byteSize) : ¬t.Sees p d := by
  have hclean : ".." ∉ stepNames p := fun h => hdots (names_of_mem_stepNames h)
  have hp : t.Reaches p d := walk_steps (find_eq_ok.mp hnode).2.2.2
  rintro ⟨_, hstart, hsees⟩
  obtain rfl := Option.some.inj ((searchStart_directory hnode).symm.trans hstart)
  rcases seesFrom_iff.mp hsees with ⟨-, -, hfits⟩ | ⟨parent, hparent, -, q, hclimbs, hq, -⟩
  · omega
  · obtain ⟨e, he, ⟨name, rfl⟩ | ⟨-, hd⟩⟩ := hp.parent hclean hparent
    · have hle := (hclimbs.isPrefix he (dots_not_mem_parent hparent hclean) hq).2.length_le
      rw [List.length_append, List.length_singleton] at hle
      omega
    · exact hbelow hd

-- `d/./.` and so on, in a tree with the file `/d/vow.toml`.
def dotted : Nat → Path
  | 0 => ['d']
  | n + 1 => dotted n ++ ['/', '.']

def single : FileTree := ⟨[(["d", "vow.toml"], "")], [], []⟩

theorem mem_dotted {n : Nat} {c : Char} (h : c ∈ dotted n) : c ∈ ['d', '/', '.'] := by
  induction n with
  | zero =>
      obtain rfl := List.mem_singleton.mp h
      exact List.mem_cons_self
  | succ n ih =>
      rcases List.mem_append.mp h with h | h
      · exact ih h
      · exact List.mem_cons_of_mem _ h

theorem dots_not_mem_dotted (n : Nat) : ".." ∉ names (dotted n) := by
  induction n with
  | zero => decide
  | succ n ih =>
      rw [dotted, names, Path.names_append_separator, List.map_append, List.mem_append, not_or]
      exact ⟨ih, by decide⟩

theorem byteSize_dotted (n : Nat) : (dotted n).byteSize = 2 * n + 1 := by
  induction n with
  | zero => rfl
  | succ n ih =>
      have hdot : Path.byteSize ['/', '.'] = 2 := rfl
      rw [dotted, Path.byteSize_append, ih, hdot]
      omega

theorem find_dotted {n : Nat} (hn : n ≤ 2047) : single.find (dotted n) = .ok (.directory ["d"]) := by
  have hsteps : (dotted n).steps = [['d']] := by
    clear hn
    induction n with
    | zero => rfl
    | succ n ih =>
        rw [dotted, Path.steps_append_separator, ih]
        rfl
  have hsize := byteSize_dotted n
  have horigin : single.origin (dotted n) = [] := by
    rw [origin]
    split <;> rfl
  refine find_eq_ok.mpr ⟨?_, fun h => absurd (mem_dotted h) (by decide), by omega, ?_⟩
  · intro h
    rw [h] at hsize
    cases hsize
  · rw [horigin]
    apply walk_of_steps
    rw [← Path.steps, hsteps]
    rfl

-- The nearest settings file is missed above the current directory by a path that is not absolute,
-- and in the directory itself by one that is too long.
theorem nearest_settings_missed :
    ((workspace ["w", "sub"]).find "m.json".toList = .ok (.file ["w", "sub", "m.json"]) ∧
      Nearest (workspace ["w", "sub"]).HoldsSettings ["w", "sub"] ["w"] ∧
      (workspace ["w", "sub"]).discovered "m.json".toList = none ∧
      (workspace ["w", "sub"]).discovered "/w/sub/m.json".toList =
        some (.ok (.file ["w", "vow.toml"]))) ∧
    single.find (dotted 2046) = .ok (.directory ["d"]) ∧
    Nearest single.HoldsSettings ["d"] ["d"] ∧
    ¬FindsNearest single.HoldsSettings ["d"] (single.discovered (dotted 2046)) := by
  have hnode := find_dotted (n := 2046) (by decide)
  have hnearest : Nearest single.HoldsSettings ["d"] ["d"] := by decide
  refine ⟨by decide, hnode, hnearest, fun hfound => ?_⟩
  have hclean : ".." ∉ stepNames (dotted 2046) := fun h =>
    dots_not_mem_dotted 2046 (names_of_mem_stepNames h)
  have hsees := ((discovered_findsNearest hnode hclean).iff_sees fun _ => Sees.holds).mp hfound
  have hlong : 4095 < ((dotted 2046).join settingsFile).byteSize := by
    have hjoin := (Path.byteSize_join (dotted 2046) settingsFile).1
    have hname : Path.byteSize settingsFile.toList = 8 := by decide
    rw [byteSize_dotted, hname] at hjoin
    omega
  have hbelow : ["d"] ≠ single.origin (dotted 2046) := by
    rw [origin]
    split <;> decide
  exact not_sees_of_too_long hnode (dots_not_mem_dotted 2046) hbelow hlong (hsees ["d"] hnearest)

end Discovery

end FileTree

end Covenant
