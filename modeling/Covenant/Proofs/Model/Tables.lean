import Covenant.Proofs.Model.Index

namespace Covenant

namespace NameTable

variable {α : Type} [Named α]

-- What can be done with tables. A table stays at the place at which it was made.
inductive Call (α : Type)
  | new
  | sealedEmpty
  | sealedOf (entries : List α)
  | read (reader : Json.Reader α) (depth : Nat) (tree : Json.Tree)
  | insert (place : Nat) (entry : α)
  | finish (place : Nat)
  | clone (place : Nat)

-- The table after an insertion, which may be turned away.
def inserting (entry : α) (t : NameTable α) : NameTable α :=
  match t.insert entry with
  | .ok t' => t'
  | .error _ => t

namespace Call

-- The table that a call makes, if it makes one.
def made : Call α → List (NameTable α) → Option (NameTable α)
  | .new, _ => some .empty
  | .sealedEmpty, _ => some .sealedEmpty
  | .sealedOf entries, _ => (NameTable.sealedOf entries).toOption
  | .read reader depth tree, _ => (NameTable.reader reader depth tree).toOption
  | .clone place, ts => ts[place]?
  | .insert _ _, _ | .finish _, _ => none

-- What a call makes of the table that is at a place.
def changed (here : Nat) : Call α → NameTable α → NameTable α
  | .insert place entry, t => if place = here then t.inserting entry else t
  | .finish place, t => if place = here then t.toSealed else t
  | _, t => t

def perform (ts : List (NameTable α)) (c : Call α) : List (NameTable α) :=
  ts.mapIdx (fun here t => c.changed here t) ++ (c.made ts).toList

def run (calls : List (Call α)) (ts : List (NameTable α)) : List (NameTable α) :=
  calls.foldl perform ts

-- The entries that calls insert into the table that is at a place.
def taken (here : Nat) : List (Call α) → NameTable α → List α
  | [], _ => []
  | .insert place entry :: rest, t =>
      (if place = here ∧ (t.insert entry).isOk then [entry] else []) ++
        taken here rest ((Call.insert place entry).changed here t)
  | c :: rest, t => taken here rest (c.changed here t)

variable {c : Call α} {calls : List (Call α)} {ts : List (NameTable α)} {t t' : NameTable α}
variable {here : Nat}

theorem getElem?_perform (h : ts[here]? = some t) :
    (perform ts c)[here]? = some (c.changed here t) := by
  have hhere : here < (ts.mapIdx fun here t => c.changed here t).length := by
    obtain ⟨hlt, -⟩ := List.getElem?_eq_some_iff.mp h
    rwa [List.length_mapIdx]
  rw [perform, List.getElem?_append_left hhere, List.getElem?_mapIdx, h]
  rfl

theorem changed_of_sealed (h : t.isSealed = true) : c.changed here t = t := by
  cases c with
  | insert place entry =>
      have hinsert : t.insert entry = .error (.sealed (Named.name entry)) := by
        simp [NameTable.insert, h]
      simp [changed, inserting, hinsert]
  | finish place =>
      have hsealed : t.toSealed = t := by
        cases t
        cases h
        rfl
      simp [changed, hsealed]
  | _ => rfl

theorem built_changed (h : Built t) : Built (c.changed here t) := by
  cases c with
  | insert place entry =>
      simp only [changed, inserting]
      split_ifs
      · split
        · rename_i t' hinsert
          exact h.inserted hinsert
        · exact h
      · exact h
  | finish place =>
      simp only [changed]
      split_ifs
      · exact h.finished
      · exact h
  | _ => exact h

omit [Named α] in
theorem eq_ok_of_toOption {ε : Type} {x : Except ε (NameTable α)} (h : x.toOption = some t) :
    x = .ok t := by
  cases x with
  | error e => cases h
  | ok t' =>
      cases h
      rfl

theorem built_made (hts : ∀ t ∈ ts, Built t) (h : c.made ts = some t) : Built t := by
  cases c with
  | new =>
      cases h
      exact .new
  | sealedEmpty =>
      cases h
      exact Built.new.finished
  | sealedOf entries => exact .of_sealedOf (eq_ok_of_toOption h)
  | read reader depth tree => exact .of_reader (eq_ok_of_toOption h)
  | clone place => exact hts t (List.mem_of_getElem? h)
  | insert place entry => cases h
  | finish place => cases h

theorem built_perform (hts : ∀ t ∈ ts, Built t) (c : Call α) : ∀ t ∈ perform ts c, Built t := by
  intro t ht
  rcases List.mem_append.mp ht with ht | ht
  · obtain ⟨i, hi, rfl⟩ := List.mem_mapIdx.mp ht
    exact built_changed (hts _ (List.getElem_mem hi))
  · exact built_made hts (Option.mem_toList.mp ht)

-- All tables that there ever are were made entry by entry.
theorem built_run (calls : List (Call α)) (hts : ∀ t ∈ ts, Built t) :
    ∀ t ∈ run calls ts, Built t := by
  induction calls generalizing ts with
  | nil => exact hts
  | cons c rest ih => exact ih (built_perform hts c)

-- The table at a place only grows, by the entries that it takes, until it is sealed.
theorem getElem?_run (calls : List (Call α)) (h : ts[here]? = some t) :
    ∃ t', (run calls ts)[here]? = some t' ∧ t'.entries = t.entries ++ taken here calls t ∧
      (t.isSealed = true → t' = t) := by
  induction calls generalizing ts t with
  | nil => exact ⟨t, h, (List.append_nil _).symm, fun _ => rfl⟩
  | cons c rest ih =>
      obtain ⟨t', hrun, hentries, hsealed⟩ := ih (getElem?_perform (c := c) h)
      refine ⟨t', hrun, ?_, fun hs => ?_⟩
      · rw [hentries]
        cases c with
        | insert place entry =>
            simp only [taken, ← List.append_assoc]
            congr 1
            simp only [changed, inserting]
            by_cases hplace : place = here
            · simp only [hplace, if_true, true_and]
              cases hinsert : t.insert entry with
              | error e => simp [Except.isOk, Except.toBool]
              | ok next => simp [Except.isOk, Except.toBool, (insert_eq_ok hinsert).2.2]
            · simp [hplace]
        | finish place =>
            simp only [taken, changed]
            split_ifs <;> rfl
        | _ => rfl
      · rw [changed_of_sealed hs] at hsealed
        exact hsealed hs

-- A call that is turned away leaves all tables as they are.
theorem perform_of_rejected {entry : α} {e : TableError} (h : ts[here]? = some t)
    (hinsert : t.insert entry = .error e) : perform ts (.insert here entry) = ts := by
  rw [perform, made, Option.toList_none, List.append_nil]
  apply List.ext_getElem?
  intro place
  rw [List.getElem?_mapIdx]
  by_cases hplace : here = place
  · subst hplace
    simp [h, changed, inserting, hinsert]
  · simp [changed, hplace]

end Call

-- What a table answers to a name, and how it takes an entry.
structure Lawful (t : NameTable α) : Prop where
  indexed : t.Indexed
  only : ∀ (i j : Nat) a b, t.entries[i]? = some a → t.entries[j]? = some b →
    Named.name a = Named.name b → Named.name a ≠ unresolvedName → i = j
  found : ∀ name entry, t.get? name = some entry ↔
    name ≠ unresolvedName ∧ entry ∈ t.entries ∧ Named.name entry = name
  contains : ∀ name, t.contains name = true ↔ ∃ entry, t.get? name = some entry
  rejected : ∀ entry e, t.insert entry = .error e ↔
    t.isSealed = true ∧ e = .sealed (Named.name entry) ∨
      t.isSealed = false ∧ Named.name entry ∈ resolvedNames t.entries ∧
        e = .duplicate (Named.name entry)
  accepted : ∀ entry t', t.insert entry = .ok t' →
    t'.isSealed = false ∧ t'.entries = t.entries ++ [entry]

theorem Indexed.lawful {t : NameTable α} (h : t.Indexed) : t.Lawful where
  indexed := h
  only := fun _ _ _ _ => h.place_unique
  found := fun _ _ => h.get?_eq_some
  contains := fun name => by
    rw [h.contains_iff, mem_resolvedNames]
    simp only [h.get?_eq_some, exists_and_left]
  rejected := fun entry e => by
    rw [h.insert_eq]
    cases t.isSealed with
    | true => simp [eq_comm]
    | false =>
        simp only [Bool.false_eq_true, if_false, false_and, false_or, true_and]
        split_ifs with hmem
        · simp [hmem, eq_comm]
        · simp [hmem]
  accepted := fun _ _ hok => (insert_eq_ok hok).2

-- However tables are made, filled, sealed and copied, their indexes are true to their entries. So a
-- lookup finds the one entry with the name, a table is sealed for good, and tables with equal
-- entries cannot be told apart.
theorem tables_lawful [BEq α] (hname : ∀ a b : α, (a == b) = true → Named.name a = Named.name b)
    (calls : List (Call α)) :
    (∀ t ∈ Call.run calls [], t.Lawful) ∧
    (∀ place t entry e, (Call.run calls [])[place]? = some t → t.insert entry = .error e →
      Call.run (calls ++ [.insert place entry]) [] = Call.run calls []) ∧
    (∀ more place t, (Call.run calls [])[place]? = some t →
      ∃ t', (Call.run (calls ++ more) [])[place]? = some t' ∧
        t'.entries = t.entries ++ Call.taken place more t ∧ (t.isSealed = true → t' = t)) ∧
    (∀ entries : List α, Collects entries TableError.duplicate (sealedOf entries)) ∧
    (∀ (reader : Json.Reader α) depth trees entries,
      List.Forall₂ (fun tree entry => reader depth tree = .ok entry) trees entries →
      Collects entries (fun name => .mismatch (.duplicateName name))
        (NameTable.reader reader (depth + 1) (.array trees none))) ∧
    ∀ s ∈ Call.run calls [], ∀ t ∈ Call.run calls [], (s == t) = true → Alike s t := by
  have hbuilt : ∀ t ∈ Call.run calls [], Built t := Call.built_run calls (by simp)
  have happend : ∀ more, Call.run (calls ++ more) [] = Call.run more (Call.run calls []) :=
    fun more => List.foldl_append
  refine ⟨fun t ht => (hbuilt t ht).indexed.lawful, fun place t entry e ht hinsert => ?_,
    fun more place t ht => ?_, collects_sealedOf, fun _ _ _ _ h => collects_reader h,
    fun s hs t ht h => alike_of_beq hname (hbuilt s hs).indexed (hbuilt t ht).indexed h⟩
  · rw [happend]
    exact Call.perform_of_rejected ht hinsert
  · rw [happend]
    exact Call.getElem?_run more ht

end NameTable

-- Equal declarations have one name.

theorem Decl.name_of_beq {α : Type} [Named α] [BEq α]
    (h : ∀ a b : α, (a == b) = true → Named.name a = Named.name b) (a b : Decl α)
    (hab : (a == b) = true) : Named.name a = Named.name b := by
  cases a with
  | supported a =>
      cases b with
      | supported b => exact h a b hab
      | unsupported d => cases hab
  | unsupported d =>
      cases b with
      | supported b => cases hab
      | unsupported d' => rw [eq_of_beq (a := d) (b := d') hab]

-- The tables of a method are compared without their indexes too, but its name is compared first.
theorem Method.name_of_beq (a b : Method) (hab : (a == b) = true) : a.name = b.name := by
  cases a
  cases b
  change instBEqMethod.beq _ _ = true at hab
  simp only [instBEqMethod.beq, Bool.and_eq_true, beq_iff_eq] at hab
  exact hab.1

namespace Overloads

-- Methods that differ in whether their parameters are sealed.
def width (parameters : NameTable (Decl Binder)) : Decl Method :=
  .supported ⟨"Width", .pub, .named "int" false, parameters, .sealedEmpty, [], [], [], default⟩

def nameless : Decl Method := .unsupported ⟨unresolvedName, "operator", default⟩

-- The second `Width` is turned away as a duplicate, and the last entry since the table is sealed.
def calls : List (NameTable.Call (Decl Method)) :=
  [.new, .insert 0 (width .sealedEmpty), .insert 0 nameless, .insert 0 nameless,
    .insert 0 (width .empty), .clone 0, .finish 0, .insert 0 (width .empty),
    .sealedOf [width .sealedEmpty, nameless, nameless],
    .sealedOf [nameless, width .empty, width .empty],
    .insert 1 (.unsupported ⟨"Height", "generic", default⟩)]

end Overloads

theorem NameTable.tables_lawful_overloads :
    ∃ first second third, Call.run Overloads.calls [] = [first, second, third] ∧
      first.size = 3 ∧ second.size = 4 ∧ first.isSealed = true ∧ second.isSealed = false ∧
      (first == third) = true ∧ Alike first third ∧
      first.get? "Width" = some (Overloads.width .sealedEmpty) ∧
      first.get? unresolvedName = none ∧
      first.insert (Overloads.width .empty) = .error (.sealed "Width") ∧
      second.insert (Overloads.width .empty) = .error (.duplicate "Width") := by
  have hname : ∀ a b : Decl Method, (a == b) = true → Named.name a = Named.name b :=
    Decl.name_of_beq Method.name_of_beq
  obtain ⟨hlawful, -, -, -, -, halike⟩ := tables_lawful hname Overloads.calls
  refine ⟨_, _, _, rfl, rfl, rfl, rfl, rfl, rfl, ?_, ?_, rfl, rfl, rfl⟩
  · exact halike _ (List.mem_of_getElem? (i := 0) rfl) _ (List.mem_of_getElem? (i := 2) rfl) rfl
  · have hfirst := hlawful _ (List.mem_of_getElem? (i := 0) rfl)
    exact (hfirst.found _ _).mpr ⟨by decide, List.mem_cons_self, rfl⟩

end Covenant
