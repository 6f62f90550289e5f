import Covenant.Proofs.Data.NameMap
import Covenant.Proofs.Json.Reader
import Covenant.Term.Json

namespace Covenant

open Json (Reader Fields)
open Json.Reader (Reads)

variable {limit : Nat}

theorem TermSort.reads (s : TermSort) : Reads TermSort.reader limit s.toJson s := by
  cases s with
  | int => exact .unit rfl
  | bool => exact .unit rfl

theorem Symbol.reads (s : Symbol) : Reads Symbol.reader limit s.toJson s := by
  have hfields : Fields.Written limit
      (.cons (.required "name" Reader.string) (.cons (.required "sort" TermSort.reader) .nil))
      [("name", .str s.name), ("sort", s.sort.toJson)] (s.name, s.sort, ()) :=
    .cons (.string s.name) (by simp [Json.Field.required]) (.cons s.sort.reads (by simp) .nil)
  exact ((Reads.record hfields).map _).mono (by omega)

theorem Symbol.exact_toJson (s : Symbol) : s.toJson.Exact := by
  cases s with
  | mk name sort => cases sort <;> exact ⟨trivial, trivial, trivial⟩

namespace Term

theorem reads_pair {self : Reader Term} {l r : Term} (make : Term → Term → Term)
    (hl : Reads self limit l.toJson l) (hr : Reads self limit r.toJson r) :
    Reads (pairReader self make) limit (.arr [l.toJson, r.toJson]) (make l r) := by
  have hparts : Fields.Listed limit
      (.cons (.required "" self) (.cons (.required "" self) .nil)) [l.toJson, r.toJson] (l, r, ()) :=
    .cons hl (.cons hr .nil)
  exact ((Reads.tuple hparts).map _).mono (by omega)

theorem reads_triple {self : Reader Term} {a b c : Term} (make : Term → Term → Term → Term)
    (ha : Reads self limit a.toJson a) (hb : Reads self limit b.toJson b)
    (hc : Reads self limit c.toJson c) :
    Reads (tripleReader self make) limit (.arr [a.toJson, b.toJson, c.toJson]) (make a b c) := by
  have hparts : Fields.Listed limit
      (.cons (.required "" self) (.cons (.required "" self) (.cons (.required "" self) .nil)))
      [a.toJson, b.toJson, c.toJson] (a, b, c, ()) :=
    .cons ha (.cons hb (.cons hc .nil))
  exact ((Reads.tuple hparts).map _).mono (by omega)

mutual

-- Each level of a term opens a container, so as many levels are read as containers may be open.
theorem reads_within (t : Term) (limit : Nat) : Reads (readerWithin limit) limit t.toJson t := by
  cases limit with
  | zero =>
      intro depth hdepth
      omega
  | succ limit =>
      cases t with
      | int n => exact .content rfl ((Reads.int64 n).map _)
      | bool b => exact .content rfl ((Reads.bool b).map _)
      | var s => exact .content rfl (s.reads.map _)
      | arith op l r =>
          have hpair := fun make => reads_pair make (reads_within l limit) (reads_within r limit)
          cases op <;> exact .content rfl (hpair _)
      | neg a => exact .content rfl ((reads_within a limit).map _)
      | not a => exact .content rfl ((reads_within a limit).map _)
      | and parts => exact .content rfl (((Reads.list (reads_parts parts limit)).map _).mono (by omega))
      | or parts => exact .content rfl (((Reads.list (reads_parts parts limit)).map _).mono (by omega))
      | implies l r =>
          exact .content rfl (reads_pair _ (reads_within l limit) (reads_within r limit))
      | eq l r => exact .content rfl (reads_pair _ (reads_within l limit) (reads_within r limit))
      | order op l r =>
          have hpair := fun make => reads_pair make (reads_within l limit) (reads_within r limit)
          cases op <;> exact .content rfl (hpair _)
      | ite c t e =>
          exact .content rfl (reads_triple _ (reads_within c limit) (reads_within t limit)
            (reads_within e limit))

theorem reads_parts (parts : List Term) (limit : Nat) :
    List.Forall₂ (Reads (readerWithin limit) limit) (partsToJson parts) parts := by
  cases parts with
  | nil => exact .nil
  | cons part rest => exact .cons (reads_within part limit) (reads_parts rest limit)

end

theorem reads (t : Term) : Reads Term.reader limit t.toJson t := by
  intro depth _
  exact reads_within t (depth + 1) depth (by omega)

mutual

theorem exact_toJson (t : Term) : t.toJson.Exact := by
  cases t with
  | int n => exact Json.exact_tagged.mpr (Json.exact_int64 n)
  | bool b => exact Json.exact_tagged.mpr trivial
  | var s => exact Json.exact_tagged.mpr s.exact_toJson
  | arith op l r => exact Json.exact_tagged.mpr ⟨exact_toJson l, exact_toJson r, trivial⟩
  | neg a => exact Json.exact_tagged.mpr (exact_toJson a)
  | not a => exact Json.exact_tagged.mpr (exact_toJson a)
  | and parts => exact Json.exact_tagged.mpr (exact_partsToJson parts)
  | or parts => exact Json.exact_tagged.mpr (exact_partsToJson parts)
  | implies l r => exact Json.exact_tagged.mpr ⟨exact_toJson l, exact_toJson r, trivial⟩
  | eq l r => exact Json.exact_tagged.mpr ⟨exact_toJson l, exact_toJson r, trivial⟩
  | order op l r => exact Json.exact_tagged.mpr ⟨exact_toJson l, exact_toJson r, trivial⟩
  | ite c t e =>
      exact Json.exact_tagged.mpr ⟨exact_toJson c, exact_toJson t, exact_toJson e, trivial⟩

theorem exact_partsToJson (parts : List Term) : Json.ItemsExact (partsToJson parts) := by
  cases parts with
  | nil => trivial
  | cons part rest => exact ⟨exact_toJson part, exact_partsToJson rest⟩

end

end Term

theorem Formula.reads (f : Formula) : Reads Formula.reader limit f.toJson f := by
  have hassertions : List.Forall₂ (Reads Term.reader limit) (f.assertions.map Term.toJson)
      f.assertions := List.forall₂_map_left_iff.mpr (List.forall₂_same.mpr fun t _ => t.reads)
  have hfields : Fields.Written limit (.cons (.required "assertions" (Reader.list Term.reader)) .nil)
      [("assertions", .list Term.toJson f.assertions)] (f.assertions, ()) :=
    .cons ((Reads.list hassertions).mono (by omega)) (by simp) .nil
  exact ((Reads.record hfields).map _).mono (by omega)

theorem Formula.exact_toJson (f : Formula) : f.toJson.Exact := by
  have hassertions : Json.ItemsExact (f.assertions.map Term.toJson) := by
    rw [Json.itemsExact_iff]
    simpa using fun t _ => t.exact_toJson
  exact ⟨hassertions, trivial⟩

-- Answers

theorem Value.reads (v : Value) : Reads Value.reader (limit + 1) v.toJson v := by
  cases v with
  | int n => exact .content rfl ((Reads.int64 n).map _)
  | bool b => exact .content rfl ((Reads.bool b).map _)
  | other text => exact .content rfl ((Reads.string text).map _)

theorem Value.exact_toJson (v : Value) : v.toJson.Exact := by
  cases v with
  | int n => exact Json.exact_tagged.mpr (Json.exact_int64 n)
  | bool b => exact Json.exact_tagged.mpr trivial
  | other text => exact Json.exact_tagged.mpr trivial

theorem Value.depth_toJson (v : Value) : v.toJson.depth = 1 := by cases v <;> rfl

-- The values of an assignment, name by name.
def Assignment.members (found : Assignment) : List (String × Json) :=
  found.entries.map fun e => (e.1, e.2.toJson)

theorem Assignment.toJson_eq (found : Assignment) :
    Assignment.toJson found = .obj [("assignments", .obj found.members)] := rfl

theorem Assignment.reads (found : Assignment) :
    Reads Assignment.reader (limit + 3) (Assignment.toJson found) found := by
  have hentries : List.Forall₂ (fun m e => m.1 = e.1 ∧ Reads Value.reader (limit + 1) m.2 e.2)
      found.members found.entries :=
    List.forall₂_map_left_iff.mpr (List.forall₂_same.mpr fun e _ => ⟨rfl, e.2.reads⟩)
  have hfields : Fields.Written (limit + 2)
      (.cons (.required "assignments" (Reader.dictionary Value.reader)) .nil)
      [("assignments", .obj found.members)] (found.entries, ()) :=
    .cons (.dictionary hentries) (by simp) .nil
  have hread : Reads Assignment.reader (limit + 3) (.obj [("assignments", .obj found.members)])
      (NameMap.ofList found.entries) := (Reads.record hfields).map _
  rwa [NameMap.ofList_entries, ← Assignment.toJson_eq] at hread

theorem Outcome.reads (outcome : Outcome) :
    Reads Outcome.reader (limit + 4) outcome.toJson outcome := by
  cases outcome with
  | proved => exact .unit rfl
  | counterexample found => exact .content rfl ((Assignment.reads found).map _)
  | unknown reason => exact .content rfl ((Reads.string reason).map _)

theorem SolverError.reads (e : SolverError) : Reads SolverError.reader (limit + 1) e.toJson e := by
  cases e with
  | unavailable reason => exact .content rfl ((Reads.string reason).map _)
  | backend reason => exact .content rfl ((Reads.string reason).map _)

theorem Answer.reads (answer : Answer) :
    Reads Answer.reader (limit + 5) (Answer.toJson answer) answer := by
  cases answer with
  | ok outcome => exact .content rfl (outcome.reads.map _)
  | error e => exact .content rfl (e.reads.map _)

theorem Assignment.exact_toJson (found : Assignment) : (Assignment.toJson found).Exact := by
  have hentries : Json.MembersExact found.members := by
    rw [Json.membersExact_iff]
    intro m hm
    obtain ⟨e, -, rfl⟩ := List.mem_map.mp hm
    exact e.2.exact_toJson
  rw [Assignment.toJson_eq]
  exact ⟨hentries, trivial⟩

theorem Answer.exact_toJson (answer : Answer) : (Answer.toJson answer).Exact := by
  rcases answer with (_ | _) | (_ | found | _)
  · exact Json.exact_tagged.mpr (Json.exact_tagged.mpr trivial)
  · exact Json.exact_tagged.mpr (Json.exact_tagged.mpr trivial)
  · exact Json.exact_tagged.mpr trivial
  · exact Json.exact_tagged.mpr (Json.exact_tagged.mpr (Assignment.exact_toJson found))
  · exact Json.exact_tagged.mpr (Json.exact_tagged.mpr trivial)

theorem Assignment.depth_toJson (found : Assignment) : (Assignment.toJson found).depth ≤ 3 := by
  have hentries : Json.membersDepth found.members ≤ 1 := by
    apply Json.membersDepth_le
    intro m hm
    obtain ⟨e, -, rfl⟩ := List.mem_map.mp hm
    exact e.2.depth_toJson.le
  simp only [Assignment.toJson_eq, Json.depth, Json.membersDepth]
  omega

-- Whatever it says, an answer is far from nested too deep.
theorem Answer.depth_toJson (answer : Answer) : (Answer.toJson answer).depth ≤ 5 := by
  rcases answer with (reason | reason) | (_ | found | reason)
  · exact Nat.le_add_right 2 3
  · exact Nat.le_add_right 2 3
  · exact Nat.le_add_right 1 4
  · have hfound := Assignment.depth_toJson found
    simp only [Answer.toJson, Outcome.toJson, Json.depth_tagged]
    omega
  · exact Nat.le_add_right 2 3

end Covenant
