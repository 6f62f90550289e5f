import Covenant.Proofs.Model.Json

namespace Covenant

open Json (Reader)

namespace Json

mutual

theorem sound_toTree (j : Json) (depth : Nat) : j.toTree.sound depth = decide (j.depth ≤ depth) := by
  cases j with
  | null => simp [toTree, Tree.sound, Json.depth]
  | bool b => simp [toTree, Tree.sound, Json.depth]
  | int n => simp [toTree, Tree.sound, Json.depth]
  | str s => simp [toTree, Tree.sound, Json.depth]
  | arr items =>
      rw [toTree, Tree.sound, sound_itemTrees items (depth - 1), Json.depth]
      cases depth with
      | zero => simp
      | succ depth => simp
  | obj members =>
      rw [toTree, Tree.sound, sound_memberTrees members (depth - 1), Json.depth]
      cases depth with
      | zero => simp
      | succ depth => simp

theorem sound_itemTrees (items : List Json) (depth : Nat) :
    Tree.soundItems depth (itemTrees items) = decide (itemsDepth items ≤ depth) := by
  cases items with
  | nil => simp [itemTrees, Tree.soundItems, itemsDepth]
  | cons item rest =>
      rw [itemTrees, Tree.soundItems, sound_toTree item depth, sound_itemTrees rest depth, itemsDepth]
      simp

theorem sound_memberTrees (members : List (String × Json)) (depth : Nat) :
    Tree.soundMembers depth (memberTrees members) = decide (membersDepth members ≤ depth) := by
  cases members with
  | nil => simp [memberTrees, Tree.soundMembers, membersDepth]
  | cons member rest =>
      obtain ⟨name, value⟩ := member
      rw [memberTrees, Tree.soundMembers, sound_toTree value depth, sound_memberTrees rest depth,
        membersDepth]
      simp [Key.read, Except.isOk, Except.toBool]

end

end Json

namespace ClassModel

variable {c : ClassModel}

-- A file with one class: what is no list is tried as a class.
theorem ofFile?_compact (hbuilt : c.Built) (hsealed : c.isSealed = true)
    (hdepth : c.toJson.depth ≤ Json.depthLimit) : ofFile? c.toJson.compact.toList = some [c] := by
  have hread : reader Json.depthLimit c.toJson.toTree = .ok c :=
    (reads hbuilt hsealed Json.depthLimit (Nat.lt_succ_self _)).trans (if_pos hdepth)
  have hlist : Reader.list reader Json.depthLimit c.toJson.toTree =
      Json.Reader.fail (.invalidType .map) := rfl
  have hparse : Json.Document.parse c.toJson.compact.toList = ⟨c.toJson.toTree, false⟩ := by
    rw [Json.compact, String.toList_ofList, Json.Document.parse_render c.exact_toJson]
  simp [ofFile?, hparse, Json.sound_toTree, hdepth, hlist, hread, Json.Reader.fail, Except.toOption]

-- A class is read as it was written, tables and all, where less than 128 containers are nested.
theorem read_as_written (hbuilt : c.Built) (hsealed : c.isSealed = true) :
    (Json.read reader c.toJson.compact.toList = .ok c ↔ c.toJson.depth < 128) ∧
      (c.toJson.depth < 128 → ofFile? c.toJson.compact.toList = some [c]) := by
  constructor
  · rw [Json.read_compact c.exact_toJson fun _ => reads hbuilt hsealed, Json.Reader.within_eq_ok,
      Json.depthLimit]
    omega
  · intro hdepth
    apply ofFile?_compact hbuilt hsealed
    rw [Json.depthLimit]
    omega

-- Parts without a name, parts that are not supported, blocks within a block, the largest place
-- and the least integer.
theorem read_as_written_nested :
    let place : Location := ⟨0xFFFFFFFF, 0, 0xFFFFFFFFFFFFFFFF, 1⟩
    let size : Field :=
      ⟨"größe\"\\", .named "long" true, some (.int Int64.minValue), "C\n", some "Größe", place⟩
    let step : Binder := ⟨"😀", .other, place⟩
    let lost : UnsupportedDecl := ⟨unresolvedName, "\t\u0000", .unknown⟩
    let body : List Statement :=
      [.conditional
        (.comparison (.order .le) (.variable (.parameter step)) (.unary .negate (.literal (.int 3))))
        [.conditional (.literal (.bool true)) [.unsupported place] [] .unknown]
        [.assignment (.field size) (.parenthesized (.unsupported place)) place, .return none place]
        place]
    let m : Method := ⟨"", .prot, .named "void" false,
      ⟨[.unsupported lost, .supported step, .unsupported lost], .ofList [("😀", 1)], true⟩,
      .sealedEmpty,
      [.unsupported "a\u007fb" place], body, [.supported "" .result .unknown], .unknown⟩
    let c : ClassModel := ⟨"C\n",
      ⟨[.supported size, .unsupported lost], .ofList [("größe\"\\", 0)], true⟩,
      ⟨[.unsupported lost, .supported m], .ofList [("", 1)], true⟩, [], place⟩
    ofFile? c.toJson.compact.toList = some [c] := by
  intro place size step lost body m c
  have hfields : NameTable.sealedOf c.fields.entries = .ok c.fields := rfl
  have hmethods : NameTable.sealedOf c.methods.entries = .ok c.methods := rfl
  have hparameters : NameTable.sealedOf m.parameters.entries = .ok m.parameters := rfl
  have hbuilt : c.Built := by
    refine ⟨.of_sealedOf hfields, .of_sealedOf hmethods, fun m' hm' => ?_⟩
    obtain rfl : m' = m := List.mem_singleton.mp hm'
    exact ⟨.of_sealedOf hparameters, .finished .new⟩
  exact (read_as_written hbuilt rfl).2 (by decide +kernel)

end ClassModel

end Covenant
