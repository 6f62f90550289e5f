import Covenant.Bridge.Message
import Covenant.Proofs.Term.Json

namespace Covenant

open Json (Reader Fields)
open Json.Reader (Reads)

variable {limit : Nat}

namespace Request

variable {q : Request}

theorem depth_toJson (q : Request) : q.toJson.depth = q.formula.toJson.depth + 1 := by
  simp [toJson, Json.depth, Json.membersDepth, Json.nat]

theorem reads (h : q.id < idLimit) (limit : Nat) : Reads reader limit q.toJson q := by
  have hfields : Fields.Written limit
      (.cons (.required "id" (Reader.natBelow idLimit)) (.cons (.required "formula" Formula.reader) .nil))
      [("id", .nat q.id), ("formula", q.formula.toJson)] (q.id, q.formula, ()) :=
    .cons (.natBelow h) (by simp [Json.Field.required]) (.cons q.formula.reads (by simp) .nil)
  exact ((Reads.record hfields).map _).mono (by omega)

theorem decode_encode (h : q.id < idLimit) :
    decode q.encode = Reader.within Json.depthLimit q.toJson.depth q := by
  have hexact : q.toJson.Exact := ⟨Json.exact_nat h, q.formula.exact_toJson, trivial⟩
  exact Json.read_toBytes hexact (reads h)

-- Where the number does not fit, the request cannot be read.
theorem decode_encode_of_le (h : idLimit ≤ q.id) : ∃ e, decode q.encode = .error e := by
  have htext : Text.ofBytes q.encode = q.toJson.render := by
    rw [encode, Text.ofBytes_toBytes, Json.compact, String.toList_ofList]
  have hrender : q.toJson.render = '\x7b' :: (Json.quote "id" ++ ':' ::
      (Json.digits q.id ++ Json.renderMembers [("formula", q.formula.toJson)])) := rfl
  obtain ⟨fuel, hfuel⟩ : ∃ fuel, 2 * q.toJson.render.length + 2 = fuel + 3 :=
    ⟨2 * q.toJson.render.length - 1, by rw [hrender, List.length_cons]; omega⟩
  obtain ⟨t, hvalue, ht⟩ := Json.Parse.value_digits_of_le
    (Json.Parse.ends_renderMembers [("formula", q.formula.toJson)] []) h fuel
  rw [List.append_nil] at hvalue
  obtain ⟨members, ending, hroot⟩ : ∃ members ending,
      (Json.Document.parse q.toJson.render).root = .object ((.name "id", t) :: members) ending := by
    have hmembers := Json.Parse.members_next "id" hvalue
    rw [Json.Document.root_parse, hfuel, hrender, Json.Parse.value_members, hmembers]
    exact ⟨_, _, rfl⟩
  obtain ⟨e, he⟩ := Json.Reader.natBelow_error ht idLimit 126
  refine ⟨e, ?_⟩
  have hrecord : Request.reader Json.depthLimit (.object ((.name "id", t) :: members) ending) =
      .error e := by
    rw [reader, Reader.map]
    exact congrArg _ (Json.Fields.record_of_error (.required "id" (Reader.natBelow idLimit)) _ he)
  rw [decode, htext, Json.read, Json.Document.read, hroot, hrecord]
  rfl

-- A request is read as it was written, or not at all.
theorem eq_of_decode_encode {found : Request} (h : decode q.encode = .ok found) :
    found = q ∧ q.id < idLimit := by
  by_cases hid : q.id < idLimit
  · rw [decode_encode hid, Reader.within] at h
    split at h
    · cases h
      exact ⟨rfl, hid⟩
    · cases h
  · obtain ⟨e, he⟩ := decode_encode_of_le (Nat.not_lt.mp hid)
    rw [he] at h
    cases h

end Request

namespace Response

variable {a : Response}

theorem reads (h : a.id < Request.idLimit) (limit : Nat) : Reads reader limit a.toJson a := by
  have hfields : Fields.Written (limit + 5)
      (.cons (.required "id" (Reader.natBelow Request.idLimit))
        (.cons (.required "result" Answer.reader) .nil))
      [("id", .nat a.id), ("result", a.result.toJson)] (a.id, a.result, ()) :=
    .cons (.natBelow h) (by simp [Json.Field.required]) (.cons (Answer.reads a.result) (by simp) .nil)
  exact ((Reads.record hfields).map _).mono (by omega)

theorem decode_encode (h : a.id < Request.idLimit) : decode a.encode = .ok a := by
  have hexact : a.toJson.Exact := ⟨Json.exact_nat h, Answer.exact_toJson a.result, trivial⟩
  have hdepth : a.toJson.depth ≤ Json.depthLimit := by
    have hresult := Answer.depth_toJson a.result
    simp only [toJson, Json.depth, Json.membersDepth, Json.nat, Json.depthLimit]
    omega
  exact (Json.read_toBytes hexact (reads h)).trans (if_pos hdepth)

end Response

end Covenant
