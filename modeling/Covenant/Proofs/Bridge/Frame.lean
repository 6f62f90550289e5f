import Covenant.Proofs.Bridge.Message

namespace Covenant

open Json.Reader (Reads)

-- What is sent from one side of a bridge to the other.
inductive Message
  | request (q : Request)
  | response (a : Response)

namespace Message

def toJson : Message → Json
  | .request q => q.toJson
  | .response a => a.toJson

def encode : Message → Bytes
  | .request q => q.encode
  | .response a => a.encode

-- The side that is to have the message finds it in the frame.
def FoundIn (frame : Bytes) : Message → Prop
  | .request q => Request.decode frame = .ok q
  | .response a => Response.decode frame = .ok a

-- The number has 64 bits.
def Proper : Message → Prop
  | .request q => q.id < Request.idLimit
  | .response a => a.id < Request.idLimit

variable {m n : Message}

theorem encode_eq (m : Message) : m.encode = Text.toBytes m.toJson.compact := by
  cases m with
  | request q => rfl
  | response a => rfl

theorem Proper.exact_toJson (h : m.Proper) : m.toJson.Exact := by
  cases m with
  | request q => exact ⟨Json.exact_nat h, q.formula.exact_toJson, trivial⟩
  | response a => exact ⟨Json.exact_nat h, Answer.exact_toJson a.result, trivial⟩

theorem foundIn_encode (h : m.Proper) : m.FoundIn m.encode ↔ m.toJson.depth ≤ Json.depthLimit := by
  cases m with
  | request q =>
      rw [FoundIn, encode, Request.decode_encode h, Json.Reader.within_eq_ok]
      rfl
  | response a =>
      have hread := Json.read_toBytes h.exact_toJson (Response.reads h)
      rw [← Json.Reader.within_eq_ok (a := a), ← hread]
      rfl

-- The second member of a request is named for the formula, that of a response for the result.
theorem toTree_request_ne_response (q : Request) (a : Response) :
    q.toJson.toTree ≠ a.toJson.toTree := by
  simp [Request.toJson, Response.toJson, Json.toTree, Json.memberTrees]

theorem encode_injective (hm : m.Proper) (hn : n.Proper) (h : m.encode = n.encode) : m = n := by
  rw [encode_eq, encode_eq] at h
  have htree := Json.toTree_eq_of_compact_eq hm.exact_toJson hn.exact_toJson
    (Text.toBytes_injective h)
  cases m with
  | request q =>
      cases n with
      | request q' =>
          exact congrArg request (Json.eq_of_toTree_eq (Request.reads hm) (Request.reads hn) htree)
      | response a => exact absurd htree (toTree_request_ne_response q a)
  | response a =>
      cases n with
      | request q => exact absurd htree.symm (toTree_request_ne_response q a)
      | response a' =>
          exact congrArg response (Json.eq_of_toTree_eq (Response.reads hm) (Response.reads hn) htree)

-- A frame carries its message: it is found again where less than 128 containers are nested, and
-- only there, and no other message has the same frame, however deep they are.
theorem frames_carry_messages (hm : m.Proper) :
    (m.FoundIn m.encode ↔ m.toJson.depth < 128) ∧
      ∀ n : Message, n.Proper → n.encode = m.encode → n = m := by
  constructor
  · rw [foundIn_encode hm, Json.depthLimit]
    omega
  · intro n hn h
    exact encode_injective hn hm h

-- The largest number, the least integer, and names that have to be escaped.
theorem frames_carry_messages_escaped :
    let q : Request := ⟨0xFFFFFFFFFFFFFFFF, ⟨[.or [], .ite (.not (.bool true))
      (.eq (.var ⟨"this.\"a\\b\"@0", .int⟩) (.int Int64.minValue)) (.and [.bool false])]⟩⟩
    let a : Response := ⟨0xFFFFFFFFFFFFFFFF, .ok (.counterexample (.ofList
      [("", .other "\t\u0000"), ("é\n@1", .int Int64.minValue), ("😀@+1", .bool false)]))⟩
    Request.decode q.encode = .ok q ∧ Response.decode a.encode = .ok a ∧ q.encode ≠ a.encode := by
  intro q a
  have hid : 0xFFFFFFFFFFFFFFFF < Request.idLimit := by decide
  have hq : Proper (.request q) := hid
  have ha : Proper (.response a) := hid
  refine ⟨(frames_carry_messages hq).1.mpr (by decide +kernel),
    (frames_carry_messages ha).1.mpr (by decide +kernel), fun h => ?_⟩
  exact nomatch (frames_carry_messages ha).2 (.request q) hq h

end Message

end Covenant
