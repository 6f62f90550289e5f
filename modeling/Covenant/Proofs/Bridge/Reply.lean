import Covenant.Proofs.Bridge.Transparency
import Covenant.Proofs.Channel.Endpoint
import Covenant.Search.Run

namespace Covenant

open Channel (Fits)

-- The number of a request that was read

theorem Request.id_lt_of_decode {frame : Bytes} {q : Request} (h : decode frame = .ok q) :
    q.id < idLimit := by
  obtain ⟨found, hread, hend⟩ := bind_eq_ok.mp h
  have hfound : found = q := by
    split at hend
    · cases hend
    · exact Except.ok.inj hend
  subst hfound
  unfold reader Json.Reader.map at hread
  cases hrecord : Json.Reader.record _ Json.depthLimit
      (Json.Document.parse (Text.ofBytes frame)).root with
  | error e =>
      rw [hrecord] at hread
      cases hread
  | ok row =>
      rw [hrecord] at hread
      cases hread
      exact Json.Fields.record_first (P := (· < idLimit))
        (fun _ _ _ => Json.Reader.lt_of_natBelow) rfl hrecord

-- The frame that stands in for a response

-- What a worker says of a response that does not fit.
def Response.oversized (id length free : Nat) : Response :=
  ⟨id, .error (.backend s!"response of {length} bytes exceeds channel free length {free}")⟩

namespace Response

variable (id length free : Nat)

theorem render_oversized : (oversized id length free).toJson.render =
    "\x7b\"id\":".toList ++ (Json.digits id ++
      (",\"result\":\x7b\"Err\":\x7b\"Backend\":\"response of ".toList ++ (Json.digits length ++
      (" bytes exceeds channel free length ".toList ++ (Json.digits free ++
        "\"\x7d\x7d\x7d".toList))))) := by
  have hreason : s!"response of {length} bytes exceeds channel free length {free}".toList =
      "response of ".toList ++ (Json.digits length ++
        (" bytes exceeds channel free length ".toList ++ Json.digits free)) := by
    simp [toString, Json.digits]
  have hescaped : s!"response of {length} bytes exceeds channel free length {free}".toList.flatMap
      Json.escape = "response of ".toList ++ (Json.digits length ++
        (" bytes exceeds channel free length ".toList ++ Json.digits free)) := by
    rw [hreason]
    simp only [List.flatMap_append, Json.flatMap_escape_digits]
    rfl
  simp only [oversized, toJson, Answer.toJson, SolverError.toJson, Json.tagged, Json.render,
    Json.renderMembers, Json.quote, hescaped]
  simp [Json.nat, Json.render, Json.intText, Json.escape]

-- How long it is: a text, and the digits of the three numbers.
theorem length_encode_oversized : (oversized id length free).encode.length =
    86 + (Json.digits id).length + (Json.digits length).length + (Json.digits free).length := by
  rw [encode, Json.compact, Text.length_toBytes_of_ascii, render_oversized]
  · simp
    omega
  · rw [render_oversized]
    simp only [List.all_append, Bool.and_eq_true]
    exact ⟨by decide, Json.ascii_digits id, by decide, Json.ascii_digits length, by decide,
      Json.ascii_digits free, by decide⟩

theorem length_encode_oversized_le {id length free : Nat} (hid : id < 0x10000000000000000)
    (hlength : length < 0x10000000000000000) (hfree : free < 0x10000000000000000) :
    (oversized id length free).encode.length ≤ 146 := by
  have h₁ := Json.length_digits_le hid
  have h₂ := Json.length_digits_le hlength
  have h₃ := Json.length_digits_le hfree
  rw [length_encode_oversized]
  omega

-- What takes the place of a response on an empty channel that it does not fit.
def fallback (a : Response) (capacity : Nat) : Response :=
  oversized a.id a.encode.length (Segment.empty capacity).free

end Response

-- What the worker has to say to a request.
def Request.answeredBy (q : Request) (backend : Backend σ) (s : σ) : Response :=
  ⟨q.id, (backend q.formula s).1.answer⟩

-- One message is queued, and it reads as this response.
def Registry.HoldsResponse (r : Registry) (number capacity : Nat) (a : Response) : Prop :=
  ∃ frame, r.Holds number capacity [frame] ∧ Response.decode frame = .ok a

-- What becomes of a response on an empty channel: it is queued, a shorter one is queued in its
-- place, or nothing changes.
inductive Response.Delivery (r : Registry) (number capacity : Nat) (a : Response) (r' : Registry) :
    Prop
  | sent (hfits : Fits capacity [] a.encode) (hholds : r'.HoldsResponse number capacity a)
  | replaced (hlong : ¬Fits capacity [] a.encode)
      (hfits : Fits capacity [] (a.fallback capacity).encode)
      (hholds : r'.HoldsResponse number capacity (a.fallback capacity))
  | withheld (hlong : ¬Fits capacity [] a.encode)
      (hlonger : ¬Fits capacity [] (a.fallback capacity).encode) (heq : r' = r)

namespace Response

variable {a : Response} {capacity : Nat}

-- A channel of 150 bytes takes one of the two.
theorem fits_fallback (hid : a.id < Request.idLimit) (hcapacity : 150 ≤ capacity)
    (hword : capacity < 0x10000000000000000) (hlength : a.encode.length < 0x10000000000000000) :
    Fits capacity [] (a.fallback capacity).encode := by
  have hfree : (Segment.empty capacity).free = capacity - 4 := rfl
  have hle : (a.fallback capacity).encode.length ≤ 146 :=
    length_encode_oversized_le hid hlength (by omega)
  refine ⟨?_, ?_⟩
  · rw [Segment.lengthLimit]
    omega
  · change (a.fallback capacity).encode.length ≤ (Segment.empty capacity).free
    omega

end Response

namespace Worker

variable {σ : Type} {r : Registry} {outbound : Channel} {responses capacity : Nat} {a : Response}

theorem write_of_not_fits {message : Bytes} (hsends : outbound.Attached .send responses)
    (hr : r.Holds responses capacity []) (h : ¬Fits capacity [] message) :
    outbound.write message r = .error (.overflow message.length (Segment.empty capacity).free) := by
  have hopen : (r.segment responses).closed = false := by
    rw [hr.segment_eq]
    rfl
  rw [Channel.write_of_open hsends hopen, hr.segment_eq]
  apply if_neg
  rintro ⟨hshort, hfree⟩
  exact h ⟨hshort, hfree⟩

theorem delivery_of_reply (hsends : outbound.Attached .send responses)
    (hr : r.Holds responses capacity []) (hid : a.id < Request.idLimit) :
    ∃ r', reply outbound a r = .ok r' ∧ a.Delivery r responses capacity r' := by
  by_cases hfits : Fits capacity [] a.encode
  · obtain ⟨hwrite, hholds⟩ := hsends.write hr hfits
    refine ⟨_, ?_, .sent hfits ⟨_, hholds, Response.decode_encode hid⟩⟩
    rw [reply, hwrite]
  have hlong := write_of_not_fits hsends hr hfits
  by_cases hfallback : Fits capacity [] (a.fallback capacity).encode
  · obtain ⟨hwrite, hholds⟩ := hsends.write hr hfallback
    refine ⟨_, ?_, .replaced hfits hfallback ⟨_, hholds, Response.decode_encode hid⟩⟩
    rw [Response.fallback, Response.oversized] at hwrite
    simp only [reply, hlong, hwrite]
    rfl
  · have hlonger := write_of_not_fits hsends hr hfallback
    refine ⟨r, ?_, .withheld hfits hfallback rfl⟩
    rw [Response.fallback, Response.oversized] at hlonger
    simp only [reply, hlong, hlonger]

-- A worker answers a request that it can read with what its solver makes of it, where that fits the
-- channel, and else by saying that it does not fit, where that fits. Where neither does, the
-- request goes unanswered and the worker goes on. That takes a channel of less than 150 bytes.
theorem answers_what_fits (backend : Backend σ) {w : Worker σ} {frame : Bytes} {q : Request}
    (hsends : w.outbound.Attached .send responses) (hr : r.Holds responses capacity [])
    (hframe : Request.decode frame = .ok q) :
    ∃ r', w.handle backend frame r = ({ w with state := (backend q.formula w.state).2 }, r') ∧
      (q.answeredBy backend w.state).Delivery r responses capacity r' ∧
      ((q.answeredBy backend w.state).fallback capacity).encode.length =
        86 + (Json.digits q.id).length +
          (Json.digits (q.answeredBy backend w.state).encode.length).length +
          (Json.digits (Segment.empty capacity).free).length ∧
      (150 ≤ capacity → capacity < 0x10000000000000000 →
        (q.answeredBy backend w.state).encode.length < 0x10000000000000000 →
        r'.HoldsResponse responses capacity (q.answeredBy backend w.state) ∨
          r'.HoldsResponse responses capacity
            ((q.answeredBy backend w.state).fallback capacity)) := by
  have hid := Request.id_lt_of_decode hframe
  obtain ⟨r', hreply, hdelivery⟩ :=
    delivery_of_reply (a := q.answeredBy backend w.state) hsends hr hid
  refine ⟨r', ?_, hdelivery, Response.length_encode_oversized _ _ _, ?_⟩
  · rw [Request.answeredBy] at hreply
    simp only [handle, hframe, hreply]
  · intro hcapacity hword hlength
    cases hdelivery with
    | sent hfits hholds => exact .inl hholds
    | replaced hlong hfits hholds => exact .inr hholds
    | withheld hlong hlonger heq =>
        exact absurd (Response.fits_fallback hid hcapacity hword hlength) hlonger

-- A worker between two empty segments.
def between (state : σ) : Worker σ :=
  .new ⟨"requests", .receive, .attached 0⟩ ⟨"responses", .send, .attached 1⟩ state 60000

end Worker

def Registry.pair (capacity : Nat) : Registry :=
  ⟨"p", .empty, [.empty capacity, .empty capacity], 2⟩

theorem Registry.holds_pair (capacity : Nat) : (Registry.pair capacity).Holds 1 capacity [] :=
  ⟨rfl, by simp⟩

theorem Request.decode_trivial (id : Nat) (hid : id < idLimit) :
    decode (encode ⟨id, ⟨[]⟩⟩) = .ok ⟨id, ⟨[]⟩⟩ := by
  rw [decode_encode hid]
  rfl

def Backend.stalling : Backend Unit := fun _ s =>
  (.crashed (some "gave up after a minute with more than half of the candidates left to try"), s)

theorem Worker.answers_what_fits_stalling : ∃ r',
    (between ()).handle Backend.stalling (Request.encode ⟨7, ⟨[]⟩⟩) (Registry.pair 100) =
      (between (), r') ∧
    r'.HoldsResponse 1 100 (Response.oversized 7 112 96) := by
  obtain ⟨r', hhandle, hdelivery, -⟩ := answers_what_fits Backend.stalling (w := between ())
    ⟨rfl, rfl⟩ (Registry.holds_pair 100) (Request.decode_trivial 7 (by decide))
  have hlength : (Request.answeredBy ⟨7, ⟨[]⟩⟩ Backend.stalling ()).encode.length = 112 := by
    rw [Response.encode, Json.compact, Text.length_toBytes_of_ascii] <;> decide +kernel
  have hfallback : (Request.answeredBy ⟨7, ⟨[]⟩⟩ Backend.stalling ()).fallback 100 =
      Response.oversized 7 112 96 := by
    rw [Response.fallback, hlength]
    rfl
  refine ⟨r', hhandle, ?_⟩
  cases hdelivery with
  | sent hfits hholds =>
      exact absurd (hlength ▸ hfits.free) (by decide)
  | replaced hlong hfits hholds => exact hfallback ▸ hholds
  | withheld hlong hlonger heq =>
      refine absurd (hfallback ▸ ⟨?_, ?_⟩) hlonger <;>
        rw [Response.length_encode_oversized] <;> decide

-- The response takes 62 bytes of the 60 that are free, and what would say so takes 91.
theorem Worker.narrow_channel_unanswered :
    Request.decode (Request.encode ⟨0, ⟨[]⟩⟩) = .ok ⟨0, ⟨[]⟩⟩ ∧
    (between ()).outbound.Attached .send 1 ∧ (Registry.pair 64).Holds 1 64 [] ∧
    (between ()).handle (Solver.bounded .standard).backend (Request.encode ⟨0, ⟨[]⟩⟩)
      (Registry.pair 64) = (between (), Registry.pair 64) ∧
    ¬∃ a, (Registry.pair 64).HoldsResponse 1 64 a := by
  have hframe := Request.decode_trivial 0 (by decide)
  have hanswer : Request.answeredBy ⟨0, ⟨[]⟩⟩ (Solver.bounded .standard).backend () =
      ⟨0, .ok (.counterexample .empty)⟩ := by
    have hcheck : Search.check .standard ⟨[]⟩ = .counterexample .empty := by decide +kernel
    rw [← hcheck]
    rfl
  have hlength : (Response.encode ⟨0, .ok (.counterexample .empty)⟩).length = 62 := by
    rw [Response.encode, Json.compact, Text.length_toBytes_of_ascii] <;> decide +kernel
  refine ⟨hframe, ⟨rfl, rfl⟩, Registry.holds_pair 64, ?_, ?_⟩
  · have hsends : (between ()).outbound.Attached .send 1 := ⟨rfl, rfl⟩
    obtain ⟨r', hreply, hdelivery⟩ := delivery_of_reply (a := ⟨0, .ok (.counterexample .empty)⟩)
      hsends (Registry.holds_pair 64) (by decide)
    have heq : r' = Registry.pair 64 := by
      cases hdelivery with
      | sent hfits hholds => exact absurd (hlength ▸ hfits.free) (by decide)
      | replaced hlong hfits hholds =>
          have hfree := hfits.free
          rw [Response.fallback, Response.length_encode_oversized, hlength] at hfree
          exact absurd hfree (by decide)
      | withheld hlong hlonger heq => exact heq
    subst heq
    rw [← hanswer, Request.answeredBy] at hreply
    simp only [handle, hframe, hreply]
  · rintro ⟨a, frame, hholds, -⟩
    have hsegment := hholds.segment.symm.trans (Registry.holds_pair 64).segment
    simp [Segment.holding, Segment.frame, Segment.header] at hsegment

end Covenant
