import Covenant.Channel.Endpoint
import Covenant.Proofs.Data.NameMap
import Mathlib.Tactic

namespace Covenant

namespace Segment

-- A message as it stands in a segment.
def frame (message : Bytes) : Bytes := header message.length ++ message

theorem length_frame (message : Bytes) : (frame message).length = message.length + headerSize := by
  rw [frame, List.length_append]
  exact Nat.add_comm _ _

theorem lengthOf_header {length : Nat} (h : length < lengthLimit) :
    lengthOf (UInt8.ofNat length) (UInt8.ofNat (length / 0x100)) (UInt8.ofNat (length / 0x10000))
      (UInt8.ofNat (length / 0x1000000)) = length := by
  simp only [lengthOf, UInt8.toNat_ofNat']
  unfold lengthLimit at h
  omega

-- The length in front of a message tells where it ends.
theorem pop_frame {message : Bytes} (h : message.length < lengthLimit) (capacity : Nat)
    (rest : Bytes) (closed : Bool) :
    pop ⟨capacity, frame message ++ rest, closed⟩ = some (message, ⟨capacity, rest, closed⟩) := by
  simp only [pop, frame, header, List.cons_append, List.nil_append, lengthOf_header h,
    List.take_left, List.drop_left]

-- A segment that is open, with the messages in it in the order in which they came.
def holding (capacity : Nat) (messages : List Bytes) : Segment :=
  ⟨capacity, messages.flatMap frame, false⟩

theorem push_holding (capacity : Nat) (messages : List Bytes) (message : Bytes) :
    (holding capacity messages).push message = holding capacity (messages ++ [message]) := by
  simp [holding, push, frame, List.flatMap_append]

theorem pop_holding {message : Bytes} (h : message.length < lengthLimit) (capacity : Nat)
    (rest : List Bytes) :
    (holding capacity (message :: rest)).pop = some (message, holding capacity rest) :=
  pop_frame h capacity (rest.flatMap frame) false

end Segment

namespace Registry

variable {r : Registry} {number other capacity : Nat} {messages more : List Bytes}

-- The segment with that number is open and holds these messages.
structure Holds (r : Registry) (number capacity : Nat) (messages : List Bytes) : Prop where
  segment : r.segments[number]? = some (.holding capacity messages)
  short : ∀ m ∈ messages, m.length < Segment.lengthLimit

namespace Holds

theorem segment_eq (h : r.Holds number capacity messages) :
    r.segment number = .holding capacity messages := by
  rw [Registry.segment, h.segment]
  rfl

theorem update (h : r.Holds number capacity messages) {f : Segment → Segment}
    (hf : f (.holding capacity messages) = .holding capacity more)
    (hmore : ∀ m ∈ more, m.length < Segment.lengthLimit) :
    (r.update number f).Holds number capacity more := by
  refine ⟨?_, hmore⟩
  change (r.segments.modify number f)[number]? = _
  rw [List.getElem?_modify_eq, h.segment, ← hf]
  rfl

-- What happens to one segment leaves the others as they are.
theorem update_of_ne (h : r.Holds number capacity messages) (hne : other ≠ number)
    (f : Segment → Segment) : (r.update other f).Holds number capacity messages := by
  refine ⟨?_, h.short⟩
  change (r.segments.modify other f)[number]? = _
  rw [List.getElem?_modify_ne _ _ hne, h.segment]

theorem remove (h : r.Holds number capacity messages) (name : String) :
    (r.remove name).Holds number capacity messages := ⟨h.segment, h.short⟩

end Holds

-- A new segment comes after all others and holds nothing.
theorem create_of_free {name : String} (h : r.contains name = false) (capacity : Nat) :
    ∃ r', r.create name capacity = .ok r' ∧ r'.names = r.names.insert name r.segments.length ∧
      r'.segments = r.segments ++ [.holding capacity []] := by
  refine ⟨{ r with
    names := r.names.insert name r.segments.length
    segments := r.segments ++ [.holding capacity []] }, ?_, rfl, rfl⟩
  simp only [create, h, Bool.false_eq_true, if_false]
  rfl

end Registry

namespace Channel

variable {c : Channel} {mode : ChannelMode} {r : Registry} {number capacity : Nat}
variable {messages : List Bytes} {message : Bytes}

-- An end that is open for the mode.
structure Attached (c : Channel) (mode : ChannelMode) (number : Nat) : Prop where
  attachment : c.attachment = .attached number
  mode : c.mode = mode

theorem Attached.segmentFor (hc : c.Attached mode number) (h : r.Holds number capacity messages) :
    c.segmentFor mode r = .ok number := by
  simp [Channel.segmentFor, hc.attachment, hc.mode, h.segment_eq, Segment.holding]

theorem openEnd_new {name : String} (hname : r.names.get? name = some number)
    (h : r.Holds number capacity messages) (mode : ChannelMode) :
    (Channel.new name mode).openEnd r = .ok ⟨name, mode, .attached number⟩ := by
  simp [openEnd, Channel.new, hname, h.segment_eq, Segment.holding]

-- What a message needs to be taken, whatever is queued before it.
structure Fits (capacity : Nat) (messages : List Bytes) (message : Bytes) : Prop where
  short : message.length < Segment.lengthLimit
  free : message.length ≤ (Segment.holding capacity messages).free

theorem Attached.freeLength (hc : c.Attached .send number)
    (h : r.Holds number capacity messages) :
    c.freeLength r = .ok (Segment.holding capacity messages).free := by
  rw [Channel.freeLength, hc.segmentFor h, ← h.segment_eq]
  rfl

theorem Attached.write (hc : c.Attached .send number) (h : r.Holds number capacity messages)
    (hfits : Fits capacity messages message) :
    c.write message r = .ok (r.update number (·.push message)) ∧
      (r.update number (·.push message)).Holds number capacity (messages ++ [message]) := by
  constructor
  · rw [Channel.write, hc.segmentFor h]
    have hfree : message.length < Segment.lengthLimit ∧
        message.length ≤ (r.segment number).free := by
      rw [h.segment_eq]
      exact ⟨hfits.short, hfits.free⟩
    exact if_pos hfree
  · apply h.update (Segment.push_holding capacity messages message)
    simpa [hfits.short, or_imp, forall_and] using h.short

theorem Attached.read (hc : c.Attached .receive number)
    (h : r.Holds number capacity (message :: messages)) :
    c.read r = .ok (some message, r.update number fun _ => .holding capacity messages) ∧
      (r.update number fun _ => .holding capacity messages).Holds number capacity messages := by
  obtain ⟨hmessage, hmessages⟩ := List.forall_mem_cons.mp h.short
  have hpop : (r.segment number).pop = some (message, .holding capacity messages) := by
    rw [h.segment_eq, Segment.pop_holding hmessage]
  constructor
  · simp only [Channel.read, hc.segmentFor h, bind, Except.bind, hpop]
    rfl
  · exact h.update rfl hmessages

theorem Attached.read_nothing (hc : c.Attached .receive number) (h : r.Holds number capacity []) :
    c.read r = .ok (none, r) := by
  have hpop : (r.segment number).pop = none := by
    rw [h.segment_eq]
    rfl
  simp only [Channel.read, hc.segmentFor h, bind, Except.bind, hpop]
  rfl

theorem Attached.pending (hc : c.Attached mode number) (h : r.Holds number capacity messages) :
    c.pending r = (messages.flatMap Segment.frame).length := by
  simp [Channel.pending, hc.attachment, h.segment_eq, Segment.holding]

end Channel

end Covenant
