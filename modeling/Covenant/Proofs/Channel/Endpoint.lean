import Covenant.Proofs.Channel.Queue

namespace Covenant

namespace Registry

variable {r : Registry} {number other : Nat} {s : Segment}

theorem segment_of_getElem? (h : r.segments[number]? = some s) : r.segment number = s := by
  rw [segment, h]
  rfl

-- Only a segment that is there can be open.
theorem getElem?_of_open (h : (r.segment number).closed = false) :
    r.segments[number]? = some (r.segment number) := by
  cases hs : r.segments[number]? with
  | none =>
      rw [segment, hs] at h
      cases h
  | some s => rw [segment_of_getElem? hs]

theorem getElem?_update_self (h : r.segments[number]? = some s) (f : Segment → Segment) :
    (r.update number f).segments[number]? = some (f s) := by
  change (r.segments.modify number f)[number]? = _
  rw [List.getElem?_modify_eq, h]
  rfl

theorem getElem?_update_of_ne (h : other ≠ number) (f : Segment → Segment) :
    (r.update other f).segments[number]? = r.segments[number]? :=
  List.getElem?_modify_ne _ _ h

theorem length_update (f : Segment → Segment) :
    (r.update number f).segments.length = r.segments.length :=
  List.length_modify _ _ _

theorem create_eq_ok {r' : Registry} {name : String} {capacity : Nat} :
    r.create name capacity = .ok r' ↔ r.contains name = false ∧
      r' = { r with
        names := r.names.insert name r.segments.length
        segments := r.segments ++ [.empty capacity] } := by
  cases hname : r.contains name with
  | true => simp [create, hname]
  | false =>
      rw [create, hname]
      exact ⟨fun h => ⟨rfl, (Except.ok.inj h).symm⟩, fun h => congrArg Except.ok h.2.symm⟩

end Registry

-- What an end does when it succeeds.

namespace Channel

variable {c c' : Channel} {mode : ChannelMode} {r r' : Registry} {number : Nat} {message : Bytes}

theorem segmentFor_eq_ok :
    c.segmentFor mode r = .ok number ↔
      c.Attached mode number ∧ (r.segment number).closed = false := by
  constructor
  · intro h
    unfold segmentFor at h
    split at h
    · cases h
    · cases h
    · rename_i k hk
      split_ifs at h with hmode hclosed
      cases h
      exact ⟨⟨hk, not_not.mp hmode⟩, Bool.not_eq_true _ ▸ hclosed⟩
  · rintro ⟨hc, hopen⟩
    simp [segmentFor, hc.attachment, hc.mode, hopen]

theorem freeLength_eq_ok {free : Nat} :
    c.freeLength r = .ok free ↔ ∃ number, c.Attached .send number ∧
      (r.segment number).closed = false ∧ free = (r.segment number).free := by
  constructor
  · intro h
    cases hs : c.segmentFor .send r with
    | error e =>
        rw [freeLength, hs] at h
        cases h
    | ok number =>
        rw [freeLength, hs] at h
        cases h
        obtain ⟨hc, hopen⟩ := segmentFor_eq_ok.mp hs
        exact ⟨number, hc, hopen, rfl⟩
  · rintro ⟨number, hc, hopen, rfl⟩
    rw [freeLength, segmentFor_eq_ok.mpr ⟨hc, hopen⟩]
    rfl

-- What an end that is open for sending makes of a message.
theorem write_of_open (hc : c.Attached .send number) (hopen : (r.segment number).closed = false)
    (message : Bytes) :
    c.write message r =
      if message.length < Segment.lengthLimit ∧ message.length ≤ (r.segment number).free then
        .ok (r.update number (·.push message))
      else .error (.overflow message.length (r.segment number).free) := by
  rw [write, segmentFor_eq_ok.mpr ⟨hc, hopen⟩]
  rfl

theorem write_eq_ok :
    c.write message r = .ok r' ↔ ∃ number, c.Attached .send number ∧
      (r.segment number).closed = false ∧ message.length < Segment.lengthLimit ∧
      message.length ≤ (r.segment number).free ∧ r' = r.update number (·.push message) := by
  constructor
  · intro h
    cases hs : c.segmentFor .send r with
    | error e =>
        rw [write, hs] at h
        cases h
    | ok number =>
        obtain ⟨hc, hopen⟩ := segmentFor_eq_ok.mp hs
        rw [write_of_open hc hopen message] at h
        split_ifs at h with hfits
        cases h
        exact ⟨number, hc, hopen, hfits.1, hfits.2, rfl⟩
  · rintro ⟨number, hc, hopen, hshort, hfree, rfl⟩
    rw [write_of_open hc hopen message, if_pos ⟨hshort, hfree⟩]

theorem read_of_open (hc : c.Attached .receive number)
    (hopen : (r.segment number).closed = false) :
    c.read r = .ok (((r.segment number).pop).elim (none, r) fun popped =>
      (some popped.1, r.update number fun _ => popped.2)) := by
  simp only [read, segmentFor_eq_ok.mpr ⟨hc, hopen⟩, bind, Except.bind]
  cases (r.segment number).pop with
  | none => rfl
  | some popped => rfl

theorem read_eq_ok {found : Option Bytes} :
    c.read r = .ok (found, r') ↔ ∃ number, c.Attached .receive number ∧
      (r.segment number).closed = false ∧
      (found, r') = ((r.segment number).pop).elim (none, r) fun popped =>
        (some popped.1, r.update number fun _ => popped.2) := by
  constructor
  · intro h
    cases hs : c.segmentFor .receive r with
    | error e =>
        simp only [read, hs, bind, Except.bind] at h
        cases h
    | ok number =>
        obtain ⟨hc, hopen⟩ := segmentFor_eq_ok.mp hs
        rw [read_of_open hc hopen] at h
        exact ⟨number, hc, hopen, (Except.ok.inj h).symm⟩
  · rintro ⟨number, hc, hopen, hread⟩
    rw [read_of_open hc hopen, hread]

theorem openEnd_eq_ok :
    c.openEnd r = .ok c' ↔ c.attachment = .unopened ∧ ∃ number,
      r.names.get? c.name = some number ∧ (r.segment number).closed = false ∧
      c' = { c with attachment := .attached number } := by
  constructor
  · intro h
    unfold openEnd at h
    split at h
    · cases h
    · cases h
    · rename_i hunopened
      split at h
      · cases h
      · rename_i number hname
        split_ifs at h with hclosed
        cases h
        exact ⟨hunopened, number, hname, Bool.not_eq_true _ ▸ hclosed, rfl⟩
  · rintro ⟨hunopened, number, hname, hopen, rfl⟩
    simp [openEnd, hunopened, hname, hopen]

theorem close_of_attached (h : c.attachment = .attached number) :
    c.close r = ({ c with attachment := .detached }, r.update number Segment.close) := by
  simp only [close, h]

theorem close_of_not_attached (h : ∀ number, c.attachment ≠ .attached number) :
    c.close r = ({ c with attachment := .detached }, r) := by
  unfold close
  split
  · rename_i number hc
    exact absurd hc (h number)
  · rfl

end Channel

end Covenant
