import Covenant.Proofs.Channel.Delivery

namespace Covenant

namespace Registry

variable {r r' : Registry} {number other : Nat} {messages more : List Bytes}

-- The segment with that number holds these messages. It may be closed.
structure Queues (r : Registry) (number : Nat) (messages : List Bytes) : Prop where
  segment : ∃ s, r.segments[number]? = some s ∧ s.bytes = messages.flatMap Segment.frame
  short : ∀ m ∈ messages, m.length < Segment.lengthLimit

theorem Holds.queues {capacity : Nat} (h : r.Holds number capacity messages) :
    r.Queues number messages := ⟨⟨_, h.segment, rfl⟩, h.short⟩

-- All other segments hold what they held.
def Spares (number : Nat) (r r' : Registry) : Prop :=
  ∀ other messages, number ≠ other → r.Queues other messages → r'.Queues other messages

theorem spares_update (number : Nat) (f : Segment → Segment) : r.Spares number (r.update number f) := by
  intro other messages hne h
  obtain ⟨s, hs, hbytes⟩ := h.segment
  exact ⟨⟨s, (getElem?_update_of_ne hne f).trans hs, hbytes⟩, h.short⟩

theorem Queues.update (h : r.Queues number messages) {f : Segment → Segment}
    (hf : ∀ s, r.segments[number]? = some s → (f s).bytes = more.flatMap Segment.frame)
    (hmore : ∀ m ∈ more, m.length < Segment.lengthLimit) :
    (r.update number f).Queues number more := by
  obtain ⟨s, hs, -⟩ := h.segment
  exact ⟨⟨f s, getElem?_update_self hs f, hf s hs⟩, hmore⟩

theorem Queues.bytes (h : r.Queues number messages) {s : Segment}
    (hs : r.segments[number]? = some s) : s.bytes = messages.flatMap Segment.frame := by
  obtain ⟨s', hs', hbytes⟩ := h.segment
  rw [hs] at hs'
  cases hs'
  exact hbytes

end Registry

namespace Channel

variable {c : Channel} {mode : ChannelMode} {r r' : Registry} {number : Nat}
variable {messages : List Bytes} {message : Bytes}

-- An end of that segment, which may have been closed since.
structure EndOf (c : Channel) (mode : ChannelMode) (number : Nat) : Prop where
  mode : c.mode = mode
  attachment : c.attachment = .attached number ∨ c.attachment = .detached

theorem EndOf.eq_of_attached (h : c.EndOf mode number) {other : Nat} {mode' : ChannelMode}
    (hc : c.Attached mode' other) : other = number := by
  rcases h.attachment with ha | ha
  · rw [hc.attachment] at ha
    exact Attachment.attached.inj ha
  · rw [hc.attachment] at ha
    cases ha

theorem EndOf.write (h : c.EndOf .send number) (hr : r.Queues number messages)
    (hwrite : c.write message r = .ok r') :
    r'.Queues number (messages ++ [message]) ∧ r.Spares number r' := by
  obtain ⟨other, hc, -, hshort, -, rfl⟩ := write_eq_ok.mp hwrite
  obtain rfl := h.eq_of_attached hc
  refine ⟨hr.update (fun s hs => Segment.push_of_frames (hr.bytes hs) message) ?_,
    Registry.spares_update _ _⟩
  simpa [hshort, or_imp, forall_and] using hr.short

theorem EndOf.read (h : c.EndOf .receive number) (hr : r.Queues number messages)
    (hread : c.read r = .ok (some message, r')) :
    ∃ rest, messages = message :: rest ∧ r'.Queues number rest ∧ r.Spares number r' := by
  obtain ⟨other, hc, -, hfound⟩ := read_eq_ok.mp hread
  obtain rfl := h.eq_of_attached hc
  obtain ⟨s, hs, hbytes⟩ := hr.segment
  rw [r.segment_of_getElem? hs, Segment.pop_of_frames hbytes hr.short] at hfound
  cases messages with
  | nil => cases hfound
  | cons m rest =>
      cases hfound
      exact ⟨rest, rfl, hr.update (fun _ _ => rfl) (List.forall_mem_cons.mp hr.short).2,
        Registry.spares_update _ _⟩

-- Closing an end that is open takes all that is queued.
theorem EndOf.close (h : c.EndOf mode number) (hr : r.Queues number messages) :
    (c.close r).1.EndOf mode number ∧
      (∃ left, (left = messages ∨ left = []) ∧ (c.close r).2.Queues number left) ∧
      r.Spares number (c.close r).2 := by
  rcases h.attachment with ha | ha
  · rw [close_of_attached ha]
    exact ⟨⟨h.mode, .inr rfl⟩, ⟨[], .inr rfl, hr.update (fun _ _ => rfl) (by simp)⟩,
      Registry.spares_update _ _⟩
  · rw [close_of_not_attached (by simp [ha])]
    exact ⟨⟨h.mode, .inr rfl⟩, ⟨messages, .inl rfl, hr⟩, fun _ _ _ hother => hother⟩

-- Only a message that does not fit overflows.
theorem write_eq_overflow {length free : Nat} (h : c.write message r = .error (.overflow length free)) :
    length = message.length ∧ (Segment.lengthLimit ≤ length ∨ free < length) := by
  cases hs : c.segmentFor .send r with
  | error e =>
      rw [write, hs] at h
      obtain rfl : e = .overflow length free := Except.error.inj h
      unfold segmentFor at hs
      split at hs
      · cases hs
      · cases hs
      · split_ifs at hs <;> cases hs
  | ok number =>
      obtain ⟨hc, hopen⟩ := segmentFor_eq_ok.mp hs
      rw [write_of_open hc hopen] at h
      split_ifs at h with hfits
      cases h
      exact ⟨rfl, by omega⟩

end Channel

end Covenant
