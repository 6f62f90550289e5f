import Covenant.Proofs.Channel.Delivery

namespace Covenant

namespace Segment

variable {s s' : Segment} {message : Bytes} {queued accepted delivered more others : List Bytes}

-- The bytes in the segment, lengths included, are no more than it has room for.
def Within (s : Segment) : Prop := s.bytes.length ≤ s.capacity

instance (s : Segment) : Decidable s.Within :=
  inferInstanceAs (Decidable (s.bytes.length ≤ s.capacity))

theorem length_push (s : Segment) (message : Bytes) :
    (s.push message).bytes.length = s.bytes.length + message.length + headerSize := by
  have hframe := length_frame message
  rw [frame] at hframe
  rw [push, List.length_append, hframe, Nat.add_assoc]

-- Where there is room for a byte after the length, there is room for the length.
theorem within_push_of_ne_nil (hfree : message.length ≤ s.free) (hmessage : message ≠ []) :
    (s.push message).Within := by
  have hlength := List.length_pos_of_ne_nil hmessage
  unfold Within
  rw [length_push]
  change s.bytes.length + message.length + headerSize ≤ s.capacity
  unfold free at hfree
  omega

theorem within_push_nil : (s.push []).Within ↔ s.bytes.length + headerSize ≤ s.capacity := by
  unfold Within
  rw [length_push]
  rfl

theorem length_pop (hpop : s.pop = some (message, s')) : s'.bytes.length ≤ s.bytes.length := by
  unfold pop at hpop
  split at hpop
  · rename_i hbytes
    cases hpop
    simp only [hbytes, List.length_cons, List.length_drop]
    omega
  · cases hpop

theorem capacity_pop (hpop : s.pop = some (message, s')) : s'.capacity = s.capacity := by
  unfold pop at hpop
  split at hpop
  · cases hpop
    rfl
  · cases hpop

theorem Turn.capacity (h : Turn more others s s') : s'.capacity = s.capacity := by
  cases h with
  | rest => rfl
  | push => rfl
  | pop _ hpop => exact capacity_pop hpop
  | close => rfl

-- An empty message that is taken where not even its length has room.
def Crams (s : Segment) (more : List Bytes) : Prop :=
  [] ∈ more ∧ s.capacity < s.bytes.length + headerSize

theorem Turn.within_iff (h : Turn more others s s') (hs : s.Within) :
    s'.Within ↔ ¬s.Crams more := by
  cases h with
  | rest => exact iff_of_true hs (by simp [Crams])
  | @push _ message hopen hshort hfree =>
      by_cases hmessage : message = []
      · subst hmessage
        rw [within_push_nil]
        simp [Crams]
      · exact iff_of_true (within_push_of_ne_nil hfree hmessage)
          (by simp [Crams, Ne.symm hmessage])
  | pop hopen hpop =>
      have hlength := length_pop hpop
      have hcapacity := capacity_pop hpop
      refine iff_of_true ?_ (by simp [Crams])
      unfold Within at hs ⊢
      omega
  | close => exact iff_of_true (Nat.zero_le _) (by simp [Crams])

-- All that is queued fits, but for empty messages at the end.
def Packed (s : Segment) : Prop :=
  ∃ front k, s.bytes = (front ++ List.replicate k []).flatMap frame ∧
    (∀ m ∈ front, m.length < lengthLimit) ∧ (front.flatMap frame).length ≤ s.capacity

theorem short_append_replicate {front : List Bytes} (h : ∀ m ∈ front, m.length < lengthLimit)
    (k : Nat) : ∀ m ∈ front ++ List.replicate k [], m.length < lengthLimit := by
  intro m hm
  obtain hm | hm := List.mem_append.mp hm
  · exact h m hm
  · rw [List.eq_of_mem_replicate hm]
    decide

namespace Packed

theorem empty (capacity : Nat) : (Segment.empty capacity).Packed :=
  ⟨[], 0, rfl, by simp, Nat.zero_le _⟩

theorem push (h : s.Packed) (hshort : message.length < lengthLimit)
    (hfree : message.length ≤ s.free) : (s.push message).Packed := by
  obtain ⟨front, k, hbytes, hfront, hlength⟩ := h
  have hpushed := push_of_frames hbytes message
  by_cases hmessage : message = []
  · subst hmessage
    refine ⟨front, k + 1, ?_, hfront, hlength⟩
    rw [hpushed, List.replicate_succ', List.append_assoc]
  · have hwithin := within_push_of_ne_nil hfree hmessage
    refine ⟨front ++ List.replicate k [] ++ [message], 0, ?_, ?_, hpushed ▸ hwithin⟩
    · rw [hpushed, List.replicate_zero, List.append_nil]
    · intro m hm
      obtain hm | hm := List.mem_append.mp hm
      · exact short_append_replicate hfront k m hm
      · rwa [List.mem_singleton.mp hm]

theorem pop (h : s.Packed) (hpop : s.pop = some (message, s')) : s'.Packed := by
  obtain ⟨front, k, hbytes, hfront, hlength⟩ := h
  rw [pop_of_frames hbytes (short_append_replicate hfront k)] at hpop
  cases front with
  | nil =>
      cases k with
      | zero => cases hpop
      | succ k =>
          cases hpop
          exact ⟨[], k, rfl, by simp, Nat.zero_le _⟩
  | cons m front =>
      cases hpop
      rw [List.flatMap_cons, List.length_append] at hlength
      refine ⟨front, k, rfl, (List.forall_mem_cons.mp hfront).2, ?_⟩
      change (front.flatMap frame).length ≤ s.capacity
      omega

theorem turn (h : s.Packed) (hturn : Turn more others s s') : s'.Packed := by
  cases hturn with
  | rest => exact h
  | push hopen hshort hfree => exact h.push hshort hfree
  | pop hopen hpop => exact h.pop hpop
  | close => exact ⟨[], 0, rfl, by simp, Nat.zero_le _⟩

-- So only the lengths of empty messages exceed the capacity.
theorem excess (h : s.Packed) : ∃ front k, s.bytes = (front ++ List.replicate k []).flatMap frame ∧
    (front.flatMap frame).length ≤ s.capacity ∧ s.bytes.length ≤ s.capacity + headerSize * k := by
  obtain ⟨front, k, hbytes, -, hlength⟩ := h
  have hempty : ((List.replicate k ([] : Bytes)).flatMap frame).length = headerSize * k := by
    simp [List.length_flatMap, length_frame, Nat.mul_comm]
  refine ⟨front, k, hbytes, hlength, ?_⟩
  rw [hbytes, List.flatMap_append, List.length_append, hempty]
  omega

end Packed

end Segment

namespace Exchange

variable {x : Exchange} {number : Nat} {s : Segment}

def Within (x : Exchange) (number : Nat) : Prop :=
  ∀ s, x.registry.segments[number]? = some s → s.Within

def Crams (x : Exchange) (number : Nat) (op : Operation) : Prop :=
  ∃ s, x.registry.segments[number]? = some s ∧ s.Crams (x.accepted number op)

theorem within_perform_iff (op : Operation) (h : x.Within number) :
    (x.perform op).2.Within number ↔ ¬x.Crams number op := by
  cases hs : x.registry.segments[number]? with
  | none =>
      have hcrams : ¬x.Crams number op := by simp [Crams, hs]
      refine iff_of_true (fun s hs' => ?_) hcrams
      obtain ⟨-, -, hnone | ⟨capacity, hempty⟩⟩ := x.perform_missing op hs
      · rw [hnone] at hs'
        cases hs'
      · rw [hempty] at hs'
        cases hs'
        exact Nat.zero_le _
  | some s =>
      obtain ⟨s', hs', hturn⟩ := x.perform_turn op hs
      simpa [Within, Crams, hs, hs'] using hturn.within_iff (h s hs)

-- A segment stays within its capacity as long as no empty message is crammed into it.
theorem within_after_iff (owner : String) (ops : List Operation) (number : Nat) :
    (∀ before, before <+: ops → (after owner before).Within number) ↔
      ∀ before op, before ++ [op] <+: ops → ¬(after owner before).Crams number op := by
  induction ops using List.reverseRecOn with
  | nil =>
      refine iff_of_true (fun before hbefore => ?_) fun before op hbefore => ?_
      · rw [List.prefix_nil.mp hbefore]
        intro s hs
        cases hs
      · simp at hbefore
  | append_singleton ops op ih =>
      have hlast : after owner (ops ++ [op]) = ((after owner ops).perform op).2 :=
        run_append ops [op] _
      have hwithin : (∀ before, before <+: ops ++ [op] → (after owner before).Within number) ↔
          (∀ before, before <+: ops → (after owner before).Within number) ∧
            ((after owner ops).perform op).2.Within number := by
        simp only [List.prefix_concat_iff, or_imp, forall_and, forall_eq, hlast, and_comm]
      have hcrams : (∀ before o, before ++ [o] <+: ops ++ [op] →
            ¬(after owner before).Crams number o) ↔
          (∀ before o, before ++ [o] <+: ops → ¬(after owner before).Crams number o) ∧
            ¬(after owner ops).Crams number op := by
        constructor
        · intro h
          exact ⟨fun before o hbefore => h before o (hbefore.trans (List.prefix_append ops [op])),
            h ops op (List.prefix_refl _)⟩
        · rintro ⟨h, hop⟩ before o hbefore
          obtain heq | hbefore := List.prefix_concat_iff.mp hbefore
          · obtain ⟨rfl, hsame⟩ := List.append_inj' heq rfl
            cases hsame
            exact hop
          · exact h before o hbefore
      rw [hwithin, hcrams, ← ih]
      exact and_congr_right fun h => within_perform_iff op (h ops (List.prefix_refl ops))

-- Nothing changes what a segment has room for.
theorem capacity_run (ops : List Operation) (h : x.registry.segments[number]? = some s) :
    ∃ s', (run ops x).registry.segments[number]? = some s' ∧ s'.capacity = s.capacity :=
  run_turns (P := fun _ _ s' => s'.capacity = s.capacity)
    (fun hsame hturn => hturn.capacity.trans hsame) [] [] ops h rfl

theorem packed_after {owner : String} {ops : List Operation}
    (h : (after owner ops).registry.segments[number]? = some s) : s.Packed :=
  run_missing (P := fun _ _ s => s.Packed) (fun hpacked hturn => hpacked.turn hturn) .empty ops rfl h

-- The bytes of a segment exceed what it was made for if and only if an empty message is taken
-- where its length has no room. They then exceed it by the lengths of empty messages, which are
-- the last ones in the segment.
theorem exceeded_only_by_empty (owner : String) (ops : List Operation) (number : Nat) :
    ((∀ before, before <+: ops → (after owner before).Within number) ↔
      ∀ before op, before ++ [op] <+: ops → ¬(after owner before).Crams number op) ∧
    ∀ before s₀ s, before <+: ops → (after owner before).registry.segments[number]? = some s₀ →
      (after owner ops).registry.segments[number]? = some s →
      s.capacity = s₀.capacity ∧
        ∃ front k, s.bytes = (front ++ List.replicate k []).flatMap Segment.frame ∧
          (front.flatMap Segment.frame).length ≤ s.capacity ∧
          s.bytes.length ≤ s.capacity + Segment.headerSize * k := by
  refine ⟨within_after_iff owner ops number, fun before s₀ s hbefore hs₀ hs => ⟨?_, ?_⟩⟩
  · obtain ⟨rest, rfl⟩ := hbefore
    obtain ⟨s', hs', hcapacity⟩ := capacity_run rest hs₀
    have hsame : (after owner (before ++ rest)).registry.segments[number]? = some s' := by
      rw [after, run_append]
      exact hs'
    rw [hsame] at hs
    cases hs
    exact hcapacity
  · exact (packed_after hs).excess

-- Three empty messages where there is room for the lengths of two.
def overfilling : List Operation :=
  [.create "seg" 8, .make "seg" .send, .act 0 .openEnd, .act 0 (.write []), .act 0 (.write []),
    .act 0 (.write [])]

theorem exceeded_only_by_empty_overfilling :
    (∃ before op, before ++ [op] <+: overfilling ∧ (after "p" before).Crams 0 op) ∧
      ∃ front k, List.replicate 12 0 = (front ++ List.replicate k []).flatMap Segment.frame ∧
        (front.flatMap Segment.frame).length ≤ 8 ∧ 12 ≤ 8 + Segment.headerSize * k := by
  have hs₀ : (after "p" (overfilling.take 1)).registry.segments[0]? = some ⟨8, [], false⟩ := by
    decide
  have hs : (after "p" overfilling).registry.segments[0]? = some ⟨8, List.replicate 12 0, false⟩ := by
    decide
  obtain ⟨hiff, hpacked⟩ := exceeded_only_by_empty "p" overfilling 0
  constructor
  · by_contra hnone
    push Not at hnone
    have hwithin := hiff.mpr hnone overfilling (List.prefix_refl _) _ hs
    revert hwithin
    decide
  · exact (hpacked _ _ _ (List.take_prefix 1 overfilling) hs₀ hs).2

theorem empty_messages_exceed_capacity :
    ∃ s, (after "p" overfilling).registry.segments[0]? = some s ∧ s.capacity = 8 ∧
      s.bytes.length = 12 :=
  ⟨⟨8, List.replicate 12 0, false⟩, by decide, rfl, rfl⟩

end Exchange

end Covenant
