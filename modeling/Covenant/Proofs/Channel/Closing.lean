import Covenant.Proofs.Channel.Delivery

namespace Covenant

namespace Channel

variable {c d : Channel} {r : Registry} {number : Nat}

-- The actions that can fail.
def Action.Fallible : Action → Prop
  | .openEnd | .write _ | .read | .freeLength => True
  | .close | .drop | .isOpen => False

-- What an action leaves of its end: the same end, a detached one, or one that is now attached.
theorem end_of_act {a : Action} (h : (c.act r a).2.1 = some d) :
    d = c ∨ d = { c with attachment := .detached } ∨
      c.attachment = .unopened ∧ ∃ number, (r.segment number).closed = false ∧
        d = { c with attachment := .attached number } := by
  have hclose : (c.close r).1 = { c with attachment := .detached } := by
    unfold close
    split <;> rfl
  cases a with
  | openEnd =>
      cases hopen : c.openEnd r with
      | error e =>
          simp only [act, hopen, Option.some.injEq] at h
          exact .inl h.symm
      | ok opened =>
          simp only [act, hopen, Option.some.injEq] at h
          subst h
          obtain ⟨hunopened, number, -, hsegment, hd⟩ := openEnd_eq_ok.mp hopen
          exact .inr (.inr ⟨hunopened, number, hsegment, hd⟩)
  | close =>
      rw [act, hclose] at h
      exact .inr (.inl (Option.some.inj h).symm)
  | drop => cases h
  | write message =>
      cases hwrite : c.write message r <;> simp only [act, hwrite, Option.some.injEq] at h <;>
        exact .inl h.symm
  | read =>
      cases hread : c.read r <;> simp only [act, hread, Option.some.injEq] at h <;>
        exact .inl h.symm
  | freeLength =>
      cases hfree : c.freeLength r <;> simp only [act, hfree, Option.some.injEq] at h <;>
        exact .inl h.symm
  | isOpen => exact .inl (Option.some.inj h).symm

-- An end that was closed says so.
theorem act_of_detached (h : c.attachment = .detached) {a : Action} (ha : a.Fallible) :
    (c.act r a).1 = .failed (.closed c.name) := by
  have hsegment : ∀ mode, c.segmentFor mode r = .error (.closed c.name) := by
    simp [segmentFor, h]
  cases a with
  | openEnd => simp [act, openEnd, h]
  | write message => simp [act, write, hsegment, bind, Except.bind]
  | read => simp [act, read, hsegment, bind, Except.bind]
  | freeLength => simp [act, freeLength, hsegment, bind, Except.bind]
  | close => cases ha
  | drop => cases ha
  | isOpen => cases ha

-- An end whose segment is closed does nothing, whatever its mode.
theorem act_of_closed (h : c.attachment = .attached number)
    (hclosed : (r.segment number).closed = true) {a : Action} (ha : a.Fallible) :
    ∃ e, (c.act r a).1 = .failed e := by
  have hsegment : ∀ mode, ∃ e, c.segmentFor mode r = .error e := by
    intro mode
    by_cases hmode : c.mode = mode
    · exact ⟨.closed c.name, by simp [segmentFor, h, hmode, hclosed]⟩
    · exact ⟨.wrongMode c.name c.mode, by simp [segmentFor, h, hmode]⟩
  cases a with
  | openEnd => exact ⟨.alreadyOpen c.name, by simp [act, openEnd, h]⟩
  | write message =>
      obtain ⟨e, he⟩ := hsegment .send
      exact ⟨e, by simp [act, write, he, bind, Except.bind]⟩
  | read =>
      obtain ⟨e, he⟩ := hsegment .receive
      exact ⟨e, by simp [act, read, he, bind, Except.bind]⟩
  | freeLength =>
      obtain ⟨e, he⟩ := hsegment .send
      exact ⟨e, by simp [act, freeLength, he, bind, Except.bind]⟩
  | close => cases ha
  | drop => cases ha
  | isOpen => cases ha

end Channel

namespace Exchange

variable {x : Exchange} {number i j : Nat} {c d : Channel} {op : Operation} {name : String}

theorem length_ends_perform (x : Exchange) (op : Operation) :
    x.ends.length ≤ (x.perform op).2.ends.length := by
  cases op with
  | create name capacity =>
      cases hcreate : x.registry.create name capacity <;> simp only [perform, hcreate] <;> rfl
  | remove name => exact Nat.le_refl _
  | make name mode => simp [perform]
  | act i a =>
      cases hfind : x.find i with
      | none => rw [perform_absent hfind]
      | some c => simp [perform_act hfind]

theorem length_segments_perform (x : Exchange) (op : Operation) :
    x.registry.segments.length ≤ (x.perform op).2.registry.segments.length := by
  cases op with
  | create name capacity =>
      cases hcreate : x.registry.create name capacity with
      | error e => simp only [perform, hcreate]; rfl
      | ok created =>
          obtain ⟨-, rfl⟩ := Registry.create_eq_ok.mp hcreate
          simp [perform, hcreate]
  | remove name => exact Nat.le_refl _
  | make name mode => exact Nat.le_refl _
  | act i a =>
      cases hfind : x.find i with
      | none => rw [perform_absent hfind]
      | some c => rw [perform_act hfind, Channel.length_act]

-- Where an end comes from: it was there, it is new, or it was acted on.
theorem find_perform (h : (x.perform op).2.find j = some d) :
    x.find j = some d ∨ (x.ends.length ≤ j ∧ d.attachment = .unopened) ∨
      ∃ c, x.find j = some c ∧ (d = { c with attachment := .detached } ∨
        c.attachment = .unopened ∧ ∃ number, (x.registry.segment number).closed = false ∧
          d = { c with attachment := .attached number }) := by
  cases op with
  | create name capacity =>
      cases hcreate : x.registry.create name capacity <;> simp only [perform, hcreate] at h <;>
        exact .inl h
  | remove name => exact .inl h
  | make name mode =>
      rw [find_eq_some] at h
      change (x.ends ++ [some (Channel.new name mode)])[j]? = _ at h
      by_cases hj : j < x.ends.length
      · rw [List.getElem?_append_left hj] at h
        exact .inl (find_eq_some.mpr h)
      · have hle := Nat.not_lt.mp hj
        rw [List.getElem?_append_right hle] at h
        cases hk : j - x.ends.length with
        | zero =>
            rw [hk] at h
            cases h
            exact .inr (.inl ⟨hle, rfl⟩)
        | succ k =>
            rw [hk] at h
            cases h
  | act i a =>
      cases hfind : x.find i with
      | none =>
          rw [perform_absent hfind] at h
          exact .inl h
      | some c =>
          rw [perform_act hfind, find_eq_some] at h
          change (x.ends.set i _)[j]? = _ at h
          by_cases hj : i = j
          · subst hj
            obtain ⟨hi, -⟩ := List.getElem?_eq_some_iff.mp (find_eq_some.mp hfind)
            rw [List.getElem?_set_self hi, Option.some.injEq] at h
            obtain rfl | hd := Channel.end_of_act h
            · exact .inl hfind
            · exact .inr (.inr ⟨c, hfind, hd⟩)
          · rw [List.getElem?_set_ne hj] at h
            exact .inl (find_eq_some.mpr h)

-- Every end that is attached has its segment.
def Sound (x : Exchange) : Prop :=
  ∀ i c number, x.find i = some c → c.attachment = .attached number →
    number < x.registry.segments.length

theorem sound_perform (h : x.Sound) (op : Operation) : (x.perform op).2.Sound := by
  intro j d number hd hattached
  have hlength := x.length_segments_perform op
  obtain hsame | ⟨-, hnew⟩ | ⟨c, -, rfl | ⟨-, k, hopen, rfl⟩⟩ := find_perform hd
  · exact (h j d number hsame hattached).trans_le hlength
  · rw [hnew] at hattached
    cases hattached
  · cases hattached
  · cases hattached
    obtain ⟨hk, -⟩ := List.getElem?_eq_some_iff.mp (Registry.getElem?_of_open hopen)
    exact hk.trans_le hlength

theorem sound_run (r : Registry) (ops : List Operation) : (run ops (start r)).Sound := by
  induction ops using List.reverseRecOn with
  | nil =>
      intro i c number hc
      cases hc
  | append_singleton ops op ih =>
      rw [run_append]
      exact sound_perform ih op

-- A segment that is closed and holds nothing.
def Shut (x : Exchange) (number : Nat) : Prop :=
  ∃ s, x.registry.segments[number]? = some s ∧ s.closed = true ∧ s.bytes = []

theorem Shut.segment (h : x.Shut number) : (x.registry.segment number).closed = true := by
  obtain ⟨s, hs, hclosed, -⟩ := h
  rwa [Registry.segment_of_getElem? hs]

theorem Shut.run (h : x.Shut number) (ops : List Operation) : (run ops x).Shut number := by
  obtain ⟨s, hs, hclosed⟩ := h
  refine run_turns (P := fun _ _ s => s.closed = true ∧ s.bytes = []) ?_ [] [] ops hs hclosed
  intro _ _ _ _ s s' hshut hturn
  cases hturn with
  | rest => exact hshut
  | push hopen =>
      rw [hopen] at hshut
      cases hshut.1
  | pop hopen =>
      rw [hopen] at hshut
      cases hshut.1
  | close => exact ⟨rfl, rfl⟩

-- An end that was closed, unless it is gone.
structure Retired (x : Exchange) (i : Nat) (name : String) : Prop where
  made : i < x.ends.length
  detached : ∀ d, x.find i = some d → d.attachment = .detached ∧ d.name = name

theorem Retired.perform (h : x.Retired i name) (op : Operation) :
    (x.perform op).2.Retired i name := by
  refine ⟨h.made.trans_le (x.length_ends_perform op), fun d hd => ?_⟩
  obtain hsame | ⟨hnew, -⟩ | ⟨c, hc, rfl | ⟨hunopened, -⟩⟩ := find_perform hd
  · exact h.detached d hsame
  · exact absurd h.made (Nat.not_lt.mpr hnew)
  · exact ⟨rfl, (h.detached c hc).2⟩
  · rw [(h.detached c hc).1] at hunopened
    cases hunopened

theorem Retired.run (h : x.Retired i name) (ops : List Operation) : (run ops x).Retired i name := by
  induction ops generalizing x with
  | nil => exact h
  | cons op ops ih => exact ih (h.perform op)

-- Closing or dropping an end shuts its segment.
theorem shut_of_closing (hsound : x.Sound) (hc : x.find i = some c) {a : Channel.Action}
    (ha : a = .close ∨ a = .drop) (hattached : c.attachment = .attached number) :
    (x.perform (.act i a)).2.Shut number := by
  have hlt := hsound i c number hc hattached
  have hregistry : (x.perform (.act i a)).2.registry = x.registry.update number Segment.close := by
    rw [perform_act hc]
    obtain rfl | rfl := ha <;> simp only [Channel.act, Channel.close_of_attached hattached]
  refine ⟨x.registry.segments[number].close, ?_, rfl, rfl⟩
  rw [hregistry]
  exact Registry.getElem?_update_self (List.getElem?_eq_getElem hlt) _

theorem retired_of_closing (hc : x.find i = some c) {a : Channel.Action}
    (ha : a = .close ∨ a = .drop) : (x.perform (.act i a)).2.Retired i c.name := by
  obtain ⟨hi, -⟩ := List.getElem?_eq_some_iff.mp (find_eq_some.mp hc)
  refine ⟨hi.trans_le (x.length_ends_perform _), fun d hd => ?_⟩
  rw [perform_act hc, find_eq_some] at hd
  change (x.ends.set i _)[i]? = _ at hd
  rw [List.getElem?_set_self hi, Option.some.injEq] at hd
  obtain rfl | rfl := ha
  · obtain rfl : (c.close x.registry).1 = d := Option.some.inj hd
    unfold Channel.close
    split <;> exact ⟨rfl, rfl⟩
  · cases hd

-- What holds of a segment for good once an end of it was closed: it stays shut, its ends only
-- fail, none is attached to it any more, and whatever is made under a name is another segment,
-- with messages of its own.
structure Final (x : Exchange) (number : Nat) : Prop where
  shut : x.Shut number
  refused : ∀ j d, x.find j = some d → d.attachment = .attached number →
    (∀ a : Channel.Action, a.Fallible → ∃ e, (x.perform (.act j a)).1 = .failed e) ∧
      (x.perform (.act j .isOpen)).1 = .flag false
  unattached : ∀ op j d, (x.perform op).2.find j = some d → d.attachment = .attached number →
    x.find j = some d
  replaced : ∀ name capacity, (x.perform (.create name capacity)).1 = .done →
    ∃ other, (x.perform (.create name capacity)).2.registry.names.get? name = some other ∧
      other ≠ number ∧ ∀ ops,
        total (delivered other) ops (x.perform (.create name capacity)).2 <+:
          total (accepted other) ops (x.perform (.create name capacity)).2

theorem Shut.refused (h : x.Shut number) (hd : x.find j = some d)
    (hattached : d.attachment = .attached number) :
    (∀ a : Channel.Action, a.Fallible → ∃ e, (x.perform (.act j a)).1 = .failed e) ∧
      (x.perform (.act j .isOpen)).1 = .flag false := by
  constructor
  · intro a ha
    rw [perform_act hd]
    exact Channel.act_of_closed hattached h.segment ha
  · rw [perform_act hd]
    simp [Channel.act, Channel.isOpen, hattached, h.segment]

theorem Shut.unattached (h : x.Shut number) (hd : (x.perform op).2.find j = some d)
    (hattached : d.attachment = .attached number) : x.find j = some d := by
  obtain hsame | ⟨-, hnew⟩ | ⟨c, -, rfl | ⟨-, k, hopen, rfl⟩⟩ := find_perform hd
  · exact hsame
  · rw [hnew] at hattached
    cases hattached
  · cases hattached
  · cases hattached
    rw [h.segment] at hopen
    cases hopen

theorem Shut.replaced (h : x.Shut number) {capacity : Nat}
    (hdone : (x.perform (.create name capacity)).1 = .done) :
    ∃ other, (x.perform (.create name capacity)).2.registry.names.get? name = some other ∧
      other ≠ number ∧ ∀ ops,
        total (delivered other) ops (x.perform (.create name capacity)).2 <+:
          total (accepted other) ops (x.perform (.create name capacity)).2 := by
  obtain ⟨s, hs, -⟩ := h
  obtain ⟨hlt, -⟩ := List.getElem?_eq_some_iff.mp hs
  cases hcreate : x.registry.create name capacity with
  | error e =>
      simp only [perform, hcreate] at hdone
      cases hdone
  | ok created =>
      have hperform : x.perform (.create name capacity) = (.done, { x with registry := created }) := by
        simp only [perform, hcreate]
      obtain ⟨-, hcreated⟩ := Registry.create_eq_ok.mp hcreate
      have hname : created.names.get? name = some x.registry.segments.length := by
        rw [hcreated, NameMap.get?_insert_self]
      have hnew : created.segments[x.registry.segments.length]? = some (.empty capacity) := by
        simp [hcreated]
      rw [hperform]
      refine ⟨x.registry.segments.length, hname, hlt.ne', fun ops => ?_⟩
      obtain ⟨s', -, queued, haccount⟩ := run_turns (x := { x with registry := created })
        (P := fun ins outs s => ∃ queued, s.Account ins outs queued)
        (fun h hturn => h.elim fun _ haccount => haccount.turn hturn) [] [] ops hnew ⟨[], .empty capacity⟩
      exact (List.prefix_append _ queued).trans haccount.ordered

-- Closing is final, for the end and for its segment, whatever was done before and is done after.
theorem closing_final (r : Registry) (before later : List Operation) {a : Channel.Action}
    (hc : (run before (start r)).find i = some c) (ha : a = .close ∨ a = .drop) :
    (∀ d, (run (before ++ .act i a :: later) (start r)).find i = some d →
      (∀ b : Channel.Action, b.Fallible →
        ((run (before ++ .act i a :: later) (start r)).perform (.act i b)).1 =
          .failed (.closed c.name)) ∧
      ((run (before ++ .act i a :: later) (start r)).perform (.act i .isOpen)).1 = .flag false) ∧
    ∀ number, c.attachment = .attached number →
      (run (before ++ .act i a :: later) (start r)).Final number := by
  rw [run_append]
  constructor
  · intro d hd
    obtain ⟨hdetached, hname⟩ := ((retired_of_closing hc ha).run later).detached d hd
    constructor
    · intro b hb
      rw [perform_act hd, Channel.act_of_detached hdetached hb, hname]
    · rw [perform_act hd]
      simp [Channel.act, Channel.isOpen, hdetached]
  · intro number hattached
    have hshut := (shut_of_closing (sound_run r before) hc ha hattached).run later
    exact ⟨hshut, fun j d => hshut.refused, fun op j d => hshut.unattached,
      fun name capacity => hshut.replaced⟩

-- A message is on its way when the receiving end is closed. Then the name is given to another
-- segment.
def beforeClosing : List Operation :=
  [.create "seg" 32, .make "seg" .send, .make "seg" .receive, .act 0 .openEnd, .act 1 .openEnd,
    .act 0 (.write [7])]

def afterClosing : List Operation :=
  [.remove "seg", .create "seg" 32, .make "seg" .receive, .act 2 .openEnd, .act 0 (.write [8])]

theorem closing_final_pending :
    ((run (beforeClosing ++ .act 1 .close :: afterClosing) (start (.empty "p"))).perform
      (.act 1 .read)).1 = .failed (.closed "seg") ∧
    (run (beforeClosing ++ .act 1 .close :: afterClosing) (start (.empty "p"))).Final 0 := by
  obtain ⟨hend, hsegment⟩ := closing_final (.empty "p") beforeClosing afterClosing
    (i := 1) (c := ⟨"seg", .receive, .attached 0⟩) (by decide) (.inl rfl)
  exact ⟨(hend ⟨"seg", .receive, .detached⟩ (by decide)).1 .read trivial, hsegment 0 rfl⟩

end Exchange

end Covenant
