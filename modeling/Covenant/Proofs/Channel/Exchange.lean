import Covenant.Proofs.Channel.Endpoint

namespace Covenant

-- What one operation does to a segment, with the messages that go in and those that come out.
inductive Segment.Turn : List Bytes → List Bytes → Segment → Segment → Prop
  | rest (s : Segment) : Turn [] [] s s
  | push {s : Segment} {message : Bytes} (hopen : s.closed = false)
      (hshort : message.length < lengthLimit) (hfree : message.length ≤ s.free) :
      Turn [message] [] s (s.push message)
  | pop {s s' : Segment} {message : Bytes} (hopen : s.closed = false)
      (hpop : s.pop = some (message, s')) : Turn [] [message] s s'
  | close (s : Segment) : Turn [] [] s s.close

-- What is done with one end.
inductive Channel.Action
  | openEnd
  | close
  | drop
  | write (message : Bytes)
  | read
  | freeLength
  | isOpen
  deriving DecidableEq, Repr

-- What comes of it. There is no answer from an end that was dropped or never made.
inductive Channel.Reply
  | done
  | failed (e : ChannelError)
  | found (message : Option Bytes)
  | free (length : Nat)
  | flag (b : Bool)
  | absent
  deriving DecidableEq, Repr

def Channel.Reply.message? : Reply → Option Bytes
  | .found message => message
  | _ => none

namespace Channel

-- The answer, the end unless it was dropped, and the segments.
def act (c : Channel) (r : Registry) : Action → Reply × Option Channel × Registry
  | .openEnd =>
      match c.openEnd r with
      | .ok opened => (.done, some opened, r)
      | .error e => (.failed e, some c, r)
  | .close => (.done, some (c.close r).1, (c.close r).2)
  | .drop => (.done, none, (c.close r).2)
  | .write message =>
      match c.write message r with
      | .ok written => (.done, some c, written)
      | .error e => (.failed e, some c, r)
  | .read =>
      match c.read r with
      | .ok result => (.found result.1, some c, result.2)
      | .error e => (.failed e, some c, r)
  | .freeLength =>
      match c.freeLength r with
      | .ok length => (.free length, some c, r)
      | .error e => (.failed e, some c, r)
  | .isOpen => (.flag (c.isOpen r), some c, r)

-- The messages that an action of the end puts into the segment.
def accepted (number : Nat) (c : Channel) (r : Registry) : Action → List Bytes
  | .write message =>
      if c.attachment = .attached number ∧ (c.act r (.write message)).1 = .done then [message]
      else []
  | _ => []

-- The messages that an action of the end takes out of the segment.
def delivered (number : Nat) (c : Channel) (r : Registry) : Action → List Bytes
  | .read =>
      if c.attachment = .attached number then (c.act r .read).1.message?.toList else []
  | _ => []

variable {c : Channel} {r : Registry} {number : Nat} {s : Segment}

theorem act_write_of_error {message : Bytes} {e : ChannelError} (h : c.write message r = .error e) :
    c.act r (.write message) = (.failed e, some c, r) := by
  simp only [act, h]

theorem act_write_of_ok {message : Bytes} {r' : Registry} (h : c.write message r = .ok r') :
    c.act r (.write message) = (.done, some c, r') := by
  simp only [act, h]

theorem act_read_of_error {e : ChannelError} (h : c.read r = .error e) :
    c.act r .read = (.failed e, some c, r) := by
  simp only [act, h]

theorem act_read_of_ok {result : Option Bytes × Registry} (h : c.read r = .ok result) :
    c.act r .read = (.found result.1, some c, result.2) := by
  simp only [act, h]

theorem act_openEnd_registry (c : Channel) (r : Registry) : (c.act r .openEnd).2.2 = r := by
  simp only [act]
  split <;> rfl

theorem act_freeLength_registry (c : Channel) (r : Registry) : (c.act r .freeLength).2.2 = r := by
  simp only [act]
  split <;> rfl

theorem close_turn (c : Channel) (h : r.segments[number]? = some s) :
    ∃ s', (c.close r).2.segments[number]? = some s' ∧ Segment.Turn [] [] s s' := by
  by_cases hc : c.attachment = .attached number
  · rw [close_of_attached hc]
    exact ⟨s.close, r.getElem?_update_self h _, .close s⟩
  · refine ⟨s, ?_, .rest s⟩
    cases ha : c.attachment with
    | attached other =>
        have hne : other ≠ number := by
          rintro rfl
          exact hc ha
        rw [close_of_attached ha]
        exact (r.getElem?_update_of_ne hne _).trans h
    | unopened => rwa [close_of_not_attached (by simp [ha])]
    | detached => rwa [close_of_not_attached (by simp [ha])]

theorem write_turn (c : Channel) (message : Bytes) (h : r.segments[number]? = some s) :
    ∃ s', (c.act r (.write message)).2.2.segments[number]? = some s' ∧
      Segment.Turn (c.accepted number r (.write message)) [] s s' := by
  cases hwrite : c.write message r with
  | error e =>
      simp only [accepted, act_write_of_error hwrite]
      exact ⟨s, h, by simpa using .rest s⟩
  | ok written =>
      obtain ⟨other, hc, hopen, hshort, hfree, rfl⟩ := write_eq_ok.mp hwrite
      simp only [accepted, act_write_of_ok hwrite, hc.attachment, Attachment.attached.injEq, and_true]
      by_cases hn : other = number
      · subst hn
        rw [r.segment_of_getElem? h] at hopen hfree
        refine ⟨_, r.getElem?_update_self h _, ?_⟩
        simpa using .push hopen hshort hfree
      · refine ⟨s, (r.getElem?_update_of_ne hn _).trans h, ?_⟩
        simpa [hn] using .rest s

theorem read_turn (c : Channel) (h : r.segments[number]? = some s) :
    ∃ s', (c.act r .read).2.2.segments[number]? = some s' ∧
      Segment.Turn [] (c.delivered number r .read) s s' := by
  cases hread : c.read r with
  | error e =>
      simp only [delivered, act_read_of_error hread]
      exact ⟨s, h, by simpa [Reply.message?] using .rest s⟩
  | ok result =>
      obtain ⟨other, hc, hopen, hresult⟩ := read_eq_ok.mp hread
      simp only [delivered, act_read_of_ok hread, hc.attachment, Attachment.attached.injEq]
      cases hpop : (r.segment other).pop with
      | none =>
          rw [hpop] at hresult
          obtain rfl : result = (none, r) := hresult
          exact ⟨s, h, by simpa [Reply.message?] using .rest s⟩
      | some popped =>
          rw [hpop] at hresult
          obtain rfl : result = (some popped.1, r.update other fun _ => popped.2) := hresult
          by_cases hn : other = number
          · subst hn
            rw [r.segment_of_getElem? h] at hopen hpop
            refine ⟨_, r.getElem?_update_self h _, ?_⟩
            simpa [Reply.message?] using .pop hopen hpop
          · refine ⟨s, (r.getElem?_update_of_ne hn _).trans h, ?_⟩
            simpa [hn] using .rest s

-- An action of an end is a turn of every segment, and it rests on all but one of them.
theorem act_turn (c : Channel) (a : Action) (h : r.segments[number]? = some s) :
    ∃ s', (c.act r a).2.2.segments[number]? = some s' ∧
      Segment.Turn (c.accepted number r a) (c.delivered number r a) s s' := by
  cases a with
  | openEnd => exact ⟨s, by rwa [act_openEnd_registry], .rest s⟩
  | close => exact c.close_turn h
  | drop => exact c.close_turn h
  | write message => exact c.write_turn message h
  | read => exact c.read_turn h
  | freeLength => exact ⟨s, by rwa [act_freeLength_registry], .rest s⟩
  | isOpen => exact ⟨s, h, .rest s⟩

-- An end changes nothing but the segment that it is attached to.
theorem act_effect (c : Channel) (r : Registry) (a : Action) :
    (c.act r a).2.2 = r ∨ ∃ number f, c.attachment = .attached number ∧
      (c.act r a).2.2 = r.update number f := by
  have hclose : (c.close r).2 = r ∨ ∃ number f, c.attachment = .attached number ∧
      (c.close r).2 = r.update number f := by
    cases ha : c.attachment with
    | attached number => exact .inr ⟨number, Segment.close, rfl, by rw [close_of_attached ha]⟩
    | unopened => exact .inl (by rw [close_of_not_attached (by simp [ha])])
    | detached => exact .inl (by rw [close_of_not_attached (by simp [ha])])
  cases a with
  | openEnd => exact .inl (act_openEnd_registry c r)
  | close => exact hclose
  | drop => exact hclose
  | write message =>
      cases hwrite : c.write message r with
      | error e => exact .inl (by rw [act_write_of_error hwrite])
      | ok written =>
          obtain ⟨number, hc, -, -, -, rfl⟩ := write_eq_ok.mp hwrite
          exact .inr ⟨number, _, hc.attachment, by rw [act_write_of_ok hwrite]⟩
  | read =>
      cases hread : c.read r with
      | error e => exact .inl (by rw [act_read_of_error hread])
      | ok result =>
          obtain ⟨number, hc, -, hresult⟩ := read_eq_ok.mp hread
          rw [act_read_of_ok hread]
          cases hpop : (r.segment number).pop with
          | none =>
              rw [hpop] at hresult
              exact .inl (congrArg Prod.snd hresult)
          | some popped =>
              rw [hpop] at hresult
              exact .inr ⟨number, _, hc.attachment, congrArg Prod.snd hresult⟩
  | freeLength => exact .inl (act_freeLength_registry c r)
  | isOpen => exact .inl rfl

theorem length_act (c : Channel) (r : Registry) (a : Action) :
    (c.act r a).2.2.segments.length = r.segments.length := by
  obtain hsame | ⟨number, f, -, hupdate⟩ := c.act_effect r a
  · rw [hsame]
  · rw [hupdate, Registry.length_update]

-- Nothing goes through a segment that is not there.
theorem act_of_missing (c : Channel) (a : Action) (h : r.segments[number]? = none) :
    c.accepted number r a = [] ∧ c.delivered number r a = [] := by
  have hclosed : ∀ other, (r.segment other).closed = false → other ≠ number := by
    rintro other hopen rfl
    rw [r.getElem?_of_open hopen] at h
    cases h
  cases a with
  | write message =>
      refine ⟨?_, rfl⟩
      cases hwrite : c.write message r with
      | error e => simp [accepted, act_write_of_error hwrite]
      | ok written =>
          obtain ⟨other, hc, hopen, -⟩ := write_eq_ok.mp hwrite
          simp [accepted, hc.attachment, hclosed other hopen]
  | read =>
      refine ⟨rfl, ?_⟩
      cases hread : c.read r with
      | error e => simp [delivered, act_read_of_error hread, Reply.message?]
      | ok result =>
          obtain ⟨other, hc, hopen, -⟩ := read_eq_ok.mp hread
          simp [delivered, hc.attachment, hclosed other hopen]
  | openEnd => exact ⟨rfl, rfl⟩
  | close => exact ⟨rfl, rfl⟩
  | drop => exact ⟨rfl, rfl⟩
  | freeLength => exact ⟨rfl, rfl⟩
  | isOpen => exact ⟨rfl, rfl⟩

-- An action that fails leaves all as it was.
theorem act_of_failed {e : ChannelError} {a : Action} (h : (c.act r a).1 = .failed e) :
    (c.act r a).2 = (some c, r) := by
  cases a with
  | openEnd =>
      cases hopen : c.openEnd r <;> simp only [act, hopen] at h ⊢
      cases h
  | write message =>
      cases hwrite : c.write message r <;> simp only [act, hwrite] at h ⊢
      cases h
  | read =>
      cases hread : c.read r <;> simp only [act, hread] at h ⊢
      cases h
  | freeLength =>
      cases hfree : c.freeLength r <;> simp only [act, hfree]
  | close => cases h
  | drop => cases h
  | isOpen => cases h

end Channel

-- A registry and the ends that were made on it, by number. A dropped end leaves its number unused.
structure Exchange where
  registry : Registry
  ends : List (Option Channel)
  deriving DecidableEq, Repr

namespace Exchange

open Segment (Turn)

inductive Operation
  | create (name : String) (capacity : Nat)
  | remove (name : String)
  | make (name : String) (mode : ChannelMode)
  | act (i : Nat) (action : Channel.Action)
  deriving DecidableEq, Repr

def start (r : Registry) : Exchange := ⟨r, []⟩

def find (x : Exchange) (i : Nat) : Option Channel := (x.ends[i]?).join

def perform (x : Exchange) : Operation → Channel.Reply × Exchange
  | .create name capacity =>
      match x.registry.create name capacity with
      | .ok created => (.done, { x with registry := created })
      | .error e => (.failed e, x)
  | .remove name =>
      (.flag (x.registry.contains name), { x with registry := x.registry.remove name })
  | .make name mode => (.done, { x with ends := x.ends ++ [some (.new name mode)] })
  | .act i action =>
      match x.find i with
      | none => (.absent, x)
      | some c =>
          let result := c.act x.registry action
          (result.1, ⟨result.2.2, x.ends.set i result.2.1⟩)

def accepted (number : Nat) (x : Exchange) : Operation → List Bytes
  | .act i action => (x.find i).elim [] fun c => c.accepted number x.registry action
  | _ => []

def delivered (number : Nat) (x : Exchange) : Operation → List Bytes
  | .act i action => (x.find i).elim [] fun c => c.delivered number x.registry action
  | _ => []

-- Operations of all ends, one after the other.
def run (ops : List Operation) (x : Exchange) : Exchange :=
  ops.foldl (fun x op => (x.perform op).2) x

-- What the operations of a run add up to.
def total (f : Exchange → Operation → List Bytes) : List Operation → Exchange → List Bytes
  | [], _ => []
  | op :: ops, x => f x op ++ total f ops (x.perform op).2

-- What operations make of a registry that begins empty.
def after (owner : String) (ops : List Operation) : Exchange := run ops (start (.empty owner))

variable {x : Exchange} {number i : Nat} {s : Segment} {c : Channel}

theorem run_append (before after : List Operation) (x : Exchange) :
    run (before ++ after) x = run after (run before x) :=
  List.foldl_append

theorem perform_act (h : x.find i = some c) (a : Channel.Action) :
    x.perform (.act i a) = ((c.act x.registry a).1,
      ⟨(c.act x.registry a).2.2, x.ends.set i (c.act x.registry a).2.1⟩) := by
  simp only [perform, h]

theorem perform_absent (h : x.find i = none) (a : Channel.Action) :
    x.perform (.act i a) = (.absent, x) := by
  simp only [perform, h]

theorem find_eq_some : x.find i = some c ↔ x.ends[i]? = some (some c) := Option.join_eq_some_iff

theorem set_find (h : x.find i = some c) : x.ends.set i (some c) = x.ends := by
  obtain ⟨hi, hc⟩ := List.getElem?_eq_some_iff.mp (find_eq_some.mp h)
  rw [← hc, List.set_getElem_self]

theorem perform_of_failed {op : Operation} {e : ChannelError} (h : (x.perform op).1 = .failed e) :
    (x.perform op).2 = x := by
  cases op with
  | create name capacity =>
      cases hcreate : x.registry.create name capacity <;> simp only [perform, hcreate] at h ⊢
      cases h
  | remove name => cases h
  | make name mode => cases h
  | act i a =>
      cases hfind : x.find i with
      | none => rw [perform_absent hfind]
      | some c =>
          rw [perform_act hfind] at h ⊢
          rw [Channel.act_of_failed h, set_find hfind]

theorem perform_turn (op : Operation) (h : x.registry.segments[number]? = some s) :
    ∃ s', (x.perform op).2.registry.segments[number]? = some s' ∧
      Turn (x.accepted number op) (x.delivered number op) s s' := by
  cases op with
  | create name capacity =>
      refine ⟨s, ?_, .rest s⟩
      cases hcreate : x.registry.create name capacity with
      | error e => simpa only [perform, hcreate] using h
      | ok created =>
          obtain ⟨-, rfl⟩ := Registry.create_eq_ok.mp hcreate
          simpa only [perform, hcreate] using
            (List.getElem?_append_left (List.getElem?_eq_some_iff.mp h).1).trans h
  | remove name => exact ⟨s, h, .rest s⟩
  | make name mode => exact ⟨s, h, .rest s⟩
  | act i a =>
      cases hfind : x.find i with
      | none =>
          rw [perform_absent hfind]
          exact ⟨s, h, by simpa [accepted, delivered, hfind] using .rest s⟩
      | some c =>
          rw [perform_act hfind]
          simpa [accepted, delivered, hfind] using c.act_turn a h

-- A segment begins empty, and nothing goes through it before.
theorem perform_missing (op : Operation) (h : x.registry.segments[number]? = none) :
    x.accepted number op = [] ∧ x.delivered number op = [] ∧
      ((x.perform op).2.registry.segments[number]? = none ∨
        ∃ capacity, (x.perform op).2.registry.segments[number]? = some (.empty capacity)) := by
  cases op with
  | create name capacity =>
      refine ⟨rfl, rfl, ?_⟩
      cases hcreate : x.registry.create name capacity with
      | error e => exact .inl (by simpa only [perform, hcreate] using h)
      | ok created =>
          obtain ⟨-, rfl⟩ := Registry.create_eq_ok.mp hcreate
          have hlength := List.getElem?_eq_none_iff.mp h
          simp only [perform, hcreate, List.getElem?_append_right hlength]
          cases number - x.registry.segments.length with
          | zero => exact .inr ⟨capacity, rfl⟩
          | succ k => exact .inl rfl
  | remove name => exact ⟨rfl, rfl, .inl h⟩
  | make name mode => exact ⟨rfl, rfl, .inl h⟩
  | act i a =>
      cases hfind : x.find i with
      | none =>
          rw [perform_absent hfind]
          exact ⟨by simp [accepted, hfind], by simp [delivered, hfind], .inl h⟩
      | some c =>
          obtain ⟨haccepted, hdelivered⟩ := c.act_of_missing a h
          have hlength := c.length_act x.registry a
          refine ⟨by simpa [accepted, hfind], by simpa [delivered, hfind], .inl ?_⟩
          rw [perform_act hfind, List.getElem?_eq_none_iff, hlength]
          exact List.getElem?_eq_none_iff.mp h

section Runs

variable {P : List Bytes → List Bytes → Segment → Prop}
  (hturn : ∀ {ins outs more others s s'}, P ins outs s → Turn more others s s' →
    P (ins ++ more) (outs ++ others) s')

-- What each turn of a segment keeps, a whole run keeps.
include hturn in
theorem run_turns (ins outs : List Bytes) (ops : List Operation)
    (h : x.registry.segments[number]? = some s) (hP : P ins outs s) :
    ∃ s', (run ops x).registry.segments[number]? = some s' ∧
      P (ins ++ total (accepted number) ops x) (outs ++ total (delivered number) ops x) s' := by
  induction ops generalizing x s ins outs with
  | nil => exact ⟨s, h, by simpa [total] using hP⟩
  | cons op ops ih =>
      obtain ⟨s₁, h₁, hone⟩ := x.perform_turn op h
      obtain ⟨s', h', hrest⟩ := ih _ _ h₁ (hturn hP hone)
      refine ⟨s', h', ?_⟩
      rwa [total, total, ← List.append_assoc, ← List.append_assoc]

include hturn in
theorem run_missing (hnew : ∀ capacity, P [] [] (.empty capacity)) (ops : List Operation)
    (h : x.registry.segments[number]? = none)
    (hs : (run ops x).registry.segments[number]? = some s) :
    P (total (accepted number) ops x) (total (delivered number) ops x) s := by
  induction ops generalizing x with
  | nil =>
      have hnone : (run [] x).registry.segments[number]? = none := h
      rw [hnone] at hs
      cases hs
  | cons op ops ih =>
      obtain ⟨haccepted, hdelivered, hnone | ⟨capacity, hempty⟩⟩ := x.perform_missing op h
      · rw [total, total, haccepted, hdelivered]
        exact ih hnone hs
      · obtain ⟨s', hs', hP⟩ := run_turns hturn [] [] ops hempty (hnew capacity)
        have heq : s' = s := Option.some.inj (hs'.symm.trans hs)
        rw [total, total, haccepted, hdelivered]
        exact heq ▸ hP

end Runs

end Exchange

end Covenant
