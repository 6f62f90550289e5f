import Covenant.Proofs.Bridge.Agreement
import Covenant.Proofs.Channel.Capacity
import Covenant.Proofs.Channel.Closing

namespace Covenant

namespace Segment

variable {s s' : Segment} {more others : List Bytes}

-- Where nothing comes in there is no less room than before.
theorem Turn.free_le (h : Turn [] others s s') (hopen : s'.closed = false) : s.free ≤ s'.free := by
  cases h with
  | rest => exact Nat.le_refl _
  | pop _ hpop =>
      have hbytes := length_pop hpop
      have hcapacity := capacity_pop hpop
      unfold free
      omega
  | close => cases hopen

theorem Turn.open_of_open (h : Turn more others s s') (hopen : s'.closed = false) :
    s.closed = false := by
  cases h with
  | rest => exact hopen
  | push hs => exact hs
  | pop hs => exact hs
  | close => cases hopen

-- A segment that is closed and holds nothing.
structure Shut (s : Segment) : Prop where
  closed : s.closed = true
  bytes : s.bytes = []

theorem shut_close (s : Segment) : s.close.Shut := ⟨rfl, rfl⟩

theorem Shut.turn (h : s.Shut) (hturn : Turn more others s s') : s'.Shut := by
  cases hturn with
  | rest => exact h
  | push hopen =>
      rw [h.closed] at hopen
      cases hopen
  | pop hopen =>
      rw [h.closed] at hopen
      cases hopen
  | close => exact shut_close s

end Segment

namespace Channel

variable {c : Channel} {mode : ChannelMode} {r r' : Registry} {number other : Nat} {message : Bytes}
variable {e : ChannelError}

-- What is left of an end after an action. One that is dropped was closed.
def left (c : Channel) (r : Registry) (a : Action) : Channel :=
  (c.act r a).2.1.getD { c with attachment := .detached }

theorem EndOf.left (h : c.EndOf mode number) (r : Registry) (a : Action) :
    (c.left r a).EndOf mode number := by
  cases hend : (c.act r a).2.1 with
  | none =>
      rw [Channel.left, hend]
      exact ⟨h.mode, .inr rfl⟩
  | some d =>
      rw [Channel.left, hend]
      obtain rfl | rfl | ⟨hunopened, -⟩ := end_of_act hend
      · exact h
      · exact ⟨h.mode, .inr rfl⟩
      · rcases h.attachment with ha | ha <;> rw [hunopened] at ha <;> cases ha

-- As for a segment that is there. One that is not stays away.
theorem act_segment (c : Channel) (r : Registry) (a : Action) (number : Nat) :
    Segment.Turn (c.accepted number r a) (c.delivered number r a) (r.segment number)
      ((c.act r a).2.2.segment number) := by
  cases hs : r.segments[number]? with
  | some s =>
      obtain ⟨s', hs', hturn⟩ := c.act_turn a hs
      rwa [Registry.segment_of_getElem? hs, Registry.segment_of_getElem? hs']
  | none =>
      obtain ⟨haccepted, hdelivered⟩ := c.act_of_missing a hs
      have hs' : (c.act r a).2.2.segments[number]? = none := by
        rw [List.getElem?_eq_none_iff, length_act]
        exact List.getElem?_eq_none_iff.mp hs
      rw [haccepted, hdelivered, Registry.segment, Registry.segment, hs, hs']
      exact .rest _

-- Only an end that is open for sending, and only in its own segment, puts a message there.
theorem accepted_of_not_attached (h : ¬c.Attached .send number) (r : Registry) (a : Action) :
    c.accepted number r a = [] := by
  cases a with
  | write message =>
      cases hwrite : c.write message r with
      | error e => simp [accepted, act_write_of_error hwrite]
      | ok written =>
          obtain ⟨other, hc, -⟩ := write_eq_ok.mp hwrite
          refine if_neg fun hself => h ?_
          exact ⟨hself.1, hc.mode⟩
  | _ => rfl

theorem shut_act (h : (r.segment number).Shut) (c : Channel) (a : Action) :
    ((c.act r a).2.2.segment number).Shut :=
  h.turn (c.act_segment r a number)

-- Closing an end that is attached shuts its segment.
theorem shut_of_close (h : c.attachment = .attached number) (r : Registry) :
    ((c.close r).2.segment number).Shut := by
  rw [close_of_attached h]
  cases hs : r.segments[number]? with
  | some s =>
      rw [Registry.segment_of_getElem? (r.getElem?_update_self hs Segment.close)]
      exact s.shut_close
  | none =>
      have hs' : (r.update number Segment.close).segments[number]? = none := by
        rw [List.getElem?_eq_none_iff, Registry.length_update]
        exact List.getElem?_eq_none_iff.mp hs
      rw [Registry.segment, hs']
      exact (Segment.empty 0).shut_close

theorem close_of_detached (h : c.attachment = .detached) (r : Registry) : c.close r = (c, r) := by
  rw [close_of_not_attached (by simp [h])]
  cases c
  cases h
  rfl

-- What goes wrong with an end that is attached and open for its mode: only that its segment is
-- closed, or that a message does not fit.

theorem Attached.segmentFor_closed (hc : c.Attached mode number)
    (hclosed : (r.segment number).closed = true) : c.segmentFor mode r = .error (.closed c.name) := by
  simp [Channel.segmentFor, hc.attachment, hc.mode, hclosed]

theorem Attached.freeLength_eq_error (hc : c.Attached .send number) (h : c.freeLength r = .error e) :
    e = .closed c.name ∧ (r.segment number).closed = true := by
  cases hclosed : (r.segment number).closed with
  | false =>
      rw [freeLength_eq_ok.mpr ⟨number, hc, hclosed, rfl⟩] at h
      cases h
  | true =>
      rw [Channel.freeLength, hc.segmentFor_closed hclosed] at h
      cases h
      exact ⟨rfl, rfl⟩

theorem Attached.read_eq_error (hc : c.Attached .receive number) (h : c.read r = .error e) :
    e = .closed c.name ∧ (r.segment number).closed = true := by
  cases hclosed : (r.segment number).closed with
  | false =>
      rw [read_of_open hc hclosed] at h
      cases h
  | true =>
      simp only [Channel.read, hc.segmentFor_closed hclosed, bind, Except.bind] at h
      cases h
      exact ⟨rfl, rfl⟩

theorem Attached.write_eq_error (hc : c.Attached .send number) (h : c.write message r = .error e)
    (hshort : message.length < Segment.lengthLimit)
    (hroom : (r.segment number).closed = false → message.length ≤ (r.segment number).free) :
    e = .closed c.name ∧ (r.segment number).closed = true := by
  cases hclosed : (r.segment number).closed with
  | false =>
      rw [write_of_open hc hclosed, if_pos ⟨hshort, hroom hclosed⟩] at h
      cases h
  | true =>
      rw [Channel.write, hc.segmentFor_closed hclosed] at h
      cases h
      exact ⟨rfl, rfl⟩

end Channel

namespace Session

variable {σ : Type} {backend : Backend σ} {s s' : Session σ} {requests responses : Nat}

-- One more step of a session. Besides the moves that client and worker are made to make, anything
-- may be done with the two ends that the worker has.
inductive Step
  | move (m : Move)
  | inbound (a : Channel.Action)
  | outbound (a : Channel.Action)

def step (backend : Backend σ) (s : Session σ) : Step → Session σ
  | .move m => s.move backend m
  | .inbound a =>
      { s with
        registry := (s.worker.inbound.act s.registry a).2.2
        worker := { s.worker with inbound := s.worker.inbound.left s.registry a } }
  | .outbound a =>
      { s with
        registry := (s.worker.outbound.act s.registry a).2.2
        worker := { s.worker with outbound := s.worker.outbound.left s.registry a } }

def walk (backend : Backend σ) (steps : List Step) (s : Session σ) : Session σ :=
  steps.foldl (step backend) s

theorem walk_append (backend : Backend σ) (before after : List Step) (s : Session σ) :
    walk backend (before ++ after) s = walk backend after (walk backend before s) :=
  List.foldl_append

theorem walk_moves (backend : Backend σ) (moves : List Move) (s : Session σ) :
    walk backend (moves.map .move) s = run backend moves s :=
  List.foldl_map

-- More was told, but no query was concluded.
def Quiet (log log' : List Event) : Prop := ∃ more, log' = log ++ more ∧ conclusions more = []

theorem quiet_refl (log : List Event) : Quiet log log := ⟨[], (List.append_nil log).symm, rfl⟩

-- What the worker's side can do in a step: one action of one of its ends.
inductive Peer (s : Session σ) : Session σ → Prop
  | inbound {w : Worker σ} {task : Worker.Stage} {log : List Event} (a : Channel.Action)
      (hin : w.inbound = s.worker.inbound.left s.registry a)
      (hout : w.outbound = s.worker.outbound) (hlog : Quiet s.log log) :
      Peer s ⟨(s.worker.inbound.act s.registry a).2.2, s.client, s.stage, w, task, log⟩
  | outbound {w : Worker σ} {task : Worker.Stage} {log : List Event} (a : Channel.Action)
      (hin : w.inbound = s.worker.inbound)
      (hout : w.outbound = s.worker.outbound.left s.registry a) (hlog : Quiet s.log log) :
      Peer s ⟨(s.worker.outbound.act s.registry a).2.2, s.client, s.stage, w, task, log⟩

namespace Peer

theorem client (h : Peer s s') : s'.client = s.client := by cases h <;> rfl

theorem stage (h : Peer s s') : s'.stage = s.stage := by cases h <;> rfl

theorem log (h : Peer s s') : Quiet s.log s'.log := by
  cases h with
  | inbound a _ _ hlog => exact hlog
  | outbound a _ _ hlog => exact hlog

theorem shut (h : Peer s s') {number : Nat} (hshut : (s.registry.segment number).Shut) :
    (s'.registry.segment number).Shut := by
  cases h with
  | inbound a => exact Channel.shut_act hshut _ a
  | outbound a => exact Channel.shut_act hshut _ a

theorem ends (h : Peer s s') (hin : s.worker.inbound.EndOf .receive requests)
    (hout : s.worker.outbound.EndOf .send responses) :
    s'.worker.inbound.EndOf .receive requests ∧ s'.worker.outbound.EndOf .send responses := by
  cases h with
  | inbound a hin' hout' => exact ⟨hin' ▸ hin.left s.registry a, hout' ▸ hout⟩
  | outbound a hin' hout' => exact ⟨hin' ▸ hin, hout' ▸ hout.left s.registry a⟩

-- The worker has no end through which a request could come in.
theorem drains (h : Peer s s') (hin : s.worker.inbound.EndOf .receive requests)
    (hout : s.worker.outbound.EndOf .send responses) (hapart : requests ≠ responses) :
    ∃ others, Segment.Turn [] others (s.registry.segment requests)
      (s'.registry.segment requests) := by
  cases h with
  | inbound a =>
      have hnone : ¬s.worker.inbound.Attached .send requests := by
        intro hc
        have hmode := hin.mode.symm.trans hc.mode
        cases hmode
      have hturn := s.worker.inbound.act_segment s.registry a requests
      rw [Channel.accepted_of_not_attached hnone] at hturn
      exact ⟨_, hturn⟩
  | outbound a =>
      have hnone : ¬s.worker.outbound.Attached .send requests := by
        intro hc
        exact hapart (hout.eq_of_attached hc)
      have hturn := s.worker.outbound.act_segment s.registry a requests
      rw [Channel.accepted_of_not_attached hnone] at hturn
      exact ⟨_, hturn⟩

end Peer

section Moves

variable {r r' : Registry} {c : Client} {stage : Client.Stage} {w : Worker σ}
variable {task task' : Worker.Stage} {log log' : List Event}

-- A step in which the worker leaves its ends alone.
theorem peer_rest {state : σ} (hlog : Quiet log log') :
    Peer ⟨r, c, stage, w, task, log⟩ ⟨r, c, stage, { w with state }, task', log'⟩ :=
  .inbound .isOpen rfl rfl hlog

theorem peer_task : Peer ⟨r, c, stage, w, task, log⟩ ⟨r, c, stage, w, task', log⟩ :=
  peer_rest (quiet_refl log)

theorem peer_take : Peer ⟨r, c, stage, w, task, log⟩ (take ⟨r, c, stage, w, task, log⟩) := by
  cases hread : w.inbound.read r with
  | error e =>
      simp only [take, hread]
      exact peer_task
  | ok found =>
      obtain ⟨frame, r'⟩ := found
      cases frame with
      | none =>
          simp only [take, hread]
          exact peer_task
      | some frame =>
          have hact := Channel.act_read_of_ok hread
          have hpeer : Peer ⟨r, c, stage, w, task, log⟩
              ⟨(w.inbound.act r .read).2.2, c, stage, w, .holding frame, log⟩ := by
            refine .inbound .read ?_ rfl (quiet_refl log)
            rw [Channel.left, hact]
            rfl
          simp only [take, hread]
          rwa [hact] at hpeer

theorem peer_idle : Peer ⟨r, c, stage, w, task, log⟩ (idle ⟨r, c, stage, w, task, log⟩) := by
  unfold idle
  split
  · exact peer_task
  · exact peer_task

theorem peer_solve (backend : Backend σ) (frame : Bytes) :
    Peer ⟨r, c, stage, w, task, log⟩ (solve backend frame ⟨r, c, stage, w, task, log⟩) := by
  unfold solve
  split
  · exact peer_task
  · exact peer_rest ⟨_, rfl, rfl⟩

theorem peer_written {message : Bytes} (hwrite : w.outbound.write message r = .ok r') :
    Peer ⟨r, c, stage, w, task, log⟩ ⟨r', c, stage, w, task', log⟩ := by
  have hact := Channel.act_write_of_ok hwrite
  have hpeer : Peer ⟨r, c, stage, w, task, log⟩
      ⟨(w.outbound.act r (.write message)).2.2, c, stage, w, task', log⟩ := by
    refine .outbound (.write message) rfl ?_ (quiet_refl log)
    rw [Channel.left, hact]
    rfl
  rwa [hact] at hpeer

theorem peer_reply (response : Response) :
    Peer ⟨r, c, stage, w, task, log⟩ (reply response ⟨r, c, stage, w, task, log⟩) := by
  unfold reply
  split
  · rename_i hwrite
    exact peer_written hwrite
  · exact peer_task
  · exact peer_task

theorem peer_fallBack (response : Response) :
    Peer ⟨r, c, stage, w, task, log⟩ (fallBack response ⟨r, c, stage, w, task, log⟩) := by
  unfold fallBack
  split
  · rename_i hwrite
    exact peer_written hwrite
  · exact peer_task
  · exact peer_task

theorem peer_workerMove (backend : Backend σ) (s : Session σ) : Peer s (s.workerMove backend) := by
  obtain ⟨r, c, stage, w, task, log⟩ := s
  cases task with
  | polling => exact peer_take
  | holding frame => exact peer_solve backend frame
  | answering response => exact peer_reply response
  | fallingBack response => exact peer_fallBack response
  | stopping exit => exact .inbound .close rfl rfl (quiet_refl log)
  | closing exit => exact .outbound .close rfl rfl (quiet_refl log)
  | stopped => exact peer_task

end Moves

-- The steps of the client. All others are steps of the worker's side.
def Step.byClient : Step → Prop
  | .move (.ask _) | .move .client | .move .giveUp | .move .leave => True
  | _ => False

theorem peer_of_not_byClient (backend : Backend σ) (s : Session σ) {t : Step} (ht : ¬t.byClient) :
    Peer s (s.step backend t) := by
  cases t with
  | inbound a => exact .inbound a rfl rfl (quiet_refl _)
  | outbound a => exact .outbound a rfl rfl (quiet_refl _)
  | move m =>
      cases m with
      | ask f => exact absurd trivial ht
      | client => exact absurd trivial ht
      | giveUp => exact absurd trivial ht
      | leave => exact absurd trivial ht
      | worker => exact peer_workerMove backend s
      | idle =>
          obtain ⟨r, c, stage, w, task, log⟩ := s
          cases task with
          | polling => exact peer_idle
          | _ => exact peer_task
      | quit exit =>
          obtain ⟨r, c, stage, w, task, log⟩ := s
          cases task <;> exact peer_task

end Session

end Covenant
