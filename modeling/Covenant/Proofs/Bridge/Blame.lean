import Covenant.Proofs.Bridge.Peer

namespace Covenant

variable {σ : Type} {requests responses : Nat} {reason : String}

namespace Client

-- A client that has failed: both ends are closed, and so are both segments.
structure Torn (c : Client) (requests responses : Nat) (reason : String) (r : Registry) : Prop where
  failed : c.failed = some reason
  sends : c.requests.attachment = .detached
  receives : c.responses.attachment = .detached
  requestQueue : (r.segment requests).Shut
  responseQueue : (r.segment responses).Shut

-- What a client says to a query that does not fit.
def refusal (length free : Nat) : Answer :=
  .error (.backend s!"query of {length} bytes exceeds channel free length {free}")

end Client

namespace Session

variable {backend : Backend σ} {start s s' : Session σ} {steps : List Step} {t : Step}
variable {r : Registry} {c : Client} {stage : Client.Stage} {w : Worker σ} {task : Worker.Stage}
variable {log : List Event} {id : Nat} {f : Formula}

-- Why a client gives up. It finds a segment closed while it has both of its ends, or there is no
-- response when its time is up.
inductive Cause (requests responses : Nat) (s : Session σ) : Step → String → Prop
  | requestsClosed {t : Step} (hclient : s.client.Connected requests responses)
      (hclosed : (s.registry.segment requests).closed = true) :
      Cause requests responses s t (ChannelError.closed s.client.requests.name).message
  | responsesClosed {t : Step} (hclient : s.client.Connected requests responses)
      (hclosed : (s.registry.segment responses).closed = true) :
      Cause requests responses s t (ChannelError.closed s.client.responses.name).message
  | timeout (hclient : s.client.Connected requests responses) {r : Registry}
      (hnothing : s.client.responses.read s.registry = .ok (none, r)) :
      Cause requests responses s (.move .giveUp) s!"no response within {s.client.timeoutMs} ms"

-- The length of each request that got a number can be told.
def Short (log : List Event) : Prop :=
  ∀ id f, .asked id f ∈ log → (Request.encode ⟨id, f⟩).length < Segment.lengthLimit

-- Some step before had a cause for the client to give up.
def Blamed (backend : Backend σ) (start : Session σ) (requests responses : Nat) (steps : List Step)
    (log : List Event) (reason : String) : Prop :=
  Short log → ∃ before t after, steps = before ++ t :: after ∧
    Cause requests responses (walk backend before start) t reason

theorem Blamed.step (h : Blamed backend start requests responses steps log reason) (t : Step) :
    Blamed backend start requests responses (steps ++ [t]) log reason := by
  intro hshort
  obtain ⟨before, t', after, rfl, hcause⟩ := h hshort
  exact ⟨before, t', after ++ [t], by simp, hcause⟩

theorem Blamed.tell (h : Blamed backend start requests responses steps log reason)
    (more : List Event) : Blamed backend start requests responses steps (log ++ more) reason :=
  fun hshort => h fun id f hasked => hshort id f (List.mem_append_left more hasked)

theorem Blamed.now (h : Short log → Cause requests responses (walk backend steps start) t reason) :
    Blamed backend start requests responses (steps ++ [t]) log reason :=
  fun hshort => ⟨steps, t, [], rfl, h hshort⟩

-- A client that has failed, and whom it blames.
def Fallen (blamed : String → Prop) (requests responses : Nat) (r : Registry) (c : Client) : Prop :=
  ∃ reason, c.Torn requests responses reason r ∧ blamed reason

-- What is known of a client in its stage. One that has both ends knows nothing of the segments,
-- but a request that was measured fits as long as the segment is open.
def Stance (blamed : String → Prop) (requests responses : Nat) (r : Registry) (log : List Event)
    (c : Client) : Client.Stage → Prop
  | .ready => c.Connected requests responses ∨ Fallen blamed requests responses r c
  | .cleared id f => c.Connected requests responses ∧ .asked id f ∈ log ∧
      ((r.segment requests).closed = false →
        (Request.encode ⟨id, f⟩).length ≤ (r.segment requests).free)
  | .waiting _ _ => c.Connected requests responses
  | .failing _ _ reason => c.Connected requests responses ∧ blamed reason
  | .closing _ _ reason => c.failed = none ∧ c.requests.attachment = .detached ∧
      c.responses.Attached .receive responses ∧ (r.segment requests).Shut ∧ blamed reason
  | .leaving | .gone => c.failed = none ∨ Fallen blamed requests responses r c

section Mono

variable {blamed blamed' : String → Prop} {r' : Registry} {log' : List Event}

theorem Fallen.failed (h : Fallen blamed requests responses r c) : c.failed ≠ none := by
  obtain ⟨reason, htorn, -⟩ := h
  simp [htorn.failed]

theorem Fallen.mono (h : Fallen blamed requests responses r c)
    (hblamed : ∀ reason, blamed reason → blamed' reason)
    (hshut : ∀ number, (r.segment number).Shut → (r'.segment number).Shut) :
    Fallen blamed' requests responses r' c := by
  obtain ⟨reason, htorn, hreason⟩ := h
  exact ⟨reason, ⟨htorn.failed, htorn.sends, htorn.receives, hshut _ htorn.requestQueue,
    hshut _ htorn.responseQueue⟩, hblamed reason hreason⟩

-- A client keeps its stance as long as requests are only taken and what is shut stays shut.
theorem Stance.mono (h : Stance blamed requests responses r log c stage)
    (hblamed : ∀ reason, blamed reason → blamed' reason) (hlog : log ⊆ log')
    (hdrains : ∃ others, Segment.Turn [] others (r.segment requests) (r'.segment requests))
    (hshut : ∀ number, (r.segment number).Shut → (r'.segment number).Shut) :
    Stance blamed' requests responses r' log' c stage := by
  cases stage with
  | ready => exact h.imp id fun hfallen => hfallen.mono hblamed hshut
  | cleared id f =>
      obtain ⟨hclient, hasked, hroom⟩ := h
      obtain ⟨others, hturn⟩ := hdrains
      refine ⟨hclient, hlog hasked, fun hopen => ?_⟩
      have hfits := hroom (hturn.open_of_open hopen)
      exact hfits.trans (hturn.free_le hopen)
  | waiting => exact h
  | failing => exact ⟨h.1, hblamed _ h.2⟩
  | closing =>
      obtain ⟨hfailed, hsends, hreceives, hrequests, hreason⟩ := h
      exact ⟨hfailed, hsends, hreceives, hshut _ hrequests, hblamed _ hreason⟩
  | leaving => exact h.imp id fun hfallen => hfallen.mono hblamed hshut
  | gone => exact h.imp id fun hfallen => hfallen.mono hblamed hshut

end Mono

-- What holds of a session after these steps.
structure Guarded (backend : Backend σ) (start : Session σ) (requests responses : Nat)
    (steps : List Step) (s : Session σ) : Prop where
  reached : s = walk backend steps start
  apart : requests ≠ responses
  inbound : s.worker.inbound.EndOf .receive requests
  outbound : s.worker.outbound.EndOf .send responses
  stance : Stance (Blamed backend start requests responses steps s.log) requests responses
    s.registry s.log s.client s.stage

-- What becomes of a query that is asked.

theorem ask_of_failed (hfailed : c.failed = some reason) :
    ask f ⟨r, c, stage, w, task, log⟩ =
      ⟨r, c, stage, w, task, log ++ [.refused f (.error (.unavailable reason))]⟩ := by
  simp only [ask, hfailed]

theorem ask_of_error {e : ChannelError} (hfailed : c.failed = none)
    (hfree : c.requests.freeLength r = .error e) :
    ask f ⟨r, c, stage, w, task, log⟩ =
      ⟨r, { c with nextId := c.nextId + 1 }, .failing c.nextId f e.message, w, task,
        log ++ [.asked c.nextId f]⟩ := by
  simp only [ask, hfailed, hfree]

theorem ask_of_long {free : Nat} (hfailed : c.failed = none)
    (hfree : c.requests.freeLength r = .ok free)
    (hlong : (Request.encode ⟨c.nextId, f⟩).length > free) :
    ask f ⟨r, c, stage, w, task, log⟩ =
      ⟨r, { c with nextId := c.nextId + 1 }, stage, w, task,
        log ++ [.asked c.nextId f] ++ [.refused f
          (Client.refusal (Request.encode ⟨c.nextId, f⟩).length free)]⟩ := by
  simp only [ask, hfailed, hfree, if_pos hlong, Client.refusal]

theorem ask_of_fits {free : Nat} (hfailed : c.failed = none)
    (hfree : c.requests.freeLength r = .ok free)
    (hfits : (Request.encode ⟨c.nextId, f⟩).length ≤ free) :
    ask f ⟨r, c, stage, w, task, log⟩ =
      ⟨r, { c with nextId := c.nextId + 1 }, .cleared c.nextId f, w, task,
        log ++ [.asked c.nextId f]⟩ := by
  simp only [ask, hfailed, hfree, if_neg (Nat.not_lt.mpr hfits)]

theorem post_of_ok {r' : Registry} (hwrite : c.requests.write (Request.encode ⟨id, f⟩) r = .ok r') :
    post id f ⟨r, c, stage, w, task, log⟩ =
      ⟨r', c, .waiting id f, w, task, log ++ [.sent id f]⟩ := by
  simp only [post, hwrite]

theorem look_of_answered {frame : Bytes} {r' : Registry} {answer : Answer}
    (hread : c.responses.read r = .ok (some frame, r'))
    (haccept : Client.accept id frame = .answered answer) :
    look id f ⟨r, c, stage, w, task, log⟩ =
      ⟨r', c, .ready, w, task, log ++ [.answered id f answer]⟩ := by
  simp only [look, hread, haccept]

-- An end that is closed already is not closed again.

theorem closeRequests_of_detached (h : c.requests.attachment = .detached) (next : Client.Stage) :
    closeRequests next ⟨r, c, stage, w, task, log⟩ = ⟨r, c, next, w, task, log⟩ := by
  simp only [closeRequests, Channel.close_of_detached h]

theorem closeResponses_of_detached (h : c.responses.attachment = .detached) (next : Client.Stage) :
    closeResponses c.failed next [] ⟨r, c, stage, w, task, log⟩ = ⟨r, c, next, w, task, log⟩ := by
  simp only [closeResponses, Channel.close_of_detached h, List.append_nil]

namespace Guarded

theorem peer (h : Guarded backend start requests responses steps s) (ht : ¬t.byClient) :
    Guarded backend start requests responses (steps ++ [t]) (s.step backend t) := by
  have hpeer := peer_of_not_byClient backend s ht
  obtain ⟨hin, hout⟩ := hpeer.ends h.inbound h.outbound
  obtain ⟨more, hlog, -⟩ := hpeer.log
  refine ⟨?_, h.apart, hin, hout, ?_⟩
  · rw [walk_append, ← h.reached]
    rfl
  · rw [hpeer.client, hpeer.stage, hlog]
    refine h.stance.mono (fun reason hblamed => (hblamed.step t).tell more)
      (List.subset_append_left _ _) ?_ fun number => hpeer.shut
    exact hpeer.drains h.inbound h.outbound h.apart

-- A step of the client.
theorem client (h : Guarded backend start requests responses steps s)
    (hstep : s.step backend t = s') (hworker : s'.worker = s.worker)
    (hstance : Stance (Blamed backend start requests responses (steps ++ [t]) s'.log) requests
      responses s'.registry s'.log s'.client s'.stage) :
    Guarded backend start requests responses (steps ++ [t]) s' := by
  refine ⟨?_, h.apart, hworker ▸ h.inbound, hworker ▸ h.outbound, hstance⟩
  rw [walk_append, ← h.reached, ← hstep]
  rfl

-- A step that changes nothing, or only tells more.
theorem tell (h : Guarded backend start requests responses steps ⟨r, c, stage, w, task, log⟩)
    {more : List Event}
    (hstep : step backend ⟨r, c, stage, w, task, log⟩ t = ⟨r, c, stage, w, task, log ++ more⟩) :
    Guarded backend start requests responses (steps ++ [t]) ⟨r, c, stage, w, task, log ++ more⟩ :=
  h.client hstep rfl <| h.stance.mono (fun _ hblamed => (hblamed.step t).tell more)
    (List.subset_append_left log more) ⟨[], .rest _⟩ fun _ hshut => hshut

theorem rest (h : Guarded backend start requests responses steps s)
    (hstep : s.step backend t = s) :
    Guarded backend start requests responses (steps ++ [t]) s := by
  obtain ⟨r, c, stage, w, task, log⟩ := s
  have htell := h.tell (hstep.trans (by rw [List.append_nil]))
  rwa [List.append_nil] at htell

theorem ask (h : Guarded backend start requests responses steps ⟨r, c, .ready, w, task, log⟩)
    (f : Formula) :
    Guarded backend start requests responses (steps ++ [.move (.ask f)])
      (Session.ask f ⟨r, c, .ready, w, task, log⟩) := by
  cases hfailed : c.failed with
  | some reason =>
      rw [ask_of_failed hfailed]
      exact h.tell (ask_of_failed hfailed)
  | none =>
      have hclient := h.stance.resolve_right fun hfallen => hfallen.failed hfailed
      cases hfree : c.requests.freeLength r with
      | error e =>
          obtain ⟨rfl, hclosed⟩ := hclient.sends.freeLength_eq_error hfree
          rw [ask_of_error hfailed hfree]
          refine h.client (ask_of_error hfailed hfree) rfl ⟨hclient.next, .now fun _ => ?_⟩
          rw [← h.reached]
          exact .requestsClosed hclient hclosed
      | ok free =>
          by_cases hlong : (Request.encode ⟨c.nextId, f⟩).length > free
          · rw [ask_of_long hfailed hfree hlong]
            exact h.client (ask_of_long hfailed hfree hlong) rfl (.inl hclient.next)
          · have hfits := Nat.le_of_not_lt hlong
            have hasked : .asked c.nextId f ∈ log ++ [.asked c.nextId f] :=
              List.mem_append_right log List.mem_cons_self
            rw [ask_of_fits hfailed hfree hfits]
            refine h.client (ask_of_fits hfailed hfree hfits) rfl ⟨hclient.next, hasked, fun _ => ?_⟩
            obtain ⟨number, hsends, -, rfl⟩ := Channel.freeLength_eq_ok.mp hfree
            obtain rfl := Attachment.attached.inj (hsends.attachment.symm.trans hclient.sends.attachment)
            exact hfits

theorem post (h : Guarded backend start requests responses steps ⟨r, c, .cleared id f, w, task, log⟩) :
    Guarded backend start requests responses (steps ++ [.move .client])
      (Session.post id f ⟨r, c, .cleared id f, w, task, log⟩) := by
  obtain ⟨hclient, hasked, hroom⟩ := h.stance
  cases hwrite : c.requests.write (Request.encode ⟨id, f⟩) r with
  | ok r' =>
      rw [post_of_ok hwrite]
      exact h.client (post_of_ok hwrite) rfl hclient
  | error e =>
      have hpost : Session.post id f ⟨r, c, .cleared id f, w, task, log⟩ =
          ⟨r, c, .failing id f e.message, w, task, log⟩ := by
        simp only [Session.post, hwrite]
      rw [hpost]
      refine h.client hpost rfl ⟨hclient, .now fun hshort => ?_⟩
      obtain ⟨rfl, hclosed⟩ := hclient.sends.write_eq_error hwrite (hshort id f hasked) hroom
      rw [← h.reached]
      exact .requestsClosed hclient hclosed

theorem look (h : Guarded backend start requests responses steps ⟨r, c, .waiting id f, w, task, log⟩) :
    Guarded backend start requests responses (steps ++ [.move .client])
      (Session.look id f ⟨r, c, .waiting id f, w, task, log⟩) := by
  have hclient : c.Connected requests responses := h.stance
  cases hread : c.responses.read r with
  | error e =>
      have hlook : Session.look id f ⟨r, c, .waiting id f, w, task, log⟩ =
          ⟨r, c, .failing id f e.message, w, task, log⟩ := by
        simp only [Session.look, hread]
      rw [hlook]
      refine h.client hlook rfl ⟨hclient, .now fun _ => ?_⟩
      obtain ⟨rfl, hclosed⟩ := hclient.receives.read_eq_error hread
      rw [← h.reached]
      exact .responsesClosed hclient hclosed
  | ok found =>
      obtain ⟨frame, r'⟩ := found
      cases frame with
      | none =>
          have hlook : Session.look id f ⟨r, c, .waiting id f, w, task, log⟩ =
              ⟨r, c, .waiting id f, w, task, log⟩ := by
            simp only [Session.look, hread]
          rw [hlook]
          exact h.rest hlook
      | some frame =>
          cases haccept : Client.accept id frame with
          | answered answer =>
              rw [look_of_answered hread haccept]
              exact h.client (look_of_answered hread haccept) rfl (.inl hclient)
          | _ =>
              have hlook : Session.look id f ⟨r, c, .waiting id f, w, task, log⟩ =
                  ⟨r', c, .waiting id f, w, task, log⟩ := by
                simp only [Session.look, hread, haccept]
              rw [hlook]
              exact h.client hlook rfl hclient

theorem giveUp
    (h : Guarded backend start requests responses steps ⟨r, c, .waiting id f, w, task, log⟩) :
    Guarded backend start requests responses (steps ++ [.move .giveUp])
      (Session.giveUp id f ⟨r, c, .waiting id f, w, task, log⟩) := by
  have hclient : c.Connected requests responses := h.stance
  have hrest : Session.giveUp id f ⟨r, c, .waiting id f, w, task, log⟩ =
        ⟨r, c, .waiting id f, w, task, log⟩ →
      Guarded backend start requests responses (steps ++ [.move .giveUp])
        (Session.giveUp id f ⟨r, c, .waiting id f, w, task, log⟩) := by
    intro hsame
    rw [hsame]
    exact h.rest hsame
  cases hread : c.responses.read r with
  | error e => exact hrest (by simp only [Session.giveUp, hread])
  | ok found =>
      obtain ⟨frame, r'⟩ := found
      cases frame with
      | some frame => exact hrest (by simp only [Session.giveUp, hread])
      | none =>
          have hgiveUp : Session.giveUp id f ⟨r, c, .waiting id f, w, task, log⟩ =
              ⟨r, c, .failing id f s!"no response within {c.timeoutMs} ms", w, task, log⟩ := by
            simp only [Session.giveUp, hread]
          rw [hgiveUp]
          refine h.client hgiveUp rfl ⟨hclient, .now fun _ => ?_⟩
          rw [← h.reached]
          exact .timeout hclient hread

theorem closeRequests
    (h : Guarded backend start requests responses steps ⟨r, c, .failing id f reason, w, task, log⟩) :
    Guarded backend start requests responses (steps ++ [.move .client])
      (Session.closeRequests (.closing id f reason) ⟨r, c, .failing id f reason, w, task, log⟩) := by
  obtain ⟨hclient, hblamed⟩ := h.stance
  refine h.client rfl rfl ⟨hclient.failed, ?_, hclient.receives, ?_, hblamed.step _⟩
  · change (c.requests.close r).1.attachment = .detached
    rw [Channel.close_of_attached hclient.sends.attachment]
  · exact Channel.shut_of_close hclient.sends.attachment r

theorem tearDown
    (h : Guarded backend start requests responses steps ⟨r, c, .closing id f reason, w, task, log⟩) :
    Guarded backend start requests responses (steps ++ [.move .client])
      (Session.closeResponses (some reason) .ready [.gaveUp id f reason]
        ⟨r, c, .closing id f reason, w, task, log⟩) := by
  obtain ⟨-, hsends, hreceives, hshut, hblamed⟩ := h.stance
  refine h.client rfl rfl (.inr ⟨reason, ⟨rfl, hsends, ?_, ?_, ?_⟩, (hblamed.step _).tell _⟩)
  · change (c.responses.close r).1.attachment = .detached
    rw [Channel.close_of_attached hreceives.attachment]
  · exact Channel.shut_act hshut c.responses .close
  · exact Channel.shut_of_close hreceives.attachment r

theorem leave (h : Guarded backend start requests responses steps ⟨r, c, .ready, w, task, log⟩) :
    Guarded backend start requests responses (steps ++ [.move .leave])
      (Session.closeRequests .leaving ⟨r, c, .ready, w, task, log⟩) := by
  rcases h.stance with hclient | hfallen
  · exact h.client rfl rfl (.inl hclient.failed)
  · obtain ⟨reason, htorn, hblamed⟩ := hfallen
    rw [closeRequests_of_detached htorn.sends]
    exact h.client (closeRequests_of_detached htorn.sends _) rfl (.inr ⟨reason, htorn, hblamed.step _⟩)

theorem depart (h : Guarded backend start requests responses steps ⟨r, c, .leaving, w, task, log⟩) :
    Guarded backend start requests responses (steps ++ [.move .client])
      (Session.closeResponses c.failed .gone [] ⟨r, c, .leaving, w, task, log⟩) := by
  rcases h.stance with hfailed | hfallen
  · exact h.client rfl rfl (.inl hfailed)
  · obtain ⟨reason, htorn, hblamed⟩ := hfallen
    rw [closeResponses_of_detached htorn.receives]
    exact h.client (closeResponses_of_detached htorn.receives _) rfl (.inr ⟨reason, htorn, hblamed.step _⟩)

theorem step (h : Guarded backend start requests responses steps s) (t : Step) :
    Guarded backend start requests responses (steps ++ [t]) (s.step backend t) := by
  obtain ⟨r, c, stage, w, task, log⟩ := s
  by_cases ht : t.byClient
  · cases t with
    | inbound a => cases ht
    | outbound a => cases ht
    | move m =>
        cases m with
        | ask f =>
            cases stage with
            | ready => exact h.ask f
            | _ => exact h.rest rfl
        | client =>
            cases stage with
            | ready => exact h.rest rfl
            | cleared id f => exact h.post
            | waiting id f => exact h.look
            | failing id f reason => exact h.closeRequests
            | closing id f reason => exact h.tearDown
            | leaving => exact h.depart
            | gone => exact h.rest rfl
        | giveUp =>
            cases stage with
            | waiting id f => exact h.giveUp
            | _ => exact h.rest rfl
        | leave =>
            cases stage with
            | ready => exact h.leave
            | _ => exact h.rest rfl
        | worker => cases ht
        | idle => cases ht
        | quit exit => cases ht
  · exact h.peer ht

theorem walk (h : Guarded backend start requests responses [] start) (steps : List Step) :
    Guarded backend start requests responses steps (walk backend steps start) := by
  induction steps using List.reverseRecOn with
  | nil => exact h
  | append_singleton steps t ih =>
      rw [walk_append]
      exact ih.step t

end Guarded

end Session

end Covenant
