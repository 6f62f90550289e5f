import Covenant.Proofs.Bridge.Log
import Covenant.Proofs.Channel.Endpoint

namespace Covenant

variable {σ : Type}

-- Each look takes at least the length of a message.
theorem Channel.pending_read {c : Channel} {r r' : Registry} {message : Bytes}
    (h : c.read r = .ok (some message, r')) : c.pending r' < c.pending r := by
  obtain ⟨number, hc, hopen, hfound⟩ := read_eq_ok.mp h
  cases hpop : (r.segment number).pop with
  | none =>
      rw [hpop] at hfound
      cases hfound
  | some popped =>
      rw [hpop] at hfound
      cases hfound
      have hsegment : (r.update number fun _ => popped.2).segment number = popped.2 :=
        Registry.segment_of_getElem?
          (Registry.getElem?_update_self (Registry.getElem?_of_open hopen) fun _ => popped.2)
      have hshorter : popped.2.bytes.length < (r.segment number).bytes.length := by
        unfold Segment.pop at hpop
        split at hpop
        · rename_i hbytes
          cases hpop
          simp only [hbytes, List.length_drop, List.length_cons]
          omega
        · cases hpop
      simp only [pending, hc.attachment, hsegment, hshorter]

theorem Channel.read_nothing {c : Channel} {r r' : Registry} (h : c.read r = .ok (none, r')) :
    r' = r := by
  obtain ⟨number, -, -, hfound⟩ := read_eq_ok.mp h
  cases hpop : (r.segment number).pop with
  | none =>
      rw [hpop] at hfound
      exact (Prod.mk.inj hfound).2
  | some popped =>
      rw [hpop] at hfound
      cases hfound

namespace Session

variable {backend : Backend σ} {s s' s'' : Session σ} {r : Registry} {c : Client} {w : Worker σ}
variable {stage : Client.Stage} {task : Worker.Stage} {log : List Event} {id : Nat} {f : Formula}

def Reaches (backend : Backend σ) (s s' : Session σ) : Prop := ∃ moves, run backend moves s = s'

namespace Reaches

theorem refl (s : Session σ) : Reaches backend s s := ⟨[], rfl⟩

theorem trans (h : Reaches backend s s') (h' : Reaches backend s' s'') : Reaches backend s s'' := by
  obtain ⟨moves, rfl⟩ := h
  obtain ⟨moves', rfl⟩ := h'
  exact ⟨moves ++ moves', run_append backend moves moves' s⟩

theorem step (m : Move) (h : s.move backend m = s') : Reaches backend s s' := ⟨[m], h⟩

end Reaches

-- The worker

theorem reaches_stop (exit : WorkerExit) :
    Reaches backend ⟨r, c, stage, w, .stopping exit, log⟩
      ⟨(w.stop exit r).2, c, stage, (w.stop exit r).1, (w.stop exit r).1.resting, log⟩ :=
  ⟨[.worker, .worker], rfl⟩

theorem reaches_fallingBack {response : Response} {length free : Nat}
    (h : w.outbound.write response.encode r = .error (.overflow length free)) :
    Reaches backend ⟨r, c, stage, w, .answering response, log⟩
      ⟨r, c, stage, w, .fallingBack ⟨response.id, Worker.tooLong length free⟩, log⟩ :=
  .step .worker (by simp only [move, workerMove, reply, h])

theorem reaches_reply {response : Response} {r' : Registry}
    (h : Worker.reply w.outbound response r = .ok r') :
    Reaches backend ⟨r, c, stage, w, .answering response, log⟩ ⟨r', c, stage, w, .polling, log⟩ := by
  cases hwrite : w.outbound.write response.encode r with
  | ok written =>
      simp only [Worker.reply, hwrite] at h
      cases h
      exact .step .worker (by simp only [move, workerMove, reply, hwrite])
  | error e =>
      cases e with
      | overflow length free =>
          refine (reaches_fallingBack hwrite).trans (.step .worker ?_)
          simp only [Worker.reply, hwrite] at h
          simp only [move, workerMove, fallBack]
          split at h
          · rename_i hsecond
            cases h
            rw [Worker.tooLong, hsecond]
          · rw [Worker.tooLong, h]
      | _ => simp only [Worker.reply, hwrite] at h; cases h

theorem reaches_reply_error {response : Response} {e : ChannelError}
    (h : Worker.reply w.outbound response r = .error e) :
    Reaches backend ⟨r, c, stage, w, .answering response, log⟩
      ⟨r, c, stage, w, .stopping (.channelClosed e), log⟩ := by
  cases hwrite : w.outbound.write response.encode r with
  | ok written =>
      simp only [Worker.reply, hwrite] at h
      cases h
  | error e₀ =>
      cases e₀ with
      | overflow length free =>
          refine (reaches_fallingBack hwrite).trans (.step .worker ?_)
          simp only [Worker.reply, hwrite] at h
          simp only [move, workerMove, fallBack]
          split at h
          · cases h
          · rename_i hother
            rw [Worker.tooLong, h]
            cases e with
            | overflow l k => exact absurd h (hother l k)
            | _ => rfl
      | _ =>
          simp only [Worker.reply, hwrite] at h
          cases h
          exact .step .worker (by simp only [move, workerMove, reply, hwrite])

theorem resting_of_running (h : w.exit = none) : w.resting = .polling := by
  rw [Worker.resting, h]
  rfl

theorem reaches_handle (backend : Backend σ) (frame : Bytes) (hexit : w.exit = none) (r : Registry)
    (c : Client) (stage : Client.Stage) (log : List Event) :
    ∃ log', Reaches backend ⟨r, c, stage, w, .holding frame, log⟩
        ⟨(w.handle backend frame r).2, c, stage, (w.handle backend frame r).1,
          (w.handle backend frame r).1.resting, log'⟩ ∧
      conclusions log' = conclusions log := by
  cases hdecode : Request.decode frame with
  | error e =>
      rw [Worker.handle_dropped hdecode, resting_of_running hexit]
      exact ⟨log, .step .worker (by simp only [move, workerMove, solve, hdecode]), rfl⟩
  | ok request =>
      let answer := (backend request.formula w.state).1.answer
      let solved : Worker σ := { w with state := (backend request.formula w.state).2 }
      have hsolve : Reaches backend ⟨r, c, stage, w, .holding frame, log⟩
          ⟨r, c, stage, solved, .answering ⟨request.id, answer⟩,
            log ++ [.ran request.id request.formula answer]⟩ :=
        .step .worker (by simp only [move, workerMove, solve, hdecode, solved, answer])
      refine ⟨log ++ [.ran request.id request.formula answer], hsolve.trans ?_,
        (conclusions_append _ _).trans (List.append_nil _)⟩
      cases hreply : Worker.reply solved.outbound ⟨request.id, answer⟩ r with
      | ok r' =>
          have hhandle : w.handle backend frame r = (solved, r') := by
            simp only [Worker.handle, hdecode]
            rw [hreply]
          rw [hhandle, resting_of_running (w := solved) hexit]
          exact reaches_reply hreply
      | error e =>
          have hhandle : w.handle backend frame r = solved.stop (.channelClosed e) r := by
            simp only [Worker.handle, hdecode]
            rw [hreply]
          rw [hhandle]
          exact (reaches_reply_error hreply).trans (reaches_stop _)

-- Serving what is queued is a run in which only the worker moves.
theorem reaches_serveWithin (backend : Backend σ) (frames : Nat) (w : Worker σ) (r : Registry)
    (c : Client) (stage : Client.Stage) (log : List Event) :
    ∃ log', Reaches backend ⟨r, c, stage, w, w.resting, log⟩
        ⟨(w.serveWithin backend frames r).2, c, stage, (w.serveWithin backend frames r).1,
          (w.serveWithin backend frames r).1.resting, log'⟩ ∧
      conclusions log' = conclusions log := by
  induction frames generalizing w r log with
  | zero => exact ⟨log, .refl _, rfl⟩
  | succ frames ih =>
      cases hexit : w.exit with
      | some exit =>
          rw [Worker.serveWithin_of_exit hexit]
          exact ⟨log, .refl _, rfl⟩
      | none =>
          rw [resting_of_running hexit]
          cases hread : w.inbound.read r with
          | error e =>
              rw [Worker.serveWithin_of_error hexit hread]
              refine ⟨log, (Reaches.step .worker ?_).trans (reaches_stop _), rfl⟩
              simp only [move, workerMove, take, hread]
          | ok found =>
              obtain ⟨frame, r'⟩ := found
              cases frame with
              | none =>
                  obtain rfl := Channel.read_nothing hread
                  rw [Worker.serveWithin_of_nothing hexit hread]
                  split_ifs with hidle
                  · refine ⟨log, (Reaches.step .idle ?_).trans (reaches_stop _), rfl⟩
                    simp only [move, idle, hread]
                  · rw [resting_of_running hexit]
                    exact ⟨log, .refl _, rfl⟩
              | some frame =>
                  have htake : Reaches backend ⟨r, c, stage, w, .polling, log⟩
                      ⟨r', c, stage, w, .holding frame, log⟩ :=
                    .step .worker (by simp only [move, workerMove, take, hread])
                  obtain ⟨log₁, hhandle, hlog₁⟩ :=
                    reaches_handle backend frame hexit r' c stage log
                  obtain ⟨log₂, hrest, hlog₂⟩ :=
                    ih (w.handle backend frame r').1 (w.handle backend frame r').2 log₁
                  rw [Worker.serveWithin_of_frame hexit hread]
                  exact ⟨log₂, htake.trans (hhandle.trans hrest), hlog₂.trans hlog₁⟩

theorem reaches_serve (backend : Backend σ) (h : Host σ) (stage : Client.Stage) (log : List Event) :
    ∃ log', Reaches backend ⟨h.registry, h.client, stage, h.worker, h.worker.resting, log⟩
        ⟨(h.serve backend).registry, (h.serve backend).client, stage, (h.serve backend).worker,
          (h.serve backend).worker.resting, log'⟩ ∧
      conclusions log' = conclusions log :=
  reaches_serveWithin backend (h.worker.inbound.pending h.registry + 1) h.worker h.registry h.client
    stage log

-- The client

-- Both ends are closed, and the query ends with the reason.
theorem reaches_tearDown (id : Nat) (f : Formula) (reason : String) :
    Reaches backend ⟨r, c, .failing id f reason, w, task, log⟩
      ⟨(c.tearDown reason r).2.2, (c.tearDown reason r).2.1, .ready, w, task,
        log ++ [.gaveUp id f reason]⟩ :=
  ⟨[.client, .client], rfl⟩

-- A query that was refused, or that waits under its number.
inductive Submitted (backend : Backend σ) (w : Worker σ) (task : Worker.Stage) (f : Formula)
    (s : Session σ) : Client.Submission × Client × Registry → Prop
  | refused {answer : Answer} {c : Client} {r : Registry} {log : List Event}
      (hreaches : Reaches backend s ⟨r, c, .ready, w, task, log⟩)
      (hlog : conclusions log = conclusions s.log ++ [(f, answer)]) :
      Submitted backend w task f s (.refused answer, c, r)
  | sent {id : Nat} {c : Client} {r : Registry} {log : List Event}
      (hreaches : Reaches backend s ⟨r, c, .waiting id f, w, task, log⟩)
      (hlog : conclusions log = conclusions s.log) : Submitted backend w task f s (.sent id, c, r)

theorem Submitted.after {x : Client.Submission × Client × Registry} (hreaches : Reaches backend s s')
    (hlog : conclusions s'.log = conclusions s.log) (h : Submitted backend w task f s' x) :
    Submitted backend w task f s x := by
  cases h with
  | refused hreaches' hlog' => exact .refused (hreaches.trans hreaches') (hlog ▸ hlog')
  | sent hreaches' hlog' => exact .sent (hreaches.trans hreaches') (hlog'.trans hlog)

theorem submitted_tearDown (id : Nat) (reason : String) :
    Submitted backend w task f ⟨r, c, .failing id f reason, w, task, log⟩
      (Client.refuse (c.tearDown reason r)) :=
  .refused (reaches_tearDown id f reason) (conclusions_append _ _)

-- What was measured is written.
theorem submitted_cleared {free : Nat} (hfree : c.requests.freeLength r = .ok free)
    (hfits : ¬(Request.encode ⟨id, f⟩).length > free) :
    Submitted backend w task f ⟨r, c, .cleared id f, w, task, log⟩
      (c.send id (Request.encode ⟨id, f⟩) r) := by
  cases hwrite : c.requests.write (Request.encode ⟨id, f⟩) r with
  | error e =>
      have hsend : c.send id (Request.encode ⟨id, f⟩) r = Client.refuse (c.tearDown e.message r) := by
        simp only [Client.send, hfree, if_neg hfits, hwrite]
      have hpost : Reaches backend ⟨r, c, .cleared id f, w, task, log⟩
          ⟨r, c, .failing id f e.message, w, task, log⟩ :=
        .step .client (by simp only [move, clientMove, post, hwrite])
      rw [hsend]
      exact (submitted_tearDown id e.message).after hpost rfl
  | ok r' =>
      have hsend : c.send id (Request.encode ⟨id, f⟩) r = (.sent id, c, r') := by
        simp only [Client.send, hfree, if_neg hfits, hwrite]
      have hpost : Reaches backend ⟨r, c, .cleared id f, w, task, log⟩
          ⟨r', c, .waiting id f, w, task, log ++ [.sent id f]⟩ :=
        .step .client (by simp only [move, clientMove, post, hwrite])
      rw [hsend]
      exact .sent hpost ((conclusions_append _ _).trans (List.append_nil _))

theorem submitted (backend : Backend σ) (f : Formula) (c : Client) (r : Registry) (w : Worker σ)
    (task : Worker.Stage) (log : List Event) :
    Submitted backend w task f ⟨r, c, .ready, w, task, log⟩ (c.submit f r) := by
  obtain ⟨requests, responses, nextId, failed, timeoutMs⟩ := c
  cases failed with
  | some reason =>
      exact .refused (.step (.ask f) rfl) (conclusions_append _ _)
  | none =>
      let next : Client := ⟨requests, responses, nextId + 1, none, timeoutMs⟩
      have hasked : conclusions (log ++ [.asked nextId f]) = conclusions log :=
        (conclusions_append _ _).trans (List.append_nil _)
      change Submitted backend w task f _ (next.send nextId (Request.encode ⟨nextId, f⟩) r)
      cases hfree : next.requests.freeLength r with
      | error e =>
          have hsend : next.send nextId (Request.encode ⟨nextId, f⟩) r =
              Client.refuse (next.tearDown e.message r) := by
            simp only [Client.send, hfree]
          rw [hsend]
          refine (submitted_tearDown nextId e.message).after (.step (.ask f) ?_) hasked
          simp only [move, ask, hfree, next]
      | ok free =>
          by_cases hlong : (Request.encode ⟨nextId, f⟩).length > free
          · let length := (Request.encode ⟨nextId, f⟩).length
            let reason := s!"query of {length} bytes exceeds channel free length {free}"
            have hask : Reaches backend
                ⟨r, ⟨requests, responses, nextId, none, timeoutMs⟩, .ready, w, task, log⟩
                ⟨r, next, .ready, w, task,
                  log ++ [.asked nextId f] ++ [.refused f (.error (.backend reason))]⟩ :=
              .step (.ask f) (by simp only [move, ask, hfree, if_pos hlong, next, reason, length])
            simp only [Client.send, hfree, if_pos hlong]
            refine .refused hask ?_
            rw [conclusions_append, hasked]
            rfl
          · refine (submitted_cleared hfree hlong).after (.step (.ask f) ?_) hasked
            simp only [move, ask, hfree, if_neg hlong, next]

-- Looks at the responses, as many as there are bytes for, and gives up when none answers.
theorem reaches_conclude (backend : Backend σ) (id : Nat) (f : Formula) (c : Client)
    (w : Worker σ) (task : Worker.Stage) (log : List Event) (looks : Nat) (r : Registry)
    (hlooks : c.responses.pending r < looks) :
    ∃ log', Reaches backend ⟨r, c, .waiting id f, w, task, log⟩
        ⟨(c.concludeWithin id looks r).2.2, (c.concludeWithin id looks r).2.1, .ready, w, task, log'⟩ ∧
      conclusions log' = conclusions log ++ [(f, (c.concludeWithin id looks r).1)] := by
  induction looks generalizing r with
  | zero => omega
  | succ looks ih =>
      cases hread : c.responses.read r with
      | error e =>
          have hlook : Reaches backend ⟨r, c, .waiting id f, w, task, log⟩
              ⟨r, c, .failing id f e.message, w, task, log⟩ :=
            .step .client (by simp only [move, clientMove, look, hread])
          rw [Client.concludeWithin_of_error hread]
          exact ⟨_, hlook.trans (reaches_tearDown _ _ _), conclusions_append _ _⟩
      | ok found =>
          obtain ⟨frame, r'⟩ := found
          cases frame with
          | none =>
              obtain rfl := Channel.read_nothing hread
              have hgiveUp : Reaches backend ⟨r', c, .waiting id f, w, task, log⟩
                  ⟨r', c, .failing id f s!"no response within {c.timeoutMs} ms", w, task, log⟩ :=
                .step .giveUp (by simp only [move, giveUp, hread])
              rw [Client.concludeWithin_of_nothing hread]
              exact ⟨_, hgiveUp.trans (reaches_tearDown _ _ _), conclusions_append _ _⟩
          | some frame =>
              have hfewer := Channel.pending_read hread
              cases haccept : Client.accept id frame with
              | answered answer =>
                  rw [Client.concludeWithin_of_answered hread haccept]
                  refine ⟨log ++ [.answered id f answer], .step .client ?_, conclusions_append _ _⟩
                  simp only [move, clientMove, look, hread, haccept]
              | discarded =>
                  have hlook : Reaches backend ⟨r, c, .waiting id f, w, task, log⟩
                      ⟨r', c, .waiting id f, w, task, log⟩ :=
                    .step .client (by simp only [move, clientMove, look, hread, haccept])
                  obtain ⟨log', hrest, hlog'⟩ := ih r' (by omega)
                  rw [Client.concludeWithin_of_discarded hread haccept]
                  exact ⟨log', hlook.trans hrest, hlog'⟩
              | nothing => exact absurd haccept (Client.accept_ne_nothing id frame)

-- A query of a host is a run, in which the client says what the host says.
theorem reaches_check (backend : Backend σ) (f : Formula) (h : Host σ) (log : List Event) :
    ∃ log', Reaches backend (between log h) (between log' (h.check backend f).2) ∧
      conclusions log' = conclusions log ++ [(f, (h.check backend f).1)] := by
  have hsubmitted := submitted backend f h.client h.registry h.worker h.worker.resting log
  generalize hsubmit : h.client.submit f h.registry = x at hsubmitted
  cases hsubmitted with
  | @refused answer c r log₁ hreaches hlog₁ =>
      have hcheck : h.check backend f = (answer, ⟨r, c, h.worker⟩) := by
        simp only [Host.check, hsubmit]
      rw [hcheck]
      exact ⟨log₁, hreaches, hlog₁⟩
  | @sent id c r log₁ hreaches hlog₁ =>
      let sent : Host σ := ⟨r, c, h.worker⟩
      let served := if c.timeoutMs = 0 then sent else sent.serve backend
      have hcheck : h.check backend f = ((served.client.conclude id served.registry).1,
          ⟨(served.client.conclude id served.registry).2.2,
            (served.client.conclude id served.registry).2.1, served.worker⟩) := by
        simp only [Host.check, hsubmit, served, sent]
      obtain ⟨log₂, hserve, hlog₂⟩ : ∃ log₂,
          Reaches backend ⟨r, c, .waiting id f, h.worker, h.worker.resting, log₁⟩
            ⟨served.registry, served.client, .waiting id f, served.worker, served.worker.resting,
              log₂⟩ ∧
          conclusions log₂ = conclusions log₁ := by
        by_cases htime : c.timeoutMs = 0
        · have hserved : served = sent := if_pos htime
          rw [hserved]
          exact ⟨log₁, .refl _, rfl⟩
        · have hserved : served = sent.serve backend := if_neg htime
          rw [hserved]
          exact reaches_serve backend sent (.waiting id f) log₁
      obtain ⟨log₃, hconclude, hlog₃⟩ := reaches_conclude backend id f served.client served.worker
        served.worker.resting log₂ (served.client.responses.pending served.registry + 1)
        served.registry (Nat.lt_succ_self _)
      rw [hcheck]
      refine ⟨log₃, hreaches.trans (hserve.trans hconclude), hlog₃.trans ?_⟩
      rw [hlog₂, hlog₁]
      rfl

-- Queries one after the other.
theorem reaches_ask (backend : Backend σ) (fs : List Formula) (h : Host σ) (log : List Event) :
    ∃ log', Reaches backend (between log h) (between log' (Host.ask backend fs h).2) ∧
      conclusions log' = conclusions log ++ fs.zip (Host.ask backend fs h).1 := by
  induction fs generalizing h log with
  | nil => exact ⟨log, .refl _, (List.append_nil _).symm⟩
  | cons f rest ih =>
      obtain ⟨log₁, hcheck, hlog₁⟩ := reaches_check backend f h log
      obtain ⟨log₂, hrest, hlog₂⟩ := ih (h.check backend f).2 log₁
      refine ⟨log₂, hcheck.trans hrest, ?_⟩
      rw [hlog₂, hlog₁, List.append_assoc]
      rfl

end Session

end Covenant
