import Covenant.Proofs.Bridge.Blame

namespace Covenant

variable {σ : Type} {requests responses : Nat} {reason : String}

namespace Client

variable {c : Client} {r : Registry}

theorem Torn.check (h : c.Torn requests responses reason r) (f : Formula) :
    c.check f r = (.error (.unavailable reason), c, r) := by
  rw [Client.check, submit, h.failed]

-- A query that does not fit is refused, and nothing else happens.
theorem check_of_long {f : Formula} {free : Nat} (hfailed : c.failed = none)
    (hfree : c.requests.freeLength r = .ok free)
    (hlong : (Request.encode ⟨c.nextId, f⟩).length > free) :
    c.check f r = (refusal (Request.encode ⟨c.nextId, f⟩).length free,
      { c with nextId := c.nextId + 1 }, r) := by
  rw [check, submit, hfailed]
  simp only [send, hfree, if_pos hlong, refusal]

-- A response under the number that is waited for is passed on, whatever it says.
theorem conclude_of_answer {id : Nat} {frame : Bytes} {r' : Registry} {answer : Answer}
    (hread : c.responses.read r = .ok (some frame, r')) (haccept : accept id frame = .answered answer) :
    c.conclude id r = (answer, c, r') := by
  rw [conclude_eq]
  exact concludeWithin_of_answered hread haccept _

end Client

namespace Session

variable {backend : Backend σ} {start s s' : Session σ} {steps : List Step} {t : Step}
variable {r : Registry} {c : Client} {stage : Client.Stage} {w : Worker σ} {task : Worker.Stage}
variable {log : List Event} {id : Nat} {f : Formula}

theorem Stance.torn {blamed : String → Prop} (h : Stance blamed requests responses r log c stage)
    (hfailed : c.failed = some reason) :
    c.Torn requests responses reason r ∧ blamed reason ∧
      (stage = .ready ∨ stage = .leaving ∨ stage = .gone) := by
  have hnone : c.failed ≠ none := by simp [hfailed]
  have hfallen : Fallen blamed requests responses r c → c.Torn requests responses reason r ∧ blamed reason := by
    rintro ⟨reason', htorn, hblamed⟩
    obtain rfl : reason' = reason := Option.some.inj (htorn.failed.symm.trans hfailed)
    exact ⟨htorn, hblamed⟩
  cases stage with
  | ready =>
      obtain ⟨htorn, hblamed⟩ := hfallen (h.resolve_left fun hclient => hnone hclient.failed)
      exact ⟨htorn, hblamed, .inl rfl⟩
  | cleared id f => exact absurd h.1.failed hnone
  | waiting id f => exact absurd (Client.Connected.failed h) hnone
  | failing id f reason => exact absurd h.1.failed hnone
  | closing id f reason => exact absurd h.1 hnone
  | leaving =>
      obtain ⟨htorn, hblamed⟩ := hfallen (h.resolve_left hnone)
      exact ⟨htorn, hblamed, .inr (.inl rfl)⟩
  | gone =>
      obtain ⟨htorn, hblamed⟩ := hfallen (h.resolve_left hnone)
      exact ⟨htorn, hblamed, .inr (.inr rfl)⟩

-- After a failure: the client is as it was then, both segments stay closed and empty, and each query
-- is answered with the reason of the failure.
structure Aftermath (requests responses : Nat) (reason : String) (c : Client) (past : List Event)
    (s : Session σ) : Prop where
  client : s.client = c
  stage : s.stage = .ready ∨ s.stage = .leaving ∨ s.stage = .gone
  torn : s.client.Torn requests responses reason s.registry
  answers : ∃ fs : List Formula, conclusions s.log =
    conclusions past ++ fs.map fun f => (f, .error (.unavailable reason))

namespace Aftermath

variable {past : List Event}

theorem peer (h : Aftermath requests responses reason c past s) (hpeer : Peer s s') :
    Aftermath requests responses reason c past s' := by
  obtain ⟨more, hlog, hquiet⟩ := hpeer.log
  obtain ⟨fs, hanswers⟩ := h.answers
  have htorn := h.torn
  refine ⟨hpeer.client.trans h.client, hpeer.stage ▸ h.stage, ?_, fs, ?_⟩
  · rw [hpeer.client]
    exact ⟨htorn.failed, htorn.sends, htorn.receives, hpeer.shut htorn.requestQueue,
      hpeer.shut htorn.responseQueue⟩
  · rw [hlog, conclusions, List.filterMap_append]
    change conclusions s.log ++ conclusions more = _
    rw [hquiet, List.append_nil, hanswers]

theorem ask (h : Aftermath requests responses reason c past ⟨r, c, stage, w, task, log⟩)
    (f : Formula) :
    Aftermath requests responses reason c past
      ⟨r, c, stage, w, task, log ++ [.refused f (.error (.unavailable reason))]⟩ := by
  obtain ⟨fs, hanswers⟩ := h.answers
  refine ⟨rfl, h.stage, h.torn, fs ++ [f], ?_⟩
  rw [conclusions_append, hanswers, List.map_append, List.append_assoc]
  rfl

theorem leave (h : Aftermath requests responses reason c past ⟨r, c, .ready, w, task, log⟩) :
    Aftermath requests responses reason c past
      (closeRequests .leaving ⟨r, c, .ready, w, task, log⟩) := by
  rw [closeRequests_of_detached h.torn.sends]
  exact ⟨rfl, .inr (.inl rfl), h.torn, h.answers⟩

theorem depart (h : Aftermath requests responses reason c past ⟨r, c, .leaving, w, task, log⟩) :
    Aftermath requests responses reason c past
      (closeResponses c.failed .gone [] ⟨r, c, .leaving, w, task, log⟩) := by
  rw [closeResponses_of_detached h.torn.receives]
  exact ⟨rfl, .inr (.inr rfl), h.torn, h.answers⟩

theorem step (h : Aftermath requests responses reason c past s) (backend : Backend σ) (t : Step) :
    Aftermath requests responses reason c past (s.step backend t) := by
  by_cases ht : t.byClient
  · obtain ⟨r, c', stage, w, task, log⟩ := s
    obtain rfl : c' = c := h.client
    have hstage : stage = .ready ∨ stage = .leaving ∨ stage = .gone := h.stage
    cases t with
    | inbound a => cases ht
    | outbound a => cases ht
    | move m =>
        cases m with
        | ask f =>
            obtain rfl | rfl | rfl := hstage
            · change Aftermath requests responses reason c' past (Session.ask f _)
              rw [ask_of_failed h.torn.failed]
              exact h.ask f
            · exact h
            · exact h
        | client =>
            obtain rfl | rfl | rfl := hstage
            · exact h
            · exact h.depart
            · exact h
        | giveUp => obtain rfl | rfl | rfl := hstage <;> exact h
        | leave =>
            obtain rfl | rfl | rfl := hstage
            · exact h.leave
            · exact h
            · exact h
        | worker => cases ht
        | idle => cases ht
        | quit exit => cases ht
  · exact h.peer (peer_of_not_byClient backend s ht)

theorem walk (h : Aftermath requests responses reason c past s) (backend : Backend σ)
    (later : List Step) : Aftermath requests responses reason c past (walk backend later s) := by
  induction later generalizing s with
  | nil => exact h
  | cons t later ih => exact ih (h.step backend t)

end Aftermath

-- A query of the client is a run, in which the worker does nothing.
theorem reaches_clientCheck (backend : Backend σ) (f : Formula) (r : Registry) (c : Client)
    (w : Worker σ) (task : Worker.Stage) (log : List Event) :
    ∃ log', Reaches backend ⟨r, c, .ready, w, task, log⟩
        ⟨(c.check f r).2.2, (c.check f r).2.1, .ready, w, task, log'⟩ ∧
      conclusions log' = conclusions log ++ [(f, (c.check f r).1)] := by
  have hsubmitted := submitted backend f c r w task log
  generalize hsubmit : c.submit f r = x at hsubmitted
  cases hsubmitted with
  | @refused answer c' r' log₁ hreaches hlog₁ =>
      have hcheck : c.check f r = (answer, c', r') := by
        simp only [Client.check, hsubmit]
      rw [hcheck]
      exact ⟨log₁, hreaches, hlog₁⟩
  | @sent id c' r' log₁ hreaches hlog₁ =>
      have hcheck : c.check f r = c'.concludeWithin id (c'.responses.pending r' + 1) r' := by
        simp only [Client.check, hsubmit]
        rfl
      obtain ⟨log₂, hconclude, hlog₂⟩ := reaches_conclude backend id f c' w task log₁
        (c'.responses.pending r' + 1) r' (Nat.lt_succ_self _)
      rw [hcheck]
      exact ⟨log₂, hreaches.trans hconclude, hlog₂.trans (by rw [hlog₁])⟩

theorem walk_of_fits {free : Nat} (hclient : c.Connected requests responses)
    (hfree : c.requests.freeLength r = .ok free)
    (hshort : (Request.encode ⟨c.nextId, f⟩).length < Segment.lengthLimit)
    (hfits : (Request.encode ⟨c.nextId, f⟩).length ≤ free) :
    walk backend [.move (.ask f), .move .client] ⟨r, c, .ready, w, task, log⟩ =
      ⟨r.update requests (·.push (Request.encode ⟨c.nextId, f⟩)),
        { c with nextId := c.nextId + 1 }, .waiting c.nextId f, w, task,
        log ++ [.asked c.nextId f] ++ [.sent c.nextId f]⟩ := by
  obtain ⟨number, hsends, hopen, rfl⟩ := Channel.freeLength_eq_ok.mp hfree
  obtain rfl := Attachment.attached.inj (hsends.attachment.symm.trans hclient.sends.attachment)
  have hwrite := Channel.write_of_open hsends hopen (Request.encode ⟨c.nextId, f⟩)
  rw [if_pos ⟨hshort, hfits⟩] at hwrite
  change clientMove (ask f ⟨r, c, .ready, w, task, log⟩) = _
  rw [ask_of_fits hclient.failed hfree hfits]
  exact post_of_ok hwrite

-- A query that does not fit is refused. Nothing is written, the client keeps both of its ends, and
-- the next query that fits is sent.
structure Refused (backend : Backend σ) (requests responses free : Nat) (f : Formula)
    (s s' : Session σ) : Prop where
  registry : s'.registry = s.registry
  client : s'.client = { s.client with nextId := s.client.nextId + 1 }
  stage : s'.stage = .ready
  connected : s'.client.Connected requests responses
  answer : conclusions s'.log = conclusions s.log ++
    [(f, Client.refusal (Request.encode ⟨s.client.nextId, f⟩).length free)]
  check : s.client.check f s.registry =
    (Client.refusal (Request.encode ⟨s.client.nextId, f⟩).length free, s'.client, s'.registry)
  usable : ∀ g, (Request.encode ⟨s'.client.nextId, g⟩).length < Segment.lengthLimit →
    (Request.encode ⟨s'.client.nextId, g⟩).length ≤ free →
      let next := walk backend [.move (.ask g), .move .client] s'
      next.stage = .waiting s'.client.nextId g ∧
        next.registry = s.registry.update requests
          (·.push (Request.encode ⟨s'.client.nextId, g⟩))

theorem refused_of_long {free : Nat} (hclient : c.Connected requests responses)
    (hfree : c.requests.freeLength r = .ok free)
    (hlong : free < (Request.encode ⟨c.nextId, f⟩).length) :
    Refused backend requests responses free f ⟨r, c, .ready, w, task, log⟩
      (ask f ⟨r, c, .ready, w, task, log⟩) := by
  rw [ask_of_long hclient.failed hfree hlong]
  refine ⟨rfl, rfl, rfl, hclient.next, ?_, Client.check_of_long hclient.failed hfree hlong,
    fun g hshort hfits => ?_⟩
  · rw [conclusions_append, conclusions_append]
    exact congrArg (· ++ _) (List.append_nil _)
  · have hnext := hclient.next
    simp only [walk_of_fits hnext hfree hshort hfits, and_self]

-- What can be relied on after any steps of a session. A failure is final. A query that does not fit
-- does no harm. What was measured is written unless the segment was closed in between, so there
-- is always a closed segment or a timeout to blame. An answer is passed on, be it an error or not.
-- And a query of the client is made of such steps.
structure Resilient (backend : Backend σ) (start : Session σ) (requests responses : Nat)
    (steps : List Step) (s : Session σ) : Prop where
  final : ∀ reason, s.client.failed = some reason → ∀ later,
    let s' := walk backend later s
    Aftermath requests responses reason s.client s.log s' ∧
      ∀ f, s'.client.check f s'.registry = (.error (.unavailable reason), s'.client, s'.registry)
  refused : s.stage = .ready → s.client.failed = none → ∀ f free,
    s.client.requests.freeLength s.registry = .ok free →
    free < (Request.encode ⟨s.client.nextId, f⟩).length →
    Refused backend requests responses free f s (s.step backend (.move (.ask f)))
  written : ∀ id f, s.stage = .cleared id f →
    (Request.encode ⟨id, f⟩).length < Segment.lengthLimit →
    (∃ r, s.client.requests.write (Request.encode ⟨id, f⟩) s.registry = .ok r) ∨
      s.client.requests.write (Request.encode ⟨id, f⟩) s.registry =
        .error (.closed s.client.requests.name)
  blamed : ∀ reason, s.client.failed = some reason →
    Blamed backend start requests responses steps s.log reason
  answered : ∀ id f frame r answer, s.stage = .waiting id f →
    s.client.responses.read s.registry = .ok (some frame, r) →
    Response.decode frame = .ok ⟨id, answer⟩ →
    s.client.Connected requests responses ∧ s.client.conclude id s.registry = (answer, s.client, r) ∧
      s.step backend (.move .client) =
        ⟨r, s.client, .ready, s.worker, s.task, s.log ++ [.answered id f answer]⟩
  checks : s.stage = .ready → ∀ f, ∃ later log,
    walk backend later s = ⟨(s.client.check f s.registry).2.2, (s.client.check f s.registry).2.1,
        .ready, s.worker, s.task, log⟩ ∧
      conclusions log = conclusions s.log ++ [(f, (s.client.check f s.registry).1)]

theorem Guarded.resilient (h : Guarded backend start requests responses steps s) :
    Resilient backend start requests responses steps s := by
  obtain ⟨r, c, stage, w, task, log⟩ := s
  have hstance := h.stance
  refine ⟨?_, ?_, ?_, ?_, ?_, ?_⟩
  · intro reason hfailed later
    obtain ⟨htorn, -, hstage⟩ := hstance.torn hfailed
    have hnow : Aftermath requests responses reason c log ⟨r, c, stage, w, task, log⟩ :=
      ⟨rfl, hstage, htorn, [], (List.append_nil _).symm⟩
    exact ⟨hnow.walk backend later, (hnow.walk backend later).torn.check⟩
  · rintro rfl hfailed f free hfree hlong
    exact refused_of_long (hstance.resolve_right fun hfallen => hfallen.failed hfailed) hfree hlong
  · rintro id f rfl hshort
    obtain ⟨hclient, -, hroom⟩ := hstance
    cases hwrite : c.requests.write (Request.encode ⟨id, f⟩) r with
    | ok r' => exact .inl ⟨r', rfl⟩
    | error e =>
        obtain ⟨rfl, -⟩ := hclient.sends.write_eq_error hwrite hshort hroom
        exact .inr rfl
  · intro reason hfailed
    exact (hstance.torn hfailed).2.1
  · rintro id f frame r' answer rfl hread hdecode
    have haccept : Client.accept id frame = .answered answer := by
      rw [Client.accept, hdecode]
      exact if_pos rfl
    exact ⟨hstance, Client.conclude_of_answer hread haccept, look_of_answered hread haccept⟩
  · rintro rfl f
    obtain ⟨log', hreaches, hlog'⟩ := reaches_clientCheck backend f r c w task log
    obtain ⟨moves, hmoves⟩ := hreaches
    exact ⟨moves.map .move, log', (walk_moves backend moves _).trans hmoves, hlog'⟩

end Session

namespace Host

variable {h : Host σ} {state : σ} {config : BridgeConfig}

theorem failed_of_connect {requestName responseName : String} {r : Registry}
    (hconnect : connect requestName responseName state config r = .ok h) :
    h.client.failed = none := by
  simp only [connect, bind, Except.bind] at hconnect
  split at hconnect
  · cases hconnect
  · split at hconnect
    · cases hconnect
    · split at hconnect
      · cases hconnect
      · split at hconnect
        · cases hconnect
        · cases hconnect
          rfl

theorem Launched.guarded (hlaunched : h.Launched state config) (backend : Backend σ) :
    ∃ requests responses, h.client.Connected requests responses ∧
      Session.Guarded backend (.between [] h) requests responses [] (.between [] h) := by
  obtain ⟨requests, responses, hrequests, hresponses, hsound⟩ := hlaunched.sound backend
  obtain ⟨posted, given, current, hwired, -⟩ := hsound.flow
  obtain ⟨requestName, responseName, r, both, after, -, hconnect⟩ := hlaunched
  have hclient : h.client.Connected requests responses :=
    ⟨⟨hrequests, hwired.send.mode⟩, ⟨hresponses, hwired.receive.mode⟩, failed_of_connect hconnect⟩
  exact ⟨requests, responses, hclient, rfl, hwired.apart, hwired.inbound, hwired.outbound, .inl hclient⟩

end Host

namespace Session

-- Whatever the worker does with its ends, and in whatever order.
theorem failure_absorbing {state : σ} {config : BridgeConfig} {h : Host σ}
    (hlaunched : h.Launched state config) (backend : Backend σ) :
    ∃ requests responses, h.client.Connected requests responses ∧
      ∀ steps, Resilient backend (between [] h) requests responses steps
        (walk backend steps (between [] h)) := by
  obtain ⟨requests, responses, hclient, hguarded⟩ := hlaunched.guarded backend
  exact ⟨requests, responses, hclient, fun steps => (hguarded.walk steps).resilient⟩

-- A host with little room, as it comes up.
def narrowHost : Host Nat :=
  ⟨⟨"p", .empty, [.empty 64, .empty 64], 0⟩,
    .new ⟨"a", .send, .attached 0⟩ ⟨"b", .receive, .attached 1⟩ 1,
    .new ⟨"a", .receive, .attached 0⟩ ⟨"b", .send, .attached 1⟩ 0 1⟩

-- A query that is too long, one during which the worker drops an end, and one after that.
def droppingSteps : List Step :=
  [.move (.ask ⟨[.nots 3]⟩), .move (.ask ⟨[]⟩), .move .client, .outbound .drop, .move .client,
    .move .client, .move .client, .move (.ask ⟨[]⟩)]

theorem failure_absorbing_dropped :
    (∃ requests responses, Resilient Backend.counting (between [] narrowHost) requests responses
      droppingSteps (walk Backend.counting droppingSteps (between [] narrowHost))) ∧
      (walk Backend.counting droppingSteps (between [] narrowHost)).client.failed =
        some "channel `b` is closed" ∧
      conclusions (walk Backend.counting droppingSteps (between [] narrowHost)).log =
        [(⟨[.nots 3]⟩, .error (.backend "query of 73 bytes exceeds channel free length 60")),
          (⟨[]⟩, .error (.unavailable "channel `b` is closed")),
          (⟨[]⟩, .error (.unavailable "channel `b` is closed"))] := by
  have hlaunched : narrowHost.Launched 0 ⟨64, 1, 1⟩ := ⟨"a", "b", .empty "p", _, _, rfl, rfl⟩
  obtain ⟨requests, responses, -, hresilient⟩ := failure_absorbing hlaunched Backend.counting
  exact ⟨⟨requests, responses, hresilient droppingSteps⟩, by rfl, by rfl⟩

end Session

end Covenant
