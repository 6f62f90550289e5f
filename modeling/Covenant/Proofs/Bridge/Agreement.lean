import Covenant.Proofs.Bridge.Schedule
import Covenant.Proofs.Channel.Ends

namespace Covenant

variable {σ : Type}

-- How many requests a worker has at hand.
def Worker.Stage.load : Worker.Stage → Nat
  | .holding _ | .answering _ | .fallingBack _ => 1
  | .polling | .stopping _ | .closing _ | .stopped => 0

-- What may be on its way while the client is in that stage. Whatever a client that has given up
-- leaves behind, it never looks at again.
def Client.Stage.Awaits (failed : Option String) (current : Option (Nat × Formula)) :
    Client.Stage → Prop
  | .ready => failed = none → current = none
  | .cleared _ _ => current = none
  | .waiting id f | .failing id f _ | .closing id f _ => current = none ∨ current = some (id, f)
  | .leaving | .gone => True

theorem Client.Stage.Awaits.lost {stage : Client.Stage} {failed : Option String}
    {current current' : Option (Nat × Formula)} (h : stage.Awaits failed current)
    (hlost : current' = none ∨ current' = current) : stage.Awaits failed current' := by
  rcases hlost with rfl | rfl
  · cases stage with
    | ready => exact fun _ => rfl
    | cleared => exact rfl
    | waiting => exact .inl rfl
    | failing => exact .inl rfl
    | closing => exact .inl rfl
    | leaving => trivial
    | gone => trivial
  · exact h

namespace Session

variable {log : List Event} {e : Event} {id nextId : Nat} {f : Formula} {answer : Answer}
variable {stage : Client.Stage}

-- Messages on their way

-- The ends of two segments, with what is queued in them: the client has one end of each, and the
-- worker the other.
structure Wired (requests responses : Nat) (posted given : List Bytes)
    (send receive inbound outbound : Channel) (r : Registry) : Prop where
  apart : requests ≠ responses
  send : send.EndOf .send requests
  receive : receive.EndOf .receive responses
  inbound : inbound.EndOf .receive requests
  outbound : outbound.EndOf .send responses
  requestQueue : r.Queues requests posted
  responseQueue : r.Queues responses given

namespace Wired

variable {requests responses : Nat} {posted given : List Bytes} {r r' : Registry} {message : Bytes}
variable {send receive inbound outbound : Channel}

-- What happens to the requests leaves the responses as they are, and the other way round.
theorem withRequests (h : Wired requests responses posted given send receive inbound outbound r)
    {left : List Bytes} (hqueue : r'.Queues requests left) (hspares : r.Spares requests r') :
    Wired requests responses left given send receive inbound outbound r' :=
  { h with
    requestQueue := hqueue
    responseQueue := hspares _ _ h.apart h.responseQueue }

theorem withResponses (h : Wired requests responses posted given send receive inbound outbound r)
    {left : List Bytes} (hqueue : r'.Queues responses left) (hspares : r.Spares responses r') :
    Wired requests responses posted left send receive inbound outbound r' :=
  { h with
    requestQueue := hspares _ _ h.apart.symm h.requestQueue
    responseQueue := hqueue }

theorem posting (h : Wired requests responses posted given send receive inbound outbound r)
    (hwrite : send.write message r = .ok r') :
    Wired requests responses (posted ++ [message]) given send receive inbound outbound r' := by
  obtain ⟨hqueue, hspares⟩ := h.send.write h.requestQueue hwrite
  exact h.withRequests hqueue hspares

theorem giving (h : Wired requests responses posted given send receive inbound outbound r)
    (hwrite : outbound.write message r = .ok r') :
    Wired requests responses posted (given ++ [message]) send receive inbound outbound r' := by
  obtain ⟨hqueue, hspares⟩ := h.outbound.write h.responseQueue hwrite
  exact h.withResponses hqueue hspares

theorem taking (h : Wired requests responses posted given send receive inbound outbound r)
    (hread : inbound.read r = .ok (some message, r')) :
    ∃ rest, posted = message :: rest ∧
      Wired requests responses rest given send receive inbound outbound r' := by
  obtain ⟨rest, hposted, hqueue, hspares⟩ := h.inbound.read h.requestQueue hread
  exact ⟨rest, hposted, h.withRequests hqueue hspares⟩

theorem receiving (h : Wired requests responses posted given send receive inbound outbound r)
    (hread : receive.read r = .ok (some message, r')) :
    ∃ rest, given = message :: rest ∧
      Wired requests responses posted rest send receive inbound outbound r' := by
  obtain ⟨rest, hgiven, hqueue, hspares⟩ := h.receive.read h.responseQueue hread
  exact ⟨rest, hgiven, h.withResponses hqueue hspares⟩

theorem closeSend (h : Wired requests responses posted given send receive inbound outbound r) :
    ∃ left, (left = posted ∨ left = []) ∧ Wired requests responses left given (send.close r).1
      receive inbound outbound (send.close r).2 := by
  obtain ⟨hend, ⟨left, hleft, hqueue⟩, hspares⟩ := h.send.close h.requestQueue
  exact ⟨left, hleft, { h.withRequests hqueue hspares with send := hend }⟩

theorem closeReceive (h : Wired requests responses posted given send receive inbound outbound r) :
    ∃ left, (left = given ∨ left = []) ∧ Wired requests responses posted left send
      (receive.close r).1 inbound outbound (receive.close r).2 := by
  obtain ⟨hend, ⟨left, hleft, hqueue⟩, hspares⟩ := h.receive.close h.responseQueue
  exact ⟨left, hleft, { h.withResponses hqueue hspares with receive := hend }⟩

theorem closeInbound (h : Wired requests responses posted given send receive inbound outbound r) :
    ∃ left, (left = posted ∨ left = []) ∧ Wired requests responses left given send receive
      (inbound.close r).1 outbound (inbound.close r).2 := by
  obtain ⟨hend, ⟨left, hleft, hqueue⟩, hspares⟩ := h.inbound.close h.requestQueue
  exact ⟨left, hleft, { h.withRequests hqueue hspares with inbound := hend }⟩

theorem closeOutbound (h : Wired requests responses posted given send receive inbound outbound r) :
    ∃ left, (left = given ∨ left = []) ∧ Wired requests responses posted left send receive inbound
      (outbound.close r).1 (outbound.close r).2 := by
  obtain ⟨hend, ⟨left, hleft, hqueue⟩, hspares⟩ := h.outbound.close h.responseQueue
  exact ⟨left, hleft, { h.withResponses hqueue hspares with outbound := hend }⟩

end Wired

-- An answer that can be read back, and that the solver gave to the request.
structure Carried (log : List Event) (id : Nat) (f : Formula) (answer : Answer) : Prop where
  counted : id < Request.idLimit
  genuine : Genuine log id f answer

theorem Carried.append (h : Carried log id f answer) (e : Event) : Carried (log ++ [e]) id f answer :=
  ⟨h.counted, h.genuine.append e⟩

-- The one request that is on its way: from the client, with the worker, or back.
inductive InTransit (log : List Event) :
    List Bytes → Worker.Stage → List Bytes → Option (Nat × Formula) → Prop
  | nothing {task : Worker.Stage} (hfree : task.load = 0) : InTransit log [] task [] none
  | requested {task : Worker.Stage} {id : Nat} {f : Formula} (hfree : task.load = 0)
      (hsent : .sent id f ∈ log) (hnew : id ∉ (runs log).map (·.1)) :
      InTransit log [Request.encode ⟨id, f⟩] task [] (some (id, f))
  | held {id : Nat} {f : Formula} (hsent : .sent id f ∈ log) (hnew : id ∉ (runs log).map (·.1)) :
      InTransit log [] (.holding (Request.encode ⟨id, f⟩)) [] (some (id, f))
  | answering {id : Nat} {f : Formula} {answer : Answer} (hcarried : Carried log id f answer)
      (hran : .ran id f answer ∈ log) :
      InTransit log [] (.answering ⟨id, answer⟩) [] (some (id, f))
  | fallingBack {id : Nat} {f : Formula} {answer : Answer} (hcarried : Carried log id f answer) :
      InTransit log [] (.fallingBack ⟨id, answer⟩) [] (some (id, f))
  | answered {task : Worker.Stage} {id : Nat} {f : Formula} {answer : Answer}
      (hfree : task.load = 0) (hcarried : Carried log id f answer) :
      InTransit log [] task [Response.encode ⟨id, answer⟩] (some (id, f))

namespace InTransit

variable {posted given left : List Bytes} {task task' : Worker.Stage}
variable {current : Option (Nat × Formula)}

theorem length_le (h : InTransit log posted task given current) :
    posted.length + task.load + given.length ≤ 1 := by
  cases h with
  | nothing hfree => simp [hfree]
  | requested hfree => simp [hfree]
  | held => exact Nat.le_refl _
  | answering => exact Nat.le_refl _
  | fallingBack => exact Nat.le_refl _
  | answered hfree => simp [hfree]

theorem append (h : InTransit log posted task given current) (hrun : e.run? = none) :
    InTransit (log ++ [e]) posted task given current := by
  cases h with
  | nothing hfree => exact .nothing hfree
  | requested hfree hsent hnew =>
      exact .requested hfree (List.mem_append_left _ hsent) (by rwa [runs_append_of_none hrun])
  | held hsent hnew => exact .held (List.mem_append_left _ hsent) (by rwa [runs_append_of_none hrun])
  | answering hcarried hran => exact .answering (hcarried.append e) (List.mem_append_left _ hran)
  | fallingBack hcarried => exact .fallingBack (hcarried.append e)
  | answered hfree hcarried => exact .answered hfree (hcarried.append e)

-- A worker with no request at hand goes from one stage to another.
theorem change (h : InTransit log posted task given current) (hfree : task.load = 0)
    (hfree' : task'.load = 0) : InTransit log posted task' given current := by
  cases h with
  | nothing => exact .nothing hfree'
  | requested _ hsent hnew => exact .requested hfree' hsent hnew
  | held => cases hfree
  | answering => cases hfree
  | fallingBack => cases hfree
  | answered _ hcarried => exact .answered hfree' hcarried

theorem closeRequests (h : InTransit log posted task given current)
    (hleft : left = posted ∨ left = []) :
    ∃ current', InTransit log left task given current' ∧ (current' = none ∨ current' = current) := by
  rcases hleft with rfl | rfl
  · exact ⟨current, h, .inr rfl⟩
  · cases h with
    | nothing hfree => exact ⟨_, .nothing hfree, .inl rfl⟩
    | requested hfree => exact ⟨_, .nothing hfree, .inl rfl⟩
    | held hsent hnew => exact ⟨_, .held hsent hnew, .inr rfl⟩
    | answering hcarried hran => exact ⟨_, .answering hcarried hran, .inr rfl⟩
    | fallingBack hcarried => exact ⟨_, .fallingBack hcarried, .inr rfl⟩
    | answered hfree hcarried => exact ⟨_, .answered hfree hcarried, .inr rfl⟩

theorem closeResponses (h : InTransit log posted task given current)
    (hleft : left = given ∨ left = []) :
    ∃ current', InTransit log posted task left current' ∧ (current' = none ∨ current' = current) := by
  rcases hleft with rfl | rfl
  · exact ⟨current, h, .inr rfl⟩
  · cases h with
    | nothing hfree => exact ⟨_, .nothing hfree, .inl rfl⟩
    | requested hfree hsent hnew => exact ⟨_, .requested hfree hsent hnew, .inr rfl⟩
    | held hsent hnew => exact ⟨_, .held hsent hnew, .inr rfl⟩
    | answering hcarried hran => exact ⟨_, .answering hcarried hran, .inr rfl⟩
    | fallingBack hcarried => exact ⟨_, .fallingBack hcarried, .inr rfl⟩
    | answered hfree => exact ⟨_, .nothing hfree, .inl rfl⟩

end InTransit

-- The invariant of a session.
structure Sound (backend : Backend σ) (start : σ) (requests responses : Nat) (s : Session σ) :
    Prop where
  flow : ∃ posted given current,
    Wired requests responses posted given s.client.requests s.client.responses s.worker.inbound
        s.worker.outbound s.registry ∧
      InTransit s.log posted s.task given current ∧ s.stage.Awaits s.client.failed current
  numbered : Numbered s.stage s.client.nextId s.log
  faithful : Faithful backend start s.log s.worker.state

namespace Sound

variable {backend : Backend σ} {start : σ} {requests responses : Nat}
variable {r : Registry} {c : Client} {w : Worker σ} {task : Worker.Stage}

-- The client

theorem ask (h : Sound backend start requests responses ⟨r, c, .ready, w, task, log⟩) (f : Formula) :
    Sound backend start requests responses (Session.ask f ⟨r, c, .ready, w, task, log⟩) := by
  obtain ⟨⟨posted, given, current, hwired, htransit, hawaits⟩, hnumbered, hfaithful⟩ := h
  have hopen : outstanding log = [] := hnumbered.tallied
  simp only [Session.ask]
  split
  · exact ⟨⟨posted, given, current, hwired, htransit.append rfl, hawaits⟩,
      hnumbered.append rfl rfl ((outstanding_append _ _).trans hopen),
      hfaithful.append rfl (by simp)⟩
  · rename_i hfailed
    have hnothing : current = none := hawaits hfailed
    have hasked : outstanding (log ++ [.asked c.nextId f]) = [] :=
      (outstanding_append _ _).trans hopen
    have htransit' := htransit.append (e := .asked c.nextId f) rfl
    have hfaithful' := hfaithful.append (e := .asked c.nextId f) rfl (by simp)
    split
    · exact ⟨⟨posted, given, current, hwired, htransit', .inl hnothing⟩,
        hnumbered.ask f (.inl hasked), hfaithful'⟩
    · split_ifs
      · have hready : Numbered .ready (c.nextId + 1) (log ++ [.asked c.nextId f]) :=
          hnumbered.ask f hasked
        exact ⟨⟨posted, given, current, hwired, htransit'.append rfl, hawaits⟩,
          hready.append rfl rfl ((outstanding_append _ _).trans hasked),
          hfaithful'.append rfl (by simp)⟩
      · have hsentIds : sentIds (log ++ [.asked c.nextId f]) = sentIds log := by
          rw [sentIds_append]
          exact List.append_nil _
        exact ⟨⟨posted, given, current, hwired, htransit', hnothing⟩,
          hnumbered.ask f ⟨hasked, Nat.lt_succ_self _, by simp, hsentIds ▸ hnumbered.sentBelow⟩,
          hfaithful'⟩

theorem post {id : Nat} {f : Formula}
    (h : Sound backend start requests responses ⟨r, c, .cleared id f, w, task, log⟩) :
    Sound backend start requests responses (Session.post id f ⟨r, c, .cleared id f, w, task, log⟩) := by
  obtain ⟨⟨posted, given, current, hwired, htransit, hnothing⟩, hnumbered, hfaithful⟩ := h
  obtain rfl : current = none := hnothing
  obtain ⟨hopen, -, -, hbelow⟩ := hnumbered.tallied
  simp only [Session.post]
  split
  · exact ⟨⟨posted, given, none, hwired, htransit, .inl rfl⟩, hnumbered.stay (.inl hopen), hfaithful⟩
  · rename_i r' hwrite
    -- A number on which the solver was run was sent, and this one is above all of these.
    have hnew : id ∉ (runs log).map (·.1) := fun hid =>
      Nat.lt_irrefl _ (hbelow id (hfaithful.mem_sentIds_of_run hid))
    cases htransit with
    | nothing hfree =>
        refine ⟨⟨_, [], _, hwired.posting hwrite, .requested hfree (by simp) ?_, .inr rfl⟩,
          hnumbered.send, hfaithful.append rfl (by simp)⟩
        rwa [runs_append_of_none rfl]

theorem look {id : Nat} {f : Formula}
    (h : Sound backend start requests responses ⟨r, c, .waiting id f, w, task, log⟩) :
    Sound backend start requests responses (Session.look id f ⟨r, c, .waiting id f, w, task, log⟩) := by
  have ⟨⟨posted, given, current, hwired, htransit, hawaits⟩, hnumbered, hfaithful⟩ := h
  have hopen : outstanding log = [id] := hnumbered.tallied
  simp only [Session.look]
  split
  · exact ⟨⟨posted, given, current, hwired, htransit, hawaits⟩, hnumbered.stay (.inr hopen), hfaithful⟩
  · exact h
  · rename_i frame r' hread
    obtain ⟨rest, hgiven, hwired'⟩ := hwired.receiving hread
    -- The only response there can be is the one to this request.
    cases htransit with
    | @answered _ k g answer hfree hcarried =>
        obtain ⟨rfl, rfl⟩ := List.cons.inj hgiven
        obtain ⟨rfl, rfl⟩ : k = id ∧ g = f := by simpa [Client.Stage.Awaits] using hawaits
        have haccept : Client.accept k (Response.encode ⟨k, answer⟩) = .answered answer := by
          rw [Client.accept, Response.decode_encode hcarried.counted]
          exact if_pos rfl
        rw [haccept]
        refine ⟨⟨[], [], none, hwired', .nothing hfree, fun _ => rfl⟩, ?_,
          hfaithful.conclude hcarried.genuine⟩
        apply hnumbered.append rfl rfl
        rw [Tallied, outstanding_append, hopen]
        simp [Event.settle]
    | nothing => cases hgiven
    | requested => cases hgiven
    | held => cases hgiven
    | answering => cases hgiven
    | fallingBack => cases hgiven

theorem giveUp {id : Nat} {f : Formula}
    (h : Sound backend start requests responses ⟨r, c, .waiting id f, w, task, log⟩) :
    Sound backend start requests responses
      (Session.giveUp id f ⟨r, c, .waiting id f, w, task, log⟩) := by
  simp only [Session.giveUp]
  split
  · exact ⟨h.flow, h.numbered.stay (.inr h.numbered.tallied), h.faithful⟩
  · exact h

theorem closeRequests {next : Client.Stage}
    (h : Sound backend start requests responses ⟨r, c, stage, w, task, log⟩)
    (hawaits : ∀ current, stage.Awaits c.failed current → next.Awaits c.failed current)
    (htallied : Tallied c.nextId log stage → Tallied c.nextId log next) :
    Sound backend start requests responses
      (Session.closeRequests next ⟨r, c, stage, w, task, log⟩) := by
  obtain ⟨⟨posted, given, current, hwired, htransit, hstage⟩, hnumbered, hfaithful⟩ := h
  obtain ⟨left, hleft, hwired'⟩ := hwired.closeSend
  obtain ⟨current', htransit', hlost⟩ := htransit.closeRequests hleft
  exact ⟨⟨left, given, current', hwired', htransit', (hawaits current hstage).lost hlost⟩,
    hnumbered.stay (htallied hnumbered.tallied), hfaithful⟩

theorem tearDown {id : Nat} {f : Formula} {reason : String}
    (h : Sound backend start requests responses ⟨r, c, .closing id f reason, w, task, log⟩) :
    Sound backend start requests responses (Session.closeResponses (some reason) .ready
      [.gaveUp id f reason] ⟨r, c, .closing id f reason, w, task, log⟩) := by
  obtain ⟨⟨posted, given, current, hwired, htransit, -⟩, hnumbered, hfaithful⟩ := h
  obtain ⟨left, hleft, hwired'⟩ := hwired.closeReceive
  obtain ⟨current', htransit', -⟩ := htransit.closeResponses hleft
  refine ⟨⟨posted, left, current', hwired', htransit'.append rfl, fun hfailed => nomatch hfailed⟩,
    hnumbered.append rfl rfl ?_, hfaithful.append rfl (by simp)⟩
  change outstanding (log ++ [.gaveUp id f reason]) = []
  rw [outstanding_append]
  rcases hnumbered.tallied with hopen | hopen
  · simp [hopen, Event.settle]
  · simp [hopen, Event.settle]

theorem depart (h : Sound backend start requests responses ⟨r, c, .leaving, w, task, log⟩) :
    Sound backend start requests responses
      (Session.closeResponses c.failed .gone [] ⟨r, c, .leaving, w, task, log⟩) := by
  obtain ⟨⟨posted, given, current, hwired, htransit, -⟩, hnumbered, hfaithful⟩ := h
  obtain ⟨left, hleft, hwired'⟩ := hwired.closeReceive
  obtain ⟨current', htransit', -⟩ := htransit.closeResponses hleft
  simp only [Session.closeResponses, List.append_nil]
  exact ⟨⟨posted, left, current', hwired', htransit', trivial⟩, hnumbered.stay hnumbered.tallied,
    hfaithful⟩

-- The worker

theorem take (h : Sound backend start requests responses ⟨r, c, stage, w, .polling, log⟩) :
    Sound backend start requests responses (Session.take ⟨r, c, stage, w, .polling, log⟩) := by
  have ⟨⟨posted, given, current, hwired, htransit, hawaits⟩, hnumbered, hfaithful⟩ := h
  simp only [Session.take]
  split
  · exact ⟨⟨posted, given, current, hwired, htransit.change rfl rfl, hawaits⟩, hnumbered, hfaithful⟩
  · exact h
  · rename_i frame r' hread
    obtain ⟨rest, hposted, hwired'⟩ := hwired.taking hread
    cases htransit with
    | requested hfree hsent hnew =>
        obtain ⟨rfl, rfl⟩ := List.cons.inj hposted
        exact ⟨⟨[], [], _, hwired', .held hsent hnew, hawaits⟩, hnumbered, hfaithful⟩
    | nothing => cases hposted
    | answered => cases hposted

-- A worker with no request at hand stops.
theorem halt {exit : WorkerExit}
    (h : Sound backend start requests responses ⟨r, c, stage, w, .polling, log⟩) :
    Sound backend start requests responses ⟨r, c, stage, w, .stopping exit, log⟩ := by
  obtain ⟨⟨posted, given, current, hwired, htransit, hawaits⟩, hnumbered, hfaithful⟩ := h
  exact ⟨⟨posted, given, current, hwired, htransit.change rfl rfl, hawaits⟩, hnumbered, hfaithful⟩

theorem idle (h : Sound backend start requests responses ⟨r, c, stage, w, .polling, log⟩) :
    Sound backend start requests responses (Session.idle ⟨r, c, stage, w, .polling, log⟩) := by
  simp only [Session.idle]
  split
  · exact h.halt
  · exact h

theorem solve {frame : Bytes}
    (h : Sound backend start requests responses ⟨r, c, stage, w, .holding frame, log⟩) :
    Sound backend start requests responses
      (Session.solve backend frame ⟨r, c, stage, w, .holding frame, log⟩) := by
  obtain ⟨⟨posted, given, current, hwired, htransit, hawaits⟩, hnumbered, hfaithful⟩ := h
  simp only [Session.solve]
  cases htransit with
  | nothing hfree => cases hfree
  | requested hfree => cases hfree
  | answered hfree => cases hfree
  | @held id f hsent hnew =>
      split
      · exact ⟨⟨[], [], none, hwired, .nothing rfl, hawaits.lost (.inl rfl)⟩, hnumbered, hfaithful⟩
      · rename_i request hdecode
        obtain ⟨rfl, hid⟩ := Request.eq_of_decode_encode hdecode
        refine ⟨⟨[], [], _, hwired, .answering ⟨hid, ?_⟩ (by simp), hawaits⟩, ?_,
          hfaithful.solve hsent hnew⟩
        · exact ⟨_, by simp, .inl rfl⟩
        · apply hnumbered.append rfl rfl
          exact hnumbered.tallied.ran

theorem reply {response : Response}
    (h : Sound backend start requests responses ⟨r, c, stage, w, .answering response, log⟩) :
    Sound backend start requests responses
      (Session.reply response ⟨r, c, stage, w, .answering response, log⟩) := by
  obtain ⟨⟨posted, given, current, hwired, htransit, hawaits⟩, hnumbered, hfaithful⟩ := h
  simp only [Session.reply]
  cases htransit with
  | nothing hfree => cases hfree
  | requested hfree => cases hfree
  | answered hfree => cases hfree
  | @answering id f answer hcarried hran =>
      split
      · rename_i r' hwrite
        exact ⟨⟨[], _, _, hwired.giving hwrite, .answered rfl hcarried, hawaits⟩, hnumbered, hfaithful⟩
      · rename_i length free hwrite
        obtain ⟨rfl, hlong⟩ := Channel.write_eq_overflow hwrite
        have hfallback : Carried log id f
            (Worker.tooLong (Response.encode ⟨id, answer⟩).length free) :=
          ⟨hcarried.counted, answer, hran, .inr ⟨free, rfl, hlong⟩⟩
        exact ⟨⟨[], [], _, hwired, .fallingBack hfallback, hawaits⟩, hnumbered, hfaithful⟩
      · exact ⟨⟨[], [], none, hwired, .nothing rfl, hawaits.lost (.inl rfl)⟩, hnumbered, hfaithful⟩

theorem fallBack {response : Response}
    (h : Sound backend start requests responses ⟨r, c, stage, w, .fallingBack response, log⟩) :
    Sound backend start requests responses
      (Session.fallBack response ⟨r, c, stage, w, .fallingBack response, log⟩) := by
  obtain ⟨⟨posted, given, current, hwired, htransit, hawaits⟩, hnumbered, hfaithful⟩ := h
  simp only [Session.fallBack]
  cases htransit with
  | nothing hfree => cases hfree
  | requested hfree => cases hfree
  | answered hfree => cases hfree
  | fallingBack hcarried =>
      split
      · rename_i r' hwrite
        exact ⟨⟨[], _, _, hwired.giving hwrite, .answered rfl hcarried, hawaits⟩, hnumbered, hfaithful⟩
      · exact ⟨⟨[], [], none, hwired, .nothing rfl, hawaits.lost (.inl rfl)⟩, hnumbered, hfaithful⟩
      · exact ⟨⟨[], [], none, hwired, .nothing rfl, hawaits.lost (.inl rfl)⟩, hnumbered, hfaithful⟩

theorem closeInbound {exit : WorkerExit}
    (h : Sound backend start requests responses ⟨r, c, stage, w, .stopping exit, log⟩) :
    Sound backend start requests responses
      (Session.closeInbound exit ⟨r, c, stage, w, .stopping exit, log⟩) := by
  obtain ⟨⟨posted, given, current, hwired, htransit, hawaits⟩, hnumbered, hfaithful⟩ := h
  obtain ⟨left, hleft, hwired'⟩ := hwired.closeInbound
  obtain ⟨current', htransit', hlost⟩ := htransit.closeRequests hleft
  exact ⟨⟨left, given, current', hwired', htransit'.change rfl rfl, hawaits.lost hlost⟩, hnumbered,
    hfaithful⟩

theorem closeOutbound {exit : WorkerExit}
    (h : Sound backend start requests responses ⟨r, c, stage, w, .closing exit, log⟩) :
    Sound backend start requests responses
      (Session.closeOutbound exit ⟨r, c, stage, w, .closing exit, log⟩) := by
  obtain ⟨⟨posted, given, current, hwired, htransit, hawaits⟩, hnumbered, hfaithful⟩ := h
  obtain ⟨left, hleft, hwired'⟩ := hwired.closeOutbound
  obtain ⟨current', htransit', hlost⟩ := htransit.closeResponses hleft
  exact ⟨⟨posted, left, current', hwired', htransit'.change rfl rfl, hawaits.lost hlost⟩, hnumbered,
    hfaithful⟩

-- Both sides

theorem move {s : Session σ} (h : Sound backend start requests responses s) (m : Move) :
    Sound backend start requests responses (s.move backend m) := by
  obtain ⟨r, c, stage, w, task, log⟩ := s
  cases m with
  | ask f =>
      cases stage with
      | ready => exact h.ask f
      | _ => exact h
  | client =>
      cases stage with
      | ready => exact h
      | cleared id f => exact h.post
      | waiting id f => exact h.look
      | failing id f reason => exact h.closeRequests (fun _ hawaits => hawaits) fun htallied => htallied
      | closing id f reason => exact h.tearDown
      | leaving => exact h.depart
      | gone => exact h
  | giveUp =>
      cases stage with
      | waiting id f => exact h.giveUp
      | _ => exact h
  | leave =>
      cases stage with
      | ready => exact h.closeRequests (fun _ _ => trivial) fun htallied => htallied
      | _ => exact h
  | worker =>
      cases task with
      | polling => exact h.take
      | holding frame => exact h.solve
      | answering response => exact h.reply
      | fallingBack response => exact h.fallBack
      | stopping exit => exact h.closeInbound
      | closing exit => exact h.closeOutbound
      | stopped => exact h
  | idle =>
      cases task with
      | polling => exact h.idle
      | _ => exact h
  | quit exit =>
      cases task with
      | polling => exact h.halt
      | _ => exact h

end Sound

end Session

-- The start

namespace Host

variable {host : Host σ} {state : σ} {config : BridgeConfig}

-- A host as it comes up: both segments are new, all four ends are open, and the worker has not
-- looked for a request yet.
def Launched (state : σ) (config : BridgeConfig) (h : Host σ) : Prop :=
  ∃ requestName responseName r both after,
    createPair requestName responseName config.capacity r = (.ok both, after) ∧
      connect requestName responseName state config both = .ok h

theorem Launched.of_spawn {backend : Backend σ} {r : Registry}
    (h : (spawn backend state config r).1 = .ok host) :
    ∃ launched : Host σ, launched.Launched state config ∧ host = launched.serve backend := by
  simp only [spawn, Registry.freshName] at h
  split at h
  · cases h
  · rename_i both after hpair
    split at h
    · cases h
    · rename_i launched hconnect
      exact ⟨launched, ⟨_, _, _, both, after, hpair, hconnect⟩, (Except.ok.inj h).symm⟩

theorem free_of_createPair {requestName responseName : String} {capacity : Nat}
    {r both after : Registry}
    (h : createPair requestName responseName capacity r = (.ok both, after)) :
    responseName ≠ requestName ∧ r.contains requestName = false ∧
      r.contains responseName = false := by
  unfold createPair at h
  split at h
  · cases h
  · rename_i created hcreate
    split at h
    · cases h
    · rename_i both' hcreate'
      obtain ⟨hrequest, rfl⟩ := Registry.create_eq_ok.mp hcreate
      obtain ⟨hresponse, -⟩ := Registry.create_eq_ok.mp hcreate'
      have hne : responseName ≠ requestName := by
        rintro rfl
        simp [Registry.contains, NameMap.contains, NameMap.get?_insert_self] at hresponse
      refine ⟨hne, hrequest, ?_⟩
      rwa [Registry.contains, NameMap.contains, NameMap.get?_insert_of_ne _ _ hne] at hresponse

theorem Launched.sound (h : host.Launched state config) (backend : Backend σ) :
    ∃ requests responses, host.client.requests.attachment = .attached requests ∧
      host.client.responses.attachment = .attached responses ∧
      Session.Sound backend state requests responses (Session.between [] host) := by
  obtain ⟨requestName, responseName, r, both, after, hpair, hconnect⟩ := h
  obtain ⟨hne, hrequest, hresponse⟩ := free_of_createPair hpair
  obtain ⟨both', requests, responses, hpair', hapart, hnames, hnames', hrequests, hresponses⟩ :=
    createPair_of_free hne hrequest hresponse config.capacity
  obtain rfl : both' = both := by
    rw [hpair] at hpair'
    exact (Except.ok.inj (Prod.mk.inj hpair').1).symm
  rw [connect_of_holds hnames hnames' hrequests hresponses] at hconnect
  cases hconnect
  have hwired := (hrequests.remove requestName).remove responseName
  have hwired' := (hresponses.remove requestName).remove responseName
  refine ⟨requests, responses, rfl, rfl, ⟨[], [], none, ?_, .nothing rfl, fun _ => rfl⟩, ?_, ?_⟩
  · exact ⟨hapart, ⟨rfl, .inl rfl⟩, ⟨rfl, .inl rfl⟩, ⟨rfl, .inl rfl⟩, ⟨rfl, .inl rfl⟩,
      hwired.queues, hwired'.queues⟩
  · exact ⟨.nil, by simp [Session.between, Session.askedIds], .nil,
      by simp [Session.between, Session.sentIds],
      fun before id f hbefore => absurd (List.prefix_nil.mp hbefore) (by simp), rfl⟩
  · exact ⟨fun before id f answer hbefore => absurd (List.prefix_nil.mp hbefore) (by simp), .nil, rfl,
      fun before id f answer hbefore => absurd (List.prefix_nil.mp hbefore) (by simp)⟩

end Host

namespace Session

-- What client and worker agree on at any time: one request at most is open, and one message at most
-- is on its way; numbers go up; a request was asked before it was sent, and sent before the solver
-- was run on it, which happens once; and an answer comes from the run for its own request.
structure Agrees (backend : Backend σ) (start : σ) (h : Host σ) (s : Session σ) : Prop where
  single : (outstanding s.log).length ≤ 1
  flight : ∀ requests responses, h.client.requests.attachment = .attached requests →
    h.client.responses.attachment = .attached responses →
    ∃ posted given, s.registry.Queues requests posted ∧ s.registry.Queues responses given ∧
      posted.length + s.task.load + given.length ≤ 1
  asked : (askedIds s.log).Pairwise (· < ·)
  sent : (sentIds s.log).Pairwise (· < ·)
  sentAsked : ∀ before id f, before ++ [.sent id f] <+: s.log → .asked id f ∈ before
  faithful : Faithful backend start s.log s.worker.state

theorem Tallied.length_outstanding {log : List Event} {nextId : Nat} {stage : Client.Stage}
    (h : Tallied nextId log stage) : (outstanding log).length ≤ 1 := by
  have hnone : outstanding log = [] → (outstanding log).length ≤ 1 := by
    intro hopen
    simp [hopen]
  have hone : ∀ id, outstanding log = [id] → (outstanding log).length ≤ 1 := by
    intro id hopen
    simp [hopen]
  cases stage with
  | ready => exact hnone h
  | leaving => exact hnone h
  | gone => exact hnone h
  | cleared => exact hnone h.1
  | waiting id => exact hone id h
  | failing id => exact Or.elim h hnone (hone id)
  | closing id => exact Or.elim h hnone (hone id)

-- No answer is mixed up, whatever the order in which client and worker move. The queries of the
-- host itself are among these runs.
theorem answers_match_requests {backend : Backend σ} {state : σ} {config : BridgeConfig}
    {h : Host σ} (hlaunched : h.Launched state config) :
    (∀ moves, Agrees backend state h (run backend moves (between [] h))) ∧
      ∀ fs, ∃ moves log,
        run backend moves (between [] h) = between log (Host.ask backend fs (h.serve backend)).2 ∧
          conclusions log = fs.zip (Host.ask backend fs (h.serve backend)).1 := by
  obtain ⟨requests, responses, hrequests, hresponses, hstart⟩ := hlaunched.sound backend
  constructor
  · intro moves
    have hsound := run_of_move hstart (fun s m h => h.move m) moves
    obtain ⟨posted, given, current, hwired, htransit, -⟩ := hsound.flow
    refine ⟨hsound.numbered.tallied.length_outstanding, fun requests' responses' hr ha => ?_,
      hsound.numbered.asked, hsound.numbered.sent, hsound.numbered.sentAsked, hsound.faithful⟩
    obtain rfl := Attachment.attached.inj (hrequests.symm.trans hr)
    obtain rfl := Attachment.attached.inj (hresponses.symm.trans ha)
    exact ⟨posted, given, hwired.requestQueue, hwired.responseQueue, htransit.length_le⟩
  · intro fs
    obtain ⟨log₁, hserve, hlog₁⟩ := reaches_serve backend h .ready []
    obtain ⟨log₂, hask, hlog₂⟩ := reaches_ask backend fs (h.serve backend) log₁
    obtain ⟨moves, hmoves⟩ := hserve.trans hask
    refine ⟨moves, log₂, hmoves, ?_⟩
    rw [hlog₂, hlog₁]
    rfl

-- A query on which the solver breaks off, and one that it answers.
theorem answers_match_requests_counting :
    ∃ (host h : Host Nat) (moves : List Move),
      (Host.spawn Backend.counting 0 .standard (.empty "p")).1 = .ok host ∧
      h.Launched 0 .standard ∧ host = h.serve Backend.counting ∧
      Agrees Backend.counting 0 h (run Backend.counting moves (between [] h)) ∧
      conclusions (run Backend.counting moves (between [] h)).log =
        [(⟨[]⟩, .error (.backend "nothing to check")),
          (⟨[.int 2]⟩, .ok (.unknown "not a condition"))] := by
  obtain ⟨host, requests, responses, hspawn, hidle, hstate, hid, -⟩ :=
    Host.spawn_idle Backend.counting 0 .standard (.empty "p") (by decide) (by decide) (by decide)
      (by decide)
  obtain ⟨h, hlaunched, rfl⟩ := Host.Launched.of_spawn hspawn
  obtain ⟨hagrees, hruns⟩ := answers_match_requests hlaunched
  obtain ⟨moves, log, hmoves, hlog⟩ := hruns [⟨[]⟩, ⟨[.int 2]⟩]
  have hadmits : Backend.counting.AdmitsAll BridgeConfig.standard.capacity
      (h.serve Backend.counting).client.nextId [⟨[]⟩, ⟨[.int 2]⟩]
      (h.serve Backend.counting).worker.state := by
    rw [hid, hstate]
    refine ⟨?_, ?_, trivial⟩
    · exact .of_short (by decide) (by decide) (by decide +kernel) (by decide +kernel)
    · exact .of_short (by decide) (by decide) (by decide +kernel) (by decide +kernel)
  obtain ⟨h', hask, -⟩ := hidle.ask hadmits (by decide +kernel)
  refine ⟨_, h, moves, hspawn, hlaunched, rfl, hagrees moves, ?_⟩
  rw [hmoves]
  change conclusions log = _
  rw [hlog, hask, hstate]
  rfl

end Session

end Covenant
