import Covenant.Bridge.Host
import Covenant.Proofs.Bridge.Message
import Covenant.Proofs.Channel.Queue

namespace Covenant

open Channel (Fits)

variable {σ : Type} {requests responses capacity : Nat} {r : Registry}

-- The client

-- A client that has not given up, between two segments.
structure Client.Connected (c : Client) (requests responses : Nat) : Prop where
  sends : c.requests.Attached .send requests
  receives : c.responses.Attached .receive responses
  failed : c.failed = none

namespace Client

variable {c : Client}

-- The number goes up by one.
theorem Connected.next (h : c.Connected requests responses) :
    { c with nextId := c.nextId + 1 }.Connected requests responses := ⟨h.sends, h.receives, h.failed⟩

theorem Connected.submit (h : c.Connected requests responses) (hr : r.Holds requests capacity [])
    {f : Formula} (hfits : Fits capacity [] (Request.encode ⟨c.nextId, f⟩)) :
    c.submit f r = (.sent c.nextId, { c with nextId := c.nextId + 1 },
      r.update requests (·.push (Request.encode ⟨c.nextId, f⟩))) := by
  have hfree := h.sends.freeLength hr
  have hwrite := (h.sends.write hr hfits).1
  have hroom : ¬(Request.encode ⟨c.nextId, f⟩).length > (Segment.holding capacity []).free :=
    Nat.not_lt.mpr hfits.free
  rw [Client.submit, h.failed]
  simp only [send, hfree, hwrite, if_neg hroom]

-- What a client says after so many looks.
def concludeWithin (id looks : Nat) (c : Client) (r : Registry) : Answer × Client × Registry :=
  match c.awaitWithin id looks r with
  | (some answer, c, r) => (answer, c, r)
  | (none, c, r) => c.timeOut r

theorem conclude_eq (c : Client) (id : Nat) (r : Registry) :
    c.conclude id r = c.concludeWithin id (c.responses.pending r + 1) r := rfl

section Look

variable {id : Nat} {frame : Bytes} {r' : Registry}

-- One look, by what it finds.

theorem concludeWithin_of_error {e : ChannelError} (hread : c.responses.read r = .error e)
    (id looks : Nat) : c.concludeWithin id (looks + 1) r = c.tearDown e.message r := by
  simp only [concludeWithin, awaitWithin, poll, hread]

theorem concludeWithin_of_nothing (hread : c.responses.read r = .ok (none, r')) (id looks : Nat) :
    c.concludeWithin id (looks + 1) r = c.timeOut r' := by
  simp only [concludeWithin, awaitWithin, poll, hread]

theorem concludeWithin_of_answered {answer : Answer}
    (hread : c.responses.read r = .ok (some frame, r')) (haccept : accept id frame = .answered answer)
    (looks : Nat) : c.concludeWithin id (looks + 1) r = (answer, c, r') := by
  simp only [concludeWithin, awaitWithin, poll, hread, haccept]

theorem concludeWithin_of_discarded (hread : c.responses.read r = .ok (some frame, r'))
    (haccept : accept id frame = .discarded) (looks : Nat) :
    c.concludeWithin id (looks + 1) r = c.concludeWithin id looks r' := by
  simp only [concludeWithin, awaitWithin, poll, hread, haccept]

-- A frame that is there is answered or discarded.
theorem accept_ne_nothing (id : Nat) (frame : Bytes) : accept id frame ≠ .nothing := by
  unfold accept
  split
  · split_ifs <;> simp
  · simp

end Look

theorem Connected.conclude (h : c.Connected requests responses) {frame : Bytes}
    (hr : r.Holds responses capacity [frame]) {id : Nat} {answer : Answer}
    (hframe : Response.decode frame = .ok ⟨id, answer⟩) :
    c.conclude id r = (answer, c, r.update responses fun _ => .holding capacity []) := by
  have haccept : accept id frame = .answered answer := by
    rw [accept, hframe]
    exact if_pos rfl
  rw [conclude_eq]
  exact concludeWithin_of_answered (h.receives.read hr).1 haccept _

-- Where nothing is queued the client gives up.
theorem Connected.conclude_nothing (h : c.Connected requests responses)
    (hr : r.Holds responses capacity []) (id : Nat) : c.conclude id r = c.timeOut r := by
  rw [conclude_eq]
  exact concludeWithin_of_nothing (h.receives.read_nothing hr) _ _

end Client

-- The worker

-- A worker that waits for requests, between two segments.
structure Worker.Running (w : Worker σ) (requests responses : Nat) : Prop where
  receives : w.inbound.Attached .receive requests
  sends : w.outbound.Attached .send responses
  exit : w.exit = none
  idles : w.idleTimeoutMs ≠ 0

namespace Worker

variable {w : Worker σ} {backend : Backend σ} {frame : Bytes}

theorem Running.withState (h : w.Running requests responses) (s : σ) :
    { w with state := s }.Running requests responses := ⟨h.receives, h.sends, h.exit, h.idles⟩

-- One round of serving, by what it finds.

theorem serveWithin_of_exit {exit : WorkerExit} (hexit : w.exit = some exit) (frames : Nat)
    (r : Registry) : w.serveWithin backend frames r = (w, r) := by
  cases frames with
  | zero => rfl
  | succ frames => rw [serveWithin, hexit]

theorem serveWithin_of_error {e : ChannelError} (hexit : w.exit = none)
    (hread : w.inbound.read r = .error e) (frames : Nat) :
    w.serveWithin backend (frames + 1) r = w.stop (.channelClosed e) r := by
  rw [serveWithin]
  simp only [hexit, hread]

theorem serveWithin_of_nothing (hexit : w.exit = none) {r' : Registry}
    (hread : w.inbound.read r = .ok (none, r')) (frames : Nat) :
    w.serveWithin backend (frames + 1) r =
      if w.idleTimeoutMs = 0 then w.stop .idleTimeout r' else (w, r') := by
  rw [serveWithin]
  simp only [hexit, hread]

theorem serveWithin_of_frame (hexit : w.exit = none) {r' : Registry}
    (hread : w.inbound.read r = .ok (some frame, r')) (frames : Nat) :
    w.serveWithin backend (frames + 1) r =
      (w.handle backend frame r').1.serveWithin backend frames (w.handle backend frame r').2 := by
  rw [serveWithin]
  simp only [hexit, hread]

theorem Running.serveWithin_nothing (h : w.Running requests responses)
    (hr : r.Holds requests capacity []) (frames : Nat) :
    w.serveWithin backend (frames + 1) r = (w, r) := by
  rw [serveWithin_of_nothing h.exit (h.receives.read_nothing hr), if_neg h.idles]

-- The queued frame is handled, and then there is none.
theorem Running.serve (h : w.Running requests responses) (hr : r.Holds requests capacity [frame])
    {w' : Worker σ} {r' : Registry}
    (hhandle : w.handle backend frame (r.update requests fun _ => .holding capacity []) = (w', r'))
    (h' : w'.Running requests responses) (hr' : r'.Holds requests capacity []) :
    w.serve backend r = (w', r') := by
  have hpending : w.inbound.pending r = frame.length + 3 + 1 := by
    rw [h.receives.pending hr, List.flatMap_singleton, Segment.length_frame]
    rfl
  rw [Worker.serve, hpending, serveWithin_of_frame h.exit (h.receives.read hr).1, hhandle]
  exact h'.serveWithin_nothing hr' _

theorem Running.handle (h : w.Running requests responses) (hr : r.Holds responses capacity [])
    {q : Request} (hframe : Request.decode frame = .ok q)
    (hfits : Fits capacity [] (Response.encode ⟨q.id, (backend q.formula w.state).1.answer⟩)) :
    w.handle backend frame r = ({ w with state := (backend q.formula w.state).2 },
      r.update responses (·.push (Response.encode ⟨q.id, (backend q.formula w.state).1.answer⟩))) := by
  have hwrite := (h.sends.write hr hfits).1
  simp only [Worker.handle, hframe, reply, hwrite]

theorem handle_dropped {e : Json.ReadError} (hframe : Request.decode frame = .error e)
    (w : Worker σ) (r : Registry) : w.handle backend frame r = (w, r) := by
  simp only [handle, hframe]

end Worker

-- Both sides

-- The number has 64 bits, and both frames of a query fit an empty segment.
structure Backend.Admits (backend : Backend σ) (capacity id : Nat) (f : Formula) (s : σ) :
    Prop where
  counted : id < Request.idLimit
  request : Fits capacity [] (Request.encode ⟨id, f⟩)
  response : Fits capacity [] (Response.encode ⟨id, (backend f s).1.answer⟩)

namespace Host

variable {h : Host σ} {backend : Backend σ} {f : Formula}

-- Both sides are up, and nothing is on its way between them.
structure Idle (h : Host σ) (requests responses capacity : Nat) : Prop where
  apart : requests ≠ responses
  client : h.client.Connected requests responses
  worker : h.worker.Running requests responses
  requestQueue : h.registry.Holds requests capacity []
  responseQueue : h.registry.Holds responses capacity []
  patience : h.client.timeoutMs ≠ 0

-- The segments when a request was sent and taken.
def taken (requests capacity : Nat) (request : Bytes) (r : Registry) : Registry :=
  (r.update requests (·.push request)).update requests fun _ => .holding capacity []

theorem Idle.taken_requests (hidle : h.Idle requests responses capacity) {request : Bytes}
    (hfits : Fits capacity [] request) :
    (taken requests capacity request h.registry).Holds requests capacity [] :=
  (hidle.worker.receives.read (hidle.client.sends.write hidle.requestQueue hfits).2).2

theorem Idle.taken_responses (hidle : h.Idle requests responses capacity) (request : Bytes) :
    (taken requests capacity request h.registry).Holds responses capacity [] :=
  (hidle.responseQueue.update_of_ne hidle.apart _).update_of_ne hidle.apart _

-- A query is sent, handled, and concluded with what the worker left.
theorem Idle.check_eq (hidle : h.Idle requests responses capacity)
    (hfits : Fits capacity [] (Request.encode ⟨h.client.nextId, f⟩)) {w : Worker σ} {r : Registry}
    (hhandle : h.worker.handle backend (Request.encode ⟨h.client.nextId, f⟩)
      (taken requests capacity (Request.encode ⟨h.client.nextId, f⟩) h.registry) = (w, r))
    (hw : w.Running requests responses) (hr : r.Holds requests capacity [])
    {answer : Answer} {c : Client} {r' : Registry}
    (hconclude : { h.client with nextId := h.client.nextId + 1 }.conclude h.client.nextId r =
      (answer, c, r')) :
    h.check backend f = (answer, ⟨r', c, w⟩) := by
  have hsubmit := hidle.client.submit hidle.requestQueue hfits
  have hsent := (hidle.client.sends.write hidle.requestQueue hfits).2
  have hserve := hidle.worker.serve hsent hhandle hw hr
  have hpatience : { h.client with nextId := h.client.nextId + 1 }.timeoutMs ≠ 0 := hidle.patience
  simp only [Host.check, hsubmit, if_neg hpatience, Host.serve, hserve, hconclude]

theorem Idle.check_of_decode (hidle : h.Idle requests responses capacity)
    (hadmits : backend.Admits capacity h.client.nextId f h.worker.state)
    (hdecode : Request.decode (Request.encode ⟨h.client.nextId, f⟩) = .ok ⟨h.client.nextId, f⟩) :
    ∃ h', h.check backend f = ((backend f h.worker.state).1.answer, h') ∧
      h'.Idle requests responses capacity ∧ h'.worker.state = (backend f h.worker.state).2 ∧
      h'.client = { h.client with nextId := h.client.nextId + 1 } := by
  have hrequests := hidle.taken_requests hadmits.request
  have hresponses := hidle.taken_responses (Request.encode ⟨h.client.nextId, f⟩)
  have hhandle := hidle.worker.handle hresponses hdecode hadmits.response
  have hrunning := hidle.worker.withState (backend f h.worker.state).2
  have hanswered := (hidle.worker.sends.write hresponses hadmits.response).2
  have hdrained := hrequests.update_of_ne hidle.apart.symm
  have hconclude := hidle.client.next.conclude hanswered
    (Response.decode_encode hadmits.counted)
  refine ⟨_, hidle.check_eq hadmits.request hhandle hrunning (hdrained _) hconclude, ?_, rfl, rfl⟩
  exact ⟨hidle.apart, hidle.client.next, hrunning, (hdrained _).update_of_ne hidle.apart.symm _,
    (hidle.client.receives.read hanswered).2, hidle.patience⟩

-- The worker drops what it cannot read, so the client gives up and the solver is never asked.
theorem Idle.check_of_dropped (hidle : h.Idle requests responses capacity)
    (hfits : Fits capacity [] (Request.encode ⟨h.client.nextId, f⟩)) {e : Json.ReadError}
    (hdecode : Request.decode (Request.encode ⟨h.client.nextId, f⟩) = .error e) :
    ∃ h', h.check backend f =
        (.error (.unavailable s!"no response within {h.client.timeoutMs} ms"), h') ∧
      h'.client.isConnected = false ∧ h'.worker = h.worker := by
  have hrequests := hidle.taken_requests hfits
  have hresponses := hidle.taken_responses (Request.encode ⟨h.client.nextId, f⟩)
  have hconclude := hidle.client.next.conclude_nothing hresponses h.client.nextId
  exact ⟨_, hidle.check_eq hfits (Worker.handle_dropped hdecode _ _) hidle.worker hrequests hconclude,
    rfl, rfl⟩

theorem createPair_of_free {requestName responseName : String} (hne : responseName ≠ requestName)
    (hrequest : r.contains requestName = false) (hresponse : r.contains responseName = false)
    (capacity : Nat) :
    ∃ r' requests responses, createPair requestName responseName capacity r = (.ok r', r') ∧
      requests ≠ responses ∧ r'.names.get? requestName = some requests ∧
      r'.names.get? responseName = some responses ∧ r'.Holds requests capacity [] ∧
      r'.Holds responses capacity [] := by
  obtain ⟨r₁, hcreate₁, hnames₁, hsegments₁⟩ := Registry.create_of_free hrequest capacity
  have hfree : r₁.contains responseName = false := by
    rw [Registry.contains, hnames₁, NameMap.contains, NameMap.get?_insert_of_ne _ _ hne]
    exact hresponse
  obtain ⟨r₂, hcreate₂, hnames₂, hsegments₂⟩ := Registry.create_of_free hfree capacity
  refine ⟨r₂, r.segments.length, r₁.segments.length, ?_, ?_, ?_, ?_, ⟨?_, by simp⟩, ⟨?_, by simp⟩⟩
  · simp only [createPair, hcreate₁, hcreate₂]
  · simp [hsegments₁]
  · rw [hnames₂, NameMap.get?_insert_of_ne _ _ hne.symm, hnames₁, NameMap.get?_insert_self]
  · rw [hnames₂, NameMap.get?_insert_self]
  · simp [hsegments₂, hsegments₁]
  · simp [hsegments₂]

-- All four ends are open, and the names are free again.
theorem connect_of_holds {requestName responseName : String}
    (hrequest : r.names.get? requestName = some requests)
    (hresponse : r.names.get? responseName = some responses)
    (hrequests : r.Holds requests capacity []) (hresponses : r.Holds responses capacity [])
    (state : σ) (config : BridgeConfig) :
    connect requestName responseName state config r =
      .ok ⟨(r.remove requestName).remove responseName,
        .new ⟨requestName, .send, .attached requests⟩
          ⟨responseName, .receive, .attached responses⟩ config.responseTimeoutMs,
        .new ⟨requestName, .receive, .attached requests⟩
          ⟨responseName, .send, .attached responses⟩ state config.idleTimeoutMs⟩ := by
  simp only [connect, Channel.openEnd_new hrequest hrequests,
    Channel.openEnd_new hresponse hresponses]
  rfl

theorem connect_idle {requestName responseName : String} (hapart : requests ≠ responses)
    (hrequest : r.names.get? requestName = some requests)
    (hresponse : r.names.get? responseName = some responses)
    (hrequests : r.Holds requests capacity []) (hresponses : r.Holds responses capacity [])
    (state : σ) {config : BridgeConfig} (hidle : config.idleTimeoutMs ≠ 0)
    (hpatience : config.responseTimeoutMs ≠ 0) :
    ∃ h, connect requestName responseName state config r = .ok h ∧
      h.Idle requests responses capacity ∧ h.worker.state = state ∧ h.client.nextId = 0 ∧
      h.client.timeoutMs = config.responseTimeoutMs := by
  let client : Client := .new ⟨requestName, .send, .attached requests⟩
    ⟨responseName, .receive, .attached responses⟩ config.responseTimeoutMs
  let worker : Worker σ := .new ⟨requestName, .receive, .attached requests⟩
    ⟨responseName, .send, .attached responses⟩ state config.idleTimeoutMs
  have hclient : client.Connected requests responses := ⟨⟨rfl, rfl⟩, ⟨rfl, rfl⟩, rfl⟩
  have hworker : worker.Running requests responses := ⟨⟨rfl, rfl⟩, ⟨rfl, rfl⟩, rfl, hidle⟩
  refine ⟨⟨(r.remove requestName).remove responseName, client, worker⟩, ?_, ⟨hapart, hclient, hworker,
    (hrequests.remove _).remove _, (hresponses.remove _).remove _, hpatience⟩, rfl, rfl, rfl⟩
  exact connect_of_holds hrequest hresponse hrequests hresponses state config

theorem spawn_of_connect {requestName responseName : String} {r₀ r₁ r₂ r₃ : Registry} {state : σ}
    {config : BridgeConfig} (hrequest : r.freshName "vow-req" = (requestName, r₀))
    (hresponse : r₀.freshName "vow-resp" = (responseName, r₁))
    (hpair : createPair requestName responseName config.capacity r₁ = (.ok r₂, r₃))
    (hconnect : connect requestName responseName state config r₂ = .ok h) :
    spawn backend state config r = (.ok (h.serve backend), (h.serve backend).registry) := by
  simp only [spawn, hrequest, hresponse, hpair, hconnect]

-- A new host is up, where the names that it takes are free.
theorem spawn_idle (backend : Backend σ) (state : σ) (config : BridgeConfig) (r : Registry)
    (hrequest : r.contains (r.freshName "vow-req").1 = false)
    (hresponse : r.contains ((r.freshName "vow-req").2.freshName "vow-resp").1 = false)
    (hidle : config.idleTimeoutMs ≠ 0) (hpatience : config.responseTimeoutMs ≠ 0) :
    ∃ h requests responses, (spawn backend state config r).1 = .ok h ∧
      h.Idle requests responses config.capacity ∧ h.worker.state = state ∧ h.client.nextId = 0 ∧
      h.client.timeoutMs = config.responseTimeoutMs := by
  let requestName := (r.freshName "vow-req").1
  let responseName := ((r.freshName "vow-req").2.freshName "vow-resp").1
  let r₁ := ((r.freshName "vow-req").2.freshName "vow-resp").2
  -- The stems differ in a letter.
  have hne : responseName ≠ requestName := by
    intro heq
    have hchars := congrArg String.toList heq
    simp [responseName, requestName, Registry.freshName] at hchars
  obtain ⟨r₂, requests, responses, hpair, hapart, hnames, hnames', hrequests, hresponses⟩ :=
    createPair_of_free (r := r₁) hne hrequest hresponse config.capacity
  obtain ⟨h, hconnect, hup, hstate, hid, htimeout⟩ :=
    connect_idle hapart hnames hnames' hrequests hresponses state hidle hpatience
  have hserve : h.worker.serve backend h.registry = (h.worker, h.registry) :=
    hup.worker.serveWithin_nothing hup.requestQueue _
  refine ⟨h, requests, responses, ?_, hup, hstate, hid, htimeout⟩
  rw [spawn_of_connect rfl rfl hpair hconnect, Host.serve, hserve]

end Host

end Covenant
