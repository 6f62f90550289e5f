import Covenant.Bridge.Host

namespace Covenant

variable {σ : Type}

-- Where a client stands in a query. It looks at a segment once in each step, and the worker may
-- take any number of steps before its next look.
inductive Client.Stage
  | ready
  | cleared (id : Nat) (f : Formula)
  | waiting (id : Nat) (f : Formula)
  | failing (id : Nat) (f : Formula) (reason : String)
  | closing (id : Nat) (f : Formula) (reason : String)
  | leaving
  | gone

-- Where a worker stands in a request.
inductive Worker.Stage
  | polling
  | holding (frame : Bytes)
  | answering (response : Response)
  | fallingBack (response : Response)
  | stopping (exit : WorkerExit)
  | closing (exit : WorkerExit)
  | stopped

-- What a worker says in place of an answer that does not fit.
def Worker.tooLong (length free : Nat) : Answer :=
  .error (.backend s!"response of {length} bytes exceeds channel free length {free}")

-- A worker between two requests.
def Worker.resting (w : Worker σ) : Worker.Stage :=
  if w.exit.isSome then .stopped else .polling

-- What is told of a session: a number was given to a query, its request was queued, the solver was
-- run on it, and how the query ended.
inductive Session.Event
  | asked (id : Nat) (f : Formula)
  | sent (id : Nat) (f : Formula)
  | ran (id : Nat) (f : Formula) (answer : Answer)
  | answered (id : Nat) (f : Formula) (answer : Answer)
  | refused (f : Formula) (answer : Answer)
  | gaveUp (id : Nat) (f : Formula) (reason : String)

-- A client and a worker that take their steps in any order.
structure Session (σ : Type) where
  registry : Registry
  client : Client
  stage : Client.Stage
  worker : Worker σ
  task : Worker.Stage
  log : List Session.Event

namespace Session

-- The client

-- A number is given, and the request is measured against the room there is.
def ask (f : Formula) (s : Session σ) : Session σ :=
  match s.client.failed with
  | some reason => { s with log := s.log ++ [.refused f (.error (.unavailable reason))] }
  | none =>
      let id := s.client.nextId
      let client := { s.client with nextId := id + 1 }
      let length := (Request.encode ⟨id, f⟩).length
      match client.requests.freeLength s.registry with
      | .error e =>
          { s with client, stage := .failing id f e.message, log := s.log ++ [.asked id f] }
      | .ok free =>
          if length > free then
            let reason := s!"query of {length} bytes exceeds channel free length {free}"
            { s with client, log := s.log ++ [.asked id f] ++ [.refused f (.error (.backend reason))] }
          else { s with client, stage := .cleared id f, log := s.log ++ [.asked id f] }

-- What was measured is written, if the segment is still open.
def post (id : Nat) (f : Formula) (s : Session σ) : Session σ :=
  match s.client.requests.write (Request.encode ⟨id, f⟩) s.registry with
  | .error e => { s with stage := .failing id f e.message }
  | .ok registry => { s with registry, stage := .waiting id f, log := s.log ++ [.sent id f] }

def look (id : Nat) (f : Formula) (s : Session σ) : Session σ :=
  match s.client.responses.read s.registry with
  | .error e => { s with stage := .failing id f e.message }
  | .ok (none, _) => s
  | .ok (some frame, registry) =>
      match Client.accept id frame with
      | .answered answer =>
          { s with registry, stage := .ready, log := s.log ++ [.answered id f answer] }
      | _ => { s with registry }

-- The time is up, which only a client that finds nothing looks at.
def giveUp (id : Nat) (f : Formula) (s : Session σ) : Session σ :=
  match s.client.responses.read s.registry with
  | .ok (none, _) =>
      { s with stage := .failing id f s!"no response within {s.client.timeoutMs} ms" }
  | _ => s

def closeRequests (next : Client.Stage) (s : Session σ) : Session σ :=
  { s with
    client := { s.client with requests := (s.client.requests.close s.registry).1 }
    registry := (s.client.requests.close s.registry).2
    stage := next }

def closeResponses (failed : Option String) (next : Client.Stage) (events : List Event)
    (s : Session σ) : Session σ :=
  { s with
    client := { s.client with responses := (s.client.responses.close s.registry).1, failed }
    registry := (s.client.responses.close s.registry).2
    stage := next
    log := s.log ++ events }

-- The worker

def take (s : Session σ) : Session σ :=
  match s.worker.inbound.read s.registry with
  | .error e => { s with task := .stopping (.channelClosed e) }
  | .ok (none, _) => s
  | .ok (some frame, registry) => { s with registry, task := .holding frame }

def idle (s : Session σ) : Session σ :=
  match s.worker.inbound.read s.registry with
  | .ok (none, _) => { s with task := .stopping .idleTimeout }
  | _ => s

-- The solver is run on what the frame says.
def solve (backend : Backend σ) (frame : Bytes) (s : Session σ) : Session σ :=
  match Request.decode frame with
  | .error _ => { s with task := .polling }
  | .ok request =>
      let answer := (backend request.formula s.worker.state).1.answer
      { s with
        worker := { s.worker with state := (backend request.formula s.worker.state).2 }
        task := .answering ⟨request.id, answer⟩
        log := s.log ++ [.ran request.id request.formula answer] }

def reply (response : Response) (s : Session σ) : Session σ :=
  match s.worker.outbound.write response.encode s.registry with
  | .ok registry => { s with registry, task := .polling }
  | .error (.overflow length free) =>
      { s with task := .fallingBack ⟨response.id, Worker.tooLong length free⟩ }
  | .error e => { s with task := .stopping (.channelClosed e) }

def fallBack (response : Response) (s : Session σ) : Session σ :=
  match s.worker.outbound.write response.encode s.registry with
  | .ok registry => { s with registry, task := .polling }
  | .error (.overflow _ _) => { s with task := .polling }
  | .error e => { s with task := .stopping (.channelClosed e) }

def closeInbound (exit : WorkerExit) (s : Session σ) : Session σ :=
  { s with
    worker := { s.worker with inbound := (s.worker.inbound.close s.registry).1 }
    registry := (s.worker.inbound.close s.registry).2
    task := .closing exit }

def closeOutbound (exit : WorkerExit) (s : Session σ) : Session σ :=
  { s with
    worker := { s.worker with
      outbound := (s.worker.outbound.close s.registry).1, exit := some exit }
    registry := (s.worker.outbound.close s.registry).2
    task := .stopped }

-- Both sides

-- Whose turn it is. A side that cannot make the move stays where it is.
inductive Move
  | ask (f : Formula)
  | client
  | giveUp
  | leave
  | worker
  | idle
  | quit (exit : WorkerExit)

def clientMove (s : Session σ) : Session σ :=
  match s.stage with
  | .cleared id f => s.post id f
  | .waiting id f => s.look id f
  | .failing id f reason => s.closeRequests (.closing id f reason)
  | .closing id f reason => s.closeResponses (some reason) .ready [.gaveUp id f reason]
  | .leaving => s.closeResponses s.client.failed .gone []
  | .ready | .gone => s

def workerMove (backend : Backend σ) (s : Session σ) : Session σ :=
  match s.task with
  | .polling => s.take
  | .holding frame => s.solve backend frame
  | .answering response => s.reply response
  | .fallingBack response => s.fallBack response
  | .stopping exit => s.closeInbound exit
  | .closing exit => s.closeOutbound exit
  | .stopped => s

def move (backend : Backend σ) (s : Session σ) : Move → Session σ
  | .ask f =>
      match s.stage with
      | .ready => s.ask f
      | _ => s
  | .client => s.clientMove
  | .giveUp =>
      match s.stage with
      | .waiting id f => s.giveUp id f
      | _ => s
  | .leave =>
      match s.stage with
      | .ready => s.closeRequests .leaving
      | _ => s
  | .worker => s.workerMove backend
  | .idle =>
      match s.task with
      | .polling => s.idle
      | _ => s
  | .quit exit =>
      match s.task with
      | .polling => { s with task := .stopping exit }
      | _ => s

def run (backend : Backend σ) (moves : List Move) (s : Session σ) : Session σ :=
  moves.foldl (move backend) s

theorem run_append (backend : Backend σ) (before after : List Move) (s : Session σ) :
    run backend (before ++ after) s = run backend after (run backend before s) :=
  List.foldl_append

-- Between two queries.
def between (log : List Event) (h : Host σ) : Session σ :=
  ⟨h.registry, h.client, .ready, h.worker, h.worker.resting, log⟩

-- What holds at the start and is kept by each move holds after every run.
theorem run_of_move {P : Session σ → Prop} {backend : Backend σ} {s : Session σ} (h : P s)
    (hmove : ∀ s m, P s → P (s.move backend m)) (moves : List Move) : P (run backend moves s) := by
  induction moves generalizing s with
  | nil => exact h
  | cons m rest ih => exact ih (hmove s m h)

end Session

end Covenant
