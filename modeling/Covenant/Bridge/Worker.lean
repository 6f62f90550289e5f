import Covenant.Bridge.Message
import Covenant.Channel.Endpoint

namespace Covenant

-- A run of a solver ends with an answer, or breaks off with or without a message.
inductive Attempt
  | answered (answer : Answer)
  | crashed (message : Option String)

def Attempt.answer : Attempt → Answer
  | .answered answer => answer
  | .crashed message => .error (.backend (message.getD "solver panicked"))

-- What a worker runs: a solver that need not survive each query.
abbrev Backend (σ : Type) := Formula → σ → Attempt × σ

def Solver.backend (solver : Solver σ) : Backend σ := fun f s =>
  let (answer, s) := solver.check f s
  (.answered answer, s)

inductive WorkerExit
  | idleTimeout
  | channelClosed (e : ChannelError)
  deriving DecidableEq, Repr

-- The side that answers. It has an exit once it has stopped.
structure Worker (σ : Type) where
  inbound : Channel
  outbound : Channel
  state : σ
  idleTimeoutMs : Nat
  exit : Option WorkerExit

namespace Worker

def new (inbound outbound : Channel) (state : σ) (idleTimeoutMs : Nat) : Worker σ :=
  ⟨inbound, outbound, state, idleTimeoutMs, none⟩

-- Stops the worker, which closes both of its ends.
def stop (exit : WorkerExit) (w : Worker σ) (r : Registry) : Worker σ × Registry :=
  let (inbound, r) := w.inbound.close r
  let (outbound, r) := w.outbound.close r
  ({ w with inbound, outbound, exit := some exit }, r)

-- Writes a response. One that does not fit gives way to a shorter one that says so, and if that
-- does not fit either there is no response.
def reply (outbound : Channel) (response : Response) (r : Registry) :
    Except ChannelError Registry :=
  match outbound.write response.encode r with
  | .error (.overflow length free) =>
      let reason := s!"response of {length} bytes exceeds channel free length {free}"
      match outbound.write (Response.encode ⟨response.id, .error (.backend reason)⟩) r with
      | .error (.overflow _ _) => .ok r
      | result => result
  | result => result

-- Serves one frame. A frame that is no request is dropped.
def handle (backend : Backend σ) (frame : Bytes) (w : Worker σ) (r : Registry) :
    Worker σ × Registry :=
  match Request.decode frame with
  | .error _ => (w, r)
  | .ok request =>
      let (attempt, state) := backend request.formula w.state
      let w := { w with state }
      match reply w.outbound ⟨request.id, attempt.answer⟩ r with
      | .ok r => (w, r)
      | .error e => w.stop (.channelClosed e) r

-- Serves what is queued. Each frame takes at least a header, so the queued bytes bound the frames.
def serveWithin (backend : Backend σ) : Nat → Worker σ → Registry → Worker σ × Registry
  | 0, w, r => (w, r)
  | frames + 1, w, r =>
      match w.exit with
      | some _ => (w, r)
      | none =>
          match w.inbound.read r with
          | .error e => w.stop (.channelClosed e) r
          | .ok (none, r) => if w.idleTimeoutMs = 0 then w.stop .idleTimeout r else (w, r)
          | .ok (some frame, r) =>
              let (w, r) := w.handle backend frame r
              w.serveWithin backend frames r

-- Serves until nothing is queued. A worker that may not idle then stops.
def serve (backend : Backend σ) (w : Worker σ) (r : Registry) : Worker σ × Registry :=
  w.serveWithin backend (w.inbound.pending r + 1) r

-- Serves what is queued and then idles until it stops.
def idleOut (backend : Backend σ) (w : Worker σ) (r : Registry) : Worker σ × Registry :=
  let (w, r) := w.serve backend r
  match w.exit with
  | some _ => (w, r)
  | none => w.stop .idleTimeout r

end Worker

end Covenant
