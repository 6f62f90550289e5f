import Covenant.Bridge.Message
import Covenant.Channel.Endpoint

namespace Covenant

-- The side that asks. Once it has failed it stays so.
structure Client where
  requests : Channel
  responses : Channel
  nextId : Nat
  failed : Option String
  timeoutMs : Nat

namespace Client

def name : String := "worker"

def new (requests responses : Channel) (timeoutMs : Nat) : Client :=
  ⟨requests, responses, 0, none, timeoutMs⟩

def isConnected (c : Client) : Bool := c.failed.isNone

-- Closes both ends.
def close (c : Client) (r : Registry) : Client × Registry :=
  let (requests, r) := c.requests.close r
  let (responses, r) := c.responses.close r
  ({ c with requests, responses }, r)

-- Closes both ends for good.
def tearDown (reason : String) (c : Client) (r : Registry) : Answer × Client × Registry :=
  let (c, r) := c.close r
  (.error (.unavailable reason), { c with failed := some reason }, r)

-- What became of a query: it was answered without being sent, or it waits for an answer.
inductive Submission
  | refused (answer : Answer)
  | sent (id : Nat)

def refuse (result : Answer × Client × Registry) : Submission × Client × Registry :=
  (.refused result.1, result.2)

def send (id : Nat) (frame : Bytes) (c : Client) (r : Registry) :
    Submission × Client × Registry :=
  match c.requests.freeLength r with
  | .error e => refuse (c.tearDown e.message r)
  | .ok free =>
      if frame.length > free then
        let reason := s!"query of {frame.length} bytes exceeds channel free length {free}"
        (.refused (.error (.backend reason)), c, r)
      else
        match c.requests.write frame r with
        | .error e => refuse (c.tearDown e.message r)
        | .ok r => (.sent id, c, r)

-- Sends a query under a new number. One that does not fit is refused, and the next may still fit.
def submit (f : Formula) (c : Client) (r : Registry) : Submission × Client × Registry :=
  match c.failed with
  | some reason => (.refused (.error (.unavailable reason)), c, r)
  | none => { c with nextId := c.nextId + 1 }.send c.nextId (Request.encode ⟨c.nextId, f⟩) r

-- One look at the responses.
inductive Poll
  | answered (answer : Answer)
  | discarded
  | nothing

-- A response that is late or cannot be read is thrown away.
def accept (id : Nat) (frame : Bytes) : Poll :=
  match Response.decode frame with
  | .ok response => if response.id = id then .answered response.result else .discarded
  | .error _ => .discarded

def poll (id : Nat) (c : Client) (r : Registry) : Poll × Client × Registry :=
  match c.responses.read r with
  | .ok (some frame, r) => (accept id frame, c, r)
  | .ok (none, r) => (.nothing, c, r)
  | .error e =>
      let (answer, c, r) := c.tearDown e.message r
      (.answered answer, c, r)

-- Looks at the responses until one answers or none is left. Each look takes at least a header, so
-- the bytes that are queued bound the looks.
def awaitWithin (id : Nat) : Nat → Client → Registry → Option Answer × Client × Registry
  | 0, c, r => (none, c, r)
  | looks + 1, c, r =>
      match c.poll id r with
      | (.answered answer, c, r) => (some answer, c, r)
      | (.discarded, c, r) => c.awaitWithin id looks r
      | (.nothing, c, r) => (none, c, r)

def await (id : Nat) (c : Client) (r : Registry) : Option Answer × Client × Registry :=
  c.awaitWithin id (c.responses.pending r + 1) r

-- Gives up on a worker that does not answer in time.
def timeOut (c : Client) (r : Registry) : Answer × Client × Registry :=
  c.tearDown s!"no response within {c.timeoutMs} ms" r

-- The answer if it is there, and otherwise none in time.
def conclude (id : Nat) (c : Client) (r : Registry) : Answer × Client × Registry :=
  match c.await id r with
  | (some answer, c, r) => (answer, c, r)
  | (none, c, r) => c.timeOut r

-- A query whose response has to be queued before it is asked.
def check (f : Formula) (c : Client) (r : Registry) : Answer × Client × Registry :=
  match c.submit f r with
  | (.refused answer, c, r) => (answer, c, r)
  | (.sent id, c, r) => c.conclude id r

end Client

end Covenant
