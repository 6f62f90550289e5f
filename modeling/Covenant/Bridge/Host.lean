import Covenant.Bridge.Client
import Covenant.Bridge.Worker

namespace Covenant

structure BridgeConfig where
  capacity : Nat
  idleTimeoutMs : Nat
  responseTimeoutMs : Nat
  deriving DecidableEq, Repr

def BridgeConfig.standard : BridgeConfig := ⟨65536, 60000, 30000⟩

structure BridgeError where
  message : String
  deriving DecidableEq, Repr

namespace BridgeError

def text (e : BridgeError) : String := "bridge error: " ++ e.message

def code : String := "vow::bridge"

def ofChannel (e : ChannelError) : BridgeError := ⟨e.message⟩

end BridgeError

-- A client, its worker, and the segments between them.
structure Host (σ : Type) where
  registry : Registry
  client : Client
  worker : Worker σ

namespace Host

-- Both segments, or neither of them.
def createPair (requestName responseName : String) (capacity : Nat) (r : Registry) :
    Except ChannelError Registry × Registry :=
  match r.create requestName capacity with
  | .error e => (.error e, r)
  | .ok created =>
      match created.create responseName capacity with
      | .error e => (.error e, created.remove requestName)
      | .ok both => (.ok both, both)

def connect (requestName responseName : String) (state : σ) (config : BridgeConfig)
    (r : Registry) : Except ChannelError (Host σ) := do
  let requests ← (Channel.new requestName .send).openEnd r
  let inbound ← (Channel.new requestName .receive).openEnd r
  let outbound ← (Channel.new responseName .send).openEnd r
  let responses ← (Channel.new responseName .receive).openEnd r
  let r := (r.remove requestName).remove responseName
  return ⟨r, .new requests responses config.responseTimeoutMs,
    .new inbound outbound state config.idleTimeoutMs⟩

def serve (backend : Backend σ) (h : Host σ) : Host σ :=
  let (worker, registry) := h.worker.serve backend h.registry
  { h with worker, registry }

-- Starts a worker behind two new segments, and it looks for requests at once. The names are free
-- again when the ends are open.
def spawn (backend : Backend σ) (state : σ) (config : BridgeConfig) (r : Registry) :
    Except BridgeError (Host σ) × Registry :=
  let (requestName, r) := r.freshName "vow-req"
  let (responseName, r) := r.freshName "vow-resp"
  match createPair requestName responseName config.capacity r with
  | (.error e, r) => (.error (.ofChannel e), r)
  | (.ok r, _) =>
      match connect requestName responseName state config r with
      | .error e => (.error (.ofChannel e), r)
      | .ok host =>
          let host := host.serve backend
          (.ok host, host.registry)

-- A query through the worker, which has the time until the timeout to answer.
def check (backend : Backend σ) (f : Formula) (h : Host σ) : Answer × Host σ :=
  match h.client.submit f h.registry with
  | (.refused answer, client, registry) => (answer, { h with client, registry })
  | (.sent id, client, registry) =>
      let h := { h with client, registry }
      let h := if client.timeoutMs = 0 then h else h.serve backend
      let (answer, client, registry) := h.client.conclude id h.registry
      (answer, { h with client, registry })

-- Waits until the worker has idled out.
def join (backend : Backend σ) (h : Host σ) : Host σ :=
  let (worker, registry) := h.worker.idleOut backend h.registry
  { h with worker, registry }

-- Closes the client, on which the worker stops.
def shutdown (backend : Backend σ) (h : Host σ) : Host σ :=
  let (client, registry) := h.client.close h.registry
  { h with client, registry }.serve backend

end Host

-- The solver that asks the worker of a host.
def Backend.hosted (backend : Backend σ) : Solver (Host σ) where
  name := Client.name
  check := Host.check backend

end Covenant
