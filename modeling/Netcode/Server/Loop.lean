import Netcode.Sim.FixedTimestep
import Netcode.Sim.Inputs
import Netcode.Sync.Broadcast
import Netcode.Transport.PeerManager

/-!
# The loop of the server

One iteration polls the manager, gives every new endpoint an entity and applies
the inputs that came in, takes the steps that the clock owes, and broadcasts
to each endpoint what its entity sees. The clock and the datagrams waiting on the
socket are its arguments, what it sends is its result; the report once a second
comes on top of it, in a module of its own.
-/

namespace Netcode.Server

open Netcode.Library Netcode.Sim Netcode.Transport
open Netcode.Sync (kDepth)

structure ClientState where
  entity : EntityId := 0
  lastReceivedTick : UInt32 := 0

structure ServerLoop (δ ρ : Type*) [Scalar δ] where
  mgr : PeerManager δ := {}
  world : World Extended ρ
  history : SnapshotHistory Extended kDepth
  ts : FixedTimestep δ
  clients : SortedMap Endpoint ClientState := ∅
  tick : UInt32 := 0
  last : Micros
  reliableEvents : UInt64 := 0
  keyframePackets : UInt64 := 0
  deltaPackets : UInt64 := 0

def kAoiRadius : Extended := Scalar.ofRat 20

def kDt {α : Type*} [Scalar α] : α := Scalar.ofRat 1 / Scalar.ofRat 60

namespace ServerLoop

variable {δ ρ : Type*} [Scalar δ]

def start (bound : Extended) (seed : ρ) (now : Micros) : ServerLoop δ ρ where
  world := { bound := bound, rng := seed }
  history := { worldMax := bound }
  ts := FixedTimestep.new kDt
  last := now

def applyMessage (x : World Extended ρ × ClientState) (m : Message) :
    World Extended ρ × ClientState :=
  match decodeInput m.payload with
  | none => x
  | some input =>
    (x.1.applyInput x.2.entity input,
      if x.2.lastReceivedTick < input.lastReceivedTick then
        { x.2 with lastReceivedTick := input.lastReceivedTick }
      else x.2)

def welcome (uniform : Extended → ρ → Extended × ρ) (s : ServerLoop δ ρ) (i : Incoming) :
    ServerLoop δ ρ :=
  if i.isNew then
    let player := s.world.addPlayer uniform
    { s with world := player.2, clients := s.clients.insert i.source ⟨player.1, 0⟩ }
  else s

/-- Looking up a client that is not there inserts the default one. -/
def ingest (uniform : Extended → ρ → Extended × ρ) (s : ServerLoop δ ρ) (i : Incoming) :
    ServerLoop δ ρ :=
  let s := s.welcome uniform i
  let r := i.delivery.unreliable.foldl applyMessage
    (s.world, (s.clients.lookup i.source).getD {})
  { s with
    world := r.1
    clients := s.clients.insert i.source r.2
    reliableEvents := s.reliableEvents + UInt64.ofNat i.delivery.reliable.length }

def stepTimes : ℕ → World Extended ρ × UInt32 → World Extended ρ × UInt32
  | 0, x => x
  | n + 1, x => stepTimes n (x.1.step kDt, x.2 + 1)

def elapsed (s : ServerLoop δ ρ) (now : Micros) : δ :=
  Scalar.ofRat (now - s.last).toNat / Scalar.ofRat 1000000

def advance [Fmod δ] (s : ServerLoop δ ρ) (now : Micros) : ℤ × ServerLoop δ ρ :=
  let r := s.ts.advance (s.elapsed now)
  let x := stepTimes r.1.toNat (s.world, s.tick)
  (r.1, { s with ts := r.2, last := now, world := x.1, tick := x.2 })

def blobFor (s : ServerLoop δ ρ) (cs : ClientState) : Bytes :=
  s.history.encodeFor cs.entity kAoiRadius cs.lastReceivedTick s.tick

/-- An empty blob is not queued. -/
def broadcastTo (s : ServerLoop δ ρ) (e : Endpoint) : ServerLoop δ ρ :=
  let cs := (s.clients.lookup e).getD {}
  let s := { s with clients := s.clients.insert e cs }
  match s.blobFor cs with
  | [] => s
  | type :: data =>
    { s with
      keyframePackets :=
        if type = SnapshotType.keyframe.code then s.keyframePackets + 1 else s.keyframePackets
      deltaPackets :=
        if type = SnapshotType.keyframe.code then s.deltaPackets else s.deltaPackets + 1
      mgr := s.mgr.withPeer e fun p => p.queueUnreliable (type :: data) }

def broadcast (s : ServerLoop δ ρ) : ServerLoop δ ρ :=
  s.mgr.endpoints.foldl broadcastTo
    { s with history := s.history.push s.tick s.world.snapshot }

def received (uniform : Extended → ρ → Extended × ρ) (s : ServerLoop δ ρ) (now : Micros)
    (datagrams : List (Endpoint × Arrival)) : ServerLoop δ ρ :=
  let polled := s.mgr.poll now datagrams
  polled.1.foldl (ingest uniform) { s with mgr := polled.2 }

def served [Fmod δ] (s : ServerLoop δ ρ) (now : Micros) : ServerLoop δ ρ :=
  let r := s.advance now
  if 0 < r.1 ∧ 0 < r.2.mgr.size then r.2.broadcast else r.2

def iterate [Fmod δ] (uniform : Extended → ρ → Extended × ρ) (s : ServerLoop δ ρ) (now : Micros)
    (datagrams : List (Endpoint × Arrival)) : List (Endpoint × Bytes) × ServerLoop δ ρ :=
  let s := (s.received uniform now datagrams).served now
  let sent := s.mgr.updateAll now
  (sent.1, { s with mgr := sent.2 })

end ServerLoop

end Netcode.Server
