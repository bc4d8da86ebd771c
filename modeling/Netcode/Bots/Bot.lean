import Netcode.Bots.Driver
import Netcode.Sim.Snapshot
import Netcode.Transport.PeerManager

/-!
# A bot

A bot drives one peer to the server. Each tick it queues its input, stamped with
the tick of the snapshot that it holds; as often as the loop comes round it
flushes, polls and applies whatever snapshots came in.
-/

namespace Netcode.Bots

open Netcode.Library Netcode.Sim Netcode.Transport

structure Bot (δ σ : Type*) [Scalar δ] where
  peer : Peer δ
  driver : BotDriver σ
  snapshotsRecv : UInt64 := 0
  baseline : WorldSnapshot Extended := {}

/-- The payload of the join marker and of every event, an input all of whose fields are zero. -/
def emptyInput : Bytes := encodeInput ⟨0, 0, 0⟩

namespace Bot

variable {δ σ : Type*} [Scalar δ]

def start (server : Endpoint) (seed : σ) : Bot δ σ where
  peer := Peer.queueReliable { remote := server } emptyInput
  driver := { rng := seed }

/-- What a tick queues, where `bits` is the memory of a float. -/
def stamped (bits : Extended → UInt32) (b : Bot δ σ) (e : Emit) : Bytes :=
  encodeInput ⟨bits e.input.dx, bits e.input.dy, b.baseline.tick⟩

def tick (noise : Noise σ) (bits : Extended → UInt32) (b : Bot δ σ) : Bot δ σ :=
  let e := b.driver.tick noise
  let peer := b.peer.queueUnreliable (b.stamped bits e.1)
  { b with
    driver := e.2
    peer := if e.1.event.isSome then peer.queueReliable emptyInput else peer }

def applyMessage (worldBound : Extended) (x : WorldSnapshot Extended × UInt64) (m : Message) :
    WorldSnapshot Extended × UInt64 :=
  let r := applySnapshot x.1 m.payload worldBound
  (r.2, if r.1 then x.2 + 1 else x.2)

def pump (worldBound : Extended) (b : Bot δ σ) (nowUs : Micros) (arrivals : List Arrival) :
    List Bytes × Bot δ σ :=
  let sent := b.peer.update nowUs
  let polled := sent.2.poll nowUs arrivals
  let applied := polled.1.unreliable.foldl (applyMessage worldBound) (b.baseline, b.snapshotsRecv)
  (sent.1, { b with peer := polled.2, baseline := applied.1, snapshotsRecv := applied.2 })

end Bot

end Netcode.Bots
