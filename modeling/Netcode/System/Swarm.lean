import Netcode.Bots.Bot
import Netcode.Server.Exchange

/-!
# The server and a swarm of bots

The server, the bots and a network that keeps every datagram ever sent. At each
step some process goes round its loop and takes whatever its socket holds. Neither
side looks at more than the endpoint that a datagram claims to come from, so what
the results say of the bots is for runs in which nobody writes datagrams in the
name of the server or of a bot, while other endpoints send the server what they like.
-/

namespace Netcode.System

open Netcode.Library Netcode.Sim Netcode.Transport Netcode.Server Netcode.Bots

structure Deployment (ρ σ : Type*) where
  uniform : Extended → ρ → Extended × ρ
  noise : Noise σ
  bits : Extended → UInt32
  worldBound : Extended
  address : Endpoint
  worldSeed : ρ
  botSeed : Endpoint → σ
  startUs : Micros
  bots : Set Endpoint

/-- The last five fields only record the run: the worlds that were broadcast, and for each
endpoint the blobs and the inputs queued on either side, the reliable messages that its bot
queued and those that the server took. -/
structure Swarm (δ ρ σ : Type*) [Scalar δ] where
  server : ServerLoop δ ρ
  bot : Endpoint → Bot δ σ
  down : Endpoint → List Bytes := fun _ => []
  up : Endpoint → List Bytes := fun _ => []
  worlds : List (WorldSnapshot Extended) := []
  blobs : Endpoint → List Bytes := fun _ => []
  inputs : Endpoint → List Bytes := fun _ => []
  events : Endpoint → List Message
  taken : Endpoint → List Message := fun _ => []

inductive Event
  | serve (now : Micros) (datagrams : List (Endpoint × Arrival))
  | tick (e : Endpoint)
  | pump (e : Endpoint) (now : Micros) (arrivals : List Arrival)

namespace Swarm

variable {δ ρ σ : Type*} [Scalar δ]

def start (D : Deployment ρ σ) : Swarm δ ρ σ where
  server := ServerLoop.start D.worldBound D.worldSeed D.startUs
  bot := fun e => Bot.start D.address (D.botSeed e)
  events := fun _ => [⟨Channel.reliable, 0, emptyInput⟩]

def serve [Fmod δ] (D : Deployment ρ σ) (s : Swarm δ ρ σ) (now : Micros)
    (datagrams : List (Endpoint × Arrival)) : Swarm δ ρ σ :=
  let received := s.server.received D.uniform now datagrams
  let r := s.server.iterate D.uniform now datagrams
  { s with
    server := r.2
    down := fun e => s.down e ++ ServerLoop.sentTo e r.1
    worlds := s.worlds ++ received.recorded now
    blobs := fun e => s.blobs e ++ received.aired now e
    taken := fun e => s.taken e ++ ServerLoop.reliableFrom e (s.server.mgr.poll now datagrams).1 }

def tick (D : Deployment ρ σ) (s : Swarm δ ρ σ) (e : Endpoint) : Swarm δ ρ σ :=
  let b := s.bot e
  let emit := (b.driver.tick D.noise).1
  { s with
    bot := Function.update s.bot e (b.tick D.noise D.bits)
    inputs := Function.update s.inputs e (s.inputs e ++ [b.stamped D.bits emit])
    events := Function.update s.events e (s.events e ++ if emit.event.isSome then
      [⟨Channel.reliable, b.peer.mux.reliable.nextId, emptyInput⟩] else []) }

def pump (D : Deployment ρ σ) (s : Swarm δ ρ σ) (e : Endpoint) (now : Micros)
    (arrivals : List Arrival) : Swarm δ ρ σ :=
  let r := (s.bot e).pump D.worldBound now arrivals
  { s with
    bot := Function.update s.bot e r.2
    up := Function.update s.up e (s.up e ++ r.1) }

def machine [Fmod δ] (D : Deployment ρ σ) : Machine (Swarm δ ρ σ) Event where
  init := start D
  Enabled _ ev := match ev with
    | .serve _ _ => True
    | .tick e => e ∈ D.bots
    | .pump e _ _ => e ∈ D.bots
  next s ev := match ev with
    | .serve now datagrams => s.serve D now datagrams
    | .tick e => s.tick D e
    | .pump e now arrivals => s.pump D e now arrivals

/-- Nobody forges: what comes from the endpoint of a bot was sent by the bot, and what
reaches a bot was sent to it by the server, if perhaps long ago or more than once. -/
def Genuine (D : Deployment ρ σ) (s : Swarm δ ρ σ) : Event → Prop
  | .serve _ datagrams => ∀ d ∈ datagrams, d.1 ∈ D.bots → d.2.2 ∈ s.up d.1
  | .tick _ => True
  | .pump e _ arrivals => ∀ a ∈ arrivals, a.2 ∈ s.down e

instance (D : Deployment ρ σ) (s : Swarm δ ρ σ) (e : Endpoint) (now : Micros)
    (arrivals : List Arrival) : Decidable (s.Genuine D (.pump e now arrivals)) :=
  inferInstanceAs (Decidable (∀ a ∈ arrivals, a.2 ∈ s.down e))

/-- No number of fixed width has come round: the ids fit sixteen bits and the tick its
counter, and between the server and a bot every packet fits the wire and has a sequence of
its own. -/
def Roomy [Fmod δ] (D : Deployment ρ σ) (s : Swarm δ ρ σ) : Event → Prop
  | .serve now datagrams =>
    let received := s.server.received D.uniform now datagrams
    received.clients.entries.length < 2 ^ 16 ∧
      received.tick.toNat + (received.advance now).1.toNat < 2 ^ 32 ∧
      ∀ e ∈ D.bots, (∀ p ∈ (received.served now).flushesTo now e, p.Carried) ∧
        ((s.server.iterate D.uniform now datagrams).2.peerAt e).packetsSent.toNat ≤ maxPackets
  | .tick _ => True
  | .pump e now _ => (∀ p ∈ (s.bot e).peer.flushes now, p.Carried) ∧
      ((s.bot e).peer.update now).2.packetsSent.toNat ≤ maxPackets

def Within [Fmod δ] (D : Deployment ρ σ) (s : Swarm δ ρ σ) (ev : Event) : Prop :=
  s.Genuine D ev ∧ s.Roomy D ev

end Swarm

end Netcode.System
