import Netcode.Library.Machine
import Netcode.Sim.SnapshotHistory

/-!
# The server loop and its clients

The server broadcasts a snapshot of the world to every client and reads the
newest tick each of them has acknowledged; a client applies every blob that
arrives and stamps the tick it holds on its inputs. What the world does between
two broadcasts is left open. The last three fields of a `Session` only record
the run: what was broadcast, and for each client the ticks that were queued for
it and those that it applied.
-/

namespace Netcode.Sync

open Netcode.Library Netcode.Sim

abbrev kDepth : ℕ := 128

instance instNeZeroKDepth : NeZero kDepth := ⟨by decide⟩

structure Setup (ι α : Type*) where
  viewer : ι → EntityId
  radius : α
  worldMax : α

structure Server (ι α : Type*) where
  history : SnapshotHistory α kDepth
  tick : UInt32 := 0
  lastReceivedTick : ι → UInt32 := fun _ => 0

structure Session (ι α : Type*) where
  server : Server ι α
  base : ι → WorldSnapshot α := fun _ => {}
  blobs : ι → List Bytes := fun _ => []
  inputs : ι → List UInt32 := fun _ => []
  worlds : List (WorldSnapshot α) := []
  queued : ι → List UInt32 := fun _ => []
  applied : ι → List UInt32 := fun _ => []

variable {ι α : Type*}

theorem ne_zero_of_lt {a b : UInt32} (h : a < b) : b ≠ 0 :=
  ne_of_gt (lt_of_le_of_lt UInt32.zero_le h)

def Server.push (s : Server ι α) (tick : UInt32) (entities : List (EntityState α)) :
    Server ι α :=
  { s with history := s.history.push tick entities, tick := tick }

def Session.init (setup : Setup ι α) : Session ι α :=
  { server := { history := { worldMax := setup.worldMax } } }

section

variable [Scalar α]

def Server.blobFor (s : Server ι α) (setup : Setup ι α) (i : ι) : Bytes :=
  s.history.encodeFor (setup.viewer i) setup.radius (s.lastReceivedTick i) s.tick

/-- An empty blob is not queued. -/
def Session.broadcast (setup : Setup ι α) (s : Session ι α) (tick : UInt32)
    (entities : List (EntityState α)) : Session ι α :=
  let server := s.server.push tick entities
  { s with
    server := server
    worlds := s.worlds ++ [⟨tick, entities⟩]
    blobs := fun i => s.blobs i ++
      if server.blobFor setup i = [] then [] else [server.blobFor setup i]
    queued := fun i => s.queued i ++ if server.blobFor setup i = [] then [] else [tick] }

def Setup.view (setup : Setup ι α) (i : ι) (snap : WorldSnapshot α) : Option (WorldSnapshot α) :=
  viewOf (setup.viewer i) setup.radius snap

/-- The blob is a keyframe of a view of one of `worlds`, or a delta to it from the
view of an earlier one. -/
def Blob (setup : Setup ι α) (i : ι) (worlds : List (WorldSnapshot α)) (blob : Bytes) : Prop :=
  ∃ w ∈ worlds, ∃ view, setup.view i w = some view ∧
    (blob = encodeKeyframe view setup.worldMax ∨ ∃ b ∈ worlds, ∃ baseView,
      setup.view i b = some baseView ∧ b.tick < w.tick ∧
        blob = encodeDelta view baseView setup.worldMax)

end

variable [DecidableEq ι]

/-- The acknowledgement is monotonic. -/
def Server.ingest (s : Server ι α) (i : ι) (lastReceivedTick : UInt32) : Server ι α :=
  if s.lastReceivedTick i < lastReceivedTick then
    { s with lastReceivedTick := Function.update s.lastReceivedTick i lastReceivedTick }
  else s

@[simp] theorem Server.ingest_history (s : Server ι α) (i : ι) (ack : UInt32) :
    (s.ingest i ack).history = s.history := by
  rw [Server.ingest]
  split_ifs <;> rfl

@[simp] theorem Server.ingest_tick (s : Server ι α) (i : ι) (ack : UInt32) :
    (s.ingest i ack).tick = s.tick := by
  rw [Server.ingest]
  split_ifs <;> rfl

theorem Server.ingest_lastReceivedTick (s : Server ι α) (i j : ι) (ack : UInt32) :
    (s.ingest i ack).lastReceivedTick j =
      if j = i then max (s.lastReceivedTick j) ack else s.lastReceivedTick j := by
  rw [Server.ingest]
  by_cases hj : j = i
  · subst hj
    rw [if_pos rfl]
    split_ifs with hlt
    · rw [max_eq_right hlt.le]
      exact Function.update_self ..
    · exact (max_eq_left (not_lt.mp hlt)).symm
  · rw [if_neg hj]
    split_ifs
    · exact Function.update_of_ne hj ..
    · rfl

namespace Session

def deliver [Scalar α] (setup : Setup ι α) (s : Session ι α) (i : ι) (blob : Bytes) :
    Session ι α :=
  let r := applySnapshot (s.base i) blob setup.worldMax
  { s with
    base := Function.update s.base i r.2
    applied := Function.update s.applied i
      (s.applied i ++ if r.1 then [r.2.tick] else []) }

def stamp (s : Session ι α) (i : ι) : Session ι α :=
  { s with inputs := Function.update s.inputs i (s.inputs i ++ [(s.base i).tick]) }

def ingest (s : Session ι α) (i : ι) (lastReceivedTick : UInt32) : Session ι α :=
  { s with server := s.server.ingest i lastReceivedTick }

end Session

inductive Event (ι α : Type*)
  | broadcast (tick : UInt32) (entities : List (EntityState α))
  | deliver (i : ι) (blob : Bytes)
  | stamp (i : ι)
  | ingest (i : ι) (lastReceivedTick : UInt32)

/-- Whatever was sent may arrive at any later time, any number of times or never. -/
def machine [Scalar α] (setup : Setup ι α) : Machine (Session ι α) (Event ι α) where
  init := Session.init setup
  Enabled s e := match e with
    | .broadcast tick _ => s.server.tick < tick
    | .deliver i blob => blob ∈ s.blobs i
    | .stamp _ => True
    | .ingest i lastReceivedTick => lastReceivedTick ∈ s.inputs i
  next s e := match e with
    | .broadcast tick entities => s.broadcast setup tick entities
    | .deliver i blob => s.deliver setup i blob
    | .stamp i => s.stamp i
    | .ingest i lastReceivedTick => s.ingest i lastReceivedTick

instance [Scalar α] (setup : Setup ι α) (s : Session ι α) (e : Event ι α) :
    Decidable ((machine setup).Enabled s e) :=
  match e with
  | .broadcast tick _ => inferInstanceAs (Decidable (s.server.tick < tick))
  | .deliver i blob => inferInstanceAs (Decidable (blob ∈ s.blobs i))
  | .stamp _ => isTrue trivial
  | .ingest i ack => inferInstanceAs (Decidable (ack ∈ s.inputs i))

def oneClient : Setup Unit ℚ := ⟨fun _ => 1, 20, 100⟩

end Netcode.Sync
