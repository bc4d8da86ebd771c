import Netcode.Server.Exchange

/-!
# A broadcast leaves nobody out

Every client has its entity in the world that is broadcast, so that each of them
is sent one snapshot: a delta from the view that it acknowledged, if the ring
still has it, and a keyframe otherwise. The two counters count just these.
-/

namespace Netcode.Server.ServerLoop

open Netcode.Library Netcode.Sim Netcode.Transport

variable {δ ρ : Type*} [Scalar δ] {s : ServerLoop δ ρ} {e : Endpoint}

def baselineOf (s : ServerLoop δ ρ) (e : Endpoint) : Option (WorldSnapshot Extended) :=
  let cs := (s.clients.lookup e).getD {}
  (s.history.get cs.lastReceivedTick).bind (viewOf cs.entity kAoiRadius)

def encodeFrom (worldMax : Extended) (base : Option (WorldSnapshot Extended))
    (view : WorldSnapshot Extended) : Bytes :=
  match base with
  | some base => encodeDelta view base worldMax
  | none => encodeKeyframe view worldMax

theorem Aired.baselineOf {t : ServerLoop δ ρ} (h : Aired s t) (e : Endpoint) :
    t.baselineOf e = s.baselineOf e := by
  rw [ServerLoop.baselineOf, ServerLoop.baselineOf, h.history, h.clients]

def isKeyframe (blob : Bytes) : Bool := blob.head? = some SnapshotType.keyframe.code

def isDelta (blob : Bytes) : Bool := blob ≠ [] ∧ blob.head? ≠ some SnapshotType.keyframe.code

theorem broadcastTo_kinds (s : ServerLoop δ ρ) (e : Endpoint) :
    (s.broadcastTo e).keyframePackets =
        s.keyframePackets + UInt64.ofNat ([s.blob e].countP isKeyframe) ∧
      (s.broadcastTo e).deltaPackets =
        s.deltaPackets + UInt64.ofNat ([s.blob e].countP isDelta) := by
  have hblobFor : ({ s with clients := s.clients.insert e ((s.clients.lookup e).getD {}) } :
      ServerLoop δ ρ).blobFor ((s.clients.lookup e).getD {}) = s.blob e := rfl
  rw [broadcastTo]
  simp only [hblobFor]
  cases s.blob e with
  | nil => exact ⟨(UInt64.add_zero _).symm, (UInt64.add_zero _).symm⟩
  | cons type data => by_cases htype : type = SnapshotType.keyframe.code <;>
      simp [isKeyframe, isDelta, htype]

theorem foldl_broadcastTo_kinds (es : List Endpoint)
    (hclients : ∀ e ∈ es, (s.clients.lookup e).isSome) :
    (es.foldl broadcastTo s).keyframePackets =
        s.keyframePackets + UInt64.ofNat ((es.map s.blob).countP isKeyframe) ∧
      (es.foldl broadcastTo s).deltaPackets =
        s.deltaPackets + UInt64.ofNat ((es.map s.blob).countP isDelta) := by
  induction es generalizing s with
  | nil => exact ⟨(UInt64.add_zero _).symm, (UInt64.add_zero _).symm⟩
  | cons e es ih =>
    obtain ⟨hclient, hothers⟩ := List.forall_mem_cons.mp hclients
    obtain ⟨haired, -⟩ := broadcastTo_spec hclient
    obtain ⟨hkey, hdelta⟩ := s.broadcastTo_kinds e
    have hblob : (s.broadcastTo e).blob = s.blob := funext haired.blob
    obtain ⟨hkeys, hdeltas⟩ := ih (s := s.broadcastTo e) fun f hf => by
      rw [haired.clients]
      exact hothers f hf
    rw [hblob] at hkeys hdeltas
    have hsplit : (e :: es).map s.blob = [s.blob e] ++ es.map s.blob := rfl
    rw [List.foldl_cons, hkeys, hdeltas, hkey, hdelta, hsplit, List.countP_append,
      List.countP_append, UInt64.ofNat_add, UInt64.ofNat_add, UInt64.add_assoc, UInt64.add_assoc]
    exact ⟨rfl, rfl⟩

/-- From `s` to `t` every endpoint was sent one snapshot of the world of `t`, with as many
entities as the report counts for it. -/
structure ServesAll (s t : ServerLoop δ ρ) (sent : Endpoint → List Bytes) : Prop where
  blob : ∀ e ∈ t.mgr.endpoints, ∃ cs view, t.clients.lookup e = some cs ∧
    viewOf cs.entity kAoiRadius ⟨t.tick, t.world.snapshot⟩ = some view ∧
      t.history.aoiCount cs.entity kAoiRadius t.tick = view.entities.length ∧
        sent e = [encodeFrom t.history.worldMax (t.baselineOf e) view]
  keyframes : t.keyframePackets = s.keyframePackets +
    UInt64.ofNat (t.mgr.endpoints.countP fun e => (t.baselineOf e).isNone)
  deltas : t.deltaPackets = s.deltaPackets +
    UInt64.ofNat (t.mgr.endpoints.countP fun e => (t.baselineOf e).isSome)

theorem ServesAll.updated {t : ServerLoop δ ρ} {sent : Endpoint → List Bytes}
    (h : ServesAll s t sent) (now : Micros) :
    ServesAll s { t with mgr := (t.mgr.updateAll now).2 } sent := by
  have hendpoints : (t.mgr.updateAll now).2.endpoints = t.mgr.endpoints := SortedMap.keys_map ..
  refine ⟨?_, ?_, ?_⟩ <;> rw [hendpoints]
  · exact h.blob
  · exact h.keyframes
  · exact h.deltas

theorem foldl_ingest_counters (uniform : Extended → ρ → Extended × ρ) (reports : List Incoming)
    (s : ServerLoop δ ρ) :
    (reports.foldl (ingest uniform) s).keyframePackets = s.keyframePackets ∧
      (reports.foldl (ingest uniform) s).deltaPackets = s.deltaPackets := by
  induction reports generalizing s with
  | nil => exact ⟨rfl, rfl⟩
  | cons i reports ih =>
    obtain ⟨hkey, hdelta⟩ := ih (s.ingest uniform i)
    rw [List.foldl_cons, hkey, hdelta, ingest, welcome]
    split_ifs <;> exact ⟨rfl, rfl⟩

variable [Fmod δ] {uniform : Extended → ρ → Extended × ρ} {bound : Extended} {seed : ρ}
  {begun : Micros}

end Netcode.Server.ServerLoop
