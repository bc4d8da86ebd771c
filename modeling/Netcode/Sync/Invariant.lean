import Netcode.Sim.Delta
import Netcode.Sync.Broadcast

/-!
# What holds of the server and the network in every run

The ring holds only what was broadcast, under ticks that are all different; what
was queued are keyframes and deltas of what was broadcast; and no tick that a
client holds or has named lies beyond the newest broadcast.
-/

namespace Netcode.Sync

open Netcode.Library Netcode.Sim

variable {ι α : Type*} [Scalar α] {setup : Setup ι α} {s t : Session ι α} {i : ι}
  {worlds : List (WorldSnapshot α)} {blob : Bytes}

theorem Setup.view_tick {snap view : WorldSnapshot α} (h : setup.view i snap = some view) :
    view.tick = snap.tick := viewOf_tick h

theorem Blob.mono {more : List (WorldSnapshot α)} (h : Blob setup i worlds blob)
    (hsub : worlds ⊆ more) : Blob setup i more blob := by
  obtain ⟨w, hw, view, hview, h⟩ := h
  refine ⟨w, hsub hw, view, hview, h.imp_right fun h => ?_⟩
  obtain ⟨b, hb, h⟩ := h
  exact ⟨b, hsub hb, h⟩

theorem Blob.apply_cases (h : Blob setup i worlds blob) (base : WorldSnapshot α) :
    applySnapshot base blob setup.worldMax = (false, base) ∧ keyframeTick blob = none ∨
      ∃ w ∈ worlds, ∃ es, applySnapshot base blob setup.worldMax = (true, ⟨w.tick, es⟩) ∧
        (keyframeTick blob = some w.tick ∨ keyframeTick blob = none ∧ base.tick < w.tick) := by
  obtain ⟨w, hw, view, hview, h⟩ := h
  have htick := Setup.view_tick hview
  rcases h with hblob | ⟨b, hb, baseView, hbase, hlt, hblob⟩
  · obtain ⟨es, hes⟩ : ∃ es, applySnapshot base (encodeKeyframe view setup.worldMax)
        setup.worldMax = (true, ⟨view.tick, es⟩) := ⟨_, keyframe_accepted base view⟩
    refine Or.inr ⟨w, hw, es, ?_, Or.inl ?_⟩
    · rw [hblob, hes, htick]
    · rw [hblob, keyframeTick_encodeKeyframe, htick]
  · rw [hblob, keyframeTick_encodeDelta]
    rcases delta_cases base view baseView with h | ⟨hheld, es, h⟩
    · exact Or.inl ⟨h, rfl⟩
    · rw [Setup.view_tick hbase] at hheld
      exact Or.inr ⟨w, hw, es, htick ▸ h, Or.inr ⟨rfl, hheld ▸ hlt⟩⟩

structure Recorded (setup : Setup ι α) (s : Session ι α) : Prop where
  worldMax_eq : s.server.history.worldMax = setup.worldMax
  tick_le : ∀ w ∈ s.worlds, w.tick ≤ s.server.tick
  tick_ne : ∀ w ∈ s.worlds, w.tick ≠ 0
  unique : ∀ w ∈ s.worlds, ∀ v ∈ s.worlds, w.tick = v.tick → w = v
  ring : ∀ t snap, s.server.history.get t = some snap → snap ∈ s.worlds
  sent : ∀ i, ∀ blob ∈ s.blobs i, Blob setup i s.worlds blob
  base_le : ∀ i, (s.base i).tick ≤ s.server.tick
  input_le : ∀ i, ∀ ack ∈ s.inputs i, ack ≤ s.server.tick
  ack_le : ∀ i, s.server.lastReceivedTick i ≤ s.server.tick

namespace Recorded

theorem init (setup : Setup ι α) : Recorded setup (Session.init setup) where
  worldMax_eq := rfl
  tick_le := fun w hw => by simp [Session.init] at hw
  tick_ne := fun w hw => by simp [Session.init] at hw
  unique := fun w hw => by simp [Session.init] at hw
  ring := fun t snap hget => by simp [Session.init, SnapshotHistory.get_init] at hget
  sent := fun i blob hblob => by simp [Session.init] at hblob
  base_le := fun i => le_rfl
  input_le := fun i ack hack => by simp [Session.init] at hack
  ack_le := fun i => le_rfl

theorem mem_ring_push (h : Recorded setup s) {tick t : UInt32} {entities : List (EntityState α)}
    {snap : WorldSnapshot α} (hget : (s.server.push tick entities).history.get t = some snap) :
    snap ∈ s.worlds ++ [⟨tick, entities⟩] := by
  rcases SnapshotHistory.get_push hget with hnew | hold
  · exact List.mem_append_right _ (List.mem_singleton.mpr hnew)
  · exact List.mem_append_left _ (h.ring t snap hold)

theorem blobFor (h : Recorded setup s) {tick : UInt32} (htick : s.server.tick < tick)
    {entities : List (EntityState α)}
    (hne : (s.server.push tick entities).blobFor setup i ≠ []) :
    Blob setup i (s.worlds ++ [⟨tick, entities⟩])
      ((s.server.push tick entities).blobFor setup i) := by
  rcases (s.server.push tick entities).history.encodeFor_cases (setup.viewer i) setup.radius
    (s.server.lastReceivedTick i) tick with hempty | ⟨curr, view, hget, hview, hblob⟩
  · exact absurd hempty hne
  · have hcurr := (SnapshotHistory.get_eq_some.mp hget).2.1
    have hmax : (s.server.push tick entities).history.worldMax = setup.worldMax := h.worldMax_eq
    rw [hmax] at hblob
    refine ⟨curr, h.mem_ring_push hget, view, hview, hblob.imp_right fun hdelta => ?_⟩
    obtain ⟨base, baseView, hgetBase, hviewBase, hblob⟩ := hdelta
    have hbase := (SnapshotHistory.get_eq_some.mp hgetBase).2.1
    refine ⟨base, h.mem_ring_push hgetBase, baseView, hviewBase, ?_, hblob⟩
    rw [hbase, hcurr]
    exact lt_of_le_of_lt (h.ack_le i) htick

theorem broadcast (h : Recorded setup s) {tick : UInt32} (htick : s.server.tick < tick)
    (entities : List (EntityState α)) : Recorded setup (s.broadcast setup tick entities) where
  worldMax_eq := h.worldMax_eq
  tick_le := List.forall_mem_append.mpr
    ⟨fun w hw => (h.tick_le w hw).trans htick.le, List.forall_mem_singleton.mpr le_rfl⟩
  tick_ne := List.forall_mem_append.mpr
    ⟨h.tick_ne, List.forall_mem_singleton.mpr (ne_zero_of_lt htick)⟩
  unique := by
    have hold : ∀ w ∈ s.worlds, w.tick ≠ tick := fun w hw =>
      ne_of_lt (lt_of_le_of_lt (h.tick_le w hw) htick)
    refine List.forall_mem_append.mpr ⟨fun w hw => List.forall_mem_append.mpr ⟨h.unique w hw,
      List.forall_mem_singleton.mpr fun heq => absurd heq (hold w hw)⟩,
      List.forall_mem_singleton.mpr (List.forall_mem_append.mpr ⟨fun v hv heq =>
        absurd heq.symm (hold v hv), List.forall_mem_singleton.mpr fun _ => rfl⟩)⟩
  ring := fun t snap hget => h.mem_ring_push hget
  sent := fun i => by
    refine List.forall_mem_append.mpr ⟨fun blob hblob =>
      (h.sent i blob hblob).mono (List.subset_append_left ..), fun blob hblob => ?_⟩
    split_ifs at hblob with hempty
    · simp at hblob
    · rw [List.mem_singleton] at hblob
      subst hblob
      exact h.blobFor htick hempty
  base_le := fun i => (h.base_le i).trans htick.le
  input_le := fun i ack hack => (h.input_le i ack hack).trans htick.le
  ack_le := fun i => (h.ack_le i).trans htick.le

variable [DecidableEq ι]

theorem deliver (h : Recorded setup s) (hblob : Blob setup i s.worlds blob) :
    Recorded setup (s.deliver setup i blob) where
  worldMax_eq := h.worldMax_eq
  tick_le := h.tick_le
  tick_ne := h.tick_ne
  unique := h.unique
  ring := h.ring
  sent := h.sent
  base_le := by
    have hnew : (applySnapshot (s.base i) blob setup.worldMax).2.tick ≤ s.server.tick := by
      rcases hblob.apply_cases (s.base i) with ⟨hrej, -⟩ | ⟨w, hw, es, hacc, -⟩
      · rw [hrej]
        exact h.base_le i
      · rw [hacc]
        exact h.tick_le w hw
    exact (Function.forall_update_iff s.base fun _ base => base.tick ≤ s.server.tick).mpr
      ⟨hnew, fun j _ => h.base_le j⟩
  input_le := h.input_le
  ack_le := h.ack_le

theorem stamp (h : Recorded setup s) (i : ι) : Recorded setup (s.stamp i) where
  worldMax_eq := h.worldMax_eq
  tick_le := h.tick_le
  tick_ne := h.tick_ne
  unique := h.unique
  ring := h.ring
  sent := h.sent
  base_le := h.base_le
  input_le := by
    have hnew : ∀ ack ∈ s.inputs i ++ [(s.base i).tick], ack ≤ s.server.tick :=
      List.forall_mem_append.mpr ⟨h.input_le i, List.forall_mem_singleton.mpr (h.base_le i)⟩
    exact (Function.forall_update_iff s.inputs fun _ acks => ∀ ack ∈ acks, ack ≤ s.server.tick).mpr
      ⟨hnew, fun j _ => h.input_le j⟩
  ack_le := h.ack_le

theorem ingest (h : Recorded setup s) {ack : UInt32} (hack : ack ∈ s.inputs i) :
    Recorded setup (s.ingest i ack) where
  worldMax_eq := by
    simp only [Session.ingest, Server.ingest_history]
    exact h.worldMax_eq
  tick_le := by
    simp only [Session.ingest, Server.ingest_tick]
    exact h.tick_le
  tick_ne := h.tick_ne
  unique := h.unique
  ring := by
    simp only [Session.ingest, Server.ingest_history]
    exact h.ring
  sent := h.sent
  base_le := by
    simp only [Session.ingest, Server.ingest_tick]
    exact h.base_le
  input_le := by
    simp only [Session.ingest, Server.ingest_tick]
    exact h.input_le
  ack_le := fun j => by
    simp only [Session.ingest, Server.ingest_tick, Server.ingest_lastReceivedTick]
    split_ifs
    · exact max_le (h.ack_le j) (h.input_le i ack hack)
    · exact h.ack_le j

theorem next (h : Recorded setup s) {e : Event ι α} (he : (machine setup).Enabled s e) :
    Recorded setup ((machine setup).next s e) := by
  cases e with
  | broadcast tick entities => exact h.broadcast he entities
  | deliver i blob => exact h.deliver (h.sent i blob he)
  | stamp i => exact h.stamp i
  | ingest i ack => exact h.ingest he

end Recorded

end Netcode.Sync
