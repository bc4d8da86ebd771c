import Netcode.Sync.Convergence

/-!
# One undisturbed round trip

A client stamps its tick, the server ingests the stamp, broadcasts, and the blob
arrives. The server encodes against the newest tick that the client ever named,
so that the round trip brings the client up to date unless the client has gone
back behind that tick and the ring still has it.
-/

namespace Netcode.Sync

open Netcode.Library Netcode.Sim

variable {ι α : Type*} {setup : Setup ι α} {s : Session ι α} {i : ι} {tick : UInt32}
  {entities : List (EntityState α)}

theorem ack_stamped [DecidableEq ι] (s : Session ι α) (i : ι) :
    ((s.stamp i).ingest i (s.base i).tick).server.lastReceivedTick i =
      max (s.server.lastReceivedTick i) (s.base i).tick := by
  rw [Session.ingest, Server.ingest_lastReceivedTick, if_pos rfl]
  rfl

variable [Scalar α]

theorem Converged.ring_view (h : Converged setup s) {t : UInt32} {view : WorldSnapshot α}
    (hget : (s.server.history.get t).bind (setup.view i) = some view) :
    ∃ w ∈ s.worlds, setup.view i w = some view ∧ w.tick = t ∧ view.tick = t := by
  obtain ⟨w, hw, hview⟩ := Option.bind_eq_some_iff.mp hget
  have htick := (SnapshotHistory.get_eq_some.mp hw).2.1
  exact ⟨w, h.recorded.ring t w hw, hview, htick, (Setup.view_tick hview).trans htick⟩

variable [DecidableEq ι]

def Session.roundTrip (setup : Setup ι α) (s : Session ι α) (i : ι) (tick : UInt32)
    (entities : List (EntityState α)) : Session ι α :=
  let t := ((s.stamp i).ingest i (s.base i).tick).broadcast setup tick entities
  t.deliver setup i (t.server.blobFor setup i)

variable [LawfulLevels α]

theorem Converged.stamped (h : Converged setup s) (i : ι) :
    Converged setup ((s.stamp i).ingest i (s.base i).tick) := by
  have hstamp : Converged setup (s.stamp i) := h.next (e := .stamp i) trivial trivial
  refine hstamp.next (e := .ingest i (s.base i).tick) trivial ?_
  change (s.base i).tick ∈ (s.stamp i).inputs i
  simp only [Session.stamp, Function.update_self]
  exact List.mem_append_right _ (List.mem_singleton_self _)

/-- After a broadcast a client that holds what the server encodes against is brought up to
date, and so is one for which the ring has nothing; any other stays where it is. -/
theorem Converged.answered (h : Converged setup s) (htick : s.server.tick < tick)
    (hfits : Sim.Fits entities) {view : WorldSnapshot α}
    (hview : setup.view i ⟨tick, entities⟩ = some view) :
    let t := s.broadcast setup tick entities
    ((t.deliver setup i (t.server.blobFor setup i)).base i =
        ⟨tick, view.entities.map (received setup.worldMax)⟩ ↔
      s.server.lastReceivedTick i = (s.base i).tick ∨
        (t.server.history.get (s.server.lastReceivedTick i)).bind (setup.view i) = none) := by
  intro t
  have ht : Converged setup t := h.next (e := .broadcast tick entities) hfits htick
  have hmem : (⟨tick, entities⟩ : WorldSnapshot α) ∈ t.worlds :=
    List.mem_append_right _ (List.mem_singleton_self _)
  have hcurr : (t.server.history.get tick).bind (setup.view i) = some view := by
    have hget : t.server.history.get tick = some ⟨tick, entities⟩ :=
      s.server.history.get_push_self (ne_zero_of_lt htick)
    rw [hget, Option.bind_some, hview]
  have hmax : t.server.history.worldMax = setup.worldMax := ht.recorded.worldMax_eq
  have hviewTick : view.tick = tick := Setup.view_tick hview
  have hbase : (t.deliver setup i (t.server.blobFor setup i)).base i =
      (applySnapshot (s.base i) (t.server.blobFor setup i) setup.worldMax).2 :=
    Function.update_self ..
  have hblob : t.server.blobFor setup i = t.server.history.encodeFor (setup.viewer i) setup.radius
    (s.server.lastReceivedTick i) tick := rfl
  rw [hbase, hblob]
  cases hring : (t.server.history.get (s.server.lastReceivedTick i)).bind (setup.view i) with
  | none =>
    have hkey : t.server.history.encodeFor (setup.viewer i) setup.radius
        (s.server.lastReceivedTick i) tick = encodeKeyframe view setup.worldMax := by
      have hcurr' : (t.server.history.get tick).bind (viewOf (setup.viewer i) setup.radius) =
        some view := hcurr
      have hring' : (t.server.history.get (s.server.lastReceivedTick i)).bind
        (viewOf (setup.viewer i) setup.radius) = none := hring
      simp only [SnapshotHistory.encodeFor, hcurr', hring', hmax]
    rw [hkey, apply_keyframe_received _ _ (ht.view_fits hmem hview), hviewTick]
    exact iff_of_true rfl (Or.inr rfl)
  | some baseView =>
    obtain ⟨w, hw, hbaseView, hwTick, hbaseTick⟩ := ht.ring_view hring
    rw [SnapshotHistory.encodeFor_delta hcurr hring, hmax]
    by_cases hheld : s.server.lastReceivedTick i = (s.base i).tick
    · have hentities := ht.held_baseline hw hbaseView (hheld.symm.trans hwTick.symm)
      rw [apply_delta_received (ht.view_fits hmem hview) (ht.view_fits hw hbaseView)
        (hheld.symm.trans hbaseTick.symm) hentities, hviewTick]
      exact iff_of_true rfl (Or.inl hheld)
    · have hrejected : (applySnapshot (s.base i) (encodeDelta view baseView setup.worldMax)
          setup.worldMax).2 = s.base i := by
        rcases delta_cases (s.base i) view baseView with hrej | ⟨haccepted, -⟩
        · rw [hrej]
        · exact absurd (haccepted.trans hbaseTick).symm hheld
      rw [hrejected]
      refine iff_of_false (fun heq => ?_) fun hcond => hcond.elim hheld (by simp)
      have hold := h.recorded.base_le i
      rw [heq] at hold
      exact absurd htick (not_lt.mpr hold)

/-- From every reachable state one undisturbed round trip gives the client the view of the
new broadcast, exactly if the server's record of the client is not ahead of what the client
holds or the ring no longer has the client's view for it. -/
theorem resyncs_iff (h : (machine setup).ReachableUnder (fun _ e => e.Fits) s)
    (htick : s.server.tick < tick) (hfits : Sim.Fits entities) {view : WorldSnapshot α}
    (hview : setup.view i ⟨tick, entities⟩ = some view) :
    (s.roundTrip setup i tick entities).base i =
        ⟨tick, view.entities.map (received setup.worldMax)⟩ ↔
      s.server.lastReceivedTick i ≤ (s.base i).tick ∨
        ((s.server.push tick entities).history.get (s.server.lastReceivedTick i)).bind
          (setup.view i) = none := by
  have hconverged := (Converged.of_reachable h).stamped i
  have hring : ∀ t, (((s.stamp i).ingest i (s.base i).tick).server.push tick entities).history.get
      t = (s.server.push tick entities).history.get t := by
    intro t
    rw [Server.push, Session.ingest, Server.ingest_history]
    rfl
  have hbefore : ((s.stamp i).ingest i (s.base i).tick).server.tick < tick := by
    rw [Session.ingest, Server.ingest_tick]
    exact htick
  have hanswered : (s.roundTrip setup i tick entities).base i =
        ⟨tick, view.entities.map (received setup.worldMax)⟩ ↔
      max (s.server.lastReceivedTick i) (s.base i).tick = (s.base i).tick ∨
        ((s.server.push tick entities).history.get
          (max (s.server.lastReceivedTick i) (s.base i).tick)).bind (setup.view i) = none := by
    rw [← hring, ← ack_stamped]
    exact hconverged.answered hbefore hfits hview
  rw [hanswered]
  rcases le_or_gt (s.server.lastReceivedTick i) (s.base i).tick with hle | hlt
  · rw [max_eq_right hle]
    exact iff_of_true (Or.inl rfl) (Or.inl hle)
  · rw [max_eq_left hlt.le]
    exact or_congr_left (iff_of_false (ne_of_gt hlt) (not_le.mpr hlt))

theorem resyncs_iff_keyframeThenDelta :
    let s := (machine oneClient).runFrom (Session.init oneClient) keyframeThenDelta
    let view : WorldSnapshot ℚ := ⟨3, filterAoi [⟨1, 50, 50⟩] 50 50 20⟩
    ((s.roundTrip oneClient () 3 [⟨1, 50, 50⟩]).base () =
        ⟨3, view.entities.map (received oneClient.worldMax)⟩ ↔
      s.server.lastReceivedTick () ≤ (s.base ()).tick ∨
        ((s.server.push 3 [⟨1, 50, 50⟩]).history.get (s.server.lastReceivedTick ())).bind
          (oneClient.view ()) = none) ∧
      s.server.lastReceivedTick () = 1 ∧ (s.base ()).tick = 2 := by
  intro s view
  have hrun : (machine oneClient).AdmitsUnder (fun _ e => e.Fits) (Session.init oneClient)
      keyframeThenDelta := by decide +kernel
  have hreach : (machine oneClient).ReachableUnder (fun _ e => e.Fits) s :=
    Machine.ReachableUnder.init.runFrom hrun
  have hview : oneClient.view () ⟨3, [⟨1, 50, 50⟩]⟩ = some view := rfl
  have htick : s.server.tick < 3 := by decide +kernel
  have hfits : Sim.Fits [(⟨1, 50, 50⟩ : EntityState ℚ)] := by decide +kernel
  constructor
  · exact resyncs_iff hreach htick hfits hview
  · decide +kernel

end Netcode.Sync
