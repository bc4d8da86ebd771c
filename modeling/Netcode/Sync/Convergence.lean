import Netcode.Sync.Invariant

/-!
# Every client holds a true view of some tick

Whatever the network does with the blobs and the inputs, what a client holds is
exactly the view of one broadcast: a delta can only be accepted by a client that
holds the view the server made it against, because the ring returns for a tick
what was broadcast for that tick and nothing else.
-/

namespace Netcode.Sync

open Netcode.Library Netcode.Sim

/-- A broadcast world keeps to the fields of the wire. -/
def Event.Fits {ι α : Type*} : Event ι α → Prop
  | .broadcast _ entities => Sim.Fits entities
  | _ => True

instance {ι α : Type*} (e : Event ι α) : Decidable e.Fits :=
  match e with
  | .broadcast _ entities => inferInstanceAs (Decidable (Sim.Fits entities))
  | .deliver _ _ => isTrue trivial
  | .stamp _ => isTrue trivial
  | .ingest _ _ => isTrue trivial

variable {ι α : Type*} [Scalar α] {setup : Setup ι α} {s : Session ι α} {i : ι}

/-- What a client holds of the snapshots in `worlds`. -/
def Holds (setup : Setup ι α) (i : ι) (worlds : List (WorldSnapshot α))
    (base : WorldSnapshot α) : Prop :=
  base = {} ∨ ∃ w ∈ worlds, ∃ view, setup.view i w = some view ∧
    base = ⟨w.tick, view.entities.map (received setup.worldMax)⟩

structure Converged (setup : Setup ι α) (s : Session ι α) : Prop where
  recorded : Recorded setup s
  fits : ∀ w ∈ s.worlds, Sim.Fits w.entities
  held : ∀ i, Holds setup i s.worlds (s.base i)

theorem Holds.mono {worlds more : List (WorldSnapshot α)} {base : WorldSnapshot α}
    (h : Holds setup i worlds base) (hsub : worlds ⊆ more) : Holds setup i more base :=
  h.imp_right fun hw => ⟨hw.choose, hsub hw.choose_spec.1, hw.choose_spec.2⟩

namespace Converged

theorem init (setup : Setup ι α) : Converged setup (Session.init setup) where
  recorded := Recorded.init setup
  fits := fun w hw => by simp [Session.init] at hw
  held := fun i => Or.inl rfl

theorem view_fits (h : Converged setup s) {w view : WorldSnapshot α} (hw : w ∈ s.worlds)
    (hview : setup.view i w = some view) : Sim.Fits view.entities :=
  (h.fits w hw).sublist (viewOf_sublist hview)

theorem held_baseline (h : Converged setup s) {b view : WorldSnapshot α} (hb : b ∈ s.worlds)
    (hview : setup.view i b = some view) (htick : (s.base i).tick = b.tick) :
    (s.base i).entities = view.entities.map (received setup.worldMax) := by
  rcases h.held i with hinit | ⟨w, hw, held, hheld, hbase⟩
  · rw [hinit] at htick
    exact absurd htick.symm (h.recorded.tick_ne b hb)
  · rw [hbase] at htick ⊢
    have hwb := h.recorded.unique w hw b hb htick
    rw [hwb, hview] at hheld
    rw [Option.some.inj hheld]

variable [LawfulLevels α]

theorem holds_apply (h : Converged setup s) {blob : Bytes} (hblob : blob ∈ s.blobs i) :
    Holds setup i s.worlds (applySnapshot (s.base i) blob setup.worldMax).2 := by
  obtain ⟨w, hw, view, hview, hkind⟩ := h.recorded.sent i blob hblob
  have hfits := h.view_fits hw hview
  have htick := Setup.view_tick hview
  rcases hkind with hkey | ⟨b, hb, baseView, hbase, -, hdelta⟩
  · rw [hkey, apply_keyframe_received (s.base i) view hfits, htick]
    exact Or.inr ⟨w, hw, view, hview, rfl⟩
  · rw [hdelta]
    have hbaseTick := Setup.view_tick hbase
    by_cases hheld : (s.base i).tick = b.tick
    · have hentities := h.held_baseline hb hbase hheld
      rw [apply_delta_received hfits (h.view_fits hb hbase) (hheld.trans hbaseTick.symm)
        hentities, htick]
      exact Or.inr ⟨w, hw, view, hview, rfl⟩
    · rcases delta_cases (s.base i) view baseView with hrej | ⟨hacc, -⟩
      · rw [hrej]
        exact h.held i
      · exact absurd (hacc.trans hbaseTick) hheld

variable [DecidableEq ι]

theorem next (h : Converged setup s) {e : Event ι α} (hfits : e.Fits)
    (he : (machine setup).Enabled s e) : Converged setup ((machine setup).next s e) := by
  have hrecorded := h.recorded.next he
  cases e with
  | broadcast tick entities =>
    refine ⟨hrecorded, List.forall_mem_append.mpr ⟨h.fits, List.forall_mem_singleton.mpr hfits⟩,
      fun j => (h.held j).mono (List.subset_append_left ..)⟩
  | deliver j blob =>
    exact ⟨hrecorded, h.fits, (Function.forall_update_iff s.base fun k base =>
      Holds setup k s.worlds base).mpr ⟨h.holds_apply he, fun k _ => h.held k⟩⟩
  | stamp j => exact ⟨hrecorded, h.fits, h.held⟩
  | ingest j ack => exact ⟨hrecorded, h.fits, h.held⟩

theorem of_reachable (h : (machine setup).ReachableUnder (fun _ e => e.Fits) s) :
    Converged setup s :=
  h.invariant (init setup) fun _ _ hs hfits he => hs.next hfits he

end Converged

/-- Whatever is lost, duplicated, delayed or reordered, a client that is not in its
initial state holds the tick of a broadcast and, as received, exactly the entities
that its viewer saw of that broadcast's world. -/
theorem converges [LawfulLevels α] [DecidableEq ι]
    (h : (machine setup).ReachableUnder (fun _ e => e.Fits) s) (i : ι) :
    s.base i = {} ∨ ∃ w ∈ s.worlds, (∀ v ∈ s.worlds, v.tick = w.tick → v = w) ∧
      ∃ center ∈ w.entities, center.id = setup.viewer i ∧ (s.base i).tick = w.tick ∧
        (s.base i).entities = (filterAoi w.entities center.x center.y setup.radius).map
          (received setup.worldMax) := by
  have hs := Converged.of_reachable h
  apply (hs.held i).imp_right
  intro hheld
  obtain ⟨w, hw, view, hview, hbase⟩ := hheld
  obtain ⟨center, hcenter, hentities⟩ := Option.map_eq_some_iff.mp hview
  have hid : center.id = setup.viewer i := by simpa using List.find?_some hcenter
  refine ⟨w, hw, fun v hv heq => hs.recorded.unique v hv w hw heq, center,
    List.mem_of_find?_eq_some hcenter, hid, ?_, ?_⟩
  · rw [hbase]
  · rw [hbase, ← hentities]

def keyframeThenDelta : List (Event Unit ℚ) :=
  [.broadcast 1 [⟨1, 50, 50⟩, ⟨2, 60, 50⟩],
    .deliver () [0, 0, 0, 0, 1, 0, 2, 0, 1, 128, 8, 0, 0, 2, 153, 152, 0],
    .stamp (), .ingest () 1, .broadcast 2 [⟨1, 50, 50⟩, ⟨2, 61, 50⟩, ⟨3, 99, 99⟩],
    .deliver () [1, 0, 0, 0, 2, 0, 0, 0, 1, 0, 1, 0, 2, 156, 40, 0, 0, 0],
    .deliver () [1, 0, 0, 0, 2, 0, 0, 0, 1, 0, 1, 0, 2, 156, 40, 0, 0, 0]]

theorem converges_keyframeThenDelta :
    let s := (machine oneClient).runFrom (Session.init oneClient) keyframeThenDelta
    (s.base ()).tick = 2 ∧ (s.base () = {} ∨ ∃ w ∈ s.worlds,
      (∀ v ∈ s.worlds, v.tick = w.tick → v = w) ∧ ∃ center ∈ w.entities,
        center.id = oneClient.viewer () ∧ (s.base ()).tick = w.tick ∧
          (s.base ()).entities = (filterAoi w.entities center.x center.y oneClient.radius).map
            (received oneClient.worldMax)) := by
  have hrun : (machine oneClient).AdmitsUnder (fun _ e => e.Fits) (Session.init oneClient)
      keyframeThenDelta := by decide +kernel
  exact ⟨by decide +kernel, converges (Machine.ReachableUnder.init.runFrom hrun) ()⟩

end Netcode.Sync
