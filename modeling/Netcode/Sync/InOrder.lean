import Netcode.Sim.Delta
import Netcode.Sync.Broadcast

/-!
# Deltas over a link that keeps order

On a link that loses, duplicates and reorders nothing, the server still makes its
deltas against the last acknowledgement it has read, while the client has moved
on to whatever reached it since. A delta is accepted if its baseline is the last
snapshot queued before it, and that is the condition under which a run rejects
none.
-/

namespace Netcode.Sync

open Netcode.Library Netcode.Sim

inductive LinkEvent (ι α : Type*)
  | broadcast (tick : UInt32) (entities : List (EntityState α))
  | deliver (i : ι)
  | stamp (i : ι)
  | ingest (i : ι)

variable {ι α : Type*} [Scalar α]

/-- Blobs and inputs arrive once each and in the order in which they were queued. -/
def link [DecidableEq ι] (setup : Setup ι α) : Machine (Session ι α) (LinkEvent ι α) where
  init := Session.init setup
  Enabled s e := match e with
    | .broadcast tick _ => s.server.tick < tick
    | .deliver i => s.blobs i ≠ []
    | .stamp _ => True
    | .ingest i => s.inputs i ≠ []
  next s e := match e with
    | .broadcast tick entities => s.broadcast setup tick entities
    | .deliver i => match s.blobs i with
      | [] => s
      | blob :: rest => { s.deliver setup i blob with blobs := Function.update s.blobs i rest }
    | .stamp i => s.stamp i
    | .ingest i => match s.inputs i with
      | [] => s
      | ack :: rest => { s.ingest i ack with inputs := Function.update s.inputs i rest }

instance [DecidableEq ι] (setup : Setup ι α) (s : Session ι α) (e : LinkEvent ι α) :
    Decidable ((link setup).Enabled s e) :=
  match e with
  | .broadcast tick _ => inferInstanceAs (Decidable (s.server.tick < tick))
  | .deliver i => inferInstanceAs (Decidable (s.blobs i ≠ []))
  | .stamp _ => isTrue trivial
  | .ingest i => inferInstanceAs (Decidable (s.inputs i ≠ []))

def lastQueued (s : Session ι α) (i : ι) : UInt32 := (s.queued i).getLastD 0

/-- The server still has the view that the client acknowledged. -/
def HasBaseline (setup : Setup ι α) (i : ι) (server : Server ι α) : Prop :=
  ((server.history.get (server.lastReceivedTick i)).bind (setup.view i)).isSome

/-- A broadcast in which the client takes part has no more entities in its view than
a count can say and, if the acknowledged view is still there, nothing newer than that
has been queued. -/
def Paced (setup : Setup ι α) (i : ι) (s : Session ι α) : LinkEvent ι α → Prop
  | .broadcast tick entities => ∀ view ∈ setup.view i ⟨tick, entities⟩,
    view.entities.length < 2 ^ 16 ∧ (HasBaseline setup i (s.server.push tick entities) →
      s.server.lastReceivedTick i = lastQueued s i)
  | _ => True

instance (setup : Setup ι α) (i : ι) (server : Server ι α) :
    Decidable (HasBaseline setup i server) :=
  inferInstanceAs (Decidable (Option.isSome _ = true))

instance (setup : Setup ι α) (i : ι) (s : Session ι α) (e : LinkEvent ι α) :
    Decidable (Paced setup i s e) :=
  match e with
  | .broadcast _ _ => inferInstanceAs (Decidable (∀ view ∈ setup.view i _, _ ∧ (_ → _)))
  | .deliver _ => isTrue trivial
  | .stamp _ => isTrue trivial
  | .ingest _ => isTrue trivial

variable {setup : Setup ι α} {s : Session ι α} {i : ι}

/-- Every client at tick `t` accepts the blob, which takes it to tick `u`. -/
structure Follows (max : α) (t : UInt32) (blob : Bytes) (u : UInt32) : Prop where
  accepted : ∀ base : WorldSnapshot α, base.tick = t →
    ∃ es, applySnapshot base blob max = (true, ⟨u, es⟩)
  baseline : ∀ b, deltaBaseline blob = some b → b = t

def Chain (max : α) : UInt32 → List Bytes → UInt32 → Prop
  | t, [], u => t = u
  | t, blob :: rest, u => ∃ v, Follows max t blob v ∧ Chain max v rest u

theorem Chain.append {max : α} {t u v : UInt32} {blobs : List Bytes} {blob : Bytes}
    (h : Chain max t blobs u) (hlast : Follows max u blob v) :
    Chain max t (blobs ++ [blob]) v := by
  induction blobs generalizing t with
  | nil =>
    have htu : t = u := h
    exact ⟨v, htu ▸ hlast, rfl⟩
  | cons b blobs ih =>
    obtain ⟨w, hfirst, hrest⟩ := h
    exact ⟨w, hfirst, ih hrest⟩

theorem follows_keyframe (max : α) (t : UInt32) (snap : WorldSnapshot α) :
    Follows max t (encodeKeyframe snap max) snap.tick where
  accepted := fun base _ => ⟨_, keyframe_accepted base snap⟩
  baseline := fun b hb => by simp [deltaBaseline_encodeKeyframe] at hb

theorem follows_delta (max : α) {curr baseline : WorldSnapshot α}
    (hcurr : curr.entities.length < 2 ^ 16) (hbaseline : baseline.entities.length < 2 ^ 16) :
    Follows max baseline.tick (encodeDelta curr baseline max) curr.tick where
  accepted := fun base hbase => by
    rw [apply_encodeDelta base curr baseline hcurr hbaseline, if_pos hbase]
    exact ⟨_, rfl⟩
  baseline := fun b hb => by
    rw [deltaBaseline_encodeDelta] at hb
    exact (Option.some.inj hb).symm

structure InStep (setup : Setup ι α) (i : ι) (s : Session ι α) : Prop where
  worldMax_eq : s.server.history.worldMax = setup.worldMax
  short : ∀ t snap, s.server.history.get t = some snap →
    ∀ view ∈ setup.view i snap, view.entities.length < 2 ^ 16
  chain : Chain setup.worldMax (s.base i).tick (s.blobs i) (lastQueued s i)

namespace InStep

theorem init (setup : Setup ι α) (i : ι) : InStep setup i (Session.init setup) where
  worldMax_eq := rfl
  short := fun t snap hget => by simp [Session.init, SnapshotHistory.get_init] at hget
  chain := rfl

theorem short_push (h : InStep setup i s) {tick t : UInt32} {entities : List (EntityState α)}
    (hpaced : Paced setup i s (.broadcast tick entities)) {snap : WorldSnapshot α}
    (hget : (s.server.push tick entities).history.get t = some snap) :
    ∀ view ∈ setup.view i snap, view.entities.length < 2 ^ 16 := by
  rcases SnapshotHistory.get_push hget with hnew | hold
  · rw [hnew]
    exact fun view hview => (hpaced view hview).1
  · exact h.short t snap hold

theorem follows_blobFor (h : InStep setup i s) {tick : UInt32} {entities : List (EntityState α)}
    (htick : tick ≠ 0) (hpaced : Paced setup i s (.broadcast tick entities))
    (hne : (s.server.push tick entities).blobFor setup i ≠ []) :
    Follows setup.worldMax (lastQueued s i) ((s.server.push tick entities).blobFor setup i)
      tick := by
  have hmax : (s.server.push tick entities).history.worldMax = setup.worldMax := h.worldMax_eq
  have hpushed : (s.server.push tick entities).history.get tick = some ⟨tick, entities⟩ :=
    SnapshotHistory.get_push_self s.server.history htick
  rcases (s.server.push tick entities).history.encodeFor_cases (setup.viewer i) setup.radius
    (s.server.lastReceivedTick i) tick with hempty | ⟨curr, view, hget, hcurr, hblob⟩
  · exact absurd hempty hne
  · rw [hpushed] at hget
    rw [← Option.some.inj hget] at hcurr
    have hviewTick : view.tick = tick := viewOf_tick hcurr
    rw [hmax] at hblob
    rcases hblob with hkey | ⟨base, baseView, hgetBase, hbase, hdelta⟩
    · have hfollows := follows_keyframe setup.worldMax (lastQueued s i) view
      rw [hviewTick, ← hkey] at hfollows
      exact hfollows
    · have hbaseTick : baseView.tick = s.server.lastReceivedTick i :=
        (viewOf_tick hbase).trans (SnapshotHistory.get_eq_some.mp hgetBase).2.1
      have hhas : HasBaseline setup i (s.server.push tick entities) :=
        Option.isSome_iff_exists.mpr
          ⟨baseView, Option.bind_eq_some_iff.mpr ⟨base, hgetBase, hbase⟩⟩
      have hfollows := follows_delta setup.worldMax (hpaced view hcurr).1
        (h.short_push hpaced hgetBase baseView hbase)
      rw [hviewTick, hbaseTick, (hpaced view hcurr).2 hhas, ← hdelta] at hfollows
      exact hfollows

theorem broadcast (h : InStep setup i s) {tick : UInt32} {entities : List (EntityState α)}
    (htick : s.server.tick < tick) (hpaced : Paced setup i s (.broadcast tick entities)) :
    InStep setup i (s.broadcast setup tick entities) where
  worldMax_eq := h.worldMax_eq
  short := fun _ _ hget => h.short_push hpaced hget
  chain := by
    simp only [Session.broadcast, lastQueued]
    split_ifs with hempty
    · rw [List.append_nil, List.append_nil]
      exact h.chain
    · rw [List.getLastD_concat]
      exact h.chain.append (h.follows_blobFor (ne_zero_of_lt htick) hpaced hempty)

variable [DecidableEq ι]

theorem deliver (h : InStep setup i s) (j : ι) :
    InStep setup i ((link setup).next s (.deliver j)) := by
  simp only [link]
  split
  · exact h
  · rename_i blob rest hblobs
    refine ⟨h.worldMax_eq, h.short, ?_⟩
    simp only [Session.deliver, lastQueued]
    by_cases hj : i = j
    · subst hj
      have hchain := h.chain
      rw [hblobs] at hchain
      obtain ⟨v, hfollows, hrest⟩ := hchain
      obtain ⟨es, hes⟩ := hfollows.accepted (s.base i) rfl
      rw [Function.update_self, Function.update_self, hes]
      exact hrest
    · rw [Function.update_of_ne hj, Function.update_of_ne hj]
      exact h.chain

theorem ingest (h : InStep setup i s) (j : ι) :
    InStep setup i ((link setup).next s (.ingest j)) := by
  simp only [link]
  split
  · exact h
  · refine ⟨?_, ?_, h.chain⟩
    · simp only [Session.ingest, Server.ingest_history]
      exact h.worldMax_eq
    · simp only [Session.ingest, Server.ingest_history]
      exact h.short

theorem next (h : InStep setup i s) {e : LinkEvent ι α} (hpaced : Paced setup i s e)
    (he : (link setup).Enabled s e) : InStep setup i ((link setup).next s e) := by
  cases e with
  | broadcast tick entities => exact h.broadcast he hpaced
  | deliver j => exact h.deliver j
  | stamp j => exact ⟨h.worldMax_eq, h.short, h.chain⟩
  | ingest j => exact h.ingest j

theorem of_reachable (h : (link setup).ReachableUnder (Paced setup i) s) : InStep setup i s :=
  h.invariant (init setup i) fun _ _ hs hpaced he => hs.next hpaced he

end InStep

theorem delta_accepted [DecidableEq ι] (h : (link setup).ReachableUnder (Paced setup i) s)
    {blob : Bytes} {rest : List Bytes} (hblobs : s.blobs i = blob :: rest) {tick : UInt32}
    (hdelta : deltaBaseline blob = some tick) :
    (s.base i).tick = tick ∧ (applySnapshot (s.base i) blob setup.worldMax).1 = true := by
  have hchain := (InStep.of_reachable h).chain
  rw [hblobs] at hchain
  obtain ⟨v, hfollows, -⟩ := hchain
  obtain ⟨es, hes⟩ := hfollows.accepted (s.base i) rfl
  exact ⟨(hfollows.baseline tick hdelta).symm, congrArg Prod.fst hes⟩

def onePerRoundTrip : List (LinkEvent Unit ℚ) :=
  [.broadcast 1 [⟨1, 50, 50⟩], .deliver (), .stamp (), .ingest (), .broadcast 2 [⟨1, 51, 50⟩]]

theorem delta_accepted_onePerRoundTrip :
    let s := (link oneClient).runFrom (Session.init oneClient) onePerRoundTrip
    (s.base ()).tick = 1 ∧ (applySnapshot (s.base ())
      [1, 0, 0, 0, 2, 0, 0, 0, 1, 0, 1, 0, 1, 130, 136, 0, 0, 0] oneClient.worldMax).1 = true := by
  have hrun : (link oneClient).AdmitsUnder (Paced oneClient ()) (Session.init oneClient)
      onePerRoundTrip := by decide +kernel
  have hreach := Machine.ReachableUnder.init.runFrom hrun
  have hblobs : ((link oneClient).runFrom (Session.init oneClient) onePerRoundTrip).blobs () =
      [[1, 0, 0, 0, 2, 0, 0, 0, 1, 0, 1, 0, 1, 130, 136, 0, 0, 0]] := by decide +kernel
  exact delta_accepted hreach hblobs (by decide +kernel)

def twoPerPacket : List (LinkEvent Unit ℚ) :=
  [.broadcast 1 [⟨1, 50, 50⟩], .broadcast 2 [⟨1, 51, 50⟩], .deliver (), .deliver (), .stamp (),
    .ingest (), .broadcast 3 [⟨1, 52, 50⟩], .broadcast 4 [⟨1, 53, 50⟩], .deliver ()]

theorem second_delta_rejected : ¬ ∀ s, (link oneClient).Reachable s → ∀ blob rest,
    s.blobs () = blob :: rest → ∀ tick, deltaBaseline blob = some tick →
    (s.base ()).tick = tick ∧ (applySnapshot (s.base ()) blob oneClient.worldMax).1 = true := by
  intro hclaim
  have hrun : (link oneClient).Admits (Session.init oneClient) twoPerPacket := by decide +kernel
  have hblobs : ((link oneClient).runFrom (Session.init oneClient) twoPerPacket).blobs () =
      [[1, 0, 0, 0, 4, 0, 0, 0, 2, 0, 1, 0, 1, 135, 168, 0, 0, 0]] := by decide +kernel
  obtain ⟨htick, -⟩ := hclaim _ (Machine.Reachable.init.runFrom hrun) _ _ hblobs 2
    (by decide +kernel)
  exact absurd htick (by decide +kernel)

variable [DecidableEq ι]

theorem deliver_chain {s : Session ι α} {blobs rest : List Bytes} {u : UInt32}
    (hblobs : s.blobs i = blobs ++ rest)
    (hchain : Chain setup.worldMax (s.base i).tick blobs u) :
    let t := (link setup).runFrom s (List.replicate blobs.length (.deliver i))
    t.blobs i = rest ∧ (t.base i).tick = u := by
  induction blobs generalizing s with
  | nil => exact ⟨hblobs, hchain⟩
  | cons blob blobs ih =>
    obtain ⟨v, hfollows, hrest⟩ := hchain
    obtain ⟨es, hes⟩ := hfollows.accepted (s.base i) rfl
    have hnext : (link setup).next s (.deliver i) = { s.deliver setup i blob with
        blobs := Function.update s.blobs i (blobs ++ rest) } := by
      simp only [link, hblobs, List.cons_append]
    simp only [List.length_cons, List.replicate_succ, Machine.runFrom, List.foldl_cons]
    apply ih
    · rw [hnext]
      exact Function.update_self ..
    · rw [hnext]
      simp only [Session.deliver, Function.update_self, hes]
      exact hrest

/-- The first broadcast that is not paced because something newer than the acknowledged
view is already queued adds a delta that the client rejects when its turn comes. -/
theorem unpaced_rejected (h : (link setup).ReachableUnder (Paced setup i) s) {tick : UInt32}
    {entities : List (EntityState α)} {view : WorldSnapshot α}
    (htick : s.server.tick < tick) (hview : setup.view i ⟨tick, entities⟩ = some view)
    (hbaseline : HasBaseline setup i (s.server.push tick entities))
    (hnewer : s.server.lastReceivedTick i ≠ lastQueued s i) :
    let t := (link setup).runFrom (s.broadcast setup tick entities)
      (List.replicate (s.blobs i).length (.deliver i))
    ∃ blob, t.blobs i = [blob] ∧ deltaBaseline blob = some (s.server.lastReceivedTick i) ∧
      applySnapshot (t.base i) blob setup.worldMax = (false, t.base i) := by
  have hstep := InStep.of_reachable h
  obtain ⟨baseView, hbase⟩ := Option.isSome_iff_exists.mp hbaseline
  obtain ⟨base, hgetBase, hviewBase⟩ := Option.bind_eq_some_iff.mp hbase
  have hbaseTick : baseView.tick = s.server.lastReceivedTick i :=
    (viewOf_tick hviewBase).trans (SnapshotHistory.get_eq_some.mp hgetBase).2.1
  have hcurr : ((s.server.push tick entities).history.get tick).bind (setup.view i) =
      some view :=
    Option.bind_eq_some_iff.mpr
      ⟨_, SnapshotHistory.get_push_self s.server.history (ne_zero_of_lt htick), hview⟩
  have hmax : (s.server.push tick entities).history.worldMax = setup.worldMax :=
    hstep.worldMax_eq
  have hblob : (s.server.push tick entities).blobFor setup i =
      encodeDelta view baseView setup.worldMax :=
    (SnapshotHistory.encodeFor_delta hcurr hbase).trans (by rw [hmax])
  have hqueue : (s.broadcast setup tick entities).blobs i =
      s.blobs i ++ [encodeDelta view baseView setup.worldMax] := by
    simp only [Session.broadcast, hblob]
    rw [if_neg (by simp [encodeDelta])]
  obtain ⟨hblobs, hheld⟩ := deliver_chain (s := s.broadcast setup tick entities) hqueue hstep.chain
  refine ⟨_, hblobs, hbaseTick ▸ deltaBaseline_encodeDelta view baseView _, ?_⟩
  rcases delta_cases (((link setup).runFrom (s.broadcast setup tick entities)
    (List.replicate (s.blobs i).length (.deliver i))).base i) view baseView with hrej | ⟨hacc, -⟩
  · exact hrej
  · exact absurd (hbaseTick.symm.trans (hacc.symm.trans hheld)) hnewer

end Netcode.Sync
