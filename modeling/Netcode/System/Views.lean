import Netcode.Sim.Area
import Netcode.System.Mirror

/-!
# Every bot holds a true view

The swarm is simulated by the session of broadcasts, acknowledgements and views:
what comes out of the two peers at either end was put in at the other, whatever
the network does to the datagrams and whoever else sends to the server, and what
was put in is what the session has queued and stamped.
-/

namespace Netcode.System

open Netcode.Library Netcode.Sim Netcode.Transport Netcode.Server Netcode.Bots
open Netcode.Sync (Session)

variable {δ ρ σ : Type*} [Scalar δ] {D : Deployment ρ σ}

def Swarm.view (s : Swarm δ ρ σ) (e : Endpoint) : BotView :=
  ⟨(s.bot e).baseline, s.inputs e, s.blobs e⟩

variable {s : Swarm δ ρ σ} {t : Mirrored}

structure Reflects (D : Deployment ρ σ) (s : Swarm δ ρ σ) (t : Mirrored) : Prop where
  seated : s.server.Seated
  linked : ∀ e ∈ D.bots, ∃ l, Linked D s e l
  mirrors : Mirrors D.bots s.view s.server t
  worlds : t.worlds = s.worlds

namespace Reflects

theorem start (D : Deployment ρ σ) : Reflects D (Swarm.start D : Swarm δ ρ σ)
    (Session.init D.setup) where
  seated := ServerLoop.Seated.start D.worldBound D.worldSeed D.startUs
  linked := fun e _ => Linked.start D e
  mirrors := ⟨rfl, le_rfl, fun e _ cs hcs => absurd hcs (by simp [Swarm.start, ServerLoop.start]),
    fun e _ _ => ⟨rfl, fun payload hpayload => absurd hpayload List.not_mem_nil, rfl⟩,
    fun id _ => ⟨rfl, rfl⟩⟩
  worlds := rfl

variable [Fmod δ]

theorem linked_next (h : Reflects D s t) {ev : Event} (hwithin : s.Within D ev) :
    ∀ e ∈ D.bots, ∃ l, Linked D ((Swarm.machine D).next s ev) e l := by
  intro e he
  obtain ⟨l, hl⟩ := h.linked e he
  obtain ⟨l', hl', -⟩ := hl.step he h.seated hwithin
  exact ⟨l', hl'⟩

theorem serve (h : Reflects D s t) {now : Micros} {datagrams : List (Endpoint × Arrival)}
    (hwithin : s.Within D (.serve now datagrams)) :
    ∃ fs, (Sync.machine D.setup).AdmitsUnder (fun _ e => e.Fits) t fs ∧
      Reflects D (s.serve D now datagrams) ((Sync.machine D.setup).runFrom t fs) := by
  have hlinked := h.linked_next hwithin
  obtain ⟨hdatagrams, hsmall, hticks, -⟩ := hwithin
  have hroom : (s.server.received D.uniform now datagrams).Roomy := by
    rw [ServerLoop.Roomy]
    omega
  have hreceived := h.seated.received hroom
  have hpolled : Mirrors D.bots s.view
      { s.server with mgr := (s.server.mgr.poll now datagrams).2 } t :=
    ⟨h.mirrors.history, h.mirrors.tick, h.mirrors.known, h.mirrors.unknown, h.mirrors.fresh⟩
  obtain ⟨fs, hfs, hmirrors, hworlds⟩ := hpolled.ingests D.setup h.seated.players
    (h.seated.reported now datagrams) hroom fun i hi hbot => by
      obtain ⟨l, hl⟩ := h.linked i.source hbot
      exact hl.reported hbot h.seated hdatagrams hroom i hi rfl
  obtain ⟨gs, hgs, hserved, hrecorded⟩ := hmirrors.served hreceived hsmall hticks
  refine ⟨fs ++ gs, Machine.admitsUnder_append.mpr ⟨hfs, hgs⟩, ?_, hlinked, ?_, ?_⟩
  · exact (hreceived.served now).updated now
  · rw [Machine.runFrom_append]
    exact ⟨hserved.history, hserved.tick, hserved.known, hserved.unknown, hserved.fresh⟩
  · rw [Machine.runFrom_append, hrecorded, hworlds, h.worlds]
    rfl

omit [Fmod δ] in
theorem tick_view (s : Swarm δ ρ σ) (e : Endpoint) :
    (s.tick D e).view = Function.update s.view e { s.view e with
      inputs := s.inputs e ++ [(s.bot e).stamped D.bits ((s.bot e).driver.tick D.noise).1] } := by
  funext f
  by_cases hf : f = e
  · subst hf
    simp only [Swarm.view, Swarm.tick, Function.update_self]
    rfl
  · simp only [Swarm.view, Swarm.tick, Function.update_of_ne hf]

theorem tick (h : Reflects D s t) (e : Endpoint) :
    ∃ fs, (Sync.machine D.setup).AdmitsUnder (fun _ e => e.Fits) t fs ∧
      Reflects D (s.tick D e) ((Sync.machine D.setup).runFrom t fs) := by
  have hwithin : s.Within D (.tick e) := ⟨trivial, trivial⟩
  have hlinked := h.linked_next hwithin
  have hstamped : (s.bot e).stamped D.bits ((s.bot e).driver.tick D.noise).1 =
      encodeInput ⟨_, _, (s.bot e).baseline.tick⟩ := rfl
  cases hlook : s.server.clients.lookup e with
  | none =>
    refine ⟨[], trivial, h.seated, hlinked, ?_, h.worlds⟩
    rw [tick_view]
    refine h.mirrors.update h.seated.players rfl (fun _ _ => rfl) (fun _ => List.Subset.refl _) rfl
      (fun _ cs hcs => absurd (hlook.symm.trans hcs) (by simp)) fun he _ => ?_
    have hunknown := h.mirrors.unknown e he hlook
    have hbaseline : (s.bot e).baseline = {} := hunknown.base
    refine ⟨hunknown.base, List.forall_mem_append.mpr ⟨hunknown.inputs,
      List.forall_mem_singleton.mpr ⟨_, hstamped, ?_⟩⟩, hunknown.blobs⟩
    rw [hbaseline]
    exact List.mem_singleton_self _
  | some cs =>
    refine ⟨[.stamp cs.entity], ⟨trivial, trivial, trivial⟩, h.seated, hlinked, ?_, h.worlds⟩
    change Mirrors D.bots (s.tick D e).view s.server (t.stamp cs.entity)
    rw [tick_view]
    refine h.mirrors.update h.seated.players rfl (fun _ _ => rfl)
      (fun id => Mirrors.inputs_subset_stamp t cs.entity id) rfl (fun he ct hct => ?_)
      fun _ hnone => absurd (hlook.symm.trans hnone) (by simp)
    obtain rfl := Option.some.inj (hlook.symm.trans hct)
    have hknown := h.mirrors.known e he cs hlook
    have hbaseline : t.base cs.entity = (s.bot e).baseline := hknown.base
    refine ⟨hknown.ack, hknown.base, List.forall_mem_append.mpr
      ⟨hknown.inputs.mono (Mirrors.inputs_subset_stamp ..),
        List.forall_mem_singleton.mpr ⟨_, hstamped, ?_⟩⟩, hknown.blobs⟩
    simp only [Session.stamp, Function.update_self, hbaseline]
    exact List.mem_append_right _ (List.mem_singleton_self _)

omit [Fmod δ] in
theorem pump_view (s : Swarm δ ρ σ) (e : Endpoint) (now : Micros) (arrivals : List Arrival) :
    (s.pump D e now arrivals).view = Function.update s.view e { s.view e with
      baseline := ((s.bot e).pump D.worldBound now arrivals).2.baseline } := by
  funext f
  by_cases hf : f = e
  · subst hf
    simp only [Swarm.view, Swarm.pump, Function.update_self]
  · simp only [Swarm.view, Swarm.pump, Function.update_of_ne hf]

theorem pump (h : Reflects D s t) {e : Endpoint} (he : e ∈ D.bots) {now : Micros}
    {arrivals : List Arrival} (hwithin : s.Within D (.pump e now arrivals)) :
    ∃ fs, (Sync.machine D.setup).AdmitsUnder (fun _ e => e.Fits) t fs ∧
      Reflects D (s.pump D e now arrivals) ((Sync.machine D.setup).runFrom t fs) := by
  have hlinked := h.linked_next hwithin
  obtain ⟨l, hl⟩ := h.linked e he
  have hpumped := hl.pumped now hwithin.1
  cases hlook : s.server.clients.lookup e with
  | none =>
    have hunknown := h.mirrors.unknown e he hlook
    have hnothing : (((s.bot e).peer.update now).2.poll now arrivals).1.unreliable = [] := by
      refine List.eq_nil_iff_forall_not_mem.mpr fun m hm => ?_
      have hblobs : s.blobs e = [] := hunknown.blobs
      exact absurd (hpumped m hm) (hblobs ▸ List.not_mem_nil)
    refine ⟨[], trivial, h.seated, hlinked, ?_, h.worlds⟩
    rw [pump_view]
    refine h.mirrors.update h.seated.players rfl (fun _ _ => rfl) (fun _ => List.Subset.refl _) rfl
      (fun _ cs hcs => absurd (hlook.symm.trans hcs) (by simp)) fun _ _ =>
        ⟨?_, hunknown.inputs, hunknown.blobs⟩
    simp only [Bot.pump, hnothing]
    exact hunknown.base
  | some cs =>
    have hknown := h.mirrors.known e he cs hlook
    obtain ⟨fs, t', hfs, hrun, hserver, hinputs, hblobs, hworlds, hbase⟩ :=
      Mirrors.deliver_messages D.setup ((s.bot e).baseline, (s.bot e).snapshotsRecv)
        (((s.bot e).peer.update now).2.poll now arrivals).1.unreliable hknown.base
        fun m hm => hknown.blobs m.payload (hpumped m hm)
    refine ⟨fs, hfs, ?_⟩
    rw [hrun]
    refine ⟨h.seated, hlinked, ?_, hworlds.trans h.worlds⟩
    rw [pump_view]
    refine h.mirrors.update h.seated.players hserver (fun id hid => ?_) (fun id => ?_) hblobs
      (fun _ ct hct => ?_) fun _ hnone => absurd (hlook.symm.trans hnone) (by simp)
    · rw [hbase, Function.update_of_ne (hid cs hlook)]
    · rw [hinputs]
      exact List.Subset.refl _
    · obtain rfl := Option.some.inj (hlook.symm.trans hct)
      refine ⟨?_, ?_, ?_, ?_⟩
      · rw [hserver]
        exact hknown.ack
      · rw [hbase, Function.update_self]
        rfl
      · rw [hinputs]
        exact hknown.inputs
      · rw [hblobs]
        exact hknown.blobs

/-- The server and its bots do what the session does, each bot as the client that its entity is. -/
theorem refines (D : Deployment ρ σ) : Machine.Simulation (Swarm.machine (δ := δ) D)
    (Swarm.Within D) (Sync.machine D.setup) (fun _ e => e.Fits) (Reflects D) where
  init := start D
  step := by
    intro s t ev h hwithin hev
    cases ev with
    | serve now datagrams => exact h.serve hwithin
    | tick e => exact h.tick e
    | pump e now arrivals => exact h.pump hev hwithin

theorem of_reachable (h : (Swarm.machine D).ReachableUnder (Swarm.Within D) s) :
    ∃ t, Sync.Converged D.setup t ∧ Reflects D s t := by
  obtain ⟨t, ht, hreflects⟩ := (refines D).reachable h
  exact ⟨t, Sync.Converged.of_reachable ht, hreflects⟩

end Reflects

namespace Swarm

variable [Fmod δ] {e : Endpoint}

/-- What the bot holds is the view that `center` has of the broadcast world `w`. -/
structure TrueView (D : Deployment ρ σ) (s : Swarm δ ρ σ) (e : Endpoint) (cs : ClientState)
    (w : WorldSnapshot Extended) (center : EntityState Extended) : Prop where
  client : s.server.clients.lookup e = some cs
  world : w ∈ s.worlds
  unique : ∀ v ∈ s.worlds, v.tick = w.tick → v = w
  center_mem : center ∈ w.entities
  center_id : center.id = cs.entity
  tick : (s.bot e).baseline.tick = w.tick
  entities : (s.bot e).baseline.entities =
    (filterAoi w.entities center.x center.y kAoiRadius).map (received D.worldBound)

theorem trueView (h : (machine D).ReachableUnder (Within D) s) (he : e ∈ D.bots) :
    (s.bot e).baseline = {} ∨ ∃ cs w center, TrueView D s e cs w center := by
  obtain ⟨t, hconverged, hreflects⟩ := Reflects.of_reachable h
  cases hlook : s.server.clients.lookup e with
  | none => exact Or.inl (hreflects.mirrors.unknown e he hlook).base
  | some cs =>
    have hbase : t.base cs.entity = (s.bot e).baseline :=
      (hreflects.mirrors.known e he cs hlook).base
    rw [← hbase]
    refine (hconverged.held cs.entity).imp_right fun hheld => ?_
    obtain ⟨w, hw, view, hview, hheld⟩ := hheld
    obtain ⟨center, hcenter, hentities⟩ := Option.map_eq_some_iff.mp hview
    have hid : center.id = D.setup.viewer cs.entity := by simpa using List.find?_some hcenter
    refine ⟨cs, w, center, hlook, hreflects.worlds ▸ hw, fun v hv heq => ?_,
      List.mem_of_find?_eq_some hcenter, hid, ?_, ?_⟩
    · exact hconverged.recorded.unique v (hreflects.worlds ▸ hv) w hw heq
    · rw [← hbase, hheld]
    · rw [← hbase, hheld, ← hentities]
      rfl

/-- Whatever the network does to the datagrams between the server and the bots, and whatever
other endpoints send, a bot that is not in its initial state is a client of the server, and it
holds exactly what its own entity saw of the one world that was broadcast for its tick. -/
theorem bots_hold_true_views (h : (machine D).ReachableUnder (Within D) s) (he : e ∈ D.bots) :
    (s.bot e).baseline = {} ∨ ∃ cs, s.server.clients.lookup e = some cs ∧
      ∃ w ∈ s.worlds, (∀ v ∈ s.worlds, v.tick = w.tick → v = w) ∧
        ∃ center ∈ w.entities, center.id = cs.entity ∧ (s.bot e).baseline.tick = w.tick ∧
          (s.bot e).baseline.entities = (filterAoi w.entities center.x center.y kAoiRadius).map
            (received D.worldBound) := by
  refine (trueView h he).imp_right fun hview => ?_
  obtain ⟨cs, w, center, hview⟩ := hview
  exact ⟨cs, hview.client, w, hview.world, hview.unique, center, hview.center_mem,
    hview.center_id, hview.tick, hview.entities⟩

def still : Noise Unit where
  angle _ := (Scalar.ofRat 0, ())
  hold _ := (30, ())
  distance _ := (Scalar.ofRat 0, ())
  cos := id
  sin := id

def oneBot : Deployment Unit Unit where
  uniform := World.drawOrigin
  noise := still
  bits := fun _ => 0
  worldBound := World.hundred
  address := ⟨"s", 9999⟩
  worldSeed := ()
  botSeed := fun _ => ()
  startUs := 0
  bots := {⟨"b", 1⟩}

def joinRun : List Event :=
  [.tick ⟨"b", 1⟩, .pump ⟨"b", 1⟩ 0 [],
    .serve 20000 [(⟨"x", 7⟩, (.ascending, [1, 2, 3])), (⟨"b", 1⟩, (.ascending,
      [1, 0, 0, 1, 1, 0, 0, 0, 0, 0, 0, 0, 2, 0, 1, 0, 0, 12, 0, 0, 0, 0, 0, 0, 0, 0, 0, 0, 0, 0,
        0, 0, 0, 0, 12, 0, 0, 0, 0, 0, 0, 0, 0, 0, 0, 0, 0, 0]))],
    .pump ⟨"b", 1⟩ 30000 [(.ascending,
      [1, 0, 0, 1, 1, 0, 1, 0, 0, 0, 0, 0, 1, 0, 0, 0, 0, 17, 0, 0, 0, 0, 0, 1, 0, 2, 0, 1, 0, 0,
        0, 0, 2, 0, 0, 0])]]

theorem admits_joinRun :
    (machine (δ := ℚ) oneBot).AdmitsUnder (Within oneBot) (start oneBot) joinRun := by
  refine ⟨⟨trivial, trivial⟩, rfl, ⟨by decide +kernel, by decide +kernel, by decide +kernel⟩, rfl,
    ⟨?_, by decide +kernel, by decide +kernel, fun e he => ?_⟩, trivial,
    ⟨by decide +kernel, by decide +kernel, by decide +kernel⟩, rfl, trivial⟩
  · have hstranger : (⟨"x", 7⟩ : Endpoint) ∉ oneBot.bots := by
      rw [oneBot, Set.mem_singleton_iff]
      decide
    exact List.forall_mem_cons.mpr ⟨fun hbot => absurd hbot hstranger,
      List.forall_mem_singleton.mpr fun _ => by decide +kernel⟩
  · rw [Set.mem_singleton_iff.mp he]
    exact ⟨by decide +kernel, by decide +kernel⟩

theorem bots_hold_true_views_joinRun :
    let s := (machine (δ := ℚ) oneBot).runFrom (start oneBot) joinRun
    let b := s.bot ⟨"b", 1⟩
    (b.baseline = {} ∨ ∃ cs, s.server.clients.lookup ⟨"b", 1⟩ = some cs ∧
      ∃ w ∈ s.worlds, (∀ v ∈ s.worlds, v.tick = w.tick → v = w) ∧
        ∃ center ∈ w.entities, center.id = cs.entity ∧ b.baseline.tick = w.tick ∧
          b.baseline.entities = (filterAoi w.entities center.x center.y kAoiRadius).map
            (received oneBot.worldBound)) ∧
      b.baseline.tick = 1 ∧ b.baseline.entities.map EntityState.id = [1, 2] :=
  ⟨bots_hold_true_views (Machine.ReachableUnder.init.runFrom admits_joinRun) rfl,
    by decide +kernel⟩

/-- A datagram in the name of the server, which has sent none, and the bot has a world. -/
example :
    let s := (machine (δ := ℚ) oneBot).runFrom (start oneBot) [.pump ⟨"b", 1⟩ 0 [(.ascending,
      [1, 0, 0, 1, 1, 0, 0, 0, 0, 0, 0, 0, 1, 0, 0, 0, 0, 7, 0, 0, 0, 0, 0, 7, 0, 0])]]
    (s.bot ⟨"b", 1⟩).baseline.tick = 7 ∧ s.worlds.isEmpty := by
  decide +kernel

/-- In a world with a finite bound a bot sees exactly the entities that stood within the radius
of its own, each of them half a step of the quantization off at most. -/
theorem bots_see_what_is_near (h : (machine D).ReachableUnder (Within D) s) (he : e ∈ D.bots)
    {b : ℚ} (hb : 0 < b) (hbound : D.worldBound = Extended.finite b)
    (hbaseline : (s.bot e).baseline ≠ {}) :
    ∃ cs w center, s.server.clients.lookup e = some cs ∧ w ∈ s.worlds ∧
      w.tick = (s.bot e).baseline.tick ∧ center ∈ w.entities ∧ center.id = cs.entity ∧
      (∀ seen ∈ (s.bot e).baseline.entities, ∃ real ∈ w.entities, real.id = seen.id ∧
        ∃ x y px py cx cy, real.At x y ∧ seen.At px py ∧ center.At cx cy ∧
          (x - cx) ^ 2 + (y - cy) ^ 2 ≤ 20 ^ 2 ∧ |px - Scalar.clamp x 0 b| ≤ b / (2 * 4095) ∧
          |py - Scalar.clamp y 0 b| ≤ b / (2 * 4095)) ∧
      ∀ real ∈ w.entities, ∀ x y cx cy, real.At x y → center.At cx cy →
        (x - cx) ^ 2 + (y - cy) ^ 2 ≤ 20 ^ 2 →
          ∃ seen ∈ (s.bot e).baseline.entities, seen.id = real.id := by
  rcases trueView h he with hinit | ⟨cs, w, center, hview⟩
  · exact absurd hinit hbaseline
  refine ⟨cs, w, center, hview.client, hview.world, hview.tick.symm, hview.center_mem,
    hview.center_id, fun seen hseen => ?_, fun real hreal x y cx cy hat hcenter hnear => ?_⟩
  · rw [hview.entities, hbound] at hseen
    obtain ⟨real, hreal, rfl⟩ := List.mem_map.mp hseen
    obtain ⟨hmem, x, y, cx, cy, hat, hcenter, hnear⟩ := mem_filterAoi_iff.mp hreal
    obtain ⟨px, py, hread, hx, hy⟩ := received_near hb hat
    exact ⟨real, hmem, rfl, x, y, px, py, cx, cy, hat, hread, hcenter, hnear, hx, hy⟩
  · rw [hview.entities]
    exact ⟨received D.worldBound real, List.mem_map_of_mem
      (mem_filterAoi_iff.mpr ⟨hreal, x, y, cx, cy, hat, hcenter, hnear⟩), rfl⟩

theorem bots_see_what_is_near_joinRun :
    let s := (machine (δ := ℚ) oneBot).runFrom (start oneBot) joinRun
    let b := s.bot ⟨"b", 1⟩
    ∃ cs w center, s.server.clients.lookup ⟨"b", 1⟩ = some cs ∧ w ∈ s.worlds ∧
      w.tick = b.baseline.tick ∧ center ∈ w.entities ∧ center.id = cs.entity ∧
      (∀ seen ∈ b.baseline.entities, ∃ real ∈ w.entities, real.id = seen.id ∧
        ∃ x y px py cx cy, real.At x y ∧ seen.At px py ∧ center.At cx cy ∧
          (x - cx) ^ 2 + (y - cy) ^ 2 ≤ 20 ^ 2 ∧ |px - Scalar.clamp x 0 100| ≤ 100 / (2 * 4095) ∧
          |py - Scalar.clamp y 0 100| ≤ 100 / (2 * 4095)) ∧
      ∀ real ∈ w.entities, ∀ x y cx cy, real.At x y → center.At cx cy →
        (x - cx) ^ 2 + (y - cy) ^ 2 ≤ 20 ^ 2 →
          ∃ seen ∈ b.baseline.entities, seen.id = real.id := by
  refine bots_see_what_is_near (Machine.ReachableUnder.init.runFrom admits_joinRun) rfl
    (by norm_num) rfl fun hinit => ?_
  have htick : (((machine (δ := ℚ) oneBot).runFrom (start oneBot) joinRun).bot
      ⟨"b", 1⟩).baseline.tick = 1 := by decide +kernel
  exact absurd (htick.symm.trans (congrArg WorldSnapshot.tick hinit)) (by decide)

end Swarm

end Netcode.System
