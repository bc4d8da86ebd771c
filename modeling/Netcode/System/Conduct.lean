import Netcode.Server.Conduct
import Netcode.System.Views

/-!
# Where the entities of the bots can be

An entity follows the inputs of its own endpoint, and between a bot and the server
nothing comes out that was not put in. So the entities of the bots stay in the box
and below their speed, whatever else is sent to the server.
-/

namespace Netcode.Server.Seat

open Netcode.Library Netcode.Sim

variable {bound : Extended} {x : Seat}

/-- The entity is in the box and moves no faster than `kSpeed` along either axis. -/
structure Orderly (bound : Extended) (x : Seat) : Prop where
  inside : World.Inside bound x.entity
  vx : Extended.Bounded 20 x.entity.vx
  vy : Extended.Bounded 20 x.entity.vy

def Moderate (payload : Bytes) : Prop :=
  ∃ input, decodeInput payload = some input ∧ Extended.Bounded 1 input.dx ∧
    Extended.Bounded 1 input.dy

theorem orderly_spawned {ρ : Type*} {uniform : Extended → ρ → Extended × ρ}
    (hdraws : World.DrawsWithin uniform bound) (rng : ρ) (id : EntityId) :
    Orderly bound (spawned uniform bound rng id) where
  inside := ⟨hdraws rng, hdraws (uniform bound rng).2⟩
  vx := ⟨0, by norm_num, rfl⟩
  vy := ⟨0, by norm_num, rfl⟩

theorem Orderly.message (h : x.Orderly bound) {payload : Bytes} (hpayload : Moderate payload) :
    (x.obey bound (.message payload)).Orderly bound := by
  obtain ⟨input, hinput, hdx, hdy⟩ := hpayload
  have hspeed : Extended.Bounded 20 World.kSpeed := ⟨20, by norm_num, rfl⟩
  have hvx := hdx.mul hspeed
  have hvy := hdy.mul hspeed
  rw [one_mul] at hvx hvy
  rw [obey, hinput]
  exact ⟨h.inside, hvx, hvy⟩

theorem Orderly.step (h : x.Orderly bound) (hbound : Scalar.lt (Scalar.ofRat 0) bound = true)
    (hfinite : bound ≠ Extended.inf false) : (x.obey bound .step).Orderly bound where
  inside := ⟨(within_step_iff hbound hfinite (Or.inl h.inside.1)).mpr ⟨h.inside.1, h.vx.ne_nan⟩,
    (within_step_iff hbound hfinite (Or.inl h.inside.2)).mpr ⟨h.inside.2, h.vy.ne_nan⟩⟩
  vx := h.vx
  vy := h.vy

theorem Orderly.replay (h : x.Orderly bound) (hbound : Scalar.lt (Scalar.ofRat 0) bound = true)
    (hfinite : bound ≠ Extended.inf false) {orders : List Order}
    (horders : ∀ payload, .message payload ∈ orders → Moderate payload) :
    (x.replay bound orders).Orderly bound := by
  induction orders generalizing x with
  | nil => exact h
  | cons order orders ih =>
    have hrest : ∀ payload, .message payload ∈ orders → Moderate payload :=
      fun payload hmem => horders payload (List.mem_cons_of_mem _ hmem)
    cases order with
    | step => exact ih (h.step hbound hfinite) hrest
    | message payload => exact ih (h.message (horders payload List.mem_cons_self)) hrest

end Netcode.Server.Seat

namespace Netcode.Server.ServerLoop

open Netcode.Library Netcode.Sim Netcode.Transport

variable {δ ρ : Type*} [Scalar δ] [Fmod δ] {uniform : Extended → ρ → Extended × ρ}
  {s : ServerLoop δ ρ} {now : Micros} {datagrams : List (Endpoint × Arrival)}

omit [Fmod δ] in
theorem roomy_of_small (h : s.clients.entries.length < 2 ^ 16) : s.Roomy := by
  rw [Roomy]
  omega

theorem nextId_iterate_le (h : s.Seated) (hroom : (s.iterate uniform now datagrams).2.Roomy) :
    s.world.nextId.toNat ≤ (s.iterate uniform now datagrams).2.world.nextId.toNat := by
  rw [h.players.nextId, (h.iterate hroom).players.nextId]
  exact Nat.succ_le_succ (s.iterate_length uniform now datagrams)

theorem joined_late (h : s.Seated) (hreceived : (s.received uniform now datagrams).Roomy)
    (hroom : (s.iterate uniform now datagrams).2.Roomy) {e : Endpoint} {cs : ClientState}
    (hnone : s.clients.lookup e = none)
    (hcs : (s.iterate uniform now datagrams).2.clients.lookup e = some cs) :
    s.world.nextId.toNat ≤ cs.entity.toNat := by
  have hplayers := (h.iterate hroom).players
  have hpos := (hplayers.given _ (hplayers.entity e cs hcs)).1
  by_contra hearly
  have hold := (h.players.mem_ids_iff cs.entity).mpr ⟨hpos, not_le.mp hearly⟩
  obtain ⟨f, ct, hct, hid⟩ := h.players.client cs.entity hold
  obtain ⟨entity, hentity⟩ := SortedMap.mem_keys.mp (h.players.entity f ct hct)
  have hseat : s.Seats f ⟨ct.entity, entity, ct.lastReceivedTick⟩ := ⟨hct, hentity⟩
  have hkept := ((iterate_seats h hreceived f).2.1 _ hseat).1
  rw [Seat.replay_id] at hkept
  have hsame := hplayers.distinct e f cs _ hcs hkept hid.symm
  rw [← hsame, hnone] at hct
  exact absurd hct.symm (Option.some_ne_none ct)

end Netcode.Server.ServerLoop

namespace Netcode.System

open Netcode.Library Netcode.Sim Netcode.Transport Netcode.Server Netcode.Bots

variable {δ ρ σ : Type*} [Scalar δ] {D : Deployment ρ σ} {s : Swarm δ ρ σ} {e : Endpoint}

/-- The draws and the functions keep to their ranges, and storing a float does not take it
out of the unit interval. -/
structure Deployment.Gentle (D : Deployment ρ σ) : Prop where
  draws : World.DrawsWithin D.uniform D.worldBound
  noise : D.noise.Fair
  bits : ∀ x, Extended.Bounded 1 x → Extended.Bounded 1 (Extended.ofBits (D.bits x))

namespace Swarm

theorem moderate_stamped (hD : D.Gentle) (b : Bot δ σ) (hsteered : b.driver.Steered) :
    Seat.Moderate (b.stamped D.bits (b.driver.tick D.noise).1) := by
  obtain ⟨hdx, hdy, -⟩ := hsteered.tick hD.noise
  exact ⟨_, decodeInput_encodeInput _, hD.bits _ hdx, hD.bits _ hdy⟩

/-- Every input that was queued is moderate, and so is what the server made of them. -/
structure Mannered (D : Deployment ρ σ) (s : Swarm δ ρ σ) : Prop where
  bounded : s.server.world.bound = D.worldBound
  steered : ∀ e, (s.bot e).driver.Steered
  inputs : ∀ e, ∀ payload ∈ s.inputs e, Seat.Moderate payload
  seats : ∀ e ∈ D.bots, s.server.clients.lookup e = none ∨
    ∃ x, s.server.Seats e x ∧ x.Orderly D.worldBound

namespace Mannered

theorem tick (h : Mannered D s) (hD : D.Gentle) (e : Endpoint) : Mannered D (s.tick D e) := by
  refine ⟨h.bounded, fun f => ?_, fun f => ?_, h.seats⟩
  · by_cases hf : f = e
    · subst hf
      simp only [Swarm.tick, Function.update_self]
      exact ((h.steered f).tick hD.noise).2.2
    · simp only [Swarm.tick, Function.update_of_ne hf]
      exact h.steered f
  · by_cases hf : f = e
    · subst hf
      simp only [Swarm.tick, Function.update_self]
      exact List.forall_mem_append.mpr ⟨h.inputs f,
        List.forall_mem_singleton.mpr (moderate_stamped hD _ (h.steered f))⟩
    · simp only [Swarm.tick, Function.update_of_ne hf]
      exact h.inputs f

theorem pump (h : Mannered D s) (e : Endpoint) (now : Micros) (arrivals : List Arrival) :
    Mannered D (s.pump D e now arrivals) := by
  refine ⟨h.bounded, fun f => ?_, h.inputs, h.seats⟩
  by_cases hf : f = e
  · subst hf
    simp only [Swarm.pump, Function.update_self]
    exact h.steered f
  · simp only [Swarm.pump, Function.update_of_ne hf]
    exact h.steered f

variable [Fmod δ]

theorem serve (h : Mannered D s) (hD : D.Gentle)
    (hbound : Scalar.lt (Scalar.ofRat 0) D.worldBound = true)
    (hfinite : D.worldBound ≠ Extended.inf false) {t : Mirrored} (hreflects : Reflects D s t)
    {now : Micros} {datagrams : List (Endpoint × Arrival)}
    (hdatagrams : ∀ d ∈ datagrams, d.1 ∈ D.bots → d.2.2 ∈ s.up d.1)
    (hroom : (s.server.received D.uniform now datagrams).Roomy) :
    Mannered D (s.serve D now datagrams) := by
  have hseats := fun e => h.bounded ▸ ServerLoop.iterate_seats hreflects.seated hroom e
  refine ⟨(hseats ⟨"", 0⟩).1, h.steered, h.inputs, fun e he => ?_⟩
  obtain ⟨l, hl⟩ := hreflects.linked e he
  have hpolled := hl.polled he hreflects.seated hdatagrams hroom
  have horders : ∀ payload, .message payload ∈ s.server.ordersFor D.uniform now datagrams e →
      Seat.Moderate payload := by
    intro payload hmem
    rw [ServerLoop.ordersFor] at hmem
    split_ifs at hmem
    · rcases List.mem_append.mp hmem with hmem | hmem
      · obtain ⟨m, hm, heq⟩ := List.mem_map.mp hmem
        exact Order.message.inj heq ▸ h.inputs e m.payload (hpolled m hm)
      · exact absurd (List.eq_of_mem_replicate hmem) Order.noConfusion
    · exact absurd hmem List.not_mem_nil
  obtain ⟨-, hold, hfresh⟩ := hseats e
  rcases h.seats e he with hnone | ⟨x, hx, horderly⟩
  · rcases hfresh hnone with ⟨hnone', -⟩ | ⟨rng, id, hseat⟩
    · exact Or.inl hnone'
    · exact Or.inr ⟨_, hseat, (Seat.orderly_spawned hD.draws rng id).replay hbound hfinite horders⟩
  · exact Or.inr ⟨_, hold x hx, horderly.replay hbound hfinite horders⟩

theorem of_reachable (hD : D.Gentle) (hbound : Scalar.lt (Scalar.ofRat 0) D.worldBound = true)
    (hfinite : D.worldBound ≠ Extended.inf false)
    (h : (machine D).ReachableUnder (Within D) s) : Mannered D s := by
  induction h with
  | init =>
    exact ⟨rfl, fun e => BotDriver.steered_start _,
      fun e payload hpayload => absurd hpayload List.not_mem_nil, fun e _ => Or.inl rfl⟩
  | step h ev hwithin _ ih =>
    cases ev with
    | serve now datagrams =>
      obtain ⟨t, -, hreflects⟩ := Reflects.of_reachable h
      exact ih.serve hD hbound hfinite hreflects hwithin.1 (ServerLoop.roomy_of_small hwithin.2.1)
    | tick e => exact ih.tick hD e
    | pump e now arrivals => exact ih.pump e now arrivals

end Mannered

variable [Fmod δ]

/-- In a finite box the entity of every bot has a position in the box and no more than twenty
units a second along either axis, whatever the network does and whatever others send. -/
theorem bots_stay_in_box (h : (machine D).ReachableUnder (Within D) s) (hD : D.Gentle) {b : ℚ}
    (hb : 0 < b) (hbound : D.worldBound = Extended.finite b) (he : e ∈ D.bots) {cs : ClientState}
    (hclient : s.server.clients.lookup e = some cs) :
    ∃ x y vx vy : ℚ, s.server.world.entities.lookup cs.entity =
        some ⟨.finite x, .finite y, .finite vx, .finite vy⟩ ∧
      (0 ≤ x ∧ x ≤ b) ∧ (0 ≤ y ∧ y ≤ b) ∧ |vx| ≤ 20 ∧ |vy| ≤ 20 := by
  have hpos : Scalar.lt (Scalar.ofRat 0) D.worldBound = true :=
    hbound ▸ Extended.lt_zero_iff.mpr (Or.inl ⟨b, hb, rfl⟩)
  have hmannered := Mannered.of_reachable hD hpos (hbound ▸ Extended.noConfusion) h
  rcases hmannered.seats e he with hnone | ⟨seat, ⟨hseat, hentity⟩, horderly⟩
  · exact absurd (hclient.symm.trans hnone) (Option.some_ne_none cs)
  rw [hclient, Option.some.injEq] at hseat
  subst hseat
  obtain ⟨⟨hx, hy⟩, hvx, hvy⟩ := hbound ▸ horderly
  obtain ⟨x, hx0, hxb, hx⟩ := Extended.within_finite_iff.mp hx
  obtain ⟨y, hy0, hyb, hy⟩ := Extended.within_finite_iff.mp hy
  obtain ⟨vx, hvx, hvxeq⟩ := hvx
  obtain ⟨vy, hvy, hvyeq⟩ := hvy
  refine ⟨x, y, vx, vy, ?_, ⟨hx0, hxb⟩, ⟨hy0, hyb⟩, hvx, hvy⟩
  rw [← hx, ← hy, ← hvxeq, ← hvyeq]
  exact hentity

theorem ofBits_zero : Extended.ofBits 0 = Extended.finite 0 := by decide +kernel

theorem gentle_oneBot : oneBot.Gentle where
  draws := World.drawOrigin_within
  noise := ⟨fun _ => ⟨le_rfl, by norm_num [oneBot, still]⟩, fun _ => ⟨0, by norm_num, rfl⟩,
    fun _ => ⟨0, by norm_num, rfl⟩, fun _ => ⟨0, by norm_num, rfl⟩⟩
  bits := fun _ _ => ⟨0, by norm_num, ofBits_zero⟩

theorem bots_stay_in_box_joinRun :
    let s := (machine (δ := ℚ) oneBot).runFrom (start oneBot) joinRun
    ∃ cs, s.server.clients.lookup ⟨"b", 1⟩ = some cs ∧
      ∃ x y vx vy : ℚ, s.server.world.entities.lookup cs.entity =
          some ⟨.finite x, .finite y, .finite vx, .finite vy⟩ ∧
        (0 ≤ x ∧ x ≤ 100) ∧ (0 ≤ y ∧ y ≤ 100) ∧ |vx| ≤ 20 ∧ |vy| ≤ 20 := by
  intro s
  have hjoined : (s.server.clients.lookup ⟨"b", 1⟩).isSome := by decide +kernel
  obtain ⟨cs, hclient⟩ := Option.isSome_iff_exists.mp hjoined
  exact ⟨cs, hclient, bots_stay_in_box (Machine.ReachableUnder.init.runFrom admits_joinRun)
    gentle_oneBot (by norm_num) rfl rfl hclient⟩

omit [Fmod δ] in
theorem Mannered.inside (h : Mannered D s) (he : e ∈ D.bots) {cs : ClientState}
    (hclient : s.server.clients.lookup e = some cs) {entity : Entity Extended}
    (hentity : s.server.world.entities.lookup cs.entity = some entity) :
    World.Inside D.worldBound entity := by
  rcases h.seats e he with hnone | ⟨seat, ⟨hseat, hlook⟩, horderly⟩
  · exact absurd (hclient.symm.trans hnone) (Option.some_ne_none cs)
  · rw [hclient, Option.some.injEq] at hseat
    subst hseat
    exact Option.some.inj (hlook.symm.trans hentity) ▸ horderly.inside

/-- The worlds that were broadcast have ids that were given out, those of bots in the box. -/
structure Charted (D : Deployment ρ σ) (s : Swarm δ ρ σ) : Prop where
  given : ∀ w ∈ s.worlds, ∀ c ∈ w.entities, c.id.toNat < s.server.world.nextId.toNat
  inside : ∀ w ∈ s.worlds, ∀ c ∈ w.entities, ∀ e ∈ D.bots, ∀ cs,
    s.server.clients.lookup e = some cs → c.id = cs.entity →
      Extended.Within D.worldBound c.x ∧ Extended.Within D.worldBound c.y

namespace Charted

theorem serve (h : Charted D s) {t : Mirrored} (hreflects : Reflects D s t) {now : Micros}
    {datagrams : List (Endpoint × Arrival)}
    (hreceived : (s.server.received D.uniform now datagrams).Roomy)
    (hroom : (s.server.iterate D.uniform now datagrams).2.Roomy)
    (hmannered : Mannered D (s.serve D now datagrams)) : Charted D (s.serve D now datagrams) := by
  have hseated := hreflects.seated
  have hplayers := (hseated.iterate hroom).players
  have hnext := ServerLoop.nextId_iterate_le hseated hroom
  have hworld : (s.serve D now datagrams).server.world =
      ((s.server.received D.uniform now datagrams).advance now).2.world :=
    (ServerLoop.served_seats ((hseated.received hreceived).advance now).known).1
  -- A world that is recorded is the one that the server is left with.
  have hrecorded : ∀ w ∈ (s.server.received D.uniform now datagrams).recorded now,
      ∀ c ∈ w.entities, ∃ entity, c.x = entity.x ∧ c.y = entity.y ∧
        (s.serve D now datagrams).server.world.entities.lookup c.id = some entity := by
    intro w hw c hc
    rw [ServerLoop.recorded] at hw
    split_ifs at hw
    · rw [List.mem_singleton.mp hw] at hc
      obtain ⟨entry, hentry, rfl⟩ := List.mem_map.mp hc
      exact ⟨entry.2, rfl, rfl, hworld ▸ SortedMap.lookup_eq_some_iff.mpr hentry⟩
    · exact absurd hw List.not_mem_nil
  constructor
  · intro w hw c hc
    rcases List.mem_append.mp hw with hw | hw
    · exact (h.given w hw c hc).trans_le hnext
    · obtain ⟨entity, -, -, hlook⟩ := hrecorded w hw c hc
      exact (hplayers.given c.id (SortedMap.mem_keys.mpr ⟨entity, hlook⟩)).2
  · intro w hw c hc e he cs hclient hid
    rcases List.mem_append.mp hw with hw | hw
    · cases hlook : s.server.clients.lookup e with
      | none =>
        have hlate := ServerLoop.joined_late hseated hreceived hroom hlook hclient
        have hearly := h.given w hw c hc
        rw [hid] at hearly
        exact absurd hlate (not_le.mpr hearly)
      | some ct =>
        obtain ⟨entity, hentity⟩ := SortedMap.mem_keys.mp (hseated.players.entity e ct hlook)
        have hseat : s.server.Seats e ⟨ct.entity, entity, ct.lastReceivedTick⟩ := ⟨hlook, hentity⟩
        have hkept := ((ServerLoop.iterate_seats hseated hreceived e).2.1 _ hseat).1
        rw [Seat.replay_id] at hkept
        have hstates := Option.some.inj (hclient.symm.trans hkept)
        have hsame : cs.entity = ct.entity := by rw [hstates]
        exact h.inside w hw c hc e he ct hlook (hid.trans hsame)
    · obtain ⟨entity, hx, hy, hlook⟩ := hrecorded w hw c hc
      rw [hx, hy]
      exact hmannered.inside he hclient (hid ▸ hlook)

theorem of_reachable (hD : D.Gentle) (hbound : Scalar.lt (Scalar.ofRat 0) D.worldBound = true)
    (hfinite : D.worldBound ≠ Extended.inf false)
    (h : (machine D).ReachableUnder (Within D) s) : Charted D s := by
  induction h with
  | init =>
    exact ⟨fun w hw => absurd hw List.not_mem_nil, fun w hw => absurd hw List.not_mem_nil⟩
  | step h ev hwithin hev ih =>
    cases ev with
    | serve now datagrams =>
      obtain ⟨t, -, hreflects⟩ := Reflects.of_reachable h
      have hmannered := Mannered.of_reachable hD hbound hfinite (h.step _ hwithin hev)
      have hsmall := hwithin.2.1
      have hreceived := ServerLoop.roomy_of_small hsmall
      refine ih.serve hreflects hreceived ?_ hmannered
      have hclients := (ServerLoop.served_seats
        ((hreflects.seated.received hreceived).advance now).known).2
      have hlength := congrArg (fun m => m.entries.length) hclients
      exact ServerLoop.roomy_of_small (hlength.trans_lt hsmall)
    | tick e => exact ⟨ih.given, ih.inside⟩
    | pump e now arrivals => exact ⟨ih.given, ih.inside⟩

end Charted

/-- In a finite box every bot that holds a world finds itself in it, no more than half a step of
the quantization away from where its entity stood in the box when the world was broadcast. -/
theorem bots_see_themselves (h : (machine D).ReachableUnder (Within D) s) (hD : D.Gentle) {b : ℚ}
    (hb : 0 < b) (hbound : D.worldBound = Extended.finite b) (he : e ∈ D.bots)
    (hbaseline : (s.bot e).baseline ≠ {}) :
    ∃ cs, s.server.clients.lookup e = some cs ∧
      ∃ w ∈ s.worlds, w.tick = (s.bot e).baseline.tick ∧
        ∃ own ∈ w.entities, own.id = cs.entity ∧ ∃ seen ∈ (s.bot e).baseline.entities,
          seen.id = cs.entity ∧ ∃ x y px py, own.At x y ∧ seen.At px py ∧
            (0 ≤ x ∧ x ≤ b) ∧ (0 ≤ y ∧ y ≤ b) ∧
            |px - x| ≤ b / (2 * 4095) ∧ |py - y| ≤ b / (2 * 4095) := by
  have hpos : Scalar.lt (Scalar.ofRat 0) D.worldBound = true :=
    hbound ▸ Extended.lt_zero_iff.mpr (Or.inl ⟨b, hb, rfl⟩)
  have hcharted := Charted.of_reachable hD hpos (hbound ▸ Extended.noConfusion) h
  rcases trueView h he with hinit | ⟨cs, w, own, hview⟩
  · exact absurd hinit hbaseline
  obtain ⟨hx, hy⟩ := hcharted.inside w hview.world own hview.center_mem e he cs hview.client
    hview.center_id
  rw [hbound] at hx hy
  obtain ⟨x, hx0, hxb, hx⟩ := Extended.within_finite_iff.mp hx
  obtain ⟨y, hy0, hyb, hy⟩ := Extended.within_finite_iff.mp hy
  have hat : own.At x y := ⟨hx, hy⟩
  obtain ⟨px, py, hread, hpx, hpy⟩ := received_near hb hat
  rw [clamp_of_mem hx0 hxb] at hpx
  rw [clamp_of_mem hy0 hyb] at hpy
  have hnear : (x - x) ^ 2 + (y - y) ^ 2 ≤ (20 : ℚ) ^ 2 := by norm_num
  refine ⟨cs, hview.client, w, hview.world, hview.tick.symm, own, hview.center_mem,
    hview.center_id, received D.worldBound own, ?_, hview.center_id, x, y, px, py, hat,
    hbound ▸ hread, ⟨hx0, hxb⟩, ⟨hy0, hyb⟩, hpx, hpy⟩
  rw [hview.entities]
  exact List.mem_map_of_mem (mem_filterAoi_iff.mpr
    ⟨hview.center_mem, x, y, x, y, hat, hat, hnear⟩)

theorem bots_see_themselves_joinRun :
    let s := (machine (δ := ℚ) oneBot).runFrom (start oneBot) joinRun
    let b := s.bot ⟨"b", 1⟩
    ∃ cs, s.server.clients.lookup ⟨"b", 1⟩ = some cs ∧
      ∃ w ∈ s.worlds, w.tick = b.baseline.tick ∧
        ∃ own ∈ w.entities, own.id = cs.entity ∧ ∃ seen ∈ b.baseline.entities,
          seen.id = cs.entity ∧ ∃ x y px py : ℚ, own.At x y ∧ seen.At px py ∧
            (0 ≤ x ∧ x ≤ 100) ∧ (0 ≤ y ∧ y ≤ 100) ∧
            |px - x| ≤ 100 / (2 * 4095) ∧ |py - y| ≤ 100 / (2 * 4095) := by
  refine bots_see_themselves (Machine.ReachableUnder.init.runFrom admits_joinRun) gentle_oneBot
    (by norm_num) rfl rfl fun hinit => ?_
  have htick : (((machine (δ := ℚ) oneBot).runFrom (start oneBot) joinRun).bot
      ⟨"b", 1⟩).baseline.tick = 1 := by decide +kernel
  exact absurd (htick.symm.trans (congrArg WorldSnapshot.tick hinit)) (by decide)

end Swarm

end Netcode.System
