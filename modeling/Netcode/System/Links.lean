import Netcode.System.Swarm

/-!
# Between the server and one bot

Whatever the server does for the other endpoints and whoever sends from where no
bot runs, the peer of the server and the peer of the bot are the two sides of a
`PeerLink`. What either hands on was put in at the other side.
-/

namespace Netcode.Bots.Bot

open Netcode.Library Netcode.Transport

variable {δ σ : Type*} [Scalar δ]

def tickActions (noise : Noise σ) (bits : Extended → UInt32) (b : Bot δ σ) : List PeerAction :=
  let emit := (b.driver.tick noise).1
  .queueUnreliable (b.stamped bits emit) ::
    if emit.event.isSome then [.queueReliable emptyInput] else []

theorem possible_tickActions {noise : Noise σ} {bits : Extended → UInt32} {b : Bot δ σ}
    {y : PeerSide δ} {action : PeerAction} (h : action ∈ b.tickActions noise bits) :
    action.Possible y := by
  rcases List.mem_cons.mp h with rfl | h
  · trivial
  · split_ifs at h
    · rw [List.mem_singleton.mp h]
      trivial
    · exact absurd h List.not_mem_nil

theorem tick_side (noise : Noise σ) (bits : Extended → UInt32) {b : Bot δ σ} {x : PeerSide δ}
    (hx : x.peer = b.peer) : (b.tickActions noise bits).foldl PeerSide.act x =
      { x with
        peer := (b.tick noise bits).peer
        queued := x.queued ++ if (b.driver.tick noise).1.event.isSome then
          [⟨Channel.reliable, b.peer.mux.reliable.nextId, emptyInput⟩] else []
        offered := x.offered ++ [b.stamped bits (b.driver.tick noise).1] } := by
  rw [tickActions, List.foldl_cons, tick]
  split_ifs
  · simp only [List.foldl_cons, List.foldl_nil, PeerSide.act, hx]
    rfl
  · simp only [List.foldl_nil, PeerSide.act, hx, List.append_nil]

theorem pump_side (worldBound : Extended) {b : Bot δ σ} {x : PeerSide δ} (hx : x.peer = b.peer)
    (nowUs : Micros) (arrivals : List Arrival) :
    [PeerAction.update nowUs, PeerAction.poll nowUs arrivals].foldl PeerSide.act x =
      { peer := (b.pump worldBound nowUs arrivals).2.peer
        wire := x.wire ++ (b.pump worldBound nowUs arrivals).1
        flushed := x.flushed ++ b.peer.flushes nowUs
        queued := x.queued
        offered := x.offered
        delivered := x.delivered ++ ((b.peer.update nowUs).2.poll nowUs arrivals).1.reliable
        received := x.received ++
          ((b.peer.update nowUs).2.poll nowUs arrivals).1.unreliable.map (·.payload) } := by
  simp only [List.foldl_cons, List.foldl_nil, PeerSide.act, hx, pump]

end Netcode.Bots.Bot

namespace Netcode.System

open Netcode.Library Netcode.Sim Netcode.Transport Netcode.Server Netcode.Bots

variable {δ ρ σ : Type*} [Scalar δ] {D : Deployment ρ σ} {s t : Swarm δ ρ σ} {e : Endpoint}
  {l : PeerLink δ}

/-- The link is what the two processes have in hand, with what was recorded of the run. -/
structure Linked (D : Deployment ρ σ) (s : Swarm δ ρ σ) (e : Endpoint) (l : PeerLink δ) :
    Prop where
  reachable : (PeerLink.machine e D.address).Reachable l
  carried : l.Carried
  counted : l.a.Counted ∧ l.b.Counted
  server : l.a.peer = s.server.peerAt e
  bot : l.b.peer = (s.bot e).peer
  down : l.a.wire = s.down e
  up : l.b.wire = s.up e
  blobs : l.a.offered = s.blobs e
  inputs : l.b.offered = s.inputs e
  events : l.b.queued = s.events e
  taken : l.a.delivered = s.taken e

namespace Linked

theorem start (D : Deployment ρ σ) (e : Endpoint) :
    ∃ l, Linked D (Swarm.start D : Swarm δ ρ σ) e l := by
  refine ⟨(PeerLink.machine e D.address).next (PeerLink.init e D.address)
    (.atB (.queueReliable emptyInput)), ?_, ?_, ⟨rfl, rfl⟩, rfl, rfl, rfl, rfl, rfl, rfl, rfl, rfl⟩
  · exact Machine.Reachable.init.step _ trivial
  · exact ⟨⟨fun p hp => absurd hp List.not_mem_nil, Nat.zero_le _⟩,
      ⟨fun p hp => absurd hp List.not_mem_nil, Nat.zero_le _⟩⟩

theorem of_same (h : Linked D s e l) (hserver : t.server = s.server) (hbot : t.bot e = s.bot e)
    (hdown : t.down = s.down) (hup : t.up e = s.up e) (hblobs : t.blobs = s.blobs)
    (hinputs : t.inputs e = s.inputs e) (hevents : t.events e = s.events e)
    (htaken : t.taken = s.taken) : Linked D t e l where
  reachable := h.reachable
  carried := h.carried
  counted := h.counted
  server := h.server.trans (by rw [hserver])
  bot := h.bot.trans (by rw [hbot])
  down := h.down.trans (by rw [hdown])
  up := h.up.trans hup.symm
  blobs := h.blobs.trans (by rw [hblobs])
  inputs := h.inputs.trans hinputs.symm
  events := h.events.trans hevents.symm
  taken := h.taken.trans (by rw [htaken])

theorem atB (h : Linked D s e l) (actions : List PeerAction)
    (hactions : ∀ action ∈ actions, action.Possible l.a)
    (hcarried : (actions.foldl PeerSide.act l.b).Carried)
    (hserver : t.server = s.server) (hdown : t.down = s.down) (hblobs : t.blobs = s.blobs)
    (htaken : t.taken = s.taken)
    (hpeer : (actions.foldl PeerSide.act l.b).peer = (t.bot e).peer)
    (hup : (actions.foldl PeerSide.act l.b).wire = t.up e)
    (hinputs : (actions.foldl PeerSide.act l.b).offered = t.inputs e)
    (hevents : (actions.foldl PeerSide.act l.b).queued = t.events e) :
    Linked D t e { l with b := actions.foldl PeerSide.act l.b } where
  reachable := PeerLink.reachable_atB h.reachable hactions
  carried := ⟨h.carried.1, hcarried⟩
  counted := ⟨h.counted.1, h.counted.2.foldl actions⟩
  server := h.server.trans (by rw [hserver])
  bot := hpeer
  down := h.down.trans (by rw [hdown])
  up := hup
  blobs := h.blobs.trans (by rw [hblobs])
  inputs := hinputs
  events := hevents
  taken := h.taken.trans (by rw [htaken])

theorem tick (h : Linked D s e l) : Linked D (s.tick D e) e
    { l with b := ((s.bot e).tickActions D.noise D.bits).foldl PeerSide.act l.b } := by
  have hside := (s.bot e).tick_side D.noise D.bits h.bot
  refine h.atB (t := s.tick D e) ((s.bot e).tickActions D.noise D.bits)
    (fun action haction => Bot.possible_tickActions haction) ?_ rfl rfl rfl rfl ?_ ?_ ?_ ?_
  · rw [hside]
    exact ⟨h.carried.2.packets, h.carried.2.count⟩
  · simp only [hside, Swarm.tick, Function.update_self]
  · simp only [hside, Swarm.tick, h.up]
  · simp only [hside, Swarm.tick, Function.update_self, h.inputs]
  · simp only [hside, Swarm.tick, Function.update_self, h.events]

theorem possible_pump (h : Linked D s e l) (now : Micros) {arrivals : List Arrival}
    (harrivals : ∀ a ∈ arrivals, a.2 ∈ s.down e) :
    ∀ action ∈ [PeerAction.update now, PeerAction.poll now arrivals], action.Possible l.a := by
  refine List.forall_mem_cons.mpr ⟨trivial, List.forall_mem_singleton.mpr fun a ha => ?_⟩
  rw [h.down]
  exact harrivals a ha

theorem pump (h : Linked D s e l) {now : Micros} {arrivals : List Arrival}
    (harrivals : ∀ a ∈ arrivals, a.2 ∈ s.down e)
    (hflushes : ∀ p ∈ (s.bot e).peer.flushes now, p.Carried)
    (hsent : ((s.bot e).peer.update now).2.packetsSent.toNat ≤ maxPackets) :
    Linked D (s.pump D e now arrivals) e
      { l with b := [PeerAction.update now, .poll now arrivals].foldl PeerSide.act l.b } := by
  have hside := (s.bot e).pump_side D.worldBound h.bot now arrivals
  refine h.atB (t := s.pump D e now arrivals) _ (h.possible_pump now harrivals) ?_
    rfl rfl rfl rfl ?_ ?_ ?_ ?_
  · refine h.carried.2.of_counted (h.counted.2.foldl _) (congrArg PeerSide.flushed hside)
      (Peer.length_flushes_le ..) hflushes ?_
    rw [hside, Bot.pump, (Peer.untouched_poll ..).packetsSent]
    exact hsent
  · simp only [hside, Swarm.pump, Function.update_self]
  · simp only [hside, Swarm.pump, Function.update_self, h.up]
  · simp only [hside, Swarm.pump, h.inputs]
  · simp only [hside, Swarm.pump, h.events]

theorem flow (h : Linked D s e l) (hcount : (s.events e).length ≤ maxMessages) :
    (∃ lo hi base d, Flow l.b.side l.a.side lo hi base d) ∧ l.b.side.InBounds := by
  obtain ⟨hreach, -, -⟩ := PeerLink.packets_reachable h.reachable h.carried
  rw [← h.events] at hcount
  have hbounds : l.b.side.InBounds := ⟨h.carried.2.count, hcount⟩
  exact ⟨Link.flow (Link.reachable_swap hreach) hbounds, hbounds⟩

theorem delivers (h : Linked D s e l) (hcount : (s.events e).length ≤ maxMessages) :
    PeerLink.Delivers l.b l.a := by
  obtain ⟨-, -, hconveys⟩ := PeerLink.packets_reachable h.reachable h.carried
  obtain ⟨⟨_, _, _, _, hflow⟩, -⟩ := h.flow hcount
  exact PeerLink.delivers_of_flow hflow hconveys

theorem pumped (h : Linked D s e l) (now : Micros) {arrivals : List Arrival}
    (harrivals : ∀ a ∈ arrivals, a.2 ∈ s.down e) :
    ∀ m ∈ (((s.bot e).peer.update now).2.poll now arrivals).1.unreliable,
      m.payload ∈ s.blobs e := by
  intro m hm
  obtain ⟨-, hconveys, -⟩ := PeerLink.packets_reachable h.reachable h.carried
  have hreceived := (hconveys.receiver_foldl h.carried.1 (h.possible_pump now harrivals)).received
  rw [(s.bot e).pump_side D.worldBound h.bot now arrivals] at hreceived
  exact h.blobs ▸ hreceived m.payload (List.mem_append_right _ (List.mem_map_of_mem hm))

variable [Fmod δ]

theorem possible_serve (h : Linked D s e l) (he : e ∈ D.bots) (now : Micros)
    {datagrams : List (Endpoint × Arrival)}
    (hdatagrams : ∀ d ∈ datagrams, d.1 ∈ D.bots → d.2.2 ∈ s.up d.1) :
    ∀ action ∈ s.server.actions D.uniform now datagrams e, action.Possible l.b := by
  refine List.forall_mem_cons.mpr ⟨fun a ha => ?_, fun action haction => ?_⟩
  · rw [h.up]
    obtain ⟨d, hd, rfl⟩ := List.mem_map.mp ha
    obtain ⟨hd, hsource⟩ := List.mem_filter.mp hd
    have hsource := of_decide_eq_true hsource
    exact hsource ▸ hdatagrams d hd (hsource ▸ he)
  · split_ifs at haction
    · rcases List.mem_append.mp haction with haction | haction
      · obtain ⟨payload, -, rfl⟩ := List.mem_map.mp haction
        trivial
      · rw [List.mem_singleton.mp haction]
        trivial
    · exact absurd haction List.not_mem_nil

theorem serve (h : Linked D s e l) (he : e ∈ D.bots) (hseated : s.server.Seated) {now : Micros}
    {datagrams : List (Endpoint × Arrival)}
    (hdatagrams : ∀ d ∈ datagrams, d.1 ∈ D.bots → d.2.2 ∈ s.up d.1)
    (hroom : (s.server.received D.uniform now datagrams).Roomy)
    (hflushes : ∀ p ∈ ((s.server.received D.uniform now datagrams).served now).flushesTo now e,
      p.Carried)
    (hsent : ((s.server.iterate D.uniform now datagrams).2.peerAt e).packetsSent.toNat ≤
      maxPackets) : Linked D (s.serve D now datagrams) e
        { l with a := (s.server.actions D.uniform now datagrams e).foldl PeerSide.act l.a } := by
  have hside := ServerLoop.iterate_side hseated now hroom h.server
  have hactions := h.possible_serve he now hdatagrams
  refine ⟨PeerLink.reachable_atA h.reachable hactions, ⟨?_, h.carried.2⟩,
    ⟨h.counted.1.foldl _, h.counted.2⟩, ?_, h.bot, ?_, h.up, ?_, h.inputs, h.events, ?_⟩
  · refine h.carried.1.of_counted (h.counted.1.foldl _) (congrArg PeerSide.flushed hside) ?_
      hflushes ?_
    · exact ServerLoop.length_flushesTo_le ..
    · rw [hside]
      exact hsent
  · rw [hside]
    rfl
  · rw [hside, h.down]
    rfl
  · rw [hside, h.blobs]
    rfl
  · rw [hside, h.taken]
    rfl

/-- Whatever step the swarm takes, the link follows, and its records only grow. -/
theorem step (h : Linked D s e l) (he : e ∈ D.bots) (hseated : s.server.Seated) {ev : Event}
    (hwithin : s.Within D ev) :
    ∃ l', Linked D ((Swarm.machine D).next s ev) e l' ∧ l.a.Grows l'.a ∧ l.b.Grows l'.b := by
  cases ev with
  | serve now datagrams =>
    obtain ⟨hgenuine, hsmall, -, hpackets⟩ := hwithin
    have hroom : (s.server.received D.uniform now datagrams).Roomy := by
      rw [ServerLoop.Roomy]
      omega
    exact ⟨_, h.serve he hseated hgenuine hroom (hpackets e he).1 (hpackets e he).2,
      l.a.grows_foldl _, .refl _⟩
  | tick f =>
    by_cases hf : e = f
    · subst hf
      exact ⟨_, h.tick, .refl _, l.b.grows_foldl _⟩
    · exact ⟨l, h.of_same rfl (Function.update_of_ne hf ..) rfl rfl rfl
        (Function.update_of_ne hf ..) (Function.update_of_ne hf ..) rfl, .refl _, .refl _⟩
  | pump f now arrivals =>
    by_cases hf : e = f
    · subst hf
      obtain ⟨hgenuine, hflushes, hsent⟩ := hwithin
      exact ⟨_, h.pump hgenuine hflushes hsent, .refl _, l.b.grows_foldl _⟩
    · exact ⟨l, h.of_same rfl (Function.update_of_ne hf ..) rfl (Function.update_of_ne hf ..)
        rfl rfl rfl rfl, .refl _, .refl _⟩

theorem polled (h : Linked D s e l) (he : e ∈ D.bots) (hseated : s.server.Seated)
    {now : Micros} {datagrams : List (Endpoint × Arrival)}
    (hdatagrams : ∀ d ∈ datagrams, d.1 ∈ D.bots → d.2.2 ∈ s.up d.1)
    (hroom : (s.server.received D.uniform now datagrams).Roomy) :
    ∀ m ∈ ((s.server.peerAt e).poll now (arrivalsFor e datagrams)).1.unreliable,
      m.payload ∈ s.inputs e := by
  intro m hm
  obtain ⟨-, -, hconveys⟩ := PeerLink.packets_reachable h.reachable h.carried
  have hreceived := (hconveys.receiver_foldl h.carried.2
    (h.possible_serve he now hdatagrams)).received
  rw [ServerLoop.iterate_side hseated now hroom h.server] at hreceived
  exact h.inputs ▸ hreceived m.payload (List.mem_append_right _ (List.mem_map_of_mem hm))

theorem reported (h : Linked D s e l) (he : e ∈ D.bots) (hseated : s.server.Seated)
    {now : Micros} {datagrams : List (Endpoint × Arrival)}
    (hdatagrams : ∀ d ∈ datagrams, d.1 ∈ D.bots → d.2.2 ∈ s.up d.1)
    (hroom : (s.server.received D.uniform now datagrams).Roomy) :
    ∀ i ∈ (s.server.mgr.poll now datagrams).1, i.source = e →
      ∀ m ∈ i.delivery.unreliable, m.payload ∈ s.inputs e := by
  intro i hi hsource m hm
  rw [(ServerLoop.poll_reports hseated.drained now datagrams e).2 i hi hsource] at hm
  exact h.polled he hseated hdatagrams hroom m hm

end Linked

end Netcode.System
