import Netcode.Transport.PeerManager

/-!
# Clients of one socket do not disturb each other

`Hub` is the manager on its socket, driven by arriving datagrams, polls, updates
and queue calls in any order. `Solo` is what the same run is for one endpoint
alone: a single peer on a socket of its own, fed only that endpoint's datagrams.
`Simulates` relates the two, and holds along every run that keeps the endpoint.
-/

namespace Netcode.Transport

open Netcode.Library

variable {δ : Type*} [Scalar δ]

inductive HubEvent
  | arrive (source : Endpoint) (a : Arrival)
  | poll (nowUs : Micros)
  | updateAll (nowUs : Micros)
  | queueReliable (who : Endpoint) (payload : Bytes)
  | queueUnreliable (who : Endpoint) (payload : Bytes)
  | remove (who : Endpoint)

structure Hub (δ : Type*) [Scalar δ] where
  manager : PeerManager δ := {}
  socket : List (Endpoint × Arrival) := []
  sent : List (Endpoint × Bytes) := []
  reports : List (List Incoming) := []

/-- Queueing on an endpoint without a peer throws in the source and changes nothing. -/
def Hub.next (h : Hub δ) : HubEvent → Hub δ
  | .arrive source a => { h with socket := h.socket ++ [(source, a)] }
  | .poll nowUs =>
    let r := h.manager.poll nowUs h.socket
    { h with manager := r.2, socket := [], reports := h.reports ++ [r.1] }
  | .updateAll nowUs =>
    let r := h.manager.updateAll nowUs
    { h with manager := r.2, sent := h.sent ++ r.1 }
  | .queueReliable who payload =>
    { h with manager := h.manager.withPeer who fun p => p.queueReliable payload }
  | .queueUnreliable who payload =>
    { h with manager := h.manager.withPeer who fun p => p.queueUnreliable payload }
  | .remove who => { h with manager := h.manager.remove who }

def Hub.run (es : List HubEvent) : Hub δ := es.foldl Hub.next {}

/-- One poll of a peer of its own: whether it is the first, whether a datagram was
waiting, and what it delivered. -/
structure SoloPoll where
  first : Bool
  waiting : Bool
  delivery : Delivery

structure Solo (δ : Type*) [Scalar δ] where
  peer : Option (Peer δ) := none
  socket : List Arrival := []
  sent : List Bytes := []
  polls : List (Option SoloPoll) := []

namespace Solo

/-- The peer exists from the first poll at which a datagram of `e` is waiting. -/
def poll (e : Endpoint) (s : Solo δ) (nowUs : Micros) : Solo δ :=
  if s.peer.isNone ∧ s.socket = [] then { s with polls := s.polls ++ [none] }
  else
    let r := (s.peer.getD { remote := e }).poll nowUs s.socket
    { s with
      peer := some r.2
      socket := []
      polls := s.polls ++ [some ⟨s.peer.isNone, !s.socket.isEmpty, r.1⟩] }

def next (e : Endpoint) (s : Solo δ) : HubEvent → Solo δ
  | .arrive source a => if source = e then { s with socket := s.socket ++ [a] } else s
  | .poll nowUs => s.poll e nowUs
  | .updateAll nowUs =>
    { s with
      peer := s.peer.map fun p => (p.update nowUs).2
      sent := s.sent ++ (s.peer.map fun p => (p.update nowUs).1).getD [] }
  | .queueReliable who payload =>
    if who = e then { s with peer := s.peer.map fun p => p.queueReliable payload } else s
  | .queueUnreliable who payload =>
    if who = e then { s with peer := s.peer.map fun p => p.queueUnreliable payload } else s
  | .remove _ => s

def run (e : Endpoint) (es : List HubEvent) : Solo δ := es.foldl (next e) {}

/-- What the manager is to report for a poll: nothing unless a datagram was waiting. -/
def report (e : Endpoint) : Option SoloPoll → List Incoming
  | none => []
  | some x => if x.waiting then [⟨e, x.first, x.delivery⟩] else []

end Solo

variable {e : Endpoint}

/-- Every inbox is empty and every peer addresses the endpoint it is filed under. -/
def PeerManager.Drained (m : PeerManager δ) : Prop :=
  ∀ k conn, m.conns.lookup k = some conn → conn.inbox = [] ∧ conn.peer.remote = k

namespace PeerManager

variable {m : PeerManager δ}

theorem Drained.poll (hm : m.Drained) (nowUs : Micros) (ds : List (Endpoint × Arrival)) :
    (m.poll nowUs ds).2.Drained := by
  intro k conn hk
  obtain ⟨hconn, -⟩ := poll_view k m nowUs ds fun c hc => (hm k c hc).1
  rw [hconn] at hk
  split_ifs at hk
  · exact hm k conn hk
  · have hconn' := Option.some.inj hk
    subst hconn'
    refine ⟨rfl, ?_⟩
    rw [Peer.poll_remote]
    cases hc : m.conns.lookup k with
    | none => rfl
    | some c => exact (hm k c hc).2

theorem Drained.updateAll (hm : m.Drained) (nowUs : Micros) : (m.updateAll nowUs).2.Drained := by
  intro k conn hk
  simp only [PeerManager.updateAll, SortedMap.lookup_map, Option.map_eq_some_iff] at hk
  obtain ⟨c, hc, hconn⟩ := hk
  subst hconn
  exact ⟨(hm k c hc).1, (Peer.update_remote _ _).trans (hm k c hc).2⟩

theorem Drained.withPeer (hm : m.Drained) (who : Endpoint) {f : Peer δ → Peer δ}
    (hf : ∀ p, (f p).remote = p.remote) : (m.withPeer who f).Drained := by
  intro k conn hk
  rw [lookup_withPeer] at hk
  split_ifs at hk
  · obtain ⟨c, hc, hconn⟩ := Option.map_eq_some_iff.mp hk
    subst hconn
    exact ⟨(hm k c hc).1, (hf c.peer).trans (hm k c hc).2⟩
  · exact hm k conn hk

theorem Drained.remove (hm : m.Drained) (who : Endpoint) : (m.remove who).Drained := by
  intro k conn hk
  simp only [PeerManager.remove, SortedMap.lookup_erase] at hk
  split_ifs at hk
  exact hm k conn hk

theorem Drained.sent (hm : m.Drained) (nowUs : Micros) (e : Endpoint) :
    ((m.updateAll nowUs).1.filter fun d => d.1 = e).map Prod.snd =
      ((m.conns.lookup e).map fun conn => (conn.peer.update nowUs).1).getD [] := by
  have hremote : ∀ x ∈ m.conns.entries,
      (((x.2.peer.update nowUs).1.map fun d => (x.2.peer.remote, d)) : List (Endpoint × Bytes)) =
        (x.2.peer.update nowUs).1.map fun d => (x.1, d) := by
    intro x hx
    rw [(hm x.1 x.2 (SortedMap.lookup_eq_some_iff.mpr hx)).2]
  simp only [PeerManager.updateAll, List.flatMap_congr hremote]
  exact SortedMap.filter_flatMap_entries m.conns (fun _ conn => (conn.peer.update nowUs).1) e

end PeerManager

theorem Hub.drained_next {h : Hub δ} (hm : h.manager.Drained) (ev : HubEvent) :
    (h.next ev).manager.Drained := by
  cases ev with
  | arrive source a => exact hm
  | poll nowUs => exact hm.poll nowUs h.socket
  | updateAll nowUs => exact hm.updateAll nowUs
  | queueReliable who payload => exact hm.withPeer who fun _ => rfl
  | queueUnreliable who payload => exact hm.withPeer who fun _ => rfl
  | remove who => exact hm.remove who

structure Simulates (e : Endpoint) (h : Hub δ) (s : Solo δ) : Prop where
  drained : h.manager.Drained
  conn : h.manager.conns.lookup e = s.peer.map fun p => ⟨[], p⟩
  socket : arrivalsFor e h.socket = s.socket
  sent : (h.sent.filter fun d => d.1 = e).map Prod.snd = s.sent
  reports : h.reports.map (fun r => r.filter fun i => i.source = e) =
    s.polls.map (Solo.report e)

namespace Simulates

variable {h : Hub δ} {s : Solo δ}

theorem init (e : Endpoint) : Simulates e ({} : Hub δ) {} where
  drained := fun k conn hk => by simp at hk
  conn := rfl
  socket := rfl
  sent := rfl
  reports := rfl

theorem arrive (sim : Simulates e h s) (source : Endpoint) (a : Arrival) :
    Simulates e (h.next (.arrive source a)) (s.next e (.arrive source a)) where
  drained := sim.drained
  conn := by
    simp only [Solo.next]
    split_ifs <;> exact sim.conn
  socket := by
    simp only [Hub.next, Solo.next, arrivalsFor_append, arrivalsFor_cons, sim.socket]
    split_ifs
    · rfl
    · exact List.append_nil _
  sent := by
    simp only [Solo.next]
    split_ifs <;> exact sim.sent
  reports := by
    simp only [Solo.next]
    split_ifs <;> exact sim.reports

theorem poll (sim : Simulates e h s) (nowUs : Micros) :
    Simulates e (h.next (.poll nowUs)) (s.next e (.poll nowUs)) := by
  have hpeer : (h.manager.conns.lookup e).map Conn.peer = s.peer := by
    rw [sim.conn]
    cases s.peer <;> rfl
  have hisNone : (h.manager.conns.lookup e).isNone = s.peer.isNone := by
    rw [sim.conn]
    cases s.peer <;> rfl
  obtain ⟨hconn, hreport⟩ := h.manager.poll_view e nowUs h.socket
    fun c hc => (sim.drained e c hc).1
  rw [sim.socket, hpeer] at hconn hreport
  rw [hisNone] at hreport
  refine ⟨Hub.drained_next sim.drained _, ?_, ?_, ?_, ?_⟩
  · simp only [Hub.next, Solo.next, Solo.poll]
    rw [hconn]
    by_cases hnil : s.socket = []
    · cases hp : s.peer with
      | none => simp [hnil, sim.conn, hp]
      | some p => simp [hnil, sim.conn, hp, Peer.poll_nil]
    · simp [hnil]
  · simp only [Hub.next, Solo.next, Solo.poll]
    split_ifs with hidle
    · exact hidle.2.symm
    · rfl
  · simp only [Hub.next, Solo.next, Solo.poll]
    split_ifs <;> exact sim.sent
  · simp only [Hub.next, Solo.next, Solo.poll]
    rw [List.map_append, sim.reports, List.map_singleton, hreport]
    by_cases hnil : s.socket = []
    · cases hp : s.peer with
      | none => simp [hnil, Solo.report]
      | some p => simp [hnil, Solo.report]
    · simp [hnil, Solo.report]

theorem updateAll (sim : Simulates e h s) (nowUs : Micros) :
    Simulates e (h.next (.updateAll nowUs)) (s.next e (.updateAll nowUs)) where
  drained := Hub.drained_next sim.drained _
  conn := by
    simp only [Hub.next, Solo.next, PeerManager.updateAll, SortedMap.lookup_map, sim.conn]
    cases s.peer <;> rfl
  socket := sim.socket
  sent := by
    simp only [Hub.next, Solo.next, List.filter_append, List.map_append, sim.sent,
      sim.drained.sent nowUs e, sim.conn]
    cases s.peer <;> rfl
  reports := sim.reports

theorem withPeer (sim : Simulates e h s) (who : Endpoint) {f : Peer δ → Peer δ}
    (hf : ∀ p, (f p).remote = p.remote) :
    Simulates e { h with manager := h.manager.withPeer who f }
      (if who = e then { s with peer := s.peer.map f } else s) where
  drained := sim.drained.withPeer who hf
  conn := by
    simp only [PeerManager.lookup_withPeer, sim.conn]
    split_ifs
    · cases s.peer <;> rfl
    · rfl
  socket := by split_ifs <;> exact sim.socket
  sent := by split_ifs <;> exact sim.sent
  reports := by split_ifs <;> exact sim.reports

theorem remove (sim : Simulates e h s) {who : Endpoint} (hwho : who ≠ e) :
    Simulates e (h.next (.remove who)) (s.next e (.remove who)) where
  drained := Hub.drained_next sim.drained _
  conn := by
    simp only [Hub.next, PeerManager.remove, SortedMap.lookup_erase, if_neg hwho]
    exact sim.conn
  socket := sim.socket
  sent := sim.sent
  reports := sim.reports

theorem next (sim : Simulates e h s) {ev : HubEvent} (hev : ev ≠ .remove e) :
    Simulates e (h.next ev) (s.next e ev) := by
  cases ev with
  | arrive source a => exact sim.arrive source a
  | poll nowUs => exact sim.poll nowUs
  | updateAll nowUs => exact sim.updateAll nowUs
  | queueReliable who payload => exact sim.withPeer who fun _ => rfl
  | queueUnreliable who payload => exact sim.withPeer who fun _ => rfl
  | remove who =>
    apply sim.remove
    intro hwho
    rw [hwho] at hev
    exact hev rfl

theorem foldl (sim : Simulates e h s) {es : List HubEvent} (hes : ∀ ev ∈ es, ev ≠ .remove e) :
    Simulates e (es.foldl Hub.next h) (es.foldl (Solo.next e) s) := by
  induction es generalizing h s with
  | nil => exact sim
  | cons ev es ih =>
    have hstep := sim.next (hes ev List.mem_cons_self)
    exact ih hstep fun ev' hev' => hes ev' (List.mem_cons_of_mem ev hev')

end Simulates

namespace Solo

def newFlags (e : Endpoint) (s : Solo δ) : List Bool :=
  (s.polls.flatMap (report e)).map Incoming.isNew

/-- A poll that goes unreported delivers nothing, and only the first report is new. -/
structure Regular (e : Endpoint) (s : Solo δ) : Prop where
  quiet : ∀ x, some x ∈ s.polls → x.waiting = false → x.delivery = {}
  unseen : s.peer = none → s.newFlags e = []
  seen : s.peer ≠ none → ∃ n, s.newFlags e = true :: List.replicate n false

theorem Regular.of_polls_eq {s t : Solo δ} (hs : s.Regular e) (hpolls : t.polls = s.polls)
    (hpeer : t.peer = none ↔ s.peer = none) : t.Regular e where
  quiet := by
    rw [hpolls]
    exact hs.quiet
  unseen := fun ht => by
    rw [newFlags, hpolls]
    exact hs.unseen (hpeer.mp ht)
  seen := fun ht => by
    rw [newFlags, hpolls]
    exact hs.seen fun h => ht (hpeer.mpr h)

theorem Regular.poll {s : Solo δ} (hs : s.Regular e) (nowUs : Micros) :
    (s.poll e nowUs).Regular e := by
  rw [Solo.poll]
  split_ifs with hidle
  · refine ⟨fun x hx => ?_, fun hp => ?_, fun hp => absurd ?_ hp⟩
    · simp only [List.mem_append, List.mem_singleton, reduceCtorEq, or_false] at hx
      exact hs.quiet x hx
    · simpa [newFlags, report] using hs.unseen hp
    · exact Option.isNone_iff_eq_none.mp hidle.1
  · refine ⟨fun x hx hx' => ?_, fun hp => by simp at hp, fun _ => ?_⟩
    · rcases List.mem_append.mp hx with hx | hx
      · exact hs.quiet x hx hx'
      · have hxs := Option.some.inj (List.mem_singleton.mp hx)
        subst hxs
        have hnil : s.socket = [] := by simpa using hx'
        rw [hnil]
        rfl
    · simp only [newFlags, List.flatMap_append, List.map_append, List.flatMap_singleton]
      cases hp : s.peer with
      | none =>
        have hsock : s.socket ≠ [] := fun h => hidle ⟨by simp [hp], h⟩
        have hflags := hs.unseen hp
        rw [newFlags] at hflags
        exact ⟨0, by simp [hflags, report, hsock]⟩
      | some p =>
        obtain ⟨n, hn⟩ := hs.seen (by simp [hp])
        rw [newFlags] at hn
        rw [hn]
        by_cases hsock : s.socket = []
        · exact ⟨n, by simp [report, hsock]⟩
        · exact ⟨n + 1, by simp [report, hsock, List.replicate_succ']⟩

theorem Regular.next {s : Solo δ} (hs : s.Regular e) (ev : HubEvent) :
    (s.next e ev).Regular e := by
  cases ev with
  | arrive source a =>
    simp only [Solo.next]
    split_ifs
    · exact hs.of_polls_eq rfl Iff.rfl
    · exact hs
  | poll nowUs => exact hs.poll nowUs
  | updateAll nowUs => exact hs.of_polls_eq rfl Option.map_eq_none_iff
  | queueReliable who payload =>
    simp only [Solo.next]
    split_ifs
    · exact hs.of_polls_eq rfl Option.map_eq_none_iff
    · exact hs
  | queueUnreliable who payload =>
    simp only [Solo.next]
    split_ifs
    · exact hs.of_polls_eq rfl Option.map_eq_none_iff
    · exact hs
  | remove who => exact hs

theorem Regular.foldl {s : Solo δ} (hs : s.Regular e) (es : List HubEvent) :
    (es.foldl (Solo.next e) s).Regular e := by
  induction es generalizing s with
  | nil => exact hs
  | cons ev es ih => exact ih (hs.next ev)

theorem Regular.init (e : Endpoint) : ({} : Solo δ).Regular e where
  quiet := fun x hx => by simp at hx
  unseen := fun _ => rfl
  seen := fun h => absurd rfl h

end Solo

/-- For every endpoint that is kept, the manager's run is the run of a peer of its
own: the same peer with the same counters, the same datagrams sent, the same
deliveries, a report for each poll that found a datagram, new on the first alone. -/
theorem Hub.isolates (e : Endpoint) (es : List HubEvent)
    (hkeep : ∀ ev ∈ es, ev ≠ .remove e) :
    let h : Hub δ := Hub.run es
    let s : Solo δ := Solo.run e es
    (h.manager.conns.lookup e).map Conn.peer = s.peer ∧
      (h.sent.filter fun d => d.1 = e).map Prod.snd = s.sent ∧
      h.reports.map (fun r => r.filter fun i => i.source = e) = s.polls.map (Solo.report e) ∧
      (∀ x, some x ∈ s.polls → x.waiting = false → x.delivery = {}) ∧
      ((h.reports.flatten.filter fun i => i.source = e).map Incoming.isNew = [] ∧ s.peer = none ∨
        ∃ n, (h.reports.flatten.filter fun i => i.source = e).map Incoming.isNew =
          true :: List.replicate n false) := by
  have sim : Simulates e (Hub.run es : Hub δ) (Solo.run e es) :=
    (Simulates.init e).foldl hkeep
  have reg : (Solo.run e es : Solo δ).Regular e := (Solo.Regular.init e).foldl es
  have hpeer : ((Hub.run es : Hub δ).manager.conns.lookup e).map Conn.peer =
      (Solo.run e es : Solo δ).peer := by
    rw [sim.conn]
    cases (Solo.run e es : Solo δ).peer <;> rfl
  have hflags : ((Hub.run es : Hub δ).reports.flatten.filter fun i => i.source = e).map
      Incoming.isNew = (Solo.run e es : Solo δ).newFlags e := by
    rw [Solo.newFlags, List.flatMap_def, ← sim.reports, List.filter_flatten]
  refine ⟨hpeer, sim.sent, sim.reports, reg.quiet, ?_⟩
  rw [hflags]
  by_cases hp : (Solo.run e es : Solo δ).peer = none
  · exact Or.inl ⟨reg.unseen hp, hp⟩
  · exact Or.inr (reg.seen hp)

def clientA : Endpoint := ⟨"127.0.0.1", 4001⟩

def clientB : Endpoint := ⟨"127.0.0.1", 4002⟩

def twoClients : List HubEvent :=
  [.arrive clientA (VisitOrder.ascending, [0, 1]), .arrive clientB (VisitOrder.ascending, []),
    .poll 0, .queueReliable clientA [7], .updateAll 10, .remove clientB,
    .arrive clientA (VisitOrder.ascending, [2]), .poll 20]

theorem Hub.isolates_twoClients :
    ((Hub.run twoClients : Hub ℚ).sent.filter fun d => d.1 = clientA).map Prod.snd =
        (Solo.run clientA twoClients : Solo ℚ).sent ∧
      (Hub.run twoClients : Hub ℚ).reports.map (fun r => r.filter fun i => i.source = clientA) =
        (Solo.run clientA twoClients : Solo ℚ).polls.map (Solo.report clientA) ∧
      (Solo.run clientA twoClients : Solo ℚ).newFlags clientA = [true, false] := by
  have h := Hub.isolates (δ := ℚ) clientA twoClients (by simp [twoClients, clientA, clientB])
  exact ⟨h.2.1, h.2.2.1, by decide⟩

end Netcode.Transport
