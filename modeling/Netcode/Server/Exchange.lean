import Netcode.Server.Players
import Netcode.Transport.PeerLink

/-!
# An iteration of the server, seen from one endpoint

Of all that an iteration does, an endpoint has to do with a poll of its own
datagrams, the blob that is queued for it and an update: its peer on the server
is one side of a `PeerLink`, whatever the server does for other endpoints.
-/

namespace Netcode.Server.ServerLoop

open Netcode.Library Netcode.Sim Netcode.Transport

variable {δ ρ : Type*} [Scalar δ]

def peerAt (s : ServerLoop δ ρ) (e : Endpoint) : Peer δ :=
  ((s.mgr.conns.lookup e).map Conn.peer).getD { remote := e }

def sentTo (e : Endpoint) (sent : List (Endpoint × Bytes)) : List Bytes :=
  (sent.filter fun d => d.1 = e).map Prod.snd

def reliableFrom (e : Endpoint) (reports : List Incoming) : List Message :=
  (reports.filter fun i => i.source = e).flatMap fun i => i.delivery.reliable

def blobsTo (s : ServerLoop δ ρ) (e : Endpoint) : List Bytes :=
  if (s.mgr.conns.lookup e).isSome ∧ s.pushed.blob e ≠ [] then [s.pushed.blob e] else []

def flushesTo (s : ServerLoop δ ρ) (now : Micros) (e : Endpoint) : List Packet :=
  ((s.mgr.conns.lookup e).map fun conn => conn.peer.flushes now).getD []

section

variable [Fmod δ]

def aired (s : ServerLoop δ ρ) (now : Micros) (e : Endpoint) : List Bytes :=
  let r := s.advance now
  if 0 < r.1 then r.2.blobsTo e else []

def recorded (s : ServerLoop δ ρ) (now : Micros) : List (WorldSnapshot Extended) :=
  let r := s.advance now
  if 0 < r.1 ∧ 0 < r.2.mgr.size then [⟨r.2.tick, r.2.world.snapshot⟩] else []

def actions (uniform : Extended → ρ → Extended × ρ) (s : ServerLoop δ ρ) (now : Micros)
    (datagrams : List (Endpoint × Arrival)) (e : Endpoint) : List PeerAction :=
  let r := s.received uniform now datagrams
  .poll now (arrivalsFor e datagrams) ::
    if (r.mgr.conns.lookup e).isSome then
      (r.aired now e).map .queueUnreliable ++ [.update now]
    else []

end

variable {uniform : Extended → ρ → Extended × ρ} {s : ServerLoop δ ρ} {e : Endpoint}
  {now : Micros} {datagrams : List (Endpoint × Arrival)}

theorem received_mgr : (s.received uniform now datagrams).mgr = (s.mgr.poll now datagrams).2 :=
  foldl_ingest_mgr _

theorem poll_reports (hdrained : s.mgr.Drained) (now : Micros)
    (datagrams : List (Endpoint × Arrival)) (e : Endpoint) :
    reliableFrom e (s.mgr.poll now datagrams).1 =
        ((s.peerAt e).poll now (arrivalsFor e datagrams)).1.reliable ∧
      ∀ i ∈ (s.mgr.poll now datagrams).1, i.source = e →
        i.delivery = ((s.peerAt e).poll now (arrivalsFor e datagrams)).1 := by
  obtain ⟨-, hreports⟩ := s.mgr.poll_view e now datagrams fun c hc => (hdrained e c hc).1
  constructor
  · rw [reliableFrom, hreports]
    split_ifs with hnil
    · rw [hnil, Peer.poll_nil]
      rfl
    · exact List.append_nil _
  · intro i hi hsource
    have hmem : i ∈ (s.mgr.poll now datagrams).1.filter fun i => i.source = e :=
      List.mem_filter.mpr ⟨hi, decide_eq_true hsource⟩
    rw [hreports] at hmem
    split_ifs at hmem
    · exact absurd hmem List.not_mem_nil
    · exact congrArg Incoming.delivery (List.mem_singleton.mp hmem)

theorem poll_cases (hdrained : s.mgr.Drained) (now : Micros)
    (datagrams : List (Endpoint × Arrival)) (e : Endpoint) :
    (∃ conn, (s.mgr.poll now datagrams).2.conns.lookup e = some conn ∧
        conn.peer = ((s.peerAt e).poll now (arrivalsFor e datagrams)).2) ∨
      (s.mgr.poll now datagrams).2.conns.lookup e = none ∧
        ((s.peerAt e).poll now (arrivalsFor e datagrams)) = ({}, { remote := e }) := by
  obtain ⟨hconn, -⟩ := s.mgr.poll_view e now datagrams fun c hc => (hdrained e c hc).1
  rw [hconn]
  split_ifs with hnil
  · rw [hnil, Peer.poll_nil, peerAt]
    cases s.mgr.conns.lookup e with
    | none => exact Or.inr ⟨rfl, rfl⟩
    | some conn => exact Or.inl ⟨conn, rfl, rfl⟩
  · exact Or.inl ⟨_, rfl, rfl⟩

theorem foldl_ingest_reliableEvents (uniform : Extended → ρ → Extended × ρ)
    (reports : List Incoming) (s : ServerLoop δ ρ) :
    (reports.foldl (ingest uniform) s).reliableEvents = s.reliableEvents +
      UInt64.ofNat (reports.map fun i => i.delivery.reliable.length).sum := by
  induction reports generalizing s with
  | nil => exact (UInt64.add_zero _).symm
  | cons i reports ih =>
    have hfirst : (s.ingest uniform i).reliableEvents =
        s.reliableEvents + UInt64.ofNat i.delivery.reliable.length := by
      rw [ingest, welcome]
      split_ifs <;> rfl
    rw [List.foldl_cons, ih, hfirst, List.map_cons, List.sum_cons, UInt64.ofNat_add,
      UInt64.add_assoc]

theorem length_flushesTo_le (s : ServerLoop δ ρ) (now : Micros) (e : Endpoint) :
    (s.flushesTo now e).length ≤ 1 := by
  rw [flushesTo]
  cases s.mgr.conns.lookup e with
  | none => exact Nat.zero_le 1
  | some conn => exact conn.peer.length_flushes_le now

theorem foldl_queueUnreliable (x : PeerSide δ) (payloads : List Bytes) :
    (payloads.map PeerAction.queueUnreliable).foldl PeerSide.act x =
      { x with
        peer := payloads.foldl Peer.queueUnreliable x.peer
        offered := x.offered ++ payloads } := by
  induction payloads generalizing x with
  | nil => simp
  | cons payload payloads ih => simp [ih, PeerSide.act]

variable [Fmod δ]

theorem served_lookup (h : (s.advance now).2.Known) (e : Endpoint) :
    (s.served now).mgr.conns.lookup e = (s.mgr.conns.lookup e).map fun conn =>
      { conn with peer := (s.aired now e).foldl Peer.queueUnreliable conn.peer } := by
  have hmgr : (s.advance now).2.mgr = s.mgr := rfl
  rw [served]
  cases hlook : s.mgr.conns.lookup e with
  | none =>
    split_ifs
    · rw [h.broadcast_spec.2 e, hmgr, hlook]
      rfl
    · exact hlook
  | some conn =>
    have hsize : 0 < (s.advance now).2.mgr.size :=
      List.length_pos_of_mem (SortedMap.lookup_eq_some_iff.mp (hmgr ▸ hlook))
    simp only [aired, blobsTo, hmgr, hlook, Option.isSome_some, true_and]
    by_cases hsteps : 0 < (s.advance now).1
    · rw [if_pos ⟨hsteps, hsize⟩, h.broadcast_spec.2 e, hmgr, hlook, Option.map_some,
        Option.map_some, queueBlob]
      by_cases hblob : (s.advance now).2.pushed.blob e = []
      · simp [hblob]
      · simp [hblob, hsteps]
    · rw [if_neg fun hcond => hsteps hcond.1, if_neg hsteps]
      exact hlook

theorem served_untouched (h : s.Seated) (hroom : (s.received uniform now datagrams).Roomy)
    (e : Endpoint) :
    (∃ conn, ((s.received uniform now datagrams).served now).mgr.conns.lookup e = some conn ∧
        (s.peerAt e).Untouched conn.peer) ∨
      ((s.received uniform now datagrams).served now).mgr.conns.lookup e = none ∧
        (s.peerAt e).Untouched { remote := e } := by
  have hlook := served_lookup ((h.received hroom).advance now).known e
  have hpolled := (s.peerAt e).untouched_poll now (arrivalsFor e datagrams)
  rw [hlook, received_mgr]
  rcases poll_cases h.drained now datagrams e with ⟨conn, hconn, hpeer⟩ | ⟨hnone, hidle⟩
  · rw [← hpeer] at hpolled
    rw [hconn]
    exact Or.inl ⟨_, rfl, hpolled.trans (conn.peer.untouched_queueUnreliable _)⟩
  · rw [hidle] at hpolled
    rw [hnone]
    exact Or.inr ⟨rfl, hpolled⟩

theorem served_clients (h : (s.advance now).2.Known) :
    (s.served now).clients = s.clients ∧ (s.served now).reliableEvents = s.reliableEvents := by
  rw [served]
  split_ifs
  · obtain ⟨haired, -⟩ := h.broadcast_spec
    exact ⟨haired.clients, haired.reliableEvents⟩
  · exact ⟨rfl, rfl⟩

theorem iterate_side (h : s.Seated) (now : Micros) {datagrams : List (Endpoint × Arrival)}
    (hroom : (s.received uniform now datagrams).Roomy) {x : PeerSide δ}
    (hx : x.peer = s.peerAt e) :
    (s.actions uniform now datagrams e).foldl PeerSide.act x =
      { peer := (s.iterate uniform now datagrams).2.peerAt e
        wire := x.wire ++ sentTo e (s.iterate uniform now datagrams).1
        flushed := x.flushed ++
          ((s.received uniform now datagrams).served now).flushesTo now e
        queued := x.queued
        offered := x.offered ++ (s.received uniform now datagrams).aired now e
        delivered := x.delivered ++ reliableFrom e (s.mgr.poll now datagrams).1
        received := x.received ++
          ((s.peerAt e).poll now (arrivalsFor e datagrams)).1.unreliable.map (·.payload) } := by
  have hreceived := h.received hroom
  have hserved := (hreceived.served now).drained
  have hlook := served_lookup (hreceived.advance now).known e
  have hreliable := (poll_reports h.drained now datagrams e).1
  have hsent : sentTo e (s.iterate uniform now datagrams).1 = _ := hserved.sent now e
  have hpeer : (s.iterate uniform now datagrams).2.mgr.conns.lookup e = _ :=
    SortedMap.lookup_map ..
  rw [hsent, hreliable, peerAt, hpeer, flushesTo, hlook, actions, received_mgr]
  rcases poll_cases h.drained now datagrams e with ⟨conn, hconn, hpoll⟩ | ⟨hnone, hidle⟩
  · simp only [hconn, Option.isSome_some, if_true, Option.map_some, Option.getD_some,
      List.foldl_cons, List.foldl_append, List.foldl_nil, foldl_queueUnreliable]
    simp only [PeerSide.act, hx, hpoll]
  · have haired : (s.received uniform now datagrams).aired now e = [] := by
      have hmgr : ((s.received uniform now datagrams).advance now).2.mgr =
          (s.mgr.poll now datagrams).2 := received_mgr
      simp [aired, blobsTo, hmgr, hnone]
    simp only [hnone, haired, Option.isSome_none, Bool.false_eq_true, if_false, Option.map_none,
      Option.getD_none, List.foldl_cons, List.foldl_nil, List.append_nil]
    simp only [PeerSide.act, hx, hidle, List.append_nil, List.map_nil]

end Netcode.Server.ServerLoop
