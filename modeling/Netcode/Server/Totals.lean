import Mathlib.Data.UInt
import Netcode.Server.Report
import Netcode.Server.Service

/-!
# What the metrics count

At each report every counter of the metrics is what the run has done up to then: the
bytes and packets sent, the reliable messages taken, the keyframes and deltas queued.
No byte is counted twice or missed, however the reports fall.
-/

namespace Netcode.Server

open Netcode.Library Netcode.Sim Netcode.Transport

inductive Count
  | bytes
  | packets
  | events
  | keyframes
  | deltas

variable {δ ρ : Type*} [Scalar δ]

def ServerLoop.counter (s : ServerLoop δ ρ) : Count → UInt64
  | .bytes => s.mgr.totalBytesSent
  | .packets => s.mgr.totalPacketsSent
  | .events => s.reliableEvents
  | .keyframes => s.keyframePackets
  | .deltas => s.deltaPackets

def Reporter.last (r : Reporter δ) : Count → UInt64
  | .bytes => r.lastBytes
  | .packets => r.lastPackets
  | .events => r.lastReliableEvents
  | .keyframes => r.lastKeyframePackets
  | .deltas => r.lastDeltaPackets

def Metrics.counter (m : Metrics δ) : Count → δ
  | .bytes => m.egressBytes
  | .packets => m.egressPackets
  | .events => m.reliableEvents
  | .keyframes => m.keyframePackets
  | .deltas => m.deltaPackets

variable {increment : δ → δ → δ}

theorem Reporter.feed_counter (r : Reporter δ) (s : ServerLoop δ ρ) (now : Micros) (c : Count) :
    (r.feed increment s now).counter c =
      increment (r.metrics.counter c) (ofCount (s.counter c - r.last c)) := by
  cases c <;> rfl

theorem Reporter.report_counter {r : Reporter δ} {now : Micros} (hdue : r.reportAt ≤ now)
    (s : ServerLoop δ ρ) (c : Count) : (r.report increment s now).last c = s.counter c ∧
      (r.report increment s now).metrics.counter c =
        increment (r.metrics.counter c) (ofCount (s.counter c - r.last c)) := by
  rw [report, if_pos hdue]
  exact ⟨by cases c <;> rfl, r.feed_counter s now c⟩

namespace ServerLoop

variable [Fmod δ]

def queuedBlobs (s : ServerLoop δ ρ) (now : Micros) : List Bytes :=
  s.mgr.endpoints.flatMap (s.aired now)

def done (uniform : Extended → ρ → Extended × ρ) (s : ServerLoop δ ρ) (now : Micros)
    (datagrams : List (Endpoint × Arrival)) : Count → ℕ
  | .bytes => ((s.iterate uniform now datagrams).1.map fun d => d.2.length).sum
  | .packets => (((s.received uniform now datagrams).served now).mgr.conns.values.map
      fun conn => (conn.peer.flushes now).length).sum
  | .events => ((s.mgr.poll now datagrams).1.map fun i => i.delivery.reliable.length).sum
  | .keyframes => ((s.received uniform now datagrams).queuedBlobs now).countP isKeyframe
  | .deltas => ((s.received uniform now datagrams).queuedBlobs now).countP isDelta

end ServerLoop

theorem sum_updated {w : Peer δ → UInt64} {g : Peer δ → ℕ} {now : Micros}
    (h : ∀ p : Peer δ, w (p.update now).2 = w p + UInt64.ofNat (g p))
    (conns : SortedMap Endpoint (Conn δ)) :
    ((conns.map fun _ conn => { conn with peer := (conn.peer.update now).2 }).values.map
        fun conn => w conn.peer).sum = (conns.values.map fun conn => w conn.peer).sum +
      UInt64.ofNat (conns.values.map fun conn => g conn.peer).sum := by
  obtain ⟨es, hes⟩ := conns
  simp only [SortedMap.map, SortedMap.values, List.map_map]
  clear hes
  induction es with
  | nil => rfl
  | cons e es ih =>
    simp only [List.map_cons, List.sum_cons, Function.comp_apply, h, UInt64.ofNat_add, ih]
    exact add_add_add_comm _ _ _ _

namespace ServerLoop

theorem totalBytesSent_eq (m : PeerManager δ) :
    m.totalBytesSent = (m.conns.values.map fun conn => conn.peer.bytesSent).sum := by
  rw [PeerManager.totalBytesSent, SortedMap.values, List.map_map, List.sum_eq_foldl,
    List.foldl_map]
  rfl

theorem totalPacketsSent_eq (m : PeerManager δ) :
    m.totalPacketsSent = (m.conns.values.map fun conn => conn.peer.packetsSent).sum := by
  rw [PeerManager.totalPacketsSent, SortedMap.values, List.map_map, List.sum_eq_foldl,
    List.foldl_map]
  rfl

theorem weight_peerAt {w : Peer δ → UInt64} (hw : ∀ remote, w { remote := remote } = 0)
    (s : ServerLoop δ ρ) (e : Endpoint) :
    s.mgr.conns.weight (fun conn => w conn.peer) e = w (s.peerAt e) := by
  rw [SortedMap.weight, peerAt]
  cases s.mgr.conns.lookup e with
  | none => exact (hw e).symm
  | some conn => rfl

variable [Fmod δ] {uniform : Extended → ρ → Extended × ρ} {s : ServerLoop δ ρ} {now : Micros}
  {datagrams : List (Endpoint × Arrival)}

theorem sum_served (h : s.Seated) (hroom : (s.received uniform now datagrams).Roomy)
    {w : Peer δ → UInt64} (hw : ∀ remote, w { remote := remote } = 0)
    (hsame : ∀ p q : Peer δ, p.Untouched q → w q = w p) :
    (((s.received uniform now datagrams).served now).mgr.conns.values.map
        fun conn => w conn.peer).sum = (s.mgr.conns.values.map fun conn => w conn.peer).sum := by
  refine SortedMap.sum_values_congr fun e => ?_
  have huntouched : (s.peerAt e).Untouched
      (((s.received uniform now datagrams).served now).peerAt e) := by
    have hserved := served_untouched h hroom e
    generalize (s.received uniform now datagrams).served now = t at hserved
    rcases hserved with ⟨conn, hconn, huntouched⟩ | ⟨hnone, huntouched⟩
    · have hpeer : t.peerAt e = conn.peer := by
        rw [peerAt, hconn, Option.map_some, Option.getD_some]
      exact hpeer ▸ huntouched
    · have hpeer : t.peerAt e = { remote := e } := by
        rw [peerAt, hnone, Option.map_none, Option.getD_none]
      exact hpeer ▸ huntouched
  rw [weight_peerAt hw, weight_peerAt hw, hsame _ _ huntouched]

theorem iterate_bytes (h : s.Seated) (hroom : (s.received uniform now datagrams).Roomy) :
    (s.iterate uniform now datagrams).2.mgr.totalBytesSent =
      s.mgr.totalBytesSent + UInt64.ofNat (s.done uniform now datagrams .bytes) := by
  have hbytes : s.done uniform now datagrams .bytes =
      (((s.received uniform now datagrams).served now).mgr.conns.values.map fun conn =>
        ((conn.peer.update now).1.map List.length).sum).sum := by
    rw [done, iterate, PeerManager.updateAll, List.map_flatMap, List.flatMap_def,
      List.sum_flatten, SortedMap.values]
    simp only [List.map_map, Function.comp_def]
  rw [hbytes, totalBytesSent_eq, totalBytesSent_eq, ← sum_served h hroom (fun _ => rfl)
    fun p q hpq => hpq.bytesSent]
  exact sum_updated (fun p => p.update_bytesSent now) _

theorem iterate_packets (h : s.Seated) (hroom : (s.received uniform now datagrams).Roomy) :
    (s.iterate uniform now datagrams).2.mgr.totalPacketsSent =
      s.mgr.totalPacketsSent + UInt64.ofNat (s.done uniform now datagrams .packets) := by
  rw [totalPacketsSent_eq, totalPacketsSent_eq, ← sum_served h hroom (fun _ => rfl)
    fun p q hpq => hpq.packetsSent]
  exact sum_updated (fun p => p.update_packetsSent now) _

theorem iterate_events (h : s.Seated) (hroom : (s.received uniform now datagrams).Roomy) :
    (s.iterate uniform now datagrams).2.reliableEvents =
      s.reliableEvents + UInt64.ofNat (s.done uniform now datagrams .events) := by
  have hserved := (served_clients ((h.received hroom).advance now).known).2
  exact hserved.trans (foldl_ingest_reliableEvents ..)

theorem countP_queuedBlobs {p : Bytes → Bool} (hp : p [] = false)
    (hsteps : 0 < (s.advance now).1) : (s.queuedBlobs now).countP p =
      (s.mgr.endpoints.map (s.advance now).2.pushed.blob).countP p := by
  rw [queuedBlobs, List.map_eq_flatMap, List.countP_flatMap, List.countP_flatMap]
  congr 1
  refine List.map_congr_left fun e he => ?_
  have hconn : ((s.advance now).2.mgr.conns.lookup e).isSome :=
    Option.isSome_iff_exists.mpr (SortedMap.mem_keys.mp he)
  have haired : s.aired now e = (s.advance now).2.blobsTo e := if_pos hsteps
  rw [Function.comp_apply, Function.comp_apply, haired, blobsTo]
  by_cases hblob : (s.advance now).2.pushed.blob e = []
  · simp [hblob, hp]
  · simp [hblob, hconn]

theorem served_kinds (h : (s.advance now).2.Known) :
    (s.served now).keyframePackets =
        s.keyframePackets + UInt64.ofNat ((s.queuedBlobs now).countP isKeyframe) ∧
      (s.served now).deltaPackets =
        s.deltaPackets + UInt64.ofNat ((s.queuedBlobs now).countP isDelta) := by
  rw [served]
  split_ifs with hcond
  · rw [countP_queuedBlobs rfl hcond.1, countP_queuedBlobs rfl hcond.1]
    exact foldl_broadcastTo_kinds (s := (s.advance now).2.pushed) _ fun e he =>
      (h e).mp (Option.isSome_iff_exists.mpr (SortedMap.mem_keys.mp he))
  · have hquiet : s.queuedBlobs now = [] := by
      refine List.flatMap_eq_nil_iff.mpr fun e he => ?_
      have hsize : 0 < (s.advance now).2.mgr.size := by
        have hlength := List.length_pos_of_mem he
        rwa [PeerManager.endpoints, SortedMap.keys, List.length_map] at hlength
      exact if_neg fun hsteps => hcond ⟨hsteps, hsize⟩
    rw [hquiet]
    exact ⟨(UInt64.add_zero _).symm, (UInt64.add_zero _).symm⟩

theorem iterate_kinds (h : s.Seated) (hroom : (s.received uniform now datagrams).Roomy) :
    (s.iterate uniform now datagrams).2.keyframePackets =
        s.keyframePackets + UInt64.ofNat (s.done uniform now datagrams .keyframes) ∧
      (s.iterate uniform now datagrams).2.deltaPackets =
        s.deltaPackets + UInt64.ofNat (s.done uniform now datagrams .deltas) := by
  obtain ⟨hkey, hdelta⟩ := foldl_ingest_counters uniform (s.mgr.poll now datagrams).1
    { s with mgr := (s.mgr.poll now datagrams).2 }
  obtain ⟨hkeys, hdeltas⟩ := served_kinds ((h.received hroom).advance now).known
  exact ⟨hkeys.trans (congrArg (· + _) hkey), hdeltas.trans (congrArg (· + _) hdelta)⟩

theorem iterate_counter (h : s.Seated) (hroom : (s.received uniform now datagrams).Roomy)
    (c : Count) : (s.iterate uniform now datagrams).2.counter c =
      s.counter c + UInt64.ofNat (s.done uniform now datagrams c) :=
  match c with
  | .bytes => iterate_bytes h hroom
  | .packets => iterate_packets h hroom
  | .events => iterate_events h hroom
  | .keyframes => (iterate_kinds h hroom).1
  | .deltas => (iterate_kinds h hroom).2

end ServerLoop

/-- The server with its reporter, and all that the server has done. -/
structure Audited (ρ : Type*) where
  state : Reported ℚ ρ
  totals : Count → ℕ

namespace Audited

variable {ρ : Type*} {uniform : Extended → ρ → Extended × ρ} {increment : ℚ → ℚ → ℚ}
  {bound : Extended} {seed : ρ} {begun : Micros} {s : Audited ρ}
  {i : Micros × List (Endpoint × Arrival)}

/-- A counter of the metrics library goes up by any amount that is not negative. -/
def Adds (increment : ℚ → ℚ → ℚ) : Prop :=
  ∀ counter amount, 0 ≤ amount → increment counter amount = counter + amount

def iterate (uniform : Extended → ρ → Extended × ρ) (increment : ℚ → ℚ → ℚ) (s : Audited ρ)
    (i : Micros × List (Endpoint × Arrival)) : Audited ρ where
  state := s.state.iterate uniform increment i.1 i.2
  totals c := s.totals c + s.state.server.done uniform i.1 i.2 c

def machine (uniform : Extended → ρ → Extended × ρ) (increment : ℚ → ℚ → ℚ) (bound : Extended)
    (seed : ρ) (begun : Micros) : Machine (Audited ρ) (Micros × List (Endpoint × Arrival)) where
  init := { state := .begin bound seed begun, totals := fun _ => 0 }
  Enabled _ _ := True
  next := iterate uniform increment

/-- The counters of the server are the totals, and the metrics have all but what was done
since the last report. -/
structure Balanced (s : Audited ρ) : Prop where
  seated : s.state.server.Seated
  counter : ∀ c, s.state.server.counter c = UInt64.ofNat (s.totals c)
  reported : ∀ c, s.totals c < 2 ^ 64 → ∃ n ≤ s.totals c,
    s.state.reporter.last c = UInt64.ofNat n ∧ s.state.reporter.metrics.counter c = n

theorem Balanced.begin (bound : Extended) (seed : ρ) (begun : Micros) :
    Balanced ⟨.begin bound seed begun, fun _ => 0⟩ where
  seated := ServerLoop.Seated.start bound seed begun
  counter := fun c => by cases c <;> rfl
  reported := fun c _ => ⟨0, le_rfl, by cases c <;> rfl, by cases c <;> rfl⟩

theorem increment_sub (hadds : Adds increment) {n m : ℕ} (hle : n ≤ m) (hlt : m < 2 ^ 64) :
    increment (n : ℚ) (ofCount (UInt64.ofNat m - UInt64.ofNat n)) = m := by
  have hn : (UInt64.ofNat n).toNat = n := UInt64.toNat_ofNat_of_lt' (hle.trans_lt hlt)
  have hm : (UInt64.ofNat m).toNat = m := UInt64.toNat_ofNat_of_lt' hlt
  have hsub : (UInt64.ofNat m - UInt64.ofNat n).toNat = m - n := by
    rw [UInt64.toNat_sub_of_le _ _ (UInt64.le_iff_toNat_le.mpr (by omega)), hn, hm]
  have hamount : (ofCount (UInt64.ofNat m - UInt64.ofNat n) : ℚ) = ((m - n : ℕ) : ℚ) := by
    rw [ofCount, hsub]
    rfl
  rw [hamount, hadds n _ (Nat.cast_nonneg _), ← Nat.cast_add, Nat.add_sub_cancel' hle]

theorem Balanced.feed (h : s.Balanced) (hadds : Adds increment) {c : Count}
    (hlt : s.totals c < 2 ^ 64) {n : ℕ} (hle : s.totals c ≤ n) (hn : n < 2 ^ 64) :
    increment (s.state.reporter.metrics.counter c)
      (ofCount (UInt64.ofNat n - s.state.reporter.last c)) = n := by
  obtain ⟨m, hm, hlast, hmetric⟩ := h.reported c hlt
  rw [hlast, hmetric]
  exact increment_sub hadds (hm.trans hle) hn

theorem Balanced.iterate_counter (h : s.Balanced)
    (hroom : (s.iterate uniform increment i).state.server.Roomy) (c : Count) :
    (s.iterate uniform increment i).state.server.counter c =
      UInt64.ofNat ((s.iterate uniform increment i).totals c) := by
  have hserved := ServerLoop.served_length (s.state.server.received uniform i.1 i.2) i.1
  have hreceived : (s.state.server.received uniform i.1 i.2).Roomy := by
    have hlast : ((s.state.server.received uniform i.1 i.2).served i.1).Roomy := hroom
    rw [ServerLoop.Roomy] at hlast ⊢
    omega
  rw [Audited.iterate, UInt64.ofNat_add, ← h.counter c]
  exact ServerLoop.iterate_counter h.seated hreceived c

theorem Balanced.report (h : s.Balanced) (hadds : Adds increment)
    (hroom : (s.iterate uniform increment i).state.server.Roomy)
    (hdue : s.state.reporter.reportAt ≤ i.1) {c : Count}
    (hlt : (s.iterate uniform increment i).totals c < 2 ^ 64) :
    (s.iterate uniform increment i).state.reporter.last c =
        UInt64.ofNat ((s.iterate uniform increment i).totals c) ∧
      (s.iterate uniform increment i).state.reporter.metrics.counter c =
        (s.iterate uniform increment i).totals c := by
  have hle : s.totals c ≤ (s.iterate uniform increment i).totals c := Nat.le_add_right _ _
  obtain ⟨hlast, hmetric⟩ :=
    Reporter.report_counter hdue (s.iterate uniform increment i).state.server c
  rw [h.iterate_counter hroom c] at hlast hmetric
  exact ⟨hlast, hmetric.trans (h.feed hadds (hle.trans_lt hlt) hle hlt)⟩

theorem Balanced.iterate (h : s.Balanced) (hadds : Adds increment)
    (hroom : (s.iterate uniform increment i).state.server.Roomy) :
    (s.iterate uniform increment i).Balanced := by
  refine ⟨h.seated.iterate hroom, h.iterate_counter hroom, fun c hlt => ?_⟩
  by_cases hdue : s.state.reporter.reportAt ≤ i.1
  · exact ⟨_, le_rfl, h.report hadds hroom hdue hlt⟩
  · have hle : s.totals c ≤ (s.iterate uniform increment i).totals c := Nat.le_add_right _ _
    have hreporter : (s.iterate uniform increment i).state.reporter = s.state.reporter :=
      if_neg hdue
    obtain ⟨n, hn, hreported⟩ := h.reported c (hle.trans_lt hlt)
    rw [hreporter]
    exact ⟨n, hn.trans hle, hreported⟩

theorem Balanced.of_reachable (hadds : Adds increment)
    (h : (machine uniform increment bound seed begun).Reachable s)
    (hroom : s.state.server.Roomy) : s.Balanced := by
  suffices hinv : s.state.server.Roomy → s.Balanced from hinv hroom
  apply h.invariant (I := fun s => s.state.server.Roomy → s.Balanced)
  · exact fun _ => Balanced.begin bound seed begun
  · exact fun s i ih _ hroom => (ih hroom.of_iterate).iterate hadds hroom

/-- Whenever a report is made, each counter of the metrics is the number of bytes or packets
sent, of reliable messages taken or of keyframes or deltas queued since the server began, and
the metrics show as many entities as clients. -/
theorem counters_exact (hadds : Adds increment)
    (h : (machine uniform increment bound seed begun).Reachable s)
    (hdue : s.state.reporter.reportAt ≤ i.1)
    (hroom : (s.iterate uniform increment i).state.server.Roomy) :
    let t := s.iterate uniform increment i
    (∀ c, t.totals c < 2 ^ 64 → t.state.reporter.metrics.counter c = t.totals c) ∧
      t.state.reporter.metrics.clients = t.state.server.clients.entries.length ∧
      t.state.reporter.metrics.entities = t.state.server.clients.entries.length := by
  intro t
  have hbalanced : s.Balanced := Balanced.of_reachable hadds h hroom.of_iterate
  have hseated : t.state.server.Seated := (hbalanced.iterate hadds hroom).seated
  have hmetrics : t.state.reporter.metrics = s.state.reporter.feed increment t.state.server i.1 :=
    congrArg Reporter.metrics (if_pos hdue)
  have hsize : t.state.server.mgr.size = t.state.server.clients.entries.length := by
    have hkeys := congrArg List.length (SortedMap.keys_eq_of_isSome hseated.known)
    rwa [SortedMap.keys, SortedMap.keys, List.length_map, List.length_map] at hkeys
  have hentities : t.state.server.world.entities.entries.length =
      t.state.server.clients.entries.length := by
    have hperm := hseated.players.entities_perm.length_eq
    rw [SortedMap.values, List.length_map, List.length_map] at hperm
    rw [hperm, World.ids, SortedMap.keys, List.length_map]
  refine ⟨fun c hlt => (hbalanced.report hadds hroom hdue hlt).2, ?_, ?_⟩
  · rw [hmetrics, ← hsize]
    rfl
  · rw [hmetrics, ← hentities]
    rfl

def countedRun : List (Micros × List (Endpoint × Arrival)) :=
  [(20000, [(⟨"b", 1⟩, (.ascending, [1, 0, 0, 1, 1, 0, 0, 0, 0, 0, 0, 0, 2, 0, 1, 0, 0, 12, 0] ++
      List.replicate 12 0 ++ [0, 0, 0, 12, 0] ++ List.replicate 12 0)),
      (⟨"x", 7⟩, (.ascending, [9]))]),
    (60000, [(⟨"b", 1⟩, (.ascending, [2, 0, 0, 1, 2, 0, 1, 0, 0, 0, 0, 0, 1, 0, 0, 0, 0, 12, 0] ++
      [1] ++ List.replicate 11 0))])]

theorem counters_exact_countedRun :
    let s := (machine World.drawOrigin (· + ·) World.hundred () 0).runFrom
      ⟨.begin World.hundred () 0, fun _ => 0⟩ countedRun
    let t := s.iterate World.drawOrigin (· + ·) (1000000, [])
    ((∀ c, t.totals c < 2 ^ 64 → t.state.reporter.metrics.counter c = t.totals c) ∧
      t.state.reporter.metrics.clients = t.state.server.clients.entries.length ∧
      t.state.reporter.metrics.entities = t.state.server.clients.entries.length) ∧
      [Count.bytes, .packets, .events, .keyframes, .deltas].map t.totals = [208, 6, 1, 4, 2] := by
  intro s t
  have hreach : (machine World.drawOrigin (· + ·) World.hundred () 0).Reachable s :=
    Machine.Reachable.init.runFrom ⟨trivial, trivial, trivial⟩
  have hroom : t.state.server.Roomy := by
    rw [ServerLoop.Roomy]
    decide +kernel
  exact ⟨counters_exact (fun _ _ _ => rfl) hreach (by decide +kernel) hroom, by decide +kernel⟩

end Audited

end Netcode.Server
