import Netcode.Server.Clock
import Netcode.Server.Exchange
import Netcode.Transport.Pacing

/-!
# The server keeps its pace with every client

Every iteration updates the peer of each endpoint that the server has heard of.
Whoever sends what, no client is sent more packets than the good mode allows, and
none is left without a packet for longer than the bad mode asks for.
-/

namespace Netcode.Server

open Netcode.Library Netcode.Sim Netcode.Transport

variable {δ ρ : Type*} [Scalar δ]

namespace ServerLoop

def beatOf (s : ServerLoop δ ρ) (now : Micros) (e : Endpoint) : List Beat :=
  ((s.mgr.conns.lookup e).map fun conn => conn.peer.beat now).toList

variable [Fmod δ] {uniform : Extended → ρ → Extended × ρ} {s : ServerLoop δ ρ} {e : Endpoint}
  {now : Micros} {datagrams : List (Endpoint × Arrival)}

theorem lookup_iterate (s : ServerLoop δ ρ) (now : Micros)
    (datagrams : List (Endpoint × Arrival)) (e : Endpoint) :
    (s.iterate uniform now datagrams).2.mgr.conns.lookup e =
      (((s.received uniform now datagrams).served now).mgr.conns.lookup e).map fun conn =>
        { conn with peer := (conn.peer.update now).2 } :=
  SortedMap.lookup_map ..

theorem iterate_paced (h : s.Seated) (hroom : (s.received uniform now datagrams).Roomy)
    {beats : List Beat} (hpaced : Paced (s.peerAt e) beats)
    (hclock : ∀ b ∈ beats, b.nowUs ≤ now) :
    Paced ((s.iterate uniform now datagrams).2.peerAt e)
      (beats ++ ((s.received uniform now datagrams).served now).beatOf now e) := by
  rw [peerAt, lookup_iterate, beatOf]
  rcases served_untouched h hroom e with ⟨conn, hconn, hsame⟩ | ⟨hnone, hsame⟩
  · rw [hconn]
    exact (hpaced.of_untouched hsame).update hclock
  · rw [hnone]
    exact (List.append_nil beats).symm ▸ hpaced.of_untouched hsame

end ServerLoop

/-- A server and the updates that it has called for each endpoint. -/
structure Clocked (δ ρ : Type*) [Scalar δ] where
  server : ServerLoop δ ρ
  beats : Endpoint → List Beat := fun _ => []

namespace Clocked

variable [Fmod δ] {uniform : Extended → ρ → Extended × ρ} {bound : Extended} {seed : ρ}
  {begun : Micros} {s : Clocked δ ρ}

/-- The clock does not go back. -/
def machine (uniform : Extended → ρ → Extended × ρ) (bound : Extended) (seed : ρ)
    (begun : Micros) : Machine (Clocked δ ρ) (Micros × List (Endpoint × Arrival)) where
  init := { server := .start bound seed begun }
  Enabled s i := s.server.last ≤ i.1
  next s i :=
    { server := (s.server.iterate uniform i.1 i.2).2
      beats := fun e => s.beats e ++ ((s.server.received uniform i.1 i.2).served i.1).beatOf i.1 e }

instance (s : Clocked δ ρ) (i : Micros × List (Endpoint × Arrival)) :
    Decidable ((machine uniform bound seed begun).Enabled s i) :=
  inferInstanceAs (Decidable (s.server.last ≤ i.1))

structure Kept (s : Clocked δ ρ) : Prop where
  seated : s.server.Seated
  paced : ∀ e, Paced (s.server.peerAt e) (s.beats e)
  clock : ∀ e, ∀ b ∈ s.beats e, b.nowUs ≤ s.server.last
  heard : ∀ e, (s.server.mgr.conns.lookup e).isSome →
    ∃ b ∈ s.beats e, b.nowUs = s.server.last

theorem Kept.next (h : s.Kept) {i : Micros × List (Endpoint × Arrival)}
    (hclock : s.server.last ≤ i.1) (hroom : (s.server.iterate uniform i.1 i.2).2.Roomy) :
    ((machine uniform bound seed begun).next s i).Kept := by
  have hserved := ServerLoop.served_length (s.server.received uniform i.1 i.2) i.1
  have hreceived : (s.server.received uniform i.1 i.2).Roomy := by
    have hlast : ((s.server.received uniform i.1 i.2).served i.1).Roomy := hroom
    rw [ServerLoop.Roomy] at hlast ⊢
    omega
  have hlast : ((machine uniform bound seed begun).next s i).server.last = i.1 :=
    (ServerLoop.iterate_clock uniform s.server i.1 i.2).2.2
  have hearlier : ∀ e, ∀ b ∈ s.beats e, b.nowUs ≤ i.1 :=
    fun e b hb => UInt64.le_trans (h.clock e b hb) hclock
  refine ⟨h.seated.iterate hroom,
    fun e => ServerLoop.iterate_paced h.seated hreceived (h.paced e) (hearlier e),
    fun e b hb => ?_, fun e he => ?_⟩
  · rw [hlast]
    rcases List.mem_append.mp hb with hold | hnew
    · exact hearlier e b hold
    · obtain ⟨conn, -, rfl⟩ := Option.map_eq_some_iff.mp (Option.mem_toList.mp hnew)
      exact UInt64.le_refl _
  · have hlook : ((machine uniform bound seed begun).next s i).server.mgr.conns.lookup e = _ :=
      ServerLoop.lookup_iterate s.server i.1 i.2 e
    rw [hlook, Option.isSome_map] at he
    obtain ⟨conn, hconn⟩ := Option.isSome_iff_exists.mp he
    refine ⟨conn.peer.beat i.1, List.mem_append_right _ ?_, hlast.symm⟩
    rw [ServerLoop.beatOf, hconn]
    exact List.mem_singleton_self _

theorem Kept.of_reachable (h : (machine uniform bound seed begun).Reachable s)
    (hroom : s.server.Roomy) : s.Kept := by
  suffices hinv : s.server.Roomy → s.Kept from hinv hroom
  apply h.invariant (I := fun s => s.server.Roomy → s.Kept)
  · exact fun _ => ⟨ServerLoop.Seated.start bound seed begun, fun e => Paced.fresh e,
      fun e b hb => absurd hb List.not_mem_nil,
      fun e he => absurd he (by simp [machine, ServerLoop.start])⟩
  · exact fun s i ih hclock hroom => (ih hroom.of_iterate).next hclock hroom

/-- Whoever sends what: in no window of time does a client get more packets than fit at
thirty a second, each of them comes the interval of the mode after the one before, and no
client that the server has heard of was left without one for a tenth of a second. -/
theorem paces_every_client (h : (machine uniform bound seed begun).Reachable s)
    (hroom : s.server.Roomy) (e : Endpoint) :
    (∀ t w, ((flushTimes (s.beats e)).filter fun f => t ≤ f ∧ f < t + w).length ≤
        w / 33333 + 1) ∧
      (((s.beats e).filter (·.flushed)).Pairwise fun a b =>
        a.nowUs.toNat + b.mode.intervalUs ≤ b.nowUs.toNat) ∧
      ((s.server.mgr.conns.lookup e).isSome → ∃ f ∈ flushTimes (s.beats e),
        f ≤ s.server.last.toNat ∧ s.server.last.toNat < f + 100000) := by
  have hkept := Kept.of_reachable h hroom
  refine ⟨(hkept.paced e).length_le, (hkept.paced e).apart, fun he => ?_⟩
  obtain ⟨b, hb, hlast⟩ := hkept.heard e he
  rw [← hlast]
  exact (hkept.paced e).exists_recent hb

def garbageRun : Clocked ℚ Unit :=
  (machine World.drawOrigin World.hundred () 0).runFrom
    { server := .start World.hundred () 0 }
    [(20000, [(⟨"a", 1⟩, (.ascending, [9]))]), (40000, []), (60000, [])]

theorem paces_every_client_garbageRun : let s := garbageRun
    ((∀ t w, ((flushTimes (s.beats ⟨"a", 1⟩)).filter fun f => t ≤ f ∧ f < t + w).length ≤
        w / 33333 + 1) ∧
      (((s.beats ⟨"a", 1⟩).filter (·.flushed)).Pairwise fun a b =>
        a.nowUs.toNat + b.mode.intervalUs ≤ b.nowUs.toNat) ∧
      ((s.server.mgr.conns.lookup ⟨"a", 1⟩).isSome → ∃ f ∈ flushTimes (s.beats ⟨"a", 1⟩),
        f ≤ s.server.last.toNat ∧ s.server.last.toNat < f + 100000)) ∧
      flushTimes (s.beats ⟨"a", 1⟩) = [20000, 60000] := by
  have hreach : (machine World.drawOrigin World.hundred () 0).Reachable garbageRun :=
    Machine.Reachable.init.runFrom (by decide +kernel)
  have hroom : garbageRun.server.Roomy := by
    rw [ServerLoop.Roomy]
    decide +kernel
  exact ⟨paces_every_client hreach hroom ⟨"a", 1⟩, by decide +kernel⟩

end Clocked

end Netcode.Server
