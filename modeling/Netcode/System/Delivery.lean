import Netcode.System.Views
import Netcode.Transport.Arrival

/-!
# One packet makes up for the lost ones

Everything that a bot still holds is in the packet that it flushes. Whatever was
lost before and whatever happens in between, once the datagrams of that packet
have reached the server, the server has taken all that the bot had queued by then.
-/

namespace Netcode.System

open Netcode.Library Netcode.Transport Netcode.Server Netcode.Bots

variable {δ ρ σ : Type*} [Scalar δ] {D : Deployment ρ σ} {s : Swarm δ ρ σ} {e : Endpoint}
  {l : PeerLink δ}

theorem update_flushes {x y : PeerSide δ} (h : Conveys x y) {now : Micros}
    (hflush : x.peer.flushes now ≠ []) :
    x.peer.flushes now = [x.peer.packets.flush.1] ∧ (x.peer.update now).1 =
      fragment (sequenceAt x.flushed.length) x.peer.packets.flush.1.bytes := by
  rcases x.peer.update_cases now with ⟨-, hidle⟩ | ⟨hsent, hone, -, -⟩
  · exact absurd hidle hflush
  · refine ⟨hone, hsent.trans ?_⟩
    rw [← h.localSequence]
    rfl

namespace Linked

theorem flushed_or_taken (h : Linked D s e l) (hcount : (s.events e).length ≤ maxMessages) :
    ∀ m ∈ s.events e, m.channel = Channel.reliable ∧
      (m ∈ l.b.peer.packets.flush.1.messages ∨ m ∈ l.a.delivered) := by
  intro m hm
  obtain ⟨⟨_, _, _, _, hflow⟩, -⟩ := h.flow hcount
  rw [← h.events] at hm
  refine ⟨hflow.reliable m hm, ?_⟩
  by_cases hheld : m ∈ l.b.peer.mux.reliable.held
  · exact Or.inl (List.mem_append_left _ hheld)
  · exact Or.inr ((h.delivers hcount).2.1 m hm hheld)

theorem nodup_events (h : Linked D s e l) (hcount : (s.events e).length ≤ maxMessages) :
    (s.events e).Nodup := by
  obtain ⟨⟨_, _, _, _, hflow⟩, hbounds⟩ := h.flow hcount
  rw [← h.events]
  exact (hflow.nodup hbounds).of_map

variable [Fmod δ]

theorem runFrom (h : Linked D s e l) (he : e ∈ D.bots)
    (hreach : (Swarm.machine D).ReachableUnder (Swarm.Within D) s) {es : List Event}
    (hes : (Swarm.machine D).AdmitsUnder (Swarm.Within D) s es) :
    ∃ l', Linked D ((Swarm.machine D).runFrom s es) e l' ∧ l.a.Grows l'.a ∧ l.b.Grows l'.b := by
  induction es generalizing s l with
  | nil => exact ⟨l, h, .refl _, .refl _⟩
  | cons ev es ih =>
    obtain ⟨hwithin, hev, hrest⟩ := hes
    obtain ⟨_, -, hreflects⟩ := Reflects.of_reachable hreach
    obtain ⟨m, hm, hma, hmb⟩ := h.step he hreflects.seated hwithin
    obtain ⟨l', hl', ha, hb⟩ := ih hm (hreach.step ev hwithin hev) hrest
    exact ⟨l', hl', hma.trans ha, hmb.trans hb⟩

theorem taken_serve (h : Linked D s e l) (hseated : s.server.Seated) (now : Micros)
    (datagrams : List (Endpoint × Arrival)) : (s.serve D now datagrams).taken e =
      (l.a.act (.poll now (arrivalsFor e datagrams))).delivered := by
  have hreports := (ServerLoop.poll_reports hseated.drained now datagrams e).1
  simp only [Swarm.serve, PeerSide.act, hreports, h.server, h.taken]

end Linked

theorem prefix_of_subset {α : Type*} {xs ys zs : List α} (hnodup : zs.Nodup) (hxs : xs <+: zs)
    (hys : ys <+: zs) (hsub : xs ⊆ ys) : xs <+: ys :=
  List.prefix_of_prefix_length_le hxs hys
    ((hnodup.sublist hxs.sublist).subperm hsub).length_le

namespace Swarm

variable [Fmod δ]

/-- Take a bot that flushes at some point of a run, and a later iteration of the server that
gets the datagrams of that flush. However many datagrams were lost before, and whatever the
swarm did in between, the server has then taken all that the bot had queued before the flush,
in the order in which it was queued. -/
theorem events_arrive (h : (machine D).ReachableUnder (Within D) s) (he : e ∈ D.bots)
    {sent now : Micros} {arrivals : List Arrival} {es : List Event}
    {datagrams : List (Endpoint × Arrival)} (hrun : (machine D).AdmitsUnder (Within D) s
      (.pump e sent arrivals :: es ++ [.serve now datagrams]))
    (hflush : (s.bot e).peer.flushes sent ≠ [])
    (hwhole : Reassembler.Whole ((s.bot e).peer.update sent).1 (arrivalsFor e datagrams))
    (hcount : (((machine D).runFrom s (.pump e sent arrivals :: es)).events e).length ≤
      maxMessages) :
    s.events e <+:
      ((machine D).runFrom s (.pump e sent arrivals :: es ++ [.serve now datagrams])).taken e := by
  obtain ⟨⟨hwithin, hpump, hes⟩, hlast⟩ := Machine.admitsUnder_append.mp hrun
  obtain ⟨hwithin', -⟩ := hlast
  obtain ⟨_, -, hreflects⟩ := Reflects.of_reachable h
  obtain ⟨l, hl⟩ := hreflects.linked e he
  obtain ⟨-, -, hconveys⟩ := PeerLink.packets_reachable hl.reachable hl.carried
  -- the flush, and what has become of the link by the time it arrives
  have hreach := h.step (.pump e sent arrivals) hwithin hpump
  obtain ⟨l', hl', hga, hgb⟩ := (hl.pump hwithin.1 hwithin.2.1 hwithin.2.2).runFrom he hreach hes
  obtain ⟨_, -, hreflects'⟩ := Reflects.of_reachable (hreach.runFrom hes)
  rw [Machine.runFrom_append]
  change Linked D ((machine D).runFrom s (.pump e sent arrivals :: es)) e l' at hl'
  change Reflects D ((machine D).runFrom s (.pump e sent arrivals :: es)) _ at hreflects'
  generalize (machine D).runFrom s (.pump e sent arrivals :: es) = t at *
  rw [← hl.bot] at hflush hwhole
  obtain ⟨hone, hwire⟩ := update_flushes hconveys hflush
  have hflushed : l.b.flushed ++ [l.b.peer.packets.flush.1] <+: l'.b.flushed := by
    rw [← hone]
    exact hgb.flushed
  have hpacket : l'.b.flushed[l.b.flushed.length]? = some l.b.peer.packets.flush.1 := by
    obtain ⟨rest, hrest⟩ := hflushed
    rw [← hrest, List.append_assoc, List.getElem?_append_right le_rfl, Nat.sub_self]
    rfl
  -- all that was queued before is in the packet or was taken already
  have hevents : s.events e <+: t.events e := by
    rw [← hl.events, ← hl'.events]
    exact hgb.queued
  have htaken := hl'.taken_serve hreflects'.seated now datagrams
  have hpossible := hl'.possible_serve he now hwithin'.1 _ List.mem_cons_self
  have hall : s.events e ⊆ (t.serve D now datagrams).taken e := by
    intro m hm
    obtain ⟨hreliable, hor⟩ := hl.flushed_or_taken (hevents.length_le.trans hcount) m hm
    rw [htaken]
    rcases hor with hin | hold
    · exact PeerLink.mem_delivered hl'.reachable hl'.carried (hl'.events ▸ hcount) hpacket now
        hpossible (hwire ▸ hwhole) m hin hreliable
    · exact (hga.trans (l'.a.grows_act _)).delivered.subset hold
  obtain ⟨l'', hl'', -⟩ := hl'.step he hreflects'.seated hwithin'
  have hqueued := (hl''.delivers hcount).1
  rw [hl''.taken, hl''.events] at hqueued
  exact prefix_of_subset (hl'.nodup_events hcount) hevents hqueued hall

def lostRun : List Event := [.tick ⟨"b", 1⟩, .pump ⟨"b", 1⟩ 0 [], .tick ⟨"b", 1⟩]

def lateDatagrams : List (Endpoint × Arrival) :=
  List.replicate 2 (⟨"b", 1⟩, (.ascending,
    [2, 0, 0, 1, 2, 0, 0, 0, 0, 0, 0, 0, 2, 0, 1, 0, 0, 12, 0, 0, 0, 0, 0, 0, 0, 0, 0, 0, 0, 0, 0,
      0, 1, 0, 12, 0, 0, 0, 0, 0, 0, 0, 0, 0, 0, 0, 0, 0]))

def lateRun : List Event :=
  .pump ⟨"b", 1⟩ 40000 [] :: [.tick ⟨"b", 1⟩] ++ [.serve 60000 lateDatagrams]

theorem admits_lostRun :
    (machine (δ := ℚ) oneBot).AdmitsUnder (Within oneBot) (start oneBot) lostRun :=
  ⟨⟨trivial, trivial⟩, rfl, ⟨by decide +kernel, by decide +kernel, by decide +kernel⟩, rfl,
    ⟨trivial, trivial⟩, rfl, trivial⟩

theorem admits_lateRun : (machine (δ := ℚ) oneBot).AdmitsUnder (Within oneBot)
    ((machine oneBot).runFrom (start oneBot) lostRun) lateRun := by
  refine ⟨⟨by decide +kernel, by decide +kernel, by decide +kernel⟩, rfl, ⟨trivial, trivial⟩, rfl,
    ⟨?_, by decide +kernel, by decide +kernel, fun e he => ?_⟩, trivial, trivial⟩
  · refine List.forall_mem_replicate.mpr (Or.inr fun _ => ?_)
    decide +kernel
  · rw [Set.mem_singleton_iff.mp he]
    exact ⟨by decide +kernel, by decide +kernel⟩

theorem events_arrive_lostRun :
    let s := (machine (δ := ℚ) oneBot).runFrom (start oneBot) lostRun
    let t := (machine oneBot).runFrom s lateRun
    s.events ⟨"b", 1⟩ <+: t.taken ⟨"b", 1⟩ ∧
      (t.taken ⟨"b", 1⟩).map (·.payload) = [emptyInput] :=
  ⟨events_arrive (Machine.ReachableUnder.init.runFrom admits_lostRun) rfl admits_lateRun
    (by decide +kernel) (by decide +kernel) (by decide +kernel), by decide +kernel⟩

end Swarm

end Netcode.System
