import Netcode.Library.Window
import Netcode.Transport.Peer

/-!
# How often a peer sends

Whatever arrives at a peer and whatever it makes of the round trips, as long as its
clock does not go back it flushes no sooner after its last flush than the interval of
its mode, and no update leaves it silent for longer.
-/

namespace Netcode.Transport

open Netcode.Library

variable {δ : Type*} [Scalar δ]

def Mode.intervalUs : Mode → ℕ
  | .good => 33333
  | .bad => 100000

/-- An update: when it was called, the mode at that time and whether a packet went out. -/
structure Beat where
  nowUs : Micros
  mode : Mode
  flushed : Bool

def flushTimes (beats : List Beat) : List ℕ :=
  (beats.filter (·.flushed)).map (·.nowUs.toNat)

namespace Peer

def beat (p : Peer δ) (nowUs : Micros) : Beat :=
  ⟨nowUs, p.governor.mode, !(p.update nowUs).1.isEmpty⟩

end Peer

theorem RateGovernor.update_config (g : RateGovernor δ) (rtt : δ) (now : Micros) :
    (g.update rtt now).config = g.config := by
  rw [RateGovernor.update]
  split_ifs <;> rfl

theorem RateGovernor.toNat_sendIntervalUs {g : RateGovernor δ} (h : g.config = {}) :
    g.sendIntervalUs.toNat = g.mode.intervalUs := by
  rw [sendIntervalUs, h]
  cases g.mode <;> rfl

theorem Peer.datagrams_ne_nil (p : Peer δ) (nowUs : Micros) : (p.flush nowUs).1 ≠ [] := by
  intro hnil
  have hlength := congrArg List.length hnil
  rw [Peer.flush, fragment_eq, List.length_map, List.length_range, List.length_nil] at hlength
  exact absurd hlength (Nat.one_le_iff_ne_zero.mp (fragmentCount_pos _))

structure Paced (p : Peer δ) (beats : List Beat) : Prop where
  config : p.governor.config = {}
  apart : (beats.filter (·.flushed)).Pairwise fun a b =>
    a.nowUs.toNat + b.mode.intervalUs ≤ b.nowUs.toNat
  awake : ∀ b ∈ beats, ∃ f ∈ beats, f.flushed = true ∧ f.nowUs ≤ b.nowUs ∧
    (f = b ∨ b.nowUs.toNat < f.nowUs.toNat + b.mode.intervalUs)
  first : p.flushedOnce = false → beats = []
  last : p.flushedOnce = true → ∃ f ∈ beats, f.flushed = true ∧ f.nowUs = p.lastFlushUs
  latest : ∀ f ∈ beats, f.flushed = true → f.nowUs ≤ p.lastFlushUs

namespace Paced

variable {p q : Peer δ} {beats : List Beat} {now : Micros}

theorem fresh (remote : Endpoint) : Paced ({ remote := remote } : Peer δ) [] where
  config := rfl
  apart := List.Pairwise.nil
  awake := fun _ hb => absurd hb List.not_mem_nil
  first := fun _ => rfl
  last := fun h => absurd h Bool.false_ne_true
  latest := fun _ hf => absurd hf List.not_mem_nil

theorem of_untouched (h : Paced p beats) (hq : p.Untouched q) : Paced q beats where
  config := hq.governor ▸ h.config
  apart := h.apart
  awake := h.awake
  first := hq.flushedOnce ▸ h.first
  last := by
    rw [hq.flushedOnce, hq.lastFlushUs]
    exact h.last
  latest := by
    rw [hq.lastFlushUs]
    exact h.latest

theorem idle (h : Paced p beats) (hclock : ∀ b ∈ beats, b.nowUs ≤ now)
    (honce : p.flushedOnce = true) (hsoon : now - p.lastFlushUs < p.governor.sendIntervalUs) :
    Paced p (beats ++ [⟨now, p.governor.mode, false⟩]) := by
  obtain ⟨f, hf, hflushed, htime⟩ := h.last honce
  have hle := UInt64.le_iff_toNat_le.mp (htime ▸ hclock f hf)
  rw [UInt64.lt_iff_toNat_lt, RateGovernor.toNat_sendIntervalUs h.config,
    UInt64.toNat_sub_of_le _ _ (htime ▸ hclock f hf)] at hsoon
  refine ⟨h.config, ?_, fun b hb => ?_, fun hnever => ?_, fun _ => ?_, fun f' hf' hflushed' => ?_⟩
  · simpa [List.filter_append] using h.apart
  · rcases List.mem_append.mp hb with hold | hnew
    · obtain ⟨f', hf', hrest⟩ := h.awake b hold
      exact ⟨f', List.mem_append_left _ hf', hrest⟩
    · rw [List.mem_singleton.mp hnew]
      refine ⟨f, List.mem_append_left _ hf, hflushed, hclock f hf, Or.inr ?_⟩
      rw [htime]
      change now.toNat < _ + p.governor.mode.intervalUs
      omega
  · rw [honce] at hnever
    exact absurd hnever Bool.noConfusion
  · exact ⟨f, List.mem_append_left _ hf, hflushed, htime⟩
  · rcases List.mem_append.mp hf' with hold | hnew
    · exact h.latest f' hold hflushed'
    · rw [List.mem_singleton.mp hnew] at hflushed'
      exact absurd hflushed' Bool.false_ne_true

theorem flushed (h : Paced p beats) (hclock : ∀ b ∈ beats, b.nowUs ≤ now)
    (hdue : p.flushedOnce = true → p.governor.sendIntervalUs ≤ now - p.lastFlushUs) :
    Paced (p.flush now).2 (beats ++ [⟨now, p.governor.mode, true⟩]) := by
  have hapart : ∀ f ∈ beats, f.flushed = true →
      f.nowUs.toNat + p.governor.mode.intervalUs ≤ now.toNat := by
    intro f hf hflushed
    cases honce : p.flushedOnce with
    | false => exact absurd hf (h.first honce ▸ List.not_mem_nil)
    | true =>
      obtain ⟨l, hl, -, htime⟩ := h.last honce
      have hlast := htime ▸ hclock l hl
      have hle := UInt64.le_iff_toNat_le.mp (h.latest f hf hflushed)
      have hbefore := UInt64.le_iff_toNat_le.mp hlast
      have hpassed := UInt64.le_iff_toNat_le.mp (hdue honce)
      rw [RateGovernor.toNat_sendIntervalUs h.config, UInt64.toNat_sub_of_le _ _ hlast] at hpassed
      omega
  refine ⟨(RateGovernor.update_config ..).trans h.config, ?_, fun b hb => ?_, fun hnever => ?_,
    fun _ => ⟨_, List.mem_append_right _ (List.mem_singleton_self _), rfl, rfl⟩,
    fun f hf _ => ?_⟩
  · rw [List.filter_append, List.pairwise_append]
    refine ⟨h.apart, by simp, fun f hf b hb => ?_⟩
    obtain ⟨hf, hflushed⟩ := List.mem_filter.mp hf
    rw [List.mem_singleton.mp (List.mem_filter.mp hb).1]
    exact hapart f hf hflushed
  · rcases List.mem_append.mp hb with hold | hnew
    · obtain ⟨f, hf, hrest⟩ := h.awake b hold
      exact ⟨f, List.mem_append_left _ hf, hrest⟩
    · rw [List.mem_singleton.mp hnew]
      exact ⟨_, List.mem_append_right _ (List.mem_singleton_self _), rfl, UInt64.le_refl _,
        Or.inl rfl⟩
  · exact absurd hnever Bool.noConfusion
  · rcases List.mem_append.mp hf with hold | hnew
    · exact hclock f hold
    · rw [List.mem_singleton.mp hnew]
      exact UInt64.le_refl _

theorem update (h : Paced p beats) (hclock : ∀ b ∈ beats, b.nowUs ≤ now) :
    Paced (p.update now).2 (beats ++ [p.beat now]) := by
  rw [Peer.beat, Peer.update]
  split_ifs with hsoon
  · exact h.idle hclock hsoon.1 hsoon.2
  · have hsent : (!(p.flush now).1.isEmpty) = true := by
      rw [Bool.not_eq_true', List.isEmpty_eq_false_iff]
      exact p.datagrams_ne_nil now
    rw [hsent]
    exact h.flushed hclock fun honce => UInt64.not_lt.mp fun hlt => hsoon ⟨honce, hlt⟩

/-- No more packets in any window of time than fit at the interval of the good mode. -/
theorem length_le (h : Paced p beats) (t w : ℕ) :
    ((flushTimes beats).filter fun f => t ≤ f ∧ f < t + w).length ≤ w / 33333 + 1 := by
  have hspaced : (flushTimes beats).Pairwise fun a b => a + 33333 ≤ b := by
    rw [flushTimes, List.pairwise_map]
    refine h.apart.imp fun {a b} hab => ?_
    have hinterval : 33333 ≤ b.mode.intervalUs := by
      cases b.mode <;> decide
    omega
  exact length_spaced_le (by omega) (hspaced.filter _) fun f hf => of_decide_eq_true
    (List.mem_filter.mp hf).2

theorem exists_recent (h : Paced p beats) {b : Beat} (hb : b ∈ beats) :
    ∃ f ∈ flushTimes beats, f ≤ b.nowUs.toNat ∧ b.nowUs.toNat < f + 100000 := by
  obtain ⟨f, hf, hflushed, hle, hor⟩ := h.awake b hb
  have hmem : f.nowUs.toNat ∈ flushTimes beats :=
    List.mem_map_of_mem (List.mem_filter.mpr ⟨hf, hflushed⟩)
  refine ⟨_, hmem, UInt64.le_iff_toNat_le.mp hle, ?_⟩
  rcases hor with rfl | hlt
  · omega
  · have hinterval : b.mode.intervalUs ≤ 100000 := by
      cases b.mode <;> decide
    omega

end Paced

end Netcode.Transport
