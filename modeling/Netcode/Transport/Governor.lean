import Netcode.Library.Machine
import Netcode.Transport.Timing

/-!
# The send rate over a run

The governor is fed smoothed round trips at times that never run backwards.
Beside it a run records every call and every time at which Good was entered,
the seeding call among them. While the governor is Bad, `healthySinceUs` is no
earlier than any congested call or any entry into Good, and `goodEnteredUs` is
the last of the entries; what a switch may do follows from these two.
-/

namespace Netcode.Transport

open Netcode.Library

theorem toNat_min_micros (a b : Micros) : (min a b).toNat = min a.toNat b.toNat := by
  change (if a ≤ b then a else b).toNat = _
  split_ifs with h <;> rw [UInt64.le_iff_toNat_le] at h <;> omega

variable {δ : Type*} [Scalar δ]

namespace RateGovernor

/-- Once seeded, a call meets congestion, ends the penalty or changes nothing. -/
theorem update_cases {g : RateGovernor δ} (hs : g.started = true) (rtt : δ) (now : Micros) :
    (Scalar.lt g.config.thresholdUs rtt = true ∧ g.update rtt now =
      { g with
        penaltyUs :=
          if g.mode = Mode.good ∧ now - g.goodEnteredUs < g.config.goodDwellUs
            then min (g.penaltyUs * 2) g.config.maxPenaltyUs else g.penaltyUs
        mode := Mode.bad
        healthySinceUs := now }) ∨
    (Scalar.lt g.config.thresholdUs rtt = false ∧ g.mode = Mode.bad ∧
      g.penaltyUs ≤ now - g.healthySinceUs ∧
      g.update rtt now = { g with mode := Mode.good, goodEnteredUs := now }) ∨
    (Scalar.lt g.config.thresholdUs rtt = false ∧ g.update rtt now = g) := by
  cases hc : Scalar.lt g.config.thresholdUs rtt with
  | true => exact Or.inl ⟨rfl, by simp [update, hs, hc]⟩
  | false =>
    right
    by_cases hm : g.mode = Mode.bad ∧ g.penaltyUs ≤ now - g.healthySinceUs
    · exact Or.inl ⟨rfl, hm.1, hm.2, by simp [update, hs, hc, hm]⟩
    · exact Or.inr ⟨rfl, by simp [update, hs, hc, hm]⟩

end RateGovernor

structure Call (δ : Type*) where
  smoothedRttUs : δ
  nowUs : Micros

def Congested (config : Config δ) (call : Call δ) : Prop :=
  Scalar.lt config.thresholdUs call.smoothedRttUs = true

structure Governed (δ : Type*) [Scalar δ] where
  governor : RateGovernor δ
  calls : List (Call δ) := []
  entries : List Micros := []

namespace Governed

def update (r : Governed δ) (call : Call δ) : Governed δ :=
  let next := r.governor.update call.smoothedRttUs call.nowUs
  { governor := next
    calls := r.calls ++ [call]
    entries :=
      if r.calls.isEmpty ∨ (r.governor.mode = Mode.bad ∧ next.mode = Mode.good)
        then r.entries ++ [call.nowUs] else r.entries }

def machine (config : Config δ) : Machine (Governed δ) (Call δ) where
  init := { governor := { config := config } }
  Enabled r call := ∀ earlier ∈ r.calls, earlier.nowUs ≤ call.nowUs
  next r call := r.update call

instance instDecidableEnabled (config : Config δ) (r : Governed δ) (call : Call δ) :
    Decidable ((machine config).Enabled r call) :=
  inferInstanceAs (Decidable (∀ earlier ∈ r.calls, earlier.nowUs ≤ call.nowUs))

/-- The call leaves Good less than the dwell time after it was last entered. -/
def Relapse (config : Config δ) (r : Governed δ) (call : Call δ) : Prop :=
  r.governor.mode = Mode.good ∧ (r.update call).governor.mode = Mode.bad ∧
    ∃ entered, r.entries.getLast? = some entered ∧
      call.nowUs.toNat < entered.toNat + config.goodDwellUs.toNat

structure Seeded (config : Config δ) (r : Governed δ) : Prop where
  configured : r.governor.config = config
  started : r.governor.started = true
  called : r.calls ≠ []
  penalty : r.governor.penaltyUs ≤ config.maxPenaltyUs
  healthy : ∃ c ∈ r.calls, c.nowUs = r.governor.healthySinceUs
  entered : ∃ c ∈ r.calls, c.nowUs = r.governor.goodEnteredUs
  lastEntry : r.entries.getLast? = some r.governor.goodEnteredUs
  entries : ∀ e ∈ r.entries, e ≤ r.governor.goodEnteredUs
  congested : ∀ c ∈ r.calls.tail, Congested config c → c.nowUs ≤ r.governor.healthySinceUs
  dropped : r.governor.mode = Mode.bad → r.governor.goodEnteredUs ≤ r.governor.healthySinceUs

variable {config : Config δ} {r : Governed δ} {call : Call δ}

theorem calls_update : (r.update call).calls = r.calls ++ [call] := rfl

theorem mem_calls_update {t : Micros} (h : ∃ c ∈ r.calls, c.nowUs = t) :
    ∃ c ∈ (r.update call).calls, c.nowUs = t := by
  obtain ⟨c, hc, ht⟩ := h
  exact ⟨c, List.mem_append_left _ hc, ht⟩

theorem mem_tail_update (hne : r.calls ≠ []) {c : Call δ}
    (hc : c ∈ (r.update call).calls.tail) : c ∈ r.calls.tail ∨ c = call := by
  rw [calls_update, List.tail_append_of_ne_nil hne] at hc
  exact (List.mem_append.mp hc).imp_right List.mem_singleton.mp

theorem entries_update (hne : r.calls ≠ [])
    (hmode : ¬(r.governor.mode = Mode.bad ∧ (r.update call).governor.mode = Mode.good)) :
    (r.update call).entries = r.entries := by
  apply if_neg
  rw [List.isEmpty_iff]
  exact not_or.mpr ⟨hne, hmode⟩

namespace Seeded

theorem first (hinit : config.initialPenaltyUs ≤ config.maxPenaltyUs) (call : Call δ) :
    Seeded config ((machine config).init.update call) := by
  constructor <;> simp [machine, update, RateGovernor.update, hinit]

theorem healthy_le (h : r.Seeded config) (he : (machine config).Enabled r call) :
    r.governor.healthySinceUs ≤ call.nowUs := by
  obtain ⟨c, hc, ht⟩ := h.healthy
  exact ht ▸ he c hc

theorem entered_le (h : r.Seeded config) (he : (machine config).Enabled r call) :
    r.governor.goodEnteredUs ≤ call.nowUs := by
  obtain ⟨c, hc, ht⟩ := h.entered
  exact ht ▸ he c hc

theorem congested_le (h : r.Seeded config) (hhealthy : ¬ Congested config call) {c : Call δ}
    (hc : c ∈ (r.update call).calls.tail) (hcong : Congested config c) :
    c.nowUs ≤ r.governor.healthySinceUs := by
  rcases mem_tail_update h.called hc with hold | hnew
  · exact h.congested c hold hcong
  · exact absurd (hnew ▸ hcong) hhealthy

theorem drops (h : r.Seeded config) (he : (machine config).Enabled r call)
    {penalty : Micros} (hpenalty : penalty ≤ config.maxPenaltyUs)
    (hg : (r.update call).governor = { r.governor with
      penaltyUs := penalty, mode := Mode.bad, healthySinceUs := call.nowUs }) :
    (r.update call).Seeded config := by
  have hentries : (r.update call).entries = r.entries := by
    apply entries_update h.called
    simp [hg]
  constructor
  · exact hg ▸ h.configured
  · exact hg ▸ h.started
  · simp [calls_update]
  · exact hg ▸ hpenalty
  · exact ⟨call, by simp [calls_update], by rw [hg]⟩
  · exact hg ▸ mem_calls_update h.entered
  · exact hg ▸ hentries ▸ h.lastEntry
  · exact hg ▸ hentries ▸ h.entries
  · intro c hc hcong
    rw [hg]
    rcases mem_tail_update h.called hc with hold | hnew
    · exact UInt64.le_trans (h.congested c hold hcong) (h.healthy_le he)
    · exact hnew ▸ UInt64.le_refl _
  · exact fun _ => hg ▸ h.entered_le he

theorem recovers (h : r.Seeded config) (he : (machine config).Enabled r call)
    (hbad : r.governor.mode = Mode.bad) (hhealthy : ¬ Congested config call)
    (hg : (r.update call).governor = { r.governor with
      mode := Mode.good, goodEnteredUs := call.nowUs }) :
    (r.update call).Seeded config := by
  have hentries : (r.update call).entries = r.entries ++ [call.nowUs] := by
    apply if_pos
    exact Or.inr ⟨hbad, congrArg RateGovernor.mode hg⟩
  constructor
  · exact hg ▸ h.configured
  · exact hg ▸ h.started
  · simp [calls_update]
  · exact hg ▸ h.penalty
  · exact hg ▸ mem_calls_update h.healthy
  · exact ⟨call, by simp [calls_update], by rw [hg]⟩
  · simp [hg, hentries]
  · intro e hmem
    rw [hg]
    rw [hentries, List.mem_append, List.mem_singleton] at hmem
    rcases hmem with hold | hnew
    · exact UInt64.le_trans (h.entries e hold) (h.entered_le he)
    · exact hnew ▸ UInt64.le_refl _
  · intro c hc hcong
    rw [hg]
    exact h.congested_le hhealthy hc hcong
  · simp [hg]

theorem stays (h : r.Seeded config) (hhealthy : ¬ Congested config call)
    (hg : (r.update call).governor = r.governor) : (r.update call).Seeded config := by
  have hentries : (r.update call).entries = r.entries := by
    apply entries_update h.called
    simp +contextual [hg]
  constructor
  · exact hg ▸ h.configured
  · exact hg ▸ h.started
  · simp [calls_update]
  · exact hg ▸ h.penalty
  · exact hg ▸ mem_calls_update h.healthy
  · exact hg ▸ mem_calls_update h.entered
  · exact hg ▸ hentries ▸ h.lastEntry
  · exact hg ▸ hentries ▸ h.entries
  · intro c hc hcong
    rw [hg]
    exact h.congested_le hhealthy hc hcong
  · exact hg ▸ h.dropped

theorem step (h : r.Seeded config) (he : (machine config).Enabled r call) :
    (r.update call).Seeded config := by
  rcases RateGovernor.update_cases h.started call.smoothedRttUs call.nowUs with
    ⟨-, hg⟩ | ⟨hhealthy, hbad, -, hg⟩ | ⟨hhealthy, hg⟩
  · refine h.drops he ?_ hg
    split_ifs
    · rw [h.configured, UInt64.le_iff_toNat_le, toNat_min_micros]
      exact Nat.min_le_right _ _
    · exact h.penalty
  · exact h.recovers he hbad (by simp [Congested, ← h.configured, hhealthy]) hg
  · exact h.stays (by simp [Congested, ← h.configured, hhealthy]) hg

theorem earned (h : r.Seeded config) (he : (machine config).Enabled r call)
    (hbad : r.governor.mode = Mode.bad) (hgood : (r.update call).governor.mode = Mode.good) :
    ¬ Congested config call ∧
      r.governor.healthySinceUs.toNat + r.governor.penaltyUs.toNat ≤ call.nowUs.toNat := by
  rcases RateGovernor.update_cases h.started call.smoothedRttUs call.nowUs with
    ⟨-, hg⟩ | ⟨hhealthy, -, hpenalty, -⟩ | ⟨-, hg⟩
  · cases hgood.symm.trans (congrArg RateGovernor.mode hg)
  · have hle := h.healthy_le he
    rw [UInt64.le_iff_toNat_le, UInt64.toNat_sub_of_le _ _ hle] at hpenalty
    rw [UInt64.le_iff_toNat_le] at hle
    exact ⟨by simp [Congested, ← h.configured, hhealthy], by omega⟩
  · cases hbad.symm.trans ((congrArg RateGovernor.mode hg).symm.trans hgood)

theorem earned_congested (h : r.Seeded config) (he : (machine config).Enabled r call)
    (hbad : r.governor.mode = Mode.bad) (hgood : (r.update call).governor.mode = Mode.good)
    {c : Call δ} (hc : c ∈ (r.update call).calls.tail) (hcong : Congested config c) :
    c.nowUs.toNat + r.governor.penaltyUs.toNat ≤ call.nowUs.toNat := by
  obtain ⟨hhealthy, hpassed⟩ := h.earned he hbad hgood
  rcases mem_tail_update h.called hc with hold | hnew
  · have hle := UInt64.le_iff_toNat_le.mp (h.congested c hold hcong)
    omega
  · exact absurd (hnew ▸ hcong) hhealthy

theorem earned_entries (h : r.Seeded config) (he : (machine config).Enabled r call)
    (hbad : r.governor.mode = Mode.bad) (hgood : (r.update call).governor.mode = Mode.good)
    {e : Micros} (hmem : e ∈ r.entries) :
    e.toNat + r.governor.penaltyUs.toNat ≤ call.nowUs.toNat := by
  have hpassed := (h.earned he hbad hgood).2
  have hentry := UInt64.le_iff_toNat_le.mp (h.entries e hmem)
  have hdrop := UInt64.le_iff_toNat_le.mp (h.dropped hbad)
  omega

theorem penalty_of_relapse (h : r.Seeded config) (he : (machine config).Enabled r call)
    (hmax : config.maxPenaltyUs.toNat < 2 ^ 63) (hrelapse : r.Relapse config call) :
    (r.update call).governor.penaltyUs.toNat =
      min (2 * r.governor.penaltyUs.toNat) config.maxPenaltyUs.toNat := by
  obtain ⟨hgood, hbad, entered, hlast, hquick⟩ := hrelapse
  rw [h.lastEntry, Option.some_inj] at hlast
  rcases RateGovernor.update_cases h.started call.smoothedRttUs call.nowUs with
    ⟨-, hg⟩ | ⟨-, hmode, -, -⟩ | ⟨-, hg⟩
  · have hle := h.entered_le he
    have hsoon : call.nowUs - r.governor.goodEnteredUs < config.goodDwellUs := by
      rw [UInt64.lt_iff_toNat_lt, UInt64.toNat_sub_of_le _ _ hle]
      rw [UInt64.le_iff_toNat_le] at hle
      rw [← hlast] at hquick
      omega
    have hpenalty : (r.update call).governor.penaltyUs =
        min (r.governor.penaltyUs * 2) config.maxPenaltyUs := by
      refine (congrArg RateGovernor.penaltyUs hg).trans ?_
      rw [h.configured]
      exact if_pos ⟨hgood, hsoon⟩
    -- the penalty is below 2^63, so doubling it does not wrap
    have hdouble : (r.governor.penaltyUs * 2).toNat = 2 * r.governor.penaltyUs.toNat := by
      have hle := UInt64.le_iff_toNat_le.mp h.penalty
      rw [UInt64.toNat_mul, show (2 : UInt64).toNat = 2 from rfl]
      omega
    rw [hpenalty, toNat_min_micros, hdouble]
  · cases hgood.symm.trans hmode
  · cases hgood.symm.trans ((congrArg RateGovernor.mode hg).symm.trans hbad)

theorem penalty_of_not_relapse (h : r.Seeded config) (he : (machine config).Enabled r call)
    (hrelapse : ¬ r.Relapse config call) :
    (r.update call).governor.penaltyUs = r.governor.penaltyUs := by
  rcases RateGovernor.update_cases h.started call.smoothedRttUs call.nowUs with
    ⟨-, hg⟩ | ⟨-, -, -, hg⟩ | ⟨-, hg⟩
  · refine (congrArg RateGovernor.penaltyUs hg).trans (if_neg fun hsoon => hrelapse ?_)
    have hle := h.entered_le he
    obtain ⟨hgood, hlt⟩ := hsoon
    rw [h.configured, UInt64.lt_iff_toNat_lt, UInt64.toNat_sub_of_le _ _ hle] at hlt
    refine ⟨hgood, congrArg RateGovernor.mode hg, _, h.lastEntry, ?_⟩
    omega
  · exact (congrArg RateGovernor.penaltyUs hg).trans rfl
  · exact congrArg RateGovernor.penaltyUs hg

theorem penalty_le_update (h : r.Seeded config) (he : (machine config).Enabled r call)
    (hmax : config.maxPenaltyUs.toNat < 2 ^ 63) :
    r.governor.penaltyUs ≤ (r.update call).governor.penaltyUs := by
  by_cases hrelapse : r.Relapse config call
  · have hcap := UInt64.le_iff_toNat_le.mp h.penalty
    have hdoubled := h.penalty_of_relapse he hmax hrelapse
    rw [UInt64.le_iff_toNat_le]
    omega
  · rw [h.penalty_of_not_relapse he hrelapse]
    exact UInt64.le_refl _

end Seeded

theorem init_or_seeded (hinit : config.initialPenaltyUs ≤ config.maxPenaltyUs)
    (h : (machine config).Reachable r) : r = (machine config).init ∨ r.Seeded config := by
  apply Machine.Reachable.invariant (I := fun r => r = (machine config).init ∨ r.Seeded config)
    (Or.inl rfl) _ h
  intro r call hr he
  rcases hr with hr | hr
  · exact Or.inr (hr ▸ Seeded.first hinit call)
  · exact Or.inr (hr.step he)

/-- Good is entered only when the penalty has passed since every congested call and every
earlier entry, and the penalty grows, by doubling up to its cap, exactly at relapses. -/
theorem never_thrashes (hinit : config.initialPenaltyUs ≤ config.maxPenaltyUs)
    (hmax : config.maxPenaltyUs.toNat < 2 ^ 63) (h : (machine config).Reachable r)
    (he : (machine config).Enabled r call) :
    (r.governor.mode = Mode.bad → (r.update call).governor.mode = Mode.good →
      (∀ c ∈ (r.update call).calls.tail, Congested config c →
        c.nowUs.toNat + r.governor.penaltyUs.toNat ≤ call.nowUs.toNat) ∧
      ∀ e ∈ r.entries, e.toNat + r.governor.penaltyUs.toNat ≤ call.nowUs.toNat) ∧
    r.governor.penaltyUs ≤ (r.update call).governor.penaltyUs ∧
    r.governor.penaltyUs ≤ config.maxPenaltyUs ∧
    (r.Relapse config call → (r.update call).governor.penaltyUs.toNat =
      min (2 * r.governor.penaltyUs.toNat) config.maxPenaltyUs.toNat) ∧
    (¬ r.Relapse config call →
      (r.update call).governor.penaltyUs = r.governor.penaltyUs) := by
  rcases init_or_seeded hinit h with hr | hr
  · have hmode : r.governor.mode = Mode.good := by rw [hr]; rfl
    have hsame : (r.update call).governor.penaltyUs = r.governor.penaltyUs := by rw [hr]; rfl
    have hnext : (r.update call).governor.mode = Mode.good := by rw [hr]; rfl
    have hcap : r.governor.penaltyUs ≤ config.maxPenaltyUs := by
      rw [hr]
      exact hinit
    refine ⟨fun hbad => ?_, hsame ▸ UInt64.le_refl _, hcap, fun hrelapse => ?_, fun _ => hsame⟩
    · cases hmode.symm.trans hbad
    · cases hnext.symm.trans hrelapse.2.1
  · exact ⟨fun hbad hgood => ⟨fun _ => hr.earned_congested he hbad hgood,
      fun _ => hr.earned_entries he hbad hgood⟩, hr.penalty_le_update he hmax, hr.penalty,
      hr.penalty_of_relapse he hmax, hr.penalty_of_not_relapse he⟩

def relapsed : Governed ℚ :=
  (machine {}).runFrom (machine {}).init [⟨80000, 0⟩, ⟨300000, 1000000⟩]

theorem never_thrashes_relapsed :
    (0 : Micros).toNat + relapsed.governor.penaltyUs.toNat ≤ (9000000 : Micros).toNat := by
  have hreach : (machine {}).Reachable relapsed :=
    Machine.Reachable.init.runFrom (by decide +kernel)
  have henabled : (machine {}).Enabled relapsed ⟨80000, 9000000⟩ := by decide +kernel
  have hspec := never_thrashes (by decide) (by decide) hreach henabled
  exact (hspec.1 (by decide +kernel) (by decide +kernel)).2 0 (by decide +kernel)

end Governed

end Netcode.Transport
