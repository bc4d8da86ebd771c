import Netcode.Library.Machine
import Netcode.Transport.Timing

/-!
# Whose round trip is sampled

An estimator keeps one send time for all sequences that share a slot of its
window and does not know which of them it belongs to. A run keeps beside it the
send time of every sequence that has not been sampled since it was sent, and the
sequence that was sent last into each slot. A slot that awaits an ack holds the
send time of the latter, so that an ack is attributed rightly when it names that
sequence, and otherwise only by a coincidence of send times.
-/

namespace Netcode.Transport

open Netcode.Library

inductive RttCall
  | sent (nowUs : Micros)
  | acked (sequence : UInt16) (nowUs : Micros)

def RttCall.nowUs : RttCall → Micros
  | .sent nowUs => nowUs
  | .acked _ nowUs => nowUs

structure Sampled (δ : Type*) [Scalar δ] where
  estimator : RttEstimator δ := {}
  issued : ℕ := 0
  nowUs : Micros := 0
  unsampled : UInt16 → Option Micros := fun _ => none
  latest : Fin kWindow → Option UInt16 := fun _ => none

namespace Sampled

variable {δ : Type*} [Scalar δ]

open RttEstimator (window)

def next (p : Sampled δ) : RttCall → Sampled δ
  | .sent nowUs =>
    let sequence := sequenceAt p.issued
    { estimator := p.estimator.onSent sequence nowUs
      issued := p.issued + 1
      nowUs := nowUs
      unsampled := Function.update p.unsampled sequence (some nowUs)
      latest := Function.update p.latest (window sequence) (some sequence) }
  | .acked sequence nowUs =>
    let (sampled, estimator) := p.estimator.onAcked sequence nowUs
    { p with
      estimator := estimator
      nowUs := nowUs
      unsampled := if sampled then Function.update p.unsampled sequence none else p.unsampled }

def machine : Machine (Sampled δ) RttCall where
  init := {}
  Enabled p call := p.nowUs ≤ call.nowUs
  next := next

/-- The ack of `sequence` samples its own round trip, and nothing if it has none to sample. -/
def Attributed (p : Sampled δ) (sequence : UInt16) (nowUs : Micros) : Prop :=
  ((p.estimator.onAcked sequence nowUs).1 = true → ∃ sentUs, p.unsampled sequence = some sentUs ∧
    sentUs ≤ nowUs ∧ (p.estimator.onAcked sequence nowUs).2.latestSampleUs.toNat =
      nowUs.toNat - sentUs.toNat) ∧
  (p.unsampled sequence = none → p.estimator.onAcked sequence nowUs = (false, p.estimator))

/-- If the slot awaits an ack, the sequence is the one sent last into it or was sent as late. -/
def Unaliased (p : Sampled δ) (sequence : UInt16) : Prop :=
  p.estimator.awaiting (window sequence) = true → ∀ owner,
    p.latest (window sequence) = some owner →
      sequence = owner ∨ ∃ sentUs, p.unsampled sequence = some sentUs ∧
        p.unsampled owner = some sentUs

structure Owned (p : Sampled δ) : Prop where
  sent_le : ∀ s sentUs, p.unsampled s = some sentUs → sentUs ≤ p.nowUs
  owner : ∀ i, p.estimator.awaiting i = true → ∃ s, p.latest i = some s ∧ window s = i ∧
    p.unsampled s = some (p.estimator.sentAtUs i)

variable {p : Sampled δ} {nowUs : Micros}

theorem onAcked_of_not_awaiting (nowUs : Micros) {sequence : UInt16}
    (h : p.estimator.awaiting (window sequence) = false) :
    p.estimator.onAcked sequence nowUs = (false, p.estimator) := by
  rw [RttEstimator.onAcked, h]
  rfl

theorem onAcked_of_awaiting (nowUs : Micros) {sequence : UInt16}
    (h : p.estimator.awaiting (window sequence) = true) :
    (p.estimator.onAcked sequence nowUs).1 = true ∧
    (p.estimator.onAcked sequence nowUs).2.latestSampleUs =
      nowUs - p.estimator.sentAtUs (window sequence) ∧
    (p.estimator.onAcked sequence nowUs).2.sentAtUs = p.estimator.sentAtUs ∧
    (p.estimator.onAcked sequence nowUs).2.awaiting =
      Function.update p.estimator.awaiting (window sequence) false := by
  rw [RttEstimator.onAcked, h]
  exact ⟨rfl, rfl, rfl, rfl⟩

namespace Owned

theorem init : Owned (machine (δ := δ)).init where
  sent_le _ _ h := absurd h (Option.some_ne_none _).symm
  owner _ h := absurd h Bool.false_ne_true

theorem sent (h : Owned p) (hnow : p.nowUs ≤ nowUs) : Owned (p.next (.sent nowUs)) where
  sent_le s sentUs hs := by
    by_cases hseq : s = sequenceAt p.issued
    · simp only [next, hseq, Function.update_self, Option.some.injEq] at hs
      exact hs ▸ UInt64.le_refl _
    · simp only [next, Function.update_of_ne hseq] at hs
      exact UInt64.le_trans (h.sent_le s sentUs hs) hnow
  owner i hi := by
    by_cases hslot : i = window (sequenceAt p.issued)
    · refine ⟨sequenceAt p.issued, ?_, hslot.symm, ?_⟩ <;>
        simp only [next, RttEstimator.onSent, hslot, Function.update_self]
    · simp only [next, RttEstimator.onSent, Function.update_of_ne hslot] at hi ⊢
      obtain ⟨s, hs, hw, hsent⟩ := h.owner i hi
      have hne : s ≠ sequenceAt p.issued := fun heq => hslot (by rw [← hw, heq])
      exact ⟨s, hs, hw, by rw [Function.update_of_ne hne, hsent]⟩

theorem acked (h : Owned p) (hnow : p.nowUs ≤ nowUs) (sequence : UInt16) :
    Owned (p.next (.acked sequence nowUs)) := by
  cases haw : p.estimator.awaiting (window sequence) with
  | false =>
    have heq := onAcked_of_not_awaiting nowUs haw
    simp only [next, heq]
    exact ⟨fun s sentUs hs => UInt64.le_trans (h.sent_le s sentUs hs) hnow, h.owner⟩
  | true =>
    obtain ⟨htrue, _, htimes, hawaiting⟩ := onAcked_of_awaiting nowUs haw
    constructor
    case sent_le =>
      intro s sentUs hs
      simp only [next, htrue, if_true] at hs
      by_cases hseq : s = sequence
      · rw [hseq, Function.update_self] at hs
        exact absurd hs (Option.some_ne_none _).symm
      · rw [Function.update_of_ne hseq] at hs
        exact UInt64.le_trans (h.sent_le s sentUs hs) hnow
    case owner =>
      intro i hi
      simp only [next, htrue, if_true, hawaiting, htimes] at hi ⊢
      by_cases hslot : i = window sequence
      · rw [hslot, Function.update_self] at hi
        exact absurd hi Bool.false_ne_true
      · rw [Function.update_of_ne hslot] at hi
        obtain ⟨s, hs, hw, hsent⟩ := h.owner i hi
        have hne : s ≠ sequence := fun heq => hslot (by rw [← hw, heq])
        exact ⟨s, hs, hw, by rw [Function.update_of_ne hne, hsent]⟩

end Owned

theorem owned (h : machine.Reachable p) : Owned p := by
  apply h.invariant Owned.init
  intro p call hp hnow
  cases call with
  | sent nowUs => exact hp.sent hnow
  | acked sequence nowUs => exact hp.acked hnow sequence

/-- An ack is attributed rightly exactly when no other sequence has taken the slot since. -/
theorem attributed_iff (h : machine.Reachable p) (hnow : p.nowUs ≤ nowUs) (sequence : UInt16) :
    p.Attributed sequence nowUs ↔ p.Unaliased sequence := by
  have howned := owned h
  cases haw : p.estimator.awaiting (window sequence) with
  | false =>
    have heq := onAcked_of_not_awaiting nowUs haw
    have hleft : p.Attributed sequence nowUs := by
      refine ⟨fun htrue => ?_, fun _ => heq⟩
      rw [heq] at htrue
      exact absurd htrue Bool.false_ne_true
    have hright : p.Unaliased sequence := fun htrue => absurd (haw.symm.trans htrue)
      Bool.false_ne_true
    exact iff_of_true hleft hright
  | true =>
    obtain ⟨htrue, hsample, _, _⟩ := onAcked_of_awaiting nowUs haw
    obtain ⟨owner, hlatest, _, hsent⟩ := howned.owner (window sequence) haw
    have hle := UInt64.le_trans (howned.sent_le owner _ hsent) hnow
    have hvalue : (p.estimator.onAcked sequence nowUs).2.latestSampleUs.toNat =
        nowUs.toNat - (p.estimator.sentAtUs (window sequence)).toNat := by
      rw [hsample, UInt64.toNat_sub_of_le _ _ hle]
    constructor
    · intro hattr _ u hu
      obtain ⟨sentUs, hunsampled, hsentle, heq⟩ := hattr.1 htrue
      obtain rfl : owner = u := Option.some.inj (hlatest.symm.trans hu)
      have hsame : sentUs = p.estimator.sentAtUs (window sequence) := by
        rw [UInt64.le_iff_toNat_le] at hle hsentle
        apply UInt64.toNat_inj.mp
        omega
      exact Or.inr ⟨sentUs, hunsampled, hsame ▸ hsent⟩
    · intro hunaliased
      have hown : p.unsampled sequence = some (p.estimator.sentAtUs (window sequence)) := by
        rcases hunaliased haw owner hlatest with heq | ⟨sentUs, hseq, howner⟩
        · exact (congrArg p.unsampled heq).trans hsent
        · rw [hseq, ← howner, hsent]
      refine ⟨fun _ => ⟨_, hown, hle, hvalue⟩, fun hnone => ?_⟩
      exact absurd (hown.symm.trans hnone) (Option.some_ne_none _)

def first : Sampled ℚ := next {} (RttCall.sent 0)

theorem first_reachable : machine.Reachable first :=
  Machine.Reachable.init.step (RttCall.sent 0) (UInt64.le_refl 0)

theorem attributed_iff_first : first.Attributed 1 500 ↔ first.Unaliased 1 :=
  attributed_iff first_reachable (by decide) 1

/-- Packet 1025 was never sent, but its slot awaits the ack of packet 1. -/
theorem attributed_aliased :
    ¬ ∀ p : Sampled ℚ, machine.Reachable p → ∀ sequence nowUs, p.nowUs ≤ nowUs →
      p.Attributed sequence nowUs := by
  intro hclaim
  have hattr := hclaim first first_reachable 1025 500 (by decide)
  have hnone : first.unsampled 1025 = none := by decide
  have hignored := congrArg Prod.fst (hattr.2 hnone)
  exact Bool.noConfusion hignored

end Sampled

end Netcode.Transport
