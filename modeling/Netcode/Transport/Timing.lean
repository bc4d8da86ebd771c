import Netcode.Library.Scalar
import Netcode.Transport.Connection

/-!
# Round-trip estimation and the send-rate governor

Times are microseconds in sixty-four bits, and their differences wrap. The
smoothed round trip is a `double` of the source, here any `Scalar`.
-/

namespace Netcode.Transport

open Netcode.Library

abbrev Micros := UInt64

abbrev kWindow : ℕ := 1024

structure RttEstimator (δ : Type*) [Scalar δ] where
  sentAtUs : Fin kWindow → Micros := fun _ => 0
  awaiting : Fin kWindow → Bool := fun _ => false
  hasEstimate : Bool := false
  smoothedUs : δ := Scalar.ofRat 0
  latestSampleUs : Micros := 0

namespace RttEstimator

variable {δ : Type*} [Scalar δ]

def kGain : δ := Scalar.ofRat (1 / 10)

def window (sequence : UInt16) : Fin kWindow :=
  ⟨sequence.toNat % kWindow, Nat.mod_lt _ (by decide)⟩

def onSent (r : RttEstimator δ) (sequence : UInt16) (nowUs : Micros) : RttEstimator δ :=
  { r with
    sentAtUs := Function.update r.sentAtUs (window sequence) nowUs
    awaiting := Function.update r.awaiting (window sequence) true }

def toDouble (us : Micros) : δ := Scalar.ofRat us.toNat

def onAcked (r : RttEstimator δ) (sequence : UInt16) (nowUs : Micros) : Bool × RttEstimator δ :=
  if !r.awaiting (window sequence) then (false, r)
  else
    let sample := nowUs - r.sentAtUs (window sequence)
    (true, { r with
      awaiting := Function.update r.awaiting (window sequence) false
      latestSampleUs := sample
      smoothedUs :=
        if !r.hasEstimate then toDouble sample
        else r.smoothedUs + kGain * (toDouble sample - r.smoothedUs)
      hasEstimate := true })

end RttEstimator

inductive Mode
  | good
  | bad
deriving DecidableEq, Repr

structure Config (δ : Type*) [Scalar δ] where
  goodIntervalUs : Micros := 33333
  badIntervalUs : Micros := 100000
  thresholdUs : δ := Scalar.ofRat 250000
  initialPenaltyUs : Micros := 4000000
  maxPenaltyUs : Micros := 60000000
  goodDwellUs : Micros := 10000000

structure RateGovernor (δ : Type*) [Scalar δ] where
  config : Config δ := {}
  mode : Mode := Mode.good
  penaltyUs : Micros := config.initialPenaltyUs
  goodEnteredUs : Micros := 0
  healthySinceUs : Micros := 0
  started : Bool := false

namespace RateGovernor

variable {δ : Type*} [Scalar δ]

def update (g : RateGovernor δ) (smoothedRttUs : δ) (nowUs : Micros) : RateGovernor δ :=
  if !g.started then { g with goodEnteredUs := nowUs, healthySinceUs := nowUs, started := true }
  else if Scalar.lt g.config.thresholdUs smoothedRttUs then
    { g with
      penaltyUs :=
        if g.mode = Mode.good ∧ nowUs - g.goodEnteredUs < g.config.goodDwellUs
          then min (g.penaltyUs * 2) g.config.maxPenaltyUs else g.penaltyUs
      mode := Mode.bad
      healthySinceUs := nowUs }
  else if g.mode = Mode.bad ∧ g.penaltyUs ≤ nowUs - g.healthySinceUs then
    { g with mode := Mode.good, goodEnteredUs := nowUs }
  else g

def sendIntervalUs (g : RateGovernor δ) : Micros :=
  match g.mode with
  | .good => g.config.goodIntervalUs
  | .bad => g.config.badIntervalUs

end RateGovernor

end Netcode.Transport
