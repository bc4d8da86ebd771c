import Mathlib.Tactic.NormNum
import Netcode.Sim.Inputs

/-!
# What a bot puts on the wire

A driver holds a heading for thirty to sixty ticks and then draws a new one; each
tick it moves some part of the way along the heading, and every 180th tick it
emits an event. The generator with its distributions and the two functions of
the C library are parameters.
-/

namespace Netcode.Bots

open Netcode.Library Netcode.Sim

structure Noise (σ : Type*) where
  angle : σ → Extended × σ
  hold : σ → ℤ × σ
  distance : σ → Extended × σ
  cos : Extended → Extended
  sin : Extended → Extended

structure BotDriver (σ : Type*) where
  rng : σ
  tickCount : UInt64 := 0
  headingDx : Extended := Scalar.ofRat 0
  headingDy : Extended := Scalar.ofRat 0
  headingTicksLeft : ℤ := 0

structure Emit where
  input : Input Extended
  event : Option UInt32

/-- What the distributions and the two functions promise. -/
structure Noise.Fair {σ : Type*} (noise : Noise σ) : Prop where
  hold : ∀ r, 30 ≤ (noise.hold r).1 ∧ (noise.hold r).1 ≤ 60
  distance : ∀ r, Extended.Bounded 1 (noise.distance r).1
  cos : ∀ r, Extended.Bounded 1 (noise.cos (noise.angle r).1)
  sin : ∀ r, Extended.Bounded 1 (noise.sin (noise.angle r).1)

namespace BotDriver

variable {σ : Type*}

def reroll (noise : Noise σ) (d : BotDriver σ) : BotDriver σ :=
  if d.headingTicksLeft = 0 then
    let theta := noise.angle d.rng
    let hold := noise.hold theta.2
    { d with
      rng := hold.2
      headingDx := noise.cos theta.1
      headingDy := noise.sin theta.1
      headingTicksLeft := hold.1 }
  else d

def tick (noise : Noise σ) (d : BotDriver σ) : Emit × BotDriver σ :=
  let d := d.reroll noise
  let distance := noise.distance d.rng
  let tickCount := d.tickCount + 1
  (⟨{ dx := distance.1 * d.headingDx, dy := distance.1 * d.headingDy },
    if tickCount % 180 = 0 then some tickCount.toUInt32 else none⟩,
    { d with
      rng := distance.2
      headingTicksLeft := d.headingTicksLeft - 1
      tickCount := tickCount })

def ticks (noise : Noise σ) : ℕ → BotDriver σ → List Emit × BotDriver σ
  | 0, d => ([], d)
  | n + 1, d =>
    let r := ticks noise n d
    let e := r.2.tick noise
    (r.1 ++ [e.1], e.2)

variable {noise : Noise σ} {d : BotDriver σ}

def Steered (d : BotDriver σ) : Prop :=
  Extended.Bounded 1 d.headingDx ∧ Extended.Bounded 1 d.headingDy

theorem steered_start (seed : σ) : Steered { rng := seed } :=
  ⟨⟨0, by norm_num, rfl⟩, ⟨0, by norm_num, rfl⟩⟩

theorem Steered.tick (h : d.Steered) (hnoise : noise.Fair) :
    Extended.Bounded 1 (d.tick noise).1.input.dx ∧ Extended.Bounded 1 (d.tick noise).1.input.dy ∧
      (d.tick noise).2.Steered := by
  have hrolled : (d.reroll noise).Steered := by
    rw [reroll]
    split_ifs
    · exact ⟨hnoise.cos d.rng, hnoise.sin d.rng⟩
    · exact h
  have hdistance := hnoise.distance (d.reroll noise).rng
  have hx := hdistance.mul hrolled.1
  have hy := hdistance.mul hrolled.2
  rw [one_mul] at hx hy
  exact ⟨hx, hy, hrolled⟩

end BotDriver

end Netcode.Bots
