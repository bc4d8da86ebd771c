import Netcode.Library.Extended
import Netcode.Sim.World

/-!
# The world stays in its box

A step adds to each coordinate what the velocity makes of the time step and
clamps the sum, which keeps every number inside the box and lets NaN pass. The
velocity comes from the network unchecked, so that a NaN direction poisons the
position of its entity at the next step.
-/

namespace Netcode.Sim

open Netcode.Library

def floatAt (bytes : Bytes) (off : ℕ) : Extended :=
  Extended.ofBits (UInt32.ofNat (decodeLE ((bytes.drop off).take 4)))

def decodeInput (bytes : Bytes) : Option (Input Extended) :=
  if bytes.length < 12 then none
  else some
    { lastReceivedTick := UInt32.ofNat (decodeLE (bytes.take 4))
      dx := floatAt bytes 4
      dy := floatAt bytes 8 }

namespace World

variable {ρ : Type*}

/-- What the server does with a world: inputs are decoded and time goes forward. -/
def Served : Event Extended → Prop
  | .applyInput _ input => ∃ payload : Bytes, payload.length = 12 ∧ decodeInput payload = some input
  | .step d => Scalar.lt (Scalar.ofRat 0) d = true
  | _ => True

def Inside (bound : Extended) (e : Entity Extended) : Prop :=
  Extended.Within bound e.x ∧ Extended.Within bound e.y

def InBox (w : World Extended ρ) : Prop :=
  ∀ id e, w.entities.lookup id = some e → Inside w.bound e

/-- A step moves every entity by a number: its velocity is not NaN, it does not stand still
while the time step is infinite, and none at an infinite coordinate moves infinitely back. -/
def Calm (w : World Extended ρ) : Event Extended → Prop
  | .step d => ∀ id e, w.entities.lookup id = some e →
      Extended.Steady e.x e.vx d ∧ Extended.Steady e.y e.vy d
  | _ => True

theorem calm_step_iff (w : World Extended ρ) (d : Extended) : w.Calm (.step d) ↔
    ∀ entry ∈ w.entities.entries,
      Extended.Steady entry.2.x entry.2.vx d ∧ Extended.Steady entry.2.y entry.2.vy d :=
  ⟨fun h entry hentry => h entry.1 entry.2 (SortedMap.lookup_eq_some_iff.mpr hentry),
    fun h id e hlook => h (id, e) (SortedMap.lookup_eq_some_iff.mp hlook)⟩

instance (w : World Extended ρ) (d : Extended) : Decidable (w.Calm (.step d)) :=
  decidable_of_iff _ (w.calm_step_iff d).symm

def DrawsWithin (uniform : Extended → ρ → Extended × ρ) (bound : Extended) : Prop :=
  ∀ rng, Extended.Within bound (uniform bound rng).1

variable {uniform : Extended → ρ → Extended × ρ} {bound : Extended} {w : World Extended ρ}
  {e : Event Extended}

theorem bound_next (uniform : Extended → ρ → Extended × ρ) (w : World Extended ρ)
    (e : Event Extended) : (w.next uniform e).bound = w.bound := by
  cases e with
  | applyInput id input =>
    simp only [next, applyInput]
    cases w.entities.lookup id <;> rfl
  | _ => rfl

theorem bound_eq {rng : ρ} (h : (machine uniform bound rng).Reachable w) : w.bound = bound := by
  apply h.invariant (I := fun w => w.bound = bound) rfl
  intro w e hw _
  exact (bound_next uniform w e).trans hw

theorem lookup_next {id : EntityId} {moved : Entity Extended}
    (h : (w.next uniform e).entities.lookup id = some moved) :
    (∃ rng, e = .addPlayer ∧ moved = ⟨(uniform w.bound w.rng).1, (uniform w.bound rng).1,
      Scalar.ofRat 0, Scalar.ofRat 0⟩) ∨
    w.entities.lookup id = some moved ∨
    (∃ input old, e = .applyInput id input ∧ w.entities.lookup id = some old ∧
      moved = { old with vx := input.dx * kSpeed, vy := input.dy * kSpeed }) ∨
    ∃ d old, e = .step d ∧ w.entities.lookup id = some old ∧ moved = { old with
      x := Scalar.clamp (old.x + old.vx * d) (Scalar.ofRat 0) w.bound
      y := Scalar.clamp (old.y + old.vy * d) (Scalar.ofRat 0) w.bound } := by
  cases e with
  | addPlayer =>
    simp only [next, addPlayer, SortedMap.lookup_insert] at h
    split_ifs at h
    · exact Or.inl ⟨_, rfl, (Option.some.inj h).symm⟩
    · exact Or.inr (Or.inl h)
  | removePlayer k =>
    simp only [next, removePlayer, SortedMap.lookup_erase] at h
    split_ifs at h
    exact Or.inr (Or.inl h)
  | applyInput k input =>
    right
    simp only [next, applyInput] at h
    cases hlook : w.entities.lookup k with
    | none =>
      rw [hlook] at h
      exact Or.inl h
    | some old =>
      simp only [hlook, SortedMap.lookup_insert] at h
      split_ifs at h with hk
      · exact Or.inr (Or.inl ⟨input, old, hk ▸ rfl, hk ▸ hlook, (Option.some.inj h).symm⟩)
      · exact Or.inl h
  | step d =>
    simp only [next, step, SortedMap.lookup_map, Option.map_eq_some_iff] at h
    obtain ⟨old, hlook, rfl⟩ := h
    exact Or.inr (Or.inr (Or.inr ⟨d, old, rfl, hlook, rfl⟩))

namespace InBox

theorem init (rng : ρ) : (machine uniform bound rng).init.InBox :=
  fun _ _ h => absurd h (Option.some_ne_none _).symm

theorem next (h : w.InBox) (hbound : Scalar.lt (Scalar.ofRat 0) w.bound = true)
    (huniform : DrawsWithin uniform w.bound) (he : Served e) (hcalm : w.Calm e) :
    (w.next uniform e).InBox := by
  intro id moved hlook
  rw [bound_next]
  rcases lookup_next hlook with ⟨rng, _, rfl⟩ | hold | ⟨input, old, _, hold, rfl⟩ |
    ⟨d, old, rfl, hold, rfl⟩
  · exact ⟨huniform w.rng, huniform rng⟩
  · exact h id moved hold
  · exact h id old hold
  · have hinside := h id old hold
    obtain ⟨hx, hy⟩ := hcalm id old hold
    exact ⟨(Extended.within_step_iff hinside.1 he hbound).mpr hx,
      (Extended.within_step_iff hinside.2 he hbound).mpr hy⟩

theorem calm (h : w.InBox) (hbound : Scalar.lt (Scalar.ofRat 0) w.bound = true) (he : Served e)
    (hnext : (w.next uniform e).InBox) : w.Calm e := by
  cases e with
  | step d =>
    intro id old hlook
    have hinside := h id old hlook
    have hmoved := hnext id _ (by rw [World.next, World.step, SortedMap.lookup_map, hlook]; rfl)
    exact ⟨(Extended.within_step_iff hinside.1 he hbound).mp hmoved.1,
      (Extended.within_step_iff hinside.2 he hbound).mp hmoved.2⟩
  | _ => trivial

end InBox

/-- The world stays in its box in every run in which each step moves every entity by a number,
and leaves it with the first step that does not. -/
theorem inBox_iff (hbound : Scalar.lt (Scalar.ofRat 0) bound = true)
    (huniform : DrawsWithin uniform bound) (rng : ρ) :
    (∀ w, (machine uniform bound rng).ReachableUnder (fun w e => Served e ∧ w.Calm e) w →
      w.InBox) ∧
    ∀ w, (machine uniform bound rng).ReachableUnder (fun _ e => Served e) w → w.InBox →
      ∀ e, Served e → ((w.next uniform e).InBox ↔ w.Calm e) := by
  constructor
  · intro w h
    have hinv : w.bound = bound ∧ w.InBox := by
      apply h.invariant (I := fun w => w.bound = bound ∧ w.InBox) ⟨rfl, InBox.init rng⟩
      intro w e hw hguard _
      obtain ⟨rfl, hbox⟩ := hw
      exact ⟨bound_next uniform w e, hbox.next hbound huniform hguard.1 hguard.2⟩
    exact hinv.2
  · intro w h hbox e he
    have hw := bound_eq h.reachable
    rw [← hw] at hbound huniform
    exact ⟨hbox.calm hbound he, hbox.next hbound huniform he⟩

def drawOrigin (_ : Extended) (rng : Unit) : Extended × Unit := (Scalar.ofRat 0, rng)

def hundred : Extended := Scalar.ofRat 100

def tick : Extended := Scalar.ofRat (1 / 20)

theorem hundred_pos : Scalar.lt (Scalar.ofRat 0) hundred = true := by decide +kernel

theorem tick_pos : Scalar.lt (Scalar.ofRat 0) tick = true := by decide +kernel

theorem drawOrigin_within : DrawsWithin drawOrigin hundred := by
  intro rng
  have hzero : Extended.Within hundred (Scalar.ofRat 0) := by decide +kernel
  exact hzero

def joined : World Extended Unit := ((machine drawOrigin hundred ()).init.addPlayer drawOrigin).2

def poison : Bytes := [0, 0, 0, 0, 0, 0, 0xC0, 0x7F, 0, 0, 0, 0]

def poisonInput : Input Extended := ⟨floatAt poison 4, floatAt poison 8, 0⟩

def pushPayload : Bytes := [0, 0, 0, 0, 0, 0, 0x80, 0x3F, 0, 0, 0x80, 0xBF]

def flingPayload : Bytes := [0, 0, 0, 0, 0, 0, 0x80, 0x7F, 0, 0, 0, 0]

def pushInput : Input Extended := ⟨floatAt pushPayload 4, floatAt pushPayload 8, 0⟩

def flingInput : Input Extended := ⟨floatAt flingPayload 4, floatAt flingPayload 8, 0⟩

def pushedRun : List (Event Extended) :=
  [.addPlayer, .addPlayer, .applyInput 1 pushInput, .applyInput 2 flingInput, .step tick,
    .removePlayer 2, .step tick, .applyInput 1 poisonInput]

theorem admits_pushedRun : (machine drawOrigin hundred ()).AdmitsUnder
    (fun w e => Served e ∧ w.Calm e) { bound := hundred, rng := () } pushedRun :=
  ⟨⟨trivial, trivial⟩, trivial, ⟨trivial, trivial⟩, trivial,
    ⟨⟨pushPayload, rfl, rfl⟩, trivial⟩, trivial, ⟨⟨flingPayload, rfl, rfl⟩, trivial⟩, trivial,
    ⟨tick_pos, by decide +kernel⟩, trivial, ⟨trivial, trivial⟩, trivial,
    ⟨tick_pos, by decide +kernel⟩, trivial, ⟨⟨poison, rfl, rfl⟩, trivial⟩, trivial, trivial⟩

theorem inBox_iff_pushedRun :
    let w := (machine drawOrigin hundred ()).runFrom { bound := hundred, rng := () } pushedRun
    (w.InBox ∧ ((w.next drawOrigin (.step tick)).InBox ↔ w.Calm (.step tick))) ∧
      (w.entities.lookup 1).map (fun e => (e.x, e.y)) =
        some (Extended.finite 2, Extended.finite 0) ∧ ¬ w.Calm (.step tick) := by
  intro w
  obtain ⟨hbox, hiff⟩ := inBox_iff hundred_pos drawOrigin_within ()
  have hreach : (machine drawOrigin hundred ()).ReachableUnder
      (fun w e => Served e ∧ w.Calm e) w := Machine.ReachableUnder.init.runFrom admits_pushedRun
  have hserved := hreach.mono fun _ _ h => h.1
  exact ⟨⟨hbox w hreach, hiff w hserved (hbox w hreach) (.step tick) tick_pos⟩,
    by decide +kernel⟩

theorem poisoned_leaves_box :
    ¬ ∀ (bound : Extended) (uniform : Extended → Unit → Extended × Unit),
      Scalar.lt (Scalar.ofRat 0) bound = true → DrawsWithin uniform bound → ∀ rng w,
        (machine uniform bound rng).ReachableUnder (fun _ e => Served e) w → w.InBox := by
  intro hclaim
  have hbox := hclaim hundred drawOrigin hundred_pos drawOrigin_within () _
    (Machine.ReachableUnder.init
      |>.step Event.addPlayer trivial trivial
      |>.step (Event.applyInput 1 poisonInput) ⟨poison, rfl, rfl⟩ trivial
      |>.step (Event.step tick) tick_pos trivial)
  have hx : (((joined.applyInput 1 poisonInput).step tick).entities.lookup 1).map Entity.x =
      some Extended.nan := by decide +kernel
  obtain ⟨e, hlook, hnan⟩ := Option.map_eq_some_iff.mp hx
  exact Extended.not_within_nan _ (hnan ▸ (hbox 1 e hlook).1)

def Numeric : Event Extended → Prop
  | .applyInput _ input => input.dx ≠ Extended.nan ∧ input.dy ≠ Extended.nan
  | .step d => d ≠ Extended.inf false
  | _ => True

def Moving (w : World Extended ρ) : Prop :=
  ∀ id e, w.entities.lookup id = some e → e.vx ≠ Extended.nan ∧ e.vy ≠ Extended.nan

theorem velocity_eq_nan_iff (dx : Extended) : dx * kSpeed = Extended.nan ↔ dx = Extended.nan := by
  have hspeed : Scalar.lt (Scalar.ofRat 0) (kSpeed : Extended) = true := by decide +kernel
  rw [Extended.mul_eq_nan_iff hspeed]
  exact or_iff_left fun h => Extended.noConfusion h.2

theorem Moving.next (h : w.Moving) (he : Numeric e) : (w.next uniform e).Moving := by
  intro id moved hlook
  rcases lookup_next hlook with ⟨rng, _, rfl⟩ | hold | ⟨input, old, rfl, _, rfl⟩ |
    ⟨d, old, _, hold, rfl⟩
  · exact ⟨Extended.noConfusion, Extended.noConfusion⟩
  · exact h id moved hold
  · exact ⟨mt (velocity_eq_nan_iff _).mp he.1, mt (velocity_eq_nan_iff _).mp he.2⟩
  · exact h id old hold

theorem calm_of_numeric (hbox : w.InBox) (hmoving : w.Moving)
    (hbound : w.bound ≠ Extended.inf false) (he : Numeric e) : w.Calm e := by
  cases e with
  | step d =>
    intro id e hlook
    have hinside := hbox id e hlook
    have hvelocity := hmoving id e hlook
    exact ⟨⟨hvelocity.1, fun h => he h.2, fun h => hinside.1.ne_inf hbound h.1⟩,
      ⟨hvelocity.2, fun h => he h.2, fun h => hinside.2.ne_inf hbound h.1⟩⟩
  | _ => trivial

/-- In a finite box with finite time steps, only a direction that is NaN can leave the box. -/
theorem inBox_of_numeric (hbound : Scalar.lt (Scalar.ofRat 0) bound = true)
    (hfinite : bound ≠ Extended.inf false) (huniform : DrawsWithin uniform bound) {rng : ρ}
    (h : (machine uniform bound rng).ReachableUnder (fun _ e => Served e ∧ Numeric e) w) :
    w.InBox := by
  have hinv : w.bound = bound ∧ w.InBox ∧ w.Moving := by
    apply h.invariant (I := fun w => w.bound = bound ∧ w.InBox ∧ w.Moving)
    · exact ⟨rfl, InBox.init rng, fun _ _ h => absurd h (Option.some_ne_none _).symm⟩
    · intro w e hw hguard _
      obtain ⟨rfl, hbox, hmoving⟩ := hw
      have hcalm := calm_of_numeric hbox hmoving hfinite hguard.2
      exact ⟨bound_next uniform w e, hbox.next hbound huniform hguard.1 hcalm,
        hmoving.next hguard.2⟩
  exact hinv.2.1

end World

end Netcode.Sim
