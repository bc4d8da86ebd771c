import Mathlib.Order.Interval.Finset.Nat
import Netcode.Library.Machine
import Netcode.Sim.Delta

/-!
# The authoritative world

The world keeps one entity for each player and gives out ids from a counter that
never goes back. A keyframe has sixteen bits for an id, so a world comes back from
the wire as long as the counter has not left them; `IdsLeft` is that condition on
a run. The random generator of the source is `uniform`, about which nothing is
assumed.
-/

namespace Netcode.Sim

open Netcode.Library

structure Entity (α : Type*) where
  x : α
  y : α
  vx : α
  vy : α

structure Input (α : Type*) where
  dx : α
  dy : α
  lastReceivedTick : UInt32 := 0

structure World (α ρ : Type*) where
  bound : α
  rng : ρ
  nextId : EntityId := 1
  entities : SortedMap EntityId (Entity α) := ∅

variable {α ρ : Type*} [Scalar α]

namespace World

def kSpeed : α := Scalar.ofRat 20

/-- A new entity at the next two points that `uniform` draws from `[0, bound]`. -/
def addPlayer (uniform : α → ρ → α × ρ) (w : World α ρ) : EntityId × World α ρ :=
  let x := uniform w.bound w.rng
  let y := uniform w.bound x.2
  (w.nextId, { w with
    rng := y.2
    nextId := w.nextId + 1
    entities := w.entities.insert w.nextId
      ⟨x.1, y.1, Scalar.ofRat 0, Scalar.ofRat 0⟩ })

def removePlayer (w : World α ρ) (id : EntityId) : World α ρ :=
  { w with entities := w.entities.erase id }

def applyInput (w : World α ρ) (id : EntityId) (input : Input α) : World α ρ :=
  match w.entities.lookup id with
  | none => w
  | some e => { w with
      entities := w.entities.insert id { e with vx := input.dx * kSpeed, vy := input.dy * kSpeed } }

/-- `d` is the time step after the cast to `float`. -/
def step (w : World α ρ) (d : α) : World α ρ :=
  { w with
    entities := w.entities.map fun _ e => { e with
      x := Scalar.clamp (e.x + e.vx * d) (Scalar.ofRat 0) w.bound
      y := Scalar.clamp (e.y + e.vy * d) (Scalar.ofRat 0) w.bound } }

def snapshot (w : World α ρ) : List (EntityState α) :=
  w.entities.entries.map fun entry => ⟨entry.1, entry.2.x, entry.2.y⟩

inductive Event (α : Type*)
  | addPlayer
  | removePlayer (id : EntityId)
  | applyInput (id : EntityId) (input : Input α)
  | step (d : α)

def next (uniform : α → ρ → α × ρ) (w : World α ρ) : Event α → World α ρ
  | .addPlayer => (w.addPlayer uniform).2
  | .removePlayer id => w.removePlayer id
  | .applyInput id input => w.applyInput id input
  | .step d => w.step d

def machine (uniform : α → ρ → α × ρ) (bound : α) (rng : ρ) : Machine (World α ρ) (Event α) where
  init := { bound := bound, rng := rng }
  Enabled _ _ := True
  next := next uniform

/-- The keyframe of the world is applied and has its tick, its number of entities and their ids. -/
def RoundTrips (w : World α ρ) (max : α) : Prop :=
  ∀ (tick : UInt32) (base : WorldSnapshot α),
    let applied := applySnapshot base (encodeKeyframe ⟨tick, w.snapshot⟩ max) max
    applied.1 = true ∧ applied.2.tick = tick ∧
      applied.2.entities.length = w.snapshot.length ∧
      applied.2.entities.map EntityState.id = w.snapshot.map EntityState.id

/-- A player joins only while there are ids of sixteen bits left. -/
def IdsLeft (w : World α ρ) : Event α → Prop
  | .addPlayer => w.nextId.toNat < 2 ^ 16
  | _ => True

def ids (w : World α ρ) : List EntityId := w.entities.keys

variable {uniform : α → ρ → α × ρ} {w : World α ρ}

theorem ids_step (w : World α ρ) (d : α) : (w.step d).ids = w.ids :=
  SortedMap.keys_map w.entities _

theorem mem_ids_addPlayer (uniform : α → ρ → α × ρ) (w : World α ρ) (id : EntityId) :
    id ∈ (w.addPlayer uniform).2.ids ↔ id = w.nextId ∨ id ∈ w.ids := by
  simp only [ids, SortedMap.mem_keys, addPlayer, SortedMap.lookup_insert]
  by_cases hid : w.nextId = id
  · simp [hid]
  · simp [hid, Ne.symm hid]

theorem applyInput_entities (w : World α ρ) (id : EntityId) (input : Input α) :
    (w.applyInput id input).entities = w.entities.map fun k e =>
      if k = id then { e with vx := input.dx * kSpeed, vy := input.dy * kSpeed } else e := by
  apply SortedMap.ext_lookup
  intro k
  rw [SortedMap.lookup_map, applyInput]
  cases hlook : w.entities.lookup id with
  | none =>
    by_cases hk : k = id
    · simp only [hk, hlook, Option.map_none]
    · simp only [if_neg hk, Option.map_id']
  | some e =>
    simp only [SortedMap.lookup_insert]
    by_cases hk : k = id
    · simp only [hk, hlook, if_true, Option.map_some]
    · simp only [if_neg hk, if_neg (Ne.symm hk), Option.map_id']

theorem ids_applyInput (w : World α ρ) (id : EntityId) (input : Input α) :
    (w.applyInput id input).ids = w.ids := by
  rw [ids, applyInput_entities, SortedMap.keys_map]
  rfl

theorem snapshot_applyInput (w : World α ρ) (id : EntityId) (input : Input α) :
    (w.applyInput id input).snapshot = w.snapshot := by
  rw [snapshot, applyInput_entities, SortedMap.map, List.map_map]
  apply List.map_congr_left
  intro entry _
  simp only [Function.comp_apply]
  split_ifs <;> rfl

@[simp] theorem nextId_applyInput (w : World α ρ) (id : EntityId) (input : Input α) :
    (w.applyInput id input).nextId = w.nextId := by
  rw [applyInput]
  cases w.entities.lookup id <;> rfl

theorem low_eq_iff (id : UInt32) : low 16 id = id ↔ id.toNat < 2 ^ 16 := by
  refine ⟨fun h => ?_, low_eq⟩
  rw [← h, low, UInt32.toNat_ofNat']
  omega

theorem roundTrips_iff (w : World α ρ) (max : α) : w.RoundTrips max ↔
    (∀ id ∈ w.ids, id.toNat < 2 ^ 16) ∧ w.ids.length < 2 ^ 16 := by
  have hids : w.snapshot.map EntityState.id = w.ids := by
    rw [snapshot, List.map_map]
    rfl
  have hlen : w.snapshot.length = w.ids.length := by rw [← hids, List.length_map]
  have happlied : ∀ n, ((w.snapshot.take n).map (wired max)).map EntityState.id =
      (w.ids.take n).map (low 16) := by
    intro n
    rw [← hids, ← List.map_take, List.map_map, List.map_map]
    rfl
  simp only [RoundTrips, keyframe_accepted, happlied, hids, hlen, true_and, List.length_map,
    List.length_take]
  constructor
  · intro h
    obtain ⟨hcount, hsame⟩ := h 0 {}
    have hshort : w.ids.length < 2 ^ 16 := by omega
    rw [Nat.mod_eq_of_lt hshort, List.take_length] at hsame
    refine ⟨fun id hid => (low_eq_iff id).mp ?_, hshort⟩
    exact List.map_inj_left.mp (hsame.trans (List.map_id _).symm) id hid
  · intro h tick base
    rw [Nat.mod_eq_of_lt h.2, min_self, List.take_length]
    exact ⟨rfl, (List.map_congr_left fun id hid => low_eq (h.1 id hid)).trans (List.map_id _)⟩

/-- Every id has been given out, counting from `1`, and fits sixteen bits. -/
structure Numbered (w : World α ρ) : Prop where
  pos : 0 < w.nextId.toNat
  le : w.nextId.toNat ≤ 2 ^ 16
  ids : ∀ id ∈ w.ids, 0 < id.toNat ∧ id.toNat < w.nextId.toNat

namespace Numbered

theorem roundTrips (h : w.Numbered) (max : α) : w.RoundTrips max := by
  rw [roundTrips_iff]
  refine ⟨fun id hid => (h.ids id hid).2.trans_le h.le, ?_⟩
  have hnodup : (w.ids.map UInt32.toNat).Nodup :=
    w.entities.nodup_keys.map fun _ _ heq => UInt32.toNat_inj.mp heq
  have hsub : (w.ids.map UInt32.toNat).toFinset ⊆ Finset.Ioo 0 (2 ^ 16) := by
    intro n hn
    obtain ⟨id, hid, rfl⟩ := List.mem_map.mp (List.mem_toFinset.mp hn)
    exact Finset.mem_Ioo.mpr ⟨(h.ids id hid).1, (h.ids id hid).2.trans_le h.le⟩
  have hcard := Finset.card_le_card hsub
  rw [List.toFinset_card_of_nodup hnodup, List.length_map, Nat.card_Ioo] at hcard
  omega

theorem addPlayer (h : w.Numbered) (hleft : w.nextId.toNat < 2 ^ 16) :
    (w.addPlayer uniform).2.Numbered := by
  have hnext : (w.addPlayer uniform).2.nextId.toNat = w.nextId.toNat + 1 := by
    simp only [World.addPlayer, UInt32.toNat_add, UInt32.toNat_one]
    omega
  refine ⟨by omega, by omega, fun id hid => ?_⟩
  rw [hnext]
  rcases SortedMap.mem_keys_insert hid with rfl | hid
  · exact ⟨h.pos, Nat.lt_succ_self _⟩
  · exact ⟨(h.ids id hid).1, Nat.lt_succ_of_lt (h.ids id hid).2⟩

theorem applyInput (h : w.Numbered) (id : EntityId) (input : Input α) :
    (w.applyInput id input).Numbered := by
  constructor
  · rw [nextId_applyInput]
    exact h.pos
  · rw [nextId_applyInput]
    exact h.le
  · rw [nextId_applyInput, ids_applyInput]
    exact h.ids

theorem next (h : w.Numbered) {e : Event α} (hleft : w.IdsLeft e) :
    (w.next uniform e).Numbered := by
  cases e with
  | addPlayer => exact h.addPlayer hleft
  | removePlayer id =>
    exact ⟨h.pos, h.le, fun k hk => h.ids k (SortedMap.mem_keys_erase hk)⟩
  | applyInput id input => exact h.applyInput id input
  | step d =>
    refine ⟨h.pos, h.le, fun k hk => h.ids k ?_⟩
    exact (SortedMap.keys_map w.entities _ ▸ hk : k ∈ w.entities.keys)

theorem init (uniform : α → ρ → α × ρ) (bound : α) (rng : ρ) :
    (machine uniform bound rng).init.Numbered where
  pos := show 0 < (1 : UInt32).toNat by decide
  le := show (1 : UInt32).toNat ≤ 2 ^ 16 by decide
  ids _ hid := absurd hid List.not_mem_nil

end Numbered

theorem not_roundTrips_addPlayer (hnone : ¬ w.IdsLeft .addPlayer) (max : α) :
    ¬ (w.addPlayer uniform).2.RoundTrips max := by
  rw [roundTrips_iff]
  intro h
  have hmem : w.nextId ∈ (w.addPlayer uniform).2.ids :=
    SortedMap.mem_keys.mpr ⟨_, (SortedMap.lookup_insert ..).trans (if_pos rfl)⟩
  exact hnone (h.1 w.nextId hmem)

/-- In every run in which the counter stays within sixteen bits, each world comes back
from the wire; the player who joins after that is the first whose world does not. -/
theorem keyframe_roundTrips (uniform : α → ρ → α × ρ) (bound : α) (rng : ρ) (max : α) :
    (∀ w, (machine uniform bound rng).ReachableUnder IdsLeft w → w.RoundTrips max) ∧
    (∀ w, (machine uniform bound rng).Reachable w → (w.RoundTrips max ↔
      (∀ id ∈ w.ids, id.toNat < 2 ^ 16) ∧ w.ids.length < 2 ^ 16)) ∧
    ∀ w : World α ρ, ¬ w.IdsLeft .addPlayer → ¬ (w.addPlayer uniform).2.RoundTrips max := by
  refine ⟨fun w h => ?_, fun w _ => roundTrips_iff w max,
    fun w hnone => not_roundTrips_addPlayer hnone max⟩
  have hnumbered : w.Numbered :=
    h.invariant (Numbered.init uniform bound rng) fun s e hs hleft _ => hs.next hleft
  exact hnumbered.roundTrips max

def drawZero (_ : ℚ) (rng : Unit) : ℚ × Unit := (0, rng)

def churned : ℕ → World ℚ Unit
  | 0 => (machine drawZero 100 ()).init
  | n + 1 => ((churned n).addPlayer drawZero).2.removePlayer (churned n).nextId

theorem reachable_churned (n : ℕ) : (machine drawZero 100 ()).Reachable (churned n) := by
  induction n with
  | zero => exact Machine.Reachable.init
  | succ n ih =>
    exact (ih.step .addPlayer trivial).step (.removePlayer (churned n).nextId) trivial

theorem nextId_churned (n : ℕ) : (churned n).nextId = UInt32.ofNat (n + 1) := by
  induction n with
  | zero => rfl
  | succ n ih =>
    have hnext : (churned (n + 1)).nextId = (churned n).nextId + 1 := rfl
    rw [hnext, ih, UInt32.ofNat_add (n + 1) 1]
    rfl

theorem late_player_aliased :
    ¬ ∀ w, (machine drawZero 100 ()).Reachable w → w.RoundTrips 100 := by
  intro hclaim
  have hnone : ¬ (churned 65535).IdsLeft .addPlayer := by
    simp only [IdsLeft, nextId_churned]
    decide
  exact not_roundTrips_addPlayer hnone 100
    (hclaim _ ((reachable_churned 65535).step .addPlayer trivial))

end World

end Netcode.Sim
