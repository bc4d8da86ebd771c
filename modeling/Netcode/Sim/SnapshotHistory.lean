import Netcode.Sim.Snapshot

/-!
# The ring of recent snapshots

A slot is found by the tick modulo the depth and names its own tick, so that `get`
never returns the snapshot of another tick. `encodeFor` sends a viewer what lies
within the radius of its own position, as a delta if the ring still has the
viewer's baseline.
-/

namespace Netcode.Sim

open Netcode.Library

structure SnapshotHistory (α : Type*) (depth : ℕ) where
  worldMax : α
  ring : Fin depth → WorldSnapshot α := fun _ => {}

variable {α : Type*} {depth : ℕ} [NeZero depth]

namespace SnapshotHistory

def slot (depth : ℕ) [NeZero depth] (tick : UInt32) : Fin depth := Fin.ofNat depth tick.toNat

def push (h : SnapshotHistory α depth) (tick : UInt32) (entities : List (EntityState α)) :
    SnapshotHistory α depth :=
  { h with ring := Function.update h.ring (slot depth tick) ⟨tick, entities⟩ }

def get (h : SnapshotHistory α depth) (tick : UInt32) : Option (WorldSnapshot α) :=
  if tick = 0 then none
  else
    let found := h.ring (slot depth tick)
    if found.tick ≠ tick then none else some found

variable {h : SnapshotHistory α depth} {t tick : UInt32} {es : List (EntityState α)}
  {snap : WorldSnapshot α}

theorem get_eq_some :
    h.get t = some snap ↔ t ≠ 0 ∧ snap.tick = t ∧ h.ring (slot depth t) = snap := by
  rw [get]
  split_ifs with hzero
  · simp [hzero]
  · simp only
    split_ifs with htick
    · simp only [false_iff, not_and]
      intro _ hsnap heq
      exact htick (heq ▸ hsnap)
    · rw [not_not] at htick
      simp only [Option.some.injEq]
      exact ⟨fun heq => ⟨hzero, heq ▸ htick, heq⟩, fun h => h.2.2⟩

theorem get_init (worldMax : α) (t : UInt32) :
    ({ worldMax := worldMax } : SnapshotHistory α depth).get t = none := by
  apply Option.eq_none_iff_forall_ne_some.mpr
  intro snap hget
  obtain ⟨hzero, htick, hring⟩ := get_eq_some.mp hget
  exact hzero (htick.symm.trans (congrArg WorldSnapshot.tick hring.symm))

theorem get_push_self (h : SnapshotHistory α depth) (htick : tick ≠ 0) :
    (h.push tick es).get tick = some ⟨tick, es⟩ :=
  get_eq_some.mpr ⟨htick, rfl, Function.update_self ..⟩

theorem get_push (hget : (h.push tick es).get t = some snap) :
    snap = ⟨tick, es⟩ ∨ h.get t = some snap := by
  obtain ⟨hzero, htick, hring⟩ := get_eq_some.mp hget
  simp only [push] at hring
  by_cases hslot : slot depth t = slot depth tick
  · rw [hslot, Function.update_self] at hring
    exact Or.inl hring.symm
  · rw [Function.update_of_ne hslot] at hring
    exact Or.inr (get_eq_some.mpr ⟨hzero, htick, hring⟩)

end SnapshotHistory

variable [Scalar α]

def filterAoi (entities : List (EntityState α)) (cx cy radius : α) : List (EntityState α) :=
  let r2 := radius * radius
  entities.filter fun e =>
    let dx := e.x - cx
    let dy := e.y - cy
    Scalar.le (dx * dx + dy * dy) r2

def findEntity (snap : WorldSnapshot α) (id : EntityId) : Option (EntityState α) :=
  snap.entities.find? fun e => e.id = id

def viewOf (viewer : EntityId) (radius : α) (snap : WorldSnapshot α) : Option (WorldSnapshot α) :=
  (findEntity snap viewer).map fun center =>
    { snap with entities := filterAoi snap.entities center.x center.y radius }

namespace SnapshotHistory

def encodeFor (h : SnapshotHistory α depth) (viewer : EntityId) (radius : α)
    (baselineTick currentTick : UInt32) : Bytes :=
  match (h.get currentTick).bind (viewOf viewer radius) with
  | none => []
  | some currentView =>
    match (h.get baselineTick).bind (viewOf viewer radius) with
    | some baselineView => encodeDelta currentView baselineView h.worldMax
    | none => encodeKeyframe currentView h.worldMax

def aoiCount (h : SnapshotHistory α depth) (viewer : EntityId) (radius : α) (tick : UInt32) : ℕ :=
  match h.get tick with
  | none => 0
  | some snap =>
    match findEntity snap viewer with
    | none => 0
    | some center => (filterAoi snap.entities center.x center.y radius).length

theorem encodeFor_delta {h : SnapshotHistory α depth} {viewer : EntityId} {radius : α}
    {baselineTick currentTick : UInt32} {view baseView : WorldSnapshot α}
    (hcurr : (h.get currentTick).bind (viewOf viewer radius) = some view)
    (hbase : (h.get baselineTick).bind (viewOf viewer radius) = some baseView) :
    h.encodeFor viewer radius baselineTick currentTick =
      encodeDelta view baseView h.worldMax := by
  simp only [encodeFor, hcurr, hbase]

/-- Nothing, a keyframe of the current view, or a delta between two views. -/
theorem encodeFor_cases (h : SnapshotHistory α depth) (viewer : EntityId) (radius : α)
    (baselineTick currentTick : UInt32) :
    h.encodeFor viewer radius baselineTick currentTick = [] ∨
      ∃ curr view, h.get currentTick = some curr ∧ viewOf viewer radius curr = some view ∧
        (h.encodeFor viewer radius baselineTick currentTick = encodeKeyframe view h.worldMax ∨
          ∃ base baseView, h.get baselineTick = some base ∧
            viewOf viewer radius base = some baseView ∧
            h.encodeFor viewer radius baselineTick currentTick =
              encodeDelta view baseView h.worldMax) := by
  rw [encodeFor]
  cases hcurr : (h.get currentTick).bind (viewOf viewer radius) with
  | none => exact Or.inl rfl
  | some view =>
    obtain ⟨curr, hget, hview⟩ := Option.bind_eq_some_iff.mp hcurr
    refine Or.inr ⟨curr, view, hget, hview, ?_⟩
    cases hbase : (h.get baselineTick).bind (viewOf viewer radius) with
    | none => exact Or.inl rfl
    | some baseView =>
      obtain ⟨base, hgetBase, hviewBase⟩ := Option.bind_eq_some_iff.mp hbase
      exact Or.inr ⟨base, baseView, hgetBase, hviewBase, rfl⟩

end SnapshotHistory

theorem viewOf_tick {viewer : EntityId} {radius : α} {snap view : WorldSnapshot α}
    (h : viewOf viewer radius snap = some view) : view.tick = snap.tick := by
  obtain ⟨center, -, hview⟩ := Option.map_eq_some_iff.mp h
  rw [← hview]

theorem viewOf_sublist {viewer : EntityId} {radius : α} {snap view : WorldSnapshot α}
    (h : viewOf viewer radius snap = some view) : view.entities.Sublist snap.entities := by
  obtain ⟨center, -, hview⟩ := Option.map_eq_some_iff.mp h
  rw [← hview]
  exact List.filter_sublist

end Netcode.Sim
