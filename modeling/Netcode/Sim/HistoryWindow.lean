import Mathlib.Data.List.Induction
import Netcode.Sim.SnapshotHistory

/-!
# How long a snapshot stays in the ring

A slot is overwritten only by a push whose tick falls into it. With gaps between
the ticks that may never happen, and a snapshot stays however old it is:
`Overwritten` is what makes the ring a window of the last `depth` ticks.
-/

namespace Netcode.Sim

open Netcode.Library

structure Pushes (α : Type*) where
  list : List (UInt32 × List (EntityState α))
  increasing : list.Pairwise fun p q => p.1 < q.1
  positive : ∀ p ∈ list, 0 < p.1

variable {α : Type*} {depth : ℕ} [NeZero depth]

namespace Pushes

def ticks (p : Pushes α) : List UInt32 := p.list.map Prod.fst

def newest (p : Pushes α) : UInt32 := p.ticks.getLast?.getD 0

def history (p : Pushes α) (depth : ℕ) [NeZero depth] (worldMax : α) : SnapshotHistory α depth :=
  p.list.foldl (fun h q => h.push q.1 q.2) { worldMax := worldMax }

def age (p : Pushes α) (t : UInt32) : ℕ := p.newest.toNat - t.toNat

/-- Whatever is `depth` or more ticks old has given up its slot to a later push. -/
def Overwritten (p : Pushes α) (depth : ℕ) : Prop :=
  ∀ t ∈ p.ticks, depth ≤ p.age t → ∃ u ∈ p.ticks, t < u ∧ u.toNat % depth = t.toNat % depth

end Pushes

namespace SnapshotHistory

theorem slot_eq_iff {t u : UInt32} :
    slot depth u = slot depth t ↔ u.toNat % depth = t.toNat % depth := Fin.ext_iff

end SnapshotHistory

namespace Pushes

open SnapshotHistory

/-- The snapshot was pushed for its tick and nothing newer has fallen into its slot. -/
def Kept (depth : ℕ) [NeZero depth] (list : List (UInt32 × List (EntityState α))) (t : UInt32)
    (snap : WorldSnapshot α) : Prop :=
  snap.tick = t ∧ (t, snap.entities) ∈ list ∧ ∀ q ∈ list, t < q.1 → slot depth q.1 ≠ slot depth t

section Concat

variable {list : List (UInt32 × List (EntityState α))} {q : UInt32 × List (EntityState α)}
  {t : UInt32} {snap : WorldSnapshot α}

end Concat

variable (p : Pushes α)

theorem overwritten_of_consecutive
    (h : ∀ t ∈ p.ticks, ∀ u, t < u → u ≤ p.newest → u ∈ p.ticks) : p.Overwritten depth := by
  intro t ht hold
  have hdepth := Nat.pos_of_ne_zero (NeZero.ne depth)
  have hnewest := p.newest.toNat_lt
  rw [age] at hold
  have hu : (UInt32.ofNat (t.toNat + depth)).toNat = t.toNat + depth := by
    rw [UInt32.toNat_ofNat']
    exact Nat.mod_eq_of_lt (by omega)
  have hlt : t < UInt32.ofNat (t.toNat + depth) := by
    rw [UInt32.lt_iff_toNat_lt, hu]
    omega
  refine ⟨_, h t ht _ hlt ?_, hlt, ?_⟩
  · rw [UInt32.le_iff_toNat_le, hu]
    omega
  · rw [hu, Nat.add_mod_right]

variable [Scalar α]

end Pushes

def shortDepth : ℕ := 4

instance instNeZeroShortDepth : NeZero shortDepth := ⟨by decide⟩

end Netcode.Sim
