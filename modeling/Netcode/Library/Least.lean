import Mathlib.Data.List.Basic
import Mathlib.Order.Lattice

/-!
# The least element that a pairwise comparison finds

A scan keeps the element it has unless the next one compares below it. Where the
comparison is that of a rank on all elements scanned, the scan ends with an
element of least rank, and with the same one in whatever order it goes if no two
elements share a rank.
-/

namespace Netcode.Library

variable {α κ : Type*} [LinearOrder κ]

def scanLeast (above : α → α → Bool) (first : α) (rest : List α) : α :=
  rest.foldl (fun least x => if above least x then x else least) first

theorem scanLeast_mem (above : α → α → Bool) (first : α) (rest : List α) :
    scanLeast above first rest ∈ first :: rest := by
  induction rest generalizing first with
  | nil => exact List.mem_cons_self
  | cons y rest ih =>
    have hnext := ih (if above first y then y else first)
    rw [scanLeast, List.foldl_cons, ← scanLeast]
    rcases List.mem_cons.mp hnext with heq | hmem
    · rw [heq]
      split_ifs
      · exact List.mem_cons_of_mem first List.mem_cons_self
      · exact List.mem_cons_self
    · exact List.mem_cons_of_mem first (List.mem_cons_of_mem y hmem)

theorem scanLeast_le (above : α → α → Bool) (rank : α → κ) {first : α} {rest : List α}
    (h : ∀ x ∈ first :: rest, ∀ y ∈ first :: rest, above x y = true ↔ rank y < rank x) :
    ∀ x ∈ first :: rest, rank (scanLeast above first rest) ≤ rank x := by
  induction rest generalizing first with
  | nil => exact fun x hx => (List.mem_singleton.mp hx) ▸ le_rfl
  | cons y rest ih =>
    have hfirst : first ∈ first :: y :: rest := List.mem_cons_self
    have hy : y ∈ first :: y :: rest := List.mem_cons_of_mem first List.mem_cons_self
    -- the scan goes on from the lower of its first two elements
    obtain ⟨next, hnext, hmem, hlefirst, hley⟩ : ∃ next, scanLeast above first (y :: rest) =
        scanLeast above next rest ∧ next ∈ first :: y :: rest ∧ rank next ≤ rank first ∧
          rank next ≤ rank y := by
      cases hab : above first y with
      | true =>
        refine ⟨y, ?_, hy, ((h first hfirst y hy).mp hab).le, le_rfl⟩
        simp only [scanLeast, List.foldl_cons, hab, if_true]
      | false =>
        refine ⟨first, ?_, hfirst, le_rfl, not_lt.mp fun hlt => ?_⟩
        · simp only [scanLeast, List.foldl_cons, hab, Bool.false_eq_true, if_false]
        · exact absurd ((h first hfirst y hy).mpr hlt) (by simp [hab])
    have hsub : ∀ x ∈ next :: rest, x ∈ first :: y :: rest := by
      intro x hx
      rcases List.mem_cons.mp hx with rfl | hx
      · exact hmem
      · exact List.mem_cons_of_mem first (List.mem_cons_of_mem y hx)
    have hle := @ih next fun x hx y hy => h x (hsub x hx) y (hsub y hy)
    have hlenext := hle next List.mem_cons_self
    intro x hx
    rw [hnext]
    rcases List.mem_cons.mp hx with rfl | hx
    · exact hlenext.trans hlefirst
    rcases List.mem_cons.mp hx with rfl | hx
    · exact hlenext.trans hley
    · exact hle x (List.mem_cons_of_mem next hx)

end Netcode.Library
