import Netcode.Library.Machine

/-!
# Simulations between machines

`C` is simulated by `A` along `R` when the initial states are related and each
guarded step of `C` is matched by a guarded run of `A`, which may be empty or of
several steps. Every state that `C` reaches is then related to one that `A`
reaches.
-/

namespace Netcode.Library.Machine

variable {σ ε τ φ : Type*} {C : Machine σ ε} {G : σ → ε → Prop} {A : Machine τ φ}
  {H : τ → φ → Prop} {R : σ → τ → Prop} {s : σ} {t : τ}

structure Simulation (C : Machine σ ε) (G : σ → ε → Prop) (A : Machine τ φ) (H : τ → φ → Prop)
    (R : σ → τ → Prop) : Prop where
  init : R C.init A.init
  step : ∀ s t e, R s t → G s e → C.Enabled s e →
    ∃ fs, A.AdmitsUnder H t fs ∧ R (C.next s e) (A.runFrom t fs)

theorem Simulation.reachable (sim : Simulation C G A H R) (h : C.ReachableUnder G s) :
    ∃ t, A.ReachableUnder H t ∧ R s t := by
  induction h with
  | init => exact ⟨A.init, ReachableUnder.init, sim.init⟩
  | step _ e hg he ih =>
    obtain ⟨t, ht, hr⟩ := ih
    obtain ⟨fs, hfs, hr'⟩ := sim.step _ t e hr hg he
    exact ⟨A.runFrom t fs, ht.runFrom hfs, hr'⟩

theorem Reachable.under {P : σ → Prop} (hback : ∀ s e, C.Enabled s e → P (C.next s e) → P s)
    (h : C.Reachable s) (hs : P s) : C.ReachableUnder (fun s e => P (C.next s e)) s := by
  induction h with
  | init => exact ReachableUnder.init
  | step _ e _ he ih => exact ReachableUnder.step (ih (hback _ e he hs)) e hs he

end Netcode.Library.Machine
