import Mathlib.Logic.Relation

/-!
# Labelled transition systems

A `Machine` has an initial state and, for each label, the states in which the
label is enabled and the state it leads to. A state is `ReachableUnder G` when
some run leads to it all of whose steps meet the guard `G`, a condition on the
state before the step and on its label; plain reachability is the guard that
always holds. An invariant is proved once for the initial state and once for a
single step, and then holds on every run.
-/

namespace Netcode.Library

structure Machine (σ ε : Type*) where
  init : σ
  Enabled : σ → ε → Prop
  next : σ → ε → σ

namespace Machine

variable {σ ε : Type*} {M : Machine σ ε} {G : σ → ε → Prop} {I : σ → Prop} {s : σ}

inductive ReachableUnder (M : Machine σ ε) (G : σ → ε → Prop) : σ → Prop
  | init : ReachableUnder M G M.init
  | step {s : σ} (h : ReachableUnder M G s) (e : ε) :
      G s e → M.Enabled s e → ReachableUnder M G (M.next s e)

def Reachable (M : Machine σ ε) : σ → Prop := M.ReachableUnder fun _ _ => True

theorem Reachable.init : M.Reachable M.init := ReachableUnder.init

theorem Reachable.step (h : M.Reachable s) (e : ε) (he : M.Enabled s e) :
    M.Reachable (M.next s e) :=
  ReachableUnder.step h e trivial he

theorem ReachableUnder.invariant (hinit : I M.init)
    (hstep : ∀ s e, I s → G s e → M.Enabled s e → I (M.next s e))
    (h : M.ReachableUnder G s) : I s := by
  induction h with
  | init => exact hinit
  | step _ e hg he ih => exact hstep _ e ih hg he

theorem ReachableUnder.mono {H : σ → ε → Prop} (hweak : ∀ s e, G s e → H s e)
    (h : M.ReachableUnder G s) : M.ReachableUnder H s := by
  induction h with
  | init => exact ReachableUnder.init
  | step _ e hg he ih => exact ih.step e (hweak _ e hg) he

theorem ReachableUnder.reachable (h : M.ReachableUnder G s) : M.Reachable s :=
  h.mono fun _ _ _ => trivial

theorem Reachable.invariant (hinit : I M.init)
    (hstep : ∀ s e, I s → M.Enabled s e → I (M.next s e)) (h : M.Reachable s) : I s :=
  ReachableUnder.invariant hinit (fun s e hi _ he => hstep s e hi he) h

def runFrom (M : Machine σ ε) (s : σ) (es : List ε) : σ := es.foldl M.next s

def Admits (M : Machine σ ε) : σ → List ε → Prop
  | _, [] => True
  | s, e :: es => M.Enabled s e ∧ M.Admits (M.next s e) es

instance instDecidableAdmits [∀ s e, Decidable (M.Enabled s e)] (s : σ) :
    (es : List ε) → Decidable (M.Admits s es)
  | [] => isTrue trivial
  | e :: es =>
    have := instDecidableAdmits (M.next s e) es
    inferInstanceAs (Decidable (M.Enabled s e ∧ M.Admits (M.next s e) es))

theorem Reachable.runFrom {es : List ε} (h : M.Reachable s) (ha : M.Admits s es) :
    M.Reachable (M.runFrom s es) := by
  induction es generalizing s with
  | nil => exact h
  | cons e es ih => exact ih (h.step e ha.1) ha.2

def AdmitsUnder (M : Machine σ ε) (G : σ → ε → Prop) : σ → List ε → Prop
  | _, [] => True
  | s, e :: es => G s e ∧ M.Enabled s e ∧ M.AdmitsUnder G (M.next s e) es

instance instDecidableAdmitsUnder [∀ s e, Decidable (G s e)] [∀ s e, Decidable (M.Enabled s e)]
    (s : σ) : (es : List ε) → Decidable (M.AdmitsUnder G s es)
  | [] => isTrue trivial
  | e :: es =>
    have := instDecidableAdmitsUnder (M.next s e) es
    inferInstanceAs (Decidable (G s e ∧ M.Enabled s e ∧ M.AdmitsUnder G (M.next s e) es))

theorem ReachableUnder.runFrom {es : List ε} (h : M.ReachableUnder G s)
    (ha : M.AdmitsUnder G s es) : M.ReachableUnder G (M.runFrom s es) := by
  induction es generalizing s with
  | nil => exact h
  | cons e es ih => exact ih (h.step e ha.1 ha.2.1) ha.2.2

theorem admitsUnder_append {es fs : List ε} : M.AdmitsUnder G s (es ++ fs) ↔
    M.AdmitsUnder G s es ∧ M.AdmitsUnder G (M.runFrom s es) fs := by
  induction es generalizing s with
  | nil => simp only [List.nil_append, AdmitsUnder, true_and, runFrom, List.foldl_nil]
  | cons e es ih =>
    simp only [List.cons_append, AdmitsUnder, ih, runFrom, List.foldl_cons, and_assoc]

theorem runFrom_append (s : σ) (es fs : List ε) :
    M.runFrom s (es ++ fs) = M.runFrom (M.runFrom s es) fs :=
  List.foldl_append

theorem AdmitsUnder.invariant {es : List ε} (ha : M.AdmitsUnder G s es)
    (hstep : ∀ s e, I s → G s e → M.Enabled s e → I (M.next s e)) (hs : I s) :
    I (M.runFrom s es) := by
  induction es generalizing s with
  | nil => exact hs
  | cons e es ih => exact ih ha.2.2 (hstep s e hs ha.1 ha.2.1)

end Machine

end Netcode.Library
