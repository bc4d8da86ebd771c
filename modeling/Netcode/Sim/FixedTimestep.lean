import Netcode.Library.Scalar

/-!
# The fixed timestep

`advance` banks the elapsed time, takes whole steps out of it up to the cap and
cuts what is left to less than one step. In exact arithmetic the bank is always
the total elapsed time modulo the step, so that what a call owes is the number
of step boundaries between two totals, and the calls add up to the boundaries
passed.
-/

namespace Netcode.Sim

open Netcode.Library

structure FixedTimestep (α : Type*) where
  fixedDt : α
  maxSteps : ℤ
  accumulator : α

namespace FixedTimestep

section Program

variable {α : Type*} [Scalar α]

def new (fixedDt : α) (maxSteps : ℤ := 8) : FixedTimestep α :=
  ⟨fixedDt, maxSteps, Scalar.ofRat 0⟩

def takeSteps (fixedDt : α) (maxSteps : ℤ) (accumulator : α) (stepsTaken : ℤ) : α × ℤ :=
  if Scalar.le fixedDt accumulator = true ∧ stepsTaken < maxSteps then
    takeSteps fixedDt maxSteps (accumulator - fixedDt) (stepsTaken + 1)
  else
    (accumulator, stepsTaken)
  termination_by (maxSteps - stepsTaken).toNat
  decreasing_by omega

variable [Fmod α]

def advance (ts : FixedTimestep α) (realElapsed : α) : ℤ × FixedTimestep α :=
  let (accumulator, stepsTaken) :=
    takeSteps ts.fixedDt ts.maxSteps (ts.accumulator + realElapsed) 0
  (stepsTaken, { ts with accumulator := Fmod.fmod accumulator ts.fixedDt })

def advanceAll (ts : FixedTimestep α) : List α → List ℤ × FixedTimestep α
  | [] => ([], ts)
  | realElapsed :: rest =>
    let (stepsTaken, ts) := ts.advance realElapsed
    let (later, ts) := ts.advanceAll rest
    (stepsTaken :: later, ts)

end Program

variable {dt : ℚ} {max : ℤ}

def due (ts : FixedTimestep ℚ) (realElapsed : ℚ) : ℤ :=
  ⌊(ts.accumulator + realElapsed) / ts.fixedDt⌋

theorem takeSteps_eq (hdt : 0 < dt) {acc : ℚ} {steps : ℤ} (hacc : 0 ≤ acc) (hsteps : steps ≤ max) :
    takeSteps dt max acc steps =
      (acc - min (max - steps) ⌊acc / dt⌋ * dt, steps + min (max - steps) ⌊acc / dt⌋) := by
  induction acc, steps using takeSteps.induct dt max with
  | case1 acc steps h ih =>
    have hle : dt ≤ acc := of_decide_eq_true h.1
    have hfloor : ⌊(acc - dt) / dt⌋ = ⌊acc / dt⌋ - 1 := by
      rw [sub_div, div_self hdt.ne', Int.floor_sub_one]
    have hmin : min (max - (steps + 1)) (⌊acc / dt⌋ - 1) = min (max - steps) ⌊acc / dt⌋ - 1 := by
      omega
    rw [takeSteps, if_pos h, ih (by linarith) (by omega), hfloor, hmin]
    ext
    · push_cast
      ring
    · change steps + 1 + (min (max - steps) ⌊acc / dt⌋ - 1) = steps + min (max - steps) ⌊acc / dt⌋
      omega
  | case2 acc steps h =>
    have hzero : min (max - steps) ⌊acc / dt⌋ = 0 := by
      have hfloor : 0 ≤ ⌊acc / dt⌋ := Int.floor_nonneg.mpr (div_nonneg hacc hdt.le)
      by_cases hle : dt ≤ acc
      · have hmax : ¬steps < max := fun hlt => h ⟨decide_eq_true hle, hlt⟩
        omega
      · have hlt : ⌊acc / dt⌋ = 0 := by
          rw [Int.floor_eq_zero_iff]
          exact ⟨div_nonneg hacc hdt.le, (div_lt_one hdt).mpr (not_le.mp hle)⟩
        omega
    rw [takeSteps, if_neg h, hzero]
    simp

/-- What every call leaves: the step, the cap and a bank below one step. -/
structure Banked (hdt : 0 < dt) (max : ℤ) (total : ℚ) (ts : FixedTimestep ℚ) : Prop where
  fixedDt_eq : ts.fixedDt = dt
  maxSteps_eq : ts.maxSteps = max
  accumulator_eq : ts.accumulator = toIcoMod hdt 0 total

namespace Banked

variable {hdt : 0 < dt} {total : ℚ} {ts : FixedTimestep ℚ}

theorem accumulator_mem (h : Banked hdt max total ts) :
    0 ≤ ts.accumulator ∧ ts.accumulator < dt := by
  rw [h.accumulator_eq]
  exact toIcoMod_mem_Ico' hdt total

theorem due_eq (h : Banked hdt max total ts) (e : ℚ) :
    ts.due e = ⌊(total + e) / dt⌋ - ⌊total / dt⌋ := by
  have hacc : ts.accumulator = total - ⌊total / dt⌋ * dt := by
    rw [h.accumulator_eq, ← self_sub_toIcoDiv_mul, toIcoDiv_eq_floor, sub_zero]
  have hsum : (ts.accumulator + e) / dt = (total + e) / dt - ⌊total / dt⌋ := by
    rw [hacc, sub_add_eq_add_sub, sub_div, mul_div_cancel_right₀ _ hdt.ne']
  rw [due, h.fixedDt_eq, hsum, Int.floor_sub_intCast]

theorem advance_fst (h : Banked hdt max total ts) (hmax : 0 ≤ max) {e : ℚ} (he : 0 ≤ e) :
    (ts.advance e).1 = min max (ts.due e) := by
  have hbank : 0 ≤ ts.accumulator + e := add_nonneg h.accumulator_mem.1 he
  rw [advance, due, h.fixedDt_eq, h.maxSteps_eq, takeSteps_eq hdt hbank hmax]
  simp

theorem advance (h : Banked hdt max total ts) (hmax : 0 ≤ max) {e : ℚ} (he : 0 ≤ e) :
    Banked hdt max (total + e) (ts.advance e).2 := by
  have hbank : 0 ≤ ts.accumulator + e := add_nonneg h.accumulator_mem.1 he
  refine ⟨h.fixedDt_eq, h.maxSteps_eq, ?_⟩
  simp only [FixedTimestep.advance, h.fixedDt_eq, h.maxSteps_eq, takeSteps_eq hdt hbank hmax]
  generalize hk : min (max - 0) ⌊(ts.accumulator + e) / dt⌋ = k
  have hleft : 0 ≤ ts.accumulator + e - k * dt := by
    have hkle : (k : ℚ) ≤ (ts.accumulator + e) / dt := by
      apply Int.le_floor.mp
      omega
    linarith [(le_div_iff₀ hdt).mp hkle]
  calc Fmod.fmod (ts.accumulator + e - k * dt) dt
      = toIcoMod hdt 0 (ts.accumulator + e) := by
        rw [fmod_eq_toIcoMod hleft hdt, ← zsmul_eq_mul, toIcoMod_sub_zsmul]
    _ = toIcoMod hdt 0 (total + e) := by
        rw [h.accumulator_eq, ← self_sub_toIcoDiv_zsmul hdt 0 total, sub_add_eq_add_sub,
          toIcoMod_sub_zsmul]

end Banked

theorem new_banked (hdt : 0 < dt) (max : ℤ) : Banked hdt max 0 (new dt max) :=
  ⟨rfl, rfl, (toIcoMod_apply_left hdt 0).symm⟩

section Runs

variable {hdt : 0 < dt} {total : ℚ} {ts : FixedTimestep ℚ}

theorem advanceAll_cons (e : ℚ) (rest : List ℚ) :
    ts.advanceAll (e :: rest) =
      ((ts.advance e).1 :: ((ts.advance e).2.advanceAll rest).1,
        ((ts.advance e).2.advanceAll rest).2) :=
  rfl

theorem advanceAll_append (before after : List ℚ) :
    (ts.advanceAll (before ++ after)).1 =
      (ts.advanceAll before).1 ++ ((ts.advanceAll before).2.advanceAll after).1 := by
  induction before generalizing ts with
  | nil => rfl
  | cons e rest ih => simp [advanceAll_cons, ih]

theorem length_advanceAll (ts : FixedTimestep ℚ) (elapsed : List ℚ) :
    (ts.advanceAll elapsed).1.length = elapsed.length := by
  induction elapsed generalizing ts with
  | nil => rfl
  | cons e rest ih => simp [advanceAll_cons, ih]

theorem getElem_advanceAll (before : List ℚ) (e : ℚ) (after : List ℚ) :
    (ts.advanceAll (before ++ e :: after)).1[before.length]? =
      some ((ts.advanceAll before).2.advance e).1 := by
  rw [advanceAll_append, ← length_advanceAll ts before,
    List.getElem?_append_right le_rfl, Nat.sub_self, advanceAll_cons, List.getElem?_cons_zero]

theorem Banked.advanceAll (h : Banked hdt max total ts) (hmax : 0 ≤ max) {elapsed : List ℚ}
    (he : ∀ e ∈ elapsed, 0 ≤ e) :
    Banked hdt max (total + elapsed.sum) (ts.advanceAll elapsed).2 := by
  induction elapsed generalizing total ts with
  | nil => simpa [FixedTimestep.advanceAll] using h
  | cons e rest ih =>
    rw [advanceAll_cons, List.sum_cons, ← add_assoc]
    exact ih (h.advance hmax (he e List.mem_cons_self))
      (fun e' he' => he e' (List.mem_cons_of_mem e he'))

/-- No call of the run owes more than the cap. -/
def Uncapped (ts : FixedTimestep ℚ) (elapsed : List ℚ) : Prop :=
  ∀ before e after, elapsed = before ++ e :: after →
    (ts.advanceAll before).2.due e ≤ (ts.advanceAll before).2.maxSteps

theorem Uncapped.tail {e : ℚ} {rest : List ℚ} (h : ts.Uncapped (e :: rest)) :
    (ts.advance e).2.Uncapped rest := by
  intro before e' after hsplit
  exact h (e :: before) e' after (by rw [hsplit, List.cons_append])

theorem Banked.sum_advanceAll (h : Banked hdt max total ts) (hmax : 0 ≤ max) {elapsed : List ℚ}
    (he : ∀ e ∈ elapsed, 0 ≤ e) :
    (ts.advanceAll elapsed).1.sum ≤ ⌊(total + elapsed.sum) / dt⌋ - ⌊total / dt⌋ ∧
    (ts.Uncapped elapsed →
      (ts.advanceAll elapsed).1.sum = ⌊(total + elapsed.sum) / dt⌋ - ⌊total / dt⌋) := by
  induction elapsed generalizing total ts with
  | nil => simp [FixedTimestep.advanceAll]
  | cons e rest ih =>
    have he0 := he e List.mem_cons_self
    have hrest := ih (h.advance hmax he0) (fun e' he' => he e' (List.mem_cons_of_mem e he'))
    have hfirst := h.advance_fst hmax he0
    have hdue := h.due_eq e
    rw [advanceAll_cons, List.sum_cons, List.sum_cons, ← add_assoc]
    constructor
    · have hle := min_le_right max (ts.due e)
      linarith [hrest.1]
    · intro hcap
      have hmet : ts.due e ≤ max := by
        rw [← h.maxSteps_eq]
        exact hcap [] e rest rfl
      rw [min_eq_right hmet] at hfirst
      linarith [hrest.2 hcap.tail]

end Runs

/-- However the time is split, the bank is the total modulo the step and the steps add up. -/
theorem timestep_no_drift (hdt : 0 < dt) (hmax : 0 ≤ max) (elapsed : List ℚ)
    (he : ∀ e ∈ elapsed, 0 ≤ e) :
    let run := (new dt max).advanceAll elapsed
    (0 ≤ run.2.accumulator ∧ run.2.accumulator < dt) ∧
    run.2.accumulator = toIcoMod hdt 0 elapsed.sum ∧
    run.1.length = elapsed.length ∧
    (∀ before e after, elapsed = before ++ e :: after → run.1[before.length]? =
      some (min max ⌊(((new dt max).advanceAll before).2.accumulator + e) / dt⌋)) ∧
    run.1.sum ≤ ⌊elapsed.sum / dt⌋ ∧
    ((∀ before e after, elapsed = before ++ e :: after →
        ⌊(((new dt max).advanceAll before).2.accumulator + e) / dt⌋ ≤ max) →
      run.1.sum = ⌊elapsed.sum / dt⌋) := by
  intro run
  have hnew := new_banked hdt max
  have hrun := hnew.advanceAll hmax he
  have hbefore : ∀ before e after, elapsed = before ++ e :: after →
      Banked hdt max (0 + before.sum) ((new dt max).advanceAll before).2 := by
    intro before e after hsplit
    apply hnew.advanceAll hmax
    intro e' he'
    apply he
    rw [hsplit]
    exact List.mem_append_left (e :: after) he'
  rw [zero_add] at hrun
  refine ⟨hrun.accumulator_mem, hrun.accumulator_eq, length_advanceAll _ elapsed, ?_, ?_, ?_⟩
  · intro before e after hsplit
    have hbank := hbefore before e after hsplit
    have he0 : 0 ≤ e := he e (by simp [hsplit])
    have hdue := hbank.advance_fst hmax he0
    rw [due, hbank.fixedDt_eq] at hdue
    rw [← hdue]
    simp only [run, hsplit]
    exact getElem_advanceAll before e after
  · simpa using (hnew.sum_advanceAll hmax he).1
  · intro hcap
    have huncapped : (new dt max).Uncapped elapsed := by
      intro before e after hsplit
      have hbank := hbefore before e after hsplit
      rw [due, hbank.fixedDt_eq, hbank.maxSteps_eq]
      exact hcap before e after hsplit
    simpa using (hnew.sum_advanceAll hmax he).2 huncapped

theorem timestep_no_drift_capped :
    let run := (new (1 : ℚ) 8).advanceAll [100, 1, 1 / 2]
    (0 ≤ run.2.accumulator ∧ run.2.accumulator < 1) ∧
    run.2.accumulator = toIcoMod one_pos 0 ([100, 1, 1 / 2] : List ℚ).sum ∧
    run.1.length = 3 ∧
    (∀ before e after, [100, 1, 1 / 2] = before ++ e :: after → run.1[before.length]? =
      some (min 8 ⌊(((new (1 : ℚ) 8).advanceAll before).2.accumulator + e) / 1⌋)) ∧
    run.1.sum ≤ ⌊([100, 1, 1 / 2] : List ℚ).sum / 1⌋ ∧
    ((∀ before e after, [100, 1, 1 / 2] = before ++ e :: after →
        ⌊(((new (1 : ℚ) 8).advanceAll before).2.accumulator + e) / 1⌋ ≤ 8) →
      run.1.sum = ⌊([100, 1, 1 / 2] : List ℚ).sum / 1⌋) :=
  timestep_no_drift one_pos (by norm_num) [100, 1, 1 / 2] (by norm_num)

end FixedTimestep

end Netcode.Sim
