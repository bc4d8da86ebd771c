import Netcode.Server.Players

/-!
# The tick and the clock

Only the passing of time moves the tick. In exact arithmetic, and as long as no
iteration is so late that the cap on the steps takes effect, the tick counts the
sixtieths of a second since the server began; otherwise it falls behind and is
never ahead.
-/

namespace Netcode.Server.ServerLoop

open Netcode.Library Netcode.Sim Netcode.Transport

section

variable {δ ρ : Type*} [Scalar δ]

structure SameClock (s t : ServerLoop δ ρ) : Prop where
  ts : t.ts = s.ts
  tick : t.tick = s.tick
  last : t.last = s.last

theorem sameClock_foldl {β : Type*} {f : ServerLoop δ ρ → β → ServerLoop δ ρ}
    (hf : ∀ (s : ServerLoop δ ρ) (b : β), s.SameClock (f s b)) (bs : List β) (s : ServerLoop δ ρ) :
    s.SameClock (bs.foldl f s) := by
  induction bs generalizing s with
  | nil => exact ⟨rfl, rfl, rfl⟩
  | cons b bs ih =>
    have hfirst := hf s b
    have hrest := ih (f s b)
    exact ⟨hrest.ts.trans hfirst.ts, hrest.tick.trans hfirst.tick, hrest.last.trans hfirst.last⟩

theorem sameClock_ingest (uniform : Extended → ρ → Extended × ρ) (s : ServerLoop δ ρ)
    (i : Incoming) : s.SameClock (s.ingest uniform i) := by
  rw [ingest, welcome]
  split_ifs <;> exact ⟨rfl, rfl, rfl⟩

theorem sameClock_broadcastTo (s : ServerLoop δ ρ) (e : Endpoint) :
    s.SameClock (s.broadcastTo e) := by
  simp only [broadcastTo]
  split <;> exact ⟨rfl, rfl, rfl⟩

variable [Fmod δ]

theorem iterate_clock (uniform : Extended → ρ → Extended × ρ) (s : ServerLoop δ ρ) (now : Micros)
    (datagrams : List (Endpoint × Arrival)) :
    (s.iterate uniform now datagrams).2.ts = (s.ts.advance (s.elapsed now)).2 ∧
      (s.iterate uniform now datagrams).2.tick =
        s.tick + UInt32.ofNat (s.ts.advance (s.elapsed now)).1.toNat ∧
      (s.iterate uniform now datagrams).2.last = now := by
  have hreceived : s.SameClock (s.received uniform now datagrams) := by
    have hfold := sameClock_foldl (sameClock_ingest uniform) (s.mgr.poll now datagrams).1
      { s with mgr := (s.mgr.poll now datagrams).2 }
    exact ⟨hfold.ts, hfold.tick, hfold.last⟩
  generalize hr : s.received uniform now datagrams = r at hreceived
  have hserved : (r.advance now).2.SameClock (r.served now) := by
    rw [served]
    split_ifs
    · have hfold := sameClock_foldl sameClock_broadcastTo (r.advance now).2.mgr.endpoints
        { (r.advance now).2 with
          history := (r.advance now).2.history.push (r.advance now).2.tick
            (r.advance now).2.world.snapshot }
      exact ⟨hfold.ts, hfold.tick, hfold.last⟩
    · exact ⟨rfl, rfl, rfl⟩
  have helapsed : r.elapsed now = s.elapsed now := by rw [elapsed, elapsed, hreceived.last]
  have htick : (r.advance now).2.tick = r.tick + _ := (stepTimes_spec _ (r.world, r.tick)).2.2
  rw [iterate, hr]
  refine ⟨hserved.ts.trans ?_, hserved.tick.trans (htick.trans ?_), hserved.last⟩
  · rw [advance, hreceived.ts, helapsed]
  · rw [hreceived.ts, hreceived.tick, helapsed]

end

def ticksBy (us : ℕ) : ℕ := us * 60 / 1000000

theorem kDt_pos : (0 : ℚ) < kDt := by
  change (0 : ℚ) < 1 / 60
  norm_num

theorem floor_div_kDt (us : ℕ) : ⌊(us : ℚ) / 1000000 / kDt⌋ = ticksBy us := by
  have hquot : (us : ℚ) / 1000000 / kDt = ((us * 60 : ℕ) : ℚ) / (1000000 : ℕ) := by
    change (us : ℚ) / 1000000 / (1 / 60) = _
    push_cast
    ring
  rw [hquot, Rat.floor_natCast_div_natCast]
  rfl

variable {ρ : Type*} {uniform : Extended → ρ → Extended × ρ} {bound : Extended} {seed : ρ}
  {begun : Micros} {s : ServerLoop ℚ ρ} {n : ℕ}

/-- After `n` steps, with all the time banked that has passed. -/
structure OnTime (begun : Micros) (n : ℕ) (s : ServerLoop ℚ ρ) : Prop where
  begun_le : begun ≤ s.last
  banked : FixedTimestep.Banked kDt_pos 8
    (((s.last.toNat - begun.toNat : ℕ) : ℚ) / 1000000) s.ts
  tick : s.tick = UInt32.ofNat n
  le : n ≤ ticksBy (s.last.toNat - begun.toNat)

theorem OnTime.start (bound : Extended) (seed : ρ) (begun : Micros) :
    OnTime begun 0 (ServerLoop.start bound seed begun) where
  begun_le := UInt64.le_refl begun
  banked := by
    have hzero : (((ServerLoop.start bound seed begun : ServerLoop ℚ ρ).last.toNat -
        begun.toNat : ℕ) : ℚ) / 1000000 = 0 := by
      rw [ServerLoop.start, Nat.sub_self, Nat.cast_zero, zero_div]
    rw [hzero]
    exact FixedTimestep.new_banked kDt_pos 8
  tick := rfl
  le := Nat.zero_le _

theorem OnTime.iterate (h : OnTime begun n s) {now : Micros} (hclock : s.last ≤ now)
    (datagrams : List (Endpoint × Arrival)) :
    OnTime begun (n + min 8 (ticksBy (now.toNat - begun.toNat) -
      ticksBy (s.last.toNat - begun.toNat))) (s.iterate uniform now datagrams).2 := by
  obtain ⟨hts, htick, hlast⟩ := iterate_clock uniform s now datagrams
  have hbegun := UInt64.le_iff_toNat_le.mp h.begun_le
  have hnow := UInt64.le_iff_toNat_le.mp hclock
  have helapsed : s.elapsed now = ((now.toNat - s.last.toNat : ℕ) : ℚ) / 1000000 := by
    rw [elapsed, UInt64.toNat_sub_of_le _ _ hclock]
    rfl
  have htotal : ((s.last.toNat - begun.toNat : ℕ) : ℚ) / 1000000 + s.elapsed now =
      ((now.toNat - begun.toNat : ℕ) : ℚ) / 1000000 := by
    rw [helapsed, ← add_div, ← Nat.cast_add]
    congr 2
    omega
  have hnonneg : 0 ≤ s.elapsed now := by
    rw [helapsed]
    positivity
  have hsteps := h.banked.advance_fst (by norm_num) hnonneg
  rw [h.banked.due_eq, htotal, floor_div_kDt, floor_div_kDt] at hsteps
  have hle := h.le
  have hmono : ticksBy (s.last.toNat - begun.toNat) ≤ ticksBy (now.toNat - begun.toNat) := by
    simp only [ticksBy]
    omega
  refine ⟨?_, ?_, ?_, ?_⟩
  · rw [hlast]
    exact UInt64.le_trans h.begun_le hclock
  · rw [hlast, hts, ← htotal]
    exact h.banked.advance (by norm_num) hnonneg
  · rw [htick, h.tick, hsteps, UInt32.ofNat_add]
    congr 2
    omega
  · rw [hlast]
    omega

/-- No iteration comes so late that more than eight steps could be due. -/
def Prompt (s : ServerLoop ℚ ρ) (i : Micros × List (Endpoint × Arrival)) : Prop :=
  i.1.toNat ≤ s.last.toNat + 133333

theorem OnTime.prompt (h : OnTime begun (ticksBy (s.last.toNat - begun.toNat)) s)
    {i : Micros × List (Endpoint × Arrival)} (hclock : s.last ≤ i.1) (hprompt : s.Prompt i) :
    OnTime begun (ticksBy (i.1.toNat - begun.toNat)) (s.iterate uniform i.1 i.2).2 := by
  have hsoon : i.1.toNat ≤ s.last.toNat + 133333 := hprompt
  have hbegun := UInt64.le_iff_toNat_le.mp h.begun_le
  have hnow := UInt64.le_iff_toNat_le.mp hclock
  have hsteps : ticksBy (s.last.toNat - begun.toNat) + min 8 (ticksBy (i.1.toNat - begun.toNat) -
      ticksBy (s.last.toNat - begun.toNat)) = ticksBy (i.1.toNat - begun.toNat) := by
    simp only [ticksBy]
    omega
  rw [← hsteps]
  exact h.iterate hclock i.2

theorem OnTime.runFrom (h : OnTime begun n s) {is : List (Micros × List (Endpoint × Arrival))}
    (his : (machine uniform bound seed begun).AdmitsUnder (fun s i => s.last ≤ i.1) s is) :
    ∃ m, OnTime begun m ((machine uniform bound seed begun).runFrom s is) := by
  induction is generalizing s n with
  | nil => exact ⟨n, h⟩
  | cons i is ih => exact ih (h.iterate his.1 i.2) his.2.2

end Netcode.Server.ServerLoop
