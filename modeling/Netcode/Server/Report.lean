import Netcode.Server.Clock

/-!
# The report once a second

After an iteration whose time has come the loop feeds the metrics: the counters by
what has been added since the last report, the gauges with what holds now. The next
report is due a second after this one was, however late this one is. What a counter
of the metrics library makes of an amount is `increment`.
-/

namespace Netcode.Server

open Netcode.Library Netcode.Sim Netcode.Transport

variable {δ ρ : Type*} [Scalar δ]

structure Metrics (δ : Type*) [Scalar δ] where
  egressBytes : δ := Scalar.ofRat 0
  egressPackets : δ := Scalar.ofRat 0
  reliableEvents : δ := Scalar.ofRat 0
  keyframePackets : δ := Scalar.ofRat 0
  deltaPackets : δ := Scalar.ofRat 0
  clients : δ := Scalar.ofRat 0
  entities : δ := Scalar.ofRat 0
  tickRate : δ := Scalar.ofRat 0
  avgAoi : δ := Scalar.ofRat 0

structure Reporter (δ : Type*) [Scalar δ] where
  reportAt : Micros
  reportLast : Micros
  lastBytes : UInt64 := 0
  lastPackets : UInt64 := 0
  lastReliableEvents : UInt64 := 0
  lastTick : UInt32 := 0
  lastKeyframePackets : UInt64 := 0
  lastDeltaPackets : UInt64 := 0
  metrics : Metrics δ := {}

def kReportEveryUs : Micros := 1000000

def ofCount (n : UInt64) : δ := Scalar.ofRat n.toNat

def ServerLoop.avgAoi (s : ServerLoop δ ρ) : δ :=
  if s.clients.entries.isEmpty then Scalar.ofRat 0
  else
    s.clients.values.foldl (fun sum cs =>
      sum + Scalar.ofRat (s.history.aoiCount cs.entity kAoiRadius s.tick)) (Scalar.ofRat 0) /
        Scalar.ofRat s.clients.entries.length

namespace Reporter

def start (now : Micros) : Reporter δ := { reportAt := now + kReportEveryUs, reportLast := now }

def windowS (r : Reporter δ) (now : Micros) : δ :=
  ofCount (now - r.reportLast) / Scalar.ofRat 1000000

def feed (increment : δ → δ → δ) (r : Reporter δ) (s : ServerLoop δ ρ) (now : Micros) :
    Metrics δ where
  egressBytes := increment r.metrics.egressBytes (ofCount (s.mgr.totalBytesSent - r.lastBytes))
  egressPackets :=
    increment r.metrics.egressPackets (ofCount (s.mgr.totalPacketsSent - r.lastPackets))
  reliableEvents :=
    increment r.metrics.reliableEvents (ofCount (s.reliableEvents - r.lastReliableEvents))
  keyframePackets :=
    increment r.metrics.keyframePackets (ofCount (s.keyframePackets - r.lastKeyframePackets))
  deltaPackets := increment r.metrics.deltaPackets (ofCount (s.deltaPackets - r.lastDeltaPackets))
  clients := Scalar.ofRat s.mgr.size
  entities := Scalar.ofRat s.world.entities.entries.length
  tickRate :=
    if Scalar.lt (Scalar.ofRat 0) (r.windowS now) then
      Scalar.ofRat (s.tick - r.lastTick).toNat / r.windowS now
    else Scalar.ofRat 0
  avgAoi := s.avgAoi

def report (increment : δ → δ → δ) (r : Reporter δ) (s : ServerLoop δ ρ) (now : Micros) :
    Reporter δ :=
  if r.reportAt ≤ now then
    { reportAt := r.reportAt + kReportEveryUs
      reportLast := now
      lastBytes := s.mgr.totalBytesSent
      lastPackets := s.mgr.totalPacketsSent
      lastReliableEvents := s.reliableEvents
      lastTick := s.tick
      lastKeyframePackets := s.keyframePackets
      lastDeltaPackets := s.deltaPackets
      metrics := r.feed increment s now }
  else r

end Reporter

/-- The server with its reporter, and how many reports it has made. -/
structure Reported (δ ρ : Type*) [Scalar δ] where
  server : ServerLoop δ ρ
  reporter : Reporter δ
  reports : ℕ := 0

namespace Reported

def begin (bound : Extended) (seed : ρ) (begun : Micros) : Reported δ ρ :=
  { server := .start bound seed begun, reporter := .start begun }

def iterate [Fmod δ] (uniform : Extended → ρ → Extended × ρ) (increment : δ → δ → δ)
    (s : Reported δ ρ) (now : Micros) (datagrams : List (Endpoint × Arrival)) : Reported δ ρ :=
  let server := (s.server.iterate uniform now datagrams).2
  { server := server
    reporter := s.reporter.report increment server now
    reports := if s.reporter.reportAt ≤ now then s.reports + 1 else s.reports }

/-- The clock does not go back and does not come round. -/
def machine [Fmod δ] (uniform : Extended → ρ → Extended × ρ) (increment : δ → δ → δ)
    (bound : Extended) (seed : ρ) (begun : Micros) :
    Machine (Reported δ ρ) (Micros × List (Endpoint × Arrival)) where
  init := begin bound seed begun
  Enabled s i := s.server.last ≤ i.1 ∧ i.1.toNat + 1000000 < 2 ^ 64
  next s i := s.iterate uniform increment i.1 i.2

instance [Fmod δ] {uniform : Extended → ρ → Extended × ρ} {increment : δ → δ → δ}
    {bound : Extended} {seed : ρ} {begun : Micros} (s : Reported δ ρ)
    (i : Micros × List (Endpoint × Arrival)) :
    Decidable ((machine uniform increment bound seed begun).Enabled s i) :=
  inferInstanceAs (Decidable (s.server.last ≤ i.1 ∧ i.1.toNat + 1000000 < 2 ^ 64))

variable {uniform : Extended → ρ → Extended × ρ} {increment : δ → δ → δ} {bound : Extended}
  {seed : ρ} {begun now : Micros} {s : Reported δ ρ} {datagrams : List (Endpoint × Arrival)}

/-- No iteration comes more than `gap` microseconds after the one before. -/
def Within (gap : ℕ) (s : Reported δ ρ) (i : Micros × List (Endpoint × Arrival)) : Prop :=
  i.1.toNat ≤ s.server.last.toNat + gap

instance (gap : ℕ) (s : Reported δ ρ) (i : Micros × List (Endpoint × Arrival)) :
    Decidable (s.Within gap i) :=
  inferInstanceAs (Decidable (i.1.toNat ≤ s.server.last.toNat + gap))

/-- A report is due a second after the last one was due, and none was made early. -/
structure Scheduled (begun : Micros) (s : Reported δ ρ) : Prop where
  begun_le : begun.toNat ≤ s.server.last.toNat
  reportAt : s.reporter.reportAt.toNat = begun.toNat + (s.reports + 1) * 1000000
  made : begun.toNat + s.reports * 1000000 ≤ s.server.last.toNat

theorem Scheduled.begin (bound : Extended) (seed : ρ) (h : begun.toNat + 1000000 < 2 ^ 64) :
    Scheduled begun (begin bound seed begun : Reported δ ρ) where
  begun_le := le_rfl
  reportAt := by
    have hsum : (begun + kReportEveryUs).toNat = (begun.toNat + 1000000) % 2 ^ 64 :=
      UInt64.toNat_add ..
    change (begun + kReportEveryUs).toNat = _
    change _ = begun.toNat + (0 + 1) * 1000000
    omega
  made := by
    change begun.toNat + 0 * 1000000 ≤ begun.toNat
    omega

variable [Fmod δ]

theorem iterate_last (uniform : Extended → ρ → Extended × ρ) (increment : δ → δ → δ)
    (s : Reported δ ρ) (now : Micros) (datagrams : List (Endpoint × Arrival)) :
    (s.iterate uniform increment now datagrams).server.last = now :=
  (ServerLoop.iterate_clock uniform s.server now datagrams).2.2

theorem Scheduled.iterate (h : Scheduled begun s) (hclock : s.server.last ≤ now)
    (hend : now.toNat + 1000000 < 2 ^ 64) :
    Scheduled begun (s.iterate uniform increment now datagrams) := by
  have hnow := UInt64.le_iff_toNat_le.mp hclock
  have hat := h.reportAt
  have hmade := h.made
  have hbegun := h.begun_le
  have hlast := iterate_last uniform increment s now datagrams
  by_cases hdue : s.reporter.reportAt ≤ now
  · have hreports : (s.iterate uniform increment now datagrams).reports = s.reports + 1 :=
      if_pos hdue
    have hreport : (s.iterate uniform increment now datagrams).reporter.reportAt =
        s.reporter.reportAt + kReportEveryUs := by
      simp only [Reported.iterate, Reporter.report, if_pos hdue]
    have hsum : (s.reporter.reportAt + kReportEveryUs).toNat =
        (s.reporter.reportAt.toNat + 1000000) % 2 ^ 64 := UInt64.toNat_add ..
    have hle := UInt64.le_iff_toNat_le.mp hdue
    constructor
    · rw [hlast]
      omega
    · rw [hreport, hreports]
      omega
    · rw [hlast, hreports, ← hat]
      exact hle
  · have hreports : (s.iterate uniform increment now datagrams).reports = s.reports := if_neg hdue
    have hreport : (s.iterate uniform increment now datagrams).reporter = s.reporter := if_neg hdue
    constructor
    · rw [hlast]
      omega
    · rw [hreport, hreports]
      exact hat
    · rw [hlast, hreports]
      omega

/-- With no iteration a second late, a report is made as soon as it is due. -/
def Punctual (s : Reported δ ρ) : Prop := s.server.last.toNat < s.reporter.reportAt.toNat

omit [Fmod δ] in
theorem punctual_begin (bound : Extended) (seed : ρ) (hbegun : begun.toNat + 1000000 < 2 ^ 64) :
    (begin bound seed begun : Reported δ ρ).Punctual := by
  rw [Punctual, (Scheduled.begin bound seed hbegun).reportAt]
  change begun.toNat < begun.toNat + (0 + 1) * 1000000
  omega

theorem Punctual.iterate (hs : s.Punctual) {i : Micros × List (Endpoint × Arrival)}
    (hend : i.1.toNat + 1000000 < 2 ^ 64) {gap : ℕ} (hgap : gap ≤ 1000000)
    (hwithin : s.Within gap i) : (s.iterate uniform increment i.1 i.2).Punctual := by
  have hsoon : i.1.toNat ≤ s.server.last.toNat + gap := hwithin
  have hbefore : s.server.last.toNat < s.reporter.reportAt.toNat := hs
  rw [Punctual, iterate_last]
  by_cases hdue : s.reporter.reportAt ≤ i.1
  · have hreport : (s.iterate uniform increment i.1 i.2).reporter.reportAt =
        s.reporter.reportAt + kReportEveryUs := by
      simp only [Reported.iterate, Reporter.report, if_pos hdue]
    have hle := UInt64.le_iff_toNat_le.mp hdue
    have hsum : (s.reporter.reportAt + kReportEveryUs).toNat =
        (s.reporter.reportAt.toNat + 1000000) % 2 ^ 64 := UInt64.toNat_add ..
    rw [hreport, hsum, Nat.mod_eq_of_lt (by omega)]
    omega
  · have hreport : (s.iterate uniform increment i.1 i.2).reporter = s.reporter := if_neg hdue
    rw [hreport]
    exact UInt64.lt_iff_toNat_lt.mp (UInt64.not_le.mp hdue)

theorem Scheduled.runFrom (h : Scheduled begun s) {is : List (Micros × List (Endpoint × Arrival))}
    (his : (machine uniform increment bound seed begun).Admits s is) :
    Scheduled begun ((machine uniform increment bound seed begun).runFrom s is) ∧
      (s.Punctual → (machine uniform increment bound seed begun).AdmitsUnder (Within 1000000) s is →
        ((machine uniform increment bound seed begun).runFrom s is).Punctual) := by
  induction is generalizing s with
  | nil => exact ⟨h, fun hs _ => hs⟩
  | cons i is ih =>
    obtain ⟨⟨hclock, hend⟩, hrest⟩ := his
    obtain ⟨hscheduled, hpunctual⟩ := ih (h.iterate hclock hend) hrest
    exact ⟨hscheduled, fun hs hall => hpunctual (hs.iterate hend le_rfl hall.1) hall.2.2⟩

/-- However the iterations fall, there was never more than one report for each second that
has passed, and exactly one if no iteration comes more than a second after the one before. -/
theorem reports_on_schedule {is : List (Micros × List (Endpoint × Arrival))}
    (hbegun : begun.toNat + 1000000 < 2 ^ 64)
    (his : (machine uniform increment bound seed begun).Admits (begin bound seed begun) is) :
    let s := (machine uniform increment bound seed begun).runFrom (begin bound seed begun) is
    s.reports ≤ (s.server.last.toNat - begun.toNat) / 1000000 ∧
      ((machine uniform increment bound seed begun).AdmitsUnder (Within 1000000)
          (begin bound seed begun) is →
        s.reports = (s.server.last.toNat - begun.toNat) / 1000000) := by
  intro s
  have hfirst := punctual_begin (δ := δ) bound seed hbegun
  obtain ⟨hscheduled, hpunctual⟩ := (Scheduled.begin bound seed hbegun).runFrom his
  have hmade : begun.toNat + s.reports * 1000000 ≤ s.server.last.toNat := hscheduled.made
  refine ⟨by omega, fun hall => ?_⟩
  have hlt : s.server.last.toNat < s.reporter.reportAt.toNat := hpunctual hfirst hall
  have hat : s.reporter.reportAt.toNat = begun.toNat + (s.reports + 1) * 1000000 :=
    hscheduled.reportAt
  omega

theorem reports_on_schedule_stalled :
    let is : List (Micros × List (Endpoint × Arrival)) :=
      [(500000, []), (3500000, []), (3600000, [])]
    let s := (machine (δ := ℚ) World.drawOrigin (· + ·) World.hundred () 0).runFrom
      (begin World.hundred () 0) is
    (s.reports ≤ (s.server.last.toNat - (0 : Micros).toNat) / 1000000 ∧
      ((machine (δ := ℚ) World.drawOrigin (· + ·) World.hundred () 0).AdmitsUnder (Within 1000000)
          (begin World.hundred () 0) is →
        s.reports = (s.server.last.toNat - (0 : Micros).toNat) / 1000000)) ∧
      s.reports = 2 :=
  ⟨reports_on_schedule (by decide) (by decide +kernel), by decide +kernel⟩

theorem rate_near {a b : ℕ} (h : b + 866667 ≤ a) :
    |((ServerLoop.ticksBy a - ServerLoop.ticksBy b : ℕ) : ℚ) / (((a - b : ℕ) : ℚ) / 1000000) - 60| <
      6 / 5 := by
  generalize hd : ServerLoop.ticksBy a - ServerLoop.ticksBy b = d
  generalize hw : a - b = w
  have hwide : 866667 ≤ w := by omega
  have hupper : d * 1000000 < 60 * w + 1000000 := by
    simp only [ServerLoop.ticksBy] at hd
    omega
  have hlower : 60 * w < d * 1000000 + 1000000 := by
    simp only [ServerLoop.ticksBy] at hd
    omega
  have hwide' : (866667 : ℚ) ≤ w := by exact_mod_cast hwide
  have hupper' : (d : ℚ) * 1000000 < 60 * w + 1000000 := by exact_mod_cast hupper
  have hlower' : (60 : ℚ) * w < d * 1000000 + 1000000 := by exact_mod_cast hlower
  have hpos : (0 : ℚ) < w := by linarith
  have hquot : (d : ℚ) / ((w : ℚ) / 1000000) - 60 = (d * 1000000 - 60 * w) / w := by
    field_simp
  rw [hquot, abs_lt]
  constructor
  · rw [lt_div_iff₀ hpos]
    linarith
  · rw [div_lt_iff₀ hpos]
    linarith

section Exact

variable {s : Reported ℚ ρ} {increment : ℚ → ℚ → ℚ}

/-- What the last report saw, when every iteration is prompt. -/
structure Measured (begun : Micros) (s : Reported ℚ ρ) : Prop where
  scheduled : Scheduled begun s
  punctual : s.Punctual
  onTime : ServerLoop.OnTime begun
    (ServerLoop.ticksBy (s.server.last.toNat - begun.toNat)) s.server
  early : begun.toNat + s.reports * 1000000 ≤ s.reporter.reportLast.toNat
  late : s.reporter.reportLast.toNat ≤ begun.toNat + s.reports * 1000000 + 133333
  past : s.reporter.reportLast ≤ s.server.last
  lastTick : s.reporter.lastTick =
    UInt32.ofNat (ServerLoop.ticksBy (s.reporter.reportLast.toNat - begun.toNat))
  rate : 0 < s.reports → |s.reporter.metrics.tickRate - 60| < 6 / 5

namespace Measured

theorem begin (bound : Extended) (seed : ρ) (hbegun : begun.toNat + 1000000 < 2 ^ 64) :
    Measured begun (Reported.begin bound seed begun) where
  scheduled := Scheduled.begin bound seed hbegun
  punctual := punctual_begin bound seed hbegun
  onTime := by
    have hzero : ServerLoop.ticksBy (begun.toNat - begun.toNat) = 0 := by
      rw [Nat.sub_self]
      rfl
    have hstart := ServerLoop.OnTime.start bound seed begun
    rw [← hzero] at hstart
    exact hstart
  early := (Scheduled.begin bound seed hbegun).made
  late := (Nat.le_add_right _ _).trans (Nat.le_add_right _ _)
  past := UInt64.le_refl begun
  lastTick := by
    change 0 = UInt32.ofNat (ServerLoop.ticksBy (begun.toNat - begun.toNat))
    rw [Nat.sub_self]
    rfl
  rate := fun hpos => absurd hpos (lt_irrefl 0)

theorem feed_tickRate (h : Measured begun s)
    (hnow : s.reporter.reportLast.toNat + 866667 ≤ now.toNat)
    (hlate : now.toNat ≤ s.reporter.reportLast.toNat + 2000000) {server : ServerLoop ℚ ρ}
    (htick : server.tick = UInt32.ofNat (ServerLoop.ticksBy (now.toNat - begun.toNat))) :
    |(s.reporter.feed increment server now).tickRate - 60| < 6 / 5 := by
  have hbegun := h.early
  have hle : s.reporter.reportLast ≤ now := UInt64.le_iff_toNat_le.mpr (by omega)
  have hwindow : s.reporter.windowS now =
      ((now.toNat - s.reporter.reportLast.toNat : ℕ) : ℚ) / 1000000 := by
    rw [Reporter.windowS, ofCount, UInt64.toNat_sub_of_le _ _ hle]
    rfl
  have hpos : 0 < s.reporter.windowS now := by
    rw [hwindow]
    have hwide : 0 < now.toNat - s.reporter.reportLast.toNat := by omega
    positivity
  have hsince : now.toNat - s.reporter.reportLast.toNat =
      now.toNat - begun.toNat - (s.reporter.reportLast.toNat - begun.toNat) := by omega
  have hsteps : (server.tick - s.reporter.lastTick).toNat =
      ServerLoop.ticksBy (now.toNat - begun.toNat) -
        ServerLoop.ticksBy (s.reporter.reportLast.toNat - begun.toNat) := by
    rw [htick, h.lastTick, UInt32.toNat_sub, UInt32.toNat_ofNat', UInt32.toNat_ofNat']
    simp only [ServerLoop.ticksBy]
    omega
  have hrate : (s.reporter.feed increment server now).tickRate =
      ((server.tick - s.reporter.lastTick).toNat : ℚ) / s.reporter.windowS now :=
    if_pos (decide_eq_true hpos)
  rw [hrate, hsteps, hwindow, hsince]
  exact rate_near (by omega)

theorem iterate (h : Measured begun s) {i : Micros × List (Endpoint × Arrival)}
    (hclock : s.server.last ≤ i.1) (hend : i.1.toNat + 1000000 < 2 ^ 64)
    (hwithin : s.Within 133333 i) : Measured begun (s.iterate uniform increment i.1 i.2) := by
  have hsoon : i.1.toNat ≤ s.server.last.toNat + 133333 := hwithin
  have hbefore : s.server.last.toNat < s.reporter.reportAt.toNat := h.punctual
  have hat := h.scheduled.reportAt
  have hlast := iterate_last uniform increment s i.1 i.2
  have hearly := h.early
  have honTime : ServerLoop.OnTime begun
      (ServerLoop.ticksBy ((s.iterate uniform increment i.1 i.2).server.last.toNat - begun.toNat))
      (s.iterate uniform increment i.1 i.2).server := by
    rw [hlast]
    exact h.onTime.prompt hclock hwithin
  have hscheduled : Scheduled begun (s.iterate uniform increment i.1 i.2) :=
    h.scheduled.iterate hclock hend
  have hpunctual : (s.iterate uniform increment i.1 i.2).Punctual :=
    h.punctual.iterate hend (by omega) hwithin
  by_cases hdue : s.reporter.reportAt ≤ i.1
  · have hreports : (s.iterate uniform increment i.1 i.2).reports = s.reports + 1 := if_pos hdue
    have hreporter : (s.iterate uniform increment i.1 i.2).reporter.reportLast = i.1 ∧
        (s.iterate uniform increment i.1 i.2).reporter.lastTick =
          (s.iterate uniform increment i.1 i.2).server.tick ∧
        (s.iterate uniform increment i.1 i.2).reporter.metrics =
          s.reporter.feed increment (s.iterate uniform increment i.1 i.2).server i.1 := by
      simp only [Reported.iterate, Reporter.report, if_pos hdue, and_self]
    obtain ⟨hreportLast, hlastTick, hmetrics⟩ := hreporter
    have hreached := UInt64.le_iff_toNat_le.mp hdue
    have hlate := h.late
    have htick := honTime.tick
    rw [hlast] at htick
    refine ⟨hscheduled, hpunctual, honTime, ?_, ?_, ?_, ?_, fun _ => ?_⟩
    · rw [hreports, hreportLast, ← hat]
      exact hreached
    · rw [hreports, hreportLast, ← hat]
      omega
    · rw [hreportLast, hlast]
      exact UInt64.le_refl _
    · rw [hlastTick, hreportLast, htick]
    · rw [hmetrics]
      exact h.feed_tickRate (by omega) (by omega) htick
  · have hreports : (s.iterate uniform increment i.1 i.2).reports = s.reports := if_neg hdue
    have hreporter : (s.iterate uniform increment i.1 i.2).reporter = s.reporter := if_neg hdue
    refine ⟨hscheduled, hpunctual, honTime, ?_, ?_, ?_, ?_, ?_⟩
    · rw [hreports, hreporter]
      exact hearly
    · rw [hreports, hreporter]
      exact h.late
    · rw [hreporter, hlast]
      exact UInt64.le_trans h.past hclock
    · rw [hreporter]
      exact h.lastTick
    · rw [hreports, hreporter]
      exact h.rate

theorem of_reachable (hbegun : begun.toNat + 1000000 < 2 ^ 64)
    (h : (machine uniform increment bound seed begun).ReachableUnder (Within 133333) s) :
    Measured begun s := by
  apply Machine.ReachableUnder.invariant (I := Measured begun) (begin bound seed hbegun) _ h
  intro s i ih hwithin he
  exact ih.iterate he.1 he.2 hwithin

end Measured

/-- As long as no iteration comes more than 133333 microseconds after the one before, every
report gives a tick rate within one and a fifth of sixty. -/
theorem tick_rate_near_sixty (hbegun : begun.toNat + 1000000 < 2 ^ 64)
    (h : (machine uniform increment bound seed begun).ReachableUnder (Within 133333) s)
    (hreports : 0 < s.reports) : |s.reporter.metrics.tickRate - 60| < 6 / 5 :=
  (Measured.of_reachable hbegun h).rate hreports

def eighths : List (Micros × List (Endpoint × Arrival)) :=
  (List.range 9).map fun k => (UInt64.ofNat (k * 125000 + 120000), [])

theorem tick_rate_near_sixty_eighths :
    let s := (machine (δ := ℚ) World.drawOrigin (· + ·) World.hundred () 0).runFrom
      (begin World.hundred () 0) eighths
    |s.reporter.metrics.tickRate - 60| < 6 / 5 ∧ s.reports = 1 ∧
      s.reporter.metrics.tickRate = 67 * 1000000 / 1120000 := by
  intro s
  have hreach :
      (machine World.drawOrigin (· + ·) World.hundred () 0).ReachableUnder (Within 133333) s :=
    Machine.ReachableUnder.init.runFrom (by decide +kernel)
  exact ⟨tick_rate_near_sixty (by decide) hreach (by decide +kernel), by decide +kernel⟩

end Exact

end Reported

end Netcode.Server
