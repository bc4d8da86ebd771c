import Netcode.Library.Machine
import Netcode.Library.Window
import Netcode.Transport.Peer

/-!
# The impairment shim

`SimSocket` counts what it is asked to send, drops some of it, and holds the
rest back for a drawn delay; `pump` forwards what is due. The generator and its
two distributions are parameters: a draw is whatever they make of the state of
the generator. Beside the shim a run keeps one entry for every call of
`send_to`, with what has become of the datagram, and what each step handed to
the inner socket. The entries settle every question about a datagram, so that
the shim is right when its queue and its counters agree with them.
-/

namespace Netcode.Transport

open Netcode.Library

structure Datagram where
  dest : Endpoint
  data : Bytes

structure Delayed extends Datagram where
  releaseUs : Micros

structure Random (ρ δ : Type*) where
  mt19937 : UInt32 → ρ
  bernoulli : δ → ρ → Bool × ρ
  uniformInt : Int32 → Int32 → ρ → Int32 × ρ

def Random.Bounded {ρ δ : Type*} (random : Random ρ δ) : Prop :=
  ∀ lo hi rng, lo ≤ hi →
    lo ≤ (random.uniformInt lo hi rng).1 ∧ (random.uniformInt lo hi rng).1 ≤ hi

structure SimParams (δ : Type*) where
  loss : δ
  seed : UInt32 := 0
  delayUs : UInt32 := 0
  jitterUs : UInt32 := 0

structure SimSocket (ρ δ : Type*) where
  rng : ρ
  drop : δ
  jitter : Int32 × Int32
  delayUs : UInt32
  jitterUs : UInt32
  queue : List Delayed := []
  sent : UInt64 := 0
  dropped : UInt64 := 0

variable {ρ δ : Type*} (random : Random ρ δ) (params : SimParams δ)

namespace SimSocket

def new : SimSocket ρ δ where
  rng := random.mt19937 params.seed
  drop := params.loss
  jitter := (-params.jitterUs.toInt32, params.jitterUs.toInt32)
  delayUs := params.delayUs
  jitterUs := params.jitterUs

def nextDelayUs (s : SimSocket ρ δ) : UInt64 × SimSocket ρ δ :=
  let delay := s.delayUs.toUInt64.toInt64
  let (delay, s) :=
    if 0 < s.jitterUs then
      let (drawn, rng) := random.uniformInt s.jitter.1 s.jitter.2 s.rng
      (delay + drawn.toInt64, { s with rng := rng })
    else (delay, s)
  (if delay < 0 then 0 else delay.toUInt64, s)

/-- The size returned, what goes to the inner socket and the shim after the call. -/
def sendTo (s : SimSocket ρ δ) (data : Bytes) (dest : Endpoint) (clockUs : Micros) :
    ℕ × List Datagram × SimSocket ρ δ :=
  let s := { s with sent := s.sent + 1 }
  let (dropped, rng) := random.bernoulli s.drop s.rng
  let s := { s with rng := rng }
  if dropped then
    (data.length, [], { s with dropped := s.dropped + 1 })
  else if s.delayUs = 0 then
    (data.length, [⟨dest, data⟩], s)
  else
    let (delay, s) := s.nextDelayUs random
    (data.length, [], { s with queue := s.queue ++ [⟨⟨dest, data⟩, clockUs + delay⟩] })

/-- The loop of `pump` from the `i`-th entry on: an entry is erased in its place. -/
def pumpFrom (nowUs : Micros) (queue : List Delayed) (i : ℕ) : List Datagram × List Delayed :=
  if h : i < queue.length then
    if queue[i].releaseUs ≤ nowUs then
      let (forwarded, rest) := pumpFrom nowUs (queue.eraseIdx i) i
      (queue[i].toDatagram :: forwarded, rest)
    else
      pumpFrom nowUs queue (i + 1)
  else
    ([], queue)
  termination_by queue.length - i
  decreasing_by
    · rw [List.length_eraseIdx_of_lt h]
      omega
    · omega

def pump (s : SimSocket ρ δ) (clockUs : Micros) : List Datagram × SimSocket ρ δ :=
  if s.delayUs = 0 then ([], s)
  else
    let (forwarded, queue) := pumpFrom clockUs s.queue 0
    (forwarded, { s with queue := queue })

def due (nowUs : Micros) (d : Delayed) : Bool := decide (d.releaseUs ≤ nowUs)

theorem pumpFrom_eq (nowUs : Micros) (queue : List Delayed) (i : ℕ) :
    pumpFrom nowUs queue i =
      (((queue.drop i).filter (due nowUs)).map Delayed.toDatagram,
        queue.take i ++ (queue.drop i).filter (fun d => !due nowUs d)) := by
  induction queue, i using pumpFrom.induct nowUs with
  | case1 queue i h hdue forwarded rest hrest ih =>
    have hd : due nowUs queue[i] = true := decide_eq_true hdue
    have hlen : (queue.take i).length = i := List.length_take_of_le h.le
    rw [pumpFrom, dif_pos h, if_pos hdue, ih, List.eraseIdx_eq_take_drop_succ,
      List.take_left' hlen, List.drop_left' hlen, List.drop_eq_getElem_cons h,
      List.filter_cons_of_pos hd, List.filter_cons_of_neg (by simp [hd]), List.map_cons]
  | case2 queue i h hdue ih =>
    have hd : due nowUs queue[i] = false := decide_eq_false hdue
    rw [pumpFrom, dif_pos h, if_neg hdue, ih, List.drop_eq_getElem_cons h,
      List.filter_cons_of_neg (by simp [hd]), List.filter_cons_of_pos (by simp [hd]),
      List.take_succ_eq_append_getElem h, List.append_assoc, List.singleton_append]
  | case3 queue i h =>
    rw [pumpFrom, dif_neg h, List.drop_eq_nil_of_le (not_lt.mp h),
      List.take_of_length_le (not_lt.mp h)]
    exact congrArg (Prod.mk []) (List.append_nil queue).symm

theorem pump_eq {s : SimSocket ρ δ} (h : s.delayUs = 0 → s.queue = []) (clockUs : Micros) :
    s.pump clockUs = ((s.queue.filter (due clockUs)).map Delayed.toDatagram,
      { s with queue := s.queue.filter (fun d => !due clockUs d) }) := by
  by_cases hzero : s.delayUs = 0
  · have hqueue := h hzero
    rw [pump, if_pos hzero, hqueue]
    cases s with
    | mk => exact congrArg _ (by simp_all)
  · rw [pump, if_neg hzero, pumpFrom_eq]
    rfl

theorem toInt_toInt64 (d : UInt32) : d.toUInt64.toInt64.toInt = d.toNat := by
  have hlt := d.toNat_lt
  apply BitVec.toInt_eq_toNat_of_lt
  change 2 * d.toUInt64.toNat < 2 ^ 64
  rw [UInt32.toNat_toUInt64]
  omega

theorem toInt_toInt32 {d : UInt32} (h : d.toNat < 2 ^ 31) : d.toInt32.toInt = d.toNat := by
  apply BitVec.toInt_eq_toNat_of_lt
  change 2 * d.toNat < 2 ^ 32
  omega

theorem toInt_add_toInt64 (d : UInt32) (j : Int32) :
    (d.toUInt64.toInt64 + j.toInt64).toInt = d.toNat + j.toInt := by
  have hd := d.toNat_lt
  have hle := j.le_toInt
  have hlt := j.toInt_lt
  rw [Int64.toInt_add, toInt_toInt64, Int32.toInt_toInt64]
  apply Int.bmod_eq_of_le <;> omega

theorem clamp_toUInt64 (x : Int64) :
    (if x < 0 then 0 else x.toUInt64) = UInt64.ofNat x.toInt.toNat := by
  have hlt := x.toInt_lt
  apply UInt64.toNat_inj.mp
  rw [UInt64.toNat_ofNat_of_lt' (by change x.toInt.toNat < 2 ^ 64; omega)]
  split_ifs with h
  · rw [Int64.lt_iff_toInt_lt, Int64.toInt_zero] at h
    rw [Int.toNat_of_nonpos h.le]
    rfl
  · have hle : 0 ≤ x := by
      rw [Int64.lt_iff_toInt_lt] at h
      exact Int64.le_iff_toInt_le.mpr (not_lt.mp h)
    rw [Int64.toNat_toUInt64_of_le hle]
    rfl

/-- The delay is the configured one moved by at most the jitter, or zero if that is negative. -/
theorem nextDelayUs_fst (hrandom : random.Bounded) (hjitter : params.jitterUs.toNat < 2 ^ 31)
    {s : SimSocket ρ δ} (hbounds : s.jitter = (new random params).jitter)
    (hdelay : s.delayUs = params.delayUs) :
    ∃ j : ℤ, |j| ≤ params.jitterUs.toNat ∧
      (s.nextDelayUs random).1 = UInt64.ofNat (params.delayUs.toNat + j).toNat := by
  have hhi := toInt_toInt32 hjitter
  have hlo : (-params.jitterUs.toInt32).toInt = -params.jitterUs.toNat := by
    rw [Int32.toInt_neg, hhi]
    apply Int.bmod_eq_of_le <;> omega
  by_cases hzero : 0 < s.jitterUs
  · have hle : -params.jitterUs.toInt32 ≤ params.jitterUs.toInt32 := by
      rw [Int32.le_iff_toInt_le, hhi, hlo]
      omega
    have hdraw := hrandom _ _ s.rng hle
    simp only [Int32.le_iff_toInt_le, hhi, hlo] at hdraw
    refine ⟨_, abs_le.mpr hdraw, ?_⟩
    simp only [nextDelayUs, if_pos hzero, hbounds, new, hdelay, clamp_toUInt64]
    rw [toInt_add_toInt64]
  · refine ⟨0, by simp, ?_⟩
    simp only [nextDelayUs, if_neg hzero, hdelay, clamp_toUInt64]
    rw [toInt_toInt64, add_zero]

theorem nextDelayUs_snd (s : SimSocket ρ δ) :
    ∃ rng, (s.nextDelayUs random).2 = { s with rng := rng } := by
  rw [nextDelayUs]
  split_ifs <;> exact ⟨_, rfl⟩

end SimSocket

/-- What has become of a datagram: dropped, handed on without delay, held or released. A round
is a step of the run. -/
inductive Fate
  | dropped
  | passed (round : ℕ)
  | held (releaseUs : Micros)
  | released (releaseUs : Micros) (round : ℕ)

structure Sending extends Datagram where
  clockUs : Micros
  fate : Fate

namespace Sending

def isDropped (x : Sending) : Bool := x.fate matches .dropped

def held (x : Sending) : Option Delayed :=
  match x.fate with
  | .held releaseUs => some ⟨x.toDatagram, releaseUs⟩
  | _ => none

def round (x : Sending) : Option ℕ :=
  match x.fate with
  | .passed round | .released _ round => some round
  | _ => none

def releaseUs (x : Sending) : Option Micros :=
  match x.fate with
  | .held releaseUs | .released releaseUs _ => some releaseUs
  | _ => none

def release (nowUs : Micros) (round : ℕ) (x : Sending) : Sending :=
  match x.fate with
  | .held releaseUs =>
    if releaseUs ≤ nowUs then { x with fate := .released releaseUs round } else x
  | _ => x

section

variable (nowUs : Micros) (k : ℕ) (x : Sending)

theorem release_cases :
    (x.held.any (SimSocket.due nowUs) = false ∧ x.release nowUs k = x) ∨
    ∃ releaseUs, x.fate = .held releaseUs ∧ SimSocket.due nowUs ⟨x.toDatagram, releaseUs⟩ = true ∧
      x.release nowUs k = { x with fate := .released releaseUs k } := by
  cases hfate : x.fate with
  | held releaseUs =>
    by_cases hdue : releaseUs ≤ nowUs
    · exact Or.inr ⟨releaseUs, rfl, decide_eq_true hdue, by simp [release, hfate, hdue]⟩
    · exact Or.inl ⟨by simp [held, hfate, SimSocket.due, hdue], by simp [release, hfate, hdue]⟩
  | _ => exact Or.inl ⟨by simp [held, hfate], by simp [release, hfate]⟩

theorem release_frame : (x.release nowUs k).toDatagram = x.toDatagram ∧
    (x.release nowUs k).clockUs = x.clockUs ∧ (x.release nowUs k).isDropped = x.isDropped ∧
    (x.release nowUs k).releaseUs = x.releaseUs := by
  rcases release_cases nowUs k x with ⟨_, heq⟩ | ⟨r, hfate, _, heq⟩
  · rw [heq]
    exact ⟨rfl, rfl, rfl, rfl⟩
  · rw [heq]
    refine ⟨rfl, rfl, ?_, ?_⟩
    · simp [isDropped, hfate]
    · simp [releaseUs, hfate]

variable {nowUs k x}

theorem held_release :
    (x.release nowUs k).held = x.held.filter (fun d => !SimSocket.due nowUs d) := by
  rcases release_cases nowUs k x with ⟨hnot, heq⟩ | ⟨r, hfate, hdue, heq⟩
  · rw [heq]
    cases hx : x.held with
    | none => rfl
    | some d => simp_all [Option.filter]
  · rw [heq]
    simp [held, hfate, hdue, Option.filter]

theorem round_release_iff {i : ℕ} (hik : i ≠ k) :
    (x.release nowUs k).round = some i ↔ x.round = some i := by
  rcases release_cases nowUs k x with ⟨_, heq⟩ | ⟨r, hfate, _, heq⟩
  · rw [heq]
  · rw [heq]
    simp [round, hfate, hik.symm]

theorem filter_release {l : List Sending} (hround : ∀ x ∈ l, x.round ≠ some k) :
    ((l.map (release nowUs k)).filter (fun x => x.round = some k)).map Sending.toDatagram =
      ((l.filterMap held).filter (SimSocket.due nowUs)).map Delayed.toDatagram := by
  induction l with
  | nil => rfl
  | cons x l ih =>
    have hx := hround x List.mem_cons_self
    have hl := ih fun y hy => hround y (List.mem_cons_of_mem x hy)
    rw [List.map_cons, List.filterMap_cons]
    rcases release_cases nowUs k x with ⟨hnot, heq⟩ | ⟨r, hfate, hdue, heq⟩
    · rw [heq, List.filter_cons_of_neg (by simpa using hx), hl]
      cases hheld : x.held with
      | none => rfl
      | some d =>
        rw [List.filter_cons_of_neg (by simp_all)]
    · have hheld : x.held = some ⟨x.toDatagram, r⟩ := by simp [held, hfate]
      rw [heq, List.filter_cons_of_pos (by simp [round]), List.map_cons, hl, hheld]
      simp [List.filter_cons_of_pos, hdue]

end

end Sending

structure Round where
  clockUs : Micros
  forwarded : List Datagram

inductive ShimEvent
  | sendTo (data : Bytes) (dest : Endpoint) (clockUs : Micros)
  | pump (clockUs : Micros)

structure Shim (ρ δ : Type*) where
  sim : SimSocket ρ δ
  sendings : List Sending := []
  rounds : List Round := []

namespace Shim

def fate (s : Shim ρ δ) (clockUs : Micros) : Fate :=
  let (dropped, rng) := random.bernoulli s.sim.drop s.sim.rng
  if dropped then .dropped
  else if s.sim.delayUs = 0 then .passed s.rounds.length
  else .held (clockUs + ({ s.sim with rng := rng }.nextDelayUs random).1)

def next (s : Shim ρ δ) : ShimEvent → Shim ρ δ
  | .sendTo data dest clockUs =>
    let (_, forwarded, sim) := s.sim.sendTo random data dest clockUs
    { sim := sim
      sendings := s.sendings ++ [⟨⟨dest, data⟩, clockUs, s.fate random clockUs⟩]
      rounds := s.rounds ++ [⟨clockUs, forwarded⟩] }
  | .pump clockUs =>
    let (forwarded, sim) := s.sim.pump clockUs
    { sim := sim
      sendings := s.sendings.map (Sending.release clockUs s.rounds.length)
      rounds := s.rounds ++ [⟨clockUs, forwarded⟩] }

def machine : Machine (Shim ρ δ) ShimEvent where
  init := { sim := SimSocket.new random params }
  Enabled _ _ := True
  next := next random

def forwarded (s : Shim ρ δ) : List Datagram := s.rounds.flatMap Round.forwarded

def Timely (x : Sending) : Prop :=
  ∀ releaseUs, x.releaseUs = some releaseUs → ∃ j : ℤ, |j| ≤ params.jitterUs.toNat ∧
    releaseUs = x.clockUs + UInt64.ofNat (params.delayUs.toNat + j).toNat

/-- The queue and the counters agree with what has become of every datagram. -/
structure Conserved (s : Shim ρ δ) : Prop where
  jitter_eq : s.sim.jitter = (SimSocket.new random params).jitter
  delayUs_eq : s.sim.delayUs = params.delayUs
  sent_eq : s.sim.sent = UInt64.ofNat s.sendings.length
  dropped_eq : s.sim.dropped = UInt64.ofNat (s.sendings.countP Sending.isDropped)
  total : s.sendings.countP Sending.isDropped + s.forwarded.length + s.sim.queue.length =
    s.sendings.length
  queue_eq : s.sim.queue = s.sendings.filterMap Sending.held
  bypass : params.delayUs = 0 → s.sim.queue = []
  timely : ∀ x ∈ s.sendings, Timely params x
  round_lt : ∀ x ∈ s.sendings, ∀ i, x.round = some i → i < s.rounds.length
  forwarded_eq : ∀ i r, s.rounds[i]? = some r →
    r.forwarded = (s.sendings.filter (fun x => x.round = some i)).map Sending.toDatagram
  released_le : ∀ x ∈ s.sendings, ∀ i releaseUs, x.fate = .released releaseUs i →
    ∃ r, s.rounds[i]? = some r ∧ releaseUs ≤ r.clockUs

variable {random params} {s : Shim ρ δ}

theorem sendTo_cases (random : Random ρ δ) (s : Shim ρ δ) (data : Bytes) (dest : Endpoint)
    (clockUs : Micros) :
    ∃ rng, (s.fate random clockUs = .dropped ∧ s.sim.sendTo random data dest clockUs =
        (data.length, [],
          { s.sim with rng := rng, sent := s.sim.sent + 1, dropped := s.sim.dropped + 1 })) ∨
      (s.sim.delayUs = 0 ∧ s.fate random clockUs = .passed s.rounds.length ∧
        s.sim.sendTo random data dest clockUs =
          (data.length, [⟨dest, data⟩], { s.sim with rng := rng, sent := s.sim.sent + 1 })) ∨
      (s.sim.delayUs ≠ 0 ∧ ∃ rng' delay,
        delay = ({ s.sim with rng := rng }.nextDelayUs random).1 ∧
        s.fate random clockUs = .held (clockUs + delay) ∧
        s.sim.sendTo random data dest clockUs = (data.length, [],
          { s.sim with
            rng := rng'
            sent := s.sim.sent + 1
            queue := s.sim.queue ++ [⟨⟨dest, data⟩, clockUs + delay⟩] })) := by
  cases hdraw : random.bernoulli s.sim.drop s.sim.rng with
  | mk dropped rng =>
    refine ⟨rng, ?_⟩
    simp only [SimSocket.sendTo, fate, hdraw]
    cases dropped with
    | true => exact Or.inl ⟨rfl, rfl⟩
    | false =>
      right
      by_cases hdelay : s.sim.delayUs = 0
      · exact Or.inl ⟨hdelay, by simp [hdelay]⟩
      · refine Or.inr ⟨hdelay, ?_⟩
        obtain ⟨rng', hsnd⟩ := SimSocket.nextDelayUs_snd random
          { s.sim with rng := rng, sent := s.sim.sent + 1 }
        have hfst : ({ s.sim with rng := rng, sent := s.sim.sent + 1 }.nextDelayUs random).1 =
            ({ s.sim with rng := rng }.nextDelayUs random).1 := by
          simp only [SimSocket.nextDelayUs]
          split_ifs <;> rfl
        refine ⟨rng', _, rfl, ?_⟩
        simp only [Bool.false_eq_true, if_false, if_neg hdelay, hsnd, hfst]
        exact ⟨trivial, trivial⟩

namespace Conserved

theorem init : Conserved random params (machine random params).init := by
  constructor <;> simp [machine, SimSocket.new, forwarded]

theorem append (h : Conserved random params s) {x : Sending} {sim : SimSocket ρ δ} {r : Round}
    (hjitter : sim.jitter = s.sim.jitter) (hdelay : sim.delayUs = s.sim.delayUs)
    (hsent : sim.sent = s.sim.sent + 1)
    (hdropped : sim.dropped = s.sim.dropped + UInt64.ofNat x.isDropped.toNat)
    (hqueue : sim.queue = s.sim.queue ++ x.held.toList)
    (hone : x.isDropped.toNat + r.forwarded.length + x.held.toList.length = 1)
    (hbypass : params.delayUs = 0 → x.held = none) (htimely : Timely params x)
    (hround : (x.round = none ∧ r.forwarded = []) ∨
      (x.round = some s.rounds.length ∧ r.forwarded = [x.toDatagram]))
    (hreleased : ∀ releaseUs i, x.fate ≠ .released releaseUs i) :
    Conserved random params
      { sim := sim, sendings := s.sendings ++ [x], rounds := s.rounds ++ [r] } where
  jitter_eq := hjitter.trans h.jitter_eq
  delayUs_eq := hdelay.trans h.delayUs_eq
  sent_eq := by
    rw [hsent, h.sent_eq, List.length_append, List.length_singleton, UInt64.ofNat_add]
    rfl
  dropped_eq := by
    have hcount : [x].countP Sending.isDropped = x.isDropped.toNat := by
      cases hd : x.isDropped <;> simp [hd]
    rw [hdropped, h.dropped_eq, List.countP_append, hcount, UInt64.ofNat_add]
  total := by
    have hcount : [x].countP Sending.isDropped = x.isDropped.toNat := by
      cases hd : x.isDropped <;> simp [hd]
    have htotal := h.total
    simp only [forwarded, List.flatMap_append, List.flatMap_singleton, List.length_append,
      List.countP_append, hcount, hqueue, List.length_singleton] at htotal ⊢
    omega
  queue_eq := by
    have hheld : x.held.toList = [x].filterMap Sending.held := by
      cases hx : x.held <;> simp [hx]
    rw [hqueue, h.queue_eq, List.filterMap_append, hheld]
  bypass hzero := by
    rw [hqueue, h.bypass hzero, hbypass hzero]
    rfl
  timely y hy := by
    apply Or.elim (List.mem_append.mp hy) (h.timely y)
    intro hx
    rw [List.mem_singleton.mp hx]
    exact htimely
  round_lt y hy i hi := by
    rw [List.length_append, List.length_singleton]
    rcases List.mem_append.mp hy with hold | hnew
    · exact Nat.lt_succ_of_lt (h.round_lt y hold i hi)
    · rw [List.mem_singleton.mp hnew] at hi
      rcases hround with ⟨hx, _⟩ | ⟨hx, _⟩
      · rw [hx] at hi
        exact absurd hi (Option.some_ne_none i).symm
      · rw [hx] at hi
        exact (Option.some.inj hi) ▸ Nat.lt_succ_self s.rounds.length
  forwarded_eq i r' hr := by
    rw [List.filter_append, List.map_append]
    rcases getElem?_concat hr with hold | ⟨rfl, rfl⟩
    · have hlt := (List.getElem?_eq_some_iff.mp hold).1
      have hne : x.round ≠ some i := by
        rcases hround with ⟨hx, _⟩ | ⟨hx, _⟩
        · simp [hx]
        · rw [hx]
          exact fun heq => absurd (Option.some.inj heq) hlt.ne'
      rw [← h.forwarded_eq i r' hold]
      simp [hne]
    · have hnone : s.sendings.filter (fun y => y.round = some s.rounds.length) = [] := by
        apply List.filter_eq_nil_iff.mpr
        intro y hy hround
        exact absurd (h.round_lt y hy _ (of_decide_eq_true hround)) (lt_irrefl _)
      rw [hnone]
      rcases hround with ⟨hx, hr'⟩ | ⟨hx, hr'⟩ <;> simp [hx, hr']
  released_le y hy i releaseUs hfate := by
    rcases List.mem_append.mp hy with hold | hnew
    · obtain ⟨r', hr', hle⟩ := h.released_le y hold i releaseUs hfate
      have hlt := (List.getElem?_eq_some_iff.mp hr').1
      exact ⟨r', by rw [List.getElem?_append_left hlt, hr'], hle⟩
    · rw [List.mem_singleton.mp hnew] at hfate
      exact absurd hfate (hreleased releaseUs i)

theorem next_pump (h : Conserved random params s) (clockUs : Micros) :
    next random s (.pump clockUs) =
      { sim := { s.sim with queue := s.sim.queue.filter (fun d => !SimSocket.due clockUs d) }
        sendings := s.sendings.map (Sending.release clockUs s.rounds.length)
        rounds := s.rounds ++ [⟨clockUs,
          (s.sim.queue.filter (SimSocket.due clockUs)).map Delayed.toDatagram⟩] } := by
  have hempty : s.sim.delayUs = 0 → s.sim.queue = [] := by
    rw [h.delayUs_eq]
    exact h.bypass
  simp only [next, SimSocket.pump_eq hempty clockUs]

theorem pump (h : Conserved random params s) (clockUs : Micros) :
    Conserved random params (next random s (.pump clockUs)) := by
  have hround : ∀ x ∈ s.sendings, x.round ≠ some s.rounds.length := fun x hx hr =>
    absurd (h.round_lt x hx _ hr) (lt_irrefl _)
  have hcount : (s.sendings.map (Sending.release clockUs s.rounds.length)).countP
      Sending.isDropped = s.sendings.countP Sending.isDropped := by
    rw [List.countP_map]
    exact congrArg (fun p => List.countP p s.sendings)
      (funext fun x => (Sending.release_frame _ _ x).2.2.1)
  rw [h.next_pump clockUs]
  constructor
  case jitter_eq => exact h.jitter_eq
  case delayUs_eq => exact h.delayUs_eq
  case sent_eq => simpa only [List.length_map] using h.sent_eq
  case dropped_eq => simpa only [hcount] using h.dropped_eq
  case total =>
    have htotal := h.total
    have hsplit := List.length_eq_length_filter_add (l := s.sim.queue) (SimSocket.due clockUs)
    simp only [hcount, forwarded, List.flatMap_append, List.flatMap_singleton,
      List.length_append, List.length_map] at htotal ⊢
    omega
  case queue_eq =>
    simp only [h.queue_eq, List.filter_filterMap, List.filterMap_map]
    exact congrArg (fun f => s.sendings.filterMap f) (funext fun x => Sending.held_release.symm)
  case bypass =>
    intro hzero
    simp only [h.bypass hzero, List.filter_nil]
  case timely =>
    intro y hy
    obtain ⟨x, hx, rfl⟩ := List.mem_map.mp hy
    have hframe := Sending.release_frame clockUs s.rounds.length x
    intro releaseUs hrel
    rw [hframe.2.1]
    exact h.timely x hx releaseUs (hframe.2.2.2 ▸ hrel)
  case round_lt =>
    intro y hy i hi
    obtain ⟨x, hx, rfl⟩ := List.mem_map.mp hy
    simp only [List.length_append, List.length_singleton]
    by_cases hik : i = s.rounds.length
    · omega
    · exact Nat.lt_succ_of_lt (h.round_lt x hx i ((Sending.round_release_iff hik).mp hi))
  case forwarded_eq =>
    intro i r hr
    rcases getElem?_concat hr with hold | ⟨rfl, rfl⟩
    · have hik := ((List.getElem?_eq_some_iff.mp hold).1).ne
      have hdatagram : Sending.toDatagram ∘ Sending.release clockUs s.rounds.length =
          Sending.toDatagram := funext fun x => (Sending.release_frame _ _ x).1
      have hsame : ((fun x : Sending => decide (x.round = some i)) ∘
          Sending.release clockUs s.rounds.length) = fun x => decide (x.round = some i) :=
        funext fun x => decide_eq_decide.mpr (Sending.round_release_iff hik)
      rw [h.forwarded_eq i r hold, List.filter_map, List.map_map, hdatagram, hsame]
    · rw [Sending.filter_release hround, h.queue_eq]
  case released_le =>
    intro y hy i releaseUs hfate
    obtain ⟨x, hx, rfl⟩ := List.mem_map.mp hy
    rcases Sending.release_cases clockUs s.rounds.length x with
      ⟨_, heq⟩ | ⟨r, _, hdue, heq⟩
    · rw [heq] at hfate
      obtain ⟨r', hr', hle⟩ := h.released_le x hx i releaseUs hfate
      have hlt := (List.getElem?_eq_some_iff.mp hr').1
      exact ⟨r', by rw [List.getElem?_append_left hlt, hr'], hle⟩
    · rw [heq] at hfate
      obtain ⟨rfl, rfl⟩ := Fate.released.inj hfate
      exact ⟨_, List.getElem?_concat_length, of_decide_eq_true hdue⟩

theorem sendTo (h : Conserved random params s) (hrandom : random.Bounded)
    (hjitter : params.jitterUs.toNat < 2 ^ 31) (data : Bytes) (dest : Endpoint)
    (clockUs : Micros) : Conserved random params (next random s (.sendTo data dest clockUs)) := by
  obtain ⟨rng, hcases⟩ := sendTo_cases random s data dest clockUs
  rcases hcases with ⟨hfate, heq⟩ | ⟨hzero, hfate, heq⟩ | ⟨hne, rng', delay, hdelay, hfate, heq⟩
  · simp only [next, heq, hfate]
    apply h.append <;> simp [Sending.isDropped, Sending.held, Sending.round, Timely,
      Sending.releaseUs]
  · simp only [next, heq, hfate]
    apply h.append <;> simp [Sending.isDropped, Sending.held, Sending.round, Timely,
      Sending.releaseUs]
  · obtain ⟨j, hj, hfst⟩ := SimSocket.nextDelayUs_fst random params hrandom hjitter
      (s := { s.sim with rng := rng }) h.jitter_eq h.delayUs_eq
    have htimely : Timely params ⟨⟨dest, data⟩, clockUs, .held (clockUs + delay)⟩ := by
      intro releaseUs hrel
      refine ⟨j, hj, ?_⟩
      rw [← hfst, ← hdelay]
      exact (Option.some.inj hrel).symm
    have hbypass : params.delayUs ≠ 0 := h.delayUs_eq ▸ hne
    simp only [next, heq, hfate]
    apply h.append <;> simp [Sending.isDropped, Sending.held, Sending.round, htimely, hbypass]

end Conserved

theorem conserved (hrandom : random.Bounded) (hjitter : params.jitterUs.toNat < 2 ^ 31)
    (h : (machine random params).Reachable s) : Conserved random params s := by
  apply h.invariant Conserved.init
  intro s e hs _
  cases e with
  | sendTo data dest clockUs => exact hs.sendTo hrandom hjitter data dest clockUs
  | pump clockUs => exact hs.pump clockUs

theorem not_due_of_mem_pump (h : Conserved random params s) {clockUs : Micros} {d : Delayed}
    (hd : d ∈ (s.sim.pump clockUs).2.queue) : ¬d.releaseUs ≤ clockUs := by
  have hempty : s.sim.delayUs = 0 → s.sim.queue = [] := by
    rw [h.delayUs_eq]
    exact h.bypass
  rw [SimSocket.pump_eq hempty clockUs] at hd
  have hnot := (List.mem_filter.mp hd).2
  simpa [SimSocket.due] using hnot

/-- Every datagram is dropped, queued or forwarded in one round, whole, in order and not early. -/
theorem shim_conserves (hrandom : random.Bounded) (hjitter : params.jitterUs.toNat < 2 ^ 31)
    (h : (machine random params).Reachable s) :
    s.sim.sent = s.sim.dropped + UInt64.ofNat (s.forwarded.length + s.sim.queue.length) ∧
    s.sim.dropped = UInt64.ofNat (s.sendings.countP Sending.isDropped) ∧
    s.sendings.countP Sending.isDropped + (s.forwarded.length + s.sim.queue.length) =
      s.sendings.length ∧
    s.sim.queue = s.sendings.filterMap Sending.held ∧
    (∀ i r, s.rounds[i]? = some r →
      r.forwarded = (s.sendings.filter (fun x => x.round = some i)).map Sending.toDatagram) ∧
    (∀ x ∈ s.sendings, ∀ i, x.round = some i → i < s.rounds.length) ∧
    (∀ x ∈ s.sendings, ∀ i releaseUs, x.fate = .released releaseUs i →
      ∃ r, s.rounds[i]? = some r ∧ releaseUs ≤ r.clockUs) ∧
    (∀ x ∈ s.sendings, Timely params x) ∧
    (∀ clockUs, ∀ d ∈ (s.sim.pump clockUs).2.queue, ¬d.releaseUs ≤ clockUs) := by
  have hs := conserved hrandom hjitter h
  have htotal : s.sendings.countP Sending.isDropped +
      (s.forwarded.length + s.sim.queue.length) = s.sendings.length := by
    rw [← add_assoc]
    exact hs.total
  refine ⟨?_, hs.dropped_eq, htotal, hs.queue_eq, hs.forwarded_eq, hs.round_lt, hs.released_le,
    hs.timely, ?_⟩
  · rw [hs.sent_eq, hs.dropped_eq, ← UInt64.ofNat_add, htotal]
  · intro clockUs d hd
    exact not_due_of_mem_pump hs hd

def earliest : Random Unit Unit where
  mt19937 _ := ()
  bernoulli _ rng := (false, rng)
  uniformInt lo _ rng := (lo, rng)

def latency : SimParams Unit where
  loss := ()
  delayUs := 1000
  jitterUs := 200

theorem shim_conserves_earliest :
    let s := (machine earliest latency).runFrom (machine earliest latency).init
      [.sendTo [1] ⟨"127.0.0.1", 9⟩ 0, .sendTo [2] ⟨"127.0.0.1", 9⟩ 50, .pump 800]
    s.sim.sent = s.sim.dropped + UInt64.ofNat (s.forwarded.length + s.sim.queue.length) := by
  have hbounded : earliest.Bounded := fun _ _ _ hle => ⟨Int32.le_refl _, hle⟩
  have hrun := Machine.Reachable.init (M := machine earliest latency)
    |>.step (.sendTo [1] ⟨"127.0.0.1", 9⟩ 0) trivial
    |>.step (.sendTo [2] ⟨"127.0.0.1", 9⟩ 50) trivial
    |>.step (.pump 800) trivial
  exact (shim_conserves hbounded (by decide) hrun).1

end Shim

end Netcode.Transport
