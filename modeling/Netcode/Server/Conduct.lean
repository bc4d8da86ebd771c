import Netcode.Server.Exchange

/-!
# An entity is its owner's

What becomes of an endpoint's entity and of the tick that its client acknowledges is
decided by where it joined, by the messages that the endpoint's own peer delivered and
by the steps of the world. A run keeps these orders for each endpoint, and replaying
them for one entity alone gives what the server has.
-/

namespace Netcode.Server

open Netcode.Library Netcode.Sim Netcode.Transport

inductive Order
  | message (payload : Bytes)
  | step
deriving DecidableEq

structure Seat where
  id : EntityId
  entity : Entity Extended
  ack : UInt32 := 0

namespace Seat

def obey (bound : Extended) (x : Seat) : Order → Seat
  | .message payload =>
    match decodeInput payload with
    | none => x
    | some input =>
      { x with
        entity := { x.entity with vx := input.dx * World.kSpeed, vy := input.dy * World.kSpeed }
        ack := max x.ack input.lastReceivedTick }
  | .step =>
    { x with
      entity := { x.entity with
        x := Scalar.clamp (x.entity.x + x.entity.vx * kDt) (Scalar.ofRat 0) bound
        y := Scalar.clamp (x.entity.y + x.entity.vy * kDt) (Scalar.ofRat 0) bound } }

def replay (bound : Extended) (x : Seat) (orders : List Order) : Seat :=
  orders.foldl (obey bound) x

def spawned {ρ : Type*} (uniform : Extended → ρ → Extended × ρ) (bound : Extended) (rng : ρ)
    (id : EntityId) : Seat where
  id := id
  entity := ⟨(uniform bound rng).1, (uniform bound (uniform bound rng).2).1,
    Scalar.ofRat 0, Scalar.ofRat 0⟩

variable {bound : Extended} {x : Seat}

def latest (orders : List Order) : Option (Input Extended) :=
  orders.foldl (fun input order => match order with
    | .message payload => (decodeInput payload).or input
    | .step => input) none

theorem replay_append (bound : Extended) (x : Seat) (os ps : List Order) :
    x.replay bound (os ++ ps) = (x.replay bound os).replay bound ps := List.foldl_append

@[simp] theorem replay_id (bound : Extended) (x : Seat) (orders : List Order) :
    (x.replay bound orders).id = x.id := by
  induction orders generalizing x with
  | nil => rfl
  | cons order orders ih =>
    refine (ih (x.obey bound order)).trans ?_
    cases order with
    | step => rfl
    | message payload =>
      rw [obey]
      cases decodeInput payload <;> rfl

theorem replay_velocity (bound : Extended) (x : Seat) (orders : List Order) :
    ((x.replay bound orders).entity.vx, (x.replay bound orders).entity.vy) =
      match latest orders with
      | none => (x.entity.vx, x.entity.vy)
      | some input => (input.dx * World.kSpeed, input.dy * World.kSpeed) := by
  induction orders using List.reverseRecOn with
  | nil => rfl
  | append_singleton orders order ih =>
    rw [replay_append, latest, List.foldl_append]
    cases order with
    | step => exact ih
    | message payload =>
      simp only [List.foldl_cons, List.foldl_nil, replay, obey]
      cases decodeInput payload with
      | none => exact ih
      | some input => rfl

theorem within_step_iff {c v : Extended} (hbound : Scalar.lt (Scalar.ofRat 0) bound = true)
    (hfinite : bound ≠ Extended.inf false) (hc : Extended.Within bound c ∨ c = Extended.nan) :
    Extended.Within bound (Scalar.clamp (c + v * kDt) (Scalar.ofRat 0) bound) ↔
      Extended.Within bound c ∧ v ≠ Extended.nan := by
  have hdt : (kDt : Extended) = Extended.finite (1 / 60) := by decide +kernel
  rcases hc with hin | rfl
  · rw [Extended.within_step_iff hin (by rw [hdt]; decide +kernel) hbound]
    refine ⟨fun h => ⟨hin, h.velocity⟩, fun h => ⟨h.2, fun hp => ?_, fun hs => ?_⟩⟩
    · rw [hdt] at hp
      exact Extended.noConfusion hp.2
    · exact hin.ne_inf hfinite hs.1
  · have hsum : Extended.nan + v * kDt = Extended.nan := rfl
    rw [hsum, Extended.clamp_nan]
    exact iff_of_false (Extended.not_within_nan bound) fun h => Extended.not_within_nan bound h.1

def Settled (bound : Extended) (x : Seat) : Prop :=
  (Extended.Within bound x.entity.x ∨ x.entity.x = Extended.nan) ∧
    (Extended.Within bound x.entity.y ∨ x.entity.y = Extended.nan)

theorem settled_replay (hbound : Scalar.lt (Scalar.ofRat 0) bound = true)
    (hx : World.Inside bound x.entity) (orders : List Order) :
    Settled bound (x.replay bound orders) := by
  have hclamp : ∀ c, Extended.Within bound (Scalar.clamp c (Scalar.ofRat 0) bound) ∨
      Scalar.clamp c (Scalar.ofRat 0) bound = Extended.nan := by
    intro c
    by_cases hc : c = Extended.nan
    · exact Or.inr (hc ▸ Extended.clamp_nan _ _)
    · exact Or.inl ((Extended.within_clamp_iff hbound c).mpr hc)
  induction orders using List.reverseRecOn with
  | nil => exact ⟨Or.inl hx.1, Or.inl hx.2⟩
  | append_singleton orders order ih =>
    rw [replay_append]
    cases order with
    | step => exact ⟨hclamp _, hclamp _⟩
    | message payload =>
      simp only [replay, List.foldl_cons, List.foldl_nil, obey]
      cases decodeInput payload with
      | none => exact ih
      | some input => exact ih

/-- A seat that starts in the box is in it exactly if none of its steps was taken while
its latest input had a direction that is NaN. -/
theorem inside_replay_iff (hbound : Scalar.lt (Scalar.ofRat 0) bound = true)
    (hfinite : bound ≠ Extended.inf false) (hx : World.Inside bound x.entity)
    (hrest : x.entity.vx ≠ Extended.nan ∧ x.entity.vy ≠ Extended.nan) (orders : List Order) :
    World.Inside bound (x.replay bound orders).entity ↔
      ∀ os, os ++ [.step] <+: orders → ∀ input, latest os = some input →
        input.dx ≠ Extended.nan ∧ input.dy ≠ Extended.nan := by
  have hvelocity : ∀ os, ((x.replay bound os).entity.vx ≠ Extended.nan ∧
      (x.replay bound os).entity.vy ≠ Extended.nan) ↔ ∀ input, latest os = some input →
        input.dx ≠ Extended.nan ∧ input.dy ≠ Extended.nan := by
    intro os
    have hpair := replay_velocity bound x os
    rw [Prod.ext_iff] at hpair
    simp only at hpair
    rw [hpair.1, hpair.2]
    cases latest os with
    | none => exact iff_of_true hrest fun input h => absurd h.symm (Option.some_ne_none input)
    | some input => simp [World.velocity_eq_nan_iff]
  induction orders using List.reverseRecOn with
  | nil => exact iff_of_true hx fun os h => absurd (List.prefix_nil.mp h) (by simp)
  | append_singleton orders order ih =>
    rw [replay_append]
    cases order with
    | message payload =>
      have hstay : World.Inside bound ((x.replay bound orders).replay bound
          [.message payload]).entity ↔ World.Inside bound (x.replay bound orders).entity := by
        simp only [replay, List.foldl_cons, List.foldl_nil, obey]
        cases decodeInput payload with
        | none => exact Iff.rfl
        | some input => exact Iff.rfl
      refine (hstay.trans ih).trans (forall_congr' fun os => imp_congr_left ?_)
      rw [List.prefix_concat_iff]
      exact (or_iff_right fun heq => by simpa using congrArg List.getLast? heq).symm
    | step =>
      obtain ⟨hxs, hys⟩ := settled_replay hbound hx orders
      have hmoved : World.Inside bound ((x.replay bound orders).replay bound [.step]).entity ↔
          World.Inside bound (x.replay bound orders).entity ∧
            (x.replay bound orders).entity.vx ≠ Extended.nan ∧
              (x.replay bound orders).entity.vy ≠ Extended.nan :=
        (and_congr (within_step_iff hbound hfinite hxs) (within_step_iff hbound hfinite hys)).trans
          and_and_and_comm
      refine hmoved.trans ((and_congr ih (hvelocity orders)).trans ?_)
      constructor
      · intro h os hos
        rcases List.prefix_concat_iff.mp hos with heq | hos
        · rw [List.append_cancel_right heq]
          exact h.2
        · exact h.1 os hos
      · exact fun h => ⟨fun os hos => h os (hos.trans (List.prefix_append _ _)),
          h orders (List.prefix_refl _)⟩

end Seat

namespace ServerLoop

variable {δ ρ : Type*} [Scalar δ]

def orders (ms : List Message) : List Order := ms.map fun m => .message m.payload

def Seats (s : ServerLoop δ ρ) (e : Endpoint) (x : Seat) : Prop :=
  s.clients.lookup e = some ⟨x.id, x.ack⟩ ∧ s.world.entities.lookup x.id = some x.entity

/-- What an iteration has the entity of an endpoint do. -/
def ordersFor [Fmod δ] (uniform : Extended → ρ → Extended × ρ) (s : ServerLoop δ ρ) (now : Micros)
    (datagrams : List (Endpoint × Arrival)) (e : Endpoint) : List Order :=
  let received := s.received uniform now datagrams
  if (received.clients.lookup e).isSome then
    orders ((s.peerAt e).poll now (arrivalsFor e datagrams)).1.unreliable ++
      List.replicate (received.advance now).1.toNat .step
  else []

variable {uniform : Extended → ρ → Extended × ρ} {s : ServerLoop δ ρ} {i : Incoming}
  {e : Endpoint} {x : Seat}

structure Drives (p : World Extended ρ × ClientState) (x : Seat) : Prop where
  entity : p.1.entities.lookup p.2.entity = some x.entity
  ack : p.2.lastReceivedTick = x.ack

theorem Drives.applyMessage {p : World Extended ρ × ClientState} (h : Drives p x) (m : Message)
    (bound : Extended) : Drives (applyMessage p m) (x.obey bound (.message m.payload)) := by
  rw [ServerLoop.applyMessage, Seat.obey]
  cases decodeInput m.payload with
  | none => exact h
  | some input =>
    constructor
    · have hmoved : (p.1.applyInput p.2.entity input).entities.lookup p.2.entity =
          some { x.entity with
            vx := input.dx * World.kSpeed, vy := input.dy * World.kSpeed } := by
        rw [World.applyInput_entities, SortedMap.lookup_map, h.entity, Option.map_some, if_pos rfl]
      simp only
      split_ifs
      · exact hmoved
      · exact hmoved
    · simp only
      rw [← h.ack]
      split_ifs with hnewer
      · exact (max_eq_right hnewer.le).symm
      · exact (max_eq_left (not_lt.mp hnewer)).symm

theorem Drives.foldl {p : World Extended ρ × ClientState} (h : Drives p x) (ms : List Message)
    (bound : Extended) :
    Drives (ms.foldl ServerLoop.applyMessage p) (x.replay bound (orders ms)) := by
  induction ms generalizing p x with
  | nil => exact h
  | cons m ms ih => exact ih (h.applyMessage m bound)

theorem foldl_applyMessage_other (ms : List Message) {p : World Extended ρ × ClientState}
    {id : EntityId} (hid : id ≠ p.2.entity) :
    (ms.foldl applyMessage p).1.entities.lookup id = p.1.entities.lookup id := by
  induction ms generalizing p with
  | nil => rfl
  | cons m ms ih =>
    have hentity := (applyMessage_kept p m).entity
    rw [List.foldl_cons, ih (hentity.symm ▸ hid), applyMessage]
    cases decodeInput m.payload with
    | none => rfl
    | some input =>
      simp only
      rw [World.applyInput_entities, SortedMap.lookup_map]
      simp only [if_neg hid, Option.map_id']

theorem welcome_source (uniform : Extended → ρ → Extended × ρ) (hi : i.source = e)
    (hnew : i.isNew = (s.clients.lookup i.source).isNone) :
    (∀ x, s.Seats e x → (s.welcome uniform i).Seats e x) ∧
      (s.clients.lookup e = none →
        ∃ rng id, (s.welcome uniform i).Seats e (.spawned uniform s.world.bound rng id)) := by
  subst hi
  rw [welcome, hnew]
  constructor
  · intro x hx
    rw [if_neg (by simp [hx.1])]
    exact hx
  · intro hnone
    rw [if_pos (by simp [hnone])]
    exact ⟨s.world.rng, s.world.nextId, (SortedMap.lookup_insert ..).trans (if_pos rfl),
      (SortedMap.lookup_insert ..).trans (if_pos rfl)⟩

theorem welcome_other (h : Players s.world s.clients) (hi : i.source ≠ e) (hx : s.Seats e x) :
    (s.welcome uniform i).Seats e x := by
  rw [welcome]
  split_ifs
  · have hfresh : s.world.nextId ≠ x.id := by
      intro hid
      have hgiven := (h.given x.id (h.entity e _ hx.1)).2
      rw [hid] at hgiven
      exact lt_irrefl _ hgiven
    exact ⟨(SortedMap.lookup_insert ..).trans ((if_neg hi).trans hx.1),
      (SortedMap.lookup_insert ..).trans ((if_neg hfresh).trans hx.2)⟩
  · exact hx

theorem ingest_source (hi : i.source = e) (hx : (s.welcome uniform i).Seats e x)
    (bound : Extended) :
    (s.ingest uniform i).Seats e (x.replay bound (orders i.delivery.unreliable)) := by
  subst hi
  obtain ⟨hclient, hentity⟩ := hx
  have hdrives : Drives ((s.welcome uniform i).world, (⟨x.id, x.ack⟩ : ClientState)) x :=
    ⟨hentity, rfl⟩
  have hfold := hdrives.foldl i.delivery.unreliable bound
  have hkept : (i.delivery.unreliable.foldl applyMessage
      ((s.welcome uniform i).world, (⟨x.id, x.ack⟩ : ClientState))).2.entity = x.id :=
    (foldl_applyMessage_kept ..).entity
  constructor
  · simp only [ingest, SortedMap.lookup_insert, if_true, hclient, Option.getD_some,
      Seat.replay_id]
    exact congrArg some (congr (congrArg ClientState.mk hkept) hfold.ack)
  · simp only [ingest, hclient, Option.getD_some, Seat.replay_id]
    exact (congrArg _ hkept.symm).trans hfold.entity

theorem ingest_other (h : Players (s.welcome uniform i).world (s.welcome uniform i).clients)
    (hnew : i.isNew = (s.clients.lookup i.source).isNone) (hi : i.source ≠ e)
    (hx : (s.welcome uniform i).Seats e x) : (s.ingest uniform i).Seats e x := by
  obtain ⟨cs, hcs⟩ := welcome_isSome uniform hnew
  have hid : x.id ≠ cs.entity := fun heq => hi (h.distinct _ _ _ _ hcs hx.1 heq.symm)
  constructor
  · simp only [ingest, SortedMap.lookup_insert, if_neg hi]
    exact hx.1
  · simp only [ingest, hcs, Option.getD_some]
    rw [foldl_applyMessage_other i.delivery.unreliable hid]
    exact hx.2

def messagesFrom (e : Endpoint) (reports : List Incoming) : List Message :=
  (reports.filter fun i => i.source = e).flatMap fun i => i.delivery.unreliable

theorem orders_messagesFrom_cons (e : Endpoint) (i : Incoming) (reports : List Incoming) :
    orders (messagesFrom e (i :: reports)) =
      (if i.source = e then orders i.delivery.unreliable else []) ++
        orders (messagesFrom e reports) := by
  by_cases hi : i.source = e
  · simp [messagesFrom, orders, hi]
  · simp [messagesFrom, orders, hi]

theorem world_bound_ingest (uniform : Extended → ρ → Extended × ρ) (s : ServerLoop δ ρ)
    (i : Incoming) : (s.ingest uniform i).world.bound = s.world.bound := by
  have hmessage : ∀ (m : Message) (p : World Extended ρ × ClientState),
      (applyMessage p m).1.bound = p.1.bound := by
    intro m p
    rw [applyMessage]
    cases decodeInput m.payload with
    | none => rfl
    | some input => exact World.bound_next uniform p.1 (.applyInput p.2.entity input)
  have hfold : ∀ (ms : List Message) (p : World Extended ρ × ClientState),
      (ms.foldl applyMessage p).1.bound = p.1.bound := by
    intro ms
    induction ms with
    | nil => exact fun p => rfl
    | cons m ms ih => exact fun p => (ih _).trans (hmessage m p)
  have hwelcome : (s.welcome uniform i).world.bound = s.world.bound := by
    rw [welcome]
    split_ifs
    · rfl
    · rfl
  exact (hfold ..).trans hwelcome

theorem foldl_ingest_seats {reports : List Incoming} (h : Players s.world s.clients)
    (hreports : s.Reported reports)
    (hroom : (reports.foldl (ingest uniform) s).clients.entries.length + 1 < 2 ^ 32) :
    (reports.foldl (ingest uniform) s).world.bound = s.world.bound ∧
      (∀ x, s.Seats e x → (reports.foldl (ingest uniform) s).Seats e
        (x.replay s.world.bound (orders (messagesFrom e reports)))) ∧
      (s.clients.lookup e = none → e ∈ reports.map Incoming.source →
        ∃ rng id, (reports.foldl (ingest uniform) s).Seats e
          ((Seat.spawned uniform s.world.bound rng id).replay s.world.bound
            (orders (messagesFrom e reports)))) := by
  induction reports generalizing s with
  | nil => exact ⟨rfl, fun x hx => hx, fun _ he => absurd he List.not_mem_nil⟩
  | cons i reports ih =>
    obtain ⟨hnew, hrest⟩ := hreports.tail uniform
    have hlength := foldl_ingest_length uniform reports (s.ingest uniform i)
    rw [List.foldl_cons] at hroom ⊢
    have hplayers : Players (s.ingest uniform i).world (s.ingest uniform i).clients :=
      ingest_players h hnew (by omega)
    obtain ⟨hbound, hold, hfresh⟩ := ih hplayers hrest hroom
    have hsame := world_bound_ingest uniform s i
    rw [hsame] at hbound hold hfresh
    have hroom' : (s.welcome uniform i).clients.entries.length + 1 < 2 ^ 32 := by
      have hingest : (s.welcome uniform i).clients.entries.length ≤
          (s.ingest uniform i).clients.entries.length := length_le_insert _ _ _
      omega
    have hwelcomed : Players (s.welcome uniform i).world (s.welcome uniform i).clients :=
      welcome_players h hnew hroom'
    rw [orders_messagesFrom_cons]
    refine ⟨hbound, fun x hx => ?_, fun hnone he => ?_⟩
    · by_cases hi : i.source = e
      · rw [if_pos hi, Seat.replay_append]
        exact hold _ (ingest_source hi ((welcome_source uniform hi hnew).1 x hx) _)
      · rw [if_neg hi]
        exact hold _ (ingest_other hwelcomed hnew hi (welcome_other h hi hx))
    · by_cases hi : i.source = e
      · obtain ⟨rng, id, hseat⟩ := (welcome_source uniform hi hnew).2 hnone
        refine ⟨rng, id, ?_⟩
        rw [if_pos hi, Seat.replay_append]
        exact hold _ (ingest_source hi hseat _)
      · rw [if_neg hi]
        have hstill : (s.ingest uniform i).clients.lookup e = none :=
          (ingest_lookup_ne hi).trans hnone
        exact hfresh hstill ((List.mem_cons.mp he).resolve_left (Ne.symm hi))

theorem poll_messages (hdrained : s.mgr.Drained) (now : Micros)
    (datagrams : List (Endpoint × Arrival)) (e : Endpoint) :
    messagesFrom e (s.mgr.poll now datagrams).1 =
      ((s.peerAt e).poll now (arrivalsFor e datagrams)).1.unreliable := by
  obtain ⟨-, hreports⟩ := s.mgr.poll_view e now datagrams fun c hc => (hdrained e c hc).1
  rw [messagesFrom, hreports]
  split_ifs with hnil
  · rw [hnil, Peer.poll_nil]
    rfl
  · exact List.append_nil _

theorem received_seats (h : s.Seated) {now : Micros} {datagrams : List (Endpoint × Arrival)}
    (hroom : (s.received uniform now datagrams).Roomy) (e : Endpoint) :
    (s.received uniform now datagrams).world.bound = s.world.bound ∧
      (∀ x, s.Seats e x → (s.received uniform now datagrams).Seats e (x.replay s.world.bound
        (orders ((s.peerAt e).poll now (arrivalsFor e datagrams)).1.unreliable))) ∧
      (s.clients.lookup e = none → e ∈ (s.mgr.poll now datagrams).1.map Incoming.source →
        ∃ rng id, (s.received uniform now datagrams).Seats e
          ((Seat.spawned uniform s.world.bound rng id).replay s.world.bound
            (orders ((s.peerAt e).poll now (arrivalsFor e datagrams)).1.unreliable))) := by
  rw [← poll_messages h.drained now datagrams e]
  exact foldl_ingest_seats (s := { s with mgr := (s.mgr.poll now datagrams).2 }) h.players
    (h.reported now datagrams) hroom

theorem stepTimes_bound (n : ℕ) (p : World Extended ρ × UInt32) :
    (stepTimes n p).1.bound = p.1.bound := by
  induction n generalizing p with
  | zero => rfl
  | succ n ih => exact ih (p.1.step kDt, p.2 + 1)

theorem stepTimes_seats (n : ℕ) (w : World Extended ρ) (tick : UInt32) {id : EntityId}
    (h : w.entities.lookup id = some x.entity) :
    (stepTimes n (w, tick)).1.entities.lookup id =
        some (x.replay w.bound (List.replicate n .step)).entity ∧
      (x.replay w.bound (List.replicate n .step)).ack = x.ack := by
  induction n generalizing w tick x with
  | zero => exact ⟨h, rfl⟩
  | succ n ih =>
    have hstep : (w.step kDt).entities.lookup id = some (x.obey w.bound .step).entity := by
      rw [World.step, SortedMap.lookup_map, h]
      rfl
    exact ih (w.step kDt) (tick + 1) hstep

section

variable [Fmod δ] {now : Micros} {datagrams : List (Endpoint × Arrival)}

theorem advance_seats (hx : s.Seats e x) (now : Micros) :
    (s.advance now).2.Seats e
      (x.replay s.world.bound (List.replicate (s.advance now).1.toNat .step)) := by
  obtain ⟨hmoved, hack⟩ := stepTimes_seats (s.advance now).1.toNat s.world s.tick hx.2
  rw [Seats, Seat.replay_id, hack]
  exact ⟨hx.1, hmoved⟩

theorem served_seats (h : (s.advance now).2.Known) :
    (s.served now).world = (s.advance now).2.world ∧
      (s.served now).clients = (s.advance now).2.clients := by
  rw [served]
  split_ifs
  · exact ⟨h.broadcast_spec.1.world, h.broadcast_spec.1.clients⟩
  · exact ⟨rfl, rfl⟩

theorem iterate_seats (h : s.Seated) (hroom : (s.received uniform now datagrams).Roomy)
    (e : Endpoint) :
    (s.iterate uniform now datagrams).2.world.bound = s.world.bound ∧
      (∀ x, s.Seats e x → (s.iterate uniform now datagrams).2.Seats e
        (x.replay s.world.bound (s.ordersFor uniform now datagrams e))) ∧
      (s.clients.lookup e = none →
        (s.iterate uniform now datagrams).2.clients.lookup e = none ∧
            s.ordersFor uniform now datagrams e = [] ∨
          ∃ rng id, (s.iterate uniform now datagrams).2.Seats e
            ((Seat.spawned uniform s.world.bound rng id).replay s.world.bound
              (s.ordersFor uniform now datagrams e))) := by
  have hreceived := h.received hroom
  obtain ⟨hworld, hclients⟩ := served_seats (hreceived.advance now).known
  obtain ⟨hbound, hold, hfresh⟩ := received_seats h hroom e
  have hmove : ∀ y, (s.received uniform now datagrams).Seats e y →
      (s.iterate uniform now datagrams).2.Seats e (y.replay s.world.bound
        (List.replicate ((s.received uniform now datagrams).advance now).1.toNat .step)) := by
    intro y hy
    have hmoved := advance_seats hy now
    rw [hbound] at hmoved
    exact ⟨by rw [← hmoved.1, ← hclients]; rfl, by rw [← hmoved.2, ← hworld]; rfl⟩
  have hjoined : ∀ y, (s.received uniform now datagrams).Seats e y →
      s.ordersFor uniform now datagrams e =
        orders ((s.peerAt e).poll now (arrivalsFor e datagrams)).1.unreliable ++
          List.replicate ((s.received uniform now datagrams).advance now).1.toNat .step := by
    intro y hy
    exact if_pos (by rw [hy.1]; rfl)
  refine ⟨?_, fun x hx => ?_, fun hnone => ?_⟩
  · have hfinal : (s.iterate uniform now datagrams).2.world.bound =
        ((s.received uniform now datagrams).advance now).2.world.bound := by rw [← hworld]; rfl
    exact hfinal.trans ((stepTimes_bound ..).trans hbound)
  · have hseat := hold x hx
    rw [hjoined _ hseat, Seat.replay_append]
    exact hmove _ hseat
  · by_cases he : e ∈ (s.mgr.poll now datagrams).1.map Incoming.source
    · obtain ⟨rng, id, hseat⟩ := hfresh hnone he
      refine Or.inr ⟨rng, id, ?_⟩
      rw [hjoined _ hseat, Seat.replay_append]
      exact hmove _ hseat
    · have hstranger : (s.received uniform now datagrams).clients.lookup e = none := by
        rw [← Option.not_isSome_iff_eq_none, ServerLoop.received, foldl_ingest_isSome]
        simp [hnone, he]
      refine Or.inl ⟨?_, if_neg (by rw [hstranger]; exact Bool.false_ne_true)⟩
      rw [← hstranger]
      exact congrArg (fun m => m.lookup e) hclients

end

end ServerLoop

/-- A server and what it has had the entity of each endpoint do. -/
structure Logged (δ ρ : Type*) [Scalar δ] where
  server : ServerLoop δ ρ
  orders : Endpoint → List Order := fun _ => []

namespace Logged

variable {δ ρ : Type*} [Scalar δ] [Fmod δ] {uniform : Extended → ρ → Extended × ρ}
  {bound : Extended} {seed : ρ} {begun : Micros} {s : Logged δ ρ}

def machine (uniform : Extended → ρ → Extended × ρ) (bound : Extended) (seed : ρ)
    (begun : Micros) : Machine (Logged δ ρ) (Micros × List (Endpoint × Arrival)) where
  init := { server := .start bound seed begun }
  Enabled _ _ := True
  next s i :=
    { server := (s.server.iterate uniform i.1 i.2).2
      orders := fun e => s.orders e ++ s.server.ordersFor uniform i.1 i.2 e }

/-- An endpoint that never joined has no orders, and any other what they made of its seat. -/
structure Driven (uniform : Extended → ρ → Extended × ρ) (bound : Extended) (s : Logged δ ρ) :
    Prop where
  seated : s.server.Seated
  bounded : s.server.world.bound = bound
  seats : ∀ e, s.server.clients.lookup e = none ∧ s.orders e = [] ∨
    ∃ rng id, s.server.Seats e ((Seat.spawned uniform bound rng id).replay bound (s.orders e))

theorem Driven.next (h : Driven uniform bound s) (i : Micros × List (Endpoint × Arrival))
    (hroom : (s.server.iterate uniform i.1 i.2).2.Roomy) :
    Driven uniform bound ((machine uniform bound seed begun).next s i) := by
  have hserved := ServerLoop.served_length (s.server.received uniform i.1 i.2) i.1
  have hreceived : (s.server.received uniform i.1 i.2).Roomy := by
    have hlast : ((s.server.received uniform i.1 i.2).served i.1).Roomy := hroom
    rw [ServerLoop.Roomy] at hlast ⊢
    omega
  have hseats := fun e => h.bounded ▸ ServerLoop.iterate_seats h.seated hreceived e
  refine ⟨h.seated.iterate hroom, (hseats ⟨"", 0⟩).1, fun e => ?_⟩
  obtain ⟨-, hold, hfresh⟩ := hseats e
  rcases h.seats e with ⟨hnone, hempty⟩ | ⟨rng, id, hseat⟩
  · rcases hfresh hnone with ⟨hnone', hidle⟩ | ⟨rng, id, hseat⟩
    · exact Or.inl ⟨hnone', by simp only [machine, hempty, hidle, List.append_nil]⟩
    · refine Or.inr ⟨rng, id, ?_⟩
      simp only [machine, hempty, List.nil_append]
      exact hseat
  · refine Or.inr ⟨rng, id, ?_⟩
    simp only [machine, Seat.replay_append]
    exact hold _ hseat

theorem Driven.of_reachable (h : (machine uniform bound seed begun).Reachable s)
    (hroom : s.server.Roomy) : Driven uniform bound s := by
  suffices hinv : s.server.Roomy → Driven uniform bound s from hinv hroom
  apply h.invariant (I := fun s => s.server.Roomy → Driven uniform bound s)
  · exact fun _ => ⟨ServerLoop.Seated.start bound seed begun, rfl, fun _ => Or.inl ⟨rfl, rfl⟩⟩
  · exact fun s i ih _ hroom => (ih hroom.of_iterate).next i hroom

/-- Whatever arrives from whom and when, the entity of an endpoint and the tick that its
client acknowledges are what the endpoint's own messages and the steps of the world make
of a new seat. -/
theorem entity_driven_by_owner (h : (machine uniform bound seed begun).Reachable s)
    (hroom : s.server.Roomy) (e : Endpoint) :
    s.server.clients.lookup e = none ∧ s.orders e = [] ∨
      ∃ rng id, s.server.Seats e
        ((Seat.spawned uniform bound rng id).replay bound (s.orders e)) :=
  (Driven.of_reachable h hroom).seats e

def inputDatagram (sequence : UInt8) (payload : Bytes) : Bytes :=
  [sequence, 0, 0, 1, sequence, 0, 0, 0, 0, 0, 0, 0, 1, 0, 0, 0, 0, 12, 0] ++ payload

def rightInput : Bytes := [5, 0, 0, 0, 0, 0, 0x80, 0x3F, 0, 0, 0, 0]

def poisonedRun : Logged ℚ Unit :=
  (machine World.drawOrigin World.hundred () 0).runFrom
    { server := .start World.hundred () 0 }
    [(20000, [(⟨"b", 2⟩, (.ascending, inputDatagram 1 World.poison)),
        (⟨"a", 1⟩, (.ascending, inputDatagram 1 rightInput))]),
      (40000, [])]

theorem reachable_poisonedRun :
    (machine World.drawOrigin World.hundred () 0).Reachable poisonedRun :=
  Machine.Reachable.init.runFrom ⟨trivial, trivial, trivial⟩

theorem roomy_poisonedRun : poisonedRun.server.Roomy := by
  rw [ServerLoop.Roomy]
  decide +kernel

theorem entity_driven_by_owner_poisonedRun :
    let s := poisonedRun
    (s.server.clients.lookup ⟨"a", 1⟩ = none ∧ s.orders ⟨"a", 1⟩ = [] ∨
      ∃ rng id, s.server.Seats ⟨"a", 1⟩
        ((Seat.spawned World.drawOrigin World.hundred rng id).replay World.hundred
          (s.orders ⟨"a", 1⟩))) ∧
      s.orders ⟨"a", 1⟩ = [.message rightInput, .step, .step] ∧
      (s.server.world.entities.lookup 2).map Entity.x = some (Scalar.ofRat (2 / 3)) :=
  ⟨entity_driven_by_owner reachable_poisonedRun roomy_poisonedRun ⟨"a", 1⟩, by decide +kernel,
    by decide +kernel⟩

/-- In a finite box an entity is inside exactly if no step was taken while the latest input
of its own endpoint had a direction that is NaN; what others send makes no difference. -/
theorem inside_iff_own_inputs (hbound : Scalar.lt (Scalar.ofRat 0) bound = true)
    (hfinite : bound ≠ Extended.inf false) (hdraws : World.DrawsWithin uniform bound)
    (h : (machine uniform bound seed begun).Reachable s) (hroom : s.server.Roomy) {e : Endpoint}
    {cs : ClientState} (hclient : s.server.clients.lookup e = some cs) :
    ∃ entity, s.server.world.entities.lookup cs.entity = some entity ∧
      (World.Inside bound entity ↔ ∀ os, os ++ [.step] <+: s.orders e → ∀ input,
        Seat.latest os = some input → input.dx ≠ Extended.nan ∧ input.dy ≠ Extended.nan) := by
  rcases (Driven.of_reachable h hroom).seats e with ⟨hnone, -⟩ | ⟨rng, id, hseat, hentity⟩
  · rw [hclient] at hnone
    exact absurd hnone (Option.some_ne_none cs)
  · rw [hclient, Option.some.injEq] at hseat
    subst hseat
    refine ⟨_, hentity, Seat.inside_replay_iff hbound hfinite ?_ ?_ _⟩
    · exact ⟨hdraws rng, hdraws (uniform bound rng).2⟩
    · exact ⟨Extended.noConfusion, Extended.noConfusion⟩

theorem inside_iff_own_inputs_poisonedRun :
    let s := poisonedRun
    ∃ id entity, s.server.world.entities.lookup id = some entity ∧
      (World.Inside World.hundred entity ↔ ∀ os, os ++ [.step] <+: s.orders ⟨"b", 2⟩ →
        ∀ input, Seat.latest os = some input →
          input.dx ≠ Extended.nan ∧ input.dy ≠ Extended.nan) := by
  have hjoined : (poisonedRun.server.clients.lookup ⟨"b", 2⟩).isSome := by decide +kernel
  obtain ⟨cs, hclient⟩ := Option.isSome_iff_exists.mp hjoined
  exact ⟨cs.entity, inside_iff_own_inputs World.hundred_pos Extended.noConfusion
    World.drawOrigin_within reachable_poisonedRun roomy_poisonedRun hclient⟩

end Logged

end Netcode.Server
