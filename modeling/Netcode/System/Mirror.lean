import Netcode.Sync.Convergence
import Netcode.System.Links

/-!
# The server and the session of broadcasts

The session has one client for each entity id, and what the server does with the
reports of a poll and with the clock is a run of it: messages are ingested, an
endpoint that joins has its stamps caught up, and a blob is queued for a bot
exactly if the session queues it for the entity of the bot.
-/

namespace Netcode.System

open Netcode.Library Netcode.Sim Netcode.Transport Netcode.Server Netcode.Bots
open Netcode.Sync (Session)

variable {δ ρ σ : Type*} [Scalar δ] {D : Deployment ρ σ}

abbrev Mirrored := Session EntityId Extended

structure BotView where
  baseline : WorldSnapshot Extended
  inputs : List Bytes
  blobs : List Bytes

namespace BotView

def Stamped (v : BotView) (ticks : List UInt32) : Prop :=
  ∀ payload ∈ v.inputs, ∃ input, payload = encodeInput input ∧ input.lastReceivedTick ∈ ticks

structure Known (v : BotView) (cs : ClientState) (t : Mirrored) : Prop where
  ack : t.server.lastReceivedTick cs.entity = cs.lastReceivedTick
  base : t.base cs.entity = v.baseline
  inputs : v.Stamped (t.inputs cs.entity)
  blobs : ∀ blob ∈ v.blobs, blob ∈ t.blobs cs.entity

structure Unknown (v : BotView) : Prop where
  base : v.baseline = {}
  inputs : v.Stamped [0]
  blobs : v.blobs = []

variable {v : BotView} {cs : ClientState} {t t' : Mirrored}

theorem Stamped.mono {ticks more : List UInt32} (h : v.Stamped ticks) (hsub : ticks ⊆ more) :
    v.Stamped more := by
  intro payload hpayload
  obtain ⟨input, heq, hmem⟩ := h payload hpayload
  exact ⟨input, heq, hsub hmem⟩

theorem Known.of_same (h : v.Known cs t)
    (hack : t'.server.lastReceivedTick cs.entity = t.server.lastReceivedTick cs.entity)
    (hbase : t'.base cs.entity = t.base cs.entity)
    (hinputs : t.inputs cs.entity ⊆ t'.inputs cs.entity)
    (hblobs : t.blobs cs.entity ⊆ t'.blobs cs.entity) : v.Known cs t' where
  ack := hack.trans h.ack
  base := hbase.trans h.base
  inputs := h.inputs.mono hinputs
  blobs := fun blob hblob => hblobs (h.blobs blob hblob)

end BotView

structure Mirrors (bots : Set Endpoint) (views : Endpoint → BotView) (s : ServerLoop δ ρ)
    (t : Mirrored) : Prop where
  history : t.server.history = s.history
  tick : t.server.tick ≤ s.tick
  known : ∀ e ∈ bots, ∀ cs, s.clients.lookup e = some cs → (views e).Known cs t
  unknown : ∀ e ∈ bots, s.clients.lookup e = none → (views e).Unknown
  fresh : ∀ id ∉ s.world.ids, t.server.lastReceivedTick id = 0 ∧ t.base id = {}

def Deployment.setup (D : Deployment ρ σ) : Sync.Setup EntityId Extended :=
  ⟨id, kAoiRadius, D.worldBound⟩

namespace Mirrors

variable {bots : Set Endpoint} {views : Endpoint → BotView} {s : ServerLoop δ ρ} {t : Mirrored}
  {uniform : Extended → ρ → Extended × ρ} {i : Incoming}

def withAck (t : Mirrored) (id : EntityId) (ack : UInt32) : Mirrored :=
  { t with server := { t.server with
      lastReceivedTick := Function.update t.server.lastReceivedTick id ack } }

theorem withAck_self (t : Mirrored) (id : EntityId) :
    withAck t id (t.server.lastReceivedTick id) = t := by
  rw [withAck, Function.update_eq_self]

theorem withAck_withAck (t : Mirrored) (id : EntityId) (ack ack' : UInt32) :
    withAck (withAck t id ack) id ack' = withAck t id ack' := by
  simp only [withAck, Function.update_idem]

theorem ingest_eq_withAck (t : Mirrored) (id : EntityId) (ack : UInt32) :
    t.ingest id ack = withAck t id (max (t.server.lastReceivedTick id) ack) := by
  rw [Session.ingest, Sync.Server.ingest]
  split_ifs with hlt
  · rw [max_eq_right hlt.le]
    rfl
  · rw [max_eq_left (not_lt.mp hlt), withAck_self]

theorem applyMessage_encodeInput (x : World Extended ρ × ClientState) {m : Message}
    {input : Input UInt32} (h : m.payload = encodeInput input) :
    (ServerLoop.applyMessage x m).2.entity = x.2.entity ∧
      (ServerLoop.applyMessage x m).2.lastReceivedTick =
        max x.2.lastReceivedTick input.lastReceivedTick := by
  rw [ServerLoop.applyMessage, h, decodeInput_encodeInput]
  by_cases hlt : x.2.lastReceivedTick < input.ofBits.lastReceivedTick
  · simp only [if_pos hlt]
    exact ⟨trivial, (max_eq_right hlt.le).symm⟩
  · simp only [if_neg hlt]
    exact ⟨trivial, (max_eq_left (not_lt.mp hlt)).symm⟩

theorem ingest_messages (setup : Sync.Setup EntityId Extended)
    (x : World Extended ρ × ClientState) (ms : List Message) {t : Mirrored}
    (hack : t.server.lastReceivedTick x.2.entity = x.2.lastReceivedTick)
    (hms : ∀ m ∈ ms, ∃ input, m.payload = encodeInput input ∧
      input.lastReceivedTick ∈ t.inputs x.2.entity) :
    ∃ fs, (Sync.machine setup).AdmitsUnder (fun _ e => e.Fits) t fs ∧
      (Sync.machine setup).runFrom t fs =
        withAck t x.2.entity (ms.foldl ServerLoop.applyMessage x).2.lastReceivedTick := by
  induction ms generalizing x t with
  | nil =>
    refine ⟨[], trivial, ?_⟩
    rw [List.foldl_nil, ← hack, withAck_self]
    rfl
  | cons m ms ih =>
    obtain ⟨⟨input, hpayload, hmem⟩, hrest⟩ := List.forall_mem_cons.mp hms
    obtain ⟨hentity, hmax⟩ := applyMessage_encodeInput x hpayload
    have hstep := ingest_eq_withAck t x.2.entity input.lastReceivedTick
    obtain ⟨fs, hfs, hrun⟩ := ih (ServerLoop.applyMessage x m)
      (t := t.ingest x.2.entity input.lastReceivedTick)
      (by
        rw [hentity, hmax, hstep, ← hack]
        exact Function.update_self ..)
      (by rwa [hentity])
    refine ⟨.ingest x.2.entity input.lastReceivedTick :: fs, ⟨trivial, hmem, hfs⟩, ?_⟩
    rw [hentity, hstep, withAck_withAck] at hrun
    exact (congrArg (fun u => (Sync.machine setup).runFrom u fs) hstep).trans hrun

theorem inputs_subset_stamp (t : Mirrored) (id k : EntityId) :
    t.inputs k ⊆ (t.stamp id).inputs k := by
  by_cases hk : k = id
  · subst hk
    simp only [Session.stamp, Function.update_self]
    exact List.subset_append_left _ _
  · simp only [Session.stamp, Function.update_of_ne hk]
    exact List.Subset.refl _

theorem welcome (h : Mirrors bots views s t) (setup : Sync.Setup EntityId Extended)
    (hplayers : Players s.world s.clients)
    (hnew : i.isNew = (s.clients.lookup i.source).isNone) :
    ∃ fs, (Sync.machine setup).AdmitsUnder (fun _ e => e.Fits) t fs ∧
      Mirrors bots views (s.welcome uniform i) ((Sync.machine setup).runFrom t fs) ∧
      ((Sync.machine setup).runFrom t fs).worlds = t.worlds := by
  cases hlook : s.clients.lookup i.source with
  | some cs =>
    have hold : ¬ i.isNew = true := by simp [hnew, hlook]
    refine ⟨[], trivial, ?_, rfl⟩
    rw [ServerLoop.welcome, if_neg hold]
    exact h
  | none =>
    have hisNew : i.isNew = true := by rw [hnew, hlook]; rfl
    have hlookup := ServerLoop.welcome_lookup uniform hnew
    have hfresh : s.world.nextId ∉ s.world.ids := fun hmem => lt_irrefl _ (hplayers.given _ hmem).2
    obtain ⟨hack, hbase⟩ := h.fresh s.world.nextId hfresh
    refine ⟨[.stamp s.world.nextId], ⟨trivial, trivial, trivial⟩, ?_, rfl⟩
    change Mirrors bots views (s.welcome uniform i) (t.stamp s.world.nextId)
    refine ⟨?_, ?_, fun e he cs hcs => ?_, fun e he hnone => ?_, fun id hid => ?_⟩
    · rw [ServerLoop.welcome_history]
      exact h.history
    · rw [ServerLoop.welcome_tick]
      exact h.tick
    · rw [hlookup] at hcs
      split_ifs at hcs with hjoined
      · obtain rfl := (Option.some.inj hcs).symm
        have hunknown := h.unknown e he hjoined.2
        refine ⟨hack, hbase.trans hunknown.base.symm, hunknown.inputs.mono ?_, ?_⟩
        · simp only [Session.stamp, Function.update_self, hbase]
          exact List.subset_append_right _ _
        · rw [hunknown.blobs]
          exact fun blob hblob => absurd hblob List.not_mem_nil
      · exact (h.known e he cs hcs).of_same rfl rfl (inputs_subset_stamp ..) (List.Subset.refl _)
    · rw [hlookup] at hnone
      split_ifs at hnone
      exact h.unknown e he hnone
    · rw [ServerLoop.welcome, if_pos hisNew, World.mem_ids_addPlayer, not_or] at hid
      exact h.fresh id hid.2

theorem of_ingested (h : Mirrors bots views (s.welcome uniform i) t) {cs : ClientState}
    (hplayers : Players (s.welcome uniform i).world (s.welcome uniform i).clients)
    (hcs : (s.welcome uniform i).clients.lookup i.source = some cs) {t' : Mirrored}
    (hserver : t'.server.history = t.server.history ∧ t'.server.tick = t.server.tick)
    (hsession : t'.base = t.base ∧ t'.inputs = t.inputs ∧ t'.blobs = t.blobs)
    (hother : ∀ id ≠ cs.entity, t'.server.lastReceivedTick id = t.server.lastReceivedTick id)
    (hack : i.source ∈ bots → t'.server.lastReceivedTick cs.entity =
      (i.delivery.unreliable.foldl ServerLoop.applyMessage
        ((s.welcome uniform i).world, cs)).2.lastReceivedTick) :
    Mirrors bots views (s.ingest uniform i) t' := by
  have hkept := ServerLoop.foldl_applyMessage_kept i.delivery.unreliable
    ((s.welcome uniform i).world, cs)
  have hlookup : ∀ e, (s.ingest uniform i).clients.lookup e = if i.source = e then
      some (i.delivery.unreliable.foldl ServerLoop.applyMessage
        ((s.welcome uniform i).world, cs)).2
      else (s.welcome uniform i).clients.lookup e := by
    intro e
    simp only [ServerLoop.ingest, SortedMap.lookup_insert, hcs, Option.getD_some]
  have hids : (s.ingest uniform i).world.ids = (s.welcome uniform i).world.ids := by
    simp only [ServerLoop.ingest, hcs, Option.getD_some]
    exact hkept.ids
  refine ⟨hserver.1.trans h.history, hserver.2.trans_le h.tick, fun e he ct hct => ?_,
    fun e he hnone => ?_, fun id hid => ?_⟩
  · rw [hlookup] at hct
    split_ifs at hct with hsource
    · subst hsource
      obtain rfl := Option.some.inj hct
      have hknown := h.known i.source he cs hcs
      refine ⟨?_, ?_, ?_, ?_⟩ <;> rw [hkept.entity]
      · exact hack he
      · rw [hsession.1]
        exact hknown.base
      · rw [hsession.2.1]
        exact hknown.inputs
      · rw [hsession.2.2]
        exact hknown.blobs
    · have hne : ct.entity ≠ cs.entity := fun heq =>
        hsource (hplayers.distinct e i.source ct cs hct hcs heq).symm
      refine (h.known e he ct hct).of_same (hother _ hne) ?_ ?_ ?_
      · rw [hsession.1]
      · rw [hsession.2.1]
        exact List.Subset.refl _
      · rw [hsession.2.2]
        exact List.Subset.refl _
  · rw [hlookup] at hnone
    split_ifs at hnone
    exact h.unknown e he hnone
  · rw [hids] at hid
    have hne : id ≠ cs.entity := fun heq => hid (heq ▸ hplayers.entity i.source cs hcs)
    rw [hother id hne, hsession.1]
    exact h.fresh id hid

theorem ingest (h : Mirrors bots views s t) (setup : Sync.Setup EntityId Extended)
    (hplayers : Players s.world s.clients)
    (hnew : i.isNew = (s.clients.lookup i.source).isNone)
    (hroom : (s.ingest uniform i).clients.entries.length + 1 < 2 ^ 32)
    (hinputs : i.source ∈ bots → ∀ m ∈ i.delivery.unreliable,
      m.payload ∈ (views i.source).inputs) :
    ∃ fs, (Sync.machine setup).AdmitsUnder (fun _ e => e.Fits) t fs ∧
      Mirrors bots views (s.ingest uniform i) ((Sync.machine setup).runFrom t fs) ∧
      ((Sync.machine setup).runFrom t fs).worlds = t.worlds := by
  obtain ⟨cs, hcs⟩ := ServerLoop.welcome_isSome uniform hnew
  have hlength : (s.ingest uniform i).clients.entries.length =
      (s.welcome uniform i).clients.entries.length := by
    simp only [ServerLoop.ingest, SortedMap.length_insert, hcs, Option.isSome_some, if_true]
  have hwelcome := ServerLoop.welcome_players hplayers hnew (hlength ▸ hroom)
  obtain ⟨fs, hfs, hmirrors, hworlds⟩ := h.welcome setup hplayers hnew
  by_cases hbot : i.source ∈ bots
  · have hknown := hmirrors.known i.source hbot cs hcs
    obtain ⟨gs, hgs, hrun⟩ := ingest_messages setup
      ((s.welcome uniform i).world, cs) i.delivery.unreliable hknown.ack
      fun m hm => hknown.inputs m.payload (hinputs hbot m hm)
    refine ⟨fs ++ gs, Machine.admitsUnder_append.mpr ⟨hfs, hgs⟩, ?_, ?_⟩
    · rw [Machine.runFrom_append, hrun]
      exact hmirrors.of_ingested hwelcome hcs ⟨rfl, rfl⟩ ⟨rfl, rfl, rfl⟩
        (fun id hid => Function.update_of_ne hid ..) fun _ => Function.update_self ..
    · rw [Machine.runFrom_append, hrun]
      exact hworlds
  · exact ⟨fs, hfs, hmirrors.of_ingested hwelcome hcs ⟨rfl, rfl⟩ ⟨rfl, rfl, rfl⟩
      (fun _ _ => rfl) fun hin => absurd hin hbot, hworlds⟩

theorem ingests {reports : List Incoming} (h : Mirrors bots views s t)
    (setup : Sync.Setup EntityId Extended)
    (hplayers : Players s.world s.clients) (hreports : s.Reported reports)
    (hroom : (reports.foldl (ServerLoop.ingest uniform) s).Roomy)
    (hinputs : ∀ i ∈ reports, i.source ∈ bots → ∀ m ∈ i.delivery.unreliable,
      m.payload ∈ (views i.source).inputs) :
    ∃ fs, (Sync.machine setup).AdmitsUnder (fun _ e => e.Fits) t fs ∧
      Mirrors bots views (reports.foldl (ServerLoop.ingest uniform) s)
        ((Sync.machine setup).runFrom t fs) ∧
      ((Sync.machine setup).runFrom t fs).worlds = t.worlds := by
  induction reports generalizing s t with
  | nil => exact ⟨[], trivial, h, rfl⟩
  | cons i reports ih =>
    obtain ⟨hnew, hrest⟩ := hreports.tail uniform
    obtain ⟨hfirst, hlater⟩ := List.forall_mem_cons.mp hinputs
    have hlength := ServerLoop.foldl_ingest_length uniform reports (s.ingest uniform i)
    rw [List.foldl_cons, ServerLoop.Roomy] at hroom
    have hroom' : (s.ingest uniform i).clients.entries.length + 1 < 2 ^ 32 := by omega
    obtain ⟨fs, hfs, hmirrors, hworlds⟩ := h.ingest setup hplayers hnew hroom' hfirst
    obtain ⟨gs, hgs, hmirrors', hworlds'⟩ :=
      ih hmirrors (ServerLoop.ingest_players hplayers hnew hroom') hrest hroom hlater
    refine ⟨fs ++ gs, Machine.admitsUnder_append.mpr ⟨hfs, hgs⟩, ?_, ?_⟩
    · rw [Machine.runFrom_append]
      exact hmirrors'
    · rw [Machine.runFrom_append]
      exact hworlds'.trans hworlds

def addBlobs (views : Endpoint → BotView) (blobs : Endpoint → List Bytes) (e : Endpoint) :
    BotView :=
  { views e with blobs := (views e).blobs ++ blobs e }

theorem addBlobs_nil {blobs : Endpoint → List Bytes} (h : ∀ e, blobs e = []) :
    addBlobs views blobs = views := by
  funext e
  rw [addBlobs, h, List.append_nil]

section

variable [Fmod δ] {now : Micros}

theorem advance (h : Mirrors bots views s t)
    (hticks : s.tick.toNat + (s.advance now).1.toNat < 2 ^ 32) :
    Mirrors bots views (s.advance now).2 t ∧
      (0 < (s.advance now).1 → t.server.tick < (s.advance now).2.tick) := by
  obtain ⟨hids, -, htick⟩ :=
    ServerLoop.stepTimes_spec (s.ts.advance (s.elapsed now)).1.toNat (s.world, s.tick)
  have hlater : (s.advance now).2.tick.toNat = s.tick.toNat + (s.advance now).1.toNat := by
    have hsum : (s.advance now).2.tick = s.tick + UInt32.ofNat (s.advance now).1.toNat := htick
    rw [hsum, UInt32.toNat_add, UInt32.toNat_ofNat']
    omega
  have hle := UInt32.le_iff_toNat_le.mp h.tick
  refine ⟨⟨h.history, ?_, h.known, h.unknown, fun id hid => h.fresh id ?_⟩, fun hsteps => ?_⟩
  · rw [UInt32.le_iff_toNat_le, hlater]
    omega
  · exact fun hmem => hid (hids.symm ▸ hmem)
  · rw [UInt32.lt_iff_toNat_lt, hlater]
    omega

end

/-- What the server queues for a bot is what the session queues for its entity. -/
theorem broadcast (h : Mirrors bots views s t) (hknown : s.Known) :
    Mirrors bots (addBlobs views s.blobsTo) s.broadcast
      (t.broadcast D.setup s.tick s.world.snapshot) := by
  obtain ⟨haired, -⟩ := hknown.broadcast_spec
  refine ⟨?_, ?_, fun e he cs hcs => ?_, fun e he hnone => ?_, fun id hid => ?_⟩
  · rw [haired.history]
    exact congrArg (fun history => history.push s.tick s.world.snapshot) h.history
  · rw [haired.tick]
    exact le_rfl
  · rw [haired.clients] at hcs
    have hold := h.known e he cs hcs
    have hblob : (t.server.push s.tick s.world.snapshot).blobFor D.setup cs.entity =
        s.pushed.blob e := by
      have hlook : s.pushed.clients.lookup e = some cs := hcs
      rw [ServerLoop.blob, hlook, Option.getD_some]
      change (t.server.history.push s.tick s.world.snapshot).encodeFor cs.entity kAoiRadius
        (t.server.lastReceivedTick cs.entity) s.tick = _
      rw [h.history, hold.ack]
      rfl
    refine ⟨hold.ack, hold.base, hold.inputs, List.forall_mem_append.mpr
      ⟨fun blob hmem => List.mem_append_left _ (hold.blobs blob hmem), fun blob hmem => ?_⟩⟩
    rw [ServerLoop.blobsTo] at hmem
    split_ifs at hmem with hqueued
    · refine List.mem_append_right _ ?_
      rw [hblob, if_neg hqueued.2]
      exact hmem
    · exact absurd hmem List.not_mem_nil
  · rw [haired.clients] at hnone
    have hold := h.unknown e he hnone
    have hlook : s.clients.lookup e = none := hnone
    have hnoConn : ¬ (s.mgr.conns.lookup e).isSome := by
      rw [hknown e, hlook]
      exact Bool.false_ne_true
    have hblobs : s.blobsTo e = [] := if_neg fun hqueued => hnoConn hqueued.1
    refine ⟨hold.base, hold.inputs, ?_⟩
    rw [addBlobs, hold.blobs, hblobs]
    rfl
  · rw [haired.world] at hid
    exact h.fresh id hid

theorem served [Fmod δ] (h : Mirrors bots views s t) (hseated : s.Seated)
    (hsmall : s.clients.entries.length < 2 ^ 16) {now : Micros}
    (hticks : s.tick.toNat + (s.advance now).1.toNat < 2 ^ 32) :
    ∃ fs, (Sync.machine D.setup).AdmitsUnder (fun _ e => e.Fits) t fs ∧
      Mirrors bots (addBlobs views (s.aired now)) (s.served now)
        ((Sync.machine D.setup).runFrom t fs) ∧
      ((Sync.machine D.setup).runFrom t fs).worlds = t.worlds ++ s.recorded now := by
  obtain ⟨hadvanced, hlt⟩ := h.advance hticks
  have hlater := hseated.advance now
  rw [ServerLoop.served]
  by_cases hcond : 0 < (s.advance now).1 ∧ 0 < (s.advance now).2.mgr.size
  · have haired : s.aired now = (s.advance now).2.blobsTo := funext fun e => if_pos hcond.1
    rw [if_pos hcond, haired, ServerLoop.recorded, if_pos hcond]
    exact ⟨[.broadcast (s.advance now).2.tick (s.advance now).2.world.snapshot],
      ⟨hlater.players.fits hsmall, hlt hcond.1, trivial⟩, hadvanced.broadcast hlater.known, rfl⟩
  · have haired : ∀ e, s.aired now e = [] := by
      intro e
      rw [ServerLoop.aired]
      split_ifs with hsteps
      · refine if_neg fun hqueued => hcond ⟨hsteps, ?_⟩
        obtain ⟨conn, hconn⟩ := Option.isSome_iff_exists.mp hqueued.1
        exact List.length_pos_of_mem (SortedMap.lookup_eq_some_iff.mp hconn)
      · rfl
    rw [if_neg hcond, addBlobs_nil haired, ServerLoop.recorded, if_neg hcond]
    exact ⟨[], trivial, hadvanced, (List.append_nil t.worlds).symm⟩

theorem update (h : Mirrors bots views s t) (hplayers : Players s.world s.clients) {e : Endpoint}
    {v : BotView} {t' : Mirrored} (hserver : t'.server = t.server)
    (hbase : ∀ id, (∀ cs, s.clients.lookup e = some cs → id ≠ cs.entity) → t'.base id = t.base id)
    (hinputs : ∀ id, t.inputs id ⊆ t'.inputs id) (hblobs : t'.blobs = t.blobs)
    (hknown : e ∈ bots → ∀ cs, s.clients.lookup e = some cs → v.Known cs t')
    (hunknown : e ∈ bots → s.clients.lookup e = none → v.Unknown) :
    Mirrors bots (Function.update views e v) s t' := by
  refine ⟨?_, ?_, fun f hf ct hct => ?_, fun f hf hnone => ?_, fun id hid => ?_⟩
  · rw [hserver]
    exact h.history
  · rw [hserver]
    exact h.tick
  · by_cases hfe : f = e
    · subst hfe
      rw [Function.update_self]
      exact hknown hf ct hct
    · rw [Function.update_of_ne hfe]
      refine (h.known f hf ct hct).of_same (by rw [hserver]) (hbase _ fun cs hcs heq => ?_)
        (hinputs _) (by rw [hblobs]; exact List.Subset.refl _)
      exact hfe (hplayers.distinct f e ct cs hct hcs heq)
  · by_cases hfe : f = e
    · subst hfe
      rw [Function.update_self]
      exact hunknown hf hnone
    · rw [Function.update_of_ne hfe]
      exact h.unknown f hf hnone
  · rw [hserver, hbase id fun cs hcs heq => hid (heq ▸ hplayers.entity e cs hcs)]
    exact h.fresh id hid

theorem deliver_messages (setup : Sync.Setup EntityId Extended) {id : EntityId}
    (x : WorldSnapshot Extended × UInt64) (ms : List Message) {t : Mirrored}
    (hbase : t.base id = x.1) (hms : ∀ m ∈ ms, m.payload ∈ t.blobs id) :
    ∃ fs t', (Sync.machine setup).AdmitsUnder (fun _ e => e.Fits) t fs ∧
      (Sync.machine setup).runFrom t fs = t' ∧ t'.server = t.server ∧ t'.inputs = t.inputs ∧
      t'.blobs = t.blobs ∧ t'.worlds = t.worlds ∧
      t'.base = Function.update t.base id
        (ms.foldl (Bot.applyMessage setup.worldMax) x).1 := by
  induction ms generalizing x t with
  | nil =>
    refine ⟨[], t, trivial, rfl, rfl, rfl, rfl, rfl, ?_⟩
    rw [List.foldl_nil, ← hbase, Function.update_eq_self]
  | cons m ms ih =>
    obtain ⟨hm, hrest⟩ := List.forall_mem_cons.mp hms
    have happlied : (t.deliver setup id m.payload).base = Function.update t.base id
        (Bot.applyMessage setup.worldMax x m).1 := by
      rw [Session.deliver, Bot.applyMessage, hbase]
    obtain ⟨fs, t', hfs, hrun, hserver, hinputs, hblobs, hworlds, hbase'⟩ :=
      ih (Bot.applyMessage setup.worldMax x m) (t := t.deliver setup id m.payload)
        (by rw [happlied, Function.update_self]) hrest
    refine ⟨.deliver id m.payload :: fs, t', ⟨trivial, hm, hfs⟩, hrun, hserver, hinputs, hblobs,
      hworlds, ?_⟩
    rw [hbase', happlied, Function.update_idem]
    rfl

end Mirrors

end Netcode.System
