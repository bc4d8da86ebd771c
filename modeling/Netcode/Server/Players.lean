import Netcode.Library.Simulation
import Netcode.Server.Loop
import Netcode.Transport.Isolation

/-!
# Connections, clients and entities

The manager has a connection, the server a client and the world an entity for
each endpoint that was heard of, and for no other. Ids are given out in the order
of joining, so that the counter tells how many clients there are until it wraps.
-/

namespace Netcode.Transport.PeerManager

open Netcode.Library

variable {δ : Type*} [Scalar δ] {m : PeerManager δ}

theorem Drained.reports (hm : m.Drained) (nowUs : Micros) (ds : List (Endpoint × Arrival)) :
    ((m.poll nowUs ds).1.map Incoming.source).Nodup ∧
      (∀ i ∈ (m.poll nowUs ds).1, i.isNew = (m.conns.lookup i.source).isNone) ∧
      ∀ e, ((m.poll nowUs ds).2.conns.lookup e).isSome ↔
        (m.conns.lookup e).isSome ∨ e ∈ (m.poll nowUs ds).1.map Incoming.source := by
  have hview := fun e => poll_view e m nowUs ds fun conn hconn => (hm e conn hconn).1
  have hmem : ∀ e, e ∈ (m.poll nowUs ds).1.map Incoming.source ↔
      (m.poll nowUs ds).1.filter (fun i => i.source = e) ≠ [] := by
    intro e
    rw [List.mem_map, ne_eq, List.filter_eq_nil_iff]
    simp only [decide_eq_true_eq, not_forall, not_not, exists_prop]
  refine ⟨List.nodup_iff_count_le_one.mpr fun e => ?_, fun i hi => ?_, fun e => ?_⟩
  · have hcount : ((m.poll nowUs ds).1.map Incoming.source).count e =
        ((m.poll nowUs ds).1.filter fun i => i.source = e).length := by
      rw [List.count_eq_countP, List.countP_map, List.countP_eq_length_filter]
      congr 2
    rw [hcount, (hview e).2]
    split_ifs <;> simp
  · have hi' : i ∈ (m.poll nowUs ds).1.filter fun j => j.source = i.source :=
      List.mem_filter.mpr ⟨hi, decide_eq_true rfl⟩
    rw [(hview i.source).2] at hi'
    split_ifs at hi'
    · exact absurd hi' List.not_mem_nil
    · exact congrArg Incoming.isNew (List.mem_singleton.mp hi')
  · rw [hmem, (hview e).1, (hview e).2]
    split_ifs <;> simp

end Netcode.Transport.PeerManager

namespace Netcode.Server

open Netcode.Library Netcode.Sim Netcode.Transport

variable {δ ρ : Type*} [Scalar δ] {uniform : Extended → ρ → Extended × ρ}

structure Players (w : World Extended ρ) (clients : SortedMap Endpoint ClientState) : Prop where
  nextId : w.nextId.toNat = clients.entries.length + 1
  entity : ∀ e cs, clients.lookup e = some cs → cs.entity ∈ w.ids
  distinct : ∀ e f cs ct, clients.lookup e = some cs → clients.lookup f = some ct →
    cs.entity = ct.entity → e = f
  client : ∀ id ∈ w.ids, ∃ e cs, clients.lookup e = some cs ∧ cs.entity = id
  given : ∀ id ∈ w.ids, 0 < id.toNat ∧ id.toNat < w.nextId.toNat

namespace Players

variable {w w' : World Extended ρ} {clients clients' : SortedMap Endpoint ClientState}

theorem start (bound : Extended) (seed : ρ) :
    Players ({ bound := bound, rng := seed } : World Extended ρ) ∅ where
  nextId := rfl
  entity := fun e cs h => absurd h (by simp)
  distinct := fun e f cs ct h => absurd h (by simp)
  client := fun id h => absurd h List.not_mem_nil
  given := fun id h => absurd h List.not_mem_nil

theorem of_same (h : Players w clients) (hids : w'.ids = w.ids) (hnext : w'.nextId = w.nextId)
    (hlength : clients'.entries.length = clients.entries.length)
    (hclients : ∀ e, (clients'.lookup e).map ClientState.entity =
      (clients.lookup e).map ClientState.entity) : Players w' clients' := by
  have hold : ∀ e cs, clients'.lookup e = some cs →
      ∃ ct, clients.lookup e = some ct ∧ ct.entity = cs.entity := by
    intro e cs hcs
    have hmap := hclients e
    rw [hcs, Option.map_some] at hmap
    exact Option.map_eq_some_iff.mp hmap.symm
  refine ⟨?_, fun e cs hcs => ?_, fun e f cs ct hcs hct heq => ?_, fun id hid => ?_, ?_⟩
  · rw [hnext, hlength]
    exact h.nextId
  · obtain ⟨ct, hct, heq⟩ := hold e cs hcs
    exact hids ▸ heq ▸ h.entity e ct hct
  · obtain ⟨cs', hcs', hcseq⟩ := hold e cs hcs
    obtain ⟨ct', hct', hcteq⟩ := hold f ct hct
    exact h.distinct e f cs' ct' hcs' hct' (by rw [hcseq, hcteq, heq])
  · obtain ⟨e, cs, hcs, heq⟩ := h.client id (hids ▸ hid)
    have hmap := hclients e
    rw [hcs, Option.map_some] at hmap
    obtain ⟨ct, hct, heq'⟩ := Option.map_eq_some_iff.mp hmap
    exact ⟨e, ct, hct, heq'.trans heq⟩
  · rw [hids, hnext]
    exact h.given

theorem join (h : Players w clients) {e : Endpoint} (hnew : clients.lookup e = none)
    (hroom : clients.entries.length + 2 < 2 ^ 32) :
    Players (w.addPlayer uniform).2 (clients.insert e ⟨(w.addPlayer uniform).1, 0⟩) := by
  have hnext : (w.addPlayer uniform).2.nextId.toNat = w.nextId.toNat + 1 := by
    have hold := h.nextId
    simp only [World.addPlayer, UInt32.toNat_add, UInt32.toNat_one]
    omega
  have hids := w.mem_ids_addPlayer uniform
  have hfresh : w.nextId ∉ w.ids := fun hmem => lt_irrefl _ (h.given _ hmem).2
  have hlook : ∀ f cs, (clients.insert e ⟨w.nextId, 0⟩).lookup f = some cs →
      f = e ∧ cs.entity = w.nextId ∨ f ≠ e ∧ clients.lookup f = some cs := by
    intro f cs hcs
    rw [SortedMap.lookup_insert] at hcs
    split_ifs at hcs with hef
    · exact Or.inl ⟨hef.symm, congrArg ClientState.entity (Option.some.inj hcs).symm⟩
    · exact Or.inr ⟨Ne.symm hef, hcs⟩
  refine ⟨?_, fun f cs hcs => ?_, fun f g cs ct hcs hct heq => ?_, fun id hid => ?_,
    fun id hid => ?_⟩
  · rw [hnext, h.nextId, SortedMap.length_insert, hnew]
    rfl
  · rw [hids]
    rcases hlook f cs hcs with ⟨-, hcs⟩ | ⟨-, hcs⟩
    · exact Or.inl hcs
    · exact Or.inr (h.entity f cs hcs)
  · rcases hlook f cs hcs with ⟨hf, hcs⟩ | ⟨hf, hcs⟩
    · rcases hlook g ct hct with ⟨hg, hct⟩ | ⟨hg, hct⟩
      · exact hf.trans hg.symm
      · exact absurd (hcs ▸ heq ▸ h.entity g ct hct) hfresh
    · rcases hlook g ct hct with ⟨hg, hct⟩ | ⟨hg, hct⟩
      · exact absurd (hct ▸ heq.symm ▸ h.entity f cs hcs) hfresh
      · exact h.distinct f g cs ct hcs hct heq
  · rcases (hids id).mp hid with rfl | hid
    · exact ⟨e, _, (SortedMap.lookup_insert ..).trans (if_pos rfl), rfl⟩
    · obtain ⟨f, cs, hcs, heq⟩ := h.client id hid
      have hf : ¬ e = f := fun hef => by
        rw [← hef, hnew] at hcs
        exact absurd hcs (by simp)
      exact ⟨f, cs, (SortedMap.lookup_insert ..).trans ((if_neg hf).trans hcs), heq⟩
  · rw [hnext]
    rcases (hids id).mp hid with rfl | hid
    · exact ⟨by rw [h.nextId]; omega, Nat.lt_succ_self _⟩
    · exact ⟨(h.given id hid).1, Nat.lt_succ_of_lt (h.given id hid).2⟩

theorem entities_perm (h : Players w clients) :
    (clients.values.map ClientState.entity).Perm w.ids := by
  have hvalues : ∀ id, id ∈ clients.values.map ClientState.entity ↔
      ∃ e cs, clients.lookup e = some cs ∧ cs.entity = id := by
    intro id
    simp only [SortedMap.values, List.map_map, List.mem_map, Function.comp_apply, Prod.exists,
      SortedMap.lookup_eq_some_iff]
  have hnodup : (clients.values.map ClientState.entity).Nodup := by
    rw [SortedMap.values, List.map_map]
    refine List.pairwise_map.mpr (clients.sorted.imp_of_mem fun {a b} ha hb hlt heq => ?_)
    have hlook : ∀ d ∈ clients.entries, clients.lookup d.1 = some d.2 :=
      fun d hd => SortedMap.lookup_eq_some_iff.mpr hd
    exact ne_of_lt hlt (h.distinct a.1 b.1 a.2 b.2 (hlook a ha) (hlook b hb) heq)
  refine (List.perm_ext_iff_of_nodup hnodup w.entities.nodup_keys).mpr fun id => ?_
  rw [hvalues]
  constructor
  · intro hid
    obtain ⟨e, cs, hcs, rfl⟩ := hid
    exact h.entity e cs hcs
  · exact h.client id

theorem mem_ids_iff (h : Players w clients) (id : EntityId) :
    id ∈ w.ids ↔ 0 < id.toNat ∧ id.toNat < w.nextId.toNat := by
  have hnodup : (w.ids.map UInt32.toNat).Nodup :=
    w.entities.nodup_keys.map fun _ _ heq => UInt32.toNat_inj.mp heq
  have hsub : (w.ids.map UInt32.toNat).toFinset ⊆ Finset.Ioo 0 w.nextId.toNat := by
    intro n hn
    obtain ⟨k, hk, rfl⟩ := List.mem_map.mp (List.mem_toFinset.mp hn)
    exact Finset.mem_Ioo.mpr (h.given k hk)
  have hlength := h.entities_perm.length_eq
  rw [List.length_map, SortedMap.values, List.length_map] at hlength
  have hall := Finset.eq_of_subset_of_card_le hsub (by
    rw [List.toFinset_card_of_nodup hnodup, List.length_map, Nat.card_Ioo, h.nextId, ← hlength]
    omega)
  refine ⟨h.given id, fun hid => ?_⟩
  have hmem : id.toNat ∈ (w.ids.map UInt32.toNat).toFinset := by
    rw [hall]
    exact Finset.mem_Ioo.mpr hid
  obtain ⟨k, hk, heq⟩ := List.mem_map.mp (List.mem_toFinset.mp hmem)
  exact UInt32.toNat_inj.mp heq ▸ hk

theorem fits (h : Players w clients) (hsmall : clients.entries.length < 2 ^ 16) :
    Sim.Fits w.snapshot := by
  have hnumbered : w.Numbered := by
    refine ⟨?_, ?_, h.given⟩ <;> rw [h.nextId] <;> omega
  obtain ⟨hids, hlength⟩ := (World.roundTrips_iff w w.bound).mp (hnumbered.roundTrips w.bound)
  refine ⟨List.pairwise_map.mpr w.entities.sorted, fun e he => ?_, ?_⟩
  · obtain ⟨entry, hentry, rfl⟩ := List.mem_map.mp he
    exact hids entry.1 (List.mem_map_of_mem hentry)
  · rwa [World.snapshot, List.length_map, ← List.length_map (f := Prod.fst)]

end Players

namespace ServerLoop

structure Kept (x y : World Extended ρ × ClientState) : Prop where
  ids : y.1.ids = x.1.ids
  nextId : y.1.nextId = x.1.nextId
  snapshot : y.1.snapshot = x.1.snapshot
  entity : y.2.entity = x.2.entity

theorem applyMessage_kept (x : World Extended ρ × ClientState) (m : Message) :
    Kept x (applyMessage x m) := by
  rw [applyMessage]
  cases decodeInput m.payload with
  | none => exact ⟨rfl, rfl, rfl, rfl⟩
  | some input =>
    refine ⟨World.ids_applyInput .., World.nextId_applyInput .., World.snapshot_applyInput .., ?_⟩
    simp only
    split_ifs <;> rfl

theorem foldl_applyMessage_kept (ms : List Message) (x : World Extended ρ × ClientState) :
    Kept x (ms.foldl applyMessage x) := by
  induction ms generalizing x with
  | nil => exact ⟨rfl, rfl, rfl, rfl⟩
  | cons m ms ih =>
    have hm := applyMessage_kept x m
    have hms := ih (applyMessage x m)
    exact ⟨hms.ids.trans hm.ids, hms.nextId.trans hm.nextId, hms.snapshot.trans hm.snapshot,
      hms.entity.trans hm.entity⟩

variable {s : ServerLoop δ ρ} {i : Incoming}

@[simp] theorem welcome_mgr : (s.welcome uniform i).mgr = s.mgr := by
  rw [welcome]
  split_ifs <;> rfl

@[simp] theorem welcome_history : (s.welcome uniform i).history = s.history := by
  rw [welcome]
  split_ifs <;> rfl

@[simp] theorem welcome_tick : (s.welcome uniform i).tick = s.tick := by
  rw [welcome]
  split_ifs <;> rfl

theorem welcome_lookup (uniform : Extended → ρ → Extended × ρ)
    (hnew : i.isNew = (s.clients.lookup i.source).isNone) (e : Endpoint) :
    (s.welcome uniform i).clients.lookup e =
      if i.source = e ∧ s.clients.lookup e = none then some ⟨s.world.nextId, 0⟩
      else s.clients.lookup e := by
  rw [welcome, hnew]
  by_cases he : i.source = e
  · subst he
    cases hlook : s.clients.lookup i.source with
    | none => simp [SortedMap.lookup_insert, World.addPlayer]
    | some cs => simp [hlook]
  · have hother : ¬ (i.source = e ∧ s.clients.lookup e = none) := fun h => he h.1
    rw [if_neg hother]
    split_ifs
    · simp only [SortedMap.lookup_insert, if_neg he]
    · rfl

theorem ingest_lookup_ne {e : Endpoint} (he : i.source ≠ e) :
    (s.ingest uniform i).clients.lookup e = s.clients.lookup e := by
  simp only [ingest, SortedMap.lookup_insert, if_neg he]
  rw [welcome]
  split_ifs
  · simp only [SortedMap.lookup_insert, if_neg he]
  · rfl

theorem ingest_isSome (e : Endpoint) : ((s.ingest uniform i).clients.lookup e).isSome ↔
    (s.clients.lookup e).isSome ∨ i.source = e := by
  by_cases he : i.source = e
  · simp [ingest, SortedMap.lookup_insert, he]
  · simp [ingest_lookup_ne he, he]

theorem welcome_players (h : Players s.world s.clients)
    (hnew : i.isNew = (s.clients.lookup i.source).isNone)
    (hroom : (s.welcome uniform i).clients.entries.length + 1 < 2 ^ 32) :
    Players (s.welcome uniform i).world (s.welcome uniform i).clients := by
  cases hlook : s.clients.lookup i.source with
  | none =>
    have hisNew : i.isNew = true := by rw [hnew, hlook]; rfl
    simp only [welcome, hisNew, if_true] at hroom ⊢
    rw [SortedMap.length_insert, hlook] at hroom
    exact h.join hlook hroom
  | some cs =>
    have hisOld : ¬ i.isNew = true := by simp [hnew, hlook]
    simpa only [welcome, if_neg hisOld] using h

theorem welcome_isSome (uniform : Extended → ρ → Extended × ρ)
    (hnew : i.isNew = (s.clients.lookup i.source).isNone) :
    ∃ cs, (s.welcome uniform i).clients.lookup i.source = some cs := by
  rw [welcome_lookup uniform hnew]
  cases hlook : s.clients.lookup i.source with
  | none => exact ⟨_, if_pos ⟨rfl, rfl⟩⟩
  | some cs => exact ⟨cs, if_neg (by simp)⟩

theorem ingest_players (h : Players s.world s.clients)
    (hnew : i.isNew = (s.clients.lookup i.source).isNone)
    (hroom : (s.ingest uniform i).clients.entries.length + 1 < 2 ^ 32) :
    Players (s.ingest uniform i).world (s.ingest uniform i).clients := by
  obtain ⟨cs, hcs⟩ := welcome_isSome uniform hnew
  have hkept := foldl_applyMessage_kept i.delivery.unreliable
    ((s.welcome uniform i).world, ((s.welcome uniform i).clients.lookup i.source).getD {})
  have hlength : (s.ingest uniform i).clients.entries.length =
      (s.welcome uniform i).clients.entries.length := by
    simp only [ingest, SortedMap.length_insert, hcs, Option.isSome_some, if_true]
  have hwelcome := welcome_players h hnew (hlength ▸ hroom)
  refine hwelcome.of_same hkept.ids hkept.nextId hlength fun e => ?_
  simp only [ingest, SortedMap.lookup_insert]
  split_ifs with he
  · rw [← he, Option.map_some, hkept.entity, hcs, Option.getD_some, Option.map_some]
  · rfl

theorem length_le_insert (clients : SortedMap Endpoint ClientState) (e : Endpoint)
    (cs : ClientState) : clients.entries.length ≤ (clients.insert e cs).entries.length := by
  rw [SortedMap.length_insert]
  split_ifs <;> omega

theorem ingest_length (uniform : Extended → ρ → Extended × ρ) (s : ServerLoop δ ρ)
    (i : Incoming) :
    s.clients.entries.length ≤ (s.ingest uniform i).clients.entries.length := by
  refine le_trans ?_ (length_le_insert _ _ _)
  rw [welcome]
  split_ifs
  · exact length_le_insert _ _ _
  · exact le_rfl

/-- What a poll reports: every endpoint once, and as new if it is no client yet. -/
structure Reported (s : ServerLoop δ ρ) (reports : List Incoming) : Prop where
  nodup : (reports.map Incoming.source).Nodup
  isNew : ∀ i ∈ reports, i.isNew = (s.clients.lookup i.source).isNone

theorem Reported.tail (uniform : Extended → ρ → Extended × ρ) {reports : List Incoming}
    (h : s.Reported (i :: reports)) :
    i.isNew = (s.clients.lookup i.source).isNone ∧ (s.ingest uniform i).Reported reports := by
  obtain ⟨hi, hnodup⟩ := List.nodup_cons.mp h.nodup
  refine ⟨h.isNew i List.mem_cons_self, hnodup, fun j hj => ?_⟩
  have hne : i.source ≠ j.source := fun heq => hi (heq ▸ List.mem_map_of_mem hj)
  rw [ingest_lookup_ne hne]
  exact h.isNew j (List.mem_cons_of_mem i hj)

theorem foldl_ingest_length (uniform : Extended → ρ → Extended × ρ) (reports : List Incoming)
    (s : ServerLoop δ ρ) :
    s.clients.entries.length ≤
      (reports.foldl (ingest uniform) s).clients.entries.length := by
  induction reports generalizing s with
  | nil => exact le_rfl
  | cons i reports ih => exact (ingest_length uniform s i).trans (ih _)

theorem foldl_ingest_players {reports : List Incoming} (h : Players s.world s.clients)
    (hreports : s.Reported reports)
    (hroom : (reports.foldl (ingest uniform) s).clients.entries.length + 1 < 2 ^ 32) :
    Players (reports.foldl (ingest uniform) s).world
      (reports.foldl (ingest uniform) s).clients := by
  induction reports generalizing s with
  | nil => exact h
  | cons i reports ih =>
    obtain ⟨hnew, hrest⟩ := hreports.tail uniform
    have hlength := foldl_ingest_length uniform reports (s.ingest uniform i)
    rw [List.foldl_cons] at hroom
    exact ih (ingest_players h hnew (by omega)) hrest hroom

theorem foldl_ingest_isSome (reports : List Incoming) (e : Endpoint) :
    ((reports.foldl (ingest uniform) s).clients.lookup e).isSome ↔
      (s.clients.lookup e).isSome ∨ e ∈ reports.map Incoming.source := by
  induction reports generalizing s with
  | nil => simp
  | cons i reports ih =>
    rw [List.foldl_cons, ih, ingest_isSome, List.map_cons, List.mem_cons, or_assoc,
      eq_comm (a := e)]

@[simp] theorem foldl_ingest_mgr (reports : List Incoming) :
    (reports.foldl (ingest uniform) s).mgr = s.mgr := by
  induction reports generalizing s with
  | nil => rfl
  | cons i reports ih => rw [List.foldl_cons, ih, ingest, welcome_mgr]

theorem stepTimes_spec (n : ℕ) (x : World Extended ρ × UInt32) :
    (stepTimes n x).1.ids = x.1.ids ∧ (stepTimes n x).1.nextId = x.1.nextId ∧
      (stepTimes n x).2 = x.2 + UInt32.ofNat n := by
  induction n generalizing x with
  | zero => exact ⟨rfl, rfl, (UInt32.add_zero x.2).symm⟩
  | succ n ih =>
    obtain ⟨hids, hnext, htick⟩ := ih (x.1.step kDt, x.2 + 1)
    refine ⟨hids.trans (World.ids_step _ _), hnext, ?_⟩
    rw [stepTimes, htick, UInt32.add_assoc, Nat.add_comm n 1, UInt32.ofNat_add]
    rfl

theorem advance_players [Fmod δ] (h : Players s.world s.clients) (now : Micros) :
    Players (s.advance now).2.world (s.advance now).2.clients := by
  obtain ⟨hids, hnext, -⟩ :=
    stepTimes_spec (s.ts.advance (s.elapsed now)).1.toNat (s.world, s.tick)
  exact h.of_same hids hnext rfl fun _ => rfl

def blob (s : ServerLoop δ ρ) (e : Endpoint) : Bytes :=
  s.blobFor ((s.clients.lookup e).getD {})

def queueBlob (blob : Bytes) (conn : Conn δ) : Conn δ :=
  if blob = [] then conn else { conn with peer := conn.peer.queueUnreliable blob }

structure Aired (s t : ServerLoop δ ρ) : Prop where
  world : t.world = s.world
  history : t.history = s.history
  ts : t.ts = s.ts
  clients : t.clients = s.clients
  tick : t.tick = s.tick
  last : t.last = s.last
  reliableEvents : t.reliableEvents = s.reliableEvents

theorem Aired.blob {t : ServerLoop δ ρ} (h : Aired s t) (e : Endpoint) : t.blob e = s.blob e := by
  rw [ServerLoop.blob, ServerLoop.blob, blobFor, blobFor, h.history, h.clients, h.tick]

theorem broadcastTo_spec {e : Endpoint} (hclient : (s.clients.lookup e).isSome) :
    Aired s (s.broadcastTo e) ∧ ∀ f, (s.broadcastTo e).mgr.conns.lookup f =
      if e = f then (s.mgr.conns.lookup f).map (queueBlob (s.blob e))
      else s.mgr.conns.lookup f := by
  obtain ⟨cs, hcs⟩ := Option.isSome_iff_exists.mp hclient
  have hclients : s.clients.insert e cs = s.clients := SortedMap.insert_of_lookup hcs
  have hblob : s.blob e = s.blobFor cs := by rw [blob, hcs, Option.getD_some]
  simp only [broadcastTo, hcs, Option.getD_some, hclients, hblob]
  cases s.blobFor cs with
  | nil =>
    refine ⟨⟨rfl, rfl, rfl, rfl, rfl, rfl, rfl⟩, fun f => ?_⟩
    split_ifs
    · exact Option.map_id'.symm
    · rfl
  | cons type data =>
    refine ⟨⟨rfl, rfl, rfl, rfl, rfl, rfl, rfl⟩, fun f => ?_⟩
    rw [PeerManager.lookup_withPeer]
    rfl

theorem foldl_broadcastTo_spec {es : List Endpoint} (hnodup : es.Nodup)
    (hclients : ∀ e ∈ es, (s.clients.lookup e).isSome) :
    Aired s (es.foldl broadcastTo s) ∧ ∀ f, (es.foldl broadcastTo s).mgr.conns.lookup f =
      if f ∈ es then (s.mgr.conns.lookup f).map (queueBlob (s.blob f))
      else s.mgr.conns.lookup f := by
  induction es generalizing s with
  | nil => exact ⟨⟨rfl, rfl, rfl, rfl, rfl, rfl, rfl⟩, fun f => rfl⟩
  | cons e es ih =>
    obtain ⟨he, hrest⟩ := List.nodup_cons.mp hnodup
    obtain ⟨hfirst, hconns⟩ := broadcastTo_spec (hclients e List.mem_cons_self)
    obtain ⟨haired, hconns'⟩ := ih hrest fun f hf => by
      rw [hfirst.clients]
      exact hclients f (List.mem_cons_of_mem e hf)
    refine ⟨⟨haired.world.trans hfirst.world, haired.history.trans hfirst.history,
      haired.ts.trans hfirst.ts, haired.clients.trans hfirst.clients,
      haired.tick.trans hfirst.tick, haired.last.trans hfirst.last,
      haired.reliableEvents.trans hfirst.reliableEvents⟩, fun f => ?_⟩
    rw [List.foldl_cons, hconns', hconns, hfirst.blob]
    by_cases hef : e = f
    · subst hef
      simp [he]
    · simp [hef, Ne.symm hef]

def pushed (s : ServerLoop δ ρ) : ServerLoop δ ρ :=
  { s with history := s.history.push s.tick s.world.snapshot }

def Known (s : ServerLoop δ ρ) : Prop :=
  ∀ e, (s.mgr.conns.lookup e).isSome ↔ (s.clients.lookup e).isSome

theorem Known.broadcast_spec (h : s.Known) : Aired s.pushed s.broadcast ∧
    ∀ f, s.broadcast.mgr.conns.lookup f =
      (s.mgr.conns.lookup f).map (queueBlob (s.pushed.blob f)) := by
  have hmem : ∀ e, e ∈ s.mgr.endpoints ↔ (s.mgr.conns.lookup e).isSome := fun e => by
    rw [PeerManager.endpoints, SortedMap.mem_keys, Option.isSome_iff_exists]
  obtain ⟨haired, hconns⟩ := foldl_broadcastTo_spec (s := s.pushed)
    (SortedMap.nodup_keys s.mgr.conns) fun e he => (h e).mp ((hmem e).mp he)
  refine ⟨haired, fun f => (hconns f).trans ?_⟩
  split_ifs with hf
  · rfl
  · have hnone : s.mgr.conns.lookup f = none :=
      Option.not_isSome_iff_eq_none.mp fun hsome => hf ((hmem f).mpr hsome)
    exact hnone.trans (congrArg (Option.map _) hnone).symm

structure Seated (s : ServerLoop δ ρ) : Prop where
  drained : s.mgr.Drained
  players : Players s.world s.clients
  known : s.Known

namespace Seated

theorem start (bound : Extended) (seed : ρ) (now : Micros) :
    (ServerLoop.start bound seed now : ServerLoop δ ρ).Seated where
  drained := fun k conn hk => by simp [ServerLoop.start] at hk
  players := Players.start bound seed
  known := fun e => by simp [ServerLoop.start]

theorem reported (h : s.Seated) (now : Micros) (datagrams : List (Endpoint × Arrival)) :
    ({ s with mgr := (s.mgr.poll now datagrams).2 } : ServerLoop δ ρ).Reported
      (s.mgr.poll now datagrams).1 := by
  obtain ⟨hnodup, hnew, -⟩ := h.drained.reports now datagrams
  refine ⟨hnodup, fun i hi => (hnew i hi).trans ?_⟩
  have hknown := h.known i.source
  rw [← Option.not_isSome, ← Option.not_isSome, Bool.eq_iff_iff.mpr hknown]

theorem received (h : s.Seated) {now : Micros} {datagrams : List (Endpoint × Arrival)}
    (hroom : (s.received uniform now datagrams).clients.entries.length + 1 < 2 ^ 32) :
    (s.received uniform now datagrams).Seated where
  drained := by
    rw [ServerLoop.received, foldl_ingest_mgr]
    exact h.drained.poll now datagrams
  players := foldl_ingest_players h.players (h.reported now datagrams) hroom
  known := fun e => by
    have hreports := (h.drained.reports now datagrams).2.2 e
    rw [ServerLoop.received, foldl_ingest_mgr, foldl_ingest_isSome, hreports, h.known e]

theorem advance [Fmod δ] (h : s.Seated) (now : Micros) : (s.advance now).2.Seated :=
  ⟨h.drained, advance_players h.players now, h.known⟩

theorem broadcast (h : s.Seated) : s.broadcast.Seated := by
  obtain ⟨haired, hconns⟩ := h.known.broadcast_spec
  refine ⟨fun k conn hk => ?_, ?_, fun e => ?_⟩
  · rw [hconns, Option.map_eq_some_iff] at hk
    obtain ⟨old, hold, rfl⟩ := hk
    obtain ⟨hinbox, hremote⟩ := h.drained k old hold
    rw [queueBlob]
    split_ifs
    · exact ⟨hinbox, hremote⟩
    · exact ⟨hinbox, hremote⟩
  · rw [haired.world, haired.clients]
    exact h.players
  · rw [hconns, haired.clients, Option.isSome_map]
    exact h.known e

theorem served [Fmod δ] (h : s.Seated) (now : Micros) : (s.served now).Seated := by
  rw [ServerLoop.served]
  split_ifs
  · exact (h.advance now).broadcast
  · exact h.advance now

theorem updated (h : s.Seated) (now : Micros) :
    ({ s with mgr := (s.mgr.updateAll now).2 } : ServerLoop δ ρ).Seated where
  drained := h.drained.updateAll now
  players := h.players
  known := fun e => by
    simp only [PeerManager.updateAll, SortedMap.lookup_map, Option.isSome_map]
    exact h.known e

end Seated

theorem broadcastTo_length (s : ServerLoop δ ρ) (e : Endpoint) :
    s.clients.entries.length ≤ (s.broadcastTo e).clients.entries.length := by
  simp only [broadcastTo]
  split
  · exact length_le_insert _ _ _
  · exact length_le_insert _ _ _

theorem served_length [Fmod δ] (s : ServerLoop δ ρ) (now : Micros) :
    s.clients.entries.length ≤ (s.served now).clients.entries.length := by
  have hfold : ∀ (es : List Endpoint) (t : ServerLoop δ ρ),
      t.clients.entries.length ≤ (es.foldl broadcastTo t).clients.entries.length := by
    intro es
    induction es with
    | nil => exact fun t => le_rfl
    | cons e es ih => exact fun t => (t.broadcastTo_length e).trans (ih _)
  rw [served]
  split_ifs
  · exact hfold _ (s.advance now).2.pushed
  · exact le_rfl

theorem Seated.iterate [Fmod δ] (h : s.Seated) {now : Micros}
    {datagrams : List (Endpoint × Arrival)}
    (hroom : (s.iterate uniform now datagrams).2.clients.entries.length + 1 < 2 ^ 32) :
    (s.iterate uniform now datagrams).2.Seated := by
  have hlength : (s.received uniform now datagrams).clients.entries.length ≤
      (s.iterate uniform now datagrams).2.clients.entries.length := served_length _ now
  exact ((h.received (by omega)).served now).updated now

theorem iterate_length [Fmod δ] (uniform : Extended → ρ → Extended × ρ) (s : ServerLoop δ ρ)
    (now : Micros)
    (datagrams : List (Endpoint × Arrival)) : s.clients.entries.length ≤
      (s.iterate uniform now datagrams).2.clients.entries.length :=
  (foldl_ingest_length uniform _ { s with mgr := (s.mgr.poll now datagrams).2 }).trans
    (served_length _ now)

/-- Any datagrams may be waiting at any reading of the clock. -/
def machine [Fmod δ] (uniform : Extended → ρ → Extended × ρ) (bound : Extended) (seed : ρ)
    (now : Micros) : Machine (ServerLoop δ ρ) (Micros × List (Endpoint × Arrival)) where
  init := start bound seed now
  Enabled _ _ := True
  next s e := (s.iterate uniform e.1 e.2).2

/-- The ids have not come round. -/
def Roomy (s : ServerLoop δ ρ) : Prop := s.clients.entries.length + 1 < 2 ^ 32

variable [Fmod δ] {bound : Extended} {seed : ρ} {now : Micros}

theorem Roomy.of_iterate {datagrams : List (Endpoint × Arrival)}
    (h : (s.iterate uniform now datagrams).2.Roomy) : s.Roomy := by
  have hlength := s.iterate_length uniform now datagrams
  rw [Roomy] at h ⊢
  omega

theorem seated_of_reachable (h : (machine uniform bound seed now).Reachable s)
    (hroom : s.Roomy) : s.Seated := by
  suffices hinv : s.Roomy → s.Seated from hinv hroom
  apply h.invariant (I := fun s => s.Roomy → s.Seated)
  · exact fun _ => Seated.start bound seed now
  · exact fun s e ih _ hroom => (ih hroom.of_iterate).iterate hroom

/-- Whatever arrives and when: the endpoints of the manager are the clients, and pairing
each client with its entity is a bijection with the entities of the world, which are those
that the counter has given out. -/
theorem clients_own_entities (h : (machine uniform bound seed now).Reachable s)
    (hroom : s.Roomy) :
    s.mgr.endpoints = s.clients.keys ∧
      (s.clients.values.map ClientState.entity).Perm s.world.ids ∧ s.world.ids.Nodup ∧
      s.world.nextId.toNat = s.clients.entries.length + 1 ∧
      ∀ id, id ∈ s.world.ids ↔ 0 < id.toNat ∧ id.toNat < s.world.nextId.toNat := by
  have hs := seated_of_reachable h hroom
  exact ⟨SortedMap.keys_eq_of_isSome hs.known, hs.players.entities_perm,
    s.world.entities.nodup_keys, hs.players.nextId, hs.players.mem_ids_iff⟩

def strangersRun : ServerLoop ℚ Unit :=
  (machine World.drawOrigin World.hundred () 0).runFrom (start World.hundred () 0)
    [(20000, [(⟨"b", 2⟩, (.ascending, [9])), (⟨"a", 1⟩, (.ascending, []))]),
      (40000, [(⟨"b", 2⟩, (.ascending, [9]))])]

theorem clients_own_entities_strangersRun : let s := strangersRun
    (s.mgr.endpoints = s.clients.keys ∧
      (s.clients.values.map ClientState.entity).Perm s.world.ids ∧ s.world.ids.Nodup ∧
      s.world.nextId.toNat = s.clients.entries.length + 1 ∧
      ∀ id, id ∈ s.world.ids ↔ 0 < id.toNat ∧ id.toNat < s.world.nextId.toNat) ∧
      s.clients.values.map ClientState.entity = [2, 1] := by
  have hreach : (machine World.drawOrigin World.hundred () 0).Reachable strangersRun :=
    Machine.Reachable.init.runFrom ⟨trivial, trivial, trivial⟩
  have hroom : strangersRun.Roomy := by
    rw [Roomy]
    decide +kernel
  exact ⟨clients_own_entities hreach hroom, by decide +kernel⟩

end ServerLoop

end Netcode.Server
