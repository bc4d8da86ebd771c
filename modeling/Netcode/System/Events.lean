import Netcode.System.Views

/-!
# The reliable events of the bots

The server does nothing with a reliable message but count it. It counts every
message that it takes, and from each bot it takes the messages in the order in
which they were queued, each of them once.
-/

namespace Netcode.Server.ServerLoop

open Netcode.Library Netcode.Sim Netcode.Transport

variable {δ ρ : Type*} [Scalar δ]

theorem reliableFrom_cons (e : Endpoint) (i : Incoming) (reports : List Incoming) :
    (reliableFrom e (i :: reports)).length =
      (if i.source = e then i.delivery.reliable.length else 0) +
        (reliableFrom e reports).length := by
  simp only [reliableFrom, List.filter_cons, decide_eq_true_eq]
  split_ifs
  · rw [List.flatMap_cons, List.length_append]
  · rw [zero_add]

theorem sum_reliableFrom {endpoints : Finset Endpoint} {reports : List Incoming}
    (h : ∀ i ∈ reports, i.source ∈ endpoints) :
    ∑ e ∈ endpoints, (reliableFrom e reports).length =
      (reports.map fun i => i.delivery.reliable.length).sum := by
  induction reports with
  | nil => exact Finset.sum_const_zero
  | cons i reports ih =>
    obtain ⟨hi, hrest⟩ := List.forall_mem_cons.mp h
    simp only [reliableFrom_cons, Finset.sum_add_distrib, Finset.sum_ite_eq, if_pos hi, ih hrest,
      List.map_cons, List.sum_cons]

end Netcode.Server.ServerLoop

namespace Netcode.System.Swarm

open Netcode.Library Netcode.Sim Netcode.Transport Netcode.Server Netcode.Bots

variable {δ ρ σ : Type*} [Scalar δ] {D : Deployment ρ σ} {s : Swarm δ ρ σ}

def clients (s : Swarm δ ρ σ) : Finset Endpoint := s.server.clients.keys.toFinset

theorem mem_clients {e : Endpoint} : e ∈ s.clients ↔ (s.server.clients.lookup e).isSome := by
  rw [clients, List.mem_toFinset, SortedMap.mem_keys, Option.isSome_iff_exists]

/-- The counter of the server is the number of messages that it took, all from clients. -/
structure Tallied (s : Swarm δ ρ σ) : Prop where
  count : s.server.reliableEvents = UInt64.ofNat (∑ e ∈ s.clients, (s.taken e).length)
  strangers : ∀ e ∉ s.clients, s.taken e = []

namespace Tallied

variable [Fmod δ]

theorem serve (h : s.Tallied) (hseated : s.server.Seated) {now : Micros}
    {datagrams : List (Endpoint × Arrival)}
    (hroom : (s.server.received D.uniform now datagrams).Roomy) :
    (s.serve D now datagrams).Tallied := by
  obtain ⟨hclients, hevents⟩ := ServerLoop.served_clients
    ((hseated.received hroom).advance now).known
  have hmem : ∀ e, e ∈ (s.serve D now datagrams).clients ↔ e ∈ s.clients ∨
      e ∈ (s.server.mgr.poll now datagrams).1.map Incoming.source := by
    intro e
    have hlook : (s.serve D now datagrams).server.clients =
        (s.server.received D.uniform now datagrams).clients := hclients
    rw [mem_clients, hlook, mem_clients]
    exact ServerLoop.foldl_ingest_isSome _ e
  have htaken : ∀ e, ((s.serve D now datagrams).taken e).length = (s.taken e).length +
      (ServerLoop.reliableFrom e (s.server.mgr.poll now datagrams).1).length :=
    fun e => List.length_append
  have hreports : ∀ i ∈ (s.server.mgr.poll now datagrams).1,
      i.source ∈ (s.serve D now datagrams).clients :=
    fun i hi => (hmem i.source).mpr (Or.inr (List.mem_map_of_mem hi))
  have hold : ∑ e ∈ (s.serve D now datagrams).clients, (s.taken e).length =
      ∑ e ∈ s.clients, (s.taken e).length :=
    (Finset.sum_subset (fun e he => (hmem e).mpr (Or.inl he)) fun e _ he => by
      rw [h.strangers e he, List.length_nil]).symm
  refine ⟨?_, fun e he => ?_⟩
  · simp only [htaken, Finset.sum_add_distrib, hold, ServerLoop.sum_reliableFrom hreports,
      UInt64.ofNat_add]
    rw [← h.count]
    exact hevents.trans (ServerLoop.foldl_ingest_reliableEvents ..)
  · have hnone := not_or.mp (mt (hmem e).mpr he)
    have hquiet : ServerLoop.reliableFrom e (s.server.mgr.poll now datagrams).1 = [] := by
      have hfilter : ((s.server.mgr.poll now datagrams).1.filter fun i => i.source = e) = [] :=
        List.filter_eq_nil_iff.mpr fun i hi hsource =>
          hnone.2 (of_decide_eq_true hsource ▸ List.mem_map_of_mem hi)
      rw [ServerLoop.reliableFrom, hfilter, List.flatMap_nil]
    have happend : (s.serve D now datagrams).taken e = s.taken e ++ _ := rfl
    rw [happend, h.strangers e hnone.1, hquiet, List.append_nil]

theorem of_reachable (h : (machine D).ReachableUnder (Within D) s) : s.Tallied := by
  induction h with
  | init => exact ⟨rfl, fun _ _ => rfl⟩
  | step h ev hwithin _ ih =>
    cases ev with
    | serve now datagrams =>
      obtain ⟨_, -, hreflects⟩ := Reflects.of_reachable h
      refine ih.serve hreflects.seated ?_
      have hsmall := hwithin.2.1
      rw [ServerLoop.Roomy]
      omega
    | tick e => exact ⟨ih.count, ih.strangers⟩
    | pump e now arrivals => exact ⟨ih.count, ih.strangers⟩

end Tallied

variable [Fmod δ]

/-- The server counts every reliable message that it takes, and from each bot it takes a
prefix of what the bot queued; what the bot no longer holds has been taken. -/
theorem events_once_in_order (h : (machine D).ReachableUnder (Within D) s) :
    s.server.reliableEvents = UInt64.ofNat (∑ e ∈ s.clients, (s.taken e).length) ∧
      ∀ e ∈ D.bots, (s.events e).length ≤ maxMessages → s.taken e <+: s.events e ∧
        ∀ m ∈ s.events e, m ∉ (s.bot e).peer.mux.reliable.held → m ∈ s.taken e := by
  refine ⟨(Tallied.of_reachable h).count, fun e he hcount => ?_⟩
  obtain ⟨_, -, hreflects⟩ := Reflects.of_reachable h
  obtain ⟨l, hl⟩ := hreflects.linked e he
  obtain ⟨hsome, hheld, -⟩ := hl.delivers hcount
  rw [hl.taken, hl.events, hl.bot] at hheld
  rw [hl.taken, hl.events] at hsome
  exact ⟨hsome, hheld⟩

theorem events_once_in_order_joinRun :
    let s := (machine (δ := ℚ) oneBot).runFrom (start oneBot) joinRun
    (s.server.reliableEvents = UInt64.ofNat (∑ e ∈ s.clients, (s.taken e).length) ∧
      ∀ e ∈ oneBot.bots, (s.events e).length ≤ maxMessages → s.taken e <+: s.events e ∧
        ∀ m ∈ s.events e, m ∉ (s.bot e).peer.mux.reliable.held → m ∈ s.taken e) ∧
      s.server.reliableEvents = 1 :=
  ⟨events_once_in_order (Machine.ReachableUnder.init.runFrom admits_joinRun), by decide +kernel⟩

end Netcode.System.Swarm
