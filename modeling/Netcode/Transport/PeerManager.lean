import Mathlib.Data.Prod.Lex
import Mathlib.Data.String.Basic
import Netcode.Library.SortedMap
import Netcode.Transport.Peer

/-!
# One peer per client over a shared socket

The manager drains the shared socket into one inbox per endpoint, creating a
connection on first contact, and then polls the peers it touched in the order
in which it first saw them. The last section says what all this does to the
connection of one endpoint.
-/

namespace Netcode.Transport

open Netcode.Library

instance : LinearOrder Endpoint :=
  LinearOrder.lift' (fun e => toLex (e.ip, e.port.toNat)) fun a b h => by
    obtain ⟨hip, hport⟩ := Prod.mk.inj (toLex_inj.mp h)
    cases a
    cases b
    simp only at hip hport
    rw [hip, UInt16.toNat_inj.mp hport]

structure Conn (δ : Type*) [Scalar δ] where
  inbox : List Arrival := []
  peer : Peer δ

structure Incoming where
  source : Endpoint
  isNew : Bool
  delivery : Delivery

structure PeerManager (δ : Type*) [Scalar δ] where
  conns : SortedMap Endpoint (Conn δ) := ∅

/-- The local variables of `poll`; `seen` of the source is the set of members of `order`. -/
structure Drain (δ : Type*) [Scalar δ] where
  conns : SortedMap Endpoint (Conn δ)
  order : List Endpoint := []
  fresh : List Endpoint := []

namespace PeerManager

variable {δ : Type*} [Scalar δ]

def remove (m : PeerManager δ) (who : Endpoint) : PeerManager δ := ⟨m.conns.erase who⟩

def withPeer (m : PeerManager δ) (who : Endpoint) (f : Peer δ → Peer δ) : PeerManager δ :=
  match m.conns.lookup who with
  | none => m
  | some conn => ⟨m.conns.insert who { conn with peer := f conn.peer }⟩

def deliver (conn : Conn δ) (a : Arrival) : Conn δ :=
  { conn with inbox := conn.inbox ++ [(a.1, a.2.take kRxBuffer)] }

def drainStep (x : Drain δ) (d : Endpoint × Arrival) : Drain δ :=
  { conns := x.conns.insert d.1
      (deliver ((x.conns.lookup d.1).getD { peer := { remote := d.1 } }) d.2)
    order := if d.1 ∈ x.order then x.order else x.order ++ [d.1]
    fresh := if (x.conns.lookup d.1).isNone then x.fresh ++ [d.1] else x.fresh }

def pollStep (nowUs : Micros) (fresh : List Endpoint)
    (x : SortedMap Endpoint (Conn δ) × List Incoming) (e : Endpoint) :
    SortedMap Endpoint (Conn δ) × List Incoming :=
  match x.1.lookup e with
  | none => x
  | some conn =>
    let r := conn.peer.poll nowUs conn.inbox
    (x.1.insert e ⟨[], r.2⟩, x.2 ++ [⟨e, decide (e ∈ fresh), r.1⟩])

def poll (m : PeerManager δ) (nowUs : Micros) (datagrams : List (Endpoint × Arrival)) :
    List Incoming × PeerManager δ :=
  let x := datagrams.foldl drainStep { conns := m.conns }
  let y := x.order.foldl (pollStep nowUs x.fresh) (x.conns, [])
  (y.2, ⟨y.1⟩)

def updateAll (m : PeerManager δ) (nowUs : Micros) : List (Endpoint × Bytes) × PeerManager δ :=
  (m.conns.entries.flatMap fun e => (e.2.peer.update nowUs).1.map fun d => (e.2.peer.remote, d),
    ⟨m.conns.map fun _ conn => { conn with peer := (conn.peer.update nowUs).2 }⟩)

def endpoints (m : PeerManager δ) : List Endpoint := m.conns.keys

def size (m : PeerManager δ) : ℕ := m.conns.entries.length

def totalBytesSent (m : PeerManager δ) : UInt64 :=
  m.conns.entries.foldl (fun total e => total + e.2.peer.bytesSent) 0

def totalPacketsSent (m : PeerManager δ) : UInt64 :=
  m.conns.entries.foldl (fun total e => total + e.2.peer.packetsSent) 0

end PeerManager

variable {δ : Type*} [Scalar δ]

section Views

variable {e : Endpoint}

def arrivalsFor (e : Endpoint) (ds : List (Endpoint × Arrival)) : List Arrival :=
  (ds.filter fun d => d.1 = e).map Prod.snd

theorem arrivalsFor_cons (e : Endpoint) (d : Endpoint × Arrival) (ds : List (Endpoint × Arrival)) :
    arrivalsFor e (d :: ds) = if d.1 = e then d.2 :: arrivalsFor e ds else arrivalsFor e ds := by
  simp only [arrivalsFor, List.filter_cons, decide_eq_true_eq]
  split_ifs <;> rfl

theorem arrivalsFor_append (e : Endpoint) (ds ds' : List (Endpoint × Arrival)) :
    arrivalsFor e (ds ++ ds') = arrivalsFor e ds ++ arrivalsFor e ds' := by
  simp only [arrivalsFor, List.filter_append, List.map_append]

theorem drain_other {x : Drain δ} {d : Endpoint × Arrival} (hd : d.1 ≠ e) :
    (PeerManager.drainStep x d).conns.lookup e = x.conns.lookup e ∧
      (e ∈ (PeerManager.drainStep x d).order ↔ e ∈ x.order) ∧
      (e ∈ (PeerManager.drainStep x d).fresh ↔ e ∈ x.fresh) := by
  refine ⟨?_, ?_, ?_⟩
  · simp only [PeerManager.drainStep, SortedMap.lookup_insert, if_neg hd]
  · simp only [PeerManager.drainStep]
    split_ifs
    · rfl
    · simp [Ne.symm hd]
  · simp only [PeerManager.drainStep]
    split_ifs
    · simp [Ne.symm hd]
    · rfl

theorem drain_own {x : Drain δ} {a : Arrival} :
    (PeerManager.drainStep x (e, a)).conns.lookup e =
        some (PeerManager.deliver ((x.conns.lookup e).getD { peer := { remote := e } }) a) ∧
      e ∈ (PeerManager.drainStep x (e, a)).order ∧
      (e ∈ (PeerManager.drainStep x (e, a)).fresh ↔ e ∈ x.fresh ∨ x.conns.lookup e = none) := by
  refine ⟨?_, ?_, ?_⟩
  · simp only [PeerManager.drainStep, SortedMap.lookup_insert, if_true]
  · simp only [PeerManager.drainStep]
    split_ifs with h
    · exact h
    · exact List.mem_append_right _ (List.mem_singleton_self e)
  · simp only [PeerManager.drainStep, Option.isNone_iff_eq_none]
    split_ifs with h
    · simp [h]
    · simp [h]

theorem drain_view (e : Endpoint) (ds : List (Endpoint × Arrival)) (x : Drain δ) :
    (ds.foldl PeerManager.drainStep x).conns.lookup e =
        (if arrivalsFor e ds = [] then x.conns.lookup e
        else some ((arrivalsFor e ds).foldl PeerManager.deliver
          ((x.conns.lookup e).getD { peer := { remote := e } }))) ∧
      (e ∈ (ds.foldl PeerManager.drainStep x).order ↔ e ∈ x.order ∨ arrivalsFor e ds ≠ []) ∧
      (e ∈ (ds.foldl PeerManager.drainStep x).fresh ↔
        e ∈ x.fresh ∨ (arrivalsFor e ds ≠ [] ∧ x.conns.lookup e = none)) := by
  induction ds generalizing x with
  | nil => simp [arrivalsFor]
  | cons d ds ih =>
    obtain ⟨hconn, horder, hfresh⟩ := ih (PeerManager.drainStep x d)
    rw [List.foldl_cons, arrivalsFor_cons]
    by_cases hd : d.1 = e
    · obtain ⟨source, a⟩ := d
      simp only at hd
      subst hd
      obtain ⟨hconn', horder', hfresh'⟩ := drain_own (x := x) (e := source) (a := a)
      rw [if_pos rfl]
      refine ⟨?_, ?_, ?_⟩
      · rw [hconn, hconn', Option.getD_some]
        by_cases hnil : arrivalsFor source ds = []
        · simp [hnil]
        · simp [hnil]
      · simp [horder, horder']
      · rw [hfresh, hfresh', hconn']
        simp
    · obtain ⟨hconn', horder', hfresh'⟩ := drain_other (x := x) hd
      rw [if_neg hd]
      exact ⟨by rw [hconn, hconn'], by rw [horder, horder'], by rw [hfresh, hfresh', hconn']⟩

theorem drain_nodup (ds : List (Endpoint × Arrival)) {x : Drain δ} (h : x.order.Nodup) :
    (ds.foldl PeerManager.drainStep x).order.Nodup := by
  induction ds generalizing x with
  | nil => exact h
  | cons d ds ih =>
    apply ih
    simp only [PeerManager.drainStep]
    split_ifs with hd
    · exact h
    · exact List.nodup_append.mpr ⟨h, List.nodup_singleton _, fun a ha b hb hab =>
        hd (List.mem_singleton.mp hb ▸ hab ▸ ha)⟩

theorem foldl_deliver (conn : Conn δ) (as : List Arrival) :
    as.foldl PeerManager.deliver conn =
      { conn with inbox := conn.inbox ++ as.map fun a => (a.1, a.2.take kRxBuffer) } := by
  induction as generalizing conn with
  | nil => simp
  | cons a as ih => simp [ih, PeerManager.deliver]

theorem polls_view (e : Endpoint) (nowUs : Micros) (fresh order : List Endpoint)
    (hnodup : order.Nodup) (x : SortedMap Endpoint (Conn δ) × List Incoming) :
    (order.foldl (PeerManager.pollStep nowUs fresh) x).1.lookup e =
        (if e ∈ order then (x.1.lookup e).map fun conn =>
          ⟨[], (conn.peer.poll nowUs conn.inbox).2⟩ else x.1.lookup e) ∧
      (order.foldl (PeerManager.pollStep nowUs fresh) x).2.filter (fun i => i.source = e) =
        x.2.filter (fun i => i.source = e) ++
          if e ∈ order then ((x.1.lookup e).map fun conn =>
            (⟨e, decide (e ∈ fresh), (conn.peer.poll nowUs conn.inbox).1⟩ : Incoming)).toList
          else [] := by
  induction order generalizing x with
  | nil => simp
  | cons k order ih =>
    obtain ⟨hk, hrest⟩ := List.nodup_cons.mp hnodup
    obtain ⟨hconn, hreports⟩ := ih hrest (PeerManager.pollStep nowUs fresh x k)
    rw [List.foldl_cons, hconn, hreports]
    by_cases hke : k = e
    · subst hke
      rw [if_neg hk, if_neg hk, if_pos List.mem_cons_self, if_pos List.mem_cons_self]
      simp only [PeerManager.pollStep]
      cases hlook : x.1.lookup k with
      | none => simp [hlook]
      | some conn => simp [SortedMap.lookup_insert, List.filter_append]
    · have hmem : e ∈ k :: order ↔ e ∈ order := by simp [Ne.symm hke]
      have hother : (PeerManager.pollStep nowUs fresh x k).1.lookup e = x.1.lookup e ∧
          (PeerManager.pollStep nowUs fresh x k).2.filter (fun i => i.source = e) =
            x.2.filter (fun i => i.source = e) := by
        simp only [PeerManager.pollStep]
        cases hlook : x.1.lookup k with
        | none => exact ⟨rfl, rfl⟩
        | some conn => simp [SortedMap.lookup_insert, List.filter_append, hke]
      simp only [hmem, hother.1, hother.2, true_and]

namespace PeerManager

/-- A poll gives the endpoint's peer the endpoint's own datagrams and nothing else. -/
theorem poll_view (e : Endpoint) (m : PeerManager δ) (nowUs : Micros)
    (ds : List (Endpoint × Arrival))
    (hinbox : ∀ conn, m.conns.lookup e = some conn → conn.inbox = []) :
    (m.poll nowUs ds).2.conns.lookup e =
        (if arrivalsFor e ds = [] then m.conns.lookup e
        else some ⟨[], ((((m.conns.lookup e).map Conn.peer).getD { remote := e }).poll nowUs
          (arrivalsFor e ds)).2⟩) ∧
      (m.poll nowUs ds).1.filter (fun i => i.source = e) =
        (if arrivalsFor e ds = [] then []
        else [⟨e, (m.conns.lookup e).isNone,
          ((((m.conns.lookup e).map Conn.peer).getD { remote := e }).poll nowUs
            (arrivalsFor e ds)).1⟩]) := by
  obtain ⟨hconn, horder, hfresh⟩ := drain_view e ds { conns := m.conns }
  have hnodup := drain_nodup ds (x := { conns := m.conns }) List.nodup_nil
  obtain ⟨hlook, hout⟩ := polls_view e nowUs
    (ds.foldl drainStep { conns := m.conns }).fresh _ hnodup
    ((ds.foldl drainStep { conns := m.conns }).conns, [])
  simp only [poll]
  rw [hlook, hout, hconn]
  by_cases hnil : arrivalsFor e ds = []
  · simp [horder, hnil]
  · have hmem : e ∈ (ds.foldl drainStep { conns := m.conns }).order :=
      horder.mpr (Or.inr hnil)
    have hnew : e ∈ (ds.foldl drainStep { conns := m.conns }).fresh ↔
        m.conns.lookup e = none := by
      simp [hfresh, hnil]
    have hempty : ((m.conns.lookup e).getD { peer := { remote := e } }).inbox = [] := by
      cases hc : m.conns.lookup e with
      | none => rfl
      | some conn => exact hinbox conn hc
    have hpeer : ((m.conns.lookup e).getD { peer := { remote := e } }).peer =
        ((m.conns.lookup e).map Conn.peer).getD { remote := e } := by
      cases m.conns.lookup e <;> rfl
    simp only [if_pos hmem, if_neg hnil, foldl_deliver, hempty, hpeer, List.nil_append,
      Option.map_some, Option.toList_some, List.filter_nil, Peer.poll_cut, hnew, true_and]
    cases m.conns.lookup e <;> rfl

theorem lookup_withPeer (m : PeerManager δ) (who e : Endpoint) (f : Peer δ → Peer δ) :
    (m.withPeer who f).conns.lookup e =
      if who = e then (m.conns.lookup e).map fun conn => { conn with peer := f conn.peer }
      else m.conns.lookup e := by
  rw [withPeer]
  by_cases hwho : who = e
  · subst hwho
    cases hc : m.conns.lookup who with
    | none => simp [hc]
    | some conn => simp [SortedMap.lookup_insert]
  · cases hc : m.conns.lookup who with
    | none => simp [hwho]
    | some conn => simp [SortedMap.lookup_insert, hwho]

end PeerManager

end Views

end Netcode.Transport
