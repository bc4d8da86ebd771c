import Netcode.Sync.Invariant

/-!
# When a client goes back in time

A keyframe replaces what the client holds without a look at its tick, so one
that arrives late takes the client back; a delta never does. As long as a client
gets no late keyframe the tick it holds only grows, and the server's record of it
is never ahead of it.
-/

namespace Netcode.Sync

open Netcode.Library Netcode.Sim

variable {ι α : Type*} {setup : Setup ι α} {s : Session ι α} {i : ι}

/-- A keyframe reaches client `i` that is older than what the client holds. -/
def LateKeyframe (i : ι) (s : Session ι α) : Event ι α → Prop
  | .deliver j blob => j = i ∧ (keyframeTick blob).any fun tick => tick < (s.base i).tick
  | _ => False

instance [DecidableEq ι] (i : ι) (s : Session ι α) (e : Event ι α) :
    Decidable (LateKeyframe i s e) :=
  match e with
  | .deliver _ _ => inferInstanceAs (Decidable (_ = _ ∧ Option.any _ _ = true))
  | .broadcast _ _ => isFalse id
  | .stamp _ => isFalse id
  | .ingest _ _ => isFalse id

def newest (ticks : List UInt32) : UInt32 := ticks.foldl max 0

theorem newest_append (ticks : List UInt32) (tick : UInt32) :
    newest (ticks ++ [tick]) = max (newest ticks) tick := by
  simp only [newest, List.foldl_append, List.foldl_cons, List.foldl_nil]

variable [Scalar α]

/-- An arriving blob takes the client back exactly if it is a late keyframe. -/
theorem Recorded.applied_lt_iff (h : Recorded setup s) {blob : Bytes} (hblob : blob ∈ s.blobs i) :
    (applySnapshot (s.base i) blob setup.worldMax).2.tick < (s.base i).tick ↔
      LateKeyframe i s (.deliver i blob) := by
  rcases (h.sent i blob hblob).apply_cases (s.base i) with ⟨hrej, hnone⟩ | ⟨w, -, es, hacc, hkind⟩
  · rw [hrej]
    simp [LateKeyframe, hnone]
  · rw [hacc]
    rcases hkind with hkey | ⟨hnone, hlt⟩
    · simp [LateKeyframe, hkey]
    · simp [LateKeyframe, hnone, not_lt.mpr hlt.le]

/-- What has been stamped or acknowledged is not ahead of the tick that the client
holds, which is the newest that it applied. -/
structure Forward (setup : Setup ι α) (i : ι) (s : Session ι α) : Prop where
  recorded : Recorded setup s
  base_eq : (s.base i).tick = newest (s.applied i)
  input_le : ∀ ack ∈ s.inputs i, ack ≤ (s.base i).tick
  ack_le : s.server.lastReceivedTick i ≤ (s.base i).tick

namespace Forward

theorem init (setup : Setup ι α) (i : ι) : Forward setup i (Session.init setup) where
  recorded := Recorded.init setup
  base_eq := rfl
  input_le := fun ack hack => by simp [Session.init] at hack
  ack_le := le_rfl

theorem applied_eq (h : Forward setup i s) {blob : Bytes} (hblob : blob ∈ s.blobs i)
    (hlate : ¬ LateKeyframe i s (.deliver i blob)) :
    (applySnapshot (s.base i) blob setup.worldMax).2.tick = newest (s.applied i ++
      if (applySnapshot (s.base i) blob setup.worldMax).1 then
        [(applySnapshot (s.base i) blob setup.worldMax).2.tick] else []) := by
  have hle := not_lt.mp fun hlt => hlate ((h.recorded.applied_lt_iff hblob).mp hlt)
  rcases (h.recorded.sent i blob hblob).apply_cases (s.base i) with ⟨hrej, -⟩ | ⟨w, -, es, hacc, -⟩
  · rw [hrej]
    simpa using h.base_eq
  · rw [hacc] at hle ⊢
    simp only [if_true]
    rw [newest_append, ← h.base_eq, max_eq_right hle]

end Forward

variable [DecidableEq ι]

theorem Recorded.base_le_next (h : Recorded setup s) {e : Event ι α}
    (he : (machine setup).Enabled s e) (hlate : ¬ LateKeyframe i s e) :
    (s.base i).tick ≤ (((machine setup).next s e).base i).tick := by
  cases e with
  | broadcast tick entities => exact le_rfl
  | deliver j blob =>
    simp only [machine, Session.deliver]
    by_cases hi : i = j
    · subst hi
      rw [Function.update_self]
      exact not_lt.mp fun hlt => hlate ((h.applied_lt_iff he).mp hlt)
    · rw [Function.update_of_ne hi]
  | stamp j => exact le_rfl
  | ingest j ack => exact le_rfl

namespace Forward

theorem next (h : Forward setup i s) {e : Event ι α} (hlate : ¬ LateKeyframe i s e)
    (he : (machine setup).Enabled s e) : Forward setup i ((machine setup).next s e) := by
  have hrecorded := h.recorded.next he
  have hmono := h.recorded.base_le_next he hlate
  cases e with
  | broadcast tick entities => exact ⟨hrecorded, h.base_eq, h.input_le, h.ack_le⟩
  | deliver j blob =>
    refine ⟨hrecorded, ?_, fun ack hack => (h.input_le ack hack).trans hmono,
      h.ack_le.trans hmono⟩
    simp only [machine, Session.deliver]
    by_cases hi : i = j
    · subst hi
      rw [Function.update_self, Function.update_self]
      exact h.applied_eq he hlate
    · rw [Function.update_of_ne hi, Function.update_of_ne hi]
      exact h.base_eq
  | stamp j =>
    refine ⟨hrecorded, h.base_eq, ?_, h.ack_le⟩
    simp only [machine, Session.stamp]
    by_cases hi : i = j
    · subst hi
      rw [Function.update_self]
      exact List.forall_mem_append.mpr ⟨h.input_le, List.forall_mem_singleton.mpr le_rfl⟩
    · rw [Function.update_of_ne hi]
      exact h.input_le
  | ingest j ack =>
    refine ⟨hrecorded, h.base_eq, h.input_le, ?_⟩
    simp only [machine, Session.ingest, Server.ingest_lastReceivedTick]
    split_ifs with hi
    · subst hi
      exact max_le h.ack_le (h.input_le ack he)
    · exact h.ack_le

theorem of_reachable (h : (machine setup).ReachableUnder (fun s e => ¬ LateKeyframe i s e) s) :
    Forward setup i s :=
  h.invariant (init setup i) fun _ _ hs hlate he => hs.next hlate he

end Forward

/-- A blob takes a client back exactly if it is a keyframe older than what the client
holds. A client that gets none never goes back: the tick that it stamps is the newest
it applied, and the server's record of it is not ahead of the tick that it holds. -/
theorem never_back (setup : Setup ι α) (i : ι) :
    (∀ s, (machine setup).Reachable s → ∀ blob ∈ s.blobs i,
      ((applySnapshot (s.base i) blob setup.worldMax).2.tick < (s.base i).tick ↔
        ∃ tick, keyframeTick blob = some tick ∧ tick < (s.base i).tick)) ∧
    ∀ s, (machine setup).ReachableUnder (fun s e => ¬ LateKeyframe i s e) s →
      (∀ e, (machine setup).Enabled s e → ¬ LateKeyframe i s e →
        (s.base i).tick ≤ (((machine setup).next s e).base i).tick) ∧
      (s.stamp i).inputs i = s.inputs i ++ [newest (s.applied i)] ∧
      s.server.lastReceivedTick i ≤ (s.base i).tick := by
  refine ⟨fun s hs blob hblob => ?_, fun s hs => ?_⟩
  · have hrecorded : Recorded setup s :=
      hs.invariant (Recorded.init setup) fun _ _ hs he => hs.next he
    rw [hrecorded.applied_lt_iff hblob, LateKeyframe, Option.any_eq_true]
    simp only [decide_eq_true_eq, true_and]
  · have hforward := Forward.of_reachable hs
    refine ⟨fun e he hlate => hforward.recorded.base_le_next he hlate, ?_, hforward.ack_le⟩
    rw [← hforward.base_eq]
    exact Function.update_self ..

def firstKeyframe : List (Event Unit ℚ) :=
  [.broadcast 1 [⟨1, 50, 50⟩], .deliver () [0, 0, 0, 0, 1, 0, 1, 0, 1, 128, 8, 0],
    .stamp (), .ingest () 1]

theorem never_back_firstKeyframe :
    let s := (machine oneClient).runFrom (Session.init oneClient) firstKeyframe
    (∀ blob ∈ s.blobs (),
      ((applySnapshot (s.base ()) blob oneClient.worldMax).2.tick < (s.base ()).tick ↔
        ∃ tick, keyframeTick blob = some tick ∧ tick < (s.base ()).tick)) ∧
    (s.stamp ()).inputs () = s.inputs () ++ [newest (s.applied ())] ∧
    s.server.lastReceivedTick () ≤ (s.base ()).tick ∧ s.server.lastReceivedTick () = 1 := by
  have hrun : (machine oneClient).AdmitsUnder (fun s e => ¬ LateKeyframe () s e)
      (Session.init oneClient) firstKeyframe := by decide +kernel
  have hreach := Machine.ReachableUnder.init.runFrom hrun
  obtain ⟨hiff, hforward⟩ := never_back oneClient ()
  obtain ⟨-, hstamp, hack⟩ := hforward _ hreach
  exact ⟨hiff _ hreach.reachable, hstamp, hack, by decide +kernel⟩

def secondFirst : List (Event Unit ℚ) :=
  [.broadcast 1 [⟨1, 50, 50⟩], .broadcast 2 [⟨1, 50, 50⟩],
    .deliver () [0, 0, 0, 0, 2, 0, 1, 0, 1, 128, 8, 0], .stamp (), .ingest () 2]

theorem late_keyframe_goes_back : ¬ ∀ s, (machine oneClient).Reachable s →
    (∀ e, (machine oneClient).Enabled s e →
      (s.base ()).tick ≤ (((machine oneClient).next s e).base ()).tick) ∧
    (s.base ()).tick = newest (s.applied ()) ∧
    s.server.lastReceivedTick () ≤ (s.base ()).tick := by
  intro hclaim
  have hrun : (machine oneClient).Admits (Session.init oneClient) secondFirst := by decide +kernel
  obtain ⟨hmono, -, -⟩ := hclaim _ (Machine.Reachable.init.runFrom hrun)
  have hlate := hmono (.deliver () [0, 0, 0, 0, 1, 0, 1, 0, 1, 128, 8, 0]) (by decide +kernel)
  exact absurd hlate (by decide +kernel)

end Netcode.Sync
