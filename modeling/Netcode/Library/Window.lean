import Mathlib.Data.List.Nodup

/-!
# Windows of a list, and lists that grow

`window q l h` is the part of `q` from position `l` up to position `h`. A
window of a list whose keys are pairwise distinct shares no key with any window
above it, so filtering out the keys of one window shortens a suffix exactly to
the part above both. An entry of a list that grew by one is an old entry or the
new one.
-/

namespace Netcode.Library

variable {α κ : Type*} {q r : List α} {l d h : ℕ}

def window (q : List α) (l h : ℕ) : List α := (q.take h).drop l

theorem window_append (hh : h ≤ q.length) : window (q ++ r) l h = window q l h := by
  simp only [window, List.take_append_of_le_length hh]

theorem window_length_eq (q : List α) (l : ℕ) : window q l q.length = q.drop l := by
  simp only [window, List.take_length]

theorem window_eq_nil (hle : h ≤ l) : window q l h = [] := by
  apply List.drop_eq_nil_of_le
  exact Nat.le_trans (List.length_take_le _ _) hle

theorem take_append_window (hle : d ≤ h) : q.take d ++ window q d h = q.take h := by
  have ht : q.take d = (q.take h).take d := by
    rw [List.take_take, Nat.min_eq_left hle]
  rw [window, ht, List.take_append_drop]

theorem window_append_window (hl : l ≤ d) (hd : d ≤ h) :
    window q l d ++ window q d h = window q l h := by
  have hlen : l ≤ (q.take d).length ∨ q.length ≤ l := by
    rw [List.length_take]
    omega
  rcases hlen with hlen | hlen
  · simp only [window]
    rw [← List.drop_append_of_le_length hlen]
    exact congrArg (List.drop l) (take_append_window hd)
  · simp only [window, List.drop_take]
    simp [List.drop_eq_nil_of_le hlen, List.drop_eq_nil_of_le (Nat.le_trans hlen hl)]

theorem window_append_drop (hle : l ≤ h) : window q l h ++ q.drop h = q.drop l := by
  rcases Nat.le_total h q.length with hh | hh
  · have hw := window_append_window (q := q) hle hh
    rwa [window_length_eq, window_length_eq] at hw
  · simp only [window, List.take_of_length_le hh, List.drop_eq_nil_of_le hh, List.append_nil]

theorem mem_take_of_mem_window {a : α} (ha : a ∈ window q l h) : a ∈ q.take h :=
  List.mem_of_mem_drop ha

theorem getElem?_concat {a b : α} {k : ℕ} (h : (q ++ [b])[k]? = some a) :
    q[k]? = some a ∨ k = q.length ∧ a = b := by
  rcases Nat.lt_or_ge k q.length with hk | hk
  · rw [List.getElem?_append_left hk] at h
    exact Or.inl h
  · have hlen := (List.getElem?_eq_some_iff.mp h).1
    rw [List.length_append, List.length_singleton] at hlen
    obtain rfl : k = q.length := by omega
    rw [List.getElem?_concat_length] at h
    exact Or.inr ⟨rfl, (Option.some.inj h).symm⟩

variable {f : α → κ}

theorem key_notMem_window (hnd : (q.map f).Nodup) {a : α} (ha : a ∈ q.drop h) :
    f a ∉ (window q l h).map f := by
  intro hmem
  have hsplit : (q.take h).map f ++ (q.drop h).map f = q.map f := by
    rw [← List.map_append, List.take_append_drop]
  rw [← hsplit] at hnd
  obtain ⟨b, hb, hab⟩ := List.mem_map.mp hmem
  have hbt : f a ∈ (q.take h).map f := hab ▸ List.mem_map_of_mem (mem_take_of_mem_window hb)
  exact (List.nodup_append.mp hnd).2.2 _ hbt _ (List.mem_map_of_mem ha) rfl

theorem nodup_window (hnd : (q.map f).Nodup) : ((window q l h).map f).Nodup :=
  hnd.sublist (((List.drop_sublist _ _).trans (List.take_sublist _ _)).map f)

theorem filter_drop_window [DecidableEq κ] (hnd : (q.map f).Nodup) (hle : l ≤ d) :
    (q.drop d).filter (fun a => f a ∉ (window q l h).map f) = q.drop (max d h) := by
  have habove : ∀ k, h ≤ k → (q.drop k).filter (fun a => f a ∉ (window q l h).map f) =
      q.drop k := by
    intro k hk
    apply List.filter_eq_self.mpr
    intro a ha
    have hah : a ∈ q.drop h := (List.drop_sublist_drop_left q hk).subset ha
    exact decide_eq_true (key_notMem_window hnd hah)
  rcases Nat.le_total h d with hh | hh
  · rw [Nat.max_eq_left hh]
    exact habove d hh
  · have hin : (window q d h).filter (fun a => f a ∉ (window q l h).map f) = [] := by
      apply List.filter_eq_nil_iff.mpr
      intro a ha
      rw [← window_append_window hle hh, List.map_append]
      simp only [decide_not, Bool.not_eq_true', decide_eq_false_iff_not, not_not]
      exact List.mem_append_right _ (List.mem_map_of_mem ha)
    rw [Nat.max_eq_right hh, ← window_append_drop hh, List.filter_append, hin,
      habove h (Nat.le_refl h), List.nil_append]

/-- In a window of width `w` lie at most `w / d + 1` points that are `d` apart. -/
theorem length_spaced_le {d t w : ℕ} (hd : 0 < d) {ts : List ℕ}
    (hspaced : ts.Pairwise fun a b => a + d ≤ b) (hmem : ∀ a ∈ ts, t ≤ a ∧ a < t + w) :
    ts.length ≤ w / d + 1 := by
  induction ts generalizing t w with
  | nil => exact Nat.zero_le _
  | cons a ts ih =>
    obtain ⟨hlater, hrest⟩ := List.pairwise_cons.mp hspaced
    obtain ⟨⟨hta, haw⟩, hothers⟩ := List.forall_mem_cons.mp hmem
    cases ts with
    | nil => exact Nat.le_add_left 1 _
    | cons b ts =>
      have hb := hlater b List.mem_cons_self
      have hbw := hothers b List.mem_cons_self
      have hdw : d ≤ w := by omega
      have hle := ih (t := t + d) (w := w - d) hrest fun c hc => by
        have hc' := hlater c hc
        have hcw := hothers c hc
        omega
      have hquot : w / d = (w - d) / d + 1 := Nat.div_eq_sub_div hd hdw
      rw [List.length_cons, hquot]
      omega

end Netcode.Library
