import Mathlib.Algebra.BigOperators.Group.Finset.Basic
import Mathlib.Order.Lattice
import Mathlib.Data.List.Basic
import Mathlib.Tactic.SplitIfs

/-!
# Maps kept as lists sorted by key

An ordered map is iterated in the order of its keys, so its iteration order is
part of its meaning: a `SortedMap` is its list of entries, strictly increasing
in the key. Two maps with the same lookups have the same entries in the same
order.
-/

namespace Netcode.Library

structure SortedMap (κ υ : Type*) [LinearOrder κ] where
  entries : List (κ × υ)
  sorted : entries.Pairwise fun a b => a.1 < b.1

namespace SortedMap

variable {κ υ ω : Type*} [LinearOrder κ] {m n : SortedMap κ υ} {k l : κ} {v : υ}

def find (k : κ) : List (κ × υ) → Option υ
  | [] => none
  | e :: es => if e.1 = k then some e.2 else find k es

def put (k : κ) (v : υ) : List (κ × υ) → List (κ × υ)
  | [] => [(k, v)]
  | e :: es => if k < e.1 then (k, v) :: e :: es
    else if k = e.1 then (k, v) :: es else e :: put k v es

theorem find_put (k l : κ) (v : υ) (es : List (κ × υ)) :
    find l (put k v es) = if k = l then some v else find l es := by
  induction es with
  | nil => rfl
  | cons e es ih =>
    rw [put]
    by_cases hlt : k < e.1
    · rw [if_pos hlt, find]
    · rw [if_neg hlt]
      by_cases heq : k = e.1
      · rw [if_pos heq, find, find, heq]
        split_ifs <;> rfl
      · rw [if_neg heq, find, find, ih]
        by_cases hel : e.1 = l
        · rw [if_pos hel, if_pos hel, if_neg (hel ▸ heq)]
        · rw [if_neg hel, if_neg hel]

theorem mem_put {e : κ × υ} {es : List (κ × υ)} (h : e ∈ put k v es) : e = (k, v) ∨ e ∈ es := by
  induction es with
  | nil => exact Or.inl (List.mem_singleton.mp h)
  | cons d es ih =>
    simp only [put] at h
    split_ifs at h
    · exact List.mem_cons.mp h
    · rcases List.mem_cons.mp h with h | h
      · exact Or.inl h
      · exact Or.inr (List.mem_cons_of_mem _ h)
    · rcases List.mem_cons.mp h with h | h
      · exact Or.inr (h ▸ List.mem_cons_self)
      · exact (ih h).imp_right (List.mem_cons_of_mem _)

theorem sorted_put {es : List (κ × υ)} (h : es.Pairwise fun a b => a.1 < b.1) :
    (put k v es).Pairwise fun a b => a.1 < b.1 := by
  induction es with
  | nil => exact List.pairwise_singleton _ _
  | cons e es ih =>
    obtain ⟨he, hes⟩ := List.pairwise_cons.mp h
    simp only [put]
    split_ifs with hlt heq
    · refine List.pairwise_cons.mpr ⟨fun d hd => ?_, h⟩
      rcases List.mem_cons.mp hd with hd | hd
      · exact hd ▸ hlt
      · exact lt_trans hlt (he d hd)
    · exact List.pairwise_cons.mpr ⟨fun d hd => heq ▸ he d hd, hes⟩
    · refine List.pairwise_cons.mpr ⟨fun d hd => ?_, ih hes⟩
      rcases mem_put hd with hd | hd
      · rw [hd]
        exact lt_of_le_of_ne (not_lt.mp hlt) (Ne.symm heq)
      · exact he d hd

theorem find_filter_ne (k l : κ) (es : List (κ × υ)) :
    find l (es.filter fun e => e.1 ≠ k) = if k = l then none else find l es := by
  induction es with
  | nil => simp [find]
  | cons e es ih =>
    by_cases hek : e.1 = k
    · rw [List.filter_cons_of_neg (by simpa using hek), ih]
      split_ifs with hkl
      · rfl
      · rw [find, if_neg (hek ▸ hkl)]
    · rw [List.filter_cons_of_pos (by simpa using hek), find, find, ih]
      split_ifs with hel hkl
      · exact absurd (hel.trans hkl.symm) hek
      · rfl
      · rfl
      · rfl

theorem find_eq_some_iff {es : List (κ × υ)} (h : es.Pairwise fun a b => a.1 < b.1) :
    find k es = some v ↔ (k, v) ∈ es := by
  induction es with
  | nil => simp [find]
  | cons e es ih =>
    obtain ⟨he, hes⟩ := List.pairwise_cons.mp h
    rw [find, List.mem_cons]
    split_ifs with hek
    · constructor
      · intro hv
        exact Or.inl (Prod.ext hek.symm (Option.some.inj hv).symm)
      · intro hv
        rcases hv with hv | hv
        · rw [← hv]
        · exact absurd (hek ▸ he (k, v) hv) (lt_irrefl _)
    · rw [ih hes]
      constructor
      · exact Or.inr
      · intro hv
        rcases hv with hv | hv
        · exact absurd (congrArg Prod.fst hv).symm hek
        · exact hv

theorem find_eq_none {es : List (κ × υ)} (h : ∀ e ∈ es, e.1 ≠ k) : find k es = none := by
  induction es with
  | nil => rfl
  | cons e es ih =>
    rw [find, if_neg (h e List.mem_cons_self)]
    exact ih fun d hd => h d (List.mem_cons_of_mem e hd)

def empty : SortedMap κ υ := ⟨[], List.Pairwise.nil⟩

instance : EmptyCollection (SortedMap κ υ) := ⟨empty⟩

def lookup (m : SortedMap κ υ) (k : κ) : Option υ := find k m.entries

def insert (m : SortedMap κ υ) (k : κ) (v : υ) : SortedMap κ υ :=
  ⟨put k v m.entries, sorted_put m.sorted⟩

def erase (m : SortedMap κ υ) (k : κ) : SortedMap κ υ :=
  ⟨m.entries.filter fun e => e.1 ≠ k, m.sorted.filter _⟩

def map (m : SortedMap κ υ) (f : κ → υ → ω) : SortedMap κ ω :=
  ⟨m.entries.map fun e => (e.1, f e.1 e.2), List.pairwise_map.mpr m.sorted⟩

def keys (m : SortedMap κ υ) : List κ := m.entries.map Prod.fst

def values (m : SortedMap κ υ) : List υ := m.entries.map Prod.snd

@[simp] theorem lookup_empty (k : κ) : (∅ : SortedMap κ υ).lookup k = none := rfl

theorem lookup_insert (m : SortedMap κ υ) (k l : κ) (v : υ) :
    (m.insert k v).lookup l = if k = l then some v else m.lookup l :=
  find_put k l v m.entries

theorem lookup_erase (m : SortedMap κ υ) (k l : κ) :
    (m.erase k).lookup l = if k = l then none else m.lookup l :=
  find_filter_ne k l m.entries

theorem lookup_map (m : SortedMap κ υ) (f : κ → υ → ω) (k : κ) :
    (m.map f).lookup k = (m.lookup k).map (f k) := by
  obtain ⟨es, h⟩ := m
  simp only [lookup, map]
  clear h
  induction es with
  | nil => rfl
  | cons e es ih =>
    simp only [List.map_cons, find]
    split_ifs with hek
    · rw [hek]
      rfl
    · exact ih

theorem lookup_eq_some_iff : m.lookup k = some v ↔ (k, v) ∈ m.entries :=
  find_eq_some_iff m.sorted

theorem mem_keys : k ∈ m.keys ↔ ∃ v, m.lookup k = some v := by
  simp only [keys, List.mem_map, Prod.exists, exists_and_right, exists_eq_right,
    lookup_eq_some_iff]

theorem nodup_keys (m : SortedMap κ υ) : m.keys.Nodup :=
  List.pairwise_map.mpr (m.sorted.imp fun hlt => ne_of_lt hlt)

theorem mem_keys_insert (h : l ∈ (m.insert k v).keys) : l = k ∨ l ∈ m.keys := by
  obtain ⟨u, hu⟩ := mem_keys.mp h
  rw [lookup_insert] at hu
  split_ifs at hu with hkl
  · exact Or.inl hkl.symm
  · exact Or.inr (mem_keys.mpr ⟨u, hu⟩)

theorem mem_keys_erase (h : l ∈ (m.erase k).keys) : l ∈ m.keys := by
  obtain ⟨u, hu⟩ := mem_keys.mp h
  rw [lookup_erase] at hu
  split_ifs at hu with hkl
  exact mem_keys.mpr ⟨u, hu⟩

theorem keys_map (m : SortedMap κ υ) (f : κ → υ → ω) : (m.map f).keys = m.keys := by
  rw [keys, map, List.map_map]
  rfl

theorem ext_lookup (h : ∀ k, m.lookup k = n.lookup k) : m = n := by
  have hperm : m.entries.Perm n.entries := by
    have hnodup : ∀ o : SortedMap κ υ, o.entries.Nodup :=
      fun o => o.sorted.imp fun hlt heq => absurd (heq ▸ hlt) (lt_irrefl _)
    apply (List.perm_ext_iff_of_nodup (hnodup m) (hnodup n)).mpr
    intro e
    rw [← lookup_eq_some_iff, ← lookup_eq_some_iff, h]
  have heq : m.entries = n.entries := by
    refine hperm.eq_of_pairwise (fun a b ha hb hab hba => ?_) m.sorted n.sorted
    exact absurd (lt_trans hab hba) (lt_irrefl _)
  cases m
  cases n
  simp only at heq
  subst heq
  rfl

theorem keys_eq_of_isSome {o : SortedMap κ ω}
    (h : ∀ k, (m.lookup k).isSome ↔ (o.lookup k).isSome) : m.keys = o.keys := by
  have hsame : (m.map fun _ _ => ()) = o.map fun _ _ => () := by
    apply ext_lookup
    intro k
    rw [lookup_map, lookup_map]
    have hk := h k
    cases hm : m.lookup k with
    | none => cases ho : o.lookup k <;> simp_all
    | some v => cases ho : o.lookup k <;> simp_all
  rw [← keys_map m fun _ _ => (), hsame, keys_map]

theorem values_eq_of_lookup {es : List (κ × υ)} (hes : es.Pairwise fun a b => a.1 < b.1)
    (h : ∀ k, m.lookup k = find k es) : m.values = es.map Prod.snd := by
  have heq : m = ⟨es, hes⟩ := ext_lookup h
  rw [heq]
  rfl

theorem insert_of_lookup (h : m.lookup k = some v) : m.insert k v = m := by
  apply ext_lookup
  intro l
  rw [lookup_insert]
  split_ifs with hkl
  · rw [← hkl, h]
  · rfl

theorem length_put {es : List (κ × υ)} (h : es.Pairwise fun a b => a.1 < b.1) :
    (put k v es).length = if (find k es).isSome then es.length else es.length + 1 := by
  induction es with
  | nil => rfl
  | cons e es ih =>
    obtain ⟨he, hes⟩ := List.pairwise_cons.mp h
    rw [put, find]
    by_cases hlt : k < e.1
    · have hnone : find k es = none := find_eq_none fun d hd =>
        ne_of_gt (lt_trans hlt (he d hd))
      rw [if_pos hlt, if_neg (ne_of_gt hlt), hnone]
      rfl
    · rw [if_neg hlt]
      by_cases heq : k = e.1
      · rw [if_pos heq, if_pos heq.symm]
        rfl
      · rw [if_neg heq, if_neg (Ne.symm heq), List.length_cons, ih hes, List.length_cons]
        split_ifs <;> rfl

theorem length_insert (m : SortedMap κ υ) (k : κ) (v : υ) : (m.insert k v).entries.length =
    if (m.lookup k).isSome then m.entries.length else m.entries.length + 1 :=
  length_put m.sorted

theorem lookup_foldl_insert {es : List (κ × υ)} (hes : es.Pairwise fun a b => a.1 < b.1)
    (m : SortedMap κ υ) (k : κ) :
    (es.foldl (fun m e => m.insert e.1 e.2) m).lookup k = (find k es).or (m.lookup k) := by
  induction es generalizing m with
  | nil => rfl
  | cons e es ih =>
    obtain ⟨he, hes⟩ := List.pairwise_cons.mp hes
    rw [List.foldl_cons, ih hes, lookup_insert, find]
    split_ifs with hek
    · have hnone : find k es = none :=
        find_eq_none fun d hd => hek ▸ ne_of_gt (he d hd)
      rw [hnone]
      rfl
    · rfl

theorem lookup_foldl_erase (ks : List κ) (m : SortedMap κ υ) (k : κ) :
    (ks.foldl erase m).lookup k = if k ∈ ks then none else m.lookup k := by
  induction ks generalizing m with
  | nil => simp
  | cons l ks ih =>
    rw [List.foldl_cons, ih, lookup_erase]
    by_cases hlk : l = k
    · simp [hlk]
    · simp [hlk, Ne.symm hlk]

theorem filter_flatMap_entries (m : SortedMap κ υ) (f : κ → υ → List ω) (k : κ) :
    ((m.entries.flatMap fun e => (f e.1 e.2).map fun x => (e.1, x)).filter fun x => x.1 = k).map
      Prod.snd = ((m.lookup k).map (f k)).getD [] := by
  obtain ⟨es, h⟩ := m
  simp only [lookup]
  induction es with
  | nil => rfl
  | cons e es ih =>
    obtain ⟨he, hes⟩ := List.pairwise_cons.mp h
    rw [List.flatMap_cons, List.filter_append, List.map_append, ih hes, find]
    split_ifs with hek
    · have hnone : find k es = none :=
        find_eq_none fun d hd => hek ▸ ne_of_gt (he d hd)
      rw [hnone, ← hek]
      simp [List.filter_map, Function.comp_def]
    · simp [List.filter_map, Function.comp_def, hek]

section Sums

variable {M : Type*} [AddCommMonoid M]

def weight (m : SortedMap κ υ) (w : υ → M) (k : κ) : M := ((m.lookup k).map w).getD 0

theorem sum_values (m : SortedMap κ υ) (w : υ → M) :
    (m.values.map w).sum = ∑ k ∈ m.keys.toFinset, m.weight w k := by
  rw [List.sum_toFinset _ m.nodup_keys, values, keys, List.map_map, List.map_map]
  congr 1
  refine List.map_congr_left fun e he => ?_
  have hlook : m.lookup e.1 = some e.2 := lookup_eq_some_iff.mpr he
  simp only [Function.comp_apply, weight, hlook, Option.map_some, Option.getD_some]

theorem weight_of_not_mem {w : υ → M} (h : k ∉ m.keys) : m.weight w k = 0 := by
  have hnone : m.lookup k = none :=
    Option.eq_none_iff_forall_ne_some.mpr fun v hv => h (mem_keys.mpr ⟨v, hv⟩)
  rw [weight, hnone]
  rfl

theorem sum_values_congr {o : SortedMap κ ω} {w : υ → M} {w' : ω → M}
    (h : ∀ k, m.weight w k = o.weight w' k) : (m.values.map w).sum = (o.values.map w').sum := by
  have hm : ∑ k ∈ m.keys.toFinset, m.weight w k =
      ∑ k ∈ m.keys.toFinset ∪ o.keys.toFinset, m.weight w k :=
    Finset.sum_subset Finset.subset_union_left fun k _ hk =>
      weight_of_not_mem (mt List.mem_toFinset.mpr hk)
  have ho : ∑ k ∈ o.keys.toFinset, o.weight w' k =
      ∑ k ∈ m.keys.toFinset ∪ o.keys.toFinset, o.weight w' k :=
    Finset.sum_subset Finset.subset_union_right fun k _ hk =>
      weight_of_not_mem (mt List.mem_toFinset.mpr hk)
  rw [sum_values, sum_values, hm, ho]
  exact Finset.sum_congr rfl fun k _ => h k

end Sums

end SortedMap

end Netcode.Library
