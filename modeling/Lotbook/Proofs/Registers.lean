/-
# Lotbook.Proofs.Registers -- look-ups after changes, and sums over registers

What a register answers after an item was put in, taken out or revised, for every key at once. A sum
over the items of a register is a sum over any set of keys that covers them (`sum_items_eq_sum_keys`),
so that two registers can be compared key by key.
-/
import Lotbook.Register
import Mathlib.Algebra.BigOperators.Group.Finset.Basic
import Mathlib.Algebra.BigOperators.Ring.Finset
import Mathlib.Data.Int.Basic

namespace Lotbook.Register

/-! ## Look-ups -/

section LookUp

variable {α κ : Type} [Keyed α κ] [Ranked κ] [DecidableEq κ]

theorem get?_put (x : α) (r : Register α) (k : κ) :
    (r.put x).get? k = if k = key x then some x else r.get? k := by
  split
  · rename_i h
    rw [h, get?_put_self]
  · rename_i h
    exact get?_put_of_ne h

theorem get?_put_of_key {x : α} {j : κ} (hx : key x = j) (r : Register α) (k : κ) :
    (r.put x).get? k = if k = j then some x else r.get? k := by
  rw [get?_put, hx]

theorem get?_erase (r : Register α) (j k : κ) :
    (r.erase j).get? k = if k = j then none else r.get? k := by
  split
  · rename_i h
    rw [h, get?_erase_self]
  · rename_i h
    exact get?_erase_of_ne h

theorem key_of_get? {r : Register α} {k : κ} {x : α} (h : r.get? k = some x) : key x = k :=
  (get?_eq_some_iff.mp h).2

/-- Revising an item under its own key changes the answer for that key only. -/
theorem get?_modify {f : α → α} (hf : ∀ x, key (f x) = key x) (r : Register α) (j k : κ) :
    (r.modify j f).get? k = if k = j then (r.get? k).map f else r.get? k := by
  rw [modify]
  cases hj : r.get? j with
  | none =>
    by_cases h : k = j
    · simp [h, hj]
    · simp [h]
  | some x =>
    have hk : key (f x) = j := (hf x).trans (key_of_get? hj)
    by_cases h : k = j
    · simp [h, hj, get?_put, hk]
    · simp [h, get?_put, hk]

theorem get?_foldl_erase (ks : List κ) (r : Register α) (k : κ) :
    (ks.foldl (fun r k => r.erase k) r).get? k = if k ∈ ks then none else r.get? k := by
  induction ks generalizing r with
  | nil => simp
  | cons j ks ih =>
    rw [List.foldl_cons, ih, get?_erase]
    by_cases hk : k ∈ ks <;> by_cases hj : k = j <;> simp [hk, hj]

theorem contains_iff {r : Register α} {k : κ} : r.contains k = true ↔ ∃ x, r.get? k = some x :=
  Option.isSome_iff_exists

theorem mem_items_iff {r : Register α} {x : α} : x ∈ r.items ↔ r.get? (key x) = some x := by
  simp [get?_eq_some_iff]

theorem mem_keys_iff {r : Register α} {k : κ} : k ∈ r.keys ↔ ∃ x, r.get? k = some x := by
  simp only [keys, List.mem_map, get?_eq_some_iff]

theorem eq_or_mem_of_mem_put {r : Register α} {x y : α} (h : y ∈ (r.put x).items) :
    y = x ∨ y ∈ r.items := by
  rw [mem_items_iff, get?_put] at h
  split at h
  · exact .inl (Option.some.inj h).symm
  · exact .inr (mem_items_iff.mpr h)

/-- Putting in what is there already changes nothing, and of two items with one key the last stays. -/
theorem put_of_get? {x : α} {r : Register α} (h : r.get? (key x) = some x) : r.put x = r := by
  refine ext_get? fun k => ?_
  rw [get?_put]
  split
  · rename_i hk
    rw [hk, h]
  · rfl

theorem put_put {x y : α} (h : key x = key y) (r : Register α) : (r.put x).put y = r.put y := by
  refine ext_get? fun k => ?_
  rw [get?_put, get?_put, get?_put, h]
  split <;> rfl

/-- An item that was not there is put in and taken out again. -/
theorem erase_put {x : α} {r : Register α} (h : r.get? (key x) = none) : (r.put x).erase (key x) = r := by
  refine ext_get? fun k => ?_
  rw [get?_erase, get?_put]
  split
  · rename_i hk
    rw [hk, h]
  · rfl

theorem mem_of_mem_erase {r : Register α} {k : κ} {x : α} (h : x ∈ (r.erase k).items) :
    x ∈ r.items := by
  rw [mem_items_iff, get?_erase] at h
  split at h
  · cases h
  · exact mem_items_iff.mpr h

/-- Items with keys of their own that are put into a register are all found in it, and what has none of
their keys is found as before. -/
theorem get?_foldl_put {xs : List α} (h : (xs.map key).Nodup) (r : Register α) (k : κ) :
    (∀ x ∈ xs, key x = k → (xs.foldl (fun r x => r.put x) r).get? k = some x) ∧
      (k ∉ xs.map key → (xs.foldl (fun r x => r.put x) r).get? k = r.get? k) := by
  induction xs generalizing r with
  | nil => exact ⟨fun _ hx => (List.not_mem_nil hx).elim, fun _ => rfl⟩
  | cons y ys ih =>
    obtain ⟨hy, hys⟩ := List.nodup_cons.mp h
    obtain ⟨hmem, hnot⟩ := ih hys (r.put y)
    refine ⟨fun x hx hk => ?_, fun hk => ?_⟩
    · rcases List.mem_cons.mp hx with rfl | hx
      · rw [List.foldl_cons, hnot (hk ▸ hy), ← hk, get?_put_self]
      · exact hmem x hx hk
    · rw [List.map_cons, List.mem_cons, not_or] at hk
      rw [List.foldl_cons, hnot hk.2, get?_put_of_ne hk.1]

/-- Items with keys of their own are all found in a register made of them, and nothing else is. -/
theorem get?_ofList {xs : List α} (h : (xs.map key).Nodup) (k : κ) :
    (∀ x ∈ xs, key x = k → (ofList xs).get? k = some x) ∧
      (k ∉ xs.map key → (ofList xs).get? k = none) :=
  get?_foldl_put h empty k

end LookUp

theorem nodup_keys {α κ : Type} [Keyed α κ] [Ranked κ] (r : Register α) : r.keys.Nodup :=
  List.pairwise_map.mpr (r.sorted.imp Ranked.ne_of_lt)

/-- A sum over items is a sum over keys, of which any that have no item may be among them. -/
theorem sum_items_eq_sum_keys {α κ M : Type} [Keyed α κ] [Ranked κ] [DecidableEq κ] [AddCommMonoid M]
    (r : Register α) (f : α → M) (keys : Finset κ) (h : ∀ k ∈ r.keys, k ∈ keys) :
    (r.items.map f).sum = ∑ k ∈ keys, ((r.get? k).map f).getD 0 := by
  have hitems : r.items.map f = r.keys.map fun k => ((r.get? k).map f).getD 0 := by
    rw [Register.keys, List.map_map]
    refine List.map_congr_left fun x hx => ?_
    rw [Function.comp_apply, mem_items_iff.mp hx]
    rfl
  rw [hitems, ← List.sum_toFinset _ r.nodup_keys]
  refine Finset.sum_subset (fun k hk => h k (List.mem_toFinset.mp hk)) fun k _ hk => ?_
  have hnone : r.get? k = none := by
    by_contra hsome
    exact hk (List.mem_toFinset.mpr (mem_keys_iff.mpr (Option.ne_none_iff_exists'.mp hsome)))
  rw [hnone]
  rfl

/-- Registers whose items differ in what they count, under some keys only, differ in their sums by
what these keys differ in. -/
theorem sum_items_of_change {α κ M : Type} [Keyed α κ] [Ranked κ] [DecidableEq κ] [AddCommMonoid M]
    {r r' : Register α} {f : α → M} (keys : Finset κ) (change : κ → M)
    (h : ∀ k, ((r'.get? k).map f).getD 0 =
      ((r.get? k).map f).getD 0 + if k ∈ keys then change k else 0) :
    (r'.items.map f).sum = (r.items.map f).sum + ∑ k ∈ keys, change k := by
  set all := keys ∪ (r.keys.toFinset ∪ r'.keys.toFinset) with hall
  have hkeys : all ∩ keys = keys := Finset.inter_eq_right.mpr Finset.subset_union_left
  rw [sum_items_eq_sum_keys r' f all (by simp +contextual [hall]),
    sum_items_eq_sum_keys r f all (by simp +contextual [hall]),
    Finset.sum_congr rfl fun k _ => h k, Finset.sum_add_distrib, Finset.sum_ite_mem, hkeys]

section Sums

variable {α κ : Type} [Keyed α κ] [Ranked κ] [DecidableEq κ] (r : Register α) (f : α → Int)

/-- Putting an item in adds what it counts, less what the item counted that it replaces. -/
theorem sum_put (x : α) :
    ((r.put x).items.map f).sum + ((r.get? (key x)).map f).getD 0 = (r.items.map f).sum + f x := by
  set keys := insert (key x) ((r.put x).keys.toFinset ∪ r.keys.toFinset) with hkeys
  have hmem : key x ∈ keys := Finset.mem_insert_self ..
  rw [sum_items_eq_sum_keys (r.put x) f keys (by simp +contextual [hkeys]),
    sum_items_eq_sum_keys r f keys (by simp +contextual [hkeys]),
    ← Finset.add_sum_erase keys _ hmem, ← Finset.add_sum_erase keys _ hmem]
  have hothers : ∑ k ∈ keys.erase (key x), (((r.put x).get? k).map f).getD 0 =
      ∑ k ∈ keys.erase (key x), ((r.get? k).map f).getD 0 :=
    Finset.sum_congr rfl fun k hk => by rw [get?_put, if_neg (Finset.ne_of_mem_erase hk)]
  rw [hothers, get?_put_self, Option.map_some, Option.getD_some]
  omega

/-- Taking an item out takes off what it counted. -/
theorem sum_erase (k : κ) :
    ((r.erase k).items.map f).sum + ((r.get? k).map f).getD 0 = (r.items.map f).sum := by
  set keys := insert k ((r.erase k).keys.toFinset ∪ r.keys.toFinset) with hkeys
  have hmem : k ∈ keys := Finset.mem_insert_self ..
  rw [sum_items_eq_sum_keys (r.erase k) f keys (by simp +contextual [hkeys]),
    sum_items_eq_sum_keys r f keys (by simp +contextual [hkeys]),
    ← Finset.add_sum_erase keys _ hmem, ← Finset.add_sum_erase keys _ hmem]
  have hothers : ∑ i ∈ keys.erase k, (((r.erase k).get? i).map f).getD 0 =
      ∑ i ∈ keys.erase k, ((r.get? i).map f).getD 0 :=
    Finset.sum_congr rfl fun i hi => by rw [get?_erase, if_neg (Finset.ne_of_mem_erase hi)]
  rw [hothers, get?_erase_self, Option.map_none, Option.getD_none]
  omega

/-- Of the items, only one is filed under a key. -/
theorem sum_at_key (k : κ) :
    (r.items.map fun x => if key x = k then f x else 0).sum = ((r.get? k).map f).getD 0 := by
  set keys := insert k r.keys.toFinset with hkeys
  rw [sum_items_eq_sum_keys r _ keys (by simp +contextual [hkeys]),
    Finset.sum_eq_single_of_mem k (Finset.mem_insert_self ..)]
  · cases hx : r.get? k with
    | none => rfl
    | some x => exact if_pos (key_of_get? hx)
  · intro i _ hi
    cases hx : r.get? i with
    | none => rfl
    | some x => exact if_neg fun hkey => hi ((key_of_get? hx).symm.trans hkey)

end Sums

end Lotbook.Register
