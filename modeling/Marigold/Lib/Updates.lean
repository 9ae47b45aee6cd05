import Mathlib.Data.List.Nodup
import Marigold.Lib.Overlay

/-!
# Updates and their footprints

An update of a store takes some keys out and puts entries in at others. What it does at a key
depends on that key alone, so updates that touch no common key can be checked against one snapshot
and applied in any order.
-/

namespace Marigold.Lib

structure Update (K V : Type) where
  spent : List K
  created : List (K × V)

namespace Update

variable {K V : Type} [DecidableEq K] {u v : Update K V} {us : List (Update K V)} {store store' : K → Option V} {k : K}

def apply (u : Update K V) (store : K → Option V) : K → Option V :=
  addAll (removeAll store u.spent) u.created

/-- The footprint. -/
def keys (u : Update K V) : List K := u.spent ++ u.created.map Prod.fst

theorem apply_of_notMem (outside : k ∉ u.keys) : u.apply store k = store k := by
  simp only [keys, List.mem_append, not_or] at outside
  simp [apply, addAll, removeAll, outside.1, lookup_eq_none_of_notMem outside.2]

theorem apply_congr (same : store k = store' k) : u.apply store k = u.apply store' k := by
  simp [apply, addAll, removeAll, same]

theorem apply_of_spent (spent : k ∈ u.spent) (fresh : k ∉ u.created.map Prod.fst) : u.apply store k = none := by
  simp [apply, addAll, removeAll, spent, lookup_eq_none_of_notMem fresh]

theorem apply_eq_some {entry : V} (there : u.apply store k = some entry) :
    (store k = some entry ∧ k ∉ u.spent) ∨ (k, entry) ∈ u.created := by
  rw [apply, addAll, Option.or_eq_some_iff] at there
  rcases there with found | ⟨_, kept⟩
  · exact .inr (mem_of_lookup found)
  · rw [removeAll] at kept
    split_ifs at kept with spent
    exact .inl ⟨kept, spent⟩

theorem apply_of_gone (gone : store k = none) (fresh : k ∉ u.created.map Prod.fst) : u.apply store k = none := by
  simp [apply, addAll, removeAll, gone, lookup_eq_none_of_notMem fresh]

/-! ## Batches -/

/-- Updates applied one after another. -/
def applyAll (us : List (Update K V)) (store : K → Option V) : K → Option V :=
  us.foldl (fun store u => u.apply store) store

/-- No common key. -/
def Apart (u v : Update K V) : Prop := u.keys.Disjoint v.keys

omit [DecidableEq K] in
theorem Apart.symm (apart : Apart u v) : Apart v u :=
  fun _ inV inU => apart inU inV

theorem applyAll_of_untouched (outside : ∀ u ∈ us, k ∉ u.keys) : applyAll us store k = store k := by
  induction us generalizing store with
  | nil => rfl
  | cons u rest ih =>
    rw [List.forall_mem_cons] at outside
    change applyAll rest (u.apply store) k = store k
    rw [ih outside.2, apply_of_notMem outside.1]

/-- Among updates that are apart, a key sees the one that touches it and no other. -/
theorem applyAll_of_touched (apart : us.Pairwise Apart) (member : u ∈ us) (inside : k ∈ u.keys) :
    applyAll us store k = u.apply store k := by
  induction us generalizing store with
  | nil => cases member
  | cons first rest ih =>
    rw [List.pairwise_cons] at apart
    change applyAll rest (first.apply store) k = u.apply store k
    rcases List.mem_cons.mp member with rfl | later
    · exact applyAll_of_untouched fun v hv => apart.1 v hv inside
    · have skipped : first.apply store k = store k :=
        apply_of_notMem fun touched => apart.1 u later touched inside
      rw [ih apart.2 later]
      exact apply_congr skipped

theorem applyAll_perm {us' : List (Update K V)} (apart : us.Pairwise Apart) (perm : us.Perm us') :
    applyAll us store = applyAll us' store := by
  have apart' : us'.Pairwise Apart := (perm.pairwise_iff fun apart => apart.symm).mp apart
  funext k
  by_cases touched : ∃ u ∈ us, k ∈ u.keys
  · obtain ⟨u, member, inside⟩ := touched
    rw [applyAll_of_touched apart member inside, applyAll_of_touched apart' (perm.mem_iff.mp member) inside]
  · have outside : ∀ u ∈ us, k ∉ u.keys := fun u member inside => touched ⟨u, member, inside⟩
    rw [applyAll_of_untouched outside, applyAll_of_untouched fun u member => outside u (perm.mem_iff.mpr member)]

/-! ## Updates that fit a store -/

/-- What is taken out is there, what is put in is not, and no key is named twice. -/
structure Fits (u : Update K V) (store : K → Option V) : Prop where
  spentNodup : u.spent.Nodup
  live : ∀ k ∈ u.spent, (store k).isSome
  createdNodup : (u.created.map Prod.fst).Nodup
  fresh : ∀ k ∈ u.created.map Prod.fst, store k = none

omit [DecidableEq K] in
theorem Fits.of_agree (fits : Fits u store) (agree : ∀ k ∈ u.keys, store' k = store k) : Fits u store' where
  spentNodup := fits.spentNodup
  live k member := by
    rw [agree k (List.mem_append_left _ member)]
    exact fits.live k member
  createdNodup := fits.createdNodup
  fresh k member := by
    rw [agree k (List.mem_append_right _ member)]
    exact fits.fresh k member

theorem Fits.takes_out (fits : Fits u store) (spent : k ∈ u.spent) : u.apply store k = none := by
  refine apply_of_spent spent fun created => ?_
  have there := fits.live k spent
  rw [fits.fresh k created] at there
  cases there

end Update

end Marigold.Lib
