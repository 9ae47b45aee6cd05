import Mathlib.Algebra.GroupWithZero.Nat
import Mathlib.Algebra.Order.BigOperators.Group.List
import Mathlib.Algebra.Order.Group.Nat
import Mathlib.Data.Finmap
import Marigold.Lib.Map
import Marigold.Lib.Updates

/-!
# Totals

The total value of a finite store, whatever map it is kept in. An update that fits the store moves
the total by what it takes out and puts in.
-/

namespace Marigold.Lib

variable {K V : Type} [DecidableEq K] {value : V → Nat}

namespace Map

def total (value : V → Nat) (m : Map K V) : Nat := (m.entries.map fun entry => value entry.2).sum

variable {m m' : Map K V} {k : K} {v : V}

theorem total_eq_of_lookup (same : ∀ k, m.lookup k = m'.lookup k) : m.total value = m'.total value := by
  have equal : m.toFinmap = m'.toFinmap := by
    apply Finmap.ext_lookup
    intro k
    rw [Finmap.lookup_toFinmap, Finmap.lookup_toFinmap]
    exact same k
  have perm : m.entries.Perm m'.entries := AList.toFinmap_eq.mp equal
  exact (perm.map fun entry => value entry.2).sum_eq

theorem total_insert (value : V → Nat) (absent : m.lookup k = none) :
    total value (m.insert k v) = value v + m.total value := by
  have fresh : k ∉ m := AList.lookup_eq_none.mp absent
  rw [total, AList.entries_insert_of_notMem fresh, List.map_cons, List.sum_cons, total]

theorem total_erase (value : V → Nat) (there : m.lookup k = some v) :
    total value (m.erase k) + value v = m.total value := by
  have back : ∀ k', ((m.erase k).insert k v).lookup k' = m.lookup k' := by
    intro k'
    rw [lookup_insert_eq, lookup_erase_eq]
    split_ifs with here
    · rw [here, there]
    · rfl
  rw [← total_eq_of_lookup back, total_insert _ (AList.lookup_erase k m), Nat.add_comm]

theorem total_one (m : Map K V) : m.total (fun _ => 1) = m.entries.length := by simp [total]

theorem total_le_of_submap (sub : ∀ k v, m'.lookup k = some v → m.lookup k = some v) :
    m'.total value ≤ m.total value := by
  have inside : m'.entries ⊆ m.entries := fun entry member =>
    lookup_eq_some_iff.mp (sub entry.1 entry.2 (lookup_eq_some_iff.mpr member))
  obtain ⟨middle, same, fewer⟩ := List.subperm_of_subset m'.nodupKeys.nodup inside
  rw [total, ← (same.map fun entry => value entry.2).sum_eq]
  exact (fewer.map fun entry => value entry.2).sum_le_sum fun _ _ => Nat.zero_le _

/-- A map that lost keys lost at least their values. -/
theorem total_add_le_of_submap (value : V → Nat) {keys : List K} (sub : ∀ k v, m'.lookup k = some v → m.lookup k = some v)
    (nodup : keys.Nodup) (gone : ∀ k ∈ keys, m'.lookup k = none) :
    m'.total value + (keys.map fun k => (m.lookup k).elim 0 value).sum ≤ m.total value := by
  induction keys generalizing m with
  | nil => exact total_le_of_submap sub
  | cons k rest ih =>
    rw [List.nodup_cons] at nodup
    rw [List.forall_mem_cons] at gone
    rw [List.map_cons, List.sum_cons]
    cases there : m.lookup k with
    | none =>
      rw [Option.elim_none, Nat.zero_add]
      exact ih sub nodup.2 gone.2
    | some v =>
      have sub' : ∀ k' v', m'.lookup k' = some v' → (m.erase k).lookup k' = some v' := by
        intro k' v' found
        rw [lookup_erase_eq, if_neg, sub k' v' found]
        rintro rfl
        exact nomatch found.symm.trans gone.1
      have same : (rest.map fun k' => ((m.erase k).lookup k').elim 0 value) =
          rest.map fun k' => (m.lookup k').elim 0 value := by
        refine List.map_congr_left fun k' member => ?_
        rw [lookup_erase_eq, if_neg]
        rintro rfl
        exact nodup.1 member
      have less := ih sub' nodup.2 gone.2
      have whole := total_erase value there
      rw [same] at less
      rw [Option.elim_some]
      omega

theorem sum_le_total (value : V → Nat) (m : Map K V) {keys : List K} (nodup : keys.Nodup) :
    (keys.map fun k => (m.lookup k).elim 0 value).sum ≤ m.total value := by
  have less : total value (∅ : Map K V) + _ ≤ m.total value :=
    total_add_le_of_submap value (fun _ _ found => nomatch found) nodup fun _ _ => rfl
  exact (Nat.le_add_left _ _).trans less

end Map

/-- The store is finite and its values sum up to `n`. -/
def Totals (value : V → Nat) (store : K → Option V) (n : Nat) : Prop :=
  ∃ m : Map K V, (∀ k, m.lookup k = store k) ∧ m.total value = n

namespace Totals

variable {store : K → Option V} {n n' : Nat}

theorem of_map (m : Map K V) : Totals value m.lookup (m.total value) := ⟨m, fun _ => rfl, rfl⟩

theorem unique (first : Totals value store n) (second : Totals value store n') : n = n' := by
  obtain ⟨m, reads, rfl⟩ := first
  obtain ⟨m', reads', rfl⟩ := second
  exact Map.total_eq_of_lookup fun k => (reads k).trans (reads' k).symm

theorem remove {k : K} {v : V} (before : Totals value store n) (there : store k = some v) :
    ∃ n', Totals value (Function.update store k none) n' ∧ n' + value v = n := by
  obtain ⟨m, reads, rfl⟩ := before
  refine ⟨_, ⟨m.erase k, ?_, rfl⟩, Map.total_erase value ((reads k).trans there)⟩
  intro k'
  rw [Map.lookup_erase_eq, Function.update_apply, reads]

theorem add {k : K} {v : V} (before : Totals value store n) (absent : store k = none) :
    Totals value (Function.update store k (some v)) (n + value v) := by
  obtain ⟨m, reads, rfl⟩ := before
  refine ⟨m.insert k v, ?_, ?_⟩
  · intro k'
    rw [Map.lookup_insert_eq, Function.update_apply, reads]
  · rw [Map.total_insert _ ((reads k).trans absent), Nat.add_comm]

/-- The value a store holds at a key. -/
def valueAt (value : V → Nat) (store : K → Option V) (k : K) : Nat := (store k).elim 0 value

theorem removeAll {keys : List K} (before : Totals value store n) (nodup : keys.Nodup)
    (live : ∀ k ∈ keys, (store k).isSome) :
    ∃ n', Totals value (Lib.removeAll store keys) n' ∧ n' + (keys.map (valueAt value store)).sum = n := by
  rw [← List.map_id keys] at nodup
  have removed := removeAll_induction (P := fun done now => ∃ n', Totals value now n' ∧
    n' + (done.map (valueAt value store)).sum = n) nodup ⟨n, before, rfl⟩ ?_
  · rwa [List.map_id] at removed
  rintro done k now member same ⟨n₁, totals, moved⟩
  obtain ⟨v, there⟩ := Option.isSome_iff_exists.mp (live k member)
  obtain ⟨n₂, less, taken⟩ := totals.remove (same.trans there)
  refine ⟨n₂, less, ?_⟩
  simp only [List.map_append, List.sum_append, List.map_singleton, List.sum_singleton, valueAt, there,
    Option.elim_some] at moved ⊢
  omega

theorem addAll {entries : List (K × V)} (before : Totals value store n)
    (nodup : (entries.map Prod.fst).Nodup) (fresh : ∀ k ∈ entries.map Prod.fst, store k = none) :
    Totals value (Lib.addAll store entries) (n + (entries.map fun entry => value entry.2).sum) := by
  refine addAll_induction (P := fun done now => Totals value now
    (n + (done.map fun entry => value entry.2).sum)) nodup (by simpa using before) ?_
  intro done entry now member same totals
  have added := totals.add (v := entry.2) (same.trans (fresh entry.1 (List.mem_map_of_mem member)))
  simpa [Nat.add_assoc] using added

theorem update {u : Update K V} (before : Totals value store n) (fits : u.Fits store) :
    ∃ n', Totals value (u.apply store) n' ∧ n' + (u.spent.map (valueAt value store)).sum =
      n + (u.created.map fun entry => value entry.2).sum := by
  obtain ⟨n₁, removed, moved⟩ := before.removeAll fits.spentNodup fits.live
  have fresh : ∀ k ∈ u.created.map Prod.fst, Lib.removeAll store u.spent k = none := by
    intro k member
    simp [Lib.removeAll, fits.fresh k member]
  exact ⟨_, removed.addAll fits.createdNodup fresh, by omega⟩

end Totals

end Marigold.Lib
