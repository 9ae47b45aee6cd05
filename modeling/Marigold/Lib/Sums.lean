import Mathlib.Algebra.BigOperators.Finprod
import Marigold.Lib.Updates

/-!
# Sums over finite stores

What the entries of a finite store sum up to in a commutative group. An update that fits the store moves the sum by
what it takes out and puts in, so a sum can be kept without the store.
-/

namespace Marigold.Lib

variable {K V G : Type} [AddCommGroup G] {f : K → V → G} {store : K → Option V} {g : G}

/-- The store is finite and its entries sum up to `g`. -/
structure SumsTo (f : K → V → G) (store : K → Option V) (g : G) : Prop where
  finite : {k | store k ≠ none}.Finite
  sum : ∑ᶠ k, (store k).elim 0 (f k) = g

namespace SumsTo

theorem empty : SumsTo f (fun _ : K => (none : Option V)) 0 := by
  refine ⟨by simp, ?_⟩
  simp [finsum_zero]

theorem support_finite (before : SumsTo f store g) : (Function.support fun k => (store k).elim 0 (f k)).Finite := by
  refine before.finite.subset fun k live none => live ?_
  simp only [none, Option.elim_none]

variable [DecidableEq K]

private theorem support_single (k : K) (x : G) : (Function.support (Pi.single k x : K → G)).Finite :=
  (Set.finite_singleton k).subset Pi.support_single_subset

private theorem finsum_single (k : K) (x : G) : ∑ᶠ k', (Pi.single k x : K → G) k' = x := by
  rw [finsum_eq_single _ k fun k' other => by simp [other], Pi.single_eq_same]

theorem remove {k : K} {v : V} (before : SumsTo f store g) (there : store k = some v) :
    SumsTo f (Function.update store k none) (g - f k v) := by
  refine ⟨before.finite.subset fun k' live gone => live ?_, ?_⟩
  · rw [Function.update_apply, gone, ite_self]
  · have parts : (fun k' => (Function.update store k none k').elim 0 (f k')) =
        fun k' => (store k').elim 0 (f k') - (Pi.single k (f k v) : K → G) k' := by
      funext k'
      by_cases here : k' = k
      · subst here
        simp [there]
      · simp [here]
    rw [parts, finsum_sub_distrib before.support_finite (support_single k _), before.sum, finsum_single]

theorem add {k : K} {v : V} (before : SumsTo f store g) (absent : store k = none) :
    SumsTo f (Function.update store k (some v)) (g + f k v) := by
  refine ⟨(before.finite.insert k).subset fun k' live => ?_, ?_⟩
  · by_cases here : k' = k
    · exact .inl here
    · refine .inr fun gone => live ?_
      rw [Function.update_of_ne here, gone]
  · have parts : (fun k' => (Function.update store k (some v) k').elim 0 (f k')) =
        fun k' => (store k').elim 0 (f k') + (Pi.single k (f k v) : K → G) k' := by
      funext k'
      by_cases here : k' = k
      · subst here
        simp [absent]
      · simp [here]
    rw [parts, finsum_add_distrib before.support_finite (support_single k _), before.sum, finsum_single]

/-- The entries' own sum. -/
def ofEntries (f : K → V → G) (entries : List (K × V)) : G := (entries.map fun entry => f entry.1 entry.2).sum

section

variable {entries : List (K × V)} (before : SumsTo f store g) (nodup : (entries.map Prod.fst).Nodup)

include before nodup

theorem removeAll (there : ∀ entry ∈ entries, store entry.1 = some entry.2) :
    SumsTo f (Lib.removeAll store (entries.map Prod.fst)) (g - ofEntries f entries) := by
  refine removeAll_induction (P := fun done now => SumsTo f now (g - ofEntries f done)) nodup
    (by simpa [ofEntries] using before) ?_
  intro done entry now member same summed
  have removed := summed.remove (same.trans (there entry member))
  simpa [ofEntries, sub_sub] using removed

theorem addAll (fresh : ∀ k ∈ entries.map Prod.fst, store k = none) :
    SumsTo f (Lib.addAll store entries) (g + ofEntries f entries) := by
  refine addAll_induction (P := fun done now => SumsTo f now (g + ofEntries f done)) nodup
    (by simpa [ofEntries] using before) ?_
  intro done entry now member same summed
  have added := summed.add (v := entry.2) (same.trans (fresh entry.1 (List.mem_map_of_mem member)))
  simpa [ofEntries, add_assoc] using added

end

theorem update {u : Update K V} {spent : List (K × V)} (before : SumsTo f store g) (fits : u.Fits store)
    (keys : spent.map Prod.fst = u.spent) (there : ∀ entry ∈ spent, store entry.1 = some entry.2) :
    SumsTo f (u.apply store) (g + (ofEntries f u.created - ofEntries f spent)) := by
  rw [← add_sub_assoc, add_sub_right_comm]
  have removed := before.removeAll (keys ▸ fits.spentNodup) there
  rw [keys] at removed
  refine removed.addAll fits.createdNodup fun k member => ?_
  simp [Lib.removeAll, fits.fresh k member]

end SumsTo

end Marigold.Lib
