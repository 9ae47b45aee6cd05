import Marigold.Utxo.Diff

/-!
# Merging UTXO diffs

`with_diff_in_place` works on whole collections: it splits the second diff's removals by what they
find among the first one's additions, and the other way round. Outpoint by outpoint that is the
merge of two cells.
-/

namespace Marigold.Utxo

open Lib

namespace UtxoCollection

theorem intersectsWithRule_eq_some {this other : UtxoCollection}
    {rule : TransactionOutpoint → UtxoEntry → UtxoEntry → Bool} {o : TransactionOutpoint}
    (found : this.intersectsWithRule other rule = some o) :
    ∃ a b, this.lookup o = some a ∧ other.lookup o = some b ∧ rule o a b = true := by
  -- Whichever collection is iterated, the offending entry is in both.
  have search : ∀ (m m' : UtxoCollection) (test : Entry → UtxoEntry → Bool) (e : Entry),
      (m.entries.find? fun e => (m'.lookup e.1).any (test e)) = some e →
      m.lookup e.1 = some e.2 ∧ ∃ b, m'.lookup e.1 = some b ∧ test e b = true := by
    intro m m' test e here
    have facts := List.find?_some here
    exact ⟨Map.lookup_eq_some_iff.mpr (List.mem_of_find?_eq_some here), (Option.any_eq_true _ _).mp facts⟩
  unfold intersectsWithRule at found
  split_ifs at found
  · obtain ⟨e, here, rfl⟩ := Option.map_eq_some_iff.mp found
    obtain ⟨inThis, b, inOther, holds⟩ := search this other (fun e v => rule e.1 e.2 v) e here
    exact ⟨e.2, b, inThis, inOther, holds⟩
  · obtain ⟨e, here, rfl⟩ := Option.map_eq_some_iff.mp found
    obtain ⟨inOther, a, inThis, holds⟩ := search other this (fun e v => rule e.1 v e.2) e here
    exact ⟨a, e.2, inThis, inOther, holds⟩

theorem lookup_removeCollection (this other : UtxoCollection) (o : TransactionOutpoint) :
    (this.removeCollection other).lookup o =
      if (other.lookup o).isSome then none else this.lookup o := by
  unfold removeCollection
  rw [Map.foldl_entries_local _ (fun m k => AList.lookup k m) (fun _ _ => none)
    (fun m k v => AList.lookup_erase k m) (fun m k v k' differ => AList.lookup_erase_ne differ)]
  cases other.lookup o <;> rfl

/-- Where the outpoints of `this` end up: those found in `other` with the same score in the
intersection, the others in the remainder. -/
theorem lookup_intersectionWithRemainder (this other remainder : UtxoCollection) (o : TransactionOutpoint) :
    ((this.intersectionWithRemainder other remainder).1.lookup o,
        (this.intersectionWithRemainder other remainder).2.lookup o) =
      (this.lookup o).elim (none, remainder.lookup o) fun e =>
        if (other.lookup o).any (sameDaaScore · e) then (some e, remainder.lookup o)
        else (none, some e) := by
  let step : UtxoCollection × UtxoCollection → Entry → UtxoCollection × UtxoCollection :=
    fun acc e =>
      if containsWithDaaScore other e.1 e.2.blockDaaScore then (acc.1.insert e.1 e.2, acc.2)
      else (acc.1, acc.2.insert e.1 e.2)
  let view : UtxoCollection × UtxoCollection → TransactionOutpoint →
      (Option UtxoEntry × Option UtxoEntry) × Option UtxoEntry :=
    fun acc k => ((acc.1.lookup k, acc.2.lookup k), other.lookup k)
  have contains : ∀ k (e : UtxoEntry), containsWithDaaScore other k e.blockDaaScore =
      (other.lookup k).any (sameDaaScore · e) := fun _ _ => rfl
  have looped := Map.foldl_entries_local step view
    (fun e found => (if found.2.any (sameDaaScore · e) then (some e, found.1.2)
      else (found.1.1, some e), found.2))
    (fun acc k e => by
      simp only [step, view, contains]
      split_ifs <;> simp)
    (fun acc k e k' differ => by
      simp only [step, view, contains]
      split_ifs <;> simp [differ])
    this (∅, remainder) o
  have split := congrArg Prod.fst looped
  cases here : this.lookup o with
  | none =>
    rw [here] at split
    exact split
  | some e =>
    rw [here] at split
    exact split

end UtxoCollection

namespace UtxoDiff

private theorem cell_mergeRemovals (self : UtxoDiff) (removed : UtxoCollection) (o : TransactionOutpoint) :
    (self.mergeRemovals removed).cell o =
      (removed.lookup o).elim (self.cell o) ((self.cell o).mergeRemove sameDaaScore) := by
  have split := UtxoCollection.lookup_intersectionWithRemainder removed self.add self.remove o
  have cell_eq : (self.mergeRemovals removed).cell o =
      ⟨if ((removed.intersectionWithRemainder self.add self.remove).1.lookup o).isSome then none
        else self.add.lookup o, (removed.intersectionWithRemainder self.add self.remove).2.lookup o⟩ :=
    Cell.ext (UtxoCollection.lookup_removeCollection _ _ o) rfl
  rw [cell_eq]
  cases here : removed.lookup o with
  | none =>
    rw [here] at split
    obtain ⟨kept, rest⟩ := Prod.mk.inj split
    rw [kept, rest]
    rfl
  | some e =>
    simp only [here, Option.elim_some] at split ⊢
    unfold Cell.mergeRemove
    split_ifs at split with cancels
    · obtain ⟨kept, rest⟩ := Prod.mk.inj split
      have found : (self.cell o).add.any (sameDaaScore · e) = true := cancels
      rw [kept, rest, if_pos found]
      rfl
    · obtain ⟨kept, rest⟩ := Prod.mk.inj split
      have missing : ¬ (self.cell o).add.any (sameDaaScore · e) = true := cancels
      rw [kept, rest, if_neg missing]
      rfl

private theorem cell_mergeAdditions (self : UtxoDiff) (added : UtxoCollection) (o : TransactionOutpoint) :
    (self.mergeAdditions added).cell o = (added.lookup o).elim (self.cell o) ((self.cell o).mergeAdd sameDaaScore) := by
  have swapped : self.mergeAdditions added = (self.reversed.mergeRemovals added).reversed := rfl
  rw [swapped, cell_reversed, cell_mergeRemovals]
  cases added.lookup o with
  | none => rfl
  | some e => exact Cell.reverse_mergeRemove _ (self.cell o) e

theorem withDiffInPlace_cases (self other : UtxoDiff) : (∃ o, (self.cell o).RemovesTwice sameDaaScore (other.cell o) ∧
        self.withDiffInPlace other = (.error (.duplicateRemovePoint o), self)) ∨
      (∃ o, (self.cell o).AddsTwice sameDaaScore (other.cell o) ∧
        self.withDiffInPlace other = (.error (.duplicateAddPoint o), self)) ∨
      ∃ merged, self.withDiffInPlace other = (.ok (), merged) ∧
        ∀ o, merged.cell o = (self.cell o).merge sameDaaScore (other.cell o) := by
  unfold withDiffInPlace
  split
  next o found =>
    obtain ⟨a, b, removes, removed, kept⟩ := UtxoCollection.intersectsWithRule_eq_some found
    refine .inl ⟨o, ⟨a, removes, Option.isSome_of_eq_some removed, ?_⟩, rfl⟩
    exact Bool.not_eq_true _ ▸ Bool.not_eq_true' _ ▸ kept
  · split
    next o found =>
      obtain ⟨a, b, adds, added, kept⟩ := UtxoCollection.intersectsWithRule_eq_some found
      refine .inr (.inl ⟨o, ⟨Option.isSome_of_eq_some adds, b, added, ?_⟩, rfl⟩)
      exact Bool.not_eq_true _ ▸ Bool.not_eq_true' _ ▸ kept
    · refine .inr (.inr ⟨_, rfl, fun o => ?_⟩)
      rw [cell_mergeAdditions, cell_mergeRemovals]
      rfl

/-- A difference over what the receiver's difference leads to merges without an error, if no entry
it leads to has the outpoint and the score of another one in the base. -/
theorem withDiffInPlace_difference {self other : UtxoDiff} {base view view' : UtxoView}
    (first : IsDifference self.cell base view) (second : IsDifference other.cell view view')
    (faithful : ∀ o old new, base o = some old → view' o = some new → sameDaaScore old new → old = new) :
    ∃ merged, self.withDiffInPlace other = (.ok (), merged) ∧ IsDifference merged.cell base view' := by
  have valid := first.represents.valid_after second.represents
  rcases withDiffInPlace_cases self other with ⟨o, twice, _⟩ | ⟨o, twice, _⟩ | ⟨merged, ok, cells⟩
  · exact absurd twice (Cell.not_removesTwice sameDaaScore_refl (first.represents o).1 (valid o))
  · exact absurd twice (Cell.not_addsTwice sameDaaScore_refl (valid o))
  · refine ⟨merged, ok, fun o => ?_⟩
    rw [cells]
    exact first.merge sameDaaScore_refl second faithful o

theorem reversed_difference {diff : UtxoDiff} {a b : UtxoView}
    (difference : IsDifference diff.cell a b) : IsDifference diff.reversed.cell b a :=
  difference.reverse

end UtxoDiff

end Marigold.Utxo
