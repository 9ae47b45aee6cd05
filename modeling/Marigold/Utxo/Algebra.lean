import Marigold.Utxo.Merge

/-!
# The algebra of UTXO diffs

Two diffs over a common base: `with_diff` takes one after the other, `diff_from` asks what leads from
one to the other. Outpoint by outpoint a diff is the difference of two values, and the two functions
compose and subtract such differences. Both tell entries of an outpoint apart by DAA score alone, so
the laws need scores to determine entries.
-/

namespace Marigold.Utxo

open Lib

namespace UtxoCollection

/-- Whether some outpoint is in both collections; the smaller one is iterated. -/
def intersects (this other : UtxoCollection) : Bool :=
  if this.entries.length ≤ other.entries.length then this.keys.any (· ∈ other)
  else other.keys.any (· ∈ this)

/-- `result ∪ (this ∖ other)`, with equality also on the DAA score. -/
def subtraction (this other result : UtxoCollection) : UtxoCollection :=
  this.entries.foldl (fun (acc : UtxoCollection) (e : Entry) =>
    if !containsWithDaaScore other e.1 e.2.blockDaaScore then acc.insert e.1 e.2 else acc) result

/-- `(result ∪ (this ∖ other), remainder ∪ (this ∩ other))`, with equality also on the DAA score. -/
def subtractionWithRemainder (this other result remainder : UtxoCollection) : UtxoCollection × UtxoCollection :=
  this.entries.foldl (fun (acc : UtxoCollection × UtxoCollection) (e : Entry) =>
    if !containsWithDaaScore other e.1 e.2.blockDaaScore then (acc.1.insert e.1 e.2, acc.2)
    else (acc.1, acc.2.insert e.1 e.2)) (result, remainder)

end UtxoCollection

namespace UtxoDiff

variable (self other : UtxoDiff)

/-- A changed copy of the receiver. -/
def withDiff : Except UtxoAlgebraError UtxoDiff :=
  match self.withDiffInPlace other with
  | (.ok _, merged) => .ok merged
  | (.error e, _) => .error e

/-- The rule of the first check: an outpoint this diff removes and the other one adds. -/
def addedOutputRemoved (outpoint : TransactionOutpoint) (thisEntry otherEntry : UtxoEntry) : Bool :=
  !(otherEntry.blockDaaScore != thisEntry.blockDaaScore &&
    (self.add.containsWithDaaScore outpoint otherEntry.blockDaaScore ||
      other.remove.containsWithDaaScore outpoint thisEntry.blockDaaScore))

/-- The rule of the second check: an outpoint this diff adds and the other one removes. -/
def removedOutputAdded (outpoint : TransactionOutpoint) (thisEntry otherEntry : UtxoEntry) : Bool :=
  !(otherEntry.blockDaaScore != thisEntry.blockDaaScore &&
    (self.remove.containsWithDaaScore outpoint otherEntry.blockDaaScore ||
      other.add.containsWithDaaScore outpoint thisEntry.blockDaaScore))

/-- What leads from this diff to the other one. -/
def diffFrom : Except UtxoAlgebraError UtxoDiff :=
  match self.remove.intersectsWithRule other.add (addedOutputRemoved self other) with
  | some outpoint =>
    .error (.diffIntersectionPoint outpoint "both in self.add and in other.remove")
  | none =>
    match self.add.intersectsWithRule other.remove (removedOutputAdded self other) with
    | some outpoint =>
      .error (.diffIntersectionPoint outpoint "both in self.remove and in other.add")
    | none =>
      match self.remove.intersectsWithRule other.remove fun _ thisEntry otherEntry =>
          otherEntry.blockDaaScore != thisEntry.blockDaaScore with
      | some outpoint => .error (.diffIntersectionPoint outpoint
          ("both in self.remove and other.remove with different DAA scores, " ++
            "with no corresponding entry in self.add"))
      | none =>
        let (removed, inBothToAdd) := self.add.subtractionWithRemainder other.add ∅ ∅
        if inBothToAdd.intersects self.remove != inBothToAdd.intersects other.remove then
          .error (.general ("diff_from: outpoint both in self.add, other.add, and only one of " ++
            "self.remove and other.remove"))
        else
          .ok {
            add := other.add.subtraction self.add (self.remove.subtraction other.remove ∅)
            remove := other.remove.subtraction self.remove removed }

end UtxoDiff

/-! ## Collections outpoint by outpoint -/

namespace UtxoCollection

variable {this other : UtxoCollection}

theorem intersectsWithRule_eq_none {rule : TransactionOutpoint → UtxoEntry → UtxoEntry → Bool}
    (never : ∀ o a b, this.lookup o = some a → other.lookup o = some b → rule o a b = false) :
    this.intersectsWithRule other rule = none := by
  cases found : this.intersectsWithRule other rule with
  | none => rfl
  | some o =>
    obtain ⟨a, b, inThis, inOther, holds⟩ := intersectsWithRule_eq_some found
    exact absurd holds (by simp [never o a b inThis inOther])

theorem intersects_iff : this.intersects other = true ↔ ∃ o, o ∈ this ∧ o ∈ other := by
  unfold intersects
  split
  · simp [AList.mem_keys]
  · simp [AList.mem_keys, and_comm]

theorem lookup_subtraction (this other result : UtxoCollection) (o : TransactionOutpoint) :
    (this.subtraction other result).lookup o =
      (Cell.subtract sameDaaScore (this.lookup o) (other.lookup o)).or (result.lookup o) := by
  let view : UtxoCollection → TransactionOutpoint → Option UtxoEntry × Option UtxoEntry :=
    fun acc k => (acc.lookup k, other.lookup k)
  have contains : ∀ k (e : UtxoEntry), containsWithDaaScore other k e.blockDaaScore =
      (other.lookup k).any (sameDaaScore · e) := fun _ _ => rfl
  have looped := Map.foldl_entries_local (fun (acc : UtxoCollection) (e : Entry) =>
      if !containsWithDaaScore other e.1 e.2.blockDaaScore then acc.insert e.1 e.2 else acc) view
    (fun e found => (if !found.2.any (sameDaaScore · e) then some e else found.1, found.2))
    (fun acc k e => by
      simp only [view, contains]
      split_ifs <;> simp)
    (fun acc k e k' differ => by
      simp only [view, contains]
      split_ifs <;> simp [differ])
    this result o
  have found := congrArg Prod.fst looped
  unfold Cell.subtract
  cases here : this.lookup o with
  | none =>
    rw [here] at found
    exact found
  | some e =>
    rw [here] at found
    refine found.trans ?_
    simp only [view, Option.elim_some, Option.filter_some]
    split <;> rfl

variable (this other)

private theorem subtractionWithRemainder_eq :
    this.subtractionWithRemainder other ∅ ∅ = (this.intersectionWithRemainder other ∅).swap := by
  unfold subtractionWithRemainder intersectionWithRemainder
  change List.foldl _ (Prod.swap (∅, ∅)) _ = _
  refine List.foldl_hom Prod.swap fun acc e => ?_
  cases containsWithDaaScore other e.1 e.2.blockDaaScore <;> rfl

theorem lookup_subtractionWithRemainder (o : TransactionOutpoint) :
    (this.subtractionWithRemainder other ∅ ∅).1.lookup o = Cell.subtract sameDaaScore (this.lookup o) (other.lookup o) ∧
      (o ∈ (this.subtractionWithRemainder other ∅ ∅).2 → (this.lookup o).isSome ∧ (other.lookup o).isSome) := by
  rw [subtractionWithRemainder_eq, ← AList.lookup_isSome, Cell.subtract]
  have split := lookup_intersectionWithRemainder this other ∅ o
  cases here : this.lookup o with
  | none =>
    rw [here] at split
    obtain ⟨common, rest⟩ := Prod.mk.inj split
    exact ⟨rest, fun found => by simp [common] at found⟩
  | some e =>
    rw [here] at split
    simp only [Option.elim_some, Option.filter_some] at split ⊢
    split_ifs at split with same
    · obtain ⟨common, rest⟩ := Prod.mk.inj split
      obtain ⟨b, there, _⟩ := (Option.any_eq_true _ _).mp same
      refine ⟨rest.trans ?_, fun _ => ⟨rfl, by simp [there]⟩⟩
      rw [same]
      rfl
    · obtain ⟨common, rest⟩ := Prod.mk.inj split
      refine ⟨rest.trans ?_, fun found => by simp [common] at found⟩
      rw [Bool.not_eq_true] at same
      rw [same]
      rfl

end UtxoCollection

/-! ## The laws -/

namespace UtxoDiff

/-- Every removed entry is in the base, an added one is not, unless the outpoint is removed with
another score. -/
structure ValidOver (d : UtxoDiff) (base : UtxoView) : Prop where
  valid : ∀ o, (d.cell o).Valid (base o)
  apart : ∀ o a r, (d.cell o).add = some a → (d.cell o).remove = some r → ¬ sameDaaScore r a

/-- All entries the base and the diffs have for an outpoint. -/
def recorded (base : UtxoView) (diffs : List UtxoDiff) (o : TransactionOutpoint) : List UtxoEntry :=
  (base o).toList ++ diffs.flatMap fun d => (d.add.lookup o).toList ++ (d.remove.lookup o).toList

/-- Nowhere do two entries of an outpoint share a DAA score. -/
def ScoresDetermine (base : UtxoView) (diffs : List UtxoDiff) : Prop :=
  ∀ o, Cell.Distinguishes sameDaaScore (recorded base diffs o)

theorem ValidOver.isDifference {d : UtxoDiff} {base : UtxoView} (valid : d.ValidOver base) :
    IsDifference d.cell base (composedUtxoView base d) := by
  intro o
  rw [composedUtxoView_eq]
  apply Cell.eq_between_of_apart (valid.valid o)
  intro v adds removes
  exact valid.apart o v v adds removes (sameDaaScore_refl v)

section DiffFrom

variable {self other : UtxoDiff} {base view view' : UtxoView}

private theorem sides (difference : IsDifference self.cell base view) {o : TransactionOutpoint} :
    (∀ a, self.add.lookup o = some a → view o = some a ∧ self.remove.lookup o = base o) ∧
      (∀ r, self.remove.lookup o = some r → base o = some r) ∧ ∀ a, self.add.lookup o = some a → base o ≠ some a := by
  have here := difference o
  unfold cell Cell.between at here
  split at here
  · obtain ⟨added, removed⟩ := Cell.mk.inj here
    simp [added, removed]
  next differ =>
    obtain ⟨added, removed⟩ := Cell.mk.inj here
    rw [added, removed]
    exact ⟨fun a there => ⟨there, rfl⟩, fun r there => there, fun a there same => differ (same.trans there.symm)⟩

/-- Subtracting two differences over a base: no check fails, and the result is the difference of
what they lead to. -/
theorem diffFrom_difference (first : IsDifference self.cell base view) (second : IsDifference other.cell base view')
    (distinct : ∀ o, Cell.Distinguishes sameDaaScore ((base o).toList ++ (view o).toList ++ (view' o).toList)) :
    ∃ r, self.diffFrom other = .ok r ∧ IsDifference r.cell view view' := by
  have apart : ∀ o a r, base o = some r → (view o = some a ∨ view' o = some a) → r ≠ a →
      (a.blockDaaScore != r.blockDaaScore) = true := by
    intro o a r there led differ
    rw [bne_iff_ne]
    intro same
    apply differ
    refine distinct o r ?_ a ?_ (by simp [sameDaaScore, same])
    · simp [there]
    · rcases led with led | led <;> simp [led]
  -- An outpoint on both sides was in the base, and the diff that adds it removes it first.
  have noAddedRemoved : self.remove.intersectsWithRule other.add (addedOutputRemoved self other) =
      none := by
    apply UtxoCollection.intersectsWithRule_eq_none
    intro o r a removed added
    obtain ⟨led, removes⟩ := (sides second).1 a added
    have there := (sides first).2.1 r removed
    have differ : r ≠ a := fun same => (sides second).2.2 a added (same ▸ there)
    have found : other.remove.containsWithDaaScore o r.blockDaaScore = true := by
      simp [UtxoCollection.containsWithDaaScore, removes, there]
    simp [addedOutputRemoved, apart o a r there (.inr led) differ, found]
  have noRemovedAdded : self.add.intersectsWithRule other.remove (removedOutputAdded self other) =
      none := by
    apply UtxoCollection.intersectsWithRule_eq_none
    intro o a r added removed
    obtain ⟨led, removes⟩ := (sides first).1 a added
    have there := (sides second).2.1 r removed
    have differ : r ≠ a := fun same => (sides first).2.2 a added (same ▸ there)
    have found : self.remove.containsWithDaaScore o r.blockDaaScore = true := by
      simp [UtxoCollection.containsWithDaaScore, removes, there]
    have scores := apart o a r there (.inl led) differ
    rw [bne_comm] at scores
    simp [removedOutputAdded, scores, found]
  have noRemovedTwice : (self.remove.intersectsWithRule other.remove fun _ thisEntry otherEntry =>
      otherEntry.blockDaaScore != thisEntry.blockDaaScore) = none := by
    apply UtxoCollection.intersectsWithRule_eq_none
    intro o a b removed removed'
    have same := ((sides first).2.1 a removed).symm.trans ((sides second).2.1 b removed')
    simp [Option.some.inj same]
  -- What both add, both remove or neither does.
  have balanced : ∀ this : UtxoCollection, (∀ o ∈ this, (self.add.lookup o).isSome ∧ (other.add.lookup o).isSome) →
      this.intersects self.remove = this.intersects other.remove := by
    intro this both
    rw [Bool.eq_iff_iff, UtxoCollection.intersects_iff, UtxoCollection.intersects_iff]
    refine exists_congr fun o => and_congr_right fun member => ?_
    obtain ⟨⟨a, added⟩, ⟨b, added'⟩⟩ :=
      (both o member).imp Option.isSome_iff_exists.mp Option.isSome_iff_exists.mp
    rw [← AList.lookup_isSome, ← AList.lookup_isSome, ((sides first).1 a added).2, ((sides second).1 b added').2]
  have remainder : ∀ o ∈ (self.add.subtractionWithRemainder other.add ∅ ∅).2,
      (self.add.lookup o).isSome ∧ (other.add.lookup o).isSome := fun o =>
    (UtxoCollection.lookup_subtractionWithRemainder self.add other.add o).2
  unfold diffFrom
  rw [noAddedRemoved, noRemovedAdded, noRemovedTwice]
  simp only [balanced _ remainder, bne_self_eq_false, Bool.false_eq_true, if_false]
  refine ⟨_, rfl, fun o => ?_⟩
  rw [← Cell.between_diffFrom sameDaaScore_refl (distinct o), ← first o, ← second o]
  apply Cell.ext
  · simp [cell, Cell.diffFrom, UtxoCollection.lookup_subtraction]
  · simp [cell, Cell.diffFrom, UtxoCollection.lookup_subtraction,
      (UtxoCollection.lookup_subtractionWithRemainder self.add other.add o).1]

end DiffFrom

section Recorded

variable {d : UtxoDiff} {base : UtxoView} {diffs : List UtxoDiff} {o : TransactionOutpoint} {e : UtxoEntry}

theorem composed_cases (there : composedUtxoView base d o = some e) : d.add.lookup o = some e ∨ base o = some e := by
  rw [composedUtxoView_eq] at there
  cases adds : (d.cell o).add with
  | some new =>
    rw [Cell.apply_of_add adds] at there
    exact .inl (adds.trans there)
  | none =>
    rw [Cell.apply_of_not_add adds] at there
    split at there
    · cases there
    · exact .inr there

theorem mem_recorded_of_add (member : d ∈ diffs) (added : d.add.lookup o = some e) : e ∈ recorded base diffs o := by
  refine List.mem_append_right _ (List.mem_flatMap.mpr ⟨d, member, List.mem_append_left _ ?_⟩)
  exact Option.mem_toList.mpr added

theorem composed_mem_recorded (member : d ∈ diffs)
    (there : composedUtxoView base d o = some e) : e ∈ recorded base diffs o := by
  rcases composed_cases there with added | kept
  · exact mem_recorded_of_add member added
  · exact List.mem_append_left _ (Option.mem_toList.mpr kept)

end Recorded

end UtxoDiff

/-- Over a common base, with scores that determine entries: a diff composed with one that is valid
after it acts as the two in turn; what leads from one diff to another one does lead there, and is
what is found when it is asked for again. -/
theorem utxoDiff_laws (B : UtxoCollection) (d₁ d₂ d : UtxoDiff)
    (valid₁ : d₁.ValidOver B.lookup) (valid₂ : d₂.ValidOver B.lookup)
    (valid : d.ValidOver (B.writeDiff d₁).lookup)
    (scores : UtxoDiff.ScoresDetermine B.lookup [d₁, d])
    (scores' : UtxoDiff.ScoresDetermine B.lookup [d₁, d₂]) :
    (∃ merged, d₁.withDiffInPlace d = (.ok (), merged) ∧
        ∀ o, (B.writeDiff merged).lookup o = ((B.writeDiff d₁).writeDiff d).lookup o) ∧
      ∃ r, d₁.diffFrom d₂ = .ok r ∧
        ∃ w, d₁.withDiff r = .ok w ∧ (∀ o, w.cell o = d₂.cell o) ∧
          ∃ r', d₁.diffFrom w = .ok r' ∧ ∀ o, r'.cell o = r.cell o := by
  have written := funext fun o => UtxoCollection.lookup_writeDiff B d₁ o
  rw [written] at valid
  have first := valid₁.isDifference
  have second := valid₂.isDifference
  have after := valid.isDifference
  constructor
  · obtain ⟨merged, ok, difference⟩ := UtxoDiff.withDiffInPlace_difference first after (by
      intro o old new there led same
      have known : new ∈ UtxoDiff.recorded B.lookup [d₁, d] o := by
        rcases UtxoDiff.composed_cases led with added | kept
        · exact UtxoDiff.mem_recorded_of_add (by simp) added
        · exact UtxoDiff.composed_mem_recorded (by simp) kept
      exact scores o old (List.mem_append_left _ (Option.mem_toList.mpr there)) new known same)
    refine ⟨merged, ok, fun o => ?_⟩
    rw [UtxoCollection.lookup_writeDiff, UtxoCollection.lookup_writeDiff, written,
      composedUtxoView_eq]
    exact (difference.represents o).2
  · have distinct : ∀ o, Cell.Distinguishes sameDaaScore ((B.lookup o).toList ++
        (composedUtxoView B.lookup d₁ o).toList ++ (composedUtxoView B.lookup d₂ o).toList) := by
      intro o
      have known : ∀ e ∈ (B.lookup o).toList ++ (composedUtxoView B.lookup d₁ o).toList ++
          (composedUtxoView B.lookup d₂ o).toList, e ∈ UtxoDiff.recorded B.lookup [d₁, d₂] o := by
        simp only [List.mem_append, Option.mem_toList]
        rintro e ((there | there) | there)
        · exact List.mem_append_left _ (Option.mem_toList.mpr there)
        · exact UtxoDiff.composed_mem_recorded (by simp) there
        · exact UtxoDiff.composed_mem_recorded (by simp) there
      exact fun a inA b inB same => scores' o a (known a inA) b (known b inB) same
    obtain ⟨r, ok, difference⟩ := UtxoDiff.diffFrom_difference first second distinct
    obtain ⟨w, merged, difference'⟩ := UtxoDiff.withDiffInPlace_difference first difference (by
      intro o old new there led same
      exact distinct o old (by simp [there]) new (by simp [led]) same)
    have same : ∀ o, w.cell o = d₂.cell o := fun o => (difference' o).trans (second o).symm
    obtain ⟨r', ok', difference''⟩ := UtxoDiff.diffFrom_difference first difference' distinct
    refine ⟨r, ok, w, by rw [UtxoDiff.withDiff, merged], same, r', ok', fun o => ?_⟩
    rw [difference'' o, difference o]

namespace Sample

/-- The first output of transaction 7. -/
def outpoint : TransactionOutpoint := ⟨7, 0⟩

def entry (amount daaScore : UInt64) : UtxoEntry := ⟨amount, ⟨0, []⟩, daaScore, false, none⟩

def holding (e : UtxoEntry) : UtxoCollection := (∅ : UtxoCollection).insert outpoint e

/-- The outpoint removed with one entry and added with another one. -/
def replacing (old new : UtxoEntry) : UtxoDiff := ⟨holding new, holding old⟩

theorem lookup_holding (e : UtxoEntry) (o : TransactionOutpoint) :
    (holding e).lookup o = if o = outpoint then some e else none :=
  Map.lookup_insert_eq ∅ outpoint o e

theorem replacing_valid {old new : UtxoEntry} {base : UtxoView} (there : base outpoint = some old)
    (apart : ¬ sameDaaScore old new) : (replacing old new).ValidOver base where
  valid o := by
    by_cases here : o = outpoint
    · subst here
      refine ⟨fun v removed => ?_, fun _ => .inr ?_⟩
      · rw [there]
        exact removed
      · exact AList.lookup_isSome.mpr (AList.mem_insert _ |>.mpr (.inl rfl))
    · have outside : (replacing old new).cell o = ⟨none, none⟩ :=
        Cell.ext ((lookup_holding new o).trans (if_neg here)) ((lookup_holding old o).trans (if_neg here))
      rw [outside]
      exact ⟨by simp, by simp⟩
  apart o a r added removed := by
    have news : (if o = outpoint then some new else none) = some a := by
      rw [← lookup_holding]
      exact added
    have olds : (if o = outpoint then some old else none) = some r := by
      rw [← lookup_holding]
      exact removed
    rw [Option.ite_none_right_eq_some] at news olds
    rw [← Option.some.inj news.2, ← Option.some.inj olds.2]
    exact apart

/-- Only the sample outpoint has entries, so only its scores matter. -/
theorem scoresDetermine {base : UtxoCollection} {diffs : List UtxoDiff}
    (here : Cell.Distinguishes sameDaaScore (UtxoDiff.recorded base.lookup diffs outpoint))
    (elsewhere : ∀ o ≠ outpoint, UtxoDiff.recorded base.lookup diffs o = []) :
    UtxoDiff.ScoresDetermine base.lookup diffs := by
  intro o
  by_cases same : o = outpoint
  · rwa [same]
  · rw [elsewhere o same]
    exact fun v member => absurd member List.not_mem_nil

end Sample

open Sample in
/-- An output accepted at score 0, accepted anew at score 1 in one diff and at score 2 in another. -/
theorem utxoDiff_laws_reaccepted :
    ∃ r w, (replacing (entry 5 0) (entry 5 1)).diffFrom
        (replacing (entry 5 0) (entry 5 2)) = .ok r ∧
      (replacing (entry 5 0) (entry 5 1)).withDiff r = .ok w ∧
      ∀ o, w.cell o = (replacing (entry 5 0) (entry 5 2)).cell o := by
  have elsewhere : ∀ (e : UtxoEntry) (o : TransactionOutpoint), o ≠ outpoint →
      (holding e).lookup o = none :=
    fun e o other => (lookup_holding e o).trans (if_neg other)
  obtain ⟨_, r, from_, w, merged, same, _⟩ := utxoDiff_laws (holding (entry 5 0))
    (replacing (entry 5 0) (entry 5 1))
    (replacing (entry 5 0) (entry 5 2))
    (replacing (entry 5 1) (entry 5 3))
    (replacing_valid rfl (by decide)) (replacing_valid rfl (by decide))
    (replacing_valid rfl (by decide))
    (scoresDetermine (by unfold Cell.Distinguishes; decide +kernel) fun o other => by
      simp [UtxoDiff.recorded, replacing, elsewhere _ o other])
    (scoresDetermine (by unfold Cell.Distinguishes; decide +kernel) fun o other => by
      simp [UtxoDiff.recorded, replacing, elsewhere _ o other])
  exact ⟨r, w, from_, merged, same⟩

open Sample in
/-- Two diffs that add one outpoint with the same score and different amounts: nothing is found to
lead from one to the other. -/
theorem diffFrom_confuses_amounts :
    (⟨holding (entry 1 5), ∅⟩ : UtxoDiff).ValidOver (∅ : UtxoCollection).lookup ∧
      (⟨holding (entry 2 5), ∅⟩ : UtxoDiff).ValidOver (∅ : UtxoCollection).lookup ∧
      ∃ r w, (⟨holding (entry 1 5), ∅⟩ : UtxoDiff).diffFrom
          ⟨holding (entry 2 5), ∅⟩ = .ok r ∧
        (⟨holding (entry 1 5), ∅⟩ : UtxoDiff).withDiff r = .ok w ∧
        w.cell outpoint = ⟨some (entry 1 5), none⟩ := by
  have adding : ∀ e : UtxoEntry,
      (⟨holding e, ∅⟩ : UtxoDiff).ValidOver (∅ : UtxoCollection).lookup :=
    fun e => ⟨fun _ => ⟨fun _ removed => (nomatch removed), fun _ => .inl rfl⟩,
      fun _ _ _ _ removed => nomatch removed⟩
  exact ⟨adding _, adding _, _, _, rfl, rfl, rfl⟩

end Marigold.Utxo
