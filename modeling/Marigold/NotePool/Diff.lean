import Marigold.Lib.Map
import Marigold.Lib.Overlay
import Marigold.NotePool.Types

/-!
# Pool diffs and composed views

`consensus/core/src/notepool/diff.rs` and `view.rs`: what an op, a block or a whole walk changes in
the pool, how such changes are composed, and reading the pool through them.
-/

namespace Marigold.NotePool

open Lib

abbrev PoolCollection := Map Hash PoolEntry

structure PoolDiff where
  add : PoolCollection
  remove : PoolCollection

inductive PoolAlgebraError where
  | duplicateAdd (sn : Hash)
  | duplicateRemove (sn : Hash)
  deriving DecidableEq, Repr

/-- `PoolStateView`: `get_note` as a function. -/
abbrev PoolView := Hash → Option PoolEntry

namespace PoolDiff

def empty : PoolDiff := ⟨∅, ∅⟩

/-- `as_reversed` and `to_reversed`: added and removed swapped. -/
def reversed (d : PoolDiff) : PoolDiff := ⟨d.remove, d.add⟩

/-- The body of the loop over `other.removed()`. -/
def mergeRemoved (d : PoolDiff) (entry : Sigma fun _ : Hash => PoolEntry) : PoolDiff :=
  if entry.1 ∈ d.add then { d with add := d.add.erase entry.1 }
  else { d with remove := d.remove.insert entry.1 entry.2 }

/-- The body of the loop over `other.added()`. -/
def mergeAdded (d : PoolDiff) (entry : Sigma fun _ : Hash => PoolEntry) : PoolDiff :=
  if entry.1 ∈ d.remove then { d with remove := d.remove.erase entry.1 }
  else { d with add := d.add.insert entry.1 entry.2 }

/-- The outcome together with the receiver after the call. -/
def withDiffInPlace (self other : PoolDiff) : Except PoolAlgebraError Unit × PoolDiff :=
  match other.remove.keys.find? fun sn => sn ∈ self.remove ∧ sn ∉ self.add with
  | some sn => (.error (.duplicateRemove sn), self)
  | none =>
    match other.add.keys.find? fun sn => sn ∈ self.add ∧ sn ∉ other.remove with
    | some sn => (.error (.duplicateAdd sn), self)
    | none =>
      (.ok (), other.add.entries.foldl mergeAdded (other.remove.entries.foldl mergeRemoved self))

def addNote (d : PoolDiff) (sn : Hash) (note : PoolEntry) : Except PoolAlgebraError PoolDiff :=
  if sn ∈ d.remove then .ok { d with remove := d.remove.erase sn }
  else if sn ∉ d.add then .ok { d with add := d.add.insert sn note }
  else .error (.duplicateAdd sn)

def removeNote (d : PoolDiff) (sn : Hash) (note : PoolEntry) : Except PoolAlgebraError PoolDiff :=
  if sn ∈ d.add then .ok { d with add := d.add.erase sn }
  else if sn ∉ d.remove then .ok { d with remove := d.remove.insert sn note }
  else .error (.duplicateRemove sn)

end PoolDiff

/-- `ComposedPoolView::get_note`. -/
def composedPoolView (base : PoolView) (diff : PoolDiff) : PoolView := fun sn =>
  match diff.add.lookup sn with
  | some note => some note
  | none => if sn ∈ diff.remove then none else base sn

/-- Writing a diff to a stored pool: removed serials are deleted, then added ones written. -/
def PoolCollection.writeDiff (pool : PoolCollection) (diff : PoolDiff) : PoolCollection :=
  Map.writeDiff pool diff.add diff.remove

/-! ## Diffs serial by serial -/

namespace PoolDiff

def cell (d : PoolDiff) (sn : Hash) : Cell PoolEntry := ⟨d.add.lookup sn, d.remove.lookup sn⟩

/-- Pool diffs cancel by serial, whatever the two entries are. -/
def sameSerial (_ _ : PoolEntry) : Bool := true

/-- Every removed entry is live as recorded; an added serial is not live, unless removed too. -/
def ValidOver (d : PoolDiff) (base : PoolView) : Prop := ∀ sn, (d.cell sn).Valid (base sn)

@[simp] theorem cell_empty (sn : Hash) : empty.cell sn = ⟨none, none⟩ := rfl

@[simp] theorem cell_reversed (d : PoolDiff) (sn : Hash) : d.reversed.cell sn = (d.cell sn).reverse := rfl

private theorem cell_mergeRemoved (d : PoolDiff) (k : Hash) (v : PoolEntry) (sn : Hash) :
    (d.mergeRemoved ⟨k, v⟩).cell sn =
      if sn = k then (d.cell sn).mergeRemove sameSerial v else d.cell sn := by
  by_cases added : k ∈ d.add
  · obtain ⟨x, found⟩ := Option.isSome_iff_exists.mp (AList.lookup_isSome.mpr added)
    by_cases same : sn = k
    · subst same
      simp [mergeRemoved, added, cell, Cell.mergeRemove, sameSerial, found]
    · simp [mergeRemoved, added, cell, same]
  · have missing := AList.lookup_eq_none.mpr added
    by_cases same : sn = k
    · subst same
      simp [mergeRemoved, added, cell, Cell.mergeRemove, missing]
    · simp [mergeRemoved, added, cell, same]

private theorem cell_mergeAdded (d : PoolDiff) (k : Hash) (v : PoolEntry) (sn : Hash) : (d.mergeAdded ⟨k, v⟩).cell sn =
      if sn = k then (d.cell sn).mergeAdd sameSerial v else d.cell sn := by
  have swapped : d.mergeAdded ⟨k, v⟩ = (d.reversed.mergeRemoved ⟨k, v⟩).reversed := by
    unfold mergeAdded mergeRemoved reversed
    split <;> rfl
  rw [swapped, cell_reversed, cell_mergeRemoved]
  split
  · exact Cell.reverse_mergeRemove _ (d.cell sn) v
  · rfl

/-- `d` is a diff over `base` that reads as `view`. -/
def Reads (d : PoolDiff) (base view : PoolView) : Prop := Represents d.cell base view

theorem empty_reads (view : PoolView) : empty.Reads view view := Represents.empty view

section Single

variable {d : PoolDiff} {base view : PoolView} {sn : Hash} {note : PoolEntry}

theorem removeNote_eq (d : PoolDiff) (sn : Hash) (note : PoolEntry) :
    d.removeNote sn note = if (d.cell sn).add = none ∧ (d.cell sn).remove ≠ none
      then .error (.duplicateRemove sn) else .ok (d.mergeRemoved ⟨sn, note⟩) := by
  unfold removeNote mergeRemoved cell
  by_cases added : sn ∈ d.add <;> by_cases removed : sn ∈ d.remove <;>
    simp [added, removed, AList.lookup_eq_none]

theorem addNote_eq (d : PoolDiff) (sn : Hash) (note : PoolEntry) :
    d.addNote sn note = if (d.cell sn).remove = none ∧ (d.cell sn).add ≠ none
      then .error (.duplicateAdd sn) else .ok (d.mergeAdded ⟨sn, note⟩) := by
  unfold addNote mergeAdded cell
  by_cases added : sn ∈ d.add <;> by_cases removed : sn ∈ d.remove <;>
    simp [added, removed, AList.lookup_eq_none]

theorem mergeRemoved_reads (reads : d.Reads base view) (there : view sn = some note) :
    (d.mergeRemoved ⟨sn, note⟩).Reads base (Function.update view sn none) :=
  reads.removeAt sameSerial rfl there fun sn' => by
    rw [cell_mergeRemoved]
    split
    next here => rw [here]
    · rfl

theorem mergeRemoved_add_eq_none {e : Sigma fun _ : Hash => PoolEntry}
    (silent : (d.cell sn).add = none) : ((d.mergeRemoved e).cell sn).add = none := by
  rw [cell_mergeRemoved]
  split
  · simp [Cell.mergeRemove, silent]
  · exact silent

theorem mergeAdded_reads (reads : d.Reads base view) (absent : view sn = none)
    (faithful : ∀ old, base sn = some old → old = note) :
    (d.mergeAdded ⟨sn, note⟩).Reads base (Function.update view sn (some note)) :=
  reads.addAt sameSerial absent (fun old live _ => faithful old live) fun sn' => by
    rw [cell_mergeAdded]
    split
    next here => rw [here]
    · rfl

theorem mergeAdded_add_of_ne {e : Sigma fun _ : Hash => PoolEntry} (differ : sn ≠ e.1) :
    ((d.mergeAdded e).cell sn).add = (d.cell sn).add := by rw [cell_mergeAdded, if_neg differ]

end Single

private theorem cell_loops (self other : PoolDiff) (sn : Hash) :
    (other.add.entries.foldl mergeAdded (other.remove.entries.foldl mergeRemoved self)).cell sn =
      (self.cell sn).merge sameSerial (other.cell sn) := by
  rw [Map.foldl_entries_local mergeAdded cell (fun v c => c.mergeAdd sameSerial v)
      (fun d k v => by rw [cell_mergeAdded, if_pos rfl])
      (fun d k v k' differ => by rw [cell_mergeAdded, if_neg differ]),
    Map.foldl_entries_local mergeRemoved cell (fun v c => c.mergeRemove sameSerial v)
      (fun d k v => by rw [cell_mergeRemoved, if_pos rfl])
      (fun d k v k' differ => by rw [cell_mergeRemoved, if_neg differ])]
  rfl

theorem withDiffInPlace_cases (self other : PoolDiff) : (∃ sn, (self.cell sn).RemovesTwice sameSerial (other.cell sn) ∧
        self.withDiffInPlace other = (.error (.duplicateRemove sn), self)) ∨
      (∃ sn, (self.cell sn).AddsTwice sameSerial (other.cell sn) ∧
        self.withDiffInPlace other = (.error (.duplicateAdd sn), self)) ∨
      ∃ merged, self.withDiffInPlace other = (.ok (), merged) ∧
        ∀ sn, merged.cell sn = (self.cell sn).merge sameSerial (other.cell sn) := by
  unfold withDiffInPlace
  split
  next sn found =>
    have facts := List.find?_some found
    have member := List.mem_of_find?_eq_some found
    simp only [decide_eq_true_eq] at facts
    obtain ⟨v, removed⟩ := Option.isSome_iff_exists.mp (AList.lookup_isSome.mpr member)
    refine .inl ⟨sn, ⟨v, removed, AList.lookup_isSome.mpr facts.1, ?_⟩, rfl⟩
    simp [cell, AList.lookup_eq_none.mpr facts.2]
  · split
    next sn found =>
      have facts := List.find?_some found
      have member := List.mem_of_find?_eq_some found
      simp only [decide_eq_true_eq] at facts
      obtain ⟨v, added⟩ := Option.isSome_iff_exists.mp (AList.lookup_isSome.mpr facts.1)
      refine .inr (.inl ⟨sn, ⟨AList.lookup_isSome.mpr member, v, added, ?_⟩, rfl⟩)
      simp [cell, AList.lookup_eq_none.mpr facts.2]
    · exact .inr (.inr ⟨_, rfl, cell_loops self other⟩)

variable {self other : PoolDiff} {base view view' : PoolView}

theorem withDiffInPlace_ok (first : self.ValidOver base)
    (second : ∀ sn, (other.cell sn).Valid ((self.cell sn).apply (base sn))) :
    ∃ merged, self.withDiffInPlace other = (.ok (), merged) ∧
      ∀ sn, merged.cell sn = (self.cell sn).merge sameSerial (other.cell sn) := by
  rcases withDiffInPlace_cases self other with ⟨sn, twice, _⟩ | ⟨sn, twice, _⟩ | merged
  · exact absurd twice (Cell.not_removesTwice (fun _ => rfl) (first sn) (second sn))
  · exact absurd twice (Cell.not_addsTwice (fun _ => rfl) (second sn))
  · exact merged

theorem withDiffInPlace_adds {merged : PoolDiff} (done : self.withDiffInPlace other = (.ok (), merged)) {sn : Hash}
    (adds : (merged.cell sn).add.isSome) : (self.cell sn).add.isSome ∨ (other.cell sn).add.isSome := by
  rcases withDiffInPlace_cases self other with ⟨_, _, failed⟩ | ⟨_, _, failed⟩ | ⟨d, ok, cells⟩
  · cases failed.symm.trans done
  · cases failed.symm.trans done
  · obtain rfl : d = merged := (Prod.mk.inj (ok.symm.trans done)).2
    rw [cells] at adds
    exact Cell.merge_adds adds

/-- Merging a diff over what the receiver reads as, when nothing it adds was live in the base under
another entry. -/
theorem withDiffInPlace_reads (first : self.Reads base view) (second : other.Reads view view')
    (faithful : ∀ sn note old, (other.cell sn).add = some note → base sn = some old → old = note) :
    ∃ merged, self.withDiffInPlace other = (.ok (), merged) ∧ merged.Reads base view' := by
  obtain ⟨merged, done, cells⟩ := withDiffInPlace_ok (fun sn => (first sn).1) (first.valid_after second)
  refine ⟨merged, done, fun sn => ?_⟩
  rw [cells]
  exact first.merge (fun _ => rfl) second (fun sn note added old live _ => faithful sn note old added live) sn

/-- A difference over what the receiver's difference leads to merges without an error, if it leads to
no other entry for a serial than the base. -/
theorem withDiffInPlace_difference (first : IsDifference self.cell base view)
    (second : IsDifference other.cell view view')
    (faithful : ∀ sn old new, base sn = some old → view' sn = some new → old = new) :
    ∃ merged, self.withDiffInPlace other = (.ok (), merged) ∧ IsDifference merged.cell base view' := by
  obtain ⟨merged, done, cells⟩ := withDiffInPlace_ok (fun sn => (first.represents sn).1)
    (first.represents.valid_after second.represents)
  refine ⟨merged, done, fun sn => ?_⟩
  rw [cells]
  exact first.merge (fun _ => rfl) second (fun sn old new live after _ => faithful sn old new live after) sn

theorem reversed_difference {diff : PoolDiff} {a b : PoolView}
    (difference : IsDifference diff.cell a b) : IsDifference diff.reversed.cell b a :=
  difference.reverse

end PoolDiff

theorem composedPoolView_eq (base : PoolView) (d : PoolDiff) (sn : Hash) :
    composedPoolView base d sn = (d.cell sn).apply (base sn) := by
  unfold composedPoolView PoolDiff.cell Cell.apply
  cases d.add.lookup sn with
  | some note => rfl
  | none => simp only [AList.lookup_isSome]

theorem PoolDiff.Reads.composed {base view : PoolView} {d : PoolDiff} (reads : d.Reads base view) :
    composedPoolView base d = view := by
  funext sn
  rw [composedPoolView_eq]
  exact (reads sn).2

theorem PoolCollection.lookup_writeDiff (pool : PoolCollection) (d : PoolDiff) (sn : Hash) :
    (pool.writeDiff d).lookup sn = composedPoolView pool.lookup d sn := by
  rw [composedPoolView_eq]
  exact Map.lookup_writeDiff pool d.add d.remove sn

/-! ## Composition is sequential application -/

/-- No entry of `d` replaces another entry of the same serial that was live in the pool. -/
def PoolDiff.NoRelock (d : PoolDiff) (pool : PoolCollection) : Prop :=
  ∀ sn old new, pool.lookup sn = some old → d.add.lookup sn = some new → old = new

private theorem lookup_writeDiff_eq_apply (pool : PoolCollection) (d : PoolDiff) (sn : Hash) :
    (pool.writeDiff d).lookup sn = (d.cell sn).apply (pool.lookup sn) := by
  rw [PoolCollection.lookup_writeDiff, composedPoolView_eq]

private theorem noRelock_iff_faithful (d : PoolDiff) (pool : PoolCollection) :
    d.NoRelock pool ↔ ∀ sn, Cell.Faithful PoolDiff.sameSerial (d.cell sn) (pool.lookup sn) := by
  constructor
  · intro none sn new added old live _
    exact none sn old new live added
  · intro faithful sn old new live added
    exact faithful sn new added old live rfl

/-- Merging two diffs that are valid one after the other succeeds. The result reads as the two
applied in turn exactly when the second one re-locks nothing that was live before both; it touches a
serial on both sides only where the first diff did. A diff is undone by its reverse, and a failing
merge leaves the receiver alone. -/
theorem withDiffInPlace_sequential (pool : PoolCollection) (d₁ d₂ : PoolDiff)
    (first : d₁.ValidOver pool.lookup) :
    (d₂.ValidOver (pool.writeDiff d₁).lookup →
      ∃ d, d₁.withDiffInPlace d₂ = (.ok (), d) ∧
        ((∀ sn, (pool.writeDiff d).lookup sn = ((pool.writeDiff d₁).writeDiff d₂).lookup sn) ↔
          d₂.NoRelock pool) ∧
        (∀ sn, composedPoolView pool.lookup d sn = (pool.writeDiff d).lookup sn) ∧
        ∀ sn, sn ∈ d.add → sn ∈ d.remove → d.cell sn = d₁.cell sn) ∧
      (∀ sn, ((pool.writeDiff d₁).writeDiff d₁.reversed).lookup sn = pool.lookup sn) ∧
      ∀ other e, (d₁.withDiffInPlace other).1 = .error e → (d₁.withDiffInPlace other).2 = d₁ := by
  refine ⟨fun second => ?_, fun sn => ?_, fun other e failed => ?_⟩
  · have second' : ∀ sn, (d₂.cell sn).Valid ((d₁.cell sn).apply (pool.lookup sn)) := fun sn => by
      rw [← lookup_writeDiff_eq_apply]
      exact second sn
    obtain ⟨d, merged, cells⟩ := PoolDiff.withDiffInPlace_ok first second'
    refine ⟨d, merged, ?_, fun sn => (PoolCollection.lookup_writeDiff pool d sn).symm, ?_⟩
    · rw [noRelock_iff_faithful]
      refine forall_congr' fun sn => ?_
      rw [lookup_writeDiff_eq_apply, lookup_writeDiff_eq_apply, lookup_writeDiff_eq_apply, cells]
      exact Cell.merge_apply_iff (fun _ => rfl) (first sn) (second' sn)
    · intro sn added removed
      obtain ⟨new, adds⟩ := Option.isSome_iff_exists.mp (AList.lookup_isSome.mpr added)
      obtain ⟨old, removes⟩ := Option.isSome_iff_exists.mp (AList.lookup_isSome.mpr removed)
      have adds' : (d.cell sn).add = some new := adds
      have removes' : (d.cell sn).remove = some old := removes
      rw [cells] at adds' removes' ⊢
      rcases Cell.merge_both (fun _ => rfl) (first sn) (second' sn) adds' removes' with kept | told
      · exact kept
      · simp [PoolDiff.sameSerial] at told
  · rw [lookup_writeDiff_eq_apply, lookup_writeDiff_eq_apply, PoolDiff.cell_reversed]
    exact Cell.reverse_apply_apply (first sn)
  · rcases PoolDiff.withDiffInPlace_cases d₁ other with ⟨sn, _, result⟩ | ⟨sn, _, result⟩ |
      ⟨merged, result, _⟩
    · rw [result]
    · rw [result]
    · simp [result] at failed

/-- A note, the same note locked, and a pool that holds the first under serial 1. -/
def plainNote : PoolEntry := .unlocked ⟨.d1, 7⟩

def lockedNote : PoolEntry := .locked ⟨.d1, 7⟩ ⟨9, 100⟩

def onePool : PoolCollection := (∅ : PoolCollection).insert 1 plainNote

def spendOne : PoolDiff := ⟨∅, onePool⟩

/-- Serial `sn` added with the given entry. -/
def createNote (sn : Hash) (entry : PoolEntry) : PoolDiff := ⟨(∅ : PoolCollection).insert sn entry, ∅⟩

private theorem spendOne_valid : spendOne.ValidOver onePool.lookup := fun _ =>
  ⟨fun _ removed => removed, fun added => by simp [PoolDiff.cell, spendOne] at added⟩

private theorem lookup_createNote (sn sn' : Hash) (entry : PoolEntry) :
    (createNote sn entry).add.lookup sn' = if sn' = sn then some entry else none :=
  Map.lookup_insert_eq ∅ sn sn' entry

theorem createNote_valid {sn : Hash} {entry : PoolEntry} {base : PoolView}
    (absent : base sn = none) : (createNote sn entry).ValidOver base := by
  intro sn'
  refine ⟨fun v removed => by simp [PoolDiff.cell, createNote] at removed, fun added => .inl ?_⟩
  have same : sn' = sn := by simpa [PoolDiff.cell, lookup_createNote] using added
  rw [same, absent]

theorem withDiffInPlace_sequential_spend_then_create :
    ∃ d, spendOne.withDiffInPlace (createNote 2 lockedNote) = (.ok (), d) ∧
      ∀ sn, (onePool.writeDiff d).lookup sn =
        ((onePool.writeDiff spendOne).writeDiff (createNote 2 lockedNote)).lookup sn := by
  obtain ⟨d, merged, sequential, _⟩ :=
    (withDiffInPlace_sequential onePool spendOne (createNote 2 lockedNote) spendOne_valid).1
      (createNote_valid (by decide))
  refine ⟨d, merged, sequential.mpr fun sn old new live added => ?_⟩
  rw [lookup_createNote, Option.ite_none_right_eq_some] at added
  obtain ⟨rfl, _⟩ := added
  have dead : onePool.lookup 2 = none := by decide
  exact nomatch dead.symm.trans live

/-- Serial 1 is spent and then created again as a locked note: the merged diff is empty, so the
lock is lost. -/
theorem withDiffInPlace_loses_relock :
    spendOne.ValidOver onePool.lookup ∧
      (createNote 1 lockedNote).ValidOver (onePool.writeDiff spendOne).lookup ∧
      spendOne.withDiffInPlace (createNote 1 lockedNote) = (.ok (), .empty) ∧
      (onePool.writeDiff .empty).lookup 1 = some plainNote ∧
      ((onePool.writeDiff spendOne).writeDiff (createNote 1 lockedNote)).lookup 1 =
        some lockedNote :=
  ⟨spendOne_valid, createNote_valid (by decide), rfl, rfl, rfl⟩

end Marigold.NotePool
