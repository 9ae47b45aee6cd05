import Marigold.Smt.Exact

/-!
# Updates in no order

`SortedLeafUpdates::from_unsorted` sorts with `sort_unstable_by_key`, which may put updates of one key in
any order, and then keeps the last of each run of equal keys. Of several updates of a key any one can be
the one that counts.
-/

namespace Marigold.Smt

/-- What `sort_unstable_by_key` by the key of an update is known to do. -/
structure UnstableSort where
  sort : List LeafUpdate → List LeafUpdate
  perm : ∀ updates, (sort updates).Perm updates
  ascending : ∀ updates, (sort updates).Pairwise fun a b => a.key ≤ b.key

/-- `dedup_by` with the later update written over the earlier one: of each run of a key the last. -/
def keepLast : List LeafUpdate → List LeafUpdate
  | [] => []
  | u :: rest => if rest.head?.map LeafUpdate.key = some u.key then keepLast rest else u :: keepLast rest

variable {updates : List LeafUpdate} {u : LeafUpdate}

theorem mem_of_mem_keepLast (member : u ∈ keepLast updates) : u ∈ updates := by
  induction updates with
  | nil => exact member
  | cons v rest ih =>
    rw [keepLast] at member
    split at member
    · exact .tail _ (ih member)
    · rcases List.mem_cons.mp member with rfl | later
      · exact .head _
      · exact .tail _ (ih later)

theorem exists_mem_keepLast (member : u ∈ updates) : ∃ v ∈ keepLast updates, v.key = u.key := by
  induction updates generalizing u with
  | nil => cases member
  | cons v rest ih =>
    rw [keepLast]
    split
    next again =>
      obtain ⟨w, first, same⟩ := Option.map_eq_some_iff.mp again
      rcases List.mem_cons.mp member with rfl | later
      · obtain ⟨x, kept, equal⟩ := ih (List.mem_of_head? first)
        exact ⟨x, kept, equal.trans same⟩
      · exact ih later
    · rcases List.mem_cons.mp member with rfl | later
      · exact ⟨u, .head _, rfl⟩
      · obtain ⟨x, kept, equal⟩ := ih later
        exact ⟨x, .tail _ kept, equal⟩

theorem keepLast_sorted (ascending : updates.Pairwise fun a b => a.key ≤ b.key) :
    (keepLast updates).Pairwise fun a b => a.key < b.key := by
  induction updates with
  | nil => exact List.Pairwise.nil
  | cons u rest ih =>
    obtain ⟨above, ascending⟩ := List.pairwise_cons.mp ascending
    rw [keepLast]
    split
    · exact ih ascending
    next last =>
      refine List.pairwise_cons.mpr ⟨fun v kept => ?_, ih ascending⟩
      have there := mem_of_mem_keepLast kept
      refine BitVec.lt_of_le_ne (above v there) fun same => last ?_
      -- an equal key further on makes the next one equal, too
      cases rest with
      | nil => cases there
      | cons w rest =>
        have low : u.key ≤ w.key := above w List.mem_cons_self
        have high : w.key ≤ v.key := by
          rcases List.mem_cons.mp there with rfl | later
          · exact BitVec.le_refl _
          · exact (List.pairwise_cons.mp ascending).1 v later
        exact congrArg some (BitVec.le_antisymm (same ▸ high) low)

/-- Updates of one key agree. -/
def Unambiguous (updates : List LeafUpdate) : Prop :=
  ∀ u ∈ updates, ∀ v ∈ updates, u.key = v.key → u.leafHash = v.leafHash

instance (updates : List LeafUpdate) : Decidable (Unambiguous updates) :=
  inferInstanceAs (Decidable (∀ u ∈ updates, ∀ v ∈ updates, u.key = v.key → u.leafHash = v.leafHash))

namespace UnstableSort

variable (S : UnstableSort) {updates : List LeafUpdate} {key leafHash : Hash}

def fromUnsorted (updates : List LeafUpdate) : SortedLeafUpdates :=
  ⟨keepLast (S.sort updates), keepLast_sorted (S.ascending updates)⟩

theorem mem_of_written_fromUnsorted (found : written (S.fromUnsorted updates).updates key = some leafHash) :
    ⟨key, leafHash⟩ ∈ updates :=
  (S.perm updates).mem_iff.mp (mem_of_mem_keepLast (mem_of_written found))

theorem written_fromUnsorted_eq_none :
    written (S.fromUnsorted updates).updates key = none ↔ ∀ u ∈ updates, u.key ≠ key := by
  rw [written_eq_none]
  constructor
  · intro absent u member same
    obtain ⟨v, kept, equal⟩ := exists_mem_keepLast ((S.perm updates).mem_iff.mpr member)
    exact absent v kept (equal.trans same)
  · intro absent u kept
    exact absent u ((S.perm updates).mem_iff.mp (mem_of_mem_keepLast kept))

theorem written_fromUnsorted (clear : Unambiguous updates) (member : ⟨key, leafHash⟩ ∈ updates) :
    written (S.fromUnsorted updates).updates key = some leafHash := by
  cases found : written (S.fromUnsorted updates).updates key with
  | none => exact absurd rfl (S.written_fromUnsorted_eq_none.mp found _ member)
  | some other =>
    have there := S.mem_of_written_fromUnsorted found
    exact congrArg some (clear _ there _ member rfl)

theorem fromUnsorted_nil : (S.fromUnsorted []).updates = [] := by
  have none' : S.sort [] = [] := List.perm_nil.mp (S.perm [])
  change keepLast (S.sort []) = []
  rw [none']
  rfl

end UnstableSort

namespace Sample

instance : Std.Total fun a b : LeafUpdate => a.key ≤ b.key := ⟨fun a b => BitVec.le_total a.key b.key⟩

instance : IsTrans LeafUpdate fun a b => a.key ≤ b.key := ⟨fun _ _ _ => BitVec.le_trans⟩

/-- Equal keys stay in their order. -/
def stableSort : UnstableSort where
  sort := List.insertionSort fun a b => a.key ≤ b.key
  perm := List.perm_insertionSort _
  ascending := List.pairwise_insertionSort _

/-- Equal keys come out the other way round. -/
def turningSort : UnstableSort where
  sort updates := updates.reverse.insertionSort fun a b => a.key ≤ b.key
  perm updates := (List.perm_insertionSort _ _).trans updates.reverse_perm
  ascending updates := List.pairwise_insertionSort _ updates.reverse

end Sample

end Marigold.Smt
