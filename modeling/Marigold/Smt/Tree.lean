import Mathlib.Data.List.Sort
import Marigold.Core.Hash
import Marigold.Lib.Map

/-!
# Sparse Merkle trees

`crypto/smt`: 256 levels of binary branching over the bits of a key. A subtree with a single leaf is
kept as one collapsed node at its top, with nothing below it. `compute_root_update` reads a store of
nodes and returns the new root together with the nodes that changed.
-/

namespace Marigold.Smt

open Lib

/-- A node hasher and the hasher of the collapsed nodes that goes with it. -/
structure SmtHasher where
  node : Bytes → Hash
  collapsed : Bytes → Hash

def hashNode (hasher : Bytes → Hash) (left right : Hash) : Hash :=
  hasher (left.asBytes ++ right.asBytes)

/-- Bit 0 is the most significant one of the first byte. -/
def bitAt (key : Hash) (d : Nat) : Bool := key.getMsbD d

/-- `EMPTY_HASHES`, by height above the leaves. -/
def emptyHashes (H : SmtHasher) : Nat → Hash
  | 0 => Hash.zero
  | n + 1 => hashNode H.node (emptyHashes H n) (emptyHashes H n)

def emptyRoot (H : SmtHasher) : Hash := emptyHashes H 256

/-- The subtree at a depth whose keys start with the first `depth` bits of `nodeKey`. -/
structure BranchKey where
  depth : Nat
  nodeKey : Hash
  deriving DecidableEq, Repr

/-- The bits from `depth` on are cleared. -/
def BranchKey.new (depth : Nat) (key : Hash) : BranchKey :=
  ⟨depth, (key >>> (256 - depth)) <<< (256 - depth)⟩

def childBranchKey (parent : BranchKey) (right : Bool) (depth : Nat) : BranchKey :=
  ⟨parent.depth + 1,
    if right then parent.nodeKey ||| BitVec.twoPow 256 (255 - depth) else parent.nodeKey⟩

structure CollapsedLeaf where
  laneKey : Hash
  leafHash : Hash
  deriving DecidableEq, Repr

inductive Node where
  | internal (hash : Hash)
  | collapsed (leaf : CollapsedLeaf)
  deriving DecidableEq, Repr

/-- A leaf hash of zero removes the leaf. -/
structure LeafUpdate where
  key : Hash
  leafHash : Hash
  deriving DecidableEq, Repr

/-! ## Sorted updates -/

/-- Updates in strictly ascending order of their keys. -/
structure SortedLeafUpdates where
  updates : List LeafUpdate
  sorted : updates.Pairwise fun a b => a.key < b.key

/-- An update goes in front of the greater keys and takes the place of an equal one. -/
def insertSorted (u : LeafUpdate) : List LeafUpdate → List LeafUpdate
  | [] => [u]
  | first :: rest =>
    if u.key < first.key then u :: first :: rest
    else if u.key = first.key then u :: rest
    else first :: insertSorted u rest

variable {u : LeafUpdate} {updates : List LeafUpdate}

theorem mem_insertSorted {v : LeafUpdate} (member : v ∈ insertSorted u updates) : v = u ∨ v ∈ updates := by
  induction updates with
  | nil => exact .inl (List.mem_singleton.mp member)
  | cons first rest ih =>
    unfold insertSorted at member
    split_ifs at member
    · exact List.mem_cons.mp member
    · rcases List.mem_cons.mp member with same | later
      · exact .inl same
      · exact .inr (.tail _ later)
    · rcases List.mem_cons.mp member with same | later
      · exact .inr (same ▸ .head _)
      · exact (ih later).imp_right (.tail _)

theorem insertSorted_sorted (sorted : updates.Pairwise fun a b => a.key < b.key) :
    (insertSorted u updates).Pairwise fun a b => a.key < b.key := by
  induction updates with
  | nil => exact List.pairwise_singleton _ _
  | cons first rest ih =>
    rw [List.pairwise_cons] at sorted
    unfold insertSorted
    split_ifs with below same
    · rw [List.pairwise_cons, List.pairwise_cons]
      refine ⟨fun v member => ?_, sorted⟩
      rcases List.mem_cons.mp member with rfl | later
      · exact below
      · exact BitVec.lt_trans below (sorted.1 v later)
    · rw [List.pairwise_cons]
      exact ⟨fun v member => same ▸ sorted.1 v member, sorted.2⟩
    · rw [List.pairwise_cons]
      refine ⟨fun v member => ?_, ih sorted.2⟩
      rcases mem_insertSorted member with rfl | later
      · exact BitVec.lt_def.mpr (Nat.lt_of_le_of_ne (BitVec.le_def.mp (BitVec.not_lt.mp below))
          fun equal => same (BitVec.eq_of_toNat_eq equal).symm)
      · exact sorted.1 v later

theorem insertSorted_perm (fresh : ∀ v ∈ updates, v.key ≠ u.key) : (insertSorted u updates).Perm (u :: updates) := by
  induction updates with
  | nil => exact .refl _
  | cons first rest ih =>
    rw [List.forall_mem_cons] at fresh
    unfold insertSorted
    split_ifs with below same
    · exact .refl _
    · exact absurd same.symm fresh.1
    · exact ((ih fresh.2).cons first).trans (.swap u first rest)

namespace SortedLeafUpdates

def empty : SortedLeafUpdates := ⟨[], List.Pairwise.nil⟩

variable (s : SortedLeafUpdates)

/-- `insert` of a `BTreeMap`. -/
def insert (u : LeafUpdate) : SortedLeafUpdates :=
  ⟨insertSorted u s.updates, insertSorted_sorted s.sorted⟩

/-- Sorted, and of several updates of a key the last one. -/
def fromUnsorted (updates : List LeafUpdate) : SortedLeafUpdates := updates.foldl insert empty

theorem eq_of_perm {s t : SortedLeafUpdates} (perm : s.updates.Perm t.updates) : s = t := by
  obtain ⟨updates, sorted⟩ := s
  obtain ⟨updates', sorted'⟩ := t
  obtain rfl : updates = updates' := by
    refine perm.eq_of_pairwise (fun a b _ _ less greater => ?_) sorted sorted'
    exact absurd (BitVec.lt_trans less greater) (BitVec.lt_irrefl _)
  rfl

theorem fromUnsorted_perm {updates : List LeafUpdate} (nodup : (updates.map LeafUpdate.key).Nodup) :
    (fromUnsorted updates).updates.Perm updates := by
  suffices folded : ∀ acc : SortedLeafUpdates, ((acc.updates ++ updates).map LeafUpdate.key).Nodup →
      (updates.foldl insert acc).updates.Perm (acc.updates ++ updates) from
    folded empty (by simpa [empty] using nodup)
  clear nodup
  induction updates with
  | nil =>
    intro acc _
    rw [List.append_nil]
    exact .refl _
  | cons u rest ih =>
    intro acc nodup
    have fresh : ∀ v ∈ acc.updates, v.key ≠ u.key := by
      rw [List.map_append, List.nodup_append] at nodup
      exact fun v member => nodup.2.2 _ (List.mem_map_of_mem member) _ (by simp)
    have moved := ((insertSorted_perm fresh).append_right rest).trans List.perm_middle.symm
    exact (ih _ ((moved.map _).nodup_iff.mpr nodup)).trans moved

theorem fromUnsorted_congr {a b : List LeafUpdate} (nodup : (a.map LeafUpdate.key).Nodup)
    (perm : a.Perm b) : fromUnsorted a = fromUnsorted b :=
  eq_of_perm (((fromUnsorted_perm nodup).trans perm).trans (fromUnsorted_perm ((perm.map _).nodup_iff.mp nodup)).symm)

/-- The update, if it is the only one. -/
def single : Option LeafUpdate :=
  match s.updates with
  | [u] => some u
  | _ => none

def containsKey (key : Hash) : Bool := s.updates.any fun u => u.key == key

/-- The updates up to the first one with the bit set, and the others. -/
def partitionByBit (depth : Nat) : SortedLeafUpdates × SortedLeafUpdates :=
  (⟨s.updates.takeWhile fun u => !bitAt u.key depth, s.sorted.sublist (List.takeWhile_sublist _)⟩,
    ⟨s.updates.dropWhile fun u => !bitAt u.key depth, s.sorted.sublist (List.dropWhile_sublist _)⟩)

end SortedLeafUpdates

/-! ## The update -/

/-- `get_node`. -/
abbrev SmtStore := BranchKey → Option Node

/-- Changed nodes; `none` for a deleted one. -/
abbrev SmtNodeChanges := Map BranchKey (Option Node)

/-- What a subtree hands up. -/
inductive NodeResult where
  | empty
  | collapsed (leaf : CollapsedLeaf)
  | internal (hash : Hash)
  deriving DecidableEq, Repr

namespace NodeResult

/-- What the node contributes to its parent. -/
def hash (H : SmtHasher) (parentDepth : Nat) : NodeResult → Hash
  | empty => emptyHashes H (255 - parentDepth)
  | collapsed leaf => hashNode H.collapsed leaf.laneKey leaf.leafHash
  | internal hash => hash

def node : NodeResult → Option Node
  | empty => none
  | collapsed leaf => some (.collapsed leaf)
  | internal hash => some (.internal hash)

def ofNode : Option Node → NodeResult
  | none => empty
  | some (.collapsed leaf) => collapsed leaf
  | some (.internal hash) => internal hash

end NodeResult

def readNode (store : SmtStore) (changes : SmtNodeChanges) (key : BranchKey) : Option Node :=
  match changes.lookup key with
  | some node => node
  | none => store key

def leafResult (update : Option LeafUpdate) : NodeResult :=
  match update with
  | some u => if u.leafHash ≠ Hash.zero then .collapsed ⟨u.key, u.leafHash⟩ else .empty
  | none => .empty

def mergedNode (H : SmtHasher) (left right : NodeResult) (depth : Nat) : NodeResult :=
  match left, right with
  | .empty, .empty => .empty
  | .collapsed leaf, .empty => .collapsed leaf
  | .empty, .collapsed leaf => .collapsed leaf
  | left, right => .internal (hashNode H.node (left.hash H depth) (right.hash H depth))

variable (changes : SmtNodeChanges)

def recordChange (key : BranchKey) (existing new : Option Node) :
    SmtNodeChanges :=
  if existing ≠ new then changes.insert key new else changes

/-- A collapsed leaf that is not updated itself joins the updates, to be placed anew. -/
def expandSingleton (existing : Option Node) (updates : SortedLeafUpdates) : Option Node × SortedLeafUpdates :=
  match existing with
  | some (.collapsed leaf) =>
    if updates.containsKey leaf.laneKey then (none, updates)
    else (none, updates.insert ⟨leaf.laneKey, leaf.leafHash⟩)
  | other => (other, updates)

def readSiblingResult (store : SmtStore) (changes : SmtNodeChanges) (parent : BranchKey)
    (right : Bool) (depth : Nat) : NodeResult :=
  .ofNode (readNode store changes (childBranchKey parent right depth))

/-- The early returns: a single update of an empty subtree, or of the leaf it is collapsed to. -/
def computeSingle (key : BranchKey) (existing : Option Node)
    (updates : SortedLeafUpdates) : Option (NodeResult × SmtNodeChanges) :=
  match updates.single, existing with
  | some u, none =>
    if u.leafHash = Hash.zero then some (.empty, changes)
    else some (.collapsed ⟨u.key, u.leafHash⟩, recordChange changes key none (some (.collapsed ⟨u.key, u.leafHash⟩)))
  | some u, some (.collapsed leaf) =>
    if u.key = leaf.laneKey then
      let new := if u.leafHash = Hash.zero then none else some (.collapsed ⟨u.key, u.leafHash⟩)
      some (leafResult (some u), recordChange changes key existing new)
    else none
  | _, _ => none

/-- A leaf that moves up leaves a deletion where it was. -/
def promote (key : BranchKey) (result : NodeResult) (depth : Nat) :
    SmtNodeChanges :=
  match result with
  | .collapsed leaf => changes.insert (childBranchKey key (bitAt leaf.laneKey depth) depth) none
  | _ => changes

/-- `compute_subtree`; `height` is the number of levels below the children, so that the depth of the
subtree is `255 - height`. -/
def computeSubtree (H : SmtHasher) (store : SmtStore) (height : Nat) (updates : SortedLeafUpdates)
    (nonempty : updates.updates ≠ []) (changes : SmtNodeChanges) : NodeResult × SmtNodeChanges :=
  let depth := 255 - height
  let key := BranchKey.new depth (updates.updates.head nonempty).key
  let existing := readNode store changes key
  match computeSingle changes key existing updates with
  | some settled => settled
  | none =>
    let expanded := expandSingleton existing updates
    let parts := expanded.2.partitionByBit depth
    match height with
    | 0 =>
      -- The parent of the leaves has no child nodes.
      let result := mergedNode H (leafResult parts.1.updates.head?) (leafResult parts.2.updates.head?) depth
      (result, recordChange changes key expanded.1 result.node)
    | height + 1 =>
      let left := if there : parts.1.updates ≠ [] then
          computeSubtree H store height parts.1 there changes
        else (readSiblingResult store changes key false depth, changes)
      let right := if there : parts.2.updates ≠ [] then
          computeSubtree H store height parts.2 there left.2
        else (readSiblingResult store left.2 key true depth, left.2)
      let result := mergedNode H left.1 right.1 depth
      (result, recordChange (promote right.2 key result depth) key expanded.1 result.node)

def NodeResult.rootHash (H : SmtHasher) : NodeResult → Hash
  | .empty => emptyRoot H
  | .collapsed leaf => hashNode H.collapsed leaf.laneKey leaf.leafHash
  | .internal hash => hash

/-- `compute_root_update`: the new root and the changed nodes. -/
def computeRootUpdate (H : SmtHasher) (store : SmtStore) (currentRoot : Hash)
    (updates : SortedLeafUpdates) : Hash × SmtNodeChanges :=
  if there : updates.updates ≠ [] then
    let (result, changes) := computeSubtree H store 255 updates there ∅
    (result.rootHash H, changes)
  else (currentRoot, ∅)

end Marigold.Smt
