import Marigold.Smt.Proof

/-!
# The tree in memory

`SparseMerkleTree` over a `BTreeSmtStore` (`crypto/smt/src/tree.rs`, `store.rs`): leaves are inserted and
removed one at a time, and proofs are made from the stored nodes and leaves.
-/

namespace Marigold.Smt

open Lib Lib.Bits

structure BTreeSmtStore where
  leaves : Map Hash Hash
  nodes : Map BranchKey Node

namespace BTreeSmtStore

def getNode (store : BTreeSmtStore) : SmtStore := fun key => store.nodes.lookup key

def getLeaf (store : BTreeSmtStore) (key : Hash) : Option Hash := store.leaves.lookup key

/-- A leaf hash of zero removes the leaf. -/
def insertLeaf (store : BTreeSmtStore) (key leafHash : Hash) : BTreeSmtStore :=
  if leafHash = Hash.zero then { store with leaves := store.leaves.erase key }
  else { store with leaves := store.leaves.insert key leafHash }

end BTreeSmtStore

structure SparseMerkleTree where
  store : BTreeSmtStore
  root : Hash

namespace SparseMerkleTree

variable (H : SmtHasher)

def new : SparseMerkleTree := ⟨⟨∅, ∅⟩, emptyRoot H⟩

variable (tree : SparseMerkleTree)

def get (key : Hash) : Option Hash := tree.store.getLeaf key

/-- One leaf updated in the nodes and the root. -/
def update (key leafHash : Hash) : SparseMerkleTree :=
  let sorted := SortedLeafUpdates.fromUnsorted [⟨key, leafHash⟩]
  let (newRoot, changes) := computeRootUpdate H tree.store.getNode tree.root sorted
  ⟨{ tree.store with nodes := changes.entries.foldl insertNode tree.store.nodes }, newRoot⟩

def insert (key leafHash : Hash) : SparseMerkleTree :=
  update H { tree with store := tree.store.insertLeaf key leafHash } key leafHash

/-- `remove`: the leaf that was there, and the tree without it. -/
def remove (key : Hash) : Option Hash × SparseMerkleTree :=
  let old := tree.store.getLeaf key
  if old.isSome then
    let tree := update H tree key Hash.zero
    (old, { tree with store := tree.store.insertLeaf key Hash.zero })
  else (old, tree)

def prove (key : Hash) : SmtProof :=
  Smt.prove H tree.store.getNode tree.store.getLeaf key

end SparseMerkleTree

/-! ## Runs -/

inductive TreeOp where
  | insert (key leafHash : Hash)
  | remove (key : Hash)
  deriving DecidableEq, Repr

namespace TreeOp

def key : TreeOp → Hash
  | insert key _ => key
  | remove key => key

/-- What the operation sets the leaf of its key to. -/
def value : TreeOp → Hash
  | insert _ leafHash => leafHash
  | remove _ => Hash.zero

def onTree (H : SmtHasher) (tree : SparseMerkleTree) : TreeOp → SparseMerkleTree
  | insert key leafHash => tree.insert H key leafHash
  | remove key => (tree.remove H key).2

/-- The operation on a leaf map. -/
def onMap (leaves : LeafMap) (op : TreeOp) : LeafMap :=
  fun key => if key = op.key then op.value else leaves key

end TreeOp

def SparseMerkleTree.run (H : SmtHasher) (ops : List TreeOp) : SparseMerkleTree :=
  ops.foldl (TreeOp.onTree H) (.new H)

/-- The leaf map the operations build. -/
def leafMapOf (ops : List TreeOp) : LeafMap := ops.foldl TreeOp.onMap noLeaves

/-- No operation finds both its key and the key's twin in the map. -/
def TwinsUntouched : LeafMap → List TreeOp → Prop
  | _, [] => True
  | leaves, op :: ops =>
    ¬ (leaves op.key ≠ Hash.zero ∧ leaves (twin op.key) ≠ Hash.zero) ∧ TwinsUntouched (op.onMap leaves) ops

/-- The nodes, the leaves and the root of the tree are those of the map. -/
structure Built (H : SmtHasher) (tree : SparseMerkleTree) (leaves : LeafMap) : Prop where
  nodes : Represents H tree.store.getNode leaves
  values : ∀ key, tree.store.getLeaf key = leaves.get key
  root : tree.root = canonRoot H leaves

section Run

variable {H : SmtHasher} {tree : SparseMerkleTree} {leaves : LeafMap} {store : SmtStore}

/-- One update is exact unless the key and its twin are both there. -/
theorem sound_of_single {key leafHash : Hash} (apart : ¬ (leaves key ≠ Hash.zero ∧ leaves (twin key) ≠ Hash.zero)) :
    Sound store leaves [⟨key, leafHash⟩] 256 Hash.zero := by
  refine ⟨fun depth leaf _ _ _ _ stale => ?_, fun other _ lost => ?_⟩
  · obtain ⟨updated, ⟨u, member, -, differ⟩, -⟩ := stale
    obtain ⟨v, member', same⟩ := written_isSome.mp updated
    rw [List.mem_singleton] at member member'
    exact differ (member.trans member'.symm ▸ same)
  · obtain ⟨live, twinLive, updated, -⟩ := lost
    obtain ⟨u, member, same⟩ := written_isSome.mp updated
    rw [List.mem_singleton] at member
    obtain rfl : key = twin other := by rw [← same, member]
    exact apart ⟨twinLive, by rwa [twin_twin]⟩

theorem applied_single (leaves : LeafMap) (key leafHash : Hash) :
    applied leaves [⟨key, leafHash⟩] = fun other => if other = key then leafHash else leaves other := by
  funext other
  by_cases here : other = key
  · simp [applied, written, here]
  · simp [applied, written, here, Ne.symm here]

theorem getNode_update (tree : SparseMerkleTree) (key leafHash : Hash) : (tree.update H key leafHash).store.getNode =
      overlaid H tree.store.getNode tree.root (SortedLeafUpdates.fromUnsorted [⟨key, leafHash⟩]) :=
  funext fun other => lookup_insertNodes tree.store.nodes _ other

theorem update_nodes (tree : SparseMerkleTree) (nodes : Represents H tree.store.getNode leaves)
    (root : tree.root = canonRoot H leaves) {key : Hash} (leafHash : Hash)
    (apart : ¬ (leaves key ≠ Hash.zero ∧ leaves (twin key) ≠ Hash.zero)) :
    Represents H (tree.update H key leafHash).store.getNode
        (fun other => if other = key then leafHash else leaves other) ∧
      (tree.update H key leafHash).root =
        canonRoot H (fun other => if other = key then leafHash else leaves other) := by
  have sound : Sound tree.store.getNode leaves (SortedLeafUpdates.fromUnsorted
      [⟨key, leafHash⟩]).updates 256 Hash.zero := sound_of_single apart
  obtain ⟨after, newRoot⟩ := overlaid_of_sound nodes sound
  have set : applied leaves (SortedLeafUpdates.fromUnsorted [⟨key, leafHash⟩]).updates = _ :=
    applied_single leaves key leafHash
  rw [set, ← root] at after newRoot
  rw [getNode_update]
  exact ⟨after, newRoot⟩

theorem built_new (H : SmtHasher) : Built H (.new H) noLeaves where
  nodes := represents_empty H
  values _ := rfl
  root := (canonRoot_noLeaves H).symm

theorem getLeaf_insertLeaf (store : BTreeSmtStore) (key leafHash other : Hash) :
    (store.insertLeaf key leafHash).getLeaf other =
      if other = key then (if leafHash = Hash.zero then none else some leafHash) else store.getLeaf other := by
  unfold BTreeSmtStore.insertLeaf BTreeSmtStore.getLeaf
  by_cases cleared : leafHash = Hash.zero
  · rw [if_pos cleared, if_pos cleared]
    exact Map.lookup_erase_eq store.leaves key other
  · rw [if_neg cleared, if_neg cleared]
    exact Map.lookup_insert_eq store.leaves key other leafHash

theorem Built.values_set (built : Built H tree leaves) (key leafHash other : Hash) :
    (tree.store.insertLeaf key leafHash).getLeaf other =
      LeafMap.get (fun other => if other = key then leafHash else leaves other) other := by
  rw [getLeaf_insertLeaf, built.values, LeafMap.get, LeafMap.get]
  by_cases here : other = key
  · rw [if_pos here, if_pos here]
  · rw [if_neg here, if_neg here]

theorem getNode_insertLeaf (store : BTreeSmtStore) (key leafHash : Hash) :
    (store.insertLeaf key leafHash).getNode = store.getNode := by
  unfold BTreeSmtStore.insertLeaf
  split <;> rfl

theorem Built.step (built : Built H tree leaves) (op : TreeOp)
    (apart : ¬ (leaves op.key ≠ Hash.zero ∧ leaves (twin op.key) ≠ Hash.zero)) :
    Built H (op.onTree H tree) (op.onMap leaves) := by
  cases op with
  | insert key leafHash =>
    have nodes : Represents H (tree.store.insertLeaf key leafHash).getNode leaves := by
      rw [getNode_insertLeaf]
      exact built.nodes
    obtain ⟨after, root⟩ := update_nodes { tree with store := tree.store.insertLeaf key leafHash } nodes
      built.root leafHash apart
    exact ⟨after, built.values_set key leafHash, root⟩
  | remove key =>
    change Built H (tree.remove H key).2 _
    by_cases there : (tree.store.getLeaf key).isSome
    · obtain ⟨after, root⟩ := update_nodes tree built.nodes built.root Hash.zero apart
      simp only [SparseMerkleTree.remove, there, if_true]
      refine ⟨?_, built.values_set key Hash.zero, root⟩
      rw [getNode_insertLeaf]
      exact after
    · -- an absent key: nothing changes, in the tree or in the map
      have absent : leaves key = Hash.zero := by
        rw [built.values, LeafMap.get] at there
        by_contra live
        simp [live] at there
      have same : TreeOp.onMap leaves (.remove key) = leaves := by
        funext other
        by_cases here : other = key <;> simp [TreeOp.onMap, TreeOp.key, TreeOp.value, here, absent]
      have unchanged : (tree.remove H key).2 = tree := by simp [SparseMerkleTree.remove, there]
      rw [unchanged, same]
      exact built

theorem Built.get_insert (built : Built H tree leaves) (key leafHash other : Hash) :
    (tree.insert H key leafHash).get other =
      LeafMap.get (fun other => if other = key then leafHash else leaves other) other :=
  built.values_set key leafHash other

theorem run_concat (H : SmtHasher) (ops : List TreeOp) (op : TreeOp) :
    SparseMerkleTree.run H (ops ++ [op]) = op.onTree H (.run H ops) :=
  List.foldl_concat ..

theorem prove_of_top {getLeaf : Hash → Option Hash} {key : Hash} {leaf : CollapsedLeaf}
    (top : store ⟨0, Hash.zero⟩ = some (.collapsed leaf)) (other : leaf.laneKey ≠ key) :
    prove H store getLeaf key = ⟨setLast 0#256 256, [], .collapsedOther 0 leaf⟩ := by
  have start := branchKey_of_below (below_root key)
  unfold prove proveFrom
  simp only [Nat.sub_self, start, top, if_neg other]
  rfl

theorem Built.insert_collapses (built : Built H tree leaves) {key leafHash : Hash} {leaf : CollapsedLeaf}
    (only : OnlyLeaf (retained leaves [⟨key, leafHash⟩]) 256 Hash.zero leaf) :
    (tree.insert H key leafHash).root = hashNode H.collapsed leaf.laneKey leaf.leafHash ∧
      (tree.insert H key leafHash).store.getNode ⟨0, Hash.zero⟩ = some (.collapsed leaf) := by
  have nodes : Represents H (tree.store.insertLeaf key leafHash).getNode leaves := by
    rw [getNode_insertLeaf]
    exact built.nodes
  constructor
  · have root := computeRootUpdate_root nodes (.fromUnsorted [⟨key, leafHash⟩])
    rw [← built.root] at root
    exact root.trans (congrArg (NodeResult.rootHash H) ((canon_eq_collapsed root_subtree).mpr only))
  · rw [SparseMerkleTree.insert, getNode_update]
    exact overlaid_top nodes _ only

theorem built_run {ops : List TreeOp} {tree : SparseMerkleTree} (built : Built H tree leaves)
    (apart : TwinsUntouched leaves ops) :
    Built H (ops.foldl (TreeOp.onTree H) tree) (ops.foldl TreeOp.onMap leaves) := by
  induction ops generalizing tree leaves with
  | nil => exact built
  | cons op rest ih => exact ih (built.step op apart.1) apart.2

end Run

/-- In every run in which no operation touches one of two twins that are both present, the proof made
for a key is accepted with what the map has under it, and, if no hash collides, any proof that is
accepted states just that. -/
theorem run_proofs_sound_complete (H : SmtHasher) (ops : List TreeOp)
    (apart : TwinsUntouched noLeaves ops) (key : Hash) :
    ((SparseMerkleTree.run H ops).prove H key).verify H key ((leafMapOf ops).get key)
        (SparseMerkleTree.run H ops).root = .ok true ∧
      ∀ (proof : SmtProof) (leafHash : Option Hash), NoCollisions H (leafMapOf ops) proof key leafHash →
        proof.verify H key leafHash (SparseMerkleTree.run H ops).root = .ok true →
        (leafMapOf ops).get key = leafHash := by
  have built : Built H (SparseMerkleTree.run H ops) (leafMapOf ops) := built_run (built_new H) apart
  rw [built.root]
  constructor
  · rw [SparseMerkleTree.prove, funext built.values]
    exact prove_complete built.nodes key
  · intro proof leafHash free accepted
    obtain ⟨value, nonzero⟩ := verify_sound free accepted
    cases leafHash with
    | none => exact LeafMap.get_of_absent value
    | some leafHash => exact LeafMap.get_of_present value fun zero => nonzero (by rw [zero])

namespace Sample

/-- The first half of the input counted up, by 1 for a node and by 1000 for a leaf. -/
def countingHasher : SmtHasher :=
  ⟨fun bytes => Hash.fromBytes (bytes.take 32) + 1#256, fun bytes => Hash.fromBytes (bytes.take 32) + 1000#256⟩

theorem hashNode_counting (left right : Hash) : hashNode countingHasher.node left right = left + 1#256 := by
  simp [hashNode, countingHasher, Hash.fromBytes_asBytes]

theorem emptyHashes_counting (n : Nat) : emptyHashes countingHasher n = BitVec.ofNat 256 n := by
  induction n with
  | zero => rfl
  | succ n ih =>
    rw [emptyHashes, hashNode_counting, ih]
    exact (BitVec.ofNat_add n 1).symm

def oneInsert : List TreeOp := [.insert 5#256 7#256]

theorem leafMapOf_oneInsert (key : Hash) : leafMapOf oneInsert key = if key = 5#256 then 7#256 else Hash.zero := rfl

theorem treeNodes_oneInsert {pair : Hash × Hash} (member : pair ∈ treeNodes countingHasher (leafMapOf oneInsert)) :
    ∃ n < 256, pair = (BitVec.ofNat 256 n, BitVec.ofNat 256 n) := by
  obtain ⟨n, p, fits, position, branched, rfl⟩ := member
  have outside : ¬ Below (n + 1) p 5#256 := by
    intro below
    have only : OnlyLeaf (leafMapOf oneInsert) (n + 1) p ⟨5#256, 7#256⟩ :=
      ⟨below, rfl, by decide, fun key _ differ => if_neg differ⟩
    exact branched _ ((canon_eq_collapsed ⟨fits, position⟩).mpr only)
  have bare : ∀ right, canon countingHasher (leafMapOf oneInsert) n (child n p right) = .empty := by
    intro right
    refine (canon_eq_empty (Subtree.down ⟨fits, position⟩)).mpr fun key below => if_neg ?_
    rintro rfl
    exact outside (below.parent ⟨fits, position⟩)
  refine ⟨n, fits, ?_⟩
  simp only [childHashes, bare, NodeResult.hashAt, emptyHashes_counting]

def includedProof : SmtProof := ⟨0#256, [], .collapsed 0⟩

theorem includedProof_noCollisions :
    NoCollisions countingHasher (leafMapOf oneInsert) includedProof 5#256 (some 7#256) := by
  have onlyNode : ∀ pair ∈ treeNodes countingHasher (leafMapOf oneInsert) ∪ {pair | pair ∈ ([] : List (Hash × Hash))},
      ∃ n < 256, pair = (BitVec.ofNat 256 n, BitVec.ofNat 256 n) := by
    rintro pair (member | member)
    · exact treeNodes_oneInsert member
    · cases member
  have onlyLeaf : ∀ pair ∈ treeLeaves (leafMapOf oneInsert) ∪ {pair | pair ∈ some (5#256, 7#256)},
      pair = ((5#256, 7#256) : Hash × Hash) := by
    rintro ⟨key, leafHash⟩ (⟨value, nonzero⟩ | member)
    · simp only [leafMapOf_oneInsert] at value
      split at value
      next here => rw [here, ← value]
      · exact absurd value.symm nonzero
    · exact (Option.some.inj member).symm
  refine ⟨fun a left b right same => ?_, fun a left b right _ => ?_, fun a left b right same => ?_,
    fun a left zero => ?_, fun a left => ?_⟩
  · obtain ⟨n, small, rfl⟩ := onlyNode a left
    obtain ⟨m, small', rfl⟩ := onlyNode b right
    rw [hashNode_counting, hashNode_counting] at same
    have number := congrArg BitVec.toNat same
    simp only [BitVec.toNat_add, BitVec.toNat_ofNat] at number
    obtain rfl : n = m := by omega
    rfl
  · rw [onlyLeaf a left, onlyLeaf b right]
  · obtain ⟨n, small, rfl⟩ := onlyNode a left
    obtain rfl := onlyLeaf b right
    rw [hashNode_counting] at same
    have value : hashNode countingHasher.collapsed 5#256 7#256 = 1005#256 := by decide +kernel
    rw [value] at same
    have number := congrArg BitVec.toNat same
    simp only [BitVec.toNat_add, BitVec.toNat_ofNat] at number
    omega
  · obtain ⟨n, small, rfl⟩ := onlyNode a left
    rw [hashNode_counting] at zero
    have number := congrArg BitVec.toNat zero
    simp only [BitVec.toNat_add, BitVec.toNat_ofNat, Hash.zero] at number
    omega
  · rw [onlyLeaf a left]
    decide +kernel

/-- Twins, the first of them then inserted again. -/
def twinInserts : List TreeOp := [.insert 0#256 7#256, .insert 1#256 9#256, .insert 0#256 8#256]

/-- The twins, before the first is inserted again. -/
def twins : SparseMerkleTree := .run countingHasher (twinInserts.take 2)

theorem twins_built : Built countingHasher twins (leafMapOf (twinInserts.take 2)) :=
  built_run (built_new _) ⟨fun both => both.1 rfl, fun both => both.1 (by decide), trivial⟩

theorem twins_retained :
    OnlyLeaf (retained (leafMapOf (twinInserts.take 2)) [⟨0#256, 8#256⟩]) 256 Hash.zero ⟨0#256, 8#256⟩ := by
  refine ⟨below_root _, by decide, by decide, fun key _ differ => ?_⟩
  by_cases second : key = 1#256
  · subst second
    decide
  have bare : leafMapOf (twinInserts.take 2) key = Hash.zero := (if_neg second).trans (if_neg differ)
  rw [retained_of_not_lost fun lost => lost.1 bare, applied_single]
  exact (if_neg differ).trans bare

end Sample

open Sample in
theorem run_proofs_sound_complete_oneInsert :
    ((SparseMerkleTree.run countingHasher oneInsert).prove countingHasher 5#256).verify countingHasher
        5#256 ((leafMapOf oneInsert).get 5#256) (SparseMerkleTree.run countingHasher oneInsert).root =
      .ok true ∧ (leafMapOf oneInsert).get 5#256 = some 7#256 := by
  have result := run_proofs_sound_complete countingHasher oneInsert
    ⟨fun both => both.1 rfl, trivial⟩ 5#256
  exact ⟨result.1, result.2 includedProof (some 7#256) includedProof_noCollisions (by decide +kernel)⟩

open Sample in
/-- The second insert of a key drops its twin from the tree: the proof made for the twin is rejected
with the twin's leaf, and shows it absent. -/
theorem twin_proof_rejected :
    let tree := SparseMerkleTree.run countingHasher twinInserts
    tree.get 1#256 = some 9#256 ∧ leafMapOf twinInserts 1#256 = 9#256 ∧
      (tree.prove countingHasher 1#256).verify countingHasher 1#256 (some 9#256) tree.root = .ok false ∧
      (tree.prove countingHasher 1#256).verify countingHasher 1#256 none tree.root = .ok true := by
  -- the kernel is kept from evaluating the tree: 256 nodes, each looked up in the list of the others
  have again : SparseMerkleTree.run countingHasher twinInserts = twins.insert countingHasher 0#256 8#256 :=
    run_concat countingHasher (twinInserts.take 2) (.insert 0#256 8#256)
  obtain ⟨root, top⟩ := twins_built.insert_collapses twins_retained
  have proof : (twins.insert countingHasher 0#256 8#256).prove countingHasher 1#256 = _ :=
    prove_of_top top (by decide)
  simp only [again, proof, root, twins_built.get_insert]
  exact ⟨by decide, by decide, by decide +kernel, by decide +kernel⟩

end Marigold.Smt
