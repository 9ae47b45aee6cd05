import Marigold.Consensus.Node

/-!
# The pool at a chain block

`get_pool_state_at` (`consensus/mod.rs`) rebuilds the pool of a block of the selected chain. It starts
from the stored pool, which is virtual's, takes virtual's own diff out, and then the stored diffs of
the chain from the sink down to the block. During a pruning catch-up the stored pool is not virtual's.
-/

namespace Marigold.Consensus

open Lib NotePool Utxo Smt

inductive ConsensusError where
  | headerNotFound (block : Hash)
  | missingData (block : Hash)
  | general (text : String)
  deriving DecidableEq, Repr

/-- The closure `reverse`: added serials out, removed entries back in. -/
def takeOut (entries : PoolCollection) (diff : PoolDiff) : PoolCollection :=
  entries.writeDiff diff.reversed

section Query

variable {M : Type}

def validateBlockExists (D : Dag) (stores : ChainStores M) (block : Hash) : Except ConsensusError Unit :=
  if D.known block && stores.statuses block != .invalid then .ok ()
  else .error (.headerNotFound block)

/-- The loop down the chain: the diff of the block that was asked for stays in. -/
def takeOutDownTo (stores : ChainStores M) (block : Hash) :
    List Hash → PoolCollection → Except ConsensusError PoolCollection
  | [], entries => .ok entries
  | current :: rest, entries =>
    if current = block then .ok entries
    else
      match stores.notepoolDiffs.lookup current with
      | none => .error (.missingData current)
      | some diff => takeOutDownTo stores block rest (takeOut entries diff)

def getPoolStateAt (D : Dag) (node : NodeState M) (block : Hash) : Except ConsensusError (List (Hash × PoolEntry)) := do
  validateBlockExists D node.stores block
  let sink := node.virtual.sink
  if D.isChainAncestorOf block sink then
    let entries := takeOut node.virtual.poolState.toMap node.virtual.poolDiff
    return (← takeOutDownTo node.stores block (D.backwardChain sink) entries).pairs
  else .error (.general "the block is not on the selected chain")

/-- `intrusive_pruning_point_store_writes`, the start of a pruning catch-up: virtual is put over the
new pruning point. The stored sets and the pool diff stay as they are until the downloads replace
them. -/
def NodeState.intrusivePruningPointUpdate (node : NodeState M) (newPruningPoint : Hash) : NodeState M :=
  { node with virtual := { node.virtual with sink := newPruningPoint, utxoDiff := .empty } }

/-- Runs with catch-ups, and `pruning_utxoset_stable_flag`. When a catch-up is done the flag is raised,
and the node is one that starts at the new pruning point. -/
inductive NodeRuns (V : VirtualProcessor M) (D : Dag) (origin : ChainTip M) : NodeState M → Bool → Prop where
  | stable {node : NodeState M} (reached : NodeReaches V D origin node) : NodeRuns V D origin node true
  | catchingUp {node : NodeState M} {flag : Bool} (runs : NodeRuns V D origin node flag)
      (newPruningPoint : Hash) :
      NodeRuns V D origin (node.intrusivePruningPointUpdate newPruningPoint) false

/-- The root of a tree over listed entries. -/
def entriesRoot (H : Hashers) (entries : List (Hash × PoolEntry)) : Hash :=
  (computeRootUpdate (smtHasher H) (fun _ => none) (emptyRoot (smtHasher H))
    (.fromUnsorted (entries.map fun row => ⟨row.1, leafHashEntry H row.2⟩))).1

/-- The header of the root block commits to its pool, as that of genesis and that of an imported
pruning point do. -/
def RootCommits (V : VirtualProcessor M) (D : Dag) (origin : ChainTip M) : Prop :=
  ∀ pool : PoolCollection, pool.lookup = origin.ledger.pool →
    poolRoot V.crypto.hashers pool = (D.header D.root).poolCommitment

variable {V : VirtualProcessor M} {D : Dag} {start : List Transaction} {origin : ChainTip M}
  {node : NodeState M} {stores : ChainStores M} {accepted : List Transaction} {tip : ChainTip M}
  {h block : Hash} {entries : PoolCollection}

/-- Taking a difference out of the pool it leads to gives the pool it starts from. -/
theorem lookup_takeOut {diff : PoolDiff} {before : PoolView}
    (difference : IsDifference diff.cell before entries.lookup) : (takeOut entries diff).lookup = before := by
  funext sn
  rw [takeOut, PoolCollection.lookup_writeDiff]
  have back := (PoolDiff.reversed_difference difference).represents
  exact congrFun (PoolDiff.Reads.composed back) sn

/-- Down the chain of a stored block, the entries are those of one block after the other. -/
theorem takeOutDownTo_ok (sound : StoresSound V D start origin stores) (stored : stores.Has D h)
    (settles : Settles V D start origin h accepted tip) (reads : entries.lookup = tip.ledger.pool)
    (onChain : block ∈ D.backwardChain h) :
    ∃ below accepted' tip', takeOutDownTo stores block (D.backwardChain h) entries = .ok below ∧
      Settles V D start origin block accepted' tip' ∧ below.lookup = tip'.ledger.pool := by
  -- Induction along the chain from the root up; the stored row leads to the next block below.
  induction h using D.forest.line_induction generalizing entries accepted tip with
  | root h above =>
    have line : D.backwardChain h = [h] := D.forest.line_of_root above
    rw [line, List.mem_singleton] at onChain
    subst onChain
    refine ⟨entries, accepted, tip, ?_, settles, reads⟩
    simp [line, takeOutDownTo]
  | next h p above ih =>
    have line : D.backwardChain h = h :: D.backwardChain p := D.forest.line_of_parent above
    rw [line, takeOutDownTo]
    split
    next reached => exact ⟨entries, accepted, tip, rfl, reached ▸ settles, reads⟩
    next apart =>
      obtain ⟨storedBelow, diff, poolDiff, accepted', below, parent, row⟩ := sound.down stored settles above
      have further : block ∈ D.backwardChain p := by
        rw [line] at onChain
        exact (List.mem_cons.mp onChain).resolve_left (Ne.symm apart)
      rw [row.notepoolDiffs]
      exact ih storedBelow parent (lookup_takeOut (reads ▸ row.pool)) further

theorem Settles.poolCommitment (settles : Settles V D start origin h accepted tip)
    (commits : RootCommits V D origin) (reads : entries.lookup = tip.ledger.pool) :
    poolRoot V.crypto.hashers entries = (D.header h).poolCommitment := by
  cases settles with
  | root => exact commits entries reads
  | next parent onRoot notRoot walked qualified first =>
    obtain ⟨poolState, poolDiff, composed, verified⟩ := qualified
    obtain ⟨_, _, verified⟩ := Outcome.bind_eq_ok.mp verified
    obtain ⟨_, commitment, _⟩ := Outcome.bind_eq_ok.mp verified
    unfold verifyPoolCommitment at commitment
    dsimp only at commitment
    split at commitment
    · cases commitment
    next same =>
      refine Eq.trans (poolRoot_congr _ fun sn => ?_) (not_not.mp same)
      have view :=
        (funext fun sn => PoolCollection.lookup_writeDiff poolState poolDiff sn).trans composed
      refine (congrFun reads sn).trans ?_
      rw [PoolCollection.lookup_writeDiff, view]
      rfl

theorem entriesRoot_pairs (H : Hashers) (entries : PoolCollection) :
    entriesRoot H entries.pairs = poolRoot H entries := by
  have leaves : (entries.pairs.map fun row => (⟨row.1, leafHashEntry H row.2⟩ : LeafUpdate)) =
      poolLeaves H entries := by simp [Map.pairs, poolLeaves]
  rw [entriesRoot, leaves, poolRoot]

theorem NodeSound.getPoolStateAt (sound : NodeSound V D start origin node)
    (exists_ : validateBlockExists D node.stores block = .ok ())
    (onChain : D.isChainAncestorOf block node.virtual.sink = true) :
    ∃ (entries : PoolCollection) (accepted : List Transaction) (tip : ChainTip M),
      Consensus.getPoolStateAt D node block = .ok entries.pairs ∧
      Settles V D start origin block accepted tip ∧ entries.lookup = tip.ledger.pool := by
  obtain ⟨accepted, tip, settles, _, pool⟩ := sound.sink
  have atSink : (takeOut node.virtual.poolState.toMap node.virtual.poolDiff).lookup = tip.ledger.pool := by
    apply lookup_takeOut
    rw [toMap_lookup]
    exact pool
  obtain ⟨entries, accepted', tip', down, settles', reads⟩ := takeOutDownTo_ok sound.stores
    sound.stored settles atSink (D.isChainAncestorOf_iff.mp onChain)
  refine ⟨entries, accepted', tip', ?_, settles', reads⟩
  simp only [Consensus.getPoolStateAt, exists_, onChain, down]
  rfl

/-- Unless a catch-up is going on, an answer lists the pool of the block's state, every note once, and
its root is what the block's header commits to; and a block of the selected chain gets an answer. -/
theorem getPoolStateAt_exact (rooted : Rooted V D start origin) (commits : RootCommits V D origin)
    (runs : NodeRuns V D origin node true) (block : Hash) :
    (∀ rows, getPoolStateAt D node block = .ok rows → ∃ accepted tip,
      Settles V D start origin block accepted tip ∧ (rows.map Prod.fst).Nodup ∧
        (∀ sn entry, (sn, entry) ∈ rows ↔ tip.ledger.pool sn = some entry) ∧
        entriesRoot V.crypto.hashers rows = (D.header block).poolCommitment) ∧
      (validateBlockExists D node.stores block = .ok () →
        D.isChainAncestorOf block node.virtual.sink = true →
        ∃ rows, getPoolStateAt D node block = .ok rows) := by
  have sound : NodeSound V D start origin node := by
    cases runs with
    | stable reached => exact reached.sound rooted
  constructor
  · intro rows answered
    obtain ⟨_, exists_, asked⟩ := Outcome.bind_eq_ok.mp answered
    dsimp only at asked
    split at asked
    next onChain =>
      obtain ⟨entries, accepted, tip, answered', settles, reads⟩ :=
        sound.getPoolStateAt exists_ onChain
      obtain rfl := Except.ok.inj (answered.symm.trans answered')
      refine ⟨accepted, tip, settles, ?_, fun sn entry => ?_, ?_⟩
      · have keys : entries.pairs.map Prod.fst = entries.keys := by
          simp [Map.pairs, AList.keys, List.keys]
        rw [keys]
        exact entries.keys_nodup
      · rw [Map.mem_pairs, ← reads]
      · rw [entriesRoot_pairs]
        exact settles.poolCommitment commits reads
    next => cases asked
  · intro exists_ onChain
    obtain ⟨entries, _, _, answered, _⟩ := sound.getPoolStateAt exists_ onChain
    exact ⟨_, answered⟩

end Query

open Sample in
/-- With virtual over block 6: the minted note is in the pool of block 6, where it is accepted, and
not yet in that of block 2, which holds the mint. -/
theorem getPoolStateAt_exact_fork :
    getPoolStateAt fork forkMinted 2 = .ok [] ∧
      getPoolStateAt fork forkMinted 6 = .ok [(mintedSerial, .unlocked ⟨.d1, 7⟩)] ∧
      ∃ accepted tip,
        Settles node fork [] (genesisTip node (fork.block 1)) 2 accepted tip ∧
        tip.ledger.pool mintedSerial = none ∧
        entriesRoot Sample.hashers [] = (fork.header 2).poolCommitment := by
  have before : getPoolStateAt fork forkMinted 2 = .ok [] := by decide +kernel
  have after : getPoolStateAt fork forkMinted 6 =
      .ok [(mintedSerial, .unlocked ⟨.d1, 7⟩)] := by decide +kernel
  refine ⟨before, after, ?_⟩
  have commits : RootCommits node fork (genesisTip node (fork.block 1)) := by
    intro pool empty
    exact (poolRoot_congr _ fun sn => congrFun empty sn).trans (show poolRoot _ ∅ = _ from rfl)
  obtain ⟨accepted, tip, settles, _, lists, root⟩ := (getPoolStateAt_exact fork_rooted commits
    (.stable forkMinted_reached) 2).1 [] before
  refine ⟨accepted, tip, settles, ?_, root⟩
  exact Option.eq_none_iff_forall_ne_some.mpr fun entry live =>
    nomatch (lists mintedSerial entry).mpr live

namespace Sample

/-- Hashes the only leaf of a tree, so that its root tells the pool from the empty one. -/
def committing : VirtualProcessor Unit :=
  { node with crypto := { node.crypto with
    hashers := { hashers with notePoolSmtCollapsed := Hash.fromBytes } } }

def mintedPool : PoolCollection := (∅ : PoolCollection).insert mintedSerial (.unlocked ⟨.d1, 7⟩)

/-- The fork, where the header of block 6 commits to the pool with the minted note. -/
def committed : Dag :=
  { fork with block := fun h =>
      if h = 6 then ⟨{ (fork.block 6).header with
        poolCommitment := poolRoot committing.crypto.hashers mintedPool }, (fork.block 6).transactions⟩
      else fork.block h }

def committedOrigin : ChainTip Unit := genesisTip committing (committed.block 1)

theorem forkStart_committed : Starts committed committedOrigin forkStart where
  sink := rfl
  ledger := rfl
  utxoDiff := rfl
  poolDiff := rfl
  locks := forkStart_starts.locks
  multiset := rfl
  rows := forkStart_starts.rows
  statuses := forkStart_starts.statuses

/-- What the walk of a block of the fork leaves. -/
def committedWalk (tip : ChainTip Unit) (h : Hash) : UtxoProcessingContext Unit :=
  (tip.walk committing [] (committed.header h).daaScore).toOption.getD (.new ())

def committedTip (tip : ChainTip Unit) (h : Hash) : ChainTip Unit :=
  ⟨committed.block h, tip.ledger.compose (committedWalk tip h), (committedWalk tip h).multisetHash⟩

set_option maxRecDepth 4000 in
theorem settles_committed : ∃ accepted,
    Settles committing committed [] committedOrigin 6 accepted (committedTip (committedTip committedOrigin 2) 6) := by
  have walkedTwo : committedOrigin.walk committing (committed.mergesetBlocks 2)
      (committed.header 2).daaScore = .ok (committedWalk committedOrigin 2) := rfl
  have two : Settles committing committed [] committedOrigin 2 _ (committedTip committedOrigin 2) :=
    .next .root (onRoot_fork 2 (by decide)) (by decide) walkedTwo
      ⟨∅, .empty, rfl, eq_ok_of_isSome (by decide +kernel)⟩ rfl
  have walkedSix : (committedTip committedOrigin 2).walk committing (committed.mergesetBlocks 6)
      (committed.header 6).daaScore = .ok (committedWalk (committedTip committedOrigin 2) 6) := rfl
  exact ⟨_, .next two (onRoot_fork 6 (by decide)) (by decide) walkedSix
    ⟨∅, .empty, rfl, eq_ok_of_isSome (by decide +kernel)⟩ rfl⟩

end Sample

open Sample in
set_option maxRecDepth 4000 in
/-- A node that is still at genesis starts to catch up to block 6, whose pool has the minted note. Asked
for the pool at block 6, it lists its own empty pool, which the header does not commit to. -/
theorem getPoolStateAt_answers_stale :
    let node := forkStart.intrusivePruningPointUpdate 6
    NodeRuns committing committed committedOrigin node false ∧
      getPoolStateAt committed node 6 = .ok [] ∧
      (∃ accepted tip, Settles committing committed [] committedOrigin 6
          accepted tip ∧
        tip.ledger.pool mintedSerial = some (.unlocked ⟨.d1, 7⟩)) ∧
      entriesRoot committing.crypto.hashers [] ≠ (committed.header 6).poolCommitment := by
  obtain ⟨accepted, settles⟩ := settles_committed
  exact ⟨.catchingUp (.stable (.start forkStart_committed)) 6, rfl,
    ⟨accepted, _, settles, rfl⟩, by decide +kernel⟩

end Marigold.Consensus
