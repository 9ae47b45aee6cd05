import Marigold.Consensus.ReorgSpec

/-!
# Runs of the node

A node starts at its root, genesis or an imported pruning point, hears of blocks, and again and again
tries candidates for a new sink and commits virtual over the one it ended at. The DAG is that of all
blocks the node ever hears of: the state of a block depends on nothing but its past.
-/

namespace Marigold.Consensus

open Lib NotePool Utxo Outcome

section Node

variable {M : Type}

structure NodeState (M : Type) where
  virtual : VirtualStores
  stores : ChainStores M

section Steps

variable (V : VirtualProcessor M) (D : Dag)

/-- A walk from the sink over the candidates. -/
def NodeState.tryCandidates (node : NodeState M) (candidates : List Hash) : Outcome Empty (ChainWalk M) :=
  Consensus.tryCandidates V D node.virtual (.fromSink node.virtual node.stores) candidates

/-- `resolve_virtual`, once the candidates and virtual's parents are chosen. -/
def NodeState.resolveVirtual (node : NodeState M) (candidates : List Hash) (mergeset : List Block)
    (daaScore : UInt64) : Outcome Empty (NodeState M) := do
  let walk ← node.tryCandidates V D candidates
  return ⟨← commitVirtualState V D node.virtual walk mergeset daaScore, walk.stores⟩

/-- A node at its root: nothing is stored for the blocks over it, and virtual is the root's state. -/
structure Starts (origin : ChainTip M) (node : NodeState M) : Prop where
  sink : node.virtual.sink = D.root
  ledger : node.virtual.ledger = origin.ledger
  utxoDiff : node.virtual.utxoDiff = .empty
  poolDiff : node.virtual.poolDiff = .empty
  locks : node.virtual.poolState.LocksLive
  multiset : node.stores.utxoMultisets.lookup D.root = some origin.multiset
  rows : ∀ h, D.AboveRoot h → h ∉ node.stores.utxoDiffs ∧ h ∉ node.stores.notepoolDiffs ∧
    h ∉ node.stores.utxoMultisets ∧ h ∉ node.stores.acceptanceData
  statuses : ∀ h, D.OnRoot h → node.stores.statuses h ≠ .disqualifiedFromChain

/-- The states a node can be in. -/
inductive NodeReaches (origin : ChainTip M) : NodeState M → Prop where
  | start {node : NodeState M} (starts : Starts D origin node) : NodeReaches origin node
  /-- A block got its status from the body processor. -/
  | received {node : NodeState M} (reached : NodeReaches origin node) (h : Hash)
      {status : BlockStatus} (qualified : status ≠ .disqualifiedFromChain) :
      NodeReaches origin { node with stores := { node.stores with
        statuses := Function.update node.stores.statuses h status } }
  | resolved {node node' : NodeState M} (reached : NodeReaches origin node)
      {candidates : List Hash} (onRoot : ∀ h ∈ candidates, D.OnRoot h) {mergeset : List Block}
      (mergeable : D.Mergeable mergeset) {daaScore : UInt64}
      (done : node.resolveVirtual V D candidates mergeset daaScore = .ok node') :
      NodeReaches origin node'
  /-- The node stopped during a resolution: what the walk stored is kept, virtual is the old one. -/
  | interrupted {node : NodeState M} (reached : NodeReaches origin node)
      {candidates : List Hash} (onRoot : ∀ h ∈ candidates, D.OnRoot h) {walk : ChainWalk M}
      (done : node.tryCandidates V D candidates = .ok walk) :
      NodeReaches origin { node with stores := walk.stores }

end Steps

/-- Everything stored is right, and virtual's diffs lead from the sink's state to the stored sets. -/
structure NodeSound (V : VirtualProcessor M) (D : Dag) (start : List Transaction)
    (origin : ChainTip M) (node : NodeState M) : Prop where
  stores : StoresSound V D start origin node.stores
  stored : node.stores.Has D node.virtual.sink
  base : Explained V.crypto.hashers (D.transactions start) node.virtual.ledger
  locks : node.virtual.poolState.LocksLive
  sink : ∃ accepted tip, Settles V D start origin node.virtual.sink accepted tip ∧
    IsDifference node.virtual.utxoDiff.cell tip.ledger.utxos node.virtual.ledger.utxos ∧
    IsDifference node.virtual.poolDiff.cell tip.ledger.pool node.virtual.ledger.pool

/-- Virtual is the state over its sink that merges the given blocks. -/
def VirtualStores.Over (V : VirtualProcessor M) (D : Dag) (start : List Transaction) (origin : ChainTip M)
    (mergeset : List Block) (daaScore : UInt64) (virtual : VirtualStores) : Prop :=
  ∃ accepted tip ctx, Settles V D start origin virtual.sink accepted tip ∧
    tip.walk V mergeset daaScore = .ok ctx ∧ virtual.ledger = tip.ledger.compose ctx

variable {V : VirtualProcessor M} {D : Dag} {start : List Transaction} {origin : ChainTip M}
  {node node' : NodeState M} {virtual virtual' : VirtualStores} {walk : ChainWalk M} {candidates : List Hash}
  {mergeset : List Block} {daaScore : UInt64}

theorem Starts.sound (starts : Starts D origin node) (rooted : Rooted V D start origin) :
    NodeSound V D start origin node where
  stores :=
    { rows := fun h stored above => absurd stored (starts.rows h above).1
      closed := fun h stored above => absurd stored (starts.rows h above).1
      root := starts.multiset
      together := fun h above _ => (starts.rows h above).2
      disqualified := fun h status _ _ settles =>
        starts.statuses h (settles.state rooted).onRoot status }
  stored := .inl starts.sink
  base := by
    rw [starts.ledger]
    exact (Settles.root.state rooted).explained
  locks := starts.locks
  sink := by
    rw [starts.sink, starts.ledger, starts.utxoDiff, starts.poolDiff]
    refine ⟨start, origin, .root, fun o => ?_, fun sn => ?_⟩
    · exact (Cell.between_self _).symm
    · exact (Cell.between_self _).symm

/-- A resolution starts right: virtual's diffs, reversed, lead back to the sink. -/
theorem NodeSound.fromSink (sound : NodeSound V D start origin node) :
    WalkSound V D start origin node.virtual (.fromSink node.virtual node.stores) := by
  obtain ⟨accepted, tip, settles, utxos, pool⟩ := sound.sink
  exact ⟨sound.stores, sound.stored, accepted, tip, settles, UtxoDiff.reversed_difference utxos,
    PoolDiff.reversed_difference pool⟩

theorem NodeSound.tryCandidates (sound : NodeSound V D start origin node) (rooted : Rooted V D start origin)
    (onRoot : ∀ h ∈ candidates, D.OnRoot h) : (∃ cause h, node.tryCandidates V D candidates = .panicked cause ∧
        BlockPanics V D start origin h) ∨
      ∃ walk, node.tryCandidates V D candidates = .ok walk ∧ WalkSound V D start origin node.virtual walk :=
  tryCandidates_spec rooted sound.base candidates sound.fromSink onRoot

theorem Leads.written {acc : Accumulated} {ledger : Ledger} (leads : Leads virtual acc ledger)
    (locks : virtual.poolState.LocksLive) {sink : Hash} {utxoDiff : UtxoDiff} {poolDiff : PoolDiff} :
    let after : VirtualStores := ⟨virtual.utxoSet.writeDiff acc.diff,
      virtual.poolState.apply acc.poolDiff, sink, utxoDiff, poolDiff⟩
    after.ledger = ledger ∧ after.poolState.LocksLive := by
  have valid : acc.poolDiff.ValidOver virtual.poolState.toMap.lookup := by
    rw [toMap_lookup]
    exact fun sn => (leads.pool.represents sn).1
  have refines := (DbNotePoolStore.refines_toMap locks).apply valid
  refine ⟨?_, refines.locksLive⟩
  apply Ledger.ext
  · funext o
    exact (UtxoCollection.lookup_writeDiff ..).trans (congrFun leads.utxoView o)
  · funext sn
    refine (refines.getNote sn).trans ?_
    rw [PoolCollection.lookup_writeDiff, toMap_lookup]
    exact congrFun leads.poolView sn

theorem commitVirtualState_sink (done : commitVirtualState V D virtual walk mergeset daaScore = .ok virtual') :
    virtual'.sink = walk.diffPoint := by
  obtain ⟨multiset, _, done⟩ := bind_eq_ok.mp done
  obtain ⟨ctx, _, done⟩ := bind_eq_ok.mp done
  obtain ⟨acc, _, done⟩ := bind_eq_ok.mp done
  cases done
  rfl

theorem commitVirtualState_sound (rooted : Rooted V D start origin)
    (base : Explained V.crypto.hashers (D.transactions start) virtual.ledger) (locks : virtual.poolState.LocksLive)
    (sound : WalkSound V D start origin virtual walk) (mergeable : D.Mergeable mergeset)
    (done : commitVirtualState V D virtual walk mergeset daaScore = .ok virtual') :
    NodeSound V D start origin ⟨virtual', walk.stores⟩ ∧ virtual'.Over V D start origin mergeset daaScore := by
  obtain ⟨accepted, tip, settles, leads⟩ := sound.leads
  have state := settles.state rooted
  rw [commitVirtualState, sound.stores.multiset sound.stored settles, leads.utxoView,
    leads.poolView, ← state.block] at done
  obtain ⟨multiset, found, done⟩ := bind_eq_ok.mp done
  cases found
  obtain ⟨ctx, walked, done⟩ := bind_eq_ok.mp done
  obtain ⟨acc, merged, done⟩ := bind_eq_ok.mp done
  cases done
  have explained := state.explained_walked rooted mergeable walked
  obtain ⟨coinbase, first, _⟩ := (state.walkInput rooted mergeable).coinbase
  obtain ⟨utxos, pool⟩ := (state.walked rooted mergeable walked first).differences
  obtain ⟨acc', merged', leads'⟩ := leads.withDiffs rooted.free (fun _ => rooted.wellFormed_tx)
    base explained utxos pool
  cases merged.symm.trans merged'
  obtain ⟨ledger, locks'⟩ := leads'.written locks
  refine ⟨⟨sound.stores, sound.stored, ?_, locks', accepted, tip, settles, ?_, ?_⟩,
    accepted, tip, ctx, settles, walked, ledger⟩
  · rw [ledger]
    exact explained
  · rw [ledger]
    exact utxos
  · rw [ledger]
    exact pool

theorem NodeSound.resolveVirtual (sound : NodeSound V D start origin node) (rooted : Rooted V D start origin)
    (onRoot : ∀ h ∈ candidates, D.OnRoot h) (mergeable : D.Mergeable mergeset)
    (done : node.resolveVirtual V D candidates mergeset daaScore = .ok node') :
    NodeSound V D start origin node' ∧ node'.virtual.Over V D start origin mergeset daaScore := by
  obtain ⟨walk, tried, done⟩ := bind_eq_ok.mp done
  obtain ⟨virtual, committed, done⟩ := bind_eq_ok.mp done
  cases done
  rcases sound.tryCandidates rooted onRoot with ⟨cause, _, panicked, _⟩ | ⟨walk', tried', walkSound⟩
  · exact nomatch panicked.symm.trans tried
  · cases tried.symm.trans tried'
    exact commitVirtualState_sound rooted sound.base sound.locks walkSound mergeable committed

theorem NodeReaches.sound (rooted : Rooted V D start origin) (reached : NodeReaches V D origin node) :
    NodeSound V D start origin node := by
  induction reached with
  | start starts => exact starts.sound rooted
  | received _ h qualified ih =>
    exact ⟨ih.stores.withStatus fun isDisqualified => absurd isDisqualified qualified, ih.stored,
      ih.base, ih.locks, ih.sink⟩
  | resolved _ onRoot mergeable done ih => exact (ih.resolveVirtual rooted onRoot mergeable done).1
  | @interrupted node _ candidates onRoot walk done ih =>
    rcases ih.tryCandidates rooted onRoot with ⟨_, _, panicked, _⟩ | ⟨walk', done', sound⟩
    · exact nomatch panicked.symm.trans done
    · cases done.symm.trans done'
      exact ⟨sound.stores, tryCandidates_grows done ih.stored, ih.base, ih.locks, ih.sink⟩

/-! ## The walk from any state of a run -/

/-- In every state of the node, whatever candidates the walk has tried, disqualified ones included,
its diffs are the exact difference between the stored sets and the state of the block it is at. It
panics only if one of the blocks cannot be computed or verified in its selected parent's state
without a panic, never for its diffs. -/
theorem reorg_walk_difference (rooted : Rooted V D start origin)
    (reached : NodeReaches V D origin node) (candidates : List Hash)
    (onRoot : ∀ h ∈ candidates, D.OnRoot h) :
    (∃ cause h, node.tryCandidates V D candidates = .panicked cause ∧
        BlockPanics V D start origin h) ∨
      ∃ walk accepted tip, node.tryCandidates V D candidates = .ok walk ∧
        Settles V D start origin walk.diffPoint accepted tip ∧
        (∀ outpoint, walk.diff.cell outpoint =
          Cell.between (node.virtual.utxoSet.lookup outpoint) (tip.ledger.utxos outpoint)) ∧
        ∀ sn, walk.poolDiff.cell sn =
          Cell.between (node.virtual.poolState.getNote sn) (tip.ledger.pool sn) := by
  rcases (reached.sound rooted).tryCandidates rooted onRoot with
    panicked | ⟨walk, done, sound⟩
  · exact .inl panicked
  · obtain ⟨accepted, tip, settles, leads⟩ := sound.leads
    exact .inr ⟨walk, accepted, tip, done, settles, leads.utxos, leads.pool⟩

/-! ## Agreement -/

/-- The rows of a block are the same for two nodes. -/
structure SameRows (stores stores' : ChainStores M) (h : Hash) : Prop where
  utxos : (stores.utxoDiffs.lookup h).map UtxoDiff.cell = (stores'.utxoDiffs.lookup h).map UtxoDiff.cell
  pool : (stores.notepoolDiffs.lookup h).map PoolDiff.cell = (stores'.notepoolDiffs.lookup h).map PoolDiff.cell
  multiset : stores.utxoMultisets.lookup h = stores'.utxoMultisets.lookup h

theorem StoresSound.sameRows {stores stores' : ChainStores M} {h : Hash}
    (sound : StoresSound V D start origin stores) (sound' : StoresSound V D start origin stores')
    (aboveRoot : D.AboveRoot h) (stored : h ∈ stores.utxoDiffs) (stored' : h ∈ stores'.utxoDiffs) :
    SameRows stores stores' h := by
  obtain ⟨diff, poolDiff, below, above, row⟩ := sound.rows h stored aboveRoot
  obtain ⟨diff', poolDiff', below', above', row'⟩ := sound'.rows h stored' aboveRoot
  -- The states below and above are determined by the block, and they determine the differences.
  obtain ⟨_, parent⟩ := row.parent
  obtain ⟨_, parent'⟩ := row'.parent
  obtain ⟨_, settles⟩ := row.settles
  obtain ⟨_, settles'⟩ := row'.settles
  obtain ⟨-, rfl⟩ := parent.unique parent'
  obtain ⟨-, rfl⟩ := settles.unique settles'
  have utxos : diff.cell = diff'.cell := funext fun o => (row.utxos o).trans (row'.utxos o).symm
  have pool : poolDiff.cell = poolDiff'.cell := funext fun sn => (row.pool sn).trans (row'.pool sn).symm
  refine ⟨?_, ?_, row.utxoMultisets.trans row'.utxoMultisets.symm⟩
  · rw [row.utxoDiffs, row'.utxoDiffs, Option.map_some, Option.map_some, utxos]
  · rw [row.notepoolDiffs, row'.notepoolDiffs, Option.map_some, Option.map_some, pool]

/-- Two nodes, whatever they went through, agree on every block that one of them has stored: the other one
does not disqualify it, has the same diffs and multiset if it has stored it, and can always move to it. -/
theorem nodes_agree (rooted : Rooted V D start origin) (reached : NodeReaches V D origin node)
    (reached' : NodeReaches V D origin node') {h : Hash} (aboveRoot : D.AboveRoot h)
    (stored : h ∈ node.stores.utxoDiffs) : node'.stores.statuses h ≠ .disqualifiedFromChain ∧
      (h ∈ node'.stores.utxoDiffs → SameRows node.stores node'.stores h) ∧
      ((∃ cause k, node'.tryCandidates V D [h] = .panicked cause ∧ BlockPanics V D start origin k) ∨
        ∃ walk, node'.tryCandidates V D [h] = .ok walk ∧ walk.diffPoint = h) := by
  have sound := reached.sound rooted
  have sound' := reached'.sound rooted
  obtain ⟨_, _, _, above, row⟩ := sound.stores.rows h stored aboveRoot
  obtain ⟨accepted, settles⟩ := row.settles
  refine ⟨fun status => sound'.stores.disqualified h status accepted above settles,
    sound.stores.sameRows sound'.stores aboveRoot stored, ?_⟩
  rw [NodeState.tryCandidates, Consensus.tryCandidates, List.foldlM_cons]
  rcases calculateUtxoStateRelatively_spec rooted sound'.base sound'.fromSink aboveRoot.1 with
    ⟨cause, k, panicked, block⟩ | ⟨walk, done, climbed⟩
  · rw [panicked]
    exact .inl ⟨cause, k, rfl, block⟩
  · rw [done]
    exact .inr ⟨walk, rfl, climbed.top.resolve_right fun invalid => invalid accepted above settles⟩

end Node

namespace Sample

/-- A coinbase for a block of the given blue score. -/
def scoredCoinbase (blueScore : UInt64) (extraData : UInt8) (values : List UInt64) : Transaction :=
  { coinbase extraData values with payload := u64LE blueScore ++ List.replicate 11 0 ++ [extraData] }

/-- A block that merges nothing but its parent. -/
def scored (hash parent : Hash) (blueScore daaScore : UInt64) (utxoCommitment : Hash)
    (transactions : List Transaction) : Hash × Block × GhostdagData :=
  (hash, ⟨⟨hash, [parent], 0, 0, utxoCommitment, 0, daaScore, blueScore, 0⟩, transactions⟩,
    ⟨blueScore, parent, [parent], []⟩)

/-- Two branches over genesis, 2 to 6 and 3 to 4, both with the same mint; 5, over 3, has a wrong
commitment. -/
def forkBlocks : List (Hash × Block × GhostdagData) := [ scored 1 0 0 0 0 [earlierCoinbase],
  scored 2 1 1 10 0 [scoredCoinbase 1 2 [], mint 0 7],
  scored 3 1 1 10 0 [scoredCoinbase 1 3 []],
  scored 4 3 2 20 0 [scoredCoinbase 2 4 [], mint 0 7],
  scored 5 3 2 20 1 [scoredCoinbase 2 5 []],
  scored 6 2 2 20 0 [scoredCoinbase 2 6 [100000000]]]

def forkHashes : List Hash := [1, 2, 3, 4, 5, 6]

def forkRow (h : Hash) : Block × GhostdagData :=
  (forkBlocks.lookup h).getD (genesis, ⟨0, 0, [], []⟩)

def fork : Dag where
  root := 1
  known h := h ∈ forkHashes
  block h := (forkRow h).1
  ghostdagData h := (forkRow h).2
  blueWork h := (forkRow h).2.blueScore.toNat
  rises h notRoot known _ := by
    have rises : forkHashes.all (fun h => h = 1 ∨ (forkRow (forkRow h).2.selectedParent).2.blueScore <
        (forkRow h).2.blueScore) = true := by decide +kernel
    have here := List.all_eq_true.mp rises h (of_decide_eq_true known)
    exact (of_decide_eq_true here).resolve_left notRoot

theorem fork_known {h : Hash} (known : fork.known h = true) : h ∈ forkHashes :=
  of_decide_eq_true known

def forkTransactions : List Transaction :=
  [earlierCoinbase, scoredCoinbase 1 2 [], mint 0 7, scoredCoinbase 1 3 [], scoredCoinbase 2 4 [],
    scoredCoinbase 2 5 [], scoredCoinbase 2 6 [100000000]]

theorem mem_forkTransactions {tx : Transaction} (member : tx ∈ fork.transactions []) : tx ∈ forkTransactions := by
  rcases member with none | ⟨h, known, member⟩
  · cases none
  · have inBlocks : forkHashes.all (fun h => (forkRow h).1.transactions.all (· ∈ forkTransactions)) =
        true := by decide +kernel
    have inBlock := List.all_eq_true.mp inBlocks h (fork_known known)
    exact of_decide_eq_true (List.all_eq_true.mp inBlock tx member)

theorem fork_noCollisions : NoCollisions hashers (fork.transactions []) where
  ids a inDag b inDag' same := by
    have distinct : (forkTransactions.map (Transaction.id hashers)).Nodup := by decide +kernel
    obtain rfl := List.inj_on_of_nodup_map distinct (mem_forkTransactions inDag) (mem_forkTransactions inDag') same
    exact ⟨rfl, rfl, rfl, fun _ => rfl, rfl, rfl, rfl, rfl⟩
  serials a inDag b inDag' sn made made' := by
    -- Only the mint makes a note.
    have mints : ∀ t ∈ forkTransactions, (poolUpdate hashers t).created.map Prod.fst = [] ∨
        t.id hashers = (mint 0 7).id hashers := by
      simp only [forkTransactions, List.forall_mem_cons]
      exact ⟨.inl rfl, .inl rfl, .inr trivial, .inl rfl, .inl rfl, .inl rfl, .inl rfl, by simp⟩
    rcases mints a (mem_forkTransactions inDag) with none | isMint
    · simp [none] at made
    · rcases mints b (mem_forkTransactions inDag') with none | isMint'
      · simp [none] at made'
      · exact isMint.trans isMint'.symm

theorem fork_rooted : Rooted node fork [] (genesisTip node (fork.block 1)) where
  rootKnown := rfl
  bodies h known notRoot := by
    have valid : ∀ h ∈ forkHashes, BodyValid node.toBodyProcessor (fork.block h) := by
      simp only [forkHashes, List.forall_mem_cons]
      exact ⟨⟨⟨_, rfl⟩, rfl⟩, ⟨⟨_, rfl⟩, rfl⟩, ⟨⟨_, rfl⟩, rfl⟩, ⟨⟨_, rfl⟩, rfl⟩, ⟨⟨_, rfl⟩, rfl⟩,
        ⟨⟨_, rfl⟩, rfl⟩, by simp⟩
    exact valid h (fork_known known)
  scores h known := by
    have scores : forkHashes.all (fun h => (fork.header h).blueScore = fork.blueScore h) = true := by
      decide +kernel
    exact of_decide_eq_true (List.all_eq_true.mp scores h (fork_known known))
  merges h onRoot _ b member := by
    have empty : forkHashes.all (fun h => fork.mergeset h = []) = true := by decide +kernel
    rw [of_decide_eq_true (List.all_eq_true.mp empty h (fork_known onRoot.1))] at member
    cases member
  free := fork_noCollisions
  block := rfl
  rootBody := BodyValid.wellFormed ⟨⟨_, rfl⟩, rfl⟩
  consistent := consistent_nil _
  once := ⟨List.nodup_nil, List.nodup_nil⟩
  wellFormed := by simp
  earlier := by simp
  payload coinbase first := by
    cases first
    rfl

/-- The node right after genesis. -/
def forkStart : NodeState Unit where
  virtual := ⟨∅, .empty, 1, .empty, .empty⟩
  stores := ⟨(∅ : Map Hash UtxoDiff).insert 1 .empty, (∅ : Map Hash PoolDiff).insert 1 .empty,
    (∅ : Map Hash Unit).insert 1 (), (∅ : Map Hash _).insert 1 [], fun _ => .utxoPendingVerification⟩

/-- Virtual over block 6, where the mint is accepted. -/
def forkMinted : NodeState Unit :=
  (forkStart.resolveVirtual node fork [6] [] 30).toOption.getD forkStart

theorem forkStart_starts : Starts fork (genesisTip node (fork.block 1)) forkStart where
  sink := rfl
  ledger := rfl
  utxoDiff := rfl
  poolDiff := rfl
  locks _ locked := nomatch locked
  multiset := rfl
  rows h above := by
    have other : h ≠ 1 := above.2
    simp only [forkStart, AList.mem_insert, other, false_or]
    exact ⟨AList.notMem_empty _, AList.notMem_empty _, AList.notMem_empty _, AList.notMem_empty _⟩
  statuses h _ status := nomatch status

theorem onRoot_fork : ∀ h ∈ forkHashes, fork.OnRoot h := by
  intro h member
  have reaches : forkHashes.all (fun h => fork.isChainAncestorOf 1 h) = true := by decide +kernel
  exact ⟨decide_eq_true member, List.all_eq_true.mp reaches h member⟩

theorem forkMinted_reached : NodeReaches node fork (genesisTip node (fork.block 1)) forkMinted := by
  have onRoot := List.forall_mem_singleton.mpr (onRoot_fork 6 (by decide))
  have nothing : fork.Mergeable [] := fun _ member => nomatch member
  have returns : (forkStart.resolveVirtual node fork [6] [] 30).toOption.isSome = true := by
    decide +kernel
  exact .resolved (.start forkStart_starts) onRoot nothing (eq_ok_getD returns _)

end Sample

open Sample in
/-- With virtual over block 6, where the mint is accepted, the walk tries block 5 of the other branch,
which is disqualified, and then block 4: its diff takes the note out. -/
theorem reorg_walk_difference_fork :
    forkMinted.virtual.poolState.getNote mintedSerial = some (.unlocked ⟨.d1, 7⟩) ∧
      ∃ walk accepted tip,
        forkMinted.tryCandidates node fork [5, 4] = .ok walk ∧
        walk.stores.statuses 5 = .disqualifiedFromChain ∧
        Settles node fork [] (genesisTip node (fork.block 1)) 4 accepted tip ∧
        tip.ledger.pool mintedSerial = none ∧
        walk.poolDiff.cell mintedSerial = ⟨none, some (.unlocked ⟨.d1, 7⟩)⟩ := by
  have live : forkMinted.virtual.poolState.getNote mintedSerial =
      some (.unlocked ⟨.d1, 7⟩) := by decide +kernel
  have ends : ((forkMinted.tryCandidates node fork [5, 4]).toOption.map fun walk =>
      (walk.diffPoint, walk.stores.statuses 5, walk.poolDiff.add.lookup mintedSerial,
        walk.poolDiff.remove.lookup mintedSerial)) =
      some (4, .disqualifiedFromChain, none, some (.unlocked ⟨.d1, 7⟩)) := by decide +kernel
  have onRoot : ∀ h ∈ [(5 : Hash), 4], fork.OnRoot h := by
    rw [List.forall_mem_cons, List.forall_mem_singleton]
    exact ⟨onRoot_fork 5 (by decide), onRoot_fork 4 (by decide)⟩
  refine ⟨live, ?_⟩
  rcases reorg_walk_difference fork_rooted forkMinted_reached [5, 4] onRoot with
    ⟨cause, _, panicked, _⟩ | ⟨walk, accepted, tip, done, settles, _, pool⟩
  · rw [panicked] at ends
    cases ends
  · rw [done] at ends
    simp only [Except.toOption, Option.map_some, Option.some.injEq, Prod.mk.injEq] at ends
    obtain ⟨point, status, added, removed⟩ := ends
    have cell : walk.poolDiff.cell mintedSerial = ⟨none, some (.unlocked ⟨.d1, 7⟩)⟩ :=
      Cell.ext added removed
    have difference := pool mintedSerial
    rw [live, cell] at difference
    refine ⟨walk, accepted, tip, done, status, point ▸ settles, ?_, cell⟩
    rw [← Cell.between_apply (some (.unlocked ⟨.d1, 7⟩)) (tip.ledger.pool _), ← difference]
    rfl

open Sample in
/-- One node has virtual over block 6. Another one, still at genesis, can move to block 2 of its chain. -/
theorem nodes_agree_fork : (2 : Hash) ∈ forkMinted.stores.utxoDiffs ∧
    forkStart.stores.statuses 2 ≠ .disqualifiedFromChain ∧
      ∃ walk, forkStart.tryCandidates node fork [2] = .ok walk ∧ walk.diffPoint = 2 := by
  have stored : (2 : Hash) ∈ forkMinted.stores.utxoDiffs := by
    have found : (forkMinted.stores.utxoDiffs.lookup 2).isSome = true := by decide +kernel
    exact AList.lookup_isSome.mp found
  have returns : (forkStart.tryCandidates node fork [2]).toOption.isSome = true := by decide +kernel
  obtain ⟨status, -, moves⟩ := nodes_agree fork_rooted forkMinted_reached (.start forkStart_starts)
    ⟨onRoot_fork 2 (by decide), by decide⟩ stored
  refine ⟨stored, status, ?_⟩
  rcases moves with ⟨cause, _, panicked, _⟩ | moves
  · rw [panicked] at returns
    cases returns
  · exact moves

end Marigold.Consensus
