import Marigold.Consensus.Reorg
import Marigold.Consensus.Settled
import Marigold.Utxo.Merge

/-!
# The walk keeps its place

Wherever the walk between chain blocks stops, its two accumulated diffs are the exact difference
between the virtual stores and the state of the block it stopped at, and what it has stored or
disqualified is right. So the next candidate starts from a correct base, also after one that was
disqualified part way.
-/

namespace Marigold.Consensus

open Lib NotePool Utxo Outcome

/-- What the virtual stores hold. -/
def VirtualStores.ledger (virtual : VirtualStores) : Ledger :=
  ⟨virtual.utxoSet.lookup, virtual.poolState.getNote⟩

/-- The diffs are the difference between the virtual stores and a state. -/
structure Leads (virtual : VirtualStores) (acc : Accumulated) (ledger : Ledger) : Prop where
  utxos : IsDifference acc.diff.cell virtual.ledger.utxos ledger.utxos
  pool : IsDifference acc.poolDiff.cell virtual.ledger.pool ledger.pool

section Leads

variable {virtual : VirtualStores} {acc : Accumulated} {a b : Ledger} {H : Hashers}
  {B : TransactionValidator} {txs : Set Transaction}

theorem Leads.utxoView (leads : Leads virtual acc a) : virtual.utxoView acc = a.utxos :=
  UtxoDiff.Reads.composed leads.utxos.represents

theorem Leads.poolView (leads : Leads virtual acc a) : virtual.poolView acc = a.pool :=
  PoolDiff.Reads.composed leads.pool.represents

theorem Leads.withDiffs (leads : Leads virtual acc a) (free : NoCollisions H txs)
    (wellFormed : ∀ t ∈ txs, TxWellFormed B t) (base : Explained H txs virtual.ledger)
    (explained : Explained H txs b) {diff : UtxoDiff} {poolDiff : PoolDiff}
    (utxos : IsDifference diff.cell a.utxos b.utxos) (pool : IsDifference poolDiff.cell a.pool b.pool) :
    ∃ acc', acc.withDiffs diff poolDiff = .ok acc' ∧ Leads virtual acc' b := by
  obtain ⟨merged, done, leadsUtxos⟩ := UtxoDiff.withDiffInPlace_difference leads.utxos utxos
    fun _ _ _ => base.sameOutput free wellFormed explained
  obtain ⟨mergedPool, donePool, leadsPool⟩ := PoolDiff.withDiffInPlace_difference leads.pool pool
    fun _ _ _ => base.sameNote free explained
  refine ⟨⟨merged, mergedPool⟩, ?_, leadsUtxos, leadsPool⟩
  rw [Accumulated.withDiffs, done, donePool]
  rfl

end Leads

section Reorg

variable {M : Type}

/-- The rows of a stored block: the differences from its selected parent's state to its own. -/
structure StoredRow (V : VirtualProcessor M) (D : Dag) (start : List Transaction)
    (origin : ChainTip M) (stores : ChainStores M) (h : Hash) (diff : UtxoDiff)
    (poolDiff : PoolDiff) (below above : ChainTip M) : Prop where
  parent : ∃ accepted, Settles V D start origin (D.selectedParent h) accepted below
  settles : ∃ accepted, Settles V D start origin h accepted above
  utxoDiffs : stores.utxoDiffs.lookup h = some diff
  notepoolDiffs : stores.notepoolDiffs.lookup h = some poolDiff
  utxoMultisets : stores.utxoMultisets.lookup h = some above.multiset
  utxos : IsDifference diff.cell below.ledger.utxos above.ledger.utxos
  pool : IsDifference poolDiff.cell below.ledger.pool above.ledger.pool

/-- The root, or a block with stored rows. -/
def ChainStores.Has (stores : ChainStores M) (D : Dag) (h : Hash) : Prop :=
  h = D.root ∨ h ∈ stores.utxoDiffs

/-- Everything stored for blocks over the root is right, and only blocks that are not UTXO valid are
disqualified. What is left of blocks that are not over the root does not matter. -/
structure StoresSound (V : VirtualProcessor M) (D : Dag) (start : List Transaction)
    (origin : ChainTip M) (stores : ChainStores M) : Prop where
  rows : ∀ h ∈ stores.utxoDiffs, D.AboveRoot h → ∃ diff poolDiff below above,
    StoredRow V D start origin stores h diff poolDiff below above
  closed : ∀ h ∈ stores.utxoDiffs, D.AboveRoot h → stores.Has D (D.selectedParent h)
  root : stores.utxoMultisets.lookup D.root = some origin.multiset
  together : ∀ h, D.AboveRoot h → h ∉ stores.utxoDiffs →
    h ∉ stores.notepoolDiffs ∧ h ∉ stores.utxoMultisets ∧ h ∉ stores.acceptanceData
  disqualified : ∀ h, stores.statuses h = .disqualifiedFromChain →
    ∀ accepted tip, ¬ Settles V D start origin h accepted tip

/-- The walk is at a settled and stored block, with the right diffs. -/
structure WalkSound (V : VirtualProcessor M) (D : Dag) (start : List Transaction)
    (origin : ChainTip M) (virtual : VirtualStores) (walk : ChainWalk M) : Prop where
  stores : StoresSound V D start origin walk.stores
  stored : walk.stores.Has D walk.diffPoint
  leads : ∃ accepted tip, Settles V D start origin walk.diffPoint accepted tip ∧
    Leads virtual walk.toAccumulated tip.ledger

/-- Computing or verifying the block in its selected parent's state panics. -/
def BlockPanics (V : VirtualProcessor M) (D : Dag) (start : List Transaction) (origin : ChainTip M) (h : Hash) : Prop :=
  D.OnRoot h ∧ h ≠ D.root ∧ ∃ accepted tip cause, Settles V D start origin (D.selectedParent h) accepted tip ∧
      (tip.walk V (D.mergesetBlocks h) (D.header h).daaScore = .panicked cause ∨ ∃ ctx poolState poolDiff,
          tip.walk V (D.mergesetBlocks h) (D.header h).daaScore = .ok ctx ∧
          composedPoolView poolState.lookup poolDiff = tip.ledger.pool ∧
          verifyExpectedUtxoState V ctx (D.ghostdagData h) (D.block h) tip.ledger.utxos
            tip.ledger.pool poolState poolDiff = .panicked cause)

variable {V : VirtualProcessor M} {D : Dag} {start : List Transaction} {origin : ChainTip M}
  {virtual : VirtualStores} {stores : ChainStores M} {walk : ChainWalk M} {h target : Hash} {diff : UtxoDiff}
  {poolDiff : PoolDiff} {below above tip : ChainTip M} {accepted : List Transaction} {W : Type} {store : Map Hash W}
  {ctx : UtxoProcessingContext M} {k : Hash} {walk' : ChainWalk M}

/-! ## Down -/

theorem StoredRow.diffs (row : StoredRow V D start origin stores h diff poolDiff below above) :
    stores.diffs h = .ok (diff, poolDiff) := by
  rw [ChainStores.diffs, row.utxoDiffs, row.notepoolDiffs]
  rfl

section

variable (sound : StoresSound V D start origin stores) (stored : stores.Has D h)
  (settles : Settles V D start origin h accepted tip)

include sound stored settles

theorem StoresSound.down {p : Hash} (parent : D.chainParent h = some p) :
    stores.Has D p ∧ ∃ diff poolDiff accepted' below, Settles V D start origin p accepted' below ∧
      StoredRow V D start origin stores h diff poolDiff below tip := by
  obtain ⟨notRoot, _, _, rfl⟩ := D.chainParent_eq_some.mp parent
  have inStores : h ∈ stores.utxoDiffs := stored.resolve_left notRoot
  have aboveRoot := settles.aboveRoot notRoot
  obtain ⟨diff, poolDiff, below, top, row⟩ := sound.rows h inStores aboveRoot
  obtain ⟨_, settles'⟩ := row.settles
  obtain ⟨_, rfl⟩ := settles.unique settles'
  obtain ⟨accepted', settled⟩ := row.parent
  exact ⟨sound.closed h inStores aboveRoot, diff, poolDiff, accepted', below, settled, row⟩

/-- The way down always ends, at a block of the target's chain. -/
theorem unwind_ok (rooted : Rooted V D start origin)
    (base : Explained V.crypto.hashers (D.transactions start) virtual.ledger)
    (onRoot : D.OnRoot target) {acc : Accumulated} (leads : Leads virtual acc tip.ledger) :
    ∃ splitPoint acc', unwind D stores target (D.backwardChain h) acc = .ok (splitPoint, acc') ∧
      splitPoint ∈ D.backwardChain target ∧ WalkSound V D start origin virtual ⟨acc', splitPoint, stores⟩ := by
  induction h using D.forest.line_induction generalizing acc accepted tip with
  | root h above =>
    -- Only the root itself has nothing below, and the target is over the root.
    obtain ⟨rest, whole⟩ := D.forest.line_eq_cons h
    rcases (settles.state rooted).onRoot.cases with rfl | ⟨_, parent, _⟩
    · refine ⟨D.root, acc, ?_, D.isChainAncestorOf_iff.mp onRoot.2, sound, stored, accepted, tip, settles, leads⟩
      rw [Dag.backwardChain, whole, unwind, if_pos onRoot.2]
    · exact nomatch above.symm.trans parent
  | next h p above ih =>
    have line : D.backwardChain h = h :: D.backwardChain p := D.forest.line_of_parent above
    rw [line, unwind]
    split
    next reached =>
      exact ⟨h, acc, rfl, D.isChainAncestorOf_iff.mp reached, sound, stored, accepted, tip, settles, leads⟩
    next apart =>
      obtain ⟨storedBelow, diff, poolDiff, accepted', below, parent, row⟩ := sound.down stored settles above
      obtain ⟨acc', merged, leads'⟩ := leads.withDiffs rooted.free
        (fun _ => rooted.wellFormed_tx) base (parent.state rooted).explained
        (UtxoDiff.reversed_difference row.utxos) (PoolDiff.reversed_difference row.pool)
      obtain ⟨splitPoint, acc'', done, result⟩ := ih storedBelow parent leads'
      refine ⟨splitPoint, acc'', ?_, result⟩
      rw [row.diffs]
      simp only [bind, Except.bind, merged]
      exact done

/-! ## Storing and disqualifying -/

end

theorem StoredRow.of_agree {stores' : ChainStores M}
    (row : StoredRow V D start origin stores h diff poolDiff below above)
    (utxoDiffs : stores'.utxoDiffs.lookup h = stores.utxoDiffs.lookup h)
    (notepoolDiffs : stores'.notepoolDiffs.lookup h = stores.notepoolDiffs.lookup h)
    (utxoMultisets : stores'.utxoMultisets.lookup h = stores.utxoMultisets.lookup h) :
    StoredRow V D start origin stores' h diff poolDiff below above :=
  { row with
    utxoDiffs := utxoDiffs.trans row.utxoDiffs
    notepoolDiffs := notepoolDiffs.trans row.notepoolDiffs
    utxoMultisets := utxoMultisets.trans row.utxoMultisets }

theorem StoresSound.withStatus (sound : StoresSound V D start origin stores) {status : BlockStatus}
    (right : status = .disqualifiedFromChain → ∀ accepted tip, ¬ Settles V D start origin h accepted tip) :
    StoresSound V D start origin { stores with statuses := Function.update stores.statuses h status } where
  rows k member aboveRoot := by
    obtain ⟨diff, poolDiff, below, above, row⟩ := sound.rows k member aboveRoot
    exact ⟨diff, poolDiff, below, above, row.of_agree rfl rfl rfl⟩
  closed := sound.closed
  root := sound.root
  together := sound.together
  disqualified k isDisqualified := by
    by_cases here : k = h
    · subst here
      simp only [Function.update_self] at isDisqualified
      exact right isDisqualified
    · simp only [Function.update_of_ne here] at isDisqualified
      exact sound.disqualified k isDisqualified

theorem StoresSound.disqualify (sound : StoresSound V D start origin stores)
    (invalid : ∀ accepted tip, ¬ Settles V D start origin h accepted tip) :
    StoresSound V D start origin (stores.disqualify h) :=
  sound.withStatus fun _ => invalid

theorem insertNew_ok (absent : h ∉ store) (w : W) : insertNew store h w = .ok (store.insert h w) :=
  if_neg absent

/-- The stores with the rows of one more block. -/
def ChainStores.withBlock (stores : ChainStores M) (h : Hash) (ctx : UtxoProcessingContext M) : ChainStores M where
  utxoDiffs := stores.utxoDiffs.insert h ctx.mergesetDiff
  notepoolDiffs := stores.notepoolDiffs.insert h ctx.mergesetPoolDiff
  utxoMultisets := stores.utxoMultisets.insert h ctx.multisetHash
  acceptanceData := stores.acceptanceData.insert h ctx.mergesetAcceptanceData
  statuses := Function.update stores.statuses h .utxoValid

theorem StoresSound.commitUtxoState (sound : StoresSound V D start origin stores)
    (aboveRoot : D.AboveRoot h) (absent : h ∉ stores.utxoDiffs) (ctx : UtxoProcessingContext M) :
    Consensus.commitUtxoState stores h ctx = .ok (stores.withBlock h ctx) := by
  obtain ⟨noDiff, noMultiset, noAcceptance⟩ := sound.together h aboveRoot absent
  rw [Consensus.commitUtxoState, insertNew_ok absent, insertNew_ok noDiff, insertNew_ok noMultiset,
    insertNew_ok noAcceptance]
  rfl

theorem StoresSound.withBlock (sound : StoresSound V D start origin stores) (notRoot : h ≠ D.root)
    (stored : stores.Has D (D.selectedParent h))
    (parent : ∃ accepted, Settles V D start origin (D.selectedParent h) accepted below)
    (settles : ∃ accepted, Settles V D start origin h accepted above) (multiset : above.multiset = ctx.multisetHash)
    (utxos : IsDifference ctx.mergesetDiff.cell below.ledger.utxos above.ledger.utxos)
    (pool : IsDifference ctx.mergesetPoolDiff.cell below.ledger.pool above.ledger.pool) :
    StoresSound V D start origin (stores.withBlock h ctx) where
  rows k member aboveRoot := by
    by_cases here : k = h
    · subst here
      exact ⟨_, _, below, above, parent, settles, AList.lookup_insert _, AList.lookup_insert _,
        multiset ▸ AList.lookup_insert _, utxos, pool⟩
    · have before : k ∈ stores.utxoDiffs := (AList.mem_insert _).mp member |>.resolve_left here
      obtain ⟨diff, poolDiff, below, above, row⟩ := sound.rows k before aboveRoot
      exact ⟨diff, poolDiff, below, above, row.of_agree (AList.lookup_insert_ne here)
        (AList.lookup_insert_ne here) (AList.lookup_insert_ne here)⟩
  closed k member aboveRoot := by
    have grows : ∀ k', stores.Has D k' → (stores.withBlock h ctx).Has D k' :=
      fun k' has => has.imp_right fun inside => (AList.mem_insert _).mpr (.inr inside)
    rcases (AList.mem_insert _).mp member with rfl | before
    · exact grows _ stored
    · exact grows _ (sound.closed k before aboveRoot)
  root := (AList.lookup_insert_ne (Ne.symm notRoot)).trans sound.root
  together k aboveRoot outside := by
    simp only [ChainStores.withBlock, AList.mem_insert, not_or] at outside ⊢
    obtain ⟨noDiff, noMultiset, noAcceptance⟩ := sound.together k aboveRoot outside.2
    exact ⟨⟨outside.1, noDiff⟩, ⟨outside.1, noMultiset⟩, outside.1, noAcceptance⟩
  disqualified k status := by
    by_cases here : k = h
    · simp [ChainStores.withBlock, here] at status
    · simp only [ChainStores.withBlock, Function.update_of_ne here] at status
      exact sound.disqualified k status

/-! ## Up -/

/-- The walk is sound, and at the given block unless that one is not UTXO valid. -/
structure ClimbSound (V : VirtualProcessor M) (D : Dag) (start : List Transaction)
    (origin : ChainTip M) (virtual : VirtualStores) (walk : ChainWalk M) (h : Hash) : Prop where
  sound : WalkSound V D start origin virtual walk
  top : walk.diffPoint = h ∨ ∀ accepted tip, ¬ Settles V D start origin h accepted tip

/-- Nothing over a block that is not UTXO valid is. -/
theorem Settles.parent_settles (settles : Settles V D start origin h accepted tip) (notRoot : h ≠ D.root) :
    ∃ accepted' below ctx, Settles V D start origin (D.selectedParent h) accepted' below ∧
      below.walk V (D.mergesetBlocks h) (D.header h).daaScore = .ok ctx ∧ Qualifies V D h below ctx := by
  cases settles with
  | root => exact absurd rfl notRoot
  | next parent _ _ walked qualified _ => exact ⟨_, _, _, parent, walked, qualified⟩

theorem verifyExpectedUtxoState_congr {ghostdagData : GhostdagData} {block : Block} {utxoView : UtxoView}
    {poolView : PoolView} {poolState poolState' : PoolCollection} {poolDiff' : PoolDiff}
    (same : composedPoolView poolState.lookup poolDiff = composedPoolView poolState'.lookup poolDiff') :
    verifyExpectedUtxoState V ctx ghostdagData block utxoView poolView poolState poolDiff =
      verifyExpectedUtxoState V ctx ghostdagData block utxoView poolView poolState' poolDiff' := by
  have commitment : verifyPoolCommitment V ctx block poolState poolDiff =
      verifyPoolCommitment V ctx block poolState' poolDiff' := by
    rw [verifyPoolCommitment, verifyPoolCommitment, recomputePoolCommitment_congr V.crypto.hashers same]
  rw [verifyExpectedUtxoState, verifyExpectedUtxoState, commitment]

theorem toMap_lookup (store : DbNotePoolStore) : store.toMap.lookup = store.getNote := by
  funext sn
  rw [DbNotePoolStore.toMap, Map.lookup_mapValues]
  rfl

variable {current : Hash}

theorem StoresSound.multiset (sound : StoresSound V D start origin stores) (stored : stores.Has D h)
    (settles : Settles V D start origin h accepted tip) : stores.utxoMultisets.lookup h = some tip.multiset := by
  by_cases isRoot : h = D.root
  · subst isRoot
    rw [sound.root, (settles.unique .root).2]
  · obtain ⟨_, _, _, above, row⟩ := sound.rows h (stored.resolve_left isRoot) (settles.aboveRoot isRoot)
    obtain ⟨_, settles'⟩ := row.settles
    rw [row.utxoMultisets, (settles.unique settles').2]

theorem verifyChainBlock_eq (leads : Leads virtual walk.toAccumulated tip.ledger) (below : tip.block = D.block (D.selectedParent current))
    (multiset : walk.stores.utxoMultisets.lookup walk.diffPoint = some tip.multiset) :
    verifyChainBlock V D virtual walk walk.diffPoint current =
      (tip.walk V (D.mergesetBlocks current) (D.header current).daaScore >>= fun ctx =>
        match verifyExpectedUtxoState V ctx (D.ghostdagData current) (D.block current)
            tip.ledger.utxos tip.ledger.pool virtual.poolState.toMap walk.poolDiff with
        | .error (.panic cause) => .panicked cause
        | .error (.rule _) => return { walk with stores := walk.stores.disqualify current }
        | .ok () => do
          let acc ← walk.withDiffs ctx.mergesetDiff ctx.mergesetPoolDiff
          return ⟨acc, current, ← commitUtxoState walk.stores current ctx⟩) := by
  rw [verifyChainBlock, multiset, ChainTip.walk, below, ← leads.utxoView, ← leads.poolView]
  rfl

section

variable (rooted : Rooted V D start origin) (base : Explained V.crypto.hashers (D.transactions start) virtual.ledger)

include rooted base

theorem verifyChainBlock_spec (sound : WalkSound V D start origin virtual walk) (onRoot : D.OnRoot current)
    (notRoot : current ≠ D.root) (at_ : D.selectedParent current = walk.diffPoint)
    (absent : current ∉ walk.stores.utxoDiffs) :
    (∃ cause, verifyChainBlock V D virtual walk walk.diffPoint current = .panicked cause ∧
        BlockPanics V D start origin current) ∨
      ∃ walk', verifyChainBlock V D virtual walk walk.diffPoint current = .ok walk' ∧
        ClimbSound V D start origin virtual walk' current := by
  obtain ⟨accepted, tip, settles, leads⟩ := sound.leads
  have state := settles.state rooted
  have multiset := sound.stores.multiset sound.stored settles
  have composed : composedPoolView virtual.poolState.toMap.lookup walk.poolDiff = tip.ledger.pool := by
    rw [toMap_lookup]
    exact leads.poolView
  rw [verifyChainBlock_eq leads (at_ ▸ state.block) multiset]
  have parent : Settles V D start origin (D.selectedParent current) accepted tip := at_ ▸ settles
  cases walked : tip.walk V (D.mergesetBlocks current) (D.header current).daaScore with
  | error failure =>
    cases failure with
    | rule e => cases e
    | panic cause =>
      exact .inl ⟨cause, rfl, onRoot, notRoot, accepted, tip, cause, parent, .inl walked⟩
  | ok ctx =>
    simp only [bind, Except.bind]
    cases verified : verifyExpectedUtxoState V ctx (D.ghostdagData current) (D.block current)
        tip.ledger.utxos tip.ledger.pool virtual.poolState.toMap walk.poolDiff with
    | error failure =>
      cases failure with
      | panic cause =>
        exact .inl ⟨cause, rfl, onRoot, notRoot, accepted, tip, cause, parent,
          .inr ⟨ctx, _, _, walked, composed, verified⟩⟩
      | rule e =>
        -- Verified in another representation of the same state, it would be rejected as well.
        have invalid : ∀ accepted tip, ¬ Settles V D start origin current accepted tip := by
          intro accepted' tip' valid
          obtain ⟨_, below, ctx', parent', walked', poolState, poolDiff, same, qualified⟩ :=
            valid.parent_settles notRoot
          obtain ⟨_, rfl⟩ := parent.unique parent'
          cases walked.symm.trans walked'
          rw [verifyExpectedUtxoState_congr (composed.trans same.symm)] at verified
          cases verified.symm.trans qualified
        exact .inr ⟨_, rfl, ⟨sound.stores.disqualify invalid, sound.stored, accepted, tip, settles,
          leads⟩, .inr invalid⟩
    | ok _ =>
      have mergeable := rooted.mergeable onRoot notRoot
      obtain ⟨coinbase, first, _⟩ := (state.walkInput rooted mergeable).coinbase
      have next := Settles.next parent onRoot notRoot walked ⟨_, _, composed, verified⟩ first
      obtain ⟨utxos, pool⟩ := (state.walked rooted mergeable walked first).differences
      obtain ⟨acc, merged, leads'⟩ := leads.withDiffs rooted.free (fun _ => rooted.wellFormed_tx)
        base (next.state rooted).explained utxos pool
      refine .inr ⟨⟨acc, current, walk.stores.withBlock current ctx⟩, ?_, ⟨?_, ?_, _, _, next, leads'⟩, .inl rfl⟩
      · rw [merged, sound.stores.commitUtxoState ⟨onRoot, notRoot⟩ absent]
        rfl
      · exact sound.stores.withBlock notRoot (at_ ▸ sound.stored) ⟨_, parent⟩ ⟨_, next⟩ rfl utxos pool
      · exact .inr ((AList.mem_insert _).mpr (.inl rfl))

theorem climb_spec (onRoot : D.OnRoot current) (notRoot : current ≠ D.root)
    (climbing : ClimbSound V D start origin virtual walk (D.selectedParent current)) :
    (∃ cause, climb V D virtual walk (D.selectedParent current, current) = .panicked cause ∧
        BlockPanics V D start origin current) ∨
      ∃ walk', climb V D virtual walk (D.selectedParent current, current) = .ok walk' ∧
        ClimbSound V D start origin virtual walk' current := by
  obtain ⟨sound, top⟩ := climbing
  unfold climb
  split
  next away =>
    -- The selected parent is not UTXO valid, so neither is the block.
    have invalid : ∀ accepted tip, ¬ Settles V D start origin current accepted tip := by
      intro accepted tip valid
      obtain ⟨_, _, _, parent, _⟩ := valid.parent_settles notRoot
      exact top.resolve_left (fun same => away same.symm) _ _ parent
    exact .inr ⟨_, rfl, ⟨sound.stores.disqualify invalid, sound.stored, sound.leads⟩, .inr invalid⟩
  next here =>
    have at_ : D.selectedParent current = walk.diffPoint := not_not.mp here
    split
    next diff stored =>
      have inStores : current ∈ walk.stores.utxoDiffs :=
        AList.lookup_isSome.mp (Option.isSome_of_eq_some stored)
      obtain ⟨diff, poolDiff, below, above, row⟩ := sound.stores.rows _ inStores ⟨onRoot, notRoot⟩
      obtain ⟨accepted, tip, settles, leads⟩ := sound.leads
      obtain ⟨_, parent⟩ := row.parent
      obtain ⟨_, rfl⟩ := settles.unique (at_ ▸ parent)
      obtain ⟨accepted', next⟩ := row.settles
      obtain ⟨acc, merged, leads'⟩ := leads.withDiffs rooted.free (fun _ => rooted.wellFormed_tx)
        base (next.state rooted).explained row.utxos row.pool
      refine .inr ⟨⟨acc, current, walk.stores⟩, ?_, ⟨sound.stores, .inr inStores, accepted', above,
        next, leads'⟩, .inl rfl⟩
      rw [row.diffs]
      simp only [bind, Except.bind, merged]
      rfl
    next absent =>
      split
      next status => exact .inr ⟨walk, rfl, sound, .inr (sound.stores.disqualified _ status)⟩
      · rw [at_]
        exact verifyChainBlock_spec rooted base sound onRoot notRoot at_ (AList.lookup_eq_none.mp absent)

theorem climbs_spec (rest : List Hash) (climbing : ClimbSound V D start origin virtual walk current)
    (chain : (current :: rest).IsChain fun parent child => D.chainParent child = some parent)
    (onRoot : D.OnRoot current) :
    (∃ cause h, ((current :: rest).zip rest).foldlM (climb V D virtual) walk = .panicked cause ∧
        BlockPanics V D start origin h) ∨
      ∃ walk', ((current :: rest).zip rest).foldlM (climb V D virtual) walk = .ok walk' ∧
        ClimbSound V D start origin virtual walk' ((current :: rest).getLast (by simp)) := by
  induction rest generalizing walk current with
  | nil => exact .inr ⟨walk, rfl, climbing⟩
  | cons next rest ih =>
    rw [List.isChain_cons_cons] at chain
    have above := onRoot.child chain.1
    obtain ⟨notRoot, _, _, rfl⟩ := D.chainParent_eq_some.mp chain.1
    rw [List.zip_cons_cons, List.foldlM_cons]
    rcases climb_spec rooted base above notRoot climbing with
      ⟨cause, panicked, block⟩ | ⟨walk', done, climbing'⟩
    · rw [panicked]
      exact .inl ⟨cause, next, rfl, block⟩
    · rw [done, List.getLast_cons (by simp)]
      exact ih climbing' chain.2 above

/-- Moving to a target: the walk ends there, or at a block below if the target is not UTXO valid. -/
theorem calculateUtxoStateRelatively_spec (sound : WalkSound V D start origin virtual walk) (onRoot : D.OnRoot target) :
    (∃ cause h, calculateUtxoStateRelatively V D virtual walk target = .panicked cause ∧
        BlockPanics V D start origin h) ∨ ∃ walk', calculateUtxoStateRelatively V D virtual walk target = .ok walk' ∧
        ClimbSound V D start origin virtual walk' target := by
  unfold calculateUtxoStateRelatively
  split
  next status => exact .inr ⟨walk, rfl, sound, .inr (sound.stores.disqualified _ status)⟩
  · obtain ⟨accepted, tip, settles, leads⟩ := sound.leads
    obtain ⟨splitPoint, acc, unwound, onChain, sound'⟩ :=
      unwind_ok sound.stores sound.stored settles rooted base onRoot leads
    obtain ⟨_, _, settles', _⟩ := sound'.leads
    rw [unwound]
    have climbed := climbs_spec rooted base ((D.forest.line target).takeWhile (· ≠ splitPoint)).reverse
      ⟨sound', .inl rfl⟩ (D.forest.path_isChain onChain) (settles'.state rooted).onRoot
    have top := D.forest.path_getLast onChain
    rcases climbed with panicked | ⟨walk', done, climbing⟩
    · exact .inl panicked
    · exact .inr ⟨walk', done, climbing.sound, top ▸ climbing.top⟩

theorem tryCandidates_spec (candidates : List Hash) (sound : WalkSound V D start origin virtual walk)
    (onRoot : ∀ h ∈ candidates, D.OnRoot h) : (∃ cause h, tryCandidates V D virtual walk candidates = .panicked cause ∧
        BlockPanics V D start origin h) ∨
      ∃ walk', tryCandidates V D virtual walk candidates = .ok walk' ∧ WalkSound V D start origin virtual walk' := by
  induction candidates generalizing walk with
  | nil => exact .inr ⟨walk, rfl, sound⟩
  | cons target rest ih =>
    rw [List.forall_mem_cons] at onRoot
    rw [tryCandidates, List.foldlM_cons]
    rcases calculateUtxoStateRelatively_spec rooted base sound onRoot.1 with
      ⟨cause, h, panicked, block⟩ | ⟨walk', done, climbing⟩
    · rw [panicked]
      exact .inl ⟨cause, h, rfl, block⟩
    · rw [done]
      exact ih climbing.sound onRoot.2

end

/-! ## Nothing stored gets lost -/

theorem insertNew_grows {store' : Map Hash W} {w : W} (done : insertNew store current w = .ok store')
    (stored : k ∈ store) : k ∈ store' := by
  unfold insertNew at done
  split at done
  · cases done
  · cases done
    exact (AList.mem_insert _).mpr (.inr stored)

theorem verifyChainBlock_grows {selectedParent : Hash}
    (done : verifyChainBlock V D virtual walk selectedParent current = .ok walk') (stored : walk.stores.Has D k) :
    walk'.stores.Has D k := by
  obtain ⟨multiset, _, done⟩ := bind_eq_ok.mp done
  obtain ⟨ctx, _, done⟩ := bind_eq_ok.mp done
  split at done
  · cases done
  · cases done
    exact stored
  · obtain ⟨acc, _, done⟩ := bind_eq_ok.mp done
    obtain ⟨after, committed, done⟩ := bind_eq_ok.mp done
    cases done
    obtain ⟨utxoDiffs, inserted, committed⟩ := bind_eq_ok.mp committed
    obtain ⟨notepoolDiffs, _, committed⟩ := bind_eq_ok.mp committed
    obtain ⟨utxoMultisets, _, committed⟩ := bind_eq_ok.mp committed
    obtain ⟨acceptanceData, _, committed⟩ := bind_eq_ok.mp committed
    cases committed
    exact stored.imp_right (insertNew_grows inserted)

theorem climb_grows {step : Hash × Hash} (done : climb V D virtual walk step = .ok walk')
    (stored : walk.stores.Has D k) : walk'.stores.Has D k := by
  unfold climb at done
  split at done
  · cases done
    exact stored
  · split at done
    · obtain ⟨⟨diff, poolDiff⟩, _, done⟩ := bind_eq_ok.mp done
      obtain ⟨acc, _, done⟩ := bind_eq_ok.mp done
      cases done
      exact stored
    · split at done
      · cases done
        exact stored
      · exact verifyChainBlock_grows done stored

theorem calculateUtxoStateRelatively_grows (done : calculateUtxoStateRelatively V D virtual walk target = .ok walk')
    (stored : walk.stores.Has D k) : walk'.stores.Has D k := by
  unfold calculateUtxoStateRelatively at done
  split at done
  · cases done
    exact stored
  · obtain ⟨⟨splitPoint, acc⟩, _, done⟩ := bind_eq_ok.mp done
    exact foldlM_keeps (fun walk => walk.stores.Has D k)
      (fun _ _ _ _ stored step => climb_grows step stored) stored done

theorem tryCandidates_grows {candidates : List Hash} (done : tryCandidates V D virtual walk candidates = .ok walk')
    (stored : walk.stores.Has D k) : walk'.stores.Has D k :=
  foldlM_keeps (fun walk => walk.stores.Has D k)
    (fun _ _ _ _ stored step => calculateUtxoStateRelatively_grows step stored) stored done

end Reorg

end Marigold.Consensus
