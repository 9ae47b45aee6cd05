import Marigold.Mining.Conflicts

/-!
# Whether what is in the pool can be mined

A transaction can be mined after the transactions of the pool that it spends from, if each of its inputs is an
output of one of them or in the virtual UTXO set. An insertion removes what the transaction replaces, and what
is evicted for it, with everything chained to them.
-/

namespace Marigold.Mining

open Lib

variable {C : Config} {view : Utxo.UtxoView} {m m' : Mempool}

/-- An output of a transaction of the pool, or in the virtual UTXO set. -/
def Available (view : Utxo.UtxoView) (all : MempoolTransactionCollection) (outpoint : TransactionOutpoint) : Prop :=
  (∃ parent, all.lookup outpoint.transactionId = some parent ∧
    outpoint.index.toNat < parent.mtx.tx.outputs.length) ∨ (view outpoint).isSome

/-- Every input of every transaction is available. -/
def Minable (view : Utxo.UtxoView) (all : MempoolTransactionCollection) : Prop :=
  ∀ id tx, all.lookup id = some tx → ∀ outpoint ∈ tx.mtx.spends, Available view all outpoint

instance (view : Utxo.UtxoView) (all : MempoolTransactionCollection) (outpoint : TransactionOutpoint) :
    Decidable (Available view all outpoint) :=
  decidable_of_iff (((all.lookup outpoint.transactionId).any fun parent =>
      decide (outpoint.index.toNat < parent.mtx.tx.outputs.length)) = true ∨ (view outpoint).isSome = true) (by
    cases found : all.lookup outpoint.transactionId <;> simp [Available, found])

instance (view : Utxo.UtxoView) (all : MempoolTransactionCollection) : Decidable (Minable view all) :=
  decidable_of_iff (∀ entry ∈ all.entries, ∀ outpoint ∈ entry.2.mtx.spends, Available view all outpoint) (by
    refine ⟨fun every id tx there => every ⟨id, tx⟩ (Map.lookup_eq_some_iff.mp there), fun every entry member => ?_⟩
    exact every entry.1 entry.2 (Map.lookup_eq_some_iff.mpr member))

/-! ## What is removed -/

namespace TransactionsPool

/-- One of these transactions of the pool, or chained to one. -/
abbrev Hit (pool : TransactionsPool) (ids : List TransactionId) (id : TransactionId) : Prop :=
  Reach.Hit (Pool.edgesOf pool.chainedTransactions) (Pool.has pool.allTransactions) ids id

/-- Each transaction is chained to the transactions of the pool that it spends from. -/
def Linked (pool : TransactionsPool) : Prop :=
  ∀ id tx, pool.allTransactions.lookup id = some tx → ∀ parent ∈ tx.mtx.parents,
    Pool.has pool.allTransactions parent = true → id ∈ Pool.edgesOf pool.chainedTransactions parent

/-- The transactions that were hit are gone; the others are chained as before. -/
structure Pruned (ids : List TransactionId) (pool pool' : TransactionsPool) : Prop where
  left : ∀ id, Pool.has pool'.allTransactions id = true ↔ Pool.has pool.allTransactions id = true ∧ ¬pool.Hit ids id
  same : ∀ p c, Pool.has pool'.allTransactions p = true → Pool.has pool'.allTransactions c = true →
    (c ∈ Pool.edgesOf pool'.chainedTransactions p ↔ c ∈ Pool.edgesOf pool.chainedTransactions p)

variable {pool pool' : TransactionsPool} {ids : List TransactionId} {id : TransactionId}

theorem Hit.has (hit : pool.Hit ids id) : Pool.has pool.allTransactions id = true := by
  obtain ⟨start, -, there, path⟩ := hit
  induction path with
  | refl => exact there
  | tail _ edge _ => exact edge.2

theorem mem_redeemers (there : Pool.has pool.allTransactions id = true) {other : TransactionId} :
    other ∈ Pool.getRedeemerIdsInPool pool.allTransactions pool.chainedTransactions id ↔
      Relation.TransGen (Reach.Edge (Pool.edgesOf pool.chainedTransactions) (Pool.has pool.allTransactions))
        id other := by
  rw [Pool.getRedeemerIdsInPool, if_pos there]
  exact Reach.mem_search fun k isKnown => AList.lookup_isSome.mp isKnown

theorem Pruned.parent_left (pruned : Pruned ids pool pool') (linked : pool.Linked) {tx : MempoolTransaction}
    (there : pool.allTransactions.lookup id = some tx) (left : Pool.has pool'.allTransactions id = true)
    {parent : TransactionId} (member : parent ∈ tx.mtx.parents)
    (before : Pool.has pool.allTransactions parent = true) : Pool.has pool'.allTransactions parent = true := by
  refine (pruned.left parent).mpr ⟨before, fun hit => ?_⟩
  have chained := linked id tx there parent member before
  exact ((pruned.left id).mp left).2 (hit.step chained ((pruned.left id).mp left).1)

theorem Pruned.linked (pruned : Pruned ids pool pool') (linked : pool.Linked)
    (sub : ∀ id tx, pool'.allTransactions.lookup id = some tx → pool.allTransactions.lookup id = some tx) :
    pool'.Linked := by
  intro id tx there parent member kept
  rw [pruned.same parent id kept (Pool.has_of_lookup there)]
  exact linked id tx (sub id tx there) parent member ((pruned.left parent).mp kept).1

end TransactionsPool

namespace Mempool

theorem mem_removedBy (inv : Inv C m) {id other : TransactionId} :
    other ∈ m.removedBy id true ↔ m.transactionPool.Hit [id] other := by
  have only : m.transactionPool.Hit [id] other ↔ Pool.has m.transactionPool.allTransactions id = true ∧
      (other = id ∨ Relation.TransGen (Reach.Edge (Pool.edgesOf m.transactionPool.chainedTransactions)
        (Pool.has m.transactionPool.allTransactions)) id other) := by
    rw [← Relation.reflTransGen_iff_eq_or_transGen]
    simp only [TransactionsPool.Hit, Reach.Hit, List.mem_singleton, exists_eq_left]
  rw [only, removedBy]
  split
  next orphan =>
    simp [Pool.has_eq_false.mpr (inv.apart id orphan)]
  · split
    next there =>
      rw [if_pos rfl, List.mem_cons, TransactionsPool.mem_redeemers there]
      exact (and_iff_right there).symm
    next absent => simp [absent]

theorem pruned_of_cut (inv : Inv C m) {id : TransactionId}
    (cut : Cut (m.removedBy id true) m.transactionPool m'.transactionPool) :
    TransactionsPool.Pruned [id] m.transactionPool m'.transactionPool := by
  have left : ∀ other, Pool.has m'.transactionPool.allTransactions other = true ↔
      Pool.has m.transactionPool.allTransactions other = true ∧ other ∉ m.removedBy id true := by
    intro other
    rw [Pool.has, cut.all]
    by_cases removed : other ∈ m.removedBy id true <;> simp [removed, Pool.has]
  refine ⟨fun other => ?_, fun p c keptP keptC => ?_⟩
  · rw [left, mem_removedBy inv]
  · exact cut.chained p c ((left p).mp keptP).2 ((left c).mp keptC).2

/-- Removals one after the other remove what any of them reaches in the pool as it was. -/
theorem RemovedAll.pruned {ids : List TransactionId} (removed : RemovedAll C ids m m') (start : Inv C m) :
    TransactionsPool.Pruned ids m.transactionPool m'.transactionPool := by
  induction removed with
  | nil pool =>
    rw [pool]
    refine ⟨fun id => ?_, fun _ _ _ _ => Iff.rfl⟩
    simp [Reach.Hit]
  | @cons m m₁ m' id rest inv shrinks cut later ih =>
    have first := pruned_of_cut start cut
    have second := ih inv
    refine ⟨fun other => ?_, fun p c keptP keptC => ?_⟩
    · rw [second.left]
      by_cases kept : Pool.has m₁.transactionPool.allTransactions other = true
      · rw [and_iff_right kept, and_iff_right ((first.left other).mp kept).1]
        exact not_congr (Reach.hit_cons_iff first.left first.same kept).symm
      · -- it was hit by the first removal, if it was there
        refine ⟨fun left => absurd left.1 kept, fun left => absurd ?_ kept⟩
        refine (first.left other).mpr ⟨left.1, fun hit => left.2 ?_⟩
        obtain ⟨a, only, there, path⟩ := hit
        exact ⟨a, List.mem_singleton.mp only ▸ .head _, there, path⟩
    · rw [second.same p c keptP keptC]
      exact first.same p c ((second.left p).mp keptP).1 ((second.left c).mp keptC).1

end Mempool

/-! ## What the transaction spends -/

namespace MutableTransaction

variable {mtx : MutableTransaction}

/-- Each input with its entry. -/
def populatedInputs (mtx : MutableTransaction) : List (TransactionInput × Option UtxoEntry) :=
  mtx.tx.inputs.zip mtx.entries

theorem zip_zipWith {α β γ : Type} (f : α → β → γ) (as : List α) (bs : List β) :
    as.zip (List.zipWith f as bs) = (as.zip bs).map fun pair => (pair.1, f pair.1 pair.2) := by
  induction as generalizing bs with
  | nil => rfl
  | cons a as ih =>
    cases bs with
    | nil => rfl
    | cons b bs => simp [ih]

theorem populatedInputs_setEntries (f : TransactionInput → Option UtxoEntry → Option UtxoEntry) :
    (mtx.setEntries f).populatedInputs = mtx.populatedInputs.map fun pair => (pair.1, f pair.1 pair.2) :=
  zip_zipWith f mtx.tx.inputs mtx.entries

theorem exists_entry {outpoint : TransactionOutpoint} (spent : outpoint ∈ mtx.spends) :
    ∃ pair ∈ mtx.populatedInputs, pair.1.previousOutpoint = outpoint := by
  obtain ⟨input, member, same⟩ := List.mem_map.mp spent
  have first : input ∈ mtx.populatedInputs.map Prod.fst := by
    rw [populatedInputs, List.map_fst_zip mtx.sized.ge]
    exact member
  obtain ⟨pair, inside, rfl⟩ := List.mem_map.mp first
  exact ⟨pair, inside, same⟩

theorem isSome_of_isVerifiable (verifiable : mtx.isVerifiable = true) :
    ∀ pair ∈ mtx.populatedInputs, pair.2.isSome := by
  intro pair member
  exact List.all_eq_true.mp verifiable pair.2 (List.of_mem_zip member).2

end MutableTransaction

/-- The entries a transaction has are of outputs that are available. -/
def Knows (view : Utxo.UtxoView) (all : MempoolTransactionCollection) (mtx : MutableTransaction) : Prop :=
  ∀ pair ∈ mtx.populatedInputs, pair.2.isSome → Available view all pair.1.previousOutpoint

namespace Mempool

variable {mtx mtx' : MutableTransaction} {consensus : ConsensusApi} {threshold : List (UInt64 × Nat)}
  {pool : TransactionsPool} {id : TransactionId}

theorem available_of_poolOutput {outpoint : TransactionOutpoint} {output : TransactionOutput}
    (found : poolOutput pool outpoint = .ok (some output)) : Available view pool.allTransactions outpoint := by
  rw [poolOutput] at found
  split at found
  · cases found
  next parent there =>
    split at found
    · cases found
    next output' inside => exact .inl ⟨parent, there, (List.getElem?_eq_some_iff.mp inside).1⟩

theorem knows_of_populate (knows : Knows view pool.allTransactions mtx)
    (populated : populateMempoolEntries pool mtx = .ok mtx') : mtx'.tx = mtx.tx ∧ Knows view pool.allTransactions mtx' ∧
      mtx'.calculatedNonContextualMasses = mtx.calculatedNonContextualMasses := by
  rw [populateMempoolEntries] at populated
  obtain ⟨_, -, done⟩ := Outcome.bind_eq_ok.mp populated
  cases done
  refine ⟨rfl, fun pair member here => ?_, rfl⟩
  rw [MutableTransaction.populatedInputs_setEntries] at member
  obtain ⟨old, before, rfl⟩ := List.mem_map.mp member
  -- either the pool has the output or the entry is the one that was there
  simp only at here ⊢
  split at here
  next output found => exact available_of_poolOutput found
  · exact knows old before here

theorem knows_of_preValidate {rbfPolicy : RbfPolicy} (knows : Knows view m.transactionPool.allTransactions mtx)
    (passed : preValidateAndPopulateTransaction C consensus m mtx rbfPolicy = .ok (mtx', threshold)) :
    mtx'.tx = mtx.tx ∧ Knows view m.transactionPool.allTransactions mtx' ∧
      mtx'.calculatedNonContextualMasses.isSome := by
  simp only [preValidateAndPopulateTransaction] at passed
  split at passed
  · cases passed
  · obtain ⟨_, -, passed⟩ := Outcome.bind_eq_ok.mp passed
    obtain ⟨_, -, passed⟩ := Outcome.bind_eq_ok.mp passed
    split at passed
    · cases passed
    next masses _ =>
      obtain ⟨_, -, passed⟩ := Outcome.bind_eq_ok.mp passed
      obtain ⟨threshold', -, passed⟩ := Outcome.bind_eq_ok.mp passed
      obtain ⟨_, -, passed⟩ := Outcome.bind_eq_ok.mp passed
      obtain ⟨populated, found, passed⟩ := Outcome.bind_eq_ok.mp passed
      cases passed
      have weighed : Knows view m.transactionPool.allTransactions
          { mtx with calculatedNonContextualMasses := some masses } := knows
      obtain ⟨tx, populated, kept⟩ := knows_of_populate weighed found
      refine ⟨tx, populated, ?_⟩
      rw [kept]
      rfl

theorem available_of_validate (knows : Knows consensus.virtualUtxos m.transactionPool.allTransactions mtx)
    (masses : mtx.calculatedNonContextualMasses.isSome)
    (valid : consensus.validateMempoolTransaction mtx threshold = (.ok (), mtx')) :
    mtx'.spends = mtx.spends ∧ mtx'.isFullyPopulated = true ∧
      ∀ outpoint ∈ mtx.spends, Available consensus.virtualUtxos m.transactionPool.allTransactions outpoint := by
  rw [ConsensusApi.validateMempoolTransaction] at valid
  split at valid
  · cases valid
  · simp only at valid
    split at valid
    next verifiable =>
      split at valid
      · cases valid
      next storageMass fee _ =>
        cases valid
        refine ⟨rfl, ?_, fun outpoint spent => ?_⟩
        · simp only [MutableTransaction.isFullyPopulated, Bool.and_eq_true]
          exact ⟨⟨verifiable, rfl⟩, masses⟩
        · obtain ⟨pair, member, rfl⟩ := MutableTransaction.exists_entry spent
          have there := MutableTransaction.isSome_of_isVerifiable verifiable
            (pair.1, pair.2 <|> consensus.virtualUtxos pair.1.previousOutpoint) (by
              rw [MutableTransaction.populatedInputs_setEntries]
              exact List.mem_map.mpr ⟨pair, member, rfl⟩)
          cases entry : pair.2 with
          | none =>
            rw [entry] at there
            exact .inr there
          | some known => exact knows pair member (by rw [entry]; rfl)
    · cases valid

theorem masses_of_validate (consensus : ConsensusApi) (mtx : MutableTransaction) (threshold : List (UInt64 × Nat)) :
    (consensus.validateMempoolTransaction mtx threshold).2.calculatedNonContextualMasses =
      mtx.calculatedNonContextualMasses := by
  rw [ConsensusApi.validateMempoolTransaction]
  split
  · rfl
  · simp only
    split
    · split
      · rfl
      · rfl
    · rfl

theorem unorphanOutputs_aside (outputs : List (TransactionOutpoint × TransactionOutput)) (m : Mempool) :
    Call.Safe (fun m' => m'.transactionPool = m.transactionPool) (fun _ => True) (unorphanOutputs C outputs) :=
  Closed.unorphanOutputs_safe (Closed.unorphanOutput_safe fun same =>
    ⟨fun _ _ _ => same, fun _ _ _ => same, fun _ _ => same⟩) outputs

/-! ## Insertion -/

/-- A transaction that stays, though one whose output it spends is removed. -/
def LeftBehind (view : Utxo.UtxoView) (m m' : Mempool) : Prop :=
  ∃ id tx, m.transactionPool.allTransactions.lookup id = some tx ∧
    m'.transactionPool.allTransactions.lookup id = some tx ∧ ∃ outpoint ∈ tx.mtx.spends,
      Pool.has m.transactionPool.allTransactions outpoint.transactionId = true ∧
      Pool.has m'.transactionPool.allTransactions outpoint.transactionId = false ∧ view outpoint = none

/-- The transactions of the pool that spend what the transaction spends. -/
def ownersOf (m : Mempool) (mtx : MutableTransaction) : List TransactionId :=
  mtx.spends.filterMap m.transactionPool.outpointOwnerId.lookup

theorem hit_replacedBy (inv : Inv C m) (fresh : m.transactionPool.allTransactions.lookup (mtx.id C) = none) :
    m.transactionPool.Hit (replacedBy C m mtx) id ↔ m.transactionPool.Hit (m.ownersOf mtx) id := by
  have same : ∀ owner, owner ∈ replacedBy C m mtx ↔ owner ∈ m.ownersOf mtx := by
    intro owner
    rw [mem_replacedBy, ownersOf, List.mem_filterMap]
    refine ⟨fun member => member.2, fun member => ⟨?_, member⟩⟩
    obtain ⟨outpoint, -, owned⟩ := member
    obtain ⟨tx, there, -⟩ := (inv.pool.outpoints outpoint owner).mp owned
    rintro rfl
    exact nomatch fresh.symm.trans there
  simp only [TransactionsPool.Hit, Reach.Hit, same]

variable {m₁ m₂ : Mempool}

section

variable (inserts : Inserts C mtx m m₁ m₂ m')

include inserts

theorem Inserts.parent_spared (inv : Inv C m) {parent : TransactionId} (member : parent ∈ mtx.parents)
    (before : Pool.has m₁.transactionPool.allTransactions parent = true) :
    Pool.has m₂.transactionPool.allTransactions parent = true := by
  obtain ⟨chosen, evicted, makes, part, removed⟩ := inserts.evicted
  refine ((removed.pruned (inserts.replaced.inv inv)).left parent).mpr ⟨before, fun hit => ?_⟩
  obtain ⟨start, inside, there, path⟩ := hit
  have unrelated := makes.evictable.unrelated start (part.subset inside)
  rw [MutableTransaction.hasParentInSet, List.any_eq_false] at unrelated
  refine unrelated parent member (decide_eq_true ?_)
  rw [List.mem_append, List.mem_singleton, TransactionsPool.mem_redeemers there]
  exact (Relation.reflTransGen_iff_eq_or_transGen.mp path).symm

theorem Inserts.lookup : m'.transactionPool.allTransactions.lookup id =
      if id = mtx.id C then m'.transactionPool.allTransactions.lookup (mtx.id C)
      else m₂.transactionPool.allTransactions.lookup id := by
  obtain ⟨tx, -, all⟩ := inserts.added
  split
  next same => rw [same]
  next other => rw [all, Map.lookup_insert_eq, if_neg other]

theorem Inserts.shrinks : Shrinks m m₂ := by
  obtain ⟨chosen, evicted, -, -, removed⟩ := inserts.evicted
  exact inserts.replaced.shrinks.trans removed.shrinks

theorem Inserts.lookup_old {tx : MempoolTransaction} (before : m.transactionPool.allTransactions.lookup id = some tx) :
    m'.transactionPool.allTransactions.lookup id = m₂.transactionPool.allTransactions.lookup id ∧
      (Pool.has m₂.transactionPool.allTransactions id = true →
        m₂.transactionPool.allTransactions.lookup id = some tx) := by
  have other : id ≠ mtx.id C := by
    rintro rfl
    exact nomatch inserts.fresh.symm.trans before
  rw [inserts.lookup, if_neg other]
  refine ⟨rfl, fun there => ?_⟩
  obtain ⟨tx', there⟩ := Option.isSome_iff_exists.mp there
  rw [there, ← before, inserts.shrinks.pool id tx' there]

/-- In a linked pool the removals take what spends from what they remove. -/
theorem Inserts.not_leftBehind (inv : Inv C m) (linked : m.transactionPool.Linked) : ¬LeftBehind view m m' := by
  rintro ⟨id, tx, before, after, outpoint, spent, parent, gone, -⟩
  obtain ⟨chosen, evicted, -, -, removed⟩ := inserts.evicted
  have first := inserts.replaced.pruned inv
  have second := removed.pruned (inserts.replaced.inv inv)
  have member : outpoint.transactionId ∈ tx.mtx.parents := List.mem_map_of_mem spent
  -- the transaction is there after both rounds of removals, so its parent is
  have there₂ : m₂.transactionPool.allTransactions.lookup id = some tx := by
    rw [← (inserts.lookup_old before).1, after]
  have has₂ := Pool.has_of_lookup there₂
  have parent₁ := first.parent_left linked before ((second.left id).mp has₂).1 member parent
  have linked₁ := first.linked linked inserts.replaced.shrinks.pool
  have parent₂ := second.parent_left linked₁ (removed.shrinks.pool id tx there₂) has₂ member parent₁
  obtain ⟨parentTx, found⟩ := Option.isSome_iff_exists.mp parent
  rw [Pool.has, (inserts.lookup_old found).1] at gone
  cases gone.symm.trans parent₂

/-- After an insertion everything can be mined, unless the transaction spends from what it replaces or a
transaction is left behind. -/
theorem Inserts.minable_iff (inv : Inv C m) (minable : Minable view m.transactionPool.allTransactions)
    (available : ∀ outpoint ∈ mtx.spends, Available view m.transactionPool.allTransactions outpoint) :
    Minable view m'.transactionPool.allTransactions ↔
      (∀ outpoint ∈ mtx.spends, m.transactionPool.Hit (m.ownersOf mtx) outpoint.transactionId →
        (view outpoint).isSome) ∧ ¬LeftBehind view m m' := by
  have first := inserts.replaced.pruned inv
  obtain ⟨tx, own, all⟩ := inserts.added
  have self : m'.transactionPool.allTransactions.lookup (mtx.id C) = some tx := by
    rw [all, Map.lookup_insert_eq, if_pos rfl]
  constructor
  · intro after
    refine ⟨fun outpoint spent hit => ?_, ?_⟩
    · -- what is replaced is gone, so the output has to be in the virtual UTXO set
      obtain ⟨parent, found⟩ := Option.isSome_iff_exists.mp hit.has
      rcases after _ tx self outpoint (own ▸ spent) with ⟨parent', there, -⟩ | inView
      · rw [(inserts.lookup_old found).1] at there
        obtain ⟨chosen, evicted, -, -, removed⟩ := inserts.evicted
        have kept : Pool.has m₁.transactionPool.allTransactions outpoint.transactionId = true := by
          rw [Pool.has, removed.shrinks.pool _ _ there]
          rfl
        exact absurd ((hit_replacedBy inv inserts.fresh).mpr hit) ((first.left _).mp kept).2
      · exact inView
    · rintro ⟨id, tx', -, there, outpoint, spent, -, gone, missing⟩
      rcases after id tx' there outpoint spent with ⟨parent, found, -⟩ | inView
      · rw [Pool.has, found] at gone
        cases gone
      · rw [missing] at inView
        cases inView
  · rintro ⟨spared, nobody⟩ id tx' there outpoint spent
    rw [inserts.lookup] at there
    split at there
    · cases there.symm.trans self
      rw [own] at spent
      rcases available outpoint spent with ⟨parent, found, index⟩ | inView
      · by_cases hit : m.transactionPool.Hit (m.ownersOf mtx) outpoint.transactionId
        · exact .inr (spared outpoint spent hit)
        · have kept := (first.left _).mpr ⟨Pool.has_of_lookup found, fun replaced =>
            hit ((hit_replacedBy inv inserts.fresh).mp replaced)⟩
          have old := inserts.lookup_old found
          have parent₂ := old.2 (inserts.parent_spared inv (List.mem_map_of_mem spent) kept)
          exact .inl ⟨parent, old.1.trans parent₂, index⟩
      · exact .inr inView
    · have before := inserts.shrinks.pool id tx' there
      rcases minable id tx' before outpoint spent with ⟨parent, found, index⟩ | inView
      · have old := inserts.lookup_old found
        by_cases kept : Pool.has m₂.transactionPool.allTransactions outpoint.transactionId = true
        · exact .inl ⟨parent, old.1.trans (old.2 kept), index⟩
        · -- its parent is gone but it stays: it would be left behind
          refine .inr (Option.isSome_iff_ne_none.mpr fun missing => nobody ?_)
          refine ⟨id, tx', before, (inserts.lookup_old before).1.trans there, outpoint, spent, Pool.has_of_lookup found, ?_, missing⟩
          rw [Pool.has, old.1]
          exact Bool.eq_false_of_not_eq_true kept
      · exact .inr inView

end

variable {priority : Priority} {orphan : Orphan} {rbfPolicy : RbfPolicy}

/-- An accepted transaction was prepared, found valid and inserted; then only orphans were looked for. -/
theorem inserts_of_accepted {result : TransactionPostValidation} {unorphaned : List MempoolTransaction}
    (inv : Inv C m) (knows : Knows consensus.virtualUtxos m.transactionPool.allTransactions mtx)
    (ran : validateAndInsertMutableTransaction C consensus mtx priority orphan rbfPolicy m =
      (.ok (result, unorphaned), m')) (accepted : result.accepted.isSome) : ∃ mtx' m₁ m₂ m₃, mtx'.spends = mtx.spends ∧
      (∀ outpoint ∈ mtx.spends, Available consensus.virtualUtxos m.transactionPool.allTransactions outpoint) ∧
      Inserts C mtx' m m₁ m₂ m₃ ∧ m'.transactionPool = m₃.transactionPool := by
  rw [validateAndInsertMutableTransaction] at ran
  obtain ⟨_, _, ⟨⟩, later⟩ := Call.bind_eq_ok.mp ran
  obtain ⟨⟨mtx₁, threshold⟩, _, checked, validated⟩ := Call.bind_eq_ok.mp later
  obtain ⟨passed, rfl⟩ := Action.check_eq_ok.mp checked
  obtain ⟨same, knows₁, masses⟩ := knows_of_preValidate knows passed
  rcases validation : consensus.validateMempoolTransaction mtx₁ threshold with ⟨validationResult, mtx₂⟩
  simp only [validation] at validated
  obtain ⟨result', m₃, inserted, searched⟩ := Call.bind_eq_ok.mp validated
  have kept : result' = result ∧ m'.transactionPool = m₃.transactionPool := by
    cases outcome : result'.accepted with
    | none =>
      rw [outcome] at searched
      cases searched
      exact ⟨rfl, rfl⟩
    | some tx =>
      rw [outcome] at searched
      obtain ⟨_, m₄, found, done⟩ := Call.bind_eq_ok.mp searched
      cases done
      have aside := unorphanOutputs_aside (C := C) ((OrphanPool.outputsOf (C.idOf tx) tx).zip tx.outputs) m₃ m₃ rfl
      have same := Call.wp_ok aside found
      exact ⟨rfl, same⟩
  obtain ⟨rfl, kept⟩ := kept
  have weighed : mtx₂.calculatedNonContextualMasses.isSome := by
    have kept := masses_of_validate consensus mtx₁ threshold
    rw [validation] at kept
    exact kept ▸ masses
  have post := Call.wp_ok (postValidateAndInsertTransaction_spec inv weighed
    (fun valid => (available_of_validate knows₁ masses (valid ▸ validation)).2.1) priority orphan rbfPolicy) inserted
  obtain ⟨rfl, -, m₁, m₂, inserts⟩ := post.2 accepted
  obtain ⟨spends, -, available⟩ := available_of_validate knows₁ masses validation
  have unchanged : mtx₁.spends = mtx.spends := by rw [MutableTransaction.spends, same]; rfl
  exact ⟨mtx₂, m₁, m₂, m₃, spends.trans unchanged, unchanged ▸ available, inserts, kept⟩

namespace Sample

/-- One output is unspent; the fee grows with the lock time. -/
def chainApi : ConsensusApi where
  virtualDaaScore := 5
  virtualUtxos spent := if spent = outpoint then some ⟨100, ⟨0, []⟩, 0, false, none⟩ else none
  calculateTransactionNonContextualMasses _ := .ok (10, 10)
  validateWithoutUtxos _ := .ok ()
  validateWithUtxos mtx _ := .ok (0, mtx.tx.lockTime * 10)

def spending (id : UInt64) (outpoints : List TransactionOutpoint) : MutableTransaction :=
  .fromTx { spender id with inputs := outpoints.map fun spent => ⟨spent, [], 0, .sigopCount 0⟩ }

/-- The transaction as consensus returns it. -/
def validated (id : UInt64) (spent : TransactionOutpoint) : Op :=
  .insert chainApi (.ok ()) { spending id [spent] with
    entries := [some ⟨100, ⟨0, []⟩, 0, false, none⟩]
    calculatedFee := some (id * 10)
    calculatedNonContextualMasses := some (10, 10)
    sized := List.length_singleton } .low .allowed .allowed

/-- A transaction that spends the unspent output, and one chained to it. -/
def chain : Mempool := ((validated 2 ⟨1, 0⟩).run config ((validated 1 outpoint).run config .empty).2).2

theorem chain_inv : Inv config chain := by
  have first : Reachable config (fun m op => op.NoOrphan config m) ((validated 1 outpoint).run config .empty).2 :=
    .step .empty ⟨rfl, fun _ => rfl⟩ fun _ => rfl
  have second : Reachable config (fun m op => op.NoOrphan config m) chain :=
    .step first ⟨rfl, fun _ => rfl⟩ fun _ => rfl
  exact inv_of_reachable second

def insertInto (m : Mempool) (mtx : MutableTransaction) :
    Except (Failure RuleError) (TransactionPostValidation × List MempoolTransaction) × Mempool :=
  validateAndInsertMutableTransaction config chainApi mtx .low .allowed .allowed m

theorem knows_spending (all : MempoolTransactionCollection) (id : UInt64) (outpoints : List TransactionOutpoint) :
    Knows chainApi.virtualUtxos all (spending id outpoints) := by
  intro pair member some
  have none : pair.2 = none := List.eq_of_mem_replicate (List.of_mem_zip member).2
  rw [none] at some
  cases some

end Sample

end Mempool

end Marigold.Mining
