import Marigold.Consensus.Conservation

/-!
# The order of a block's transactions

All transactions of a block are validated against the same snapshot, so which of them are accepted
does not depend on their order. What they touch is disjoint, so merging them leads to the same diffs
in any order, and none of the unwraps on the way can fail.
-/

namespace Marigold.Consensus

open Lib NotePool Utxo

/-- The same block with the transactions after the coinbase in another order. -/
structure Reordered (a b : Block) : Prop where
  header : a.header = b.header
  coinbase : a.transactions.head? = b.transactions.head?
  others : (a.transactions.drop 1).Perm (b.transactions.drop 1)

theorem Reordered.perm {a b : Block} (reordered : Reordered a b) : a.transactions.Perm b.transactions := by
  obtain ⟨_, coinbase, others⟩ := reordered
  cases whole : a.transactions with
  | nil =>
    rw [whole, List.head?_nil] at coinbase
    rw [List.head?_eq_none_iff.mp coinbase.symm]
  | cons first rest =>
    rw [whole] at coinbase others
    obtain ⟨rest', whole'⟩ := List.head?_eq_some_iff.mp coinbase.symm
    rw [whole'] at others ⊢
    exact others.cons first

theorem Reordered.wellFormed {B : BodyProcessor} {a b : Block} (reordered : Reordered a b)
    (wellFormed : BlockWellFormed B a) : BlockWellFormed B b where
  coinbase := by
    obtain ⟨coinbase, rest, whole, isCoinbase, ordinary, payload⟩ := wellFormed.coinbase
    have first := reordered.coinbase
    have others := reordered.others
    rw [whole] at first others
    obtain ⟨rest', whole'⟩ := List.head?_eq_some_iff.mp first.symm
    rw [whole'] at others
    exact ⟨coinbase, rest', whole', isCoinbase, fun tx member =>
      ordinary tx (others.mem_iff.mpr member), payload⟩
  isolated tx member := wellFormed.isolated tx (reordered.perm.mem_iff.mpr member)
  ids := (reordered.perm.map _).nodup_iff.mp wellFormed.ids
  spends := (reordered.perm.flatMap_right _).nodup_iff.mp wellFormed.spends
  serials := (reordered.perm.flatMap_right _).nodup_iff.mp wellFormed.serials
  unchained outpoint spent created := by
    apply wellFormed.unchained outpoint
    · exact (reordered.perm.flatMap_right _).mem_iff.mpr spent
    · exact (reordered.perm.flatMap_right _).mem_iff.mpr created

theorem WalkState.cells_eq {H : Hashers} {txs : Set Transaction} {base ledger : Ledger}
    {history history' : List Transaction} {diff diff' : UtxoDiff} {poolDiff poolDiff' : PoolDiff}
    (state : WalkState H txs base history ledger diff poolDiff)
    (state' : WalkState H txs base history' ledger diff' poolDiff') :
    (∀ outpoint, diff.cell outpoint = diff'.cell outpoint) ∧ ∀ sn, poolDiff.cell sn = poolDiff'.cell sn := by
  constructor
  · intro outpoint
    exact Cell.eq_of_apply_eq (state.reads outpoint).1 (state'.reads outpoint).1
      (state.adds outpoint) (state'.adds outpoint)
      ((state.reads outpoint).2.trans (state'.reads outpoint).2.symm)
  · intro sn
    exact Cell.eq_of_apply_eq (state.poolReads sn).1 (state'.poolReads sn).1 (state.poolAdds sn) (state'.poolAdds sn)
      ((state.poolReads sn).2.trans (state'.poolReads sn).2.symm)

section Merge

variable {M : Type} {V : VirtualProcessor M} {pov : UInt64} {txs : Set Transaction} {base : Ledger}
  {selectedParent : Hash} {ledger : Ledger} {history history' : List Transaction}
  {ctx ctx' : UtxoProcessingContext M}

theorem Mergeable.acceptAll_perm {vtxs vtxs' : List ValidatedTransaction}
    (mergeable : Mergeable V txs pov ledger vtxs) (perm : vtxs.Perm vtxs') :
    ledger.acceptAll V.crypto.hashers pov (vtxs.map ValidatedTransaction.tx) =
      ledger.acceptAll V.crypto.hashers pov (vtxs'.map ValidatedTransaction.tx) := by
  apply Ledger.ext
  · rw [Ledger.acceptAll_utxos, Ledger.acceptAll_utxos]
    refine Update.applyAll_perm ?_ ((perm.map _).map _)
    rw [List.map_map, List.pairwise_map]
    exact mergeable.utxosApart
  · rw [Ledger.acceptAll_pool, Ledger.acceptAll_pool]
    refine Update.applyAll_perm ?_ ((perm.map _).map _)
    rw [List.map_map, List.pairwise_map]
    exact mergeable.serialsApart

/-- Two walks are at the same ledger and have accepted the same transactions. -/
structure SameWalk (V : VirtualProcessor M) (txs : Set Transaction) (base : Ledger)
    (ctx ctx' : UtxoProcessingContext M) : Prop where
  ledger : ∃ ledger history history',
    WalkState V.crypto.hashers txs base history ledger ctx.mergesetDiff ctx.mergesetPoolDiff ∧
      WalkState V.crypto.hashers txs base history' ledger ctx'.mergesetDiff ctx'.mergesetPoolDiff
  ids : ctx.acceptedTxIds.Perm ctx'.acceptedTxIds

theorem mergeBlock_reordered (free : NoCollisions V.crypto.hashers txs) {block block' : Block}
    (wellFormed : BlockWellFormed V.toBodyProcessor block)
    (known : ∀ tx ∈ block.transactions, tx ∈ txs) (reordered : Reordered block block')
    (same : SameWalk V txs base ctx ctx') {flags : TxValidationFlags}
    {coinbase : List AcceptedTxEntry} {next : UtxoProcessingContext M}
    (done : mergeBlock V base.utxos base.pool pov selectedParent flags coinbase ctx block = .ok next) :
    ∃ next', mergeBlock V base.utxos base.pool pov selectedParent flags coinbase ctx' block' =
      .ok next' ∧ SameWalk V txs base next next' := by
  obtain ⟨⟨ledger, history, history', state, state'⟩, ids⟩ := same
  have known' : ∀ tx ∈ block'.transactions, tx ∈ txs := fun tx member =>
    known tx (reordered.perm.mem_iff.mpr member)
  -- Each transaction is looked at on its own, so the accepted ones are the same.
  have perm : (acceptedOf V.toTxContext block.transactions ledger pov flags selectedParent).Perm
      (acceptedOf V.toTxContext block'.transactions ledger pov flags selectedParent) :=
    reordered.others.filterMap _
  obtain ⟨after, ⟨reward, _, fees⟩, accepted⟩ := mergeBlock_ok state free wellFormed known done rfl
  have fits : feesOf (acceptedOf V.toTxContext block'.transactions ledger pov flags selectedParent) < 2 ^ 64 := by
    have sum : feesOf (acceptedOf V.toTxContext block.transactions ledger pov flags selectedParent) =
        feesOf (acceptedOf V.toTxContext block'.transactions ledger pov flags selectedParent) :=
      (perm.map _).sum_eq
    rw [← sum, ← fees]
    exact reward.totalFees.toNat_lt
  obtain ⟨next', done'⟩ := Outcome.ok_of_safe fun cause =>
    mergeBlock_safe state' free (reordered.wellFormed wellFormed) known'
      (fun tx member => mergeBlock_validates state done (reordered.others.mem_iff.mpr member) cause)
      fun _ => fits
  obtain ⟨after', _, accepted'⟩ :=
    mergeBlock_ok state' free (reordered.wellFormed wellFormed) known' done' rfl
  have merged : ledger.acceptAll V.crypto.hashers pov (List.map ValidatedTransaction.tx
      (acceptedOf V.toTxContext block.transactions ledger pov flags selectedParent)) =
      ledger.acceptAll V.crypto.hashers pov (List.map ValidatedTransaction.tx
        (acceptedOf V.toTxContext block'.transactions ledger pov flags selectedParent)) :=
    (wellFormed.mergeable free known).acceptAll_perm perm
  rw [merged] at after
  refine ⟨next', done', ⟨_, _, _, after, after'⟩, ?_⟩
  rw [accepted, accepted']
  exact ids.append ((perm.map _).map _)

theorem mergeBlocks_reordered (free : NoCollisions V.crypto.hashers txs) {steps steps' : List MergeStep}
    (wellFormed : ∀ step ∈ steps, BlockWellFormed V.toBodyProcessor step.block)
    (known : ∀ step ∈ steps, ∀ tx ∈ step.block.transactions, tx ∈ txs)
    (reordered : List.Forall₂ (fun a b : MergeStep => Reordered a.block b.block ∧
      a.flags = b.flags ∧ a.coinbase = b.coinbase) steps steps')
    (same : SameWalk V txs base ctx ctx') {last : UtxoProcessingContext M}
    (done : steps.foldlM (fun ctx step => mergeBlock V base.utxos base.pool pov selectedParent
      step.flags step.coinbase ctx step.block) ctx = .ok last) :
    ∃ last', steps'.foldlM (fun ctx step => mergeBlock V base.utxos base.pool pov selectedParent
      step.flags step.coinbase ctx step.block) ctx' = .ok last' ∧ SameWalk V txs base last last' := by
  induction reordered generalizing ctx ctx' with
  | nil =>
    cases done
    exact ⟨ctx', rfl, same⟩
  | cons first _ ih =>
    obtain ⟨reordered, flags, coinbase⟩ := first
    rw [List.forall_mem_cons] at wellFormed known
    rw [List.foldlM_cons] at done ⊢
    obtain ⟨next, merged, done⟩ := Outcome.bind_eq_ok.mp done
    obtain ⟨next', merged', same'⟩ :=
      mergeBlock_reordered free wellFormed.1 known.1 reordered same merged
    obtain ⟨last', done', same''⟩ := ih wellFormed.2 known.2 same' done
    rw [flags, coinbase] at merged'
    exact ⟨last', Outcome.bind_eq_ok.mpr ⟨next', merged', done'⟩, same''⟩

end Merge

private theorem mergeSteps_reordered {H : Hashers} {coinbase : Transaction}
    {selectedParent selectedParent' : Block} {mergeset mergeset' : List Block}
    (reordered : List.Forall₂ Reordered (selectedParent :: mergeset) (selectedParent' :: mergeset')) :
    List.Forall₂ (fun a b : MergeStep => Reordered a.block b.block ∧ a.flags = b.flags ∧
        a.coinbase = b.coinbase) (mergeSteps H selectedParent coinbase mergeset)
      (mergeSteps H selectedParent' coinbase mergeset') := by
  obtain ⟨first, rest⟩ := List.forall₂_cons.mp reordered
  refine .cons ⟨first, rfl, rfl⟩ ?_
  rw [List.forall₂_map_left_iff, List.forall₂_map_right_iff]
  exact rest.imp fun a b same => ⟨same, rfl, rfl⟩

/-- No unwrap of the walk fails, so that on values and scores in range the walk returns. In whatever
order the blocks have their transactions, the same ones are accepted and the diffs are the same. -/
theorem calculateUtxoState_unwraps_and_order {M : Type} (V : VirtualProcessor M) (m : M)
    (history : List Transaction) (base : Ledger) (selectedParent : Block) (mergeset : List Block)
    (coinbase : Transaction) (pov : UInt64)
    (bodies : ∀ block ∈ selectedParent :: mergeset, BodyValid V.toBodyProcessor block)
    (consistent : Consistent V.crypto.hashers history base)
    (free : NoCollisions V.crypto.hashers (involved history (selectedParent :: mergeset)))
    (first : selectedParent.transactions.head? = some coinbase)
    (coinbaseNew : ∀ t ∈ history, t.id V.crypto.hashers ≠ coinbase.id V.crypto.hashers) :
    Outcome.SafeFrom .unwrap
        (calculateUtxoState V (.new m) selectedParent mergeset base.utxos base.pool pov) ∧
      ((∃ n, Worth base n ∧ n + outputsValue coinbase < 2 ^ 64) → InRange V base →
        ScoreInRange V.validator pov → ∃ ctx,
          calculateUtxoState V (.new m) selectedParent mergeset base.utxos base.pool pov = .ok ctx) ∧
      ∀ selectedParent' mergeset',
        List.Forall₂ Reordered (selectedParent :: mergeset) (selectedParent' :: mergeset') →
        ∀ ctx, calculateUtxoState V (.new m) selectedParent mergeset base.utxos base.pool pov =
          .ok ctx →
        ∃ ctx', calculateUtxoState V (.new m) selectedParent' mergeset' base.utxos base.pool pov =
            .ok ctx' ∧
          ctx.acceptedTxIds.Perm ctx'.acceptedTxIds ∧
          (∀ outpoint, ctx.mergesetDiff.cell outpoint = ctx'.mergesetDiff.cell outpoint) ∧
          ∀ sn, ctx.mergesetPoolDiff.cell sn = ctx'.mergesetPoolDiff.cell sn := by
  have input : WalkInput V history base selectedParent mergeset :=
    ⟨consistent, fun block member => (bodies block member).wellFormed, free,
      fun cb here => Option.some.inj (first.symm.trans here) ▸ coinbaseNew⟩
  refine ⟨input.calculateUtxoState_safe first (fun overflow => nomatch overflow), ?_, ?_⟩
  · intro worth scores povInRange
    exact Outcome.ok_of_safe fun _ =>
      input.calculateUtxoState_safe first fun _ => ⟨worth, scores, povInRange⟩
  · intro selectedParent' mergeset' reordered ctx done
    have head := (List.forall₂_cons.mp reordered).1
    have first' : selectedParent'.transactions.head? = some coinbase := head.coinbase ▸ first
    rw [WalkInput.calculateUtxoState_eq first] at done
    obtain ⟨start, accepted, done⟩ := Outcome.bind_eq_ok.mp done
    obtain ⟨_, start', accepted', state, _⟩ := input.acceptCoinbase pov first (.new m) rfl rfl
    obtain rfl := Except.ok.inj (accepted.symm.trans accepted')
    -- Up to the coinbase the two walks are one.
    have same : SameWalk V (involved history (selectedParent :: mergeset)) base start start :=
      ⟨⟨_, _, _, state, state⟩, List.Perm.refl _⟩
    obtain ⟨ctx', done', ⟨⟨_, _, _, left, right⟩, ids⟩⟩ := mergeBlocks_reordered input.free
      (fun step member => input.wellFormed _ (WalkInput.steps_mem member))
      (fun step member tx inBlock => .inr ⟨step.block, WalkInput.steps_mem member, inBlock⟩)
      (mergeSteps_reordered reordered) same done
    refine ⟨ctx', ?_, ids, left.cells_eq right⟩
    rw [WalkInput.calculateUtxoState_eq first', ← head.header]
    exact Outcome.bind_eq_ok.mpr ⟨start, accepted, done'⟩

/-- A mint and one that spends an output that is not there, in both orders. -/
theorem calculateUtxoState_unwraps_and_order_two_mints :
    ∃ ctx ctx', calculateUtxoState Sample.node (.new ())
        (Sample.block 1 0 5 [Sample.coinbase 2 [500], Sample.mint 0 7, Sample.mint 1 8]) []
        Sample.state.utxos.lookup Sample.state.pool.lookup 10 = .ok ctx ∧
      calculateUtxoState Sample.node (.new ())
        (Sample.block 1 0 5 [Sample.coinbase 2 [500], Sample.mint 1 8, Sample.mint 0 7]) []
        Sample.state.utxos.lookup Sample.state.pool.lookup 10 = .ok ctx' ∧
      ctx.acceptedTxIds.Perm ctx'.acceptedTxIds ∧
      (∀ outpoint, ctx.mergesetDiff.cell outpoint = ctx'.mergesetDiff.cell outpoint) ∧
      ∀ sn, ctx.mergesetPoolDiff.cell sn = ctx'.mergesetPoolDiff.cell sn := by
  have bodies : ∀ block ∈ [Sample.block 1 0 5 [Sample.coinbase 2 [500], Sample.mint 0 7, Sample.mint 1 8]],
      BodyValid Sample.node.toBodyProcessor block := by
    rw [List.forall_mem_singleton]
    exact ⟨⟨_, rfl⟩, rfl⟩
  have free : NoCollisions Sample.hashers (involved [Sample.earlierCoinbase]
      [Sample.block 1 0 5 [Sample.coinbase 2 [500], Sample.mint 0 7, Sample.mint 1 8]]) := by
    rw [involved_eq]
    exact noCollisions_of_nodup (by decide +kernel) (by decide +kernel)
  obtain ⟨_, returns, order⟩ := calculateUtxoState_unwraps_and_order Sample.node ()
    [Sample.earlierCoinbase] Sample.state.ledger _ [] (Sample.coinbase 2 [500]) 10 bodies
    Sample.consistent free rfl (by decide +kernel)
  obtain ⟨ctx, done⟩ := returns ⟨_, Sample.state.worth, by decide +kernel⟩ Sample.inRange
    ⟨by decide, by decide⟩
  obtain ⟨ctx', done', same⟩ := order
    (Sample.block 1 0 5 [Sample.coinbase 2 [500], Sample.mint 1 8, Sample.mint 0 7]) []
    (.cons ⟨rfl, rfl, List.Perm.swap _ _ _⟩ .nil) ctx done
  exact ⟨ctx, ctx', done, done', same⟩

end Marigold.Consensus
