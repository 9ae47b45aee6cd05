import Marigold.Consensus.WalkState

/-!
# The walk, block by block

The transactions of a block are validated against one snapshot. Body validation keeps their
footprints apart, so each of them is still valid when its turn to be merged comes.
-/

namespace Marigold.Consensus

open Lib NotePool Utxo Outcome

/-! ## The validated transactions of a block -/

/-- The valid transactions of a block but its coinbase, in order. -/
def acceptedOf (T : TxContext) (txs : List Transaction) (ledger : Ledger) (pov : UInt64)
    (flags : TxValidationFlags) (selectedParent : Hash) : List ValidatedTransaction :=
  (txs.drop 1).filterMap fun tx =>
    (validateTransactionInUtxoContext T tx ledger.utxos ledger.pool pov flags selectedParent).toOption

section Accepted

variable {T : TxContext} {txs : List Transaction} {ledger : Ledger} {pov : UInt64}
  {flags : TxValidationFlags} {selectedParent : Hash}

theorem validateTransactionsInParallel_fst {ε : Type} {vtxs : List (ValidatedTransaction × UInt32)}
    (done : (validateTransactionsInParallel T txs ledger.utxos ledger.pool pov flags
      selectedParent : Outcome ε _) = .ok vtxs) :
    vtxs.map Prod.fst = acceptedOf T txs ledger pov flags selectedParent := by
  obtain ⟨_, rfl⟩ := filterOk_eq_ok.mp done
  have indices : txs.drop 1 = (txs.zipIdx.drop 1).map Prod.fst := by
    rw [List.map_drop, List.zipIdx_map_fst]
  rw [acceptedOf, indices, List.filterMap_map, List.map_filterMap]
  apply List.filterMap_congr
  intro item _
  cases run : validateTransactionInUtxoContext T item.1 ledger.utxos ledger.pool pov flags selectedParent with
  | error e => simp [run, bind, Except.bind, Except.toOption]
  | ok vtx => simp [run, bind, Except.bind, Except.toOption, pure, Except.pure]

theorem acceptedIn_of_mem {vtx : ValidatedTransaction}
    (member : vtx ∈ acceptedOf T txs ledger pov flags selectedParent) :
    vtx.tx ∈ txs.drop 1 ∧ validateTransactionInUtxoContext T vtx.tx ledger.utxos ledger.pool pov
      flags selectedParent = .ok vtx := by
  obtain ⟨tx, inBlock, valid⟩ := List.mem_filterMap.mp member
  cases run : validateTransactionInUtxoContext T tx ledger.utxos ledger.pool pov flags selectedParent with
  | error e => simp [run, Except.toOption] at valid
  | ok vtx' =>
    have same : vtx' = vtx := by simpa [run, Except.toOption] using valid
    rw [same] at run
    have whole : vtx.tx = tx := (validateTransactionInUtxoContext_accepted run).whole
    rw [whole]
    exact ⟨inBlock, run⟩

theorem acceptedOf_sublist : ((acceptedOf T txs ledger pov flags selectedParent).map
    ValidatedTransaction.tx).Sublist (txs.drop 1) := by
  unfold acceptedOf
  induction txs.drop 1 with
  | nil => exact List.Sublist.refl []
  | cons tx rest ih =>
    rw [List.filterMap_cons]
    cases run : validateTransactionInUtxoContext T tx ledger.utxos ledger.pool pov flags selectedParent with
    | error e => exact ih.cons tx
    | ok vtx =>
      have whole : vtx.tx = tx := (validateTransactionInUtxoContext_accepted run).whole
      simp only [Except.toOption, List.map_cons, whole]
      exact ih.cons_cons tx

end Accepted

/-! ## Footprints apart -/

section Apart

variable {B : BodyProcessor} {block : Block}

private theorem ids_differ (wellFormed : BlockWellFormed B block) :
    block.transactions.Pairwise fun a b => a.id B.crypto.hashers ≠ b.id B.crypto.hashers :=
  List.pairwise_map.mp wellFormed.ids

theorem BlockWellFormed.utxosApart (wellFormed : BlockWellFormed B block) (pov : UInt64) :
    block.transactions.Pairwise fun a b =>
      (utxoUpdate B.crypto.hashers a pov).Apart (utxoUpdate B.crypto.hashers b pov) := by
  have spends := (List.nodup_flatMap.mp wellFormed.spends).2
  have chained : ∀ a ∈ block.transactions, ∀ b ∈ block.transactions, ∀ outpoint,
      outpoint ∈ a.inputs.map TransactionInput.previousOutpoint →
      outpoint ∉ (createdEntries B.crypto.hashers b pov).map Prod.fst := by
    intro a ha b hb outpoint input created
    rw [createdEntries_keys] at created
    exact wellFormed.unchained outpoint (List.mem_flatMap.mpr ⟨a, ha, input⟩) (List.mem_flatMap.mpr ⟨b, hb, created⟩)
  refine (spends.and (ids_differ wellFormed)).imp_of_mem ?_
  rintro a b ha hb ⟨disjoint, differ⟩ outpoint inA inB
  rcases List.mem_append.mp inA with inputA | createdA <;>
    rcases List.mem_append.mp inB with inputB | createdB
  · exact disjoint inputA inputB
  · exact chained a ha b hb outpoint inputA createdB
  · exact chained b hb a ha outpoint inputB createdA
  · exact differ ((createdEntries_id createdA).symm.trans (createdEntries_id createdB))

theorem poolUpdate_spent (H : Hashers) (tx : Transaction) : (poolUpdate H tx).spent = consumedSerialsOf tx := by
  unfold poolUpdate consumedSerialsOf
  cases tx.poolOp <;> rfl

theorem BlockWellFormed.serialsApart (wellFormed : BlockWellFormed B block) {ledger : Ledger}
    {txs : Set Transaction} (free : NoCollisions B.crypto.hashers txs)
    (known : ∀ tx ∈ block.transactions, tx ∈ txs) {vtxs : List ValidatedTransaction}
    (accepted : ∀ vtx ∈ vtxs, AcceptedIn B.toTxContext ledger vtx)
    (sublist : (vtxs.map ValidatedTransaction.tx).Sublist block.transactions) : vtxs.Pairwise fun a b =>
      (poolUpdate B.crypto.hashers a.tx).Apart (poolUpdate B.crypto.hashers b.tx) := by
  have serials := (List.nodup_flatMap.mp wellFormed.serials).2
  have pairs := List.pairwise_map.mp ((serials.and (ids_differ wellFormed)).sublist sublist)
  have inBlock : ∀ vtx ∈ vtxs, vtx.tx ∈ txs := fun vtx member =>
    known _ (sublist.subset (List.mem_map_of_mem member))
  -- Consumed serials are live and created ones are not, so they never meet.
  have crossed : ∀ a ∈ vtxs, ∀ b ∈ vtxs, ∀ sn, sn ∈ (poolUpdate B.crypto.hashers a.tx).spent →
      sn ∉ (poolUpdate B.crypto.hashers b.tx).created.map Prod.fst := by
    intro a ha b hb sn consumed created
    have live := (poolUpdate_fits (accepted a ha)).live sn consumed
    rw [(poolUpdate_fits (accepted b hb)).fresh sn created] at live
    cases live
  refine pairs.imp_of_mem ?_
  rintro a b ha hb ⟨disjoint, differ⟩ sn inA inB
  rcases List.mem_append.mp inA with consumedA | createdA <;>
    rcases List.mem_append.mp inB with consumedB | createdB
  · rw [poolUpdate_spent] at consumedA consumedB
    exact disjoint consumedA consumedB
  · exact crossed a ha b hb sn consumedA createdB
  · exact crossed b hb a ha sn consumedB createdA
  · exact differ (free.serials a.tx (inBlock a ha) b.tx (inBlock b hb) sn createdA createdB)

end Apart

/-! ## Merging a block -/

/-- The fees of a block's accepted transactions. -/
def feesOf (vtxs : List ValidatedTransaction) : Nat :=
  (vtxs.map fun vtx => vtx.calculatedFee.toNat).sum

section Merge

variable {M : Type} {V : VirtualProcessor M} {pov : UInt64} {txs : Set Transaction} {base : Ledger}
  {acc acc' : UtxoProcessingContext M × UInt64} {selectedParent : Hash} {flags : TxValidationFlags} {block : Block}
  {ledger : Ledger} {history : List Transaction}

theorem mergeTransaction_eq_ok {vtx : ValidatedTransaction × UInt32} :
    mergeTransaction V pov acc vtx = .ok acc' ↔ ∃ diff poolDiff,
      acc.1.mergesetDiff.addTransaction V.crypto.hashers vtx.1.tx vtx.1.entries pov = .ok diff ∧
      mergePoolOp acc.1.mergesetPoolDiff vtx.1.validatedPoolOp = .ok poolDiff ∧
      acc'.2.toNat = acc.2.toNat + vtx.1.calculatedFee.toNat ∧
      acc'.1 = { acc.1 with
        mergesetDiff := diff
        mergesetPoolDiff := poolDiff
        acceptedTxIds := acc.1.acceptedTxIds ++ [vtx.1.tx.id V.crypto.hashers]
        acceptedTxVersions := acc.1.acceptedTxVersions ++ [vtx.1.tx.version] } := by
  unfold mergeTransaction
  constructor
  · intro done
    obtain ⟨diff, added, done⟩ := bind_eq_ok.mp done
    obtain ⟨poolDiff, merged, done⟩ := bind_eq_ok.mp done
    obtain ⟨fee, counted, done⟩ := bind_eq_ok.mp done
    cases done
    exact ⟨diff, poolDiff, unwrap_eq_ok.mp added, merged, add_eq_ok.mp counted, rfl⟩
  · rintro ⟨diff, poolDiff, added, merged, counted, same⟩
    refine bind_eq_ok.mpr ⟨diff, unwrap_eq_ok.mpr added, ?_⟩
    refine bind_eq_ok.mpr ⟨poolDiff, merged, ?_⟩
    refine bind_eq_ok.mpr ⟨acc'.2, add_eq_ok.mpr counted, ?_⟩
    rw [← same]
    rfl

theorem mergeTransactions_recorded (vtxs : List (ValidatedTransaction × UInt32))
    (done : vtxs.foldlM (mergeTransaction V pov) acc = .ok acc') : acc'.1.multisetHash = acc.1.multisetHash ∧
      acc'.1.mergesetAcceptanceData = acc.1.mergesetAcceptanceData ∧
      acc'.1.mergesetRewards = acc.1.mergesetRewards := by
  refine foldlM_keeps (fun acc' => acc'.1.multisetHash = acc.1.multisetHash ∧
    acc'.1.mergesetAcceptanceData = acc.1.mergesetAcceptanceData ∧
    acc'.1.mergesetRewards = acc.1.mergesetRewards) (fun vtx _ acc₁ acc₂ before step => ?_)
    ⟨rfl, rfl, rfl⟩ done
  obtain ⟨_, _, _, _, _, same⟩ := mergeTransaction_eq_ok.mp step
  rw [same]
  exact before

theorem mergeBlock_eq_ok {utxoView : UtxoView} {poolView : PoolView} {coinbase : List AcceptedTxEntry}
    {ctx ctx' : UtxoProcessingContext M}
    (done : mergeBlock V utxoView poolView pov selectedParent flags coinbase ctx block = .ok ctx') :
    ∃ vtxs merged blockFee reward, validateTransactionsInParallel V.toTxContext block.transactions
        (composedUtxoView utxoView ctx.mergesetDiff) (composedPoolView poolView ctx.mergesetPoolDiff)
        pov flags selectedParent = (.ok vtxs : Outcome Empty _) ∧
      vtxs.foldlM (mergeTransaction V pov) ({ ctx with
        multisetHash := V.muHash.combine ctx.multisetHash (innerMultiset V vtxs pov) }, 0) =
        .ok (merged, blockFee) ∧
      rewardData V block blockFee = .ok reward ∧
      ctx' = { merged with
        multisetHash := V.muHash.combine ctx.multisetHash (innerMultiset V vtxs pov)
        mergesetAcceptanceData :=
          ctx.mergesetAcceptanceData ++ [acceptanceData V block coinbase vtxs]
        mergesetRewards := ctx.mergesetRewards.insert block.header.hash reward } := by
  unfold mergeBlock at done
  obtain ⟨vtxs, validated, done⟩ := bind_eq_ok.mp done
  obtain ⟨⟨merged, blockFee⟩, looped, done⟩ := bind_eq_ok.mp done
  obtain ⟨reward, rewarded, done⟩ := bind_eq_ok.mp done
  cases done
  refine ⟨vtxs, merged, blockFee, reward, validated, looped, rewarded, ?_⟩
  obtain ⟨hash, data, rewards⟩ := mergeTransactions_recorded vtxs looped
  simp only at hash data rewards
  rw [← hash, ← data, ← rewards]

/-- Transactions that are accepted in the ledger, and stay so while the others are merged. -/
structure Mergeable (V : VirtualProcessor M) (txs : Set Transaction) (pov : UInt64)
    (ledger : Ledger) (vtxs : List ValidatedTransaction) : Prop where
  accepted : ∀ vtx ∈ vtxs, AcceptedIn V.toTxContext ledger vtx
  wellFormed : ∀ vtx ∈ vtxs, TxWellFormed V.validator vtx.tx
  known : ∀ vtx ∈ vtxs, vtx.tx ∈ txs
  utxosApart : vtxs.Pairwise fun a b =>
    (utxoUpdate V.crypto.hashers a.tx pov).Apart (utxoUpdate V.crypto.hashers b.tx pov)
  serialsApart : vtxs.Pairwise fun a b =>
    (poolUpdate V.crypto.hashers a.tx).Apart (poolUpdate V.crypto.hashers b.tx)

theorem Mergeable.tail {vtx : ValidatedTransaction} {rest : List ValidatedTransaction}
    (mergeable : Mergeable V txs pov ledger (vtx :: rest)) :
    Mergeable V txs pov (ledger.accept V.crypto.hashers pov vtx.tx) rest where
  accepted other member := by
    have utxos := List.rel_of_pairwise_cons mergeable.utxosApart member
    have serials := List.rel_of_pairwise_cons mergeable.serialsApart member
    apply (mergeable.accepted other (.tail _ member)).of_agree
    · intro outpoint input
      exact Update.apply_of_notMem fun touched => utxos touched (List.mem_append_left _ input)
    · intro sn inside
      exact Update.apply_of_notMem fun touched => serials touched inside
  wellFormed other member := mergeable.wellFormed other (.tail _ member)
  known other member := mergeable.known other (.tail _ member)
  utxosApart := (List.pairwise_cons.mp mergeable.utxosApart).2
  serialsApart := (List.pairwise_cons.mp mergeable.serialsApart).2

/-- The loop over the transactions of a block: it merges them all, and only counting their fees
could fail. -/
theorem mergeTransactions_spec (free : NoCollisions V.crypto.hashers txs) (vtxs : List (ValidatedTransaction × UInt32))
    (state : WalkState V.crypto.hashers txs base history ledger acc.1.mergesetDiff acc.1.mergesetPoolDiff)
    (mergeable : Mergeable V txs pov ledger (vtxs.map Prod.fst)) :
    (∀ acc', vtxs.foldlM (mergeTransaction V pov) acc = .ok acc' → WalkState V.crypto.hashers txs base
        (history ++ (vtxs.map Prod.fst).map ValidatedTransaction.tx)
        (ledger.acceptAll V.crypto.hashers pov ((vtxs.map Prod.fst).map ValidatedTransaction.tx))
        acc'.1.mergesetDiff acc'.1.mergesetPoolDiff ∧ acc'.2.toNat = acc.2.toNat + feesOf (vtxs.map Prod.fst) ∧
      acc'.1.acceptedTxIds = acc.1.acceptedTxIds ++
        ((vtxs.map Prod.fst).map ValidatedTransaction.tx).map (Transaction.id V.crypto.hashers)) ∧
    ∀ cause, (cause = .overflow → acc.2.toNat + feesOf (vtxs.map Prod.fst) < 2 ^ 64) →
      SafeFrom cause (vtxs.foldlM (mergeTransaction V pov) acc) := by
  induction vtxs generalizing acc history ledger with
  | nil =>
    constructor
    · intro acc' done
      cases done
      simpa [feesOf, Ledger.acceptAll] using state
    · intro _ _
      exact safe_ok acc
  | cons vtx rest ih =>
    rw [List.map_cons] at mergeable
    obtain ⟨_, diff, poolDiff, added, merged, state'⟩ := state.accept free
      (mergeable.known _ (.head _)) (mergeable.accepted _ (.head _)) pov
      (mergeable.wellFormed _ (.head _))
    have step : ∀ acc₁, mergeTransaction V pov acc vtx = .ok acc₁ →
        acc₁.2.toNat = acc.2.toNat + vtx.1.calculatedFee.toNat ∧
        acc₁.1.mergesetDiff = diff ∧ acc₁.1.mergesetPoolDiff = poolDiff ∧
        acc₁.1.acceptedTxIds = acc.1.acceptedTxIds ++ [vtx.1.tx.id V.crypto.hashers] := by
      intro acc₁ first
      obtain ⟨diff₁, poolDiff₁, added₁, merged₁, fee, same⟩ := mergeTransaction_eq_ok.mp first
      cases added.symm.trans added₁
      cases merged.symm.trans merged₁
      rw [same]
      exact ⟨fee, rfl, rfl, rfl⟩
    constructor
    · intro acc' done
      obtain ⟨acc₁, first, done⟩ := foldlM_cons_eq_ok.mp done
      obtain ⟨fee, rfl, rfl, ids⟩ := step acc₁ first
      obtain ⟨after, fees, ids'⟩ := (ih state' mergeable.tail).1 acc' done
      refine ⟨by simpa [Ledger.acceptAll] using after, ?_, ?_⟩
      · rw [fees, fee]
        simp [feesOf]
        omega
      · rw [ids', ids]
        simp
    · intro cause fits
      simp only [feesOf, List.map_cons, List.sum_cons] at fits
      rw [List.foldlM_cons]
      refine safe_bind ?_ fun acc₁ first => ?_
      · simp only [mergeTransaction, added, merged]
        refine safe_bind (safe_ok _) fun _ _ =>
          safe_bind (safe_ok _) fun _ _ =>
          safe_bind (safe_add fun overflow => ?_) fun _ _ => safe_ok _
        have fits := fits overflow
        omega
      · obtain ⟨fee, rfl, rfl, _⟩ := step acc₁ first
        refine (ih state' mergeable.tail).2 cause fun overflow => ?_
        have fits := fits overflow
        simp only [feesOf]
        omega

/-- `P` is about the history, the ledger and the fees paid so far, and every accepted transaction
keeps it. -/
def KeptByAccept (V : VirtualProcessor M) (txs : Set Transaction) (pov : UInt64)
    (P : List Transaction → Ledger → Nat → Prop) : Prop :=
  ∀ history ledger paid vtx, (∀ t ∈ history, t ∈ txs) → vtx.tx ∈ txs →
    NewTo V.crypto.hashers history vtx.tx → AcceptedIn V.toTxContext ledger vtx →
    (utxoUpdate V.crypto.hashers vtx.tx pov).Fits ledger.utxos → P history ledger paid →
    P (history ++ [vtx.tx]) (ledger.accept V.crypto.hashers pov vtx.tx) (paid + vtx.calculatedFee.toNat)

/-- Value leaves the ledger as fees only. -/
theorem worth_kept (n : Nat) : KeptByAccept V txs pov fun _ ledger paid => ∃ n', Worth ledger n' ∧ n' + paid = n := by
  rintro _ _ paid vtx _ _ _ accepted fits ⟨n', worth, total⟩
  obtain ⟨n₁, worth₁, fee⟩ := worth_accept accepted fits worth
  exact ⟨n₁, worth₁, by omega⟩

theorem WalkState.acceptAll (free : NoCollisions V.crypto.hashers txs) (vtxs : List ValidatedTransaction)
    {diff : UtxoDiff} {poolDiff : PoolDiff} (state : WalkState V.crypto.hashers txs base history ledger diff poolDiff)
    (mergeable : Mergeable V txs pov ledger vtxs) : (∃ diff' poolDiff', WalkState V.crypto.hashers txs base
        (history ++ vtxs.map ValidatedTransaction.tx)
        (ledger.acceptAll V.crypto.hashers pov (vtxs.map ValidatedTransaction.tx)) diff' poolDiff') ∧
      ∀ P, KeptByAccept V txs pov P → ∀ paid, P history ledger paid → P (history ++ vtxs.map ValidatedTransaction.tx)
          (ledger.acceptAll V.crypto.hashers pov (vtxs.map ValidatedTransaction.tx)) (paid + feesOf vtxs) := by
  induction vtxs generalizing history ledger diff poolDiff with
  | nil =>
    refine ⟨⟨diff, poolDiff, ?_⟩, fun P _ paid here => ?_⟩
    · simpa [Ledger.acceptAll] using state
    · simpa [Ledger.acceptAll, feesOf] using here
  | cons vtx rest ih =>
    have accepted := mergeable.accepted vtx List.mem_cons_self
    have known := mergeable.known vtx List.mem_cons_self
    have wellFormed := mergeable.wellFormed vtx List.mem_cons_self
    have new := newTo_of_accepted state.consistent free state.known known wellFormed accepted
    obtain ⟨fits, diff₁, poolDiff₁, _, _, state₁⟩ := state.accept free known accepted pov wellFormed
    obtain ⟨⟨diff', poolDiff', state'⟩, keeps⟩ := ih state₁ mergeable.tail
    refine ⟨⟨diff', poolDiff', by simpa [Ledger.acceptAll] using state'⟩, ?_⟩
    intro P kept paid here
    have later := keeps P kept _ (kept _ _ paid vtx state.known known new accepted fits here)
    simpa [Ledger.acceptAll, feesOf, Nat.add_assoc] using later

theorem BlockWellFormed.mergeable (wellFormed : BlockWellFormed V.toBodyProcessor block)
    (free : NoCollisions V.crypto.hashers txs) (known : ∀ tx ∈ block.transactions, tx ∈ txs) :
    Mergeable V txs pov ledger (acceptedOf V.toTxContext block.transactions ledger pov flags selectedParent) := by
  have sublist : ((acceptedOf V.toTxContext block.transactions ledger pov flags selectedParent).map
      ValidatedTransaction.tx).Sublist block.transactions :=
    acceptedOf_sublist.trans (List.drop_sublist 1 _)
  have accepted : ∀ vtx ∈ acceptedOf V.toTxContext block.transactions ledger pov flags
      selectedParent, AcceptedIn V.toTxContext ledger vtx := fun vtx member =>
    validateTransactionInUtxoContext_accepted (acceptedIn_of_mem member).2
  have inBlock : ∀ vtx ∈ acceptedOf V.toTxContext block.transactions ledger pov flags
      selectedParent, vtx.tx ∈ block.transactions := fun vtx member =>
    List.mem_of_mem_drop (acceptedIn_of_mem member).1
  have utxosApart := List.pairwise_map.mp ((wellFormed.utxosApart pov).sublist sublist)
  exact ⟨accepted, fun vtx member => wellFormed.isolated _ (inBlock vtx member),
    fun vtx member => known _ (inBlock vtx member), utxosApart,
    wellFormed.serialsApart free known accepted sublist⟩

/-- The scores of all live outputs are in range. -/
def InRange (V : VirtualProcessor M) (ledger : Ledger) : Prop :=
  ∀ outpoint entry, ledger.utxos outpoint = some entry → ScoreInRange V.validator entry.blockDaaScore

theorem InRange.accept (inRange : InRange V ledger) (pov_inRange : ScoreInRange V.validator pov) (tx : Transaction) :
    InRange V (ledger.accept V.crypto.hashers pov tx) := by
  intro outpoint entry live
  rcases Update.apply_eq_some live with ⟨before, _⟩ | created
  · exact inRange outpoint entry before
  · rw [createdEntries_score created]
    exact pov_inRange

theorem InRange.acceptAll (inRange : InRange V ledger) (pov_inRange : ScoreInRange V.validator pov)
    (accepted : List Transaction) : InRange V (ledger.acceptAll V.crypto.hashers pov accepted) := by
  induction accepted generalizing ledger with
  | nil => exact inRange
  | cons tx rest ih => exact ih (inRange.accept pov_inRange tx)

/-- Values and scores leave room for every sum of the walk. -/
structure NoOverflow (V : VirtualProcessor M) (pov : UInt64) (ledger : Ledger) : Prop where
  worth : ∃ n, Worth ledger n ∧ n < 2 ^ 64
  scores : InRange V ledger
  pov : ScoreInRange V.validator pov

section Block

variable {block : Block} {ctx : UtxoProcessingContext M} {history : List Transaction}
  {ledger : Ledger} {flags : TxValidationFlags} {selectedParent : Hash}
  {coinbase : List AcceptedTxEntry} {vtxs : List ValidatedTransaction}

variable (state : WalkState V.crypto.hashers txs base history ledger ctx.mergesetDiff ctx.mergesetPoolDiff)

include state

theorem mergeBlock_validates {ctx' : UtxoProcessingContext M}
    (done : mergeBlock V base.utxos base.pool pov selectedParent flags coinbase ctx block = .ok ctx')
    {tx : Transaction} (member : tx ∈ block.transactions.drop 1) (cause : Panic) :
    SafeFrom cause (validateTransactionInUtxoContext V.toTxContext tx ledger.utxos
      ledger.pool pov flags selectedParent) := by
  obtain ⟨_, _, _, _, validated, _⟩ := mergeBlock_eq_ok done
  rw [state.reads.composed, state.poolReads.composed] at validated
  obtain ⟨i, inside, rfl⟩ := List.mem_iff_getElem.mp member
  have numbered : ((block.transactions.drop 1)[i], 1 + i) ∈ block.transactions.zipIdx.drop 1 := by
    rw [List.mem_iff_getElem]
    exact ⟨i, by simpa using inside, by simp⟩
  exact safe_of_bind ((filterOk_eq_ok.mp validated).1 _ numbered cause)

variable (free : NoCollisions V.crypto.hashers txs) (wellFormed : BlockWellFormed V.toBodyProcessor block)
  (known : ∀ tx ∈ block.transactions, tx ∈ txs)

include free wellFormed known

theorem mergeBlock_ok {ctx' : UtxoProcessingContext M}
    (done : mergeBlock V base.utxos base.pool pov selectedParent flags coinbase ctx block = .ok ctx')
    (valid : acceptedOf V.toTxContext block.transactions ledger pov flags selectedParent = vtxs) :
    WalkState V.crypto.hashers txs base (history ++ vtxs.map ValidatedTransaction.tx)
        (ledger.acceptAll V.crypto.hashers pov (vtxs.map ValidatedTransaction.tx))
        ctx'.mergesetDiff ctx'.mergesetPoolDiff ∧
      (∃ reward, ctx'.mergesetRewards = ctx.mergesetRewards.insert block.header.hash reward ∧
        reward.totalFees.toNat = feesOf vtxs) ∧ ctx'.acceptedTxIds = ctx.acceptedTxIds ++
        (vtxs.map ValidatedTransaction.tx).map (Transaction.id V.crypto.hashers) := by
  have mergeable : Mergeable V txs pov ledger vtxs := valid ▸ wellFormed.mergeable free known
  obtain ⟨numbered, merged, blockFee, reward, validated, looped, rewarded, rfl⟩ := mergeBlock_eq_ok done
  rw [state.reads.composed, state.poolReads.composed] at validated
  have same : numbered.map Prod.fst = vtxs := by
    rw [validateTransactionsInParallel_fst validated, valid]
  rw [← same] at mergeable
  obtain ⟨after, fees, ids⟩ :=
    (mergeTransactions_spec free numbered state mergeable).1 _ looped
  rw [same] at after fees ids
  obtain ⟨_, _, rewarded⟩ := bind_eq_ok.mp rewarded
  obtain ⟨_, _, rewarded⟩ := bind_eq_ok.mp rewarded
  cases rewarded
  refine ⟨after, ⟨_, rfl, ?_⟩, ids⟩
  rw [fees]
  exact Nat.zero_add _

theorem mergeBlock_safe {cause : Panic} (valid : ∀ tx ∈ block.transactions.drop 1, SafeFrom cause
      (validateTransactionInUtxoContext V.toTxContext tx ledger.utxos ledger.pool pov flags selectedParent))
    (fits : cause = .overflow → feesOf (acceptedOf V.toTxContext block.transactions ledger pov flags
      selectedParent) < 2 ^ 64) :
    SafeFrom cause (mergeBlock V base.utxos base.pool pov selectedParent flags coinbase ctx block) := by
  unfold mergeBlock
  rw [state.reads.composed, state.poolReads.composed]
  have safe : SafeFrom cause (validateTransactionsInParallel V.toTxContext block.transactions
      ledger.utxos ledger.pool pov flags selectedParent : Outcome Empty _) := by
    apply safe_filterOk
    intro item member
    have inBlock : item.1 ∈ (block.transactions.zipIdx.drop 1).map Prod.fst :=
      List.mem_map_of_mem member
    rw [List.map_drop, List.zipIdx_map_fst] at inBlock
    exact safe_bind (valid _ inBlock) fun _ _ => safe_ok _
  refine safe_bind safe fun numbered validated => ?_
  have same := validateTransactionsInParallel_fst validated
  have mergeable : Mergeable V txs pov ledger (numbered.map Prod.fst) :=
    same ▸ wellFormed.mergeable free known
  refine safe_bind ((mergeTransactions_spec free numbered state mergeable).2 cause ?_) fun _ _ => ?_
  · rw [same]
    exact (Nat.zero_add _).symm ▸ fits
  · obtain ⟨cb, rest, whole, _, _, data, payload⟩ := wellFormed.coinbase
    have head : block.transactions.head? = some cb := by rw [whole, List.head?_cons]
    refine safe_bind ?_ fun _ _ => safe_ok _
    rw [rewardData, head]
    refine safe_bind (safe_ok cb) fun _ here => ?_
    cases here
    rw [payload]
    exact safe_ok _

end Block

end Merge

/-! ## The whole walk -/

/-- A merged block with the way it is merged: the selected parent is replayed, and its acceptance
data starts with its coinbase. -/
structure MergeStep where
  block : Block
  flags : TxValidationFlags
  coinbase : List AcceptedTxEntry

/-- The steps of a walk. -/
def mergeSteps (H : Hashers) (selectedParent : Block) (coinbase : Transaction)
    (mergeset : List Block) : List MergeStep :=
  ⟨selectedParent, .skipScriptChecks, [⟨coinbase.id H, 0⟩]⟩ :: mergeset.map fun block => ⟨block, .full, []⟩

/-- What each step accepts, from a given ledger on. -/
def walkTrace (T : TxContext) (pov : UInt64) (selectedParent : Hash) :
    Ledger → List MergeStep → List (Block × List ValidatedTransaction)
  | _, [] => []
  | ledger, step :: rest =>
    let vtxs := acceptedOf T step.block.transactions ledger pov step.flags selectedParent
    (step.block, vtxs) :: walkTrace T pov selectedParent
      (ledger.acceptAll T.crypto.hashers pov (vtxs.map ValidatedTransaction.tx)) rest

variable (trace : List (Block × List ValidatedTransaction))

/-- All accepted transactions of a trace, in order. -/
def traceTxs : List Transaction :=
  trace.flatMap fun step => step.2.map ValidatedTransaction.tx

/-- The fees of all accepted transactions of a trace. -/
def traceFees : Nat :=
  (trace.map fun step => feesOf step.2).sum

/-- The fees recorded for the merged blocks. -/
def recordedFees (rewards : Map Hash BlockRewardData) : Nat :=
  rewards.total fun reward => reward.totalFees.toNat

section Walk

variable {M : Type} {V : VirtualProcessor M} {pov : UInt64} {txs : Set Transaction} {base : Ledger}
  {selectedParent : Hash}

theorem acceptAll_append (H : Hashers) (pov : UInt64) (ledger : Ledger) (a b : List Transaction) :
    ledger.acceptAll H pov (a ++ b) = (ledger.acceptAll H pov a).acceptAll H pov b :=
  List.foldl_append

section Steps

variable {history : List Transaction} {ledger : Ledger} {trace : List (Block × List ValidatedTransaction)}

section

variable (free : NoCollisions V.crypto.hashers txs) (steps : List MergeStep)
  (wellFormed : ∀ step ∈ steps, BlockWellFormed V.toBodyProcessor step.block)
  (known : ∀ step ∈ steps, ∀ tx ∈ step.block.transactions, tx ∈ txs)

include free steps wellFormed known

theorem walk_keeps {diff : UtxoDiff} {poolDiff : PoolDiff}
    (state : WalkState V.crypto.hashers txs base history ledger diff poolDiff)
    {P : List Transaction → Ledger → Nat → Prop} (kept : KeptByAccept V txs pov P) {paid : Nat}
    (here : P history ledger paid) (traced : walkTrace V.toTxContext pov selectedParent ledger steps = trace) :
    P (history ++ traceTxs trace) (ledger.acceptAll V.crypto.hashers pov (traceTxs trace))
      (paid + traceFees trace) := by
  induction steps generalizing history ledger diff poolDiff paid trace with
  | nil =>
    subst traced
    simpa [walkTrace, traceTxs, traceFees, Ledger.acceptAll] using here
  | cons step rest ih =>
    subst traced
    rw [List.forall_mem_cons] at wellFormed known
    obtain ⟨⟨diff', poolDiff', state'⟩, keeps⟩ :=
      state.acceptAll free _ (wellFormed.1.mergeable free known.1)
    have later := ih wellFormed.2 known.2 state' (keeps P kept paid here) rfl
    simpa [walkTrace, traceTxs, traceFees, acceptAll_append, Nat.add_assoc] using later

variable {ctx : UtxoProcessingContext M}

variable (state : WalkState V.crypto.hashers txs base history ledger ctx.mergesetDiff ctx.mergesetPoolDiff)

include state

theorem mergeBlocks_ok {ctx' : UtxoProcessingContext M}
    (done : steps.foldlM (fun ctx step => mergeBlock V base.utxos base.pool pov selectedParent
      step.flags step.coinbase ctx step.block) ctx = .ok ctx')
    (traced : walkTrace V.toTxContext pov selectedParent ledger steps = trace) :
    WalkState V.crypto.hashers txs base (history ++ traceTxs trace)
        (ledger.acceptAll V.crypto.hashers pov (traceTxs trace)) ctx'.mergesetDiff ctx'.mergesetPoolDiff ∧
      ctx'.acceptedTxIds = ctx.acceptedTxIds ++ (traceTxs trace).map (Transaction.id V.crypto.hashers) ∧
      ((steps.map fun step => step.block.header.hash).Nodup →
        (∀ step ∈ steps, ctx.mergesetRewards.lookup step.block.header.hash = none) →
        recordedFees ctx'.mergesetRewards = recordedFees ctx.mergesetRewards + traceFees trace) := by
  induction steps generalizing ctx history ledger trace with
  | nil =>
    subst traced
    cases done
    simpa [walkTrace, traceTxs, traceFees, Ledger.acceptAll] using state
  | cons step rest ih =>
    subst traced
    rw [List.forall_mem_cons] at wellFormed known
    obtain ⟨ctx₁, first, done⟩ := foldlM_cons_eq_ok.mp done
    obtain ⟨state₁, ⟨reward, rewards₁, fees₁⟩, ids₁⟩ :=
      mergeBlock_ok state free wellFormed.1 known.1 first rfl
    obtain ⟨state', ids', recorded⟩ := ih wellFormed.2 known.2 state₁ done rfl
    refine ⟨?_, ?_, ?_⟩
    · simpa [walkTrace, traceTxs, acceptAll_append] using state'
    · rw [ids', ids₁]
      simp [walkTrace, traceTxs]
    · intro nodup fresh
      rw [List.map_cons, List.nodup_cons] at nodup
      rw [List.forall_mem_cons] at fresh
      -- The later blocks have other hashes, so their rewards are new entries as well.
      have fresh₁ : ∀ other ∈ rest, ctx₁.mergesetRewards.lookup other.block.header.hash = none := by
        intro other member
        have differ : other.block.header.hash ≠ step.block.header.hash := by
          intro same
          exact nodup.1 (List.mem_map.mpr ⟨other, member, same⟩)
        rw [rewards₁, Map.lookup_insert_eq, if_neg differ]
        exact fresh.2 other member
      have inserted : recordedFees ctx₁.mergesetRewards =
          reward.totalFees.toNat + recordedFees ctx.mergesetRewards := by
        rw [rewards₁, recordedFees, Map.total_insert _ fresh.1, recordedFees]
      rw [recorded nodup.2 fresh₁, inserted, fees₁]
      simp only [walkTrace, traceFees, List.map_cons, List.sum_cons]
      omega

theorem mergeBlocks_safe {cause : Panic} (room : cause = .overflow → NoOverflow V pov ledger) :
    SafeFrom cause (steps.foldlM (fun ctx step => mergeBlock V base.utxos base.pool pov
      selectedParent step.flags step.coinbase ctx step.block) ctx) := by
  induction steps generalizing ctx history ledger with
  | nil => exact safe_ok ctx
  | cons step rest ih =>
    rw [List.forall_mem_cons] at wellFormed known
    rw [List.foldlM_cons]
    have mergeable : Mergeable V txs pov ledger (acceptedOf V.toTxContext step.block.transactions
        ledger pov step.flags selectedParent) := wellFormed.1.mergeable free known.1
    obtain ⟨_, keeps⟩ := state.acceptAll free _ mergeable
    have valid : ∀ tx ∈ step.block.transactions.drop 1, SafeFrom cause
        (validateTransactionInUtxoContext V.toTxContext tx ledger.utxos ledger.pool pov step.flags
          selectedParent) := fun tx member =>
      validateTransactionInUtxoContext_safe (wellFormed.1.isolated tx (List.mem_of_mem_drop member))
        fun overflow => (room overflow).scores
    refine safe_bind (mergeBlock_safe state free wellFormed.1 known.1 valid fun overflow => ?_) fun ctx₁ first => ?_
    · obtain ⟨n, worth, bounded⟩ := (room overflow).worth
      obtain ⟨n₁, _, paid⟩ := keeps _ (worth_kept n) 0 ⟨n, worth, rfl⟩
      omega
    · obtain ⟨state₁, _, _⟩ := mergeBlock_ok state free wellFormed.1 known.1 first rfl
      refine ih wellFormed.2 known.2 state₁ fun overflow => ?_
      obtain ⟨⟨n, worth, bounded⟩, scores, povInRange⟩ := room overflow
      obtain ⟨n₁, worth₁, paid⟩ := keeps _ (worth_kept n) 0 ⟨n, worth, rfl⟩
      exact ⟨⟨n₁, worth₁, by omega⟩, scores.acceptAll povInRange _, povInRange⟩

end

end Steps

/-- The transactions of a history and of some blocks. -/
def involved (history : List Transaction) (blocks : List Block) : Set Transaction :=
  {tx | tx ∈ history ∨ ∃ block ∈ blocks, tx ∈ block.transactions}

theorem involved_eq (history : List Transaction) (blocks : List Block) :
    involved history blocks = {tx | tx ∈ history ++ blocks.flatMap Block.transactions} := by
  ext tx
  simp [involved]

/-- What a walk starts from: a ledger with its history, and body-valid blocks to merge. The coinbase
of the selected parent has not been accepted before. -/
structure WalkInput (V : VirtualProcessor M) (history : List Transaction) (base : Ledger)
    (selectedParent : Block) (mergeset : List Block) : Prop where
  consistent : Consistent V.crypto.hashers history base
  wellFormed : ∀ block ∈ selectedParent :: mergeset, BlockWellFormed V.toBodyProcessor block
  free : NoCollisions V.crypto.hashers (involved history (selectedParent :: mergeset))
  coinbaseNew : ∀ coinbase, selectedParent.transactions.head? = some coinbase →
    ∀ t ∈ history, t.id V.crypto.hashers ≠ coinbase.id V.crypto.hashers

namespace WalkInput

variable {history : List Transaction} {selectedParent : Block} {mergeset : List Block}

theorem coinbase (input : WalkInput V history base selectedParent mergeset) :
    ∃ coinbase, selectedParent.transactions.head? = some coinbase ∧ coinbase.isCoinbase = true ∧
      TxWellFormed V.validator coinbase ∧ coinbase ∈ selectedParent.transactions := by
  have wellFormed := input.wellFormed selectedParent List.mem_cons_self
  obtain ⟨coinbase, rest, whole, first, _⟩ := wellFormed.coinbase
  have member : coinbase ∈ selectedParent.transactions := by
    rw [whole]
    exact List.mem_cons_self
  exact ⟨coinbase, by rw [whole, List.head?_cons], first, wellFormed.isolated coinbase member, member⟩

theorem steps_mem {coinbase : Transaction} {step : MergeStep}
    (member : step ∈ mergeSteps V.crypto.hashers selectedParent coinbase mergeset) :
    step.block ∈ selectedParent :: mergeset := by
  rcases List.mem_cons.mp member with rfl | later
  · exact .head _
  · obtain ⟨block, inMergeset, rfl⟩ := List.mem_map.mp later
    exact .tail _ inMergeset

theorem poolOp_of_coinbase {tx : Transaction} (coinbase : tx.isCoinbase = true) : tx.poolOp = none := by
  have lane : tx.subnetworkId = SubnetworkId.coinbase := by
    simpa [Transaction.isCoinbase] using coinbase
  rw [Transaction.poolOp, lane, if_neg (by decide)]

theorem acceptCoinbase (input : WalkInput V history base selectedParent mergeset) (pov : UInt64)
    {coinbase : Transaction} (first : selectedParent.transactions.head? = some coinbase)
    (ctx : UtxoProcessingContext M) (clean : ctx.mergesetDiff = .empty) (poolClean : ctx.mergesetPoolDiff = .empty) :
    (utxoUpdate V.crypto.hashers coinbase pov).Fits base.utxos ∧ ∃ ctx', acceptCoinbase V pov ctx coinbase = .ok ctx' ∧
        WalkState V.crypto.hashers (involved history (selectedParent :: mergeset)) base
          (history ++ [coinbase]) (base.accept V.crypto.hashers pov coinbase) ctx'.mergesetDiff ctx'.mergesetPoolDiff ∧
        ctx'.mergesetRewards = ctx.mergesetRewards ∧ ctx'.acceptedTxIds = ctx.acceptedTxIds := by
  obtain ⟨coinbase', first', isCoinbase, wellFormed, member⟩ := input.coinbase
  cases first.symm.trans first'
  have new : NewTo V.crypto.hashers history coinbase := .inl (input.coinbaseNew coinbase first)
  have noInputs := (wellFormed.coinbase isCoinbase).1
  have noOp := poolOp_of_coinbase isCoinbase
  have start : WalkState V.crypto.hashers (involved history (selectedParent :: mergeset)) base
      history base .empty .empty :=
    walkState_start input.consistent fun t inHistory => .inl inHistory
  have fits : (utxoUpdate V.crypto.hashers coinbase pov).Fits base.utxos :=
    start.utxoUpdate_fits new wellFormed.fewOutputs (by simp [noInputs]) (by simp [noInputs])
  have populated : (coinbase.inputs.map TransactionInput.previousOutpoint).map base.utxos =
      ([] : List UtxoEntry).map some := by simp [noInputs]
  obtain ⟨diff, added, reads, adds⟩ := start.addTransaction new fits populated
  have fitsPool : (poolUpdate V.crypto.hashers coinbase).Fits base.pool := by
    rw [poolUpdate, noOp]
    exact ⟨List.nodup_nil, by simp, List.nodup_nil, by simp⟩
  have still : (poolUpdate V.crypto.hashers coinbase).apply base.pool = base.pool := by
    funext sn
    rw [poolUpdate, noOp]
    exact Update.apply_of_notMem (by simp [Update.keys])
  have state := start.next new fits input.free (.inr ⟨selectedParent, .head _, member⟩)
    fitsPool reads (still.symm ▸ start.poolReads) adds start.poolAdds
  refine ⟨fits, { ctx with
    mergesetDiff := diff
    multisetHash := V.muHash.addTransaction V.crypto.hashers ctx.multisetHash (.coinbase coinbase)
      pov }, ?_, by rw [poolClean]; exact state, rfl, rfl⟩
  rw [Consensus.acceptCoinbase, clean, added]
  rfl

/-- The ledger a walk ends in, and what it accepts on the way. -/
def result (V : VirtualProcessor M) (pov : UInt64) (base : Ledger) (selectedParent : Block)
    (mergeset : List Block) (coinbase : Transaction) :
    Ledger × List (Block × List ValidatedTransaction) :=
  let start := base.accept V.crypto.hashers pov coinbase
  let trace := walkTrace V.toTxContext pov selectedParent.header.hash start
    (mergeSteps V.crypto.hashers selectedParent coinbase mergeset)
  (start.acceptAll V.crypto.hashers pov (traceTxs trace), trace)

variable {m : M} {after : Ledger} {trace : List (Block × List ValidatedTransaction)}
  {coinbase : Transaction} (first : selectedParent.transactions.head? = some coinbase)

include first

theorem calculateUtxoState_eq (ctx : UtxoProcessingContext M) :
    calculateUtxoState V ctx selectedParent mergeset base.utxos base.pool pov =
      (Consensus.acceptCoinbase V pov ctx coinbase >>= fun ctx =>
        (mergeSteps V.crypto.hashers selectedParent coinbase mergeset).foldlM
          (fun ctx step => mergeBlock V base.utxos base.pool pov selectedParent.header.hash
            step.flags step.coinbase ctx step.block) ctx) := by
  simp only [calculateUtxoState, first, expect, mergeSteps, List.foldlM_cons, List.foldlM_map]
  rfl

variable (input : WalkInput V history base selectedParent mergeset)

include input

section

variable (ends : result V pov base selectedParent mergeset coinbase = (after, trace))

include ends

theorem calculateUtxoState_ok {ctx : UtxoProcessingContext M}
    (done : calculateUtxoState V (.new m) selectedParent mergeset base.utxos base.pool pov = .ok ctx) :
    WalkState V.crypto.hashers (involved history (selectedParent :: mergeset)) base
        (history ++ coinbase :: traceTxs trace) after ctx.mergesetDiff ctx.mergesetPoolDiff ∧
      ctx.acceptedTxIds = (traceTxs trace).map (Transaction.id V.crypto.hashers) ∧
      (((selectedParent :: mergeset).map fun block => block.header.hash).Nodup →
        recordedFees ctx.mergesetRewards = traceFees trace) := by
  cases ends
  rw [calculateUtxoState_eq first] at done
  obtain ⟨ctx₁, accepted, done⟩ := bind_eq_ok.mp done
  obtain ⟨_, ctx₁', accepted', state, rewards, ids⟩ :=
    input.acceptCoinbase pov first (.new m) rfl rfl
  cases accepted.symm.trans accepted'
  obtain ⟨state', ids', recorded⟩ := mergeBlocks_ok input.free _
    (fun step member => input.wellFormed _ (steps_mem member))
    (fun step member tx inBlock => .inr ⟨step.block, steps_mem member, inBlock⟩) state done rfl
  refine ⟨by simpa using state', by rw [ids', ids]; rfl, ?_⟩
  intro nodup
  have hashes : (mergeSteps V.crypto.hashers selectedParent coinbase mergeset).map
      (fun step => step.block.header.hash) =
      (selectedParent :: mergeset).map fun block => block.header.hash := by simp [mergeSteps]
  have counted := recorded (hashes ▸ nodup) (by rw [rewards]; exact fun _ _ => rfl)
  rw [counted, rewards]
  exact Nat.zero_add _

theorem result_keeps {P : List Transaction → Ledger → Nat → Prop}
    (kept : KeptByAccept V (involved history (selectedParent :: mergeset)) pov P)
    (started : P (history ++ [coinbase]) (base.accept V.crypto.hashers pov coinbase) 0) :
    P (history ++ coinbase :: traceTxs trace) after (traceFees trace) := by
  obtain ⟨_, _, _, state, _, _⟩ := input.acceptCoinbase pov first (.new V.muHash.new) rfl rfl
  have ended : P (history ++ [coinbase] ++ traceTxs (result V pov base selectedParent mergeset coinbase).2)
      (result V pov base selectedParent mergeset coinbase).1
      (0 + traceFees (result V pov base selectedParent mergeset coinbase).2) :=
    walk_keeps input.free _ (fun step member => input.wellFormed _ (steps_mem member))
      (fun step member tx inBlock => .inr ⟨step.block, steps_mem member, inBlock⟩) state kept started
      rfl
  rwa [ends, List.append_assoc, List.singleton_append, Nat.zero_add] at ended

/-- Value is conserved, the selected parent's coinbase added and the fees taken out. -/
theorem worth_result {n : Nat} (worth : Worth base n) :
    ∃ n', Worth after n' ∧ n' + traceFees trace = n + outputsValue coinbase := by
  obtain ⟨fits, _, _, _, _, _⟩ := input.acceptCoinbase pov first (.new V.muHash.new) rfl rfl
  obtain ⟨coinbase', first', isCoinbase, wellFormed, _⟩ := input.coinbase
  cases first.symm.trans first'
  have started := worth_coinbase (wellFormed.coinbase isCoinbase).1 (poolOp_of_coinbase isCoinbase) fits worth
  exact input.result_keeps first ends (worth_kept _) ⟨_, started, rfl⟩

end

/-- No unwrap of the walk fails, and no sum overflows on values and scores in range. -/
theorem calculateUtxoState_safe {cause : Panic}
    (room : cause = .overflow → (∃ n, Worth base n ∧ n + outputsValue coinbase < 2 ^ 64) ∧
      InRange V base ∧ ScoreInRange V.validator pov) :
    SafeFrom cause (calculateUtxoState V (.new m) selectedParent mergeset base.utxos base.pool pov) := by
  obtain ⟨fits, ctx₁, accepted, state, _, _⟩ := input.acceptCoinbase pov first (.new m) rfl rfl
  obtain ⟨coinbase', first', isCoinbase, wellFormed, _⟩ := input.coinbase
  cases first.symm.trans first'
  rw [calculateUtxoState_eq first, accepted]
  refine mergeBlocks_safe input.free _ (fun step member => input.wellFormed _ (steps_mem member))
    (fun step member tx inBlock => .inr ⟨step.block, steps_mem member, inBlock⟩) state
    fun overflow => ?_
  obtain ⟨⟨n, worth, bounded⟩, scores, povInRange⟩ := room overflow
  have started := worth_coinbase (wellFormed.coinbase isCoinbase).1 (poolOp_of_coinbase isCoinbase) fits worth
  exact ⟨⟨_, started, bounded⟩, scores.accept povInRange coinbase, povInRange⟩

end WalkInput

end Walk

end Marigold.Consensus
