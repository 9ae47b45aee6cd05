import Marigold.Consensus.Spend

/-!
# A serial lives once

On a chain from genesis no serial is created twice. A second creation would need the same
transaction accepted twice; what it consumes, or the outpoints that pay for it, would have to be live
again, and the history shows that nothing spent comes back. So a note that is gone stays gone, and no
pool op is accepted twice.

Ids and serials are taken not to collide, and coinbases to have ids of their own: a coinbase spends
nothing, so only its id tells it from an earlier one.
-/

namespace Marigold.Consensus

open Lib NotePool Utxo

/-- The serials a transaction adds to the pool. -/
def createdSerials (H : Hashers) (tx : Transaction) : List Hash :=
  (poolUpdate H tx).created.map Prod.fst

/-- No serial is created twice, and no transaction with a pool op repeats. -/
structure Once (H : Hashers) (history : List Transaction) : Prop where
  serials : (history.flatMap (createdSerials H)).Nodup
  ops : ((history.filter fun tx => tx.poolOp.isSome).map (Transaction.id H)).Nodup

section Once

variable {H : Hashers} {history : List Transaction} {tx : Transaction} {txs : Set Transaction}

theorem Once.accept (once : Once H history) (free : NoCollisions H txs)
    (known : ∀ t ∈ history, t ∈ txs) (member : tx ∈ txs) (new : NewTo H history tx)
    (created : (createdSerials H tx).Nodup) : Once H (history ++ [tx]) where
  serials := by
    rw [List.flatMap_append, List.flatMap_singleton, List.nodup_append]
    refine ⟨once.serials, created, fun sn before sn' now same => ?_⟩
    obtain ⟨t, inHistory, origin⟩ := List.mem_flatMap.mp before
    exact new.serial free known member (same ▸ now) ⟨t, inHistory, origin⟩
  ops := by
    rw [List.filter_append, List.map_append, List.nodup_append]
    refine ⟨once.ops, ?_, fun id before id' now same => ?_⟩
    · exact (List.nodup_singleton _).sublist (List.filter_sublist.map _)
    · obtain ⟨t, inFilter, rfl⟩ := List.mem_map.mp before
      obtain ⟨t', last, rfl⟩ := List.mem_map.mp now
      obtain ⟨here, hasOp⟩ := List.mem_filter.mp last
      obtain rfl := List.mem_singleton.mp here
      rcases new with fresh | ⟨_, noOp⟩
      · exact fresh t (List.mem_filter.mp inFilter).1 same
      · simp [noOp] at hasOp

theorem Once.accept_noOp (once : Once H history) (noOp : tx.poolOp = none) : Once H (history ++ [tx]) where
  serials := by simpa [createdSerials, poolUpdate, noOp] using once.serials
  ops := by simpa [noOp] using once.ops

theorem once_kept {M : Type} {V : VirtualProcessor M} {pov : UInt64} (free : NoCollisions V.crypto.hashers txs) :
    KeptByAccept V txs pov fun history _ _ => Once V.crypto.hashers history := by
  intro history ledger paid vtx known member new accepted _ once
  exact once.accept free known member new (poolUpdate_fits accepted).createdNodup

end Once

theorem acceptAll_pool_eq_some {H : Hashers} {pov : UInt64} {txs : List Transaction}
    {ledger : Ledger} {sn : Hash} {entry : PoolEntry} (live : (ledger.acceptAll H pov txs).pool sn = some entry) :
    ledger.pool sn = some entry ∨ sn ∈ txs.flatMap (createdSerials H) := by
  induction txs generalizing ledger with
  | nil => exact .inl live
  | cons tx rest ih =>
    rw [List.flatMap_cons, List.mem_append]
    rcases ih live with before | later
    · rcases Update.apply_eq_some before with ⟨kept, _⟩ | created
      · exact .inl kept
      · exact .inr (.inl (List.mem_map_of_mem created))
    · exact .inr (.inr later)

/-! ## Along the chain -/

theorem NoCollisions.mono {H : Hashers} {txs txs' : Set Transaction} (free : NoCollisions H txs)
    (subset : ∀ tx ∈ txs', tx ∈ txs) : NoCollisions H txs' where
  ids a inA b inB := free.ids a (subset a inA) b (subset b inB)
  serials a inA b inB := free.serials a (subset a inA) b (subset b inB)

section Chain

variable {M : Type} {V : VirtualProcessor M} {history : ChainHistory} {tip : ChainTip M} {block : Block}
  {mergeset : List Block} {ctx : UtxoProcessingContext M} {coinbase : Transaction}

/-- The transactions of all blocks of a history. -/
def ChainHistory.transactions (history : ChainHistory) : Set Transaction :=
  {tx | ∃ block ∈ history.blocks, tx ∈ block.transactions}

/-- Ids and serials do not collide on the chain, and its coinbases differ. -/
structure ChainHistory.Distinct (history : ChainHistory) (H : Hashers) : Prop where
  free : NoCollisions H history.transactions
  coinbases : ((history.accepted.filter Transaction.isCoinbase).map (Transaction.id H)).Nodup

theorem ChainHistory.Distinct.of_next {H : Hashers}
    (distinct : (history.next V tip block mergeset ctx coinbase).Distinct H) : history.Distinct H where
  free := distinct.free.mono fun _ ⟨b, member, inBlock⟩ =>
    ⟨b, List.mem_append_left _ member, inBlock⟩
  coinbases := distinct.coinbases.sublist ((List.sublist_append_left _ _).filter _ |>.map _)

/-- What a chain keeps: its history explains the state of the tip, has everything at most once, and
agrees with the ids the walks recorded. -/
structure ChainState (V : VirtualProcessor M) (history : ChainHistory) (tip : ChainTip M) : Prop where
  consistent : Consistent V.crypto.hashers history.accepted tip.ledger
  once : Once V.crypto.hashers history.accepted
  known : ∀ t ∈ history.accepted, t ∈ history.transactions
  wellFormed : BlockWellFormed V.toBodyProcessor tip.block
  inside : tip.block ∈ history.blocks
  recorded : history.acceptedTxIds =
    (history.accepted.filter fun tx => !tx.isCoinbase).map (Transaction.id V.crypto.hashers)

theorem ChainState.of_involved (state : ChainState V history tip) {tx : Transaction}
    (member : tx ∈ involved history.accepted (tip.block :: mergeset)) :
    tx ∈ (history.next V tip block mergeset ctx coinbase).transactions := by
  rcases member with inHistory | ⟨b, member, inBlock⟩
  · obtain ⟨b, member, inBlock⟩ := state.known tx inHistory
    exact ⟨b, List.mem_append_left _ member, inBlock⟩
  · refine ⟨b, List.mem_append.mpr ?_, inBlock⟩
    rcases List.mem_cons.mp member with rfl | inMergeset
    · exact .inl state.inside
    · exact .inr (.tail _ inMergeset)

section

variable (state : ChainState V history tip) (extends_ : Extends V tip block mergeset ctx)
  (first : tip.block.transactions.head? = some coinbase)
  (distinct : (history.next V tip block mergeset ctx coinbase).Distinct V.crypto.hashers)

include state extends_ first distinct

theorem ChainState.walkInput : WalkInput V history.accepted tip.ledger tip.block mergeset where
  consistent := state.consistent
  wellFormed := by
    rw [List.forall_mem_cons]
    exact ⟨state.wellFormed, fun b member =>
      (extends_.bodies b (List.mem_cons_of_mem _ member)).wellFormed⟩
  free := distinct.free.mono fun _ member => state.of_involved member
  coinbaseNew coinbase' first' t inHistory same := by
    cases first.symm.trans first'
    obtain ⟨coinbase', rest, whole, isCoinbase, _⟩ := state.wellFormed.coinbase
    obtain rfl : coinbase = coinbase' := by simpa [whole] using first.symm
    -- With the id of a coinbase it would be a coinbase the chain has accepted before.
    have covered : SameForId t coinbase :=
      distinct.free.ids t (state.of_involved (.inl inHistory)) coinbase
        (state.of_involved (.inr ⟨_, List.mem_cons_self, List.mem_of_mem_head? first⟩)) same
    have earlier : t.id V.crypto.hashers ∈
        (history.accepted.filter Transaction.isCoinbase).map (Transaction.id V.crypto.hashers) :=
      List.mem_map_of_mem (List.mem_filter.mpr ⟨inHistory, covered.isCoinbase.trans isCoinbase⟩)
    have accepted := distinct.coinbases
    rw [ChainHistory.next, acceptedBy, List.filter_append, List.map_append, List.nodup_append,
      List.filter_cons_of_pos isCoinbase] at accepted
    exact accepted.2.2 _ earlier _ List.mem_cons_self same

theorem ChainState.next : ChainState V (history.next V tip block mergeset ctx coinbase)
        ⟨block, tip.ledger.compose ctx, ctx.multisetHash⟩ ∧
      tip.ledger.compose ctx = tip.ledger.acceptAll V.crypto.hashers block.header.daaScore
        (acceptedBy V tip mergeset coinbase block.header.daaScore) := by
  have input := state.walkInput extends_ first distinct
  obtain ⟨coinbase', first', isCoinbase, _, _⟩ := input.coinbase
  cases first.symm.trans first'
  obtain ⟨walked, ids, _⟩ := input.calculateUtxoState_ok first rfl extends_.walked
  have composed : tip.ledger.compose ctx =
      (WalkInput.result V block.header.daaScore tip.ledger tip.block mergeset coinbase).1 := by
    rw [Ledger.compose, walked.reads.composed, walked.poolReads.composed]
    rfl
  have started := state.once.accept_noOp (WalkInput.poolOp_of_coinbase isCoinbase)
  refine ⟨⟨composed ▸ walked.consistent, ?_, ?_, ?_, ?_, ?_⟩, composed⟩
  · exact input.result_keeps first rfl (once_kept input.free) started
  · exact fun t accepted => state.of_involved (walked.known t accepted)
  · exact (extends_.bodies block List.mem_cons_self).wellFormed
  · exact List.mem_append_right _ List.mem_cons_self
  · -- The recorded ids are those of everything accepted but the coinbase.
    have others : ∀ tx ∈ traceTxs (WalkInput.result V block.header.daaScore tip.ledger tip.block
        mergeset coinbase).2, (!tx.isCoinbase) = true := fun tx member => by
      rw [isCoinbase_of_trace input.wellFormed member]
      rfl
    rw [ChainHistory.next, acceptedBy, List.filter_append, List.map_append, ← state.recorded, ids,
      List.filter_cons_of_neg (by simp [isCoinbase]), List.filter_eq_self.mpr others]
    rfl

end

section Run

variable {start history : ChainHistory} {origin tip : ChainTip M}

theorem ChainHistory.Distinct.of_reaches {H : Hashers} (run : Reaches V start origin history tip)
    (distinct : history.Distinct H) : start.Distinct H := by
  induction run with
  | refl => exact distinct
  | next _ _ _ ih => exact ih distinct.of_next

theorem Reaches.chainState (run : Reaches V start origin history tip)
    (started : ChainState V start origin) (distinct : history.Distinct V.crypto.hashers) :
    ChainState V history tip := by
  induction run with
  | refl => exact started
  | next _ extends_ first ih => exact ((ih distinct.of_next).next extends_ first distinct).1

theorem chainState_genesis {genesis : Block} (wellFormed : BlockWellFormed V.toBodyProcessor genesis) :
    ChainState V ⟨[genesis], [], []⟩ (genesisTip V genesis) :=
  ⟨consistent_nil _, ⟨List.nodup_nil, List.nodup_nil⟩, by simp, wellFormed, List.mem_singleton.mpr rfl, rfl⟩

theorem Reaches.stays_gone (run : Reaches V start origin history tip)
    (started : ChainState V start origin) (distinct : history.Distinct V.crypto.hashers) {sn : Hash}
    (created : sn ∈ start.accepted.flatMap (createdSerials V.crypto.hashers)) (gone : origin.ledger.pool sn = none) :
    sn ∈ history.accepted.flatMap (createdSerials V.crypto.hashers) ∧ tip.ledger.pool sn = none := by
  induction run with
  | refl => exact ⟨created, gone⟩
  | @next history tip block mergeset ctx coinbase run extends_ first ih =>
    obtain ⟨before, stillGone⟩ := ih distinct.of_next
    obtain ⟨state, composed⟩ :=
      (run.chainState started distinct.of_next).next extends_ first distinct
    have serials := state.once.serials
    simp only [ChainHistory.next, List.flatMap_append] at serials ⊢
    refine ⟨List.mem_append_left _ before, ?_⟩
    cases live : (tip.ledger.compose ctx).pool sn with
    | none => rfl
    | some entry =>
      -- It would have been created again by this block's walk.
      rw [composed] at live
      rcases acceptAll_pool_eq_some live with alive | again
      · exact nomatch stillGone.symm.trans alive
      · exact absurd rfl ((List.nodup_append.mp serials).2.2 sn before sn again)

end Run

/-- On every chain from genesis with distinct ids, serials and coinbases: each serial is created at
most once, no transaction with a pool op is accepted twice, and a serial that was created by the time
of one chain block and is not live there is not live at any later one. The accepted transactions are
the ones the walks recorded, and only what one of them created is ever live. -/
theorem chain_serial_lives_once (V : VirtualProcessor M) (genesis : Block)
    (wellFormed : BlockWellFormed V.toBodyProcessor genesis) (start history : ChainHistory)
    (origin tip : ChainTip M) (chain : Chain V genesis start origin)
    (later : Reaches V start origin history tip) (distinct : history.Distinct V.crypto.hashers) :
    (history.accepted.flatMap (createdSerials V.crypto.hashers)).Nodup ∧
      ((history.accepted.filter fun tx => tx.poolOp.isSome).map
        (Transaction.id V.crypto.hashers)).Nodup ∧
      history.acceptedTxIds = (history.accepted.filter fun tx => !tx.isCoinbase).map
        (Transaction.id V.crypto.hashers) ∧
      (∀ sn entry, origin.ledger.pool sn = some entry →
        sn ∈ start.accepted.flatMap (createdSerials V.crypto.hashers)) ∧
      ∀ sn ∈ start.accepted.flatMap (createdSerials V.crypto.hashers),
        origin.ledger.pool sn = none → tip.ledger.pool sn = none := by
  have started : ChainState V start origin :=
    chain.chainState (chainState_genesis wellFormed) (distinct.of_reaches later)
  have state := later.chainState started distinct
  refine ⟨state.once.serials, state.once.ops, state.recorded, ?_, ?_⟩
  · intro sn entry live
    obtain ⟨t, inHistory, created⟩ := started.consistent.notes sn entry live
    exact List.mem_flatMap.mpr ⟨t, inHistory, List.mem_map_of_mem created⟩
  · intro sn created gone
    exact (later.stays_gone started distinct created gone).2

end Chain

namespace Sample

/-- Two blocks after the redeeming one. -/
def afterRedeem : Block := block 4 3 30 [coinbase 5 []]

def last : Block := block 5 4 40 [coinbase 6 []]

def afterRedeemTip : ChainTip Unit := advance redeemingTip afterRedeem

def lastTip : ChainTip Unit := advance afterRedeemTip last

set_option maxRecDepth 4000 in
theorem extends_afterRedeem : Extends node redeemingTip afterRedeem [] (walked redeemingTip afterRedeem) where
  bodies := List.forall_mem_singleton.mpr ⟨⟨_, rfl⟩, rfl⟩
  walked := rfl
  qualified := ⟨⟨0, 3, [3], []⟩, ∅, (walked mintingTip redeeming).mergesetPoolDiff, rfl, rfl,
    eq_ok_of_isSome (by decide +kernel)⟩

set_option maxRecDepth 4000 in
theorem afterRedeemTip_pool : composedPoolView (∅ : PoolCollection).lookup .empty = afterRedeemTip.ledger.pool := by
  funext sn
  have mints : (walked mintingTip redeeming).mergesetPoolDiff = createNote mintedSerial (.unlocked ⟨.d1, 7⟩) := rfl
  have redeems : (walked redeemingTip afterRedeem).mergesetPoolDiff =
      (createNote mintedSerial (.unlocked ⟨.d1, 7⟩)).reversed := rfl
  have valid : (createNote mintedSerial (.unlocked ⟨.d1, 7⟩)).ValidOver mintingTip.ledger.pool :=
    createNote_valid rfl
  change _ = composedPoolView (composedPoolView mintingTip.ledger.pool
    (walked mintingTip redeeming).mergesetPoolDiff) (walked redeemingTip afterRedeem).mergesetPoolDiff sn
  rw [mints, redeems, composedPoolView_eq (composedPoolView _ _), composedPoolView_eq _ (createNote _ _),
    PoolDiff.cell_reversed]
  exact (Cell.reverse_apply_apply (valid sn)).symm

set_option maxRecDepth 4000 in
theorem extends_last : Extends node afterRedeemTip last [] (walked afterRedeemTip last) where
  bodies := List.forall_mem_singleton.mpr ⟨⟨_, rfl⟩, rfl⟩
  walked := rfl
  qualified := ⟨⟨0, 4, [4], []⟩, ∅, .empty, rfl, afterRedeemTip_pool, eq_ok_of_isSome (by decide +kernel)⟩

/-- The history with one more block that merges nothing but the tip. -/
def record (history : ChainHistory) (tip : ChainTip Unit) (next : Block) (coinbase : Transaction) :
    ChainHistory :=
  history.next node tip next [] (walked tip next) coinbase

def redeemedHistory : ChainHistory :=
  record (record (record ⟨[genesis], [], []⟩ (genesisTip node genesis) minting earlierCoinbase)
    mintingTip redeeming (coinbase 3 [])) redeemingTip afterRedeem (coinbase 4 [100000000])

def lastHistory : ChainHistory := record redeemedHistory afterRedeemTip last (coinbase 5 [])

theorem chain_redeemed : Chain node genesis redeemedHistory afterRedeemTip :=
  .next (.next (.next .refl extends_minting rfl) extends_redeeming rfl) extends_afterRedeem rfl

theorem reaches_last : Reaches node redeemedHistory afterRedeemTip lastHistory lastTip :=
  .next .refl extends_last rfl

theorem lastHistory_distinct : lastHistory.Distinct hashers where
  free := by
    have free : NoCollisions hashers {tx | tx ∈ lastHistory.blocks.flatMap Block.transactions} :=
      noCollisions_of_nodup (by decide +kernel) (by decide +kernel)
    exact free.mono fun tx ⟨block, member, inBlock⟩ => List.mem_flatMap.mpr ⟨block, member, inBlock⟩
  coinbases := by decide +kernel

end Sample

open Sample in
set_option maxRecDepth 4000 in
/-- The redeemed note: live until it is redeemed, and never after. -/
theorem chain_serial_lives_once_redeem :
    redeemingTip.ledger.pool mintedSerial = some (.unlocked ⟨.d1, 7⟩) ∧
      lastTip.ledger.pool mintedSerial = none := by
  obtain ⟨_, _, _, _, gone⟩ := chain_serial_lives_once node genesis
    (BodyValid.wellFormed ⟨⟨_, rfl⟩, rfl⟩) redeemedHistory lastHistory
    afterRedeemTip lastTip chain_redeemed reaches_last
    lastHistory_distinct
  exact ⟨rfl, gone _ (by decide +kernel) rfl⟩

end Marigold.Consensus
