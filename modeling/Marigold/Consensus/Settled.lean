import Marigold.Consensus.Dag
import Marigold.Consensus.Once

/-!
# The states of chain blocks

A block is UTXO valid if the blocks of its selected chain, from the root up, all qualify, each in the
state of the one below. That defines its state, whatever order the node has looked at blocks in.

Coinbases of one selected chain differ: their payloads carry the blue score. With ids and serials
that do not collide, two states of one DAG give an outpoint with one score, or a serial, the same
entry.
-/

namespace Marigold.Consensus

open Lib NotePool Utxo

section Body

variable {M : Type} (V : VirtualProcessor M)

/-- The blue score a coinbase payload carries. -/
def payloadBlueScore (tx : Transaction) : Option UInt64 :=
  (V.coinbaseManager.deserializeCoinbasePayload tx.payload).toOption.map CoinbaseData.blueScore

variable {V}

theorem BodyValid.payloadBlueScore {block : Block} (valid : BodyValid V.toBodyProcessor block)
    {coinbase : Transaction} (first : block.transactions.head? = some coinbase) :
    payloadBlueScore V coinbase = some block.header.blueScore := by
  obtain ⟨rest, whole⟩ := List.head?_eq_some_iff.mp first
  obtain ⟨_, _, context⟩ := Outcome.bind_eq_ok.mp valid.2
  obtain ⟨_, checked, _⟩ := Outcome.bind_eq_ok.mp context
  unfold checkCoinbaseBlueScoreAndSubsidy at checked
  rw [whole] at checked
  dsimp only at checked
  split at checked
  · cases checked
  next data decoded =>
    split at checked
    · cases checked
    next same =>
      rw [Consensus.payloadBlueScore, decoded]
      exact congrArg some (not_not.mp same)

end Body

/-! ## Entries of one DAG -/

/-- Every entry is an output, or a note, of one of the transactions. -/
structure Explained (H : Hashers) (txs : Set Transaction) (ledger : Ledger) : Prop where
  utxos : ∀ outpoint entry, ledger.utxos outpoint = some entry →
    ∃ t ∈ txs, (outpoint, entry) ∈ createdEntries H t entry.blockDaaScore
  notes : ∀ sn entry, ledger.pool sn = some entry →
    ∃ t ∈ txs, (createdSerials H t).Nodup ∧ (sn, entry) ∈ (poolUpdate H t).created

section Faithful

variable {H : Hashers} {B : TransactionValidator} {txs : Set Transaction} {a b : Ledger}

/-- Covenants are not covered by the id of a version 0 transaction, which cannot have any. -/
theorem SameForId.outputs_eq {t t' : Transaction} (same : SameForId t t')
    (wellFormed : TxWellFormed B t) (wellFormed' : TxWellFormed B t') : t.outputs = t'.outputs := by
  have covenants : t.outputs.map TransactionOutput.covenant = t'.outputs.map TransactionOutput.covenant := by
    by_cases zero : t.version = 0
    · have none : ∀ {tx : Transaction}, TxWellFormed B tx → tx.version = 0 →
          tx.outputs.map TransactionOutput.covenant = List.replicate tx.outputs.length .none := by
        intro tx formed zero
        rw [List.map_eq_replicate_iff]
        exact formed.covenants zero
      have lengths := congrArg List.length same.outputs
      rw [List.length_map, List.length_map] at lengths
      rw [none wellFormed zero, none wellFormed' (same.version ▸ zero), lengths]
    · exact same.covenants zero
  apply List.ext_getElem
  · simpa using congrArg List.length same.outputs
  · intro i inside inside'
    have covered := List.getElem_of_eq same.outputs (show i < _ by simpa using inside)
    have bound := List.getElem_of_eq covenants (show i < _ by simpa using inside)
    simp only [List.getElem_map, Prod.mk.injEq] at covered bound
    cases left : t.outputs[i]
    cases right : t'.outputs[i]
    simp_all

theorem Explained.sameOutput (free : NoCollisions H txs)
    (wellFormed : ∀ t ∈ txs, TxWellFormed B t) (first : Explained H txs a)
    (second : Explained H txs b) {outpoint : TransactionOutpoint} {old new : UtxoEntry}
    (inFirst : a.utxos outpoint = some old) (inSecond : b.utxos outpoint = some new)
    (score : sameDaaScore old new) : old = new := by
  obtain ⟨t, known, created⟩ := first.utxos outpoint old inFirst
  obtain ⟨t', known', created'⟩ := second.utxos outpoint new inSecond
  have id : outpoint.transactionId = t.id H :=
    createdEntries_id (List.mem_map.mpr ⟨_, created, rfl⟩)
  have id' : outpoint.transactionId = t'.id H :=
    createdEntries_id (List.mem_map.mpr ⟨_, created', rfl⟩)
  have ids : t.id H = t'.id H := id.symm.trans id'
  have same := free.ids t known t' known' ids
  have scores : old.blockDaaScore = new.blockDaaScore := by simpa [sameDaaScore] using score
  have lists : createdEntries H t old.blockDaaScore = createdEntries H t' new.blockDaaScore := by
    have entries : outputEntry t old.blockDaaScore = outputEntry t' new.blockDaaScore := by
      funext output
      rw [outputEntry, outputEntry, scores, same.isCoinbase]
    rw [createdEntries, createdEntries, same.outputs_eq (wellFormed t known) (wellFormed t' known'), ids, entries]
  have nodup : ((createdEntries H t old.blockDaaScore).map Prod.fst).Nodup :=
    createdEntries_nodup (wellFormed t known).fewOutputs
  rw [← lists] at created'
  exact Option.some.inj ((lookup_of_mem nodup created).symm.trans (lookup_of_mem nodup created'))

theorem Explained.sameNote (free : NoCollisions H txs) (first : Explained H txs a)
    (second : Explained H txs b) {sn : Hash} {old new : PoolEntry}
    (inFirst : a.pool sn = some old) (inSecond : b.pool sn = some new) : old = new := by
  obtain ⟨t, known, nodup, created⟩ := first.notes sn old inFirst
  obtain ⟨t', known', _, created'⟩ := second.notes sn new inSecond
  have ids := free.serials t known t' known' sn (List.mem_map.mpr ⟨_, created, rfl⟩)
    (List.mem_map.mpr ⟨_, created', rfl⟩)
  have updates : poolUpdate H t = poolUpdate H t' := by
    rw [poolUpdate, poolUpdate, (free.ids t known t' known' ids).poolOp, ids]
  rw [← updates] at created'
  exact Option.some.inj ((lookup_of_mem nodup created).symm.trans (lookup_of_mem nodup created'))

/-- A history that has everything at most once explains what it leads to. -/
theorem explained_of_consistent {history : List Transaction} {ledger : Ledger}
    (consistent : Consistent H history ledger) (once : Once H history)
    (known : ∀ t ∈ history, t ∈ txs) : Explained H txs ledger where
  utxos outpoint entry live := by
    obtain ⟨t, member, created⟩ := consistent.utxos outpoint entry live
    exact ⟨t, known t member, created⟩
  notes sn entry live := by
    obtain ⟨t, member, created⟩ := consistent.notes sn entry live
    exact ⟨t, known t member, (List.nodup_flatMap.mp once.serials).1 t member, created⟩

end Faithful

/-! ## From the root up -/

/-- What the node can have accepted: the history of the root, and the transactions of its blocks. -/
def Dag.transactions (D : Dag) (start : List Transaction) : Set Transaction :=
  {tx | tx ∈ start ∨ ∃ h, D.known h = true ∧ tx ∈ (D.block h).transactions}

section Settled

variable {M : Type}

/-- A DAG of validated blocks over a root whose state is explained by the transactions accepted
before it. -/
structure Rooted (V : VirtualProcessor M) (D : Dag) (start : List Transaction) (origin : ChainTip M) : Prop where
  rootKnown : D.known D.root = true
  bodies : ∀ h, D.known h = true → h ≠ D.root → BodyValid V.toBodyProcessor (D.block h)
  scores : ∀ h, D.known h = true → (D.header h).blueScore = D.blueScore h
  merges : ∀ h, D.OnRoot h → h ≠ D.root → ∀ b ∈ D.mergeset h, D.known b = true ∧ b ≠ D.root
  free : NoCollisions V.crypto.hashers (D.transactions start)
  block : origin.block = D.block D.root
  rootBody : BlockWellFormed V.toBodyProcessor (D.block D.root)
  consistent : Consistent V.crypto.hashers start origin.ledger
  once : Once V.crypto.hashers start
  wellFormed : ∀ t ∈ start, TxWellFormed V.validator t
  earlier : ∀ t ∈ start, t.isCoinbase = true → ∃ score, payloadBlueScore V t = some score ∧ score < D.blueScore D.root
  payload : ∀ coinbase, (D.block D.root).transactions.head? = some coinbase →
    payloadBlueScore V coinbase = some (D.blueScore D.root)

/-- The block is verified in the state of its selected parent, however that one is stored. -/
def Qualifies (V : VirtualProcessor M) (D : Dag) (h : Hash) (tip : ChainTip M) (ctx : UtxoProcessingContext M) : Prop :=
  ∃ (poolState : PoolCollection) (poolDiff : PoolDiff), composedPoolView poolState.lookup poolDiff = tip.ledger.pool ∧
    verifyExpectedUtxoState V ctx (D.ghostdagData h) (D.block h) tip.ledger.utxos tip.ledger.pool
      poolState poolDiff = .ok ()

/-- The block is UTXO valid, with the transactions its chain has accepted and its state. -/
inductive Settles (V : VirtualProcessor M) (D : Dag) (start : List Transaction)
    (origin : ChainTip M) : Hash → List Transaction → ChainTip M → Prop where
  | root : Settles V D start origin D.root start origin
  | next {h : Hash} {accepted : List Transaction} {tip : ChainTip M}
      {ctx : UtxoProcessingContext M} {coinbase : Transaction}
      (parent : Settles V D start origin (D.selectedParent h) accepted tip)
      (onRoot : D.OnRoot h) (notRoot : h ≠ D.root)
      (walked : tip.walk V (D.mergesetBlocks h) (D.header h).daaScore = .ok ctx)
      (qualified : Qualifies V D h tip ctx)
      (first : tip.block.transactions.head? = some coinbase) :
      Settles V D start origin h (accepted ++ acceptedBy V tip (D.mergesetBlocks h) coinbase (D.header h).daaScore)
        ⟨D.block h, tip.ledger.compose ctx, ctx.multisetHash⟩

variable {V : VirtualProcessor M} {D : Dag} {start : List Transaction} {origin : ChainTip M}
  {h : Hash} {accepted : List Transaction} {tip : ChainTip M}

theorem Settles.unique {accepted' : List Transaction} {tip' : ChainTip M}
    (settles : Settles V D start origin h accepted tip)
    (settles' : Settles V D start origin h accepted' tip') : accepted = accepted' ∧ tip = tip' := by
  induction settles generalizing accepted' tip' with
  | root =>
    cases settles' with
    | root => exact ⟨rfl, rfl⟩
    | next _ _ notRoot => exact absurd rfl notRoot
  | next _ _ notRoot walked _ first ih =>
    cases settles' with
    | root => exact absurd rfl notRoot
    | next parent' _ _ walked' _ first' =>
      obtain ⟨rfl, rfl⟩ := ih parent'
      cases walked.symm.trans walked'
      cases first.symm.trans first'
      exact ⟨rfl, rfl⟩

theorem Settles.aboveRoot (settles : Settles V D start origin h accepted tip)
    (notRoot : h ≠ D.root) : D.AboveRoot h := by
  cases settles with
  | root => exact absurd rfl notRoot
  | next _ onRoot _ _ _ _ => exact ⟨onRoot, notRoot⟩

/-- What is known of a block's state and of the transactions accepted up to it. -/
structure SettledState (V : VirtualProcessor M) (D : Dag) (start : List Transaction) (h : Hash)
    (accepted : List Transaction) (tip : ChainTip M) : Prop where
  block : tip.block = D.block h
  onRoot : D.OnRoot h
  consistent : Consistent V.crypto.hashers accepted tip.ledger
  once : Once V.crypto.hashers accepted
  known : ∀ t ∈ accepted, t ∈ D.transactions start
  coinbases : ∀ t ∈ accepted, t.isCoinbase = true → ∃ score, payloadBlueScore V t = some score ∧ score < D.blueScore h

/-- Blocks that can be merged over a chain of the DAG. -/
def Dag.Mergeable (D : Dag) (mergeset : List Block) : Prop :=
  ∀ b ∈ mergeset, ∃ k, D.known k = true ∧ k ≠ D.root ∧ b = D.block k

section

variable (rooted : Rooted V D start origin)

include rooted

theorem Rooted.wellFormed_block {k : Hash} (known : D.known k = true) :
    BlockWellFormed V.toBodyProcessor (D.block k) := by
  by_cases isRoot : k = D.root
  · exact isRoot ▸ rooted.rootBody
  · exact (rooted.bodies k known isRoot).wellFormed

theorem Rooted.wellFormed_tx {t : Transaction} (known : t ∈ D.transactions start) : TxWellFormed V.validator t := by
  rcases known with before | ⟨k, known, inBlock⟩
  · exact rooted.wellFormed t before
  · exact (rooted.wellFormed_block known).isolated t inBlock

theorem Rooted.payloadBlueScore {k : Hash} (known : D.known k = true) {coinbase : Transaction}
    (first : (D.block k).transactions.head? = some coinbase) : payloadBlueScore V coinbase = some (D.blueScore k) := by
  by_cases isRoot : k = D.root
  · subst isRoot
    exact rooted.payload coinbase first
  · rw [(rooted.bodies k known isRoot).payloadBlueScore first]
    exact congrArg some (rooted.scores k known)

theorem Rooted.mergeable (onRoot : D.OnRoot h) (notRoot : h ≠ D.root) : D.Mergeable (D.mergesetBlocks h) := by
  intro b member
  obtain ⟨k, inMergeset, rfl⟩ := List.mem_map.mp member
  obtain ⟨known, other⟩ := rooted.merges h onRoot notRoot k inMergeset
  exact ⟨k, known, other, rfl⟩

end

namespace SettledState

variable {mergeset : List Block} {pov : UInt64} {ctx : UtxoProcessingContext M} {coinbase : Transaction}

section

variable (state : SettledState V D start h accepted tip)

include state

theorem involved_known (mergeable : D.Mergeable mergeset) {tx : Transaction}
    (member : tx ∈ involved accepted (tip.block :: mergeset)) : tx ∈ D.transactions start := by
  rcases member with inHistory | ⟨b, member, inBlock⟩
  · exact state.known tx inHistory
  · rcases List.mem_cons.mp member with rfl | inMergeset
    · exact .inr ⟨h, state.onRoot.1, state.block ▸ inBlock⟩
    · obtain ⟨k, known, _, rfl⟩ := mergeable b inMergeset
      exact .inr ⟨k, known, inBlock⟩

section

variable (rooted : Rooted V D start origin) (mergeable : D.Mergeable mergeset)

include rooted mergeable

/-- A walk over a settled block: its coinbase is new, as its payload has the highest blue score. -/
theorem walkInput : WalkInput V accepted tip.ledger tip.block mergeset where
  consistent := state.consistent
  wellFormed := by
    rw [List.forall_mem_cons, state.block]
    refine ⟨rooted.wellFormed_block state.onRoot.1, fun b member => ?_⟩
    obtain ⟨k, known, _, rfl⟩ := mergeable b member
    exact rooted.wellFormed_block known
  free := rooted.free.mono fun _ member => state.involved_known mergeable member
  coinbaseNew coinbase first t inHistory same := by
    rw [state.block] at first
    have member : coinbase ∈ D.transactions start :=
      .inr ⟨h, state.onRoot.1, List.mem_of_mem_head? first⟩
    have covered := rooted.free.ids t (state.known t inHistory) coinbase member same
    obtain ⟨coinbase', rest, whole, isCoinbase, _⟩ :=
      (rooted.wellFormed_block state.onRoot.1).coinbase
    obtain rfl : coinbase = coinbase' := by simpa [whole] using first.symm
    obtain ⟨score, read, lower⟩ :=
      state.coinbases t inHistory (covered.isCoinbase.trans isCoinbase)
    rw [Consensus.payloadBlueScore, covered.payload] at read
    have own := rooted.payloadBlueScore state.onRoot.1 first
    cases read.symm.trans own
    exact absurd lower (UInt64.lt_irrefl _)

/-- The state after a walk over a settled block, and that its diffs are the exact differences. -/
theorem walked (walked : tip.walk V mergeset pov = .ok ctx) (first : tip.block.transactions.head? = some coinbase) :
    WalkState V.crypto.hashers (involved accepted (tip.block :: mergeset)) tip.ledger
      (accepted ++ acceptedBy V tip mergeset coinbase pov) (tip.ledger.compose ctx)
      ctx.mergesetDiff ctx.mergesetPoolDiff := by
  have input := state.walkInput rooted mergeable
  obtain ⟨result, _, _⟩ := input.calculateUtxoState_ok first rfl walked
  have composed : tip.ledger.compose ctx = (WalkInput.result V pov tip.ledger tip.block mergeset coinbase).1 := by
    rw [Ledger.compose, result.reads.composed, result.poolReads.composed]
    rfl
  rw [composed]
  exact result

theorem once_walked (first : tip.block.transactions.head? = some coinbase) (pov : UInt64) :
    Once V.crypto.hashers (accepted ++ acceptedBy V tip mergeset coinbase pov) := by
  have input := state.walkInput rooted mergeable
  obtain ⟨coinbase', first', isCoinbase, _⟩ := input.coinbase
  cases first.symm.trans first'
  exact input.result_keeps first rfl (once_kept input.free)
    (state.once.accept_noOp (WalkInput.poolOp_of_coinbase isCoinbase))

end

theorem explained : Explained V.crypto.hashers (D.transactions start) tip.ledger :=
  explained_of_consistent state.consistent state.once state.known

theorem explained_walked (rooted : Rooted V D start origin) (mergeable : D.Mergeable mergeset)
    (walked : tip.walk V mergeset pov = .ok ctx) :
    Explained V.crypto.hashers (D.transactions start) (tip.ledger.compose ctx) := by
  obtain ⟨coinbase, first, _⟩ := (state.walkInput rooted mergeable).coinbase
  have result := state.walked rooted mergeable walked first
  exact explained_of_consistent result.consistent (state.once_walked rooted mergeable first pov)
    fun t member => state.involved_known mergeable (result.known t member)

end

end SettledState

theorem Dag.OnRoot.blueScore_lt (onRoot : D.OnRoot h) (notRoot : h ≠ D.root) :
    D.blueScore (D.selectedParent h) < D.blueScore h := by
  rcases onRoot.cases with isRoot | ⟨_, _, parent⟩
  · exact absurd isRoot notRoot
  · exact D.rises h notRoot onRoot.1 parent.1

theorem Settles.state (settles : Settles V D start origin h accepted tip)
    (rooted : Rooted V D start origin) : SettledState V D start h accepted tip := by
  induction settles with
  | root =>
    refine ⟨rooted.block, ⟨rooted.rootKnown, ?_⟩, rooted.consistent, rooted.once,
      fun t before => .inl before, rooted.earlier⟩
    simp [Dag.backwardChain_root]
  | @next h accepted tip ctx coinbase parent onRoot notRoot walked qualified first ih =>
    have mergeable := rooted.mergeable onRoot notRoot
    have input := ih.walkInput rooted mergeable
    have result := ih.walked rooted mergeable walked first
    have higher := onRoot.blueScore_lt notRoot
    refine ⟨rfl, onRoot, result.consistent, ih.once_walked rooted mergeable first _, fun t member => ?_, ?_⟩
    · exact ih.involved_known mergeable (result.known t member)
    · -- The coinbases accepted before, that of the selected parent, and nothing else.
      intro t member tIsCoinbase
      rcases List.mem_append.mp member with before | here
      · obtain ⟨score, read, lower⟩ := ih.coinbases t before tIsCoinbase
        exact ⟨score, read, UInt64.lt_trans lower higher⟩
      · rcases List.mem_cons.mp here with rfl | inTrace
        · exact ⟨_, rooted.payloadBlueScore ih.onRoot.1 (ih.block ▸ first), higher⟩
        · have ordinary := isCoinbase_of_trace input.wellFormed inTrace
          exact nomatch tIsCoinbase.symm.trans ordinary

end Settled

theorem WalkState.differences {H : Hashers} {txs : Set Transaction} {base ledger : Ledger}
    {history : List Transaction} {diff : UtxoDiff} {poolDiff : PoolDiff}
    (state : WalkState H txs base history ledger diff poolDiff) :
    IsDifference diff.cell base.utxos ledger.utxos ∧ IsDifference poolDiff.cell base.pool ledger.pool :=
  ⟨.of_represents state.reads state.adds, .of_represents state.poolReads state.poolAdds⟩

end Marigold.Consensus
