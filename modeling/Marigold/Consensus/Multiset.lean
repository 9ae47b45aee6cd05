import Marigold.Consensus.Once
import Marigold.Consensus.Reward
import Marigold.Core.TxCodes
import Marigold.Lib.Sums

/-!
# The UTXO commitment

`consensus/core/src/muhash.rs`. The walk keeps a multiset hash next to its UTXO diff. The two are built apart: the
hashes of a block's transactions are combined on their own, and the diff cancels what is created and spent on the way.
Both stand for the same set all the same.
-/

namespace Marigold.Consensus

open Lib NotePool Utxo Transaction

/-! ## Elements -/

def writeUtxo (entry : UtxoEntry) (outpoint : TransactionOutpoint) : Bytes :=
  outpoint.transactionId.asBytes ++ u32LE outpoint.index ++ u64LE entry.blockDaaScore ++ u64LE entry.amount ++
    [if entry.isCoinbase then 1 else 0] ++ u16LE entry.scriptPublicKey.version ++
    writeVarBytes entry.scriptPublicKey.script ++ entry.covenantId.elim [] Hash.asBytes

/-- MuHash as a hash of multisets of byte strings into a commutative group. -/
structure MultisetHash {M : Type} (mu : MuHashOps M) (G : Type) [AddCommGroup G] where
  value : M → G
  element : Bytes → G
  new : value mu.new = 0
  addUtxo : ∀ m outpoint entry, value (mu.addUtxo m outpoint entry) = value m + element (writeUtxo entry outpoint)
  removeUtxo : ∀ m outpoint entry, value (mu.removeUtxo m outpoint entry) = value m - element (writeUtxo entry outpoint)
  combine : ∀ a b, value (mu.combine a b) = value a + value b
  finalize : ∀ a b, value a = value b → mu.finalize a = mu.finalize b

namespace MultisetHash

variable {M G : Type} [AddCommGroup G] {mu : MuHashOps M} (hash : MultisetHash mu G)

def contribution (outpoint : TransactionOutpoint) (entry : UtxoEntry) : G := hash.element (writeUtxo entry outpoint)

/-- The multiset is the hash of the set. -/
def HashOf (view : UtxoView) (m : M) : Prop := SumsTo hash.contribution view (hash.value m)

/-- What accepting a transaction does to the hash of the set. -/
def delta (H : Hashers) (pov : UInt64) (vtx : ValidatedTransaction) : G :=
  SumsTo.ofEntries hash.contribution (createdEntries H vtx.tx pov) -
    SumsTo.ofEntries hash.contribution (spentEntries vtx.tx vtx.entries)

theorem value_addTransaction (H : Hashers) (m : M) (vtx : ValidatedTransaction) (pov : UInt64) :
    hash.value (mu.addTransaction H m vtx pov) = hash.value m + hash.delta H pov vtx := by
  have removes : ∀ (entries : List (TransactionOutpoint × UtxoEntry)) (m : M),
      hash.value (entries.foldl (fun m e => mu.removeUtxo m e.1 e.2) m) =
        hash.value m - SumsTo.ofEntries hash.contribution entries := by
    intro entries
    induction entries with
    | nil => simp [SumsTo.ofEntries]
    | cons entry rest ih =>
      intro m
      rw [List.foldl_cons, ih, hash.removeUtxo, sub_sub]
      rfl
  have adds : ∀ (entries : List (TransactionOutpoint × UtxoEntry)) (m : M),
      hash.value (entries.foldl (fun m e => mu.addUtxo m e.1 e.2) m) =
        hash.value m + SumsTo.ofEntries hash.contribution entries := by
    intro entries
    induction entries with
    | nil => simp [SumsTo.ofEntries]
    | cons entry rest ih =>
      intro m
      rw [List.foldl_cons, ih, hash.addUtxo, add_assoc]
      rfl
  rw [MuHashOps.addTransaction, adds, removes, delta, ← add_sub_assoc, add_sub_right_comm]

end MultisetHash

section Walk

variable {M G : Type} [AddCommGroup G] {V : VirtualProcessor M} (hash : MultisetHash V.muHash G) {pov : UInt64}

/-- The ways a pool of threads can combine the hashes of some transactions. -/
inductive Reduces (V : VirtualProcessor M) (pov : UInt64) : List ValidatedTransaction → M → Prop where
  | none : Reduces V pov [] V.muHash.new
  | one (vtx : ValidatedTransaction) :
      Reduces V pov [vtx] (V.muHash.addTransaction V.crypto.hashers V.muHash.new vtx pov)
  | combine {vtxs vtxs' : List ValidatedTransaction} {m m' : M} (left : Reduces V pov vtxs m)
      (right : Reduces V pov vtxs' m') : Reduces V pov (vtxs ++ vtxs') (V.muHash.combine m m')

/-- The order in which threads finish makes no difference to the value. -/
theorem Reduces.value {vtxs : List ValidatedTransaction} {m : M} (reduces : Reduces V pov vtxs m) :
    hash.value m = (vtxs.map (hash.delta V.crypto.hashers pov)).sum := by
  induction reduces with
  | none => simp [hash.new]
  | one vtx => rw [hash.value_addTransaction, hash.new]; simp
  | combine _ _ left right => rw [hash.combine, left, right, List.map_append, List.sum_append]

theorem innerMultiset_reduces (vtxs : List (ValidatedTransaction × UInt32)) :
    Reduces V pov (vtxs.map Prod.fst) (innerMultiset V vtxs pov) := by
  have folds : ∀ (vtxs : List (ValidatedTransaction × UInt32)) (done : List ValidatedTransaction) (m : M),
      Reduces V pov done m → Reduces V pov (done ++ vtxs.map Prod.fst) (vtxs.foldl (fun m vtx => V.muHash.combine m
          (V.muHash.addTransaction V.crypto.hashers V.muHash.new vtx.1 pov)) m) := by
    intro vtxs
    induction vtxs with
    | nil => intro done m reduces; simpa using reduces
    | cons vtx rest ih =>
      intro done m reduces
      have next := ih _ _ (reduces.combine (.one vtx.1))
      rwa [List.append_assoc] at next
  exact folds vtxs [] V.muHash.new .none

theorem acceptAll_sumsTo {txs : Set Transaction} {base : Ledger} (free : NoCollisions V.crypto.hashers txs)
    (vtxs : List ValidatedTransaction) {history : List Transaction} {ledger : Ledger} {diff : UtxoDiff}
    {poolDiff : PoolDiff} (state : WalkState V.crypto.hashers txs base history ledger diff poolDiff)
    (mergeable : Mergeable V txs pov ledger vtxs) {g : G} (before : SumsTo hash.contribution ledger.utxos g) :
    SumsTo hash.contribution (ledger.acceptAll V.crypto.hashers pov (vtxs.map ValidatedTransaction.tx)).utxos
      (g + (vtxs.map (hash.delta V.crypto.hashers pov)).sum) := by
  induction vtxs generalizing history ledger diff poolDiff g with
  | nil => simpa [Ledger.acceptAll] using before
  | cons vtx rest ih =>
    have accepted := mergeable.accepted vtx List.mem_cons_self
    obtain ⟨fits, diff', poolDiff', _, _, state'⟩ := state.accept free (mergeable.known vtx List.mem_cons_self)
      accepted pov (mergeable.wellFormed vtx List.mem_cons_self)
    have populated : (vtx.tx.inputs.map TransactionInput.previousOutpoint).map ledger.utxos = vtx.entries.map some := by
      rw [← accepted.entries, List.map_map]
      rfl
    obtain ⟨keys, there⟩ := zip_reads populated
    have moved := before.update fits keys there
    have later := ih state' mergeable.tail moved
    rw [List.map_cons, List.map_cons, List.sum_cons, ← add_assoc]
    exact later

/-! ## The walk's multiset -/

section Steps

variable {txs : Set Transaction} {base ledger : Ledger} {history : List Transaction} {selectedParent : Hash}
  {ctx ctx' : UtxoProcessingContext M}

theorem mergeBlock_value {block : Block} {flags : TxValidationFlags} {coinbase : List AcceptedTxEntry}
    (state : WalkState V.crypto.hashers txs base history ledger ctx.mergesetDiff ctx.mergesetPoolDiff)
    (done : mergeBlock V base.utxos base.pool pov selectedParent flags coinbase ctx block = .ok ctx') :
    hash.value ctx'.multisetHash = hash.value ctx.multisetHash +
      ((acceptedOf V.toTxContext block.transactions ledger pov flags selectedParent).map
        (hash.delta V.crypto.hashers pov)).sum := by
  obtain ⟨numbered, merged, blockFee, reward, validated, -, -, rfl⟩ := mergeBlock_eq_ok done
  rw [state.reads.composed, state.poolReads.composed] at validated
  rw [hash.combine, (innerMultiset_reduces numbered).value hash, validateTransactionsInParallel_fst validated]

/-- The multiset of the context is the hash of the ledger's set, block after block. -/
theorem mergeBlocks_hashOf (free : NoCollisions V.crypto.hashers txs) (steps : List MergeStep)
    (wellFormed : ∀ step ∈ steps, BlockWellFormed V.toBodyProcessor step.block)
    (known : ∀ step ∈ steps, ∀ tx ∈ step.block.transactions, tx ∈ txs)
    (state : WalkState V.crypto.hashers txs base history ledger ctx.mergesetDiff ctx.mergesetPoolDiff)
    (done : steps.foldlM (fun ctx step => mergeBlock V base.utxos base.pool pov selectedParent step.flags
      step.coinbase ctx step.block) ctx = .ok ctx') (before : hash.HashOf ledger.utxos ctx.multisetHash) :
    hash.HashOf (ledger.acceptAll V.crypto.hashers pov
      (traceTxs (walkTrace V.toTxContext pov selectedParent ledger steps))).utxos ctx'.multisetHash := by
  induction steps generalizing ctx history ledger with
  | nil =>
    cases done
    exact before
  | cons step rest ih =>
    rw [List.forall_mem_cons] at wellFormed known
    obtain ⟨ctx₁, first, done⟩ := Outcome.foldlM_cons_eq_ok.mp done
    obtain ⟨state₁, -, -⟩ := mergeBlock_ok state free wellFormed.1 known.1 first rfl
    have mergeable : Mergeable V txs pov ledger (acceptedOf V.toTxContext step.block.transactions ledger pov step.flags
        selectedParent) := wellFormed.1.mergeable free known.1
    have moved := acceptAll_sumsTo hash free _ state mergeable before
    rw [← mergeBlock_value hash state first] at moved
    have later := ih wellFormed.2 known.2 state₁ done moved
    simpa [walkTrace, traceTxs, acceptAll_append] using later

end Steps

section Run

variable {history : List Transaction} {base : Ledger} {selectedParent : Block} {mergeset : List Block} {m : M}
  {ctx : UtxoProcessingContext M}

theorem WalkInput.hashOf (input : WalkInput V history base selectedParent mergeset) (stored : hash.HashOf base.utxos m)
    (done : calculateUtxoState V (.new m) selectedParent mergeset base.utxos base.pool pov = .ok ctx) :
    hash.HashOf (composedUtxoView base.utxos ctx.mergesetDiff) ctx.multisetHash := by
  obtain ⟨coinbase, first, isCoinbase, wellFormed, -⟩ := input.coinbase
  have composed := (input.calculateUtxoState_ok first rfl done).1.reads.composed
  rw [calculateUtxoState_eq first] at done
  obtain ⟨ctx₁, accepted, done⟩ := Outcome.bind_eq_ok.mp done
  obtain ⟨fits, ctx₁', accepted', state, -, -⟩ := input.acceptCoinbase pov first (.new m) rfl rfl
  cases accepted.symm.trans accepted'
  -- the coinbase spends nothing and goes into the multiset as it goes into the set
  have noInputs : spentEntries coinbase [] = [] := by simp [spentEntries]
  have started : hash.HashOf (base.accept V.crypto.hashers pov coinbase).utxos ctx₁.multisetHash := by
    obtain ⟨diff, -, same⟩ := Outcome.bind_eq_ok.mp accepted
    cases same
    have spendsNone : ([] : List (TransactionOutpoint × UtxoEntry)).map Prod.fst =
        (utxoUpdate V.crypto.hashers coinbase pov).spent := by
      simp [utxoUpdate, (wellFormed.coinbase isCoinbase).1]
    have moved := stored.update fits spendsNone (by simp)
    rw [MultisetHash.HashOf, hash.value_addTransaction, MultisetHash.delta, ValidatedTransaction.coinbase, noInputs]
    exact moved
  have ended := mergeBlocks_hashOf hash input.free _ (fun step member => input.wellFormed _ (steps_mem member))
    (fun step member tx inBlock => .inr ⟨step.block, steps_mem member, inBlock⟩) state done started
  rw [composed]
  exact ended

end Run

end Walk

namespace Sample

/-- The sample node with sums of numbers for multisets. -/
def summing : VirtualProcessor Int :=
  { node with
    muHash := ⟨0, fun m outpoint entry => m + readLE (writeUtxo entry outpoint),
      fun m outpoint entry => m - readLE (writeUtxo entry outpoint), (· + ·), fun m => BitVec.ofInt 256 m⟩
    recomputeSeqCommit := fun _ _ _ => 0 }

def summingHash : MultisetHash summing.muHash Int where
  value m := m
  element bs := readLE bs
  new := rfl
  addUtxo _ _ _ := rfl
  removeUtxo _ _ _ := rfl
  combine _ _ := rfl
  finalize _ _ same := congrArg _ same

def coin : TransactionOutpoint × UtxoEntry := (⟨earlierCoinbase.id hashers, 0⟩, ⟨200000000, ⟨0, []⟩, 0, true, none⟩)

theorem summing_stored : summingHash.HashOf state.ledger.utxos (readLE (writeUtxo coin.2 coin.1) : Int) := by
  have one := SumsTo.empty.add (f := summingHash.contribution) (k := coin.1) (v := coin.2) rfl
  have view : state.ledger.utxos = Function.update (fun _ => none) coin.1 (some coin.2) := by
    funext outpoint
    rw [Function.update_apply]
    exact Map.lookup_insert_eq ..
  rw [zero_add] at one
  rw [view]
  exact one

end Sample

end Marigold.Consensus
