import Marigold.Consensus.Spend
import Marigold.Script.Covenants
import Marigold.Utxo.Algebra

/-!
# Covenant lineage

An output that carries a covenant id was authorized by an input that carries it too, or by the one outpoint that the
id commits to. Along a chain every such output therefore goes back, through inputs with the same id, to the outputs
of one transaction.
-/

namespace Marigold.Consensus

open Lib NotePool Utxo Script Outcome

/-! ## Accepted transactions -/

section Lawful

variable (H : Hashers) (HC : Bytes → Hash)

/-- The id is the one of the outputs bound to this input and id. -/
def Issues (g : ValidatedTransaction) (binding : CovenantBinding) : Prop :=
  ∃ input, g.tx.inputs[binding.authorizingInput.toNat]? = some input ∧
    covenantId HC input.previousOutpoint (covenantGroup g.tx binding) = binding.covenantId

/-- Back to an output of `g` through inputs that carry the id. -/
inductive Descends (records : List ValidatedTransaction) (c : Hash) (g : ValidatedTransaction) :
    TransactionOutpoint → Prop where
  | issued {i : Nat} {output : TransactionOutput} {a : UInt16} (at_ : g.tx.outputs[i]? = some output)
      (bound : output.covenant = some ⟨a, c⟩) : Descends records c g ⟨g.tx.id H, UInt32.ofNat i⟩
  | next {vtx : ValidatedTransaction} {i : Nat} {output : TransactionOutput} {a : UInt16} {input : TransactionInput}
      {entry : UtxoEntry} (member : vtx ∈ records) (at_ : vtx.tx.outputs[i]? = some output)
      (bound : output.covenant = some ⟨a, c⟩) (authorizing : vtx.tx.inputs[a.toNat]? = some input)
      (spent : vtx.entries[a.toNat]? = some entry) (carries : entry.covenantId = some c)
      (before : Descends records c g input.previousOutpoint) : Descends records c g ⟨vtx.tx.id H, UInt32.ofNat i⟩

/-- Every output with an id is authorized, and every entry spent with an id was issued before. -/
inductive Lawful : List ValidatedTransaction → Prop where
  | nil : Lawful []
  | snoc {records : List ValidatedTransaction} {vtx : ValidatedTransaction} (before : Lawful records)
      (authorized : ∀ output ∈ vtx.tx.outputs, ∀ binding, output.covenant = some binding →
        Authorized HC vtx.tx vtx.entries binding)
      (issued : ∀ entry ∈ vtx.entries, ∀ c, entry.covenantId = some c → ∃ g ∈ records, ∃ a, Issues HC g ⟨a, c⟩) :
      Lawful (records ++ [vtx])

/-- Where an entry comes from. -/
structure Explains (records : List ValidatedTransaction) (outpoint : TransactionOutpoint) (entry : UtxoEntry) :
    Prop where
  origin : ∃ vtx ∈ records, (outpoint, entry) ∈ createdEntries H vtx.tx entry.blockDaaScore ∧
    (vtx.tx.version = 0 ∨ vtx.tx.isCoinbase = true → entry.covenantId = none)
  lineage : ∀ c, entry.covenantId = some c → ∃ g ∈ records, ∃ a, Issues HC g ⟨a, c⟩ ∧ Descends H records c g outpoint

end Lawful

section Accept

variable {H : Hashers} {HC : Bytes → Hash} {records records' : List ValidatedTransaction} {c : Hash}
  {g vtx : ValidatedTransaction} {outpoint : TransactionOutpoint} {entry : UtxoEntry}

theorem Descends.mono (descends : Descends H records c g outpoint) (subset : records ⊆ records') :
    Descends H records' c g outpoint := by
  induction descends with
  | issued at_ bound => exact .issued at_ bound
  | next member at_ bound authorizing spent carries _ ih =>
    exact .next (subset member) at_ bound authorizing spent carries ih

theorem Explains.mono (explains : Explains H HC records outpoint entry) (subset : records ⊆ records') :
    Explains H HC records' outpoint entry := by
  obtain ⟨⟨vtx, member, created⟩, lineage⟩ := explains
  refine ⟨⟨vtx, subset member, created⟩, fun c carries => ?_⟩
  obtain ⟨g, inside, a, issues, descends⟩ := lineage c carries
  exact ⟨g, subset inside, a, issues, descends.mono subset⟩

/-- An accepted transaction: what it spends is explained, and its outputs with an id are authorized. -/
structure Acceptable (H : Hashers) (HC : Bytes → Hash) (view : UtxoView) (vtx : ValidatedTransaction) : Prop where
  reads : vtx.tx.inputs.map (fun input => view input.previousOutpoint) = vtx.entries.map some
  authorized : ∀ output ∈ vtx.tx.outputs, ∀ binding, output.covenant = some binding →
    Authorized HC vtx.tx vtx.entries binding
  bare : vtx.tx.version = 0 ∨ vtx.tx.isCoinbase = true → ∀ output ∈ vtx.tx.outputs, output.covenant = none

variable {view : UtxoView} (acceptable : Acceptable H HC view vtx)

include acceptable

theorem Acceptable.read {i : Nat} (there : vtx.entries[i]? = some entry) :
    ∃ input, vtx.tx.inputs[i]? = some input ∧ view input.previousOutpoint = some entry := by
  have reads := congrArg (fun list => list[i]?) acceptable.reads
  simp only [List.getElem?_map, there, Option.map_some] at reads
  exact Option.map_eq_some_iff.mp reads

theorem Acceptable.lawful (lawful : Lawful HC records)
    (explained : ∀ o e, view o = some e → Explains H HC records o e) : Lawful HC (records ++ [vtx]) := by
  refine .snoc lawful acceptable.authorized fun entry member c carries => ?_
  obtain ⟨i, inside, rfl⟩ := List.mem_iff_getElem.mp member
  obtain ⟨input, -, live⟩ := acceptable.read (List.getElem?_eq_getElem inside)
  obtain ⟨g, inside, a, issues, -⟩ := (explained _ _ live).lineage c carries
  exact ⟨g, inside, a, issues⟩

theorem Acceptable.explains (explained : ∀ o e, view o = some e → Explains H HC records o e)
    {pov : UInt64} (created : (outpoint, entry) ∈ createdEntries H vtx.tx pov) :
    Explains H HC (records ++ [vtx]) outpoint entry := by
  have last : vtx ∈ records ++ [vtx] := List.mem_append_right _ (List.mem_singleton.mpr rfl)
  have score := createdEntries_score created
  obtain ⟨i, inside, same⟩ := List.mem_mapIdx.mp created
  cases same
  have at_ := List.getElem?_eq_getElem inside
  have member := List.getElem_mem inside
  refine ⟨⟨vtx, last, score.symm ▸ created, fun bare => ?_⟩, fun c carries => ?_⟩
  · simp [outputEntry, acceptable.bare bare _ member]
  · obtain ⟨⟨a, c'⟩, bound, rfl⟩ := Option.map_eq_some_iff.mp carries
    obtain ⟨spent, there, carried | issues⟩ := (acceptable.authorized _ member _ bound).entry
    · obtain ⟨input, authorizing, live⟩ := acceptable.read there
      obtain ⟨g, inHistory, a', issues, descends⟩ := (explained _ _ live).lineage c' carried
      exact ⟨g, List.mem_append_left _ inHistory, a', issues, .next last at_ bound authorizing there carried
        (descends.mono (List.subset_append_left _ _))⟩
    · exact ⟨vtx, last, a, issues, .issued at_ bound⟩

end Accept

/-! ## One issuing transaction -/

/-- The outputs that carry an id, with their indices. -/
def covenantOutputs (tx : Transaction) (c : Hash) : List (UInt32 × TransactionOutput) :=
  (tx.outputs.zipIdx.filter fun item => item.1.covenant.map CovenantBinding.covenantId = some c).map fun item =>
    (UInt32.ofNat item.2, item.1)

/-- The outpoints that transactions spend. -/
def spentBy (records : List ValidatedTransaction) : List TransactionOutpoint :=
  records.flatMap fun vtx => vtx.tx.inputs.map TransactionInput.previousOutpoint

/-- The ids of the groups of some transactions do not collide. -/
def IdsInjective (HC : Bytes → Hash) (records : List ValidatedTransaction) : Prop :=
  ∀ g ∈ records, ∀ g' ∈ records, ∀ input ∈ g.tx.inputs, ∀ input' ∈ g'.tx.inputs, ∀ binding binding',
    covenantId HC input.previousOutpoint (covenantGroup g.tx binding) =
      covenantId HC input'.previousOutpoint (covenantGroup g'.tx binding') →
    covenantIdBytes input.previousOutpoint (covenantGroup g.tx binding) =
      covenantIdBytes input'.previousOutpoint (covenantGroup g'.tx binding')

/-- The transaction that an id comes from: its input spends the outpoint in the id, and the outputs in the id are all
its outputs that carry it. -/
structure IssuedBy (HC : Bytes → Hash) (c : Hash) (g : ValidatedTransaction) (a : UInt16) : Prop where
  commits : ∃ input, g.tx.inputs[a.toNat]? = some input ∧
    covenantId HC input.previousOutpoint (covenantOutputs g.tx c) = c
  authorizes : ∀ output ∈ g.tx.outputs, ∀ binding, output.covenant = some binding → binding.covenantId = c →
    binding.authorizingInput = a
  fresh : ∀ entry ∈ g.entries, entry.covenantId ≠ some c

section Issue

variable {HC : Bytes → Hash} {records : List ValidatedTransaction} {c : Hash} {g g' : ValidatedTransaction}
  {a a' : UInt16}

theorem covenantGroup_eq (authorizes : ∀ output ∈ g.tx.outputs, ∀ binding, output.covenant = some binding →
    binding.covenantId = c → binding.authorizingInput = a) : covenantGroup g.tx ⟨a, c⟩ = covenantOutputs g.tx c := by
  rw [covenantGroup, covenantOutputs, boundTo]
  congr 1
  refine List.filter_congr fun item numbered => ?_
  have inside : item.1 ∈ g.tx.outputs := List.fst_mem_of_mem_zipIdx numbered
  rw [decide_eq_decide]
  constructor
  · intro bound
    simp [bound]
  · intro carries
    obtain ⟨⟨a', c'⟩, bound, rfl⟩ := Option.map_eq_some_iff.mp carries
    obtain rfl : a' = a := authorizes item.1 inside ⟨a', c'⟩ bound rfl
    exact bound

theorem IssuedBy.issues (issued : IssuedBy HC c g a) : Issues HC g ⟨a, c⟩ := by
  obtain ⟨input, at_, id⟩ := issued.commits
  exact ⟨input, at_, (covenantGroup_eq issued.authorizes).symm ▸ id⟩

variable (injective : IdsInjective HC records) (once : (spentBy records).Nodup) (member : g ∈ records)
  (issues : Issues HC g ⟨a, c⟩)

include injective once member issues

theorem Issues.unique (member' : g' ∈ records) (issues' : Issues HC g' ⟨a', c⟩) : g = g' ∧ a = a' := by
  obtain ⟨input, at_, id⟩ := issues
  obtain ⟨input', at', id'⟩ := issues'
  have inside := List.mem_of_getElem? at_
  have inside' := List.mem_of_getElem? at'
  have outpoint := outpoint_eq_of_covenantIdBytes
    (injective g member g' member' input inside input' inside' _ _ (id.trans id'.symm))
  obtain ⟨each, apart⟩ := List.nodup_flatMap.mp once
  have same : g = g' := by
    by_contra differ
    have symm : Std.Symm (Function.onFun List.Disjoint
        fun vtx : ValidatedTransaction => vtx.tx.inputs.map TransactionInput.previousOutpoint) :=
      ⟨fun _ _ apart _ inB inA => apart inA inB⟩
    exact apart.forall member member' differ (List.mem_map_of_mem inside) (outpoint ▸ List.mem_map_of_mem inside')
  subst same
  refine ⟨rfl, UInt16.toNat_inj.mp ?_⟩
  have nodup := each g member
  obtain ⟨bound, rfl⟩ := List.getElem?_eq_some_iff.mp at_
  obtain ⟨bound', rfl⟩ := List.getElem?_eq_some_iff.mp at'
  have same : (g.tx.inputs.map TransactionInput.previousOutpoint)[a.toNat]? =
      (g.tx.inputs.map TransactionInput.previousOutpoint)[a'.toNat]? := by
    simp [bound, bound', outpoint]
  exact (List.getElem?_inj (by simpa using bound) nodup).mp same

theorem Lawful.fresh (lawful : Lawful HC records) {entry : UtxoEntry} (spent : entry ∈ g.entries) :
    entry.covenantId ≠ some c := by
  induction lawful with
  | nil => cases member
  | @snoc records vtx _ _ issued ih =>
    intro carries
    rcases List.mem_append.mp member with before | last
    · refine ih (fun g inside g' inside' => ?_) ?_ before carries
      · exact injective g (List.mem_append_left _ inside) g' (List.mem_append_left _ inside')
      · rw [spentBy, List.flatMap_append] at once
        exact once.of_append_left
    · obtain rfl := List.mem_singleton.mp last
      -- the id was issued before, so its outpoint would be spent a second time
      obtain ⟨g', before, a', issues'⟩ := issued entry spent c carries
      have again := (Issues.unique injective once (List.mem_append_left _ before) issues' member issues).1
      obtain ⟨input, at_, -⟩ := issues
      rw [spentBy, List.flatMap_append] at once
      have inside : input.previousOutpoint ∈ g.tx.inputs.map TransactionInput.previousOutpoint :=
        List.mem_map_of_mem (List.mem_of_getElem? at_)
      exact List.disjoint_of_nodup_append once (List.mem_flatMap.mpr ⟨g', before, again ▸ inside⟩)
        (List.mem_flatMap.mpr ⟨g, List.mem_singleton.mpr rfl, inside⟩)

theorem Lawful.authorizes (lawful : Lawful HC records) {output : TransactionOutput}
    (inside : output ∈ g.tx.outputs) {binding : CovenantBinding}
    (bound : output.covenant = some binding) (same : binding.covenantId = c) : binding.authorizingInput = a := by
  have authorized : Authorized HC g.tx g.entries binding := by
    clear injective once
    induction lawful with
    | nil => cases member
    | snoc _ authorized _ ih =>
      rcases List.mem_append.mp member with before | last
      · exact ih before
      · obtain rfl := List.mem_singleton.mp last
        exact authorized output inside binding bound
  obtain ⟨entry, there, carried | issued⟩ := authorized.entry
  · exact absurd (same ▸ carried) (lawful.fresh injective once member issues (List.mem_of_getElem? there))
  · obtain ⟨a', c'⟩ := binding
    obtain rfl : c' = c := same
    exact (Issues.unique injective once member issued member issues).2

theorem Lawful.issuedBy (lawful : Lawful HC records) : IssuedBy HC c g a := by
  have authorizes : ∀ output ∈ g.tx.outputs, ∀ binding, output.covenant = some binding →
      binding.covenantId = c → binding.authorizingInput = a := fun output inside binding bound same =>
    lawful.authorizes injective once member issues inside bound same
  obtain ⟨input, at_, id⟩ := issues
  exact ⟨⟨input, at_, covenantGroup_eq authorizes ▸ id⟩, authorizes, fun entry spent =>
    lawful.fresh injective once member ⟨input, at_, id⟩ spent⟩

end Issue

/-! ## The transactions of a chain -/

section Records

variable {M : Type} (V : VirtualProcessor M)

/-- What the loop over the mergeset accepts. -/
def mergedTxs (utxoView : UtxoView) (poolView : PoolView) (pov : UInt64) (selectedParent : Hash) :
    UtxoProcessingContext M → List MergeStep → List ValidatedTransaction
  | _, [] => []
  | ctx, step :: rest =>
    match (validateTransactionsInParallel V.toTxContext step.block.transactions
        (composedUtxoView utxoView ctx.mergesetDiff) (composedPoolView poolView ctx.mergesetPoolDiff) pov step.flags
        selectedParent : Outcome Empty _),
      mergeBlock V utxoView poolView pov selectedParent step.flags step.coinbase ctx step.block with
    | .ok vtxs, .ok ctx' => vtxs.map Prod.fst ++ mergedTxs utxoView poolView pov selectedParent ctx' rest
    | _, _ => []

/-- What the walk of a block over a tip accepts: the coinbase of the tip first. -/
def walkRecords (tip : ChainTip M) (mergeset : List Block) (coinbase : Transaction) (pov : UInt64) :
    List ValidatedTransaction :=
  match acceptCoinbase V pov (.new tip.multiset) coinbase with
  | .ok ctx => .coinbase coinbase :: mergedTxs V tip.ledger.utxos tip.ledger.pool pov tip.block.header.hash ctx
      (mergeSteps V.crypto.hashers tip.block coinbase mergeset)
  | .error _ => []

/-- The coinbase of a block, and the one that `verify_coinbase_transaction` compares it with. -/
def comparedCoinbase (ctx : UtxoProcessingContext M) (ghostdagData : GhostdagData) (block : Block) :
    Option (Transaction × Transaction) := do
  let coinbase ← block.transactions.head?
  let data ← (V.coinbaseManager.deserializeCoinbasePayload coinbase.payload).toOption
  let expected ← (V.coinbaseManager.expectedCoinbaseTransaction block.header.daaScore data.minerData ghostdagData
    ctx.mergesetRewards (V.mergesetNonDaa block.header.hash)).toOption
  return (coinbase, expected)

/-- A chain from genesis, with the transactions it accepted and the coinbases it compared. -/
inductive Recorded (genesis : Block) :
    List ValidatedTransaction → List (Transaction × Transaction) → ChainTip M → Prop where
  | genesis : Recorded genesis [] [] (genesisTip V genesis)
  | next {records : List ValidatedTransaction} {compared : List (Transaction × Transaction)} {tip : ChainTip M}
      {block : Block} {mergeset : List Block} {ctx : UtxoProcessingContext M} {coinbase : Transaction}
      {ghostdagData : GhostdagData} {poolState : PoolCollection} {poolDiff : PoolDiff}
      (run : Recorded genesis records compared tip)
      (bodies : ∀ b ∈ block :: mergeset, BodyValid V.toBodyProcessor b)
      (walked : tip.walk V mergeset block.header.daaScore = .ok ctx)
      (qualified : verifyExpectedUtxoState V ctx ghostdagData block tip.ledger.utxos tip.ledger.pool poolState
        poolDiff = .ok ())
      (first : tip.block.transactions.head? = some coinbase) :
      Recorded genesis (records ++ walkRecords V tip mergeset coinbase block.header.daaScore)
        (compared ++ (comparedCoinbase V ctx ghostdagData block).toList)
        ⟨block, tip.ledger.compose ctx, ctx.multisetHash⟩

end Records

section Walks

variable {M : Type} {V : VirtualProcessor M} {HC : Bytes → Hash} {records : List ValidatedTransaction}
  {base : UtxoView} {poolView : PoolView} {pov : UInt64} {selectedParent : Hash} {diff : UtxoDiff}
  {vtx : ValidatedTransaction} {block : Block} {flags : TxValidationFlags} {ctx ctx' : UtxoProcessingContext M}

/-- The records explain the state and everything the diff adds to it. -/
structure Tracks (V : VirtualProcessor M) (HC : Bytes → Hash) (records : List ValidatedTransaction) (base : UtxoView)
    (diff : UtxoDiff) : Prop where
  lawful : Lawful HC records
  base : ∀ o e, base o = some e → Explains V.crypto.hashers HC records o e
  added : ∀ o e, (diff.cell o).add = some e → Explains V.crypto.hashers HC records o e

theorem Tracks.view (tracks : Tracks V HC records base diff) {o : TransactionOutpoint} {e : UtxoEntry}
    (live : composedUtxoView base diff o = some e) : Explains V.crypto.hashers HC records o e := by
  rcases UtxoDiff.composed_cases live with added | kept
  · exact tracks.added o e added
  · exact tracks.base o e kept

theorem Tracks.accept {diff' : UtxoDiff} {view : UtxoView} {entries : List UtxoEntry}
    (tracks : Tracks V HC records base diff) (acceptable : Acceptable V.crypto.hashers HC view vtx)
    (explained : ∀ o e, view o = some e → Explains V.crypto.hashers HC records o e)
    (done : diff.addTransaction V.crypto.hashers vtx.tx entries pov = .ok diff') :
    Tracks V HC (records ++ [vtx]) base diff' where
  lawful := acceptable.lawful tracks.lawful explained
  base o e live := (tracks.base o e live).mono (List.subset_append_left _ _)
  added o e there := by
    rcases UtxoDiff.addTransaction_added done there with old | created
    · exact (tracks.added o e old).mono (List.subset_append_left _ _)
    · exact acceptable.explains explained created

theorem mergeTransactions_tracks {view : UtxoView} (vtxs : List (ValidatedTransaction × UInt32))
    {acc acc' : UtxoProcessingContext M × UInt64} (acceptable : ∀ vtx ∈ vtxs, Acceptable V.crypto.hashers HC view vtx.1)
    (explained : ∀ o e, view o = some e → Explains V.crypto.hashers HC records o e)
    (tracks : Tracks V HC records base acc.1.mergesetDiff)
    (done : vtxs.foldlM (mergeTransaction V pov) acc = .ok acc') :
    Tracks V HC (records ++ vtxs.map Prod.fst) base acc'.1.mergesetDiff := by
  induction vtxs generalizing acc records with
  | nil =>
    cases done
    simpa using tracks
  | cons vtx rest ih =>
    rw [List.forall_mem_cons] at acceptable
    obtain ⟨acc₁, first, done⟩ := foldlM_cons_eq_ok.mp done
    obtain ⟨diff, poolDiff, added, -, -, same⟩ := mergeTransaction_eq_ok.mp first
    have next : Tracks V HC (records ++ [vtx.1]) base acc₁.1.mergesetDiff := by
      rw [same]
      exact tracks.accept acceptable.1 explained added
    have later := ih acceptable.2 (fun o e live => (explained o e live).mono (List.subset_append_left _ _)) next done
    rwa [List.append_assoc] at later

/-- `from_tx` is the check of covenants that the validator makes. -/
def ChecksCovenants (V : VirtualProcessor M) (HC : Bytes → Hash) : Prop :=
  ∀ tx entries, V.validator.covenantsValid tx entries = (CovenantsContext.fromTx HC tx entries).toOption.isSome

theorem acceptable_of_validated (checks : ChecksCovenants V HC) (wellFormed : BlockWellFormed V.toBodyProcessor block)
    {ledger : Ledger} (member : vtx ∈ acceptedOf V.toTxContext block.transactions ledger pov flags selectedParent) :
    Acceptable V.crypto.hashers HC ledger.utxos vtx := by
  obtain ⟨inBlock, valid⟩ := acceptedIn_of_mem member
  obtain ⟨-, populated, -, rest⟩ := validateTransactionInUtxoContext_eq_ok.mp valid
  obtain ⟨cb, others, whole, -, plain, -⟩ := wellFormed.coinbase
  have inside : vtx.tx ∈ block.transactions := List.mem_of_mem_drop inBlock
  refine ⟨populate_eq_some_iff.mp populated, fun output inOutputs binding bound => ?_, fun bare => ?_⟩
  · have passed := (checks vtx.tx vtx.entries).symm.trans rest.covenants
    cases result : CovenantsContext.fromTx HC vtx.tx vtx.entries with
    | error e =>
      rw [result] at passed
      cases passed
    | ok ctx => exact fromTx_authorized result inOutputs bound
  · rcases bare with zero | coinbase
    · exact (wellFormed.isolated _ inside).covenants zero
    · rw [whole] at inBlock
      exact absurd coinbase (Bool.eq_false_iff.mp (plain _ inBlock))

theorem mergeBlock_tracks (checks : ChecksCovenants V HC) (wellFormed : BlockWellFormed V.toBodyProcessor block)
    {coinbase : List AcceptedTxEntry} (tracks : Tracks V HC records base ctx.mergesetDiff)
    (done : mergeBlock V base poolView pov selectedParent flags coinbase ctx block = .ok ctx') :
    ∃ vtxs, validateTransactionsInParallel V.toTxContext block.transactions (composedUtxoView base ctx.mergesetDiff)
        (composedPoolView poolView ctx.mergesetPoolDiff) pov flags selectedParent = (.ok vtxs : Outcome Empty _) ∧
      Tracks V HC (records ++ vtxs.map Prod.fst) base ctx'.mergesetDiff := by
  obtain ⟨vtxs, merged, blockFee, reward, validated, looped, -, rfl⟩ := mergeBlock_eq_ok done
  have same : vtxs.map Prod.fst = acceptedOf V.toTxContext block.transactions
      ⟨composedUtxoView base ctx.mergesetDiff, composedPoolView poolView ctx.mergesetPoolDiff⟩ pov flags
      selectedParent := validateTransactionsInParallel_fst validated
  refine ⟨vtxs, validated, mergeTransactions_tracks vtxs (fun vtx member => ?_) (fun o e live => tracks.view live)
    tracks looped⟩
  have inside := List.mem_map_of_mem (f := Prod.fst) member
  rw [same] at inside
  exact acceptable_of_validated checks wellFormed inside

theorem mergeBlocks_tracks (checks : ChecksCovenants V HC) (steps : List MergeStep)
    (wellFormed : ∀ step ∈ steps, BlockWellFormed V.toBodyProcessor step.block)
    (tracks : Tracks V HC records base ctx.mergesetDiff)
    (done : steps.foldlM (fun ctx step => mergeBlock V base poolView pov selectedParent step.flags step.coinbase ctx
      step.block) ctx = .ok ctx') :
    Tracks V HC (records ++ mergedTxs V base poolView pov selectedParent ctx steps) base ctx'.mergesetDiff := by
  induction steps generalizing ctx records with
  | nil =>
    cases done
    simpa [mergedTxs] using tracks
  | cons step rest ih =>
    rw [List.forall_mem_cons] at wellFormed
    obtain ⟨ctx₁, first, done⟩ := foldlM_cons_eq_ok.mp done
    obtain ⟨vtxs, validated, next⟩ := mergeBlock_tracks checks wellFormed.1 tracks first
    have later := ih wellFormed.2 next done
    rw [mergedTxs, validated, first]
    rwa [List.append_assoc] at later

end Walks

/-! ## Along the chain -/

section Chain

variable {M : Type} {V : VirtualProcessor M} {HC : Bytes → Hash} {records : List ValidatedTransaction}
  {compared : List (Transaction × Transaction)} {genesis : Block} {tip : ChainTip M}
  {rewards : Map Hash BlockRewardData} {nonDaa : List Hash} {ghostdagData : GhostdagData}
  {ctx : UtxoProcessingContext M}

/-- No output of the block's coinbase has a covenant. -/
def BareCoinbase (block : Block) : Prop :=
  ∀ coinbase, block.transactions.head? = some coinbase → ∀ output ∈ coinbase.outputs, output.covenant = none

private theorem blueOutputs_bare {blues : List Hash} {outputs : List TransactionOutput}
    (done : CoinbaseManager.blueOutputs rewards nonDaa blues = .ok outputs) :
    ∀ output ∈ outputs, output.covenant = none := by
  induction blues generalizing outputs with
  | nil =>
    cases done
    simp
  | cons blue rest ih =>
    rw [CoinbaseManager.blueOutputs] at done
    split at done
    · exact ih done
    · obtain ⟨reward, -, done⟩ := bind_eq_ok.mp done
      obtain ⟨earned, -, done⟩ := bind_eq_ok.mp done
      obtain ⟨others, later, done⟩ := bind_eq_ok.mp done
      cases done
      split
      · exact List.forall_mem_cons.mpr ⟨rfl, ih later⟩
      · exact ih later

theorem expectedCoinbaseTransaction_bare {manager : CoinbaseManager} {daaScore : UInt64} {minerData : MinerData}
    {tx : Transaction}
    (done : manager.expectedCoinbaseTransaction daaScore minerData ghostdagData rewards nonDaa = .ok tx) :
    ∀ output ∈ tx.outputs, output.covenant = none := by
  rw [CoinbaseManager.expectedCoinbaseTransaction] at done
  obtain ⟨blues, blueDone, done⟩ := bind_eq_ok.mp done
  obtain ⟨red, -, done⟩ := bind_eq_ok.mp done
  obtain ⟨payload, -, done⟩ := bind_eq_ok.mp done
  cases done
  intro output member
  rcases List.mem_append.mp member with blue | fromReds
  · exact blueOutputs_bare blueDone output blue
  · split at fromReds
    · obtain rfl := List.mem_singleton.mp fromReds
      rfl
    · cases fromReds

theorem verifyExpectedUtxoState_compared {block : Block} {utxoView : UtxoView} {poolView : PoolView}
    {poolState : PoolCollection} {poolDiff : PoolDiff}
    (qualified : verifyExpectedUtxoState V ctx ghostdagData block utxoView poolView poolState poolDiff = .ok ()) :
    ∃ coinbase expected, block.transactions.head? = some coinbase ∧
      comparedCoinbase V ctx ghostdagData block = some (coinbase, expected) ∧
      V.txHash coinbase = V.txHash expected ∧ ∀ output ∈ expected.outputs, output.covenant = none := by
  rw [verifyExpectedUtxoState] at qualified
  obtain ⟨_, -, qualified⟩ := bind_eq_ok.mp qualified
  obtain ⟨_, -, qualified⟩ := bind_eq_ok.mp qualified
  obtain ⟨_, -, qualified⟩ := bind_eq_ok.mp qualified
  obtain ⟨coinbase, first, qualified⟩ := bind_eq_ok.mp qualified
  obtain ⟨_, verified, -⟩ := bind_eq_ok.mp qualified
  have first := expect_eq_ok.mp first
  rw [verifyCoinbaseTransaction] at verified
  obtain ⟨data, payload, verified⟩ := bind_eq_ok.mp verified
  obtain ⟨expected, made, verified⟩ := bind_eq_ok.mp verified
  have payload := unwrap_eq_ok.mp payload
  have made := unwrapRule_eq_ok.mp made
  refine ⟨coinbase, expected, first, ?_, ?_, expectedCoinbaseTransaction_bare made⟩
  · simp [comparedCoinbase, first, payload, made, Except.toOption]
  · by_contra differ
    rw [if_pos differ] at verified
    cases verified

/-- The chain's own coinbases have the covenants of those with the same hash that they were compared with. -/
def CoinbasesInjective (V : VirtualProcessor M) (compared : List (Transaction × Transaction)) : Prop :=
  ∀ pair ∈ compared, V.txHash pair.1 = V.txHash pair.2 →
    pair.1.outputs.map TransactionOutput.covenant = pair.2.outputs.map TransactionOutput.covenant

/-- What a chain keeps. -/
structure LineageState (V : VirtualProcessor M) (HC : Bytes → Hash) (records : List ValidatedTransaction)
    (tip : ChainTip M) : Prop where
  lawful : Lawful HC records
  explained : ∀ o e, tip.ledger.utxos o = some e → Explains V.crypto.hashers HC records o e
  wellFormed : BlockWellFormed V.toBodyProcessor tip.block
  bare : BareCoinbase tip.block

theorem LineageState.walk (state : LineageState V HC records tip) (checks : ChecksCovenants V HC)
    {mergeset : List Block} (bodies : ∀ b ∈ mergeset, BodyValid V.toBodyProcessor b) {pov : UInt64}
    (walked : tip.walk V mergeset pov = .ok ctx) {coinbase : Transaction}
    (first : tip.block.transactions.head? = some coinbase) :
    Tracks V HC (records ++ walkRecords V tip mergeset coinbase pov) tip.ledger.utxos ctx.mergesetDiff := by
  rw [ChainTip.walk, WalkInput.calculateUtxoState_eq first] at walked
  obtain ⟨ctx₁, accepted, walked⟩ := bind_eq_ok.mp walked
  rw [walkRecords, accepted]
  obtain ⟨cb, rest, whole, isCoinbase, -⟩ := state.wellFormed.coinbase
  obtain rfl : coinbase = cb := by simpa [whole] using first.symm
  have isolated := state.wellFormed.isolated coinbase (List.mem_of_mem_head? first)
  have bare := state.bare coinbase first
  -- a coinbase spends nothing and has no covenants
  have acceptable : Acceptable V.crypto.hashers HC tip.ledger.utxos (.coinbase coinbase) := by
    refine ⟨?_, fun output inside binding bound => ?_, fun _ => bare⟩
    · simp [ValidatedTransaction.coinbase, (isolated.coinbase isCoinbase).1]
    · cases (bare output inside).symm.trans bound
  have start : Tracks V HC records tip.ledger.utxos .empty :=
    ⟨state.lawful, state.explained, fun o e there => by cases there⟩
  obtain ⟨diff, added, same⟩ := bind_eq_ok.mp accepted
  have next : Tracks V HC (records ++ [.coinbase coinbase]) tip.ledger.utxos ctx₁.mergesetDiff := by
    cases same
    exact start.accept acceptable state.explained (unwrap_eq_ok.mp added)
  have wellFormed : ∀ step ∈ mergeSteps V.crypto.hashers tip.block coinbase mergeset,
      BlockWellFormed V.toBodyProcessor step.block := by
    intro step member
    rcases List.mem_cons.mp (WalkInput.steps_mem member) with same | inMergeset
    · exact same ▸ state.wellFormed
    · exact (bodies _ inMergeset).wellFormed
  have ended := mergeBlocks_tracks checks _ wellFormed next walked
  rwa [List.append_assoc] at ended

theorem Recorded.lineageState (checks : ChecksCovenants V HC) (wellFormed : BlockWellFormed V.toBodyProcessor genesis)
    (bare : BareCoinbase genesis) (run : Recorded V genesis records compared tip)
    (coinbases : CoinbasesInjective V compared) : LineageState V HC records tip := by
  induction run with
  | genesis => exact ⟨.nil, fun o e live => (nomatch live), wellFormed, bare⟩
  | next _ bodies walked qualified first ih =>
    have state := ih fun pair member => coinbases pair (List.mem_append_left _ member)
    have tracks := state.walk checks (fun b member => bodies b (List.mem_cons_of_mem _ member)) walked first
    refine ⟨tracks.lawful, fun o e live => tracks.view live, (bodies _ List.mem_cons_self).wellFormed, ?_⟩
    obtain ⟨coinbase, expected, head, pair, hashes, none⟩ := verifyExpectedUtxoState_compared qualified
    intro coinbase' head' output member
    cases head.symm.trans head'
    have same := coinbases (coinbase, expected) (List.mem_append_right _ (by simp [pair])) hashes
    have inside : output.covenant ∈ expected.outputs.map TransactionOutput.covenant :=
      same ▸ List.mem_map_of_mem member
    obtain ⟨other, inExpected, equal⟩ := List.mem_map.mp inside
    exact equal.symm.trans (none other inExpected)

/-- In every state of a chain from genesis, the outputs that carry an id descend from one transaction, which spends
the outpoint that the id commits to and has the outputs that it commits to. Coinbases and transactions of version 0
never create an output with an id. -/
theorem recorded_covenant_lineage (checks : ChecksCovenants V HC)
    (wellFormed : BlockWellFormed V.toBodyProcessor genesis) (bare : BareCoinbase genesis)
    (run : Recorded V genesis records compared tip) (injective : IdsInjective HC records)
    (once : (spentBy records).Nodup) (coinbases : CoinbasesInjective V compared) :
    (∀ c o e, tip.ledger.utxos o = some e → e.covenantId = some c →
      ∃ g ∈ records, ∃ a, IssuedBy HC c g a ∧
        (∀ g' ∈ records, ∀ a', IssuedBy HC c g' a' → g' = g) ∧
        ∀ o' e', tip.ledger.utxos o' = some e' → e'.covenantId = some c →
          Descends V.crypto.hashers records c g o') ∧
    ∀ o e, tip.ledger.utxos o = some e →
      ∃ vtx ∈ records, (o, e) ∈ createdEntries V.crypto.hashers vtx.tx e.blockDaaScore ∧
        (vtx.tx.version = 0 ∨ vtx.tx.isCoinbase = true → e.covenantId = none) := by
  have state := run.lineageState checks wellFormed bare coinbases
  refine ⟨fun c o e live carries => ?_, fun o e live => (state.explained o e live).origin⟩
  obtain ⟨g, member, a, issues, -⟩ := (state.explained o e live).lineage c carries
  refine ⟨g, member, a, state.lawful.issuedBy injective once member issues, fun g' member' a' issued => ?_,
    fun o' e' live' carries' => ?_⟩
  · have issues' : Issues HC g' ⟨a', c⟩ := issued.issues
    exact (Issues.unique injective once member' issues' member issues).1
  · obtain ⟨g', member', a', issues', descends⟩ := (state.explained o' e' live').lineage c carries'
    obtain rfl := (Issues.unique injective once member' issues' member issues).1
    exact descends

end Chain

namespace Sample

/-- The node with the check of covenants. -/
def covenantNode : VirtualProcessor Unit :=
  { node with
    validator := { validator with
      covenantsValid := fun tx entries => (CovenantsContext.fromTx Hash.fromBytes tx entries).toOption.isSome } }

def issuedId : Hash :=
  covenantId Hash.fromBytes ⟨earlierCoinbase.id hashers, 0⟩ [(0, ⟨200000000, ⟨0, []⟩, none⟩)]

/-- Issues a covenant with the output of the earlier coinbase. -/
def issue : Transaction where
  version := 1
  inputs := [⟨⟨earlierCoinbase.id hashers, 0⟩, [], 0, .computeBudget 0⟩]
  outputs := [⟨200000000, ⟨0, []⟩, some ⟨0, issuedId⟩⟩]
  lockTime := 0
  subnetworkId := SubnetworkId.native
  gas := 0
  payload := []
  storageMass := 0

def issuing : Block := block 2 1 10 [coinbase 3 [], issue]

def afterIssue : Block := block 3 2 20 [coinbase 4 []]

def covenantWalk (tip : ChainTip Unit) (next : Block) : UtxoProcessingContext Unit :=
  (tip.walk covenantNode [] next.header.daaScore).toOption.getD (.new ())

def issuingTip : ChainTip Unit :=
  ⟨issuing, (genesisTip covenantNode genesis).ledger.compose (covenantWalk (genesisTip covenantNode genesis) issuing),
    (covenantWalk (genesisTip covenantNode genesis) issuing).multisetHash⟩

def issuedTip : ChainTip Unit :=
  ⟨afterIssue, issuingTip.ledger.compose (covenantWalk issuingTip afterIssue),
    (covenantWalk issuingTip afterIssue).multisetHash⟩

def issuedRecords : List ValidatedTransaction :=
  [.coinbase earlierCoinbase, .coinbase (coinbase 3 []), ⟨issue, [⟨200000000, ⟨0, []⟩, 10, true, none⟩], 0, none⟩]

set_option maxRecDepth 4000 in
/-- Genesis, a block that issues a covenant and the block that accepts it. -/
theorem recorded_issued : Recorded covenantNode genesis issuedRecords
    [(coinbase 3 [], coinbase 3 []), (coinbase 4 [], coinbase 4 [])] issuedTip := by
  have issuesQualified : verifyExpectedUtxoState covenantNode (covenantWalk (genesisTip covenantNode genesis) issuing)
      mintingGhostdag issuing (genesisTip covenantNode genesis).ledger.utxos
      (genesisTip covenantNode genesis).ledger.pool ∅ .empty = .ok () := eq_ok_of_isSome (by decide +kernel)
  have acceptsQualified : verifyExpectedUtxoState covenantNode (covenantWalk issuingTip afterIssue) ⟨0, 2, [2], []⟩
      afterIssue issuingTip.ledger.utxos issuingTip.ledger.pool ∅ .empty = .ok () :=
    eq_ok_of_isSome (by decide +kernel)
  have issued : Recorded covenantNode genesis [.coinbase earlierCoinbase] [(coinbase 3 [], coinbase 3 [])]
      issuingTip :=
    .next .genesis (List.forall_mem_singleton.mpr ⟨⟨_, rfl⟩, rfl⟩) rfl issuesQualified rfl
  exact .next issued (List.forall_mem_singleton.mpr ⟨⟨_, rfl⟩, rfl⟩) rfl acceptsQualified rfl

theorem covenantGroup_issue (binding : CovenantBinding) :
    covenantGroup issue binding = [] ∨ covenantGroup issue binding = covenantGroup issue ⟨0, issuedId⟩ := by
  by_cases own : binding = ⟨0, issuedId⟩
  · exact .inr (own ▸ rfl)
  · refine .inl ?_
    simp [covenantGroup, boundTo, issue, Ne.symm own]

theorem issued_injective : IdsInjective Hash.fromBytes issuedRecords := by
  have spends : ∀ g ∈ issuedRecords, ∀ input ∈ g.tx.inputs,
      g.tx = issue ∧ input.previousOutpoint = ⟨earlierCoinbase.id hashers, 0⟩ := by
    simp [issuedRecords, ValidatedTransaction.coinbase, earlierCoinbase, coinbase, issue]
  intro g member g' member' input inside input' inside' binding binding' same
  obtain ⟨tx, outpoint⟩ := spends g member input inside
  obtain ⟨tx', outpoint'⟩ := spends g' member' input' inside'
  rw [tx, tx', outpoint, outpoint'] at same ⊢
  rcases covenantGroup_issue binding with group | group <;>
    rcases covenantGroup_issue binding' with group' | group' <;> rw [group, group'] at same ⊢ <;>
    exact absurd same (by decide +kernel)

end Sample

open Sample in
/-- The issued output descends from the transaction that issues it. -/
theorem recorded_covenant_lineage_issued :
    ∃ g ∈ issuedRecords, ∃ a, IssuedBy Hash.fromBytes issuedId g a ∧
      Descends Sample.hashers issuedRecords issuedId g ⟨issue.id Sample.hashers, 0⟩ := by
  have live : issuedTip.ledger.utxos ⟨issue.id Sample.hashers, 0⟩ =
      some ⟨200000000, ⟨0, []⟩, 20, false, some issuedId⟩ := by decide +kernel
  obtain ⟨g, member, a, issued, -, descends⟩ := (recorded_covenant_lineage (V := covenantNode)
    (fun _ _ => rfl) (BodyValid.wellFormed ⟨⟨_, rfl⟩, rfl⟩) (fun cb first => by cases first; decide)
    recorded_issued issued_injective (by decide +kernel) (by simp [CoinbasesInjective])).1 _ _ _ live rfl
  exact ⟨g, member, a, issued, descends _ _ live rfl⟩

end Marigold.Consensus
