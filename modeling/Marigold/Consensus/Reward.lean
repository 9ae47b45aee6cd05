import Marigold.Consensus.Conservation

/-!
# What a coinbase pays out

`expected_coinbase_transaction` pays each blue block of the mergeset its subsidy and fees, and the
merging block everything the red ones earned. Blocks outside the DAA window get no subsidy. Of those
the red ones still hand on their fees, while a blue one is passed over altogether.
-/

namespace Marigold.Consensus

open Lib NotePool Utxo Outcome

section Reward

variable (rewards : Map Hash BlockRewardData) (nonDaa : List Hash)

variable (hash : Hash)

def feesOfBlock : Nat :=
  (rewards.lookup hash).elim 0 fun reward => reward.totalFees.toNat

def subsidyOfBlock : Nat :=
  (rewards.lookup hash).elim 0 fun reward => reward.subsidy.toNat

/-- The fees collected by some blocks. -/
def collectedFees (hashes : List Hash) : Nat := (hashes.map (feesOfBlock rewards)).sum

/-- The subsidies of the blocks inside the DAA window. -/
def windowSubsidies (hashes : List Hash) : Nat :=
  (hashes.map fun hash => if hash ∈ nonDaa then 0 else subsidyOfBlock rewards hash).sum

/-- The fees of the blocks outside the DAA window. -/
def outsideFees (hashes : List Hash) : Nat :=
  (hashes.map fun hash => if hash ∈ nonDaa then feesOfBlock rewards hash else 0).sum

variable {rewards nonDaa}

@[simp] theorem collectedFees_cons (rest : List Hash) : collectedFees rewards (hash :: rest) =
      feesOfBlock rewards hash + collectedFees rewards rest := by simp [collectedFees]

@[simp] theorem windowSubsidies_cons (rest : List Hash) : windowSubsidies rewards nonDaa (hash :: rest) =
      (if hash ∈ nonDaa then 0 else subsidyOfBlock rewards hash) +
        windowSubsidies rewards nonDaa rest := by simp [windowSubsidies]

@[simp] theorem outsideFees_cons (rest : List Hash) : outsideFees rewards nonDaa (hash :: rest) =
      (if hash ∈ nonDaa then feesOfBlock rewards hash else 0) + outsideFees rewards nonDaa rest := by simp [outsideFees]

theorem collectedFees_append (a b : List Hash) :
    collectedFees rewards (a ++ b) = collectedFees rewards a + collectedFees rewards b := by
  simp [collectedFees]

theorem windowSubsidies_append (a b : List Hash) :
    windowSubsidies rewards nonDaa (a ++ b) = windowSubsidies rewards nonDaa a + windowSubsidies rewards nonDaa b := by
  simp [windowSubsidies]

theorem outsideFees_eq_zero {hashes : List Hash} : outsideFees rewards nonDaa hashes = 0 ↔
    ∀ hash ∈ hashes, hash ∈ nonDaa → feesOfBlock rewards hash = 0 := by
  simp [outsideFees, List.sum_eq_zero_iff]

variable {hash}

private theorem reward_of_mem (recorded : hash ∈ rewards) :
    ∃ reward, rewards.lookup hash = some reward ∧ feesOfBlock rewards hash = reward.totalFees.toNat ∧
      subsidyOfBlock rewards hash = reward.subsidy.toNat := by
  obtain ⟨reward, found⟩ := Option.isSome_iff_exists.mp (AList.lookup_isSome.mpr recorded)
  exact ⟨reward, found, by simp [feesOfBlock, found], by simp [subsidyOfBlock, found]⟩

private theorem add_ok {ε : Type} {a b : UInt64} (fits : a.toNat + b.toNat < 2 ^ 64) :
    ∃ c, (add a b : Outcome ε UInt64) = .ok c ∧ c.toNat = a.toNat + b.toNat := by
  refine ⟨a + b, by rw [add, if_pos fits], ?_⟩
  rw [UInt64.toNat_add, Nat.mod_eq_of_lt fits]

namespace CoinbaseManager

private theorem sum_paid {earned : UInt64} (script : ScriptPublicKey) (outputs : List TransactionOutput) :
    ((if earned > 0 then ⟨earned, script, none⟩ :: outputs else outputs).map fun output => output.value.toNat).sum =
      earned.toNat + (outputs.map fun output => output.value.toNat).sum := by
  split
  · simp
  next nothing =>
    have zero : earned.toNat = 0 := by
      have := UInt64.lt_iff_toNat_lt.not.mp nothing
      simpa using this
    simp [zero]

theorem blueOutputs_ok (nonDaa : List Hash) {blues : List Hash} (recorded : ∀ hash ∈ blues, hash ∈ rewards)
    (fits : collectedFees rewards blues + windowSubsidies rewards nonDaa blues < 2 ^ 64) :
    ∃ outputs, blueOutputs rewards nonDaa blues = .ok outputs ∧
      (outputs.map fun output => output.value.toNat).sum + outsideFees rewards nonDaa blues =
        collectedFees rewards blues + windowSubsidies rewards nonDaa blues := by
  induction blues with
  | nil => exact ⟨[], rfl, rfl⟩
  | cons blue rest ih =>
    rw [List.forall_mem_cons] at recorded
    rw [collectedFees_cons, windowSubsidies_cons] at fits
    obtain ⟨outputs, done, paid⟩ := ih recorded.2 (by omega)
    obtain ⟨reward, found, fees, subsidy⟩ := reward_of_mem recorded.1
    rw [blueOutputs, collectedFees_cons, windowSubsidies_cons, outsideFees_cons]
    by_cases outside : blue ∈ nonDaa
    · rw [if_pos outside] at fits
      refine ⟨outputs, by rw [if_pos outside, done], ?_⟩
      rw [if_pos outside, if_pos outside]
      omega
    · rw [if_neg outside, fees, subsidy] at fits
      obtain ⟨earned, added, value⟩ := add_ok (ε := CoinbaseError)
        (a := reward.subsidy) (b := reward.totalFees) (by omega)
      refine ⟨_, by
        rw [if_neg outside, found, done]
        simp only [expect, added, bind, Except.bind, pure, Except.pure]
        rfl, ?_⟩
      rw [sum_paid, if_neg outside, if_neg outside, fees, subsidy]
      omega

theorem redReward_ok (nonDaa : List Hash) {reds : List Hash} (recorded : ∀ hash ∈ reds, hash ∈ rewards) (total : UInt64)
    (fits : total.toNat + collectedFees rewards reds + windowSubsidies rewards nonDaa reds < 2 ^ 64) :
    ∃ reward, redReward rewards nonDaa total reds = .ok reward ∧ reward.toNat =
      total.toNat + collectedFees rewards reds + windowSubsidies rewards nonDaa reds := by
  induction reds generalizing total with
  | nil => exact ⟨total, rfl, rfl⟩
  | cons red rest ih =>
    rw [List.forall_mem_cons] at recorded
    rw [collectedFees_cons, windowSubsidies_cons] at fits ⊢
    obtain ⟨reward, found, fees, subsidy⟩ := reward_of_mem recorded.1
    have earns : ∃ earned, redEarned reward (red ∈ nonDaa) = .ok earned ∧ earned.toNat =
        feesOfBlock rewards red + if red ∈ nonDaa then 0 else subsidyOfBlock rewards red := by
      by_cases outside : red ∈ nonDaa
      · exact ⟨reward.totalFees, by simp [redEarned, outside], by simp [outside, fees]⟩
      · rw [if_neg outside, fees, subsidy] at fits
        obtain ⟨earned, added, value⟩ := add_ok (ε := CoinbaseError)
          (a := reward.subsidy) (b := reward.totalFees) (by omega)
        refine ⟨earned, by simp [redEarned, outside, added], ?_⟩
        rw [if_neg outside, fees, subsidy, value, Nat.add_comm]
    obtain ⟨earned, earns, value⟩ := earns
    obtain ⟨total', added, value'⟩ := add_ok (ε := CoinbaseError) (a := total) (b := earned) (by omega)
    obtain ⟨reward', done, value''⟩ := ih recorded.2 total' (by omega)
    refine ⟨reward', ?_, by omega⟩
    rw [redReward, found]
    simp only [expect, earns, added, bind, Except.bind]
    exact done

/-- The payload is the only thing that can be refused: the miner's script may be too long. -/
theorem expectedCoinbaseTransaction_ok (M : CoinbaseManager) (daaScore : UInt64)
    (minerData : MinerData) (ghostdagData : GhostdagData) (nonDaa : List Hash)
    (recorded : ∀ hash ∈ ghostdagData.mergesetBlues ++ ghostdagData.mergesetReds, hash ∈ rewards)
    (fits : collectedFees rewards (ghostdagData.mergesetBlues ++ ghostdagData.mergesetReds) +
      windowSubsidies rewards nonDaa (ghostdagData.mergesetBlues ++ ghostdagData.mergesetReds) < 2 ^ 64) :
    ∃ outputs : List TransactionOutput, (outputs.map fun output => output.value.toNat).sum +
          outsideFees rewards nonDaa ghostdagData.mergesetBlues =
        collectedFees rewards (ghostdagData.mergesetBlues ++ ghostdagData.mergesetReds) +
          windowSubsidies rewards nonDaa (ghostdagData.mergesetBlues ++ ghostdagData.mergesetReds) ∧
      M.expectedCoinbaseTransaction daaScore minerData ghostdagData rewards nonDaa =
        (ofExcept id (M.serializeCoinbasePayload
            ⟨ghostdagData.blueScore, M.calcBlockSubsidy daaScore, minerData⟩) >>= fun payload =>
          .ok ⟨1, [], outputs, 0, SubnetworkId.coinbase, 0, payload, 0⟩) := by
  rw [collectedFees_append, windowSubsidies_append] at *
  obtain ⟨blues, bluesDone, bluesPaid⟩ := blueOutputs_ok nonDaa
    (fun hash member => recorded hash (List.mem_append_left _ member)) (by omega)
  obtain ⟨red, redDone, redPaid⟩ := redReward_ok nonDaa
    (fun hash member => recorded hash (List.mem_append_right _ member)) 0 (by simp; omega)
  refine ⟨blues ++ if red > 0 then [⟨red, minerData.scriptPublicKey, none⟩] else [], ?_, ?_⟩
  · rw [List.map_append, List.sum_append, sum_paid]
    simp only [List.map_nil, List.sum_nil, UInt64.toNat_zero] at redPaid ⊢
    omega
  · rw [expectedCoinbaseTransaction, bluesDone]
    simp only [redDone, bind, Except.bind]
    rfl

end CoinbaseManager

/-! ## The rewards a walk records -/

section Recorded

variable {M : Type} {V : VirtualProcessor M} {pov : UInt64} {utxoView : UtxoView} {poolView : PoolView}
  {selectedParent : Hash} {ctx ctx' : UtxoProcessingContext M}

theorem mergeBlock_rewards {flags : TxValidationFlags} {coinbase : List AcceptedTxEntry} {block : Block}
    (done : mergeBlock V utxoView poolView pov selectedParent flags coinbase ctx block = .ok ctx') :
    ∀ hash, hash ∈ ctx'.mergesetRewards ↔ hash = block.header.hash ∨ hash ∈ ctx.mergesetRewards := by
  obtain ⟨vtxs, merged, blockFee, reward, -, -, -, rfl⟩ := mergeBlock_eq_ok done
  exact fun hash => AList.mem_insert _

theorem mergeBlocks_rewards (blocks : List Block)
    (done : blocks.foldlM (mergeBlock V utxoView poolView pov selectedParent .full []) ctx = .ok ctx') :
    ∀ hash, hash ∈ ctx'.mergesetRewards ↔
      hash ∈ blocks.map (fun block => block.header.hash) ∨ hash ∈ ctx.mergesetRewards := by
  induction blocks generalizing ctx with
  | nil =>
    cases done
    simp
  | cons block rest ih =>
    obtain ⟨ctx₁, first, done⟩ := foldlM_cons_eq_ok.mp done
    intro hash
    rw [ih done, mergeBlock_rewards first, List.map_cons, List.mem_cons]
    tauto

/-- A walk records a reward for each block it merges, and for no other one. -/
theorem calculateUtxoState_rewards {m : M} {selectedParent : Block} {mergeset : List Block}
    (done : calculateUtxoState V (.new m) selectedParent mergeset utxoView poolView pov = .ok ctx) :
    ∀ hash, hash ∈ ctx.mergesetRewards ↔ hash ∈ (selectedParent :: mergeset).map fun block => block.header.hash := by
  unfold calculateUtxoState at done
  obtain ⟨coinbase, _, done⟩ := bind_eq_ok.mp done
  obtain ⟨ctx₁, accepted, done⟩ := bind_eq_ok.mp done
  obtain ⟨ctx₂, first, done⟩ := bind_eq_ok.mp done
  have clean : ctx₁.mergesetRewards = ∅ := by
    obtain ⟨_, _, accepted⟩ := bind_eq_ok.mp accepted
    rw [← Except.ok.inj accepted]
    rfl
  intro hash
  rw [mergeBlocks_rewards mergeset done, mergeBlock_rewards first, clean, List.map_cons, List.mem_cons]
  simp only [AList.notMem_empty, or_false]
  tauto

theorem collectedFees_eq_recordedFees {hashes : List Hash} (nodup : hashes.Nodup)
    (same : ∀ hash, hash ∈ rewards ↔ hash ∈ hashes) : collectedFees rewards hashes = recordedFees rewards := by
  have perm : hashes.Perm rewards.keys :=
    (List.perm_ext_iff_of_nodup nodup rewards.keys_nodup).mpr fun hash => (same hash).symm
  rw [collectedFees, (perm.map _).sum_eq, recordedFees, Map.total, AList.keys, List.keys, List.map_map]
  congr 1
  apply List.map_congr_left
  intro entry member
  have found := Map.lookup_eq_some_iff.mpr member
  simp [feesOfBlock, found]

end Recorded

end Reward

/-- The coinbase hands on all fees of the mergeset and the subsidies inside the DAA window, except
for the fees of blue blocks outside it, which are lost. Over a walk, a block's UTXOs, notes and
coinbase together are worth what its selected parent's were, plus the subsidies, less these fees. -/
theorem expectedCoinbaseTransaction_pays (M : CoinbaseManager) (daaScore : UInt64)
    (minerData : MinerData) (ghostdagData : GhostdagData) (rewards : Map Hash BlockRewardData)
    (nonDaa : List Hash)
    (recorded : ∀ hash ∈ ghostdagData.mergesetBlues ++ ghostdagData.mergesetReds, hash ∈ rewards)
    (bounded : collectedFees rewards (ghostdagData.mergesetBlues ++ ghostdagData.mergesetReds) +
      windowSubsidies rewards nonDaa (ghostdagData.mergesetBlues ++ ghostdagData.mergesetReds) ≤
        maxSompi.toNat) :
    let mergeset := ghostdagData.mergesetBlues ++ ghostdagData.mergesetReds
    let outcome := M.expectedCoinbaseTransaction daaScore minerData ghostdagData rewards nonDaa
    (∀ cause, SafeFrom cause outcome) ∧
      (minerData.scriptPublicKey.script.length ≤ M.coinbasePayloadScriptPublicKeyMaxLen.toNat →
        ∃ tx, outcome = .ok tx) ∧
      ∀ tx, outcome = .ok tx →
        outputsValue tx + outsideFees rewards nonDaa ghostdagData.mergesetBlues =
          collectedFees rewards mergeset + windowSubsidies rewards nonDaa mergeset ∧
        (outputsValue tx = collectedFees rewards mergeset + windowSubsidies rewards nonDaa mergeset ↔
          ∀ blue ∈ ghostdagData.mergesetBlues, blue ∈ nonDaa → feesOfBlock rewards blue = 0) ∧
        ∀ (Mu : Type) (V : VirtualProcessor Mu) (m : Mu) (history : List Transaction)
          (state : StoredState) (selectedParent : Block) (others : List Block)
          (coinbase : Transaction) (pov : UInt64) (ctx : UtxoProcessingContext Mu),
          WalkInput V history state.ledger selectedParent others →
          selectedParent.transactions.head? = some coinbase →
          mergeset.Perm ((selectedParent :: others).map fun block => block.header.hash) →
          mergeset.Nodup →
          calculateUtxoState V (.new m) selectedParent others state.utxos.lookup state.pool.lookup
            pov = .ok ctx →
          ctx.mergesetRewards = rewards →
          (state.writeDiffs ctx.mergesetDiff ctx.mergesetPoolDiff).amounts +
              (state.writeDiffs ctx.mergesetDiff ctx.mergesetPoolDiff).petals + outputsValue tx +
              outsideFees rewards nonDaa ghostdagData.mergesetBlues =
            state.amounts + state.petals + outputsValue coinbase +
              windowSubsidies rewards nonDaa mergeset := by
  rw [maxSompi_toNat] at bounded
  obtain ⟨outputs, paid, made⟩ := CoinbaseManager.expectedCoinbaseTransaction_ok M daaScore minerData
    ghostdagData nonDaa recorded (by omega)
  intro mergeset outcome
  refine ⟨fun cause => ?_, fun short => ?_, fun tx done => ?_⟩
  · rw [show outcome = _ from made]
    exact safe_bind (safe_ofExcept _ _) fun _ _ => safe_ok _
  · rw [show outcome = _ from made, CoinbaseManager.serializeCoinbasePayload,
      if_neg (Nat.not_lt.mpr short)]
    exact ⟨_, rfl⟩
  · have value : outputsValue tx = (outputs.map fun output => output.value.toNat).sum := by
      rw [show outcome = _ from made] at done
      obtain ⟨payload, _, done⟩ := bind_eq_ok.mp done
      rw [← Except.ok.inj done]
      rfl
    have paid : outputsValue tx + outsideFees rewards nonDaa ghostdagData.mergesetBlues =
        collectedFees rewards mergeset + windowSubsidies rewards nonDaa mergeset := by
      rw [value]
      exact paid
    refine ⟨paid, ?_, ?_⟩
    · rw [← outsideFees_eq_zero]
      omega
    · intro Mu V m history state selectedParent others coinbase pov ctx input first perm nodup walked
        same
      obtain ⟨reads, _, counted⟩ := input.calculateUtxoState_ok first rfl walked
      obtain ⟨n, worthAfter, conserved⟩ := input.worth_result first rfl state.worth
      rw [← StoredState.ledger_writeDiffs reads.reads reads.poolReads] at worthAfter
      have after := StoredState.worth_unique worthAfter
      have fees : collectedFees rewards mergeset = recordedFees rewards := by
        refine collectedFees_eq_recordedFees nodup fun hash => ?_
        rw [← same, calculateUtxoState_rewards walked, perm.mem_iff]
      rw [same] at counted
      have counted := counted (perm.nodup_iff.mp nodup)
      omega

namespace Sample

/-- The walk over a selected parent whose mint pays a fee. -/
@[irreducible] def parentCtx : UtxoProcessingContext Unit :=
  (calculateUtxoState node (.new ()) parent [] state.utxos.lookup state.pool.lookup 10).toOption.getD (.new ())

theorem parentCtx_eq : calculateUtxoState node (.new ()) parent [] state.utxos.lookup
    state.pool.lookup 10 = .ok parentCtx := by
  unfold parentCtx
  exact eq_ok_getD (by decide +kernel) _

def merging (blues reds : List Hash) : GhostdagData := ⟨2, 1, blues, reds⟩

def miner : MinerData := ⟨⟨0, []⟩, []⟩

def earning (subsidy totalFees : UInt64) : BlockRewardData := ⟨subsidy, totalFees, ⟨0, []⟩⟩

theorem walkInput_parent : WalkInput node [earlierCoinbase] state.ledger parent [] where
  consistent := consistent
  wellFormed := by
    rw [List.forall_mem_singleton]
    exact BodyValid.wellFormed ⟨⟨_, rfl⟩, rfl⟩
  free := by
    rw [involved_eq]
    exact noCollisions_of_nodup (by decide +kernel) (by decide +kernel)
  coinbaseNew cb first := by
    cases first
    decide +kernel

theorem parentCtx_bounded : collectedFees parentCtx.mergesetRewards [1] +
    windowSubsidies parentCtx.mergesetRewards [] [1] ≤ maxSompi.toNat := by
  simp only [collectedFees, windowSubsidies, List.map_cons, List.map_nil, List.sum_cons, List.sum_nil]
  decide +kernel

end Sample

open Sample in
theorem expectedCoinbaseTransaction_pays_parent :
    ∃ tx, node.coinbaseManager.expectedCoinbaseTransaction 10 miner
        (merging [1] []) parentCtx.mergesetRewards [] = .ok tx ∧
      (state.writeDiffs parentCtx.mergesetDiff
            parentCtx.mergesetPoolDiff).amounts +
          (state.writeDiffs parentCtx.mergesetDiff
            parentCtx.mergesetPoolDiff).petals + outputsValue tx +
          outsideFees parentCtx.mergesetRewards [] [1] =
        state.amounts + state.petals + outputsValue (coinbase 2 [500]) +
          windowSubsidies parentCtx.mergesetRewards [] [1] := by
  obtain ⟨_, returns, pays⟩ := expectedCoinbaseTransaction_pays node.coinbaseManager 10
    miner (merging [1] []) parentCtx.mergesetRewards []
    (fun hash member => (calculateUtxoState_rewards parentCtx_eq hash).mpr member)
    parentCtx_bounded
  obtain ⟨tx, done⟩ := returns (by decide)
  refine ⟨tx, done, ?_⟩
  exact (pays tx done).2.2 Unit node () [earlierCoinbase] state parent []
    (coinbase 2 [500]) 10 parentCtx walkInput_parent rfl (.refl _) (by decide)
    parentCtx_eq rfl

open Sample in
/-- A blue block outside the DAA window that collected seven sompi: nobody is paid them. -/
theorem expectedCoinbaseTransaction_drops_fees :
    let rewards := (∅ : Map Hash BlockRewardData).insert 1 (earning 50 7)
    collectedFees rewards [1] + windowSubsidies rewards [1] [1] = 7 ∧
      ∃ tx, node.coinbaseManager.expectedCoinbaseTransaction 10 miner
          (merging [1] []) rewards [1] = .ok tx ∧ outputsValue tx = 0 :=
  ⟨by decide, _, rfl, rfl⟩

end Marigold.Consensus
