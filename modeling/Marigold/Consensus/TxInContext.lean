import Marigold.Consensus.TxInIsolation
import Marigold.NotePool.Authorization
import Marigold.Utxo.Diff

/-!
# Transaction validation in UTXO context

`tx_validation_in_utxo_context.rs` and `validate_transaction_in_utxo_context` of the virtual
processor: a transaction against a UTXO view and a pool view, from the point of view of a block with
a given DAA score. Fee rates are a mempool matter and are left out, and so is the DAA score of the
containing block, which no check reads.
-/

namespace Marigold.Consensus

open Lib NotePool Utxo Outcome

inductive TxValidationFlags where
  | full
  | skipScriptChecks
  | skipMassCheck
  deriving DecidableEq, Repr

def sequenceLockTimeDisabled : UInt64 := 0x8000000000000000

def sequenceLockTimeMask : UInt64 := 0x00000000ffffffff

/-- `as i64`. -/
def asI64 (x : UInt64) : Int := if x.toNat < 2 ^ 63 then x.toNat else x.toNat - 2 ^ 64

abbrev PopulatedInput := TransactionInput × UtxoEntry

/-! ## The checks -/

/-- `check_transaction_coinbase_maturity`, from input `i` on. -/
def checkCoinbaseMaturity (maturity povDaaScore : UInt64) : Nat → List PopulatedInput → Outcome TxRuleError Unit
  | _, [] => .ok ()
  | i, (input, entry) :: rest =>
    if entry.isCoinbase then do
      let mature ← add entry.blockDaaScore maturity
      if mature > povDaaScore then
        .reject (.immatureCoinbaseSpend i input.previousOutpoint entry.blockDaaScore povDaaScore maturity)
      else checkCoinbaseMaturity maturity povDaaScore (i + 1) rest
    else checkCoinbaseMaturity maturity povDaaScore (i + 1) rest

def checkedAdd (e : TxRuleError) (a b : UInt64) : TxResult UInt64 :=
  if a.toNat + b.toNat < 2 ^ 64 then .ok (a + b) else .error e

/-- `check_transaction_input_amounts`, with the total so far. -/
def checkInputAmounts : UInt64 → List PopulatedInput → TxResult UInt64
  | total, [] => .ok total
  | total, (_, entry) :: rest => do
    let total ← checkedAdd .inputAmountOverflow total entry.amount
    if total > maxSompi then .error .inputAmountTooHigh else checkInputAmounts total rest

/-- `sum` of the output values; an overflow panics. -/
def sumOutputs : List TransactionOutput → UInt64 → Outcome TxRuleError UInt64
  | [], total => .ok total
  | output :: rest, total => do
    let total ← add total output.value
    sumOutputs rest total

def checkTransactionOutputValues (tx : Transaction) (available reserved : UInt64) : Outcome TxRuleError UInt64 := do
  let totalOut ← sumOutputs tx.outputs 0
  let spent ← ofExcept id (checkedAdd .outputsValueOverflow totalOut reserved)
  if available < spent then .reject (.spendTooHigh spent available) else return totalOut

variable (V : TransactionValidator)

def checkMassCommitment (tx : Transaction) (entries : List UtxoEntry) : TxResult Unit :=
  match V.storageMass tx entries with
  | none => .error .massIncomputable
  | some calculated =>
    if tx.storageMass ≠ calculated then .error (.wrongMass calculated tx.storageMass) else .ok ()

/-- The DAA score an input is locked up to, in `i64` arithmetic that panics on overflow. -/
def lockDaaScore (input : TransactionInput) (entry : UtxoEntry) : Outcome TxRuleError Int :=
  let sum := asI64 entry.blockDaaScore + (input.sequence &&& sequenceLockTimeMask).toNat
  if sum ≥ 2 ^ 63 ∨ sum - 1 < -2 ^ 63 then .panicked .overflow else .ok (sum - 1)

def checkSequenceLock (povDaaScore : UInt64) : List PopulatedInput → Outcome TxRuleError Unit
  | [] => .ok ()
  | (input, entry) :: rest =>
    if input.sequence &&& sequenceLockTimeDisabled = sequenceLockTimeDisabled then
      checkSequenceLock povDaaScore rest
    else do
      let lock ← lockDaaScore input entry
      if lock ≥ asI64 povDaaScore then .reject .sequenceLockConditionsAreNotMet
      else checkSequenceLock povDaaScore rest

/-- `map_script_err`. -/
def mapScriptErr (input : TransactionInput) : TxRuleError :=
  if input.signatureScript.isEmpty then .signatureEmpty else .signatureInvalid

def checkScripts (V : TransactionValidator) (selectedParent : Hash) (tx : Transaction)
    (entries : List UtxoEntry) : Nat → List TransactionInput → TxResult Unit
  | _, [] => .ok ()
  | i, input :: rest =>
    if V.scriptValid selectedParent tx entries i then checkScripts V selectedParent tx entries (i + 1) rest
    else .error (mapScriptErr input)

def checkMassUnless (flags : TxValidationFlags) (tx : Transaction) (entries : List UtxoEntry) : TxResult Unit :=
  if flags ≠ .skipMassCheck then checkMassCommitment V tx entries else .ok ()

def checkScriptsUnless (flags : TxValidationFlags)
    (selectedParent : Hash) (tx : Transaction) (entries : List UtxoEntry) : TxResult Unit :=
  match flags with
  | .full => checkScripts V selectedParent tx entries 0 tx.inputs
  | .skipMassCheck => checkScripts V selectedParent tx entries 0 tx.inputs
  | .skipScriptChecks => .ok ()

def validatePopulatedTransactionAndGetFee (tx : Transaction)
    (entries : List UtxoEntry) (povDaaScore : UInt64) (flags : TxValidationFlags)
    (selectedParent : Hash) (poolConsumed poolProduced : UInt64) : Outcome TxRuleError UInt64 := do
  let inputs := tx.inputs.zip entries
  checkCoinbaseMaturity V.coinbaseMaturity povDaaScore 0 inputs
  let totalIn ← ofExcept id (checkInputAmounts 0 inputs)
  let available ← ofExcept id (checkedAdd .inputAmountOverflow totalIn poolConsumed)
  let totalOut ← checkTransactionOutputValues tx available poolProduced
  let fee := available - totalOut - poolProduced
  ofExcept id (checkMassUnless V flags tx entries)
  checkSequenceLock povDaaScore inputs
  if !V.covenantsValid tx entries then .reject .covenantsError
  else do
    ofExcept id (checkScriptsUnless V flags selectedParent tx entries)
    return fee

/-! ## A transaction in context -/

structure ValidatedTransaction where
  tx : Transaction
  entries : List UtxoEntry
  calculatedFee : UInt64
  validatedPoolOp : Option ValidatedPoolOp

/-- The parameters of `VirtualStateProcessor` that transaction validation uses. -/
structure TxContext where
  crypto : Crypto
  validator : TransactionValidator
  noteLocksActivation : UInt64

/-- The entries of all inputs, if none is missing. -/
def populate (utxoView : UtxoView) : List TransactionInput → Option (List UtxoEntry)
  | [] => some []
  | input :: rest => do
    let entry ← utxoView input.previousOutpoint
    let entries ← populate utxoView rest
    return entry :: entries

/-- The pool op of a note-pool transaction, validated; `none` for any other transaction. -/
def validatePoolOp (T : TxContext) (tx : Transaction) (poolView : PoolView) (povDaaScore : UInt64)
    (flags : TxValidationFlags) : Outcome TxRuleError (Option ValidatedPoolOp) :=
  if tx.subnetworkId = SubnetworkId.notePool then
    match PoolOp.decodePayload tx.payload with
    | none => .reject .malformedNotePoolPayload
    | some op => do
      let validated ← mapRule .invalidNotePoolOpInContext
        (validateStateful T.crypto op (tx.id T.crypto.hashers) tx.outputs poolView povDaaScore
          (flags == .skipScriptChecks) (isActive T.noteLocksActivation povDaaScore))
      return some validated
  else return none

def consumedPetals (op : Option ValidatedPoolOp) : UInt64 :=
  op.elim 0 ValidatedPoolOp.consumedPetals

def producedPetals (op : Option ValidatedPoolOp) : UInt64 :=
  op.elim 0 ValidatedPoolOp.producedPetals

def validateTransactionInUtxoContext (T : TxContext) (tx : Transaction) (utxoView : UtxoView)
    (poolView : PoolView) (povDaaScore : UInt64) (flags : TxValidationFlags)
    (selectedParent : Hash) : Outcome TxRuleError ValidatedTransaction :=
  match populate utxoView tx.inputs with
  | none => .reject .missingTxOutpoints
  | some entries => do
    let poolOp ← validatePoolOp T tx poolView povDaaScore flags
    let fee ← validatePopulatedTransactionAndGetFee T.validator tx entries povDaaScore flags
      selectedParent (consumedPetals poolOp) (producedPetals poolOp)
    return ⟨tx, entries, fee, poolOp⟩

/-! ## What acceptance means -/

variable {entries : List UtxoEntry} {total total' pov consumed produced fee : UInt64}
  {V : TransactionValidator} {tx : Transaction} {flags : TxValidationFlags} {selectedParent : Hash}

theorem populate_eq_some_iff {utxoView : UtxoView} {inputs : List TransactionInput} :
    populate utxoView inputs = some entries ↔
      inputs.map (fun input => utxoView input.previousOutpoint) = entries.map some := by
  induction inputs generalizing entries with
  | nil => cases entries <;> simp [populate]
  | cons input rest ih =>
    simp only [populate, Option.bind_eq_bind, Option.bind_eq_some_iff, ih, List.map_cons]
    cases entries with
    | nil => simp
    | cons first others => simp [and_comm]

theorem checkedAdd_ok {e : TxRuleError} {a b c : UInt64} (done : checkedAdd e a b = .ok c) :
    c.toNat = a.toNat + b.toNat := by
  unfold checkedAdd at done
  split_ifs at done with fits
  rw [← Except.ok.inj done, UInt64.toNat_add, Nat.mod_eq_of_lt fits]

theorem checkInputAmounts_ok {inputs : List PopulatedInput} (done : checkInputAmounts total inputs = .ok total') :
    total'.toNat = total.toNat + (inputs.map fun input => input.2.amount.toNat).sum := by
  induction inputs generalizing total with
  | nil => simp [Except.ok.inj done]
  | cons input rest ih =>
    obtain ⟨next, added, done⟩ := bind_eq_ok.mp done
    split_ifs at done
    rw [ih done, checkedAdd_ok added, List.map_cons, List.sum_cons, Nat.add_assoc]

theorem sumOutputs_ok {outputs : List TransactionOutput} (done : sumOutputs outputs total = .ok total') :
    total'.toNat = total.toNat + (outputs.map fun output => output.value.toNat).sum := by
  induction outputs generalizing total with
  | nil => simp [Except.ok.inj done]
  | cons output rest ih =>
    obtain ⟨next, added, done⟩ := bind_eq_ok.mp done
    rw [ih done, add_eq_ok.mp added, List.map_cons, List.sum_cons, Nat.add_assoc]

/-- The parts of `validate_populated_transaction_and_get_fee`. -/
structure Populated (V : TransactionValidator) (tx : Transaction) (entries : List UtxoEntry)
    (pov : UInt64) (flags : TxValidationFlags) (selectedParent : Hash)
    (consumed produced fee : UInt64) : Prop where
  mature : checkCoinbaseMaturity V.coinbaseMaturity pov 0 (tx.inputs.zip entries) = .ok ()
  value : ∃ totalIn available totalOut, checkInputAmounts 0 (tx.inputs.zip entries) = .ok totalIn ∧
    checkedAdd .inputAmountOverflow totalIn consumed = .ok available ∧
    checkTransactionOutputValues tx available produced = .ok totalOut ∧
    fee = available - totalOut - produced
  mass : checkMassUnless V flags tx entries = .ok ()
  unlocked : checkSequenceLock pov (tx.inputs.zip entries) = .ok ()
  covenants : V.covenantsValid tx entries = true
  scripts : checkScriptsUnless V flags selectedParent tx entries = .ok ()

theorem validatePopulated_eq_ok :
    validatePopulatedTransactionAndGetFee V tx entries pov flags selectedParent consumed produced
      = .ok fee ↔ Populated V tx entries pov flags selectedParent consumed produced fee := by
  unfold validatePopulatedTransactionAndGetFee
  constructor
  · intro done
    obtain ⟨_, mature, done⟩ := bind_eq_ok.mp done
    obtain ⟨totalIn, amounts, done⟩ := bind_eq_ok.mp done
    obtain ⟨available, together, done⟩ := bind_eq_ok.mp done
    obtain ⟨totalOut, outputs, done⟩ := bind_eq_ok.mp done
    obtain ⟨_, mass, done⟩ := bind_eq_ok.mp done
    obtain ⟨_, unlocked, done⟩ := bind_eq_ok.mp done
    split at done
    · simp [Outcome.reject] at done
    next covenants =>
      obtain ⟨_, scripts, done⟩ := bind_eq_ok.mp done
      exact ⟨mature, ⟨totalIn, available, totalOut, ofExcept_eq_ok.mp amounts,
        ofExcept_eq_ok.mp together, outputs, (Except.ok.inj done).symm⟩,
        ofExcept_eq_ok.mp mass, unlocked, by simpa using covenants,
        ofExcept_eq_ok.mp scripts⟩
  · rintro ⟨mature, ⟨totalIn, available, totalOut, amounts, together, outputs, rfl⟩, mass, unlocked, covenants, scripts⟩
    simp only [mature, amounts, together, outputs, mass, unlocked, covenants, scripts,
      Outcome.ofExcept, bind, Except.bind, Bool.not_true, Bool.false_eq_true, ↓reduceIte]
    rfl

/-- The fee is what the inputs and the consumed notes leave after the outputs and the produced
notes. -/
theorem Populated.conserves (accepted : Populated V tx entries pov flags selectedParent consumed produced fee)
    (aligned : entries.length = tx.inputs.length) : (entries.map fun entry => entry.amount.toNat).sum + consumed.toNat =
      (tx.outputs.map fun output => output.value.toNat).sum + produced.toNat + fee.toNat := by
  obtain ⟨totalIn, available, totalOut, amounts, together, outputs, rfl⟩ := accepted.value
  obtain ⟨total, summed, outputs⟩ := bind_eq_ok.mp outputs
  obtain ⟨spent, added, outputs⟩ := bind_eq_ok.mp outputs
  split_ifs at outputs with short
  · simp [reject] at outputs
  obtain rfl := Except.ok.inj outputs
  have spentEq := checkedAdd_ok (ofExcept_eq_ok.mp added)
  have enough := UInt64.le_iff_toNat_le.mp (UInt64.not_lt.mp short)
  have first : total ≤ available := UInt64.le_iff_toNat_le.mpr (by omega)
  have second : produced ≤ available - total := by
    rw [UInt64.le_iff_toNat_le, UInt64.toNat_sub_of_le _ _ first]
    omega
  have amounts := checkInputAmounts_ok amounts
  have entriesOnly : (tx.inputs.zip entries).map (fun input => input.2.amount.toNat) =
      entries.map fun entry => entry.amount.toNat := by
    change (tx.inputs.zip entries).map ((fun entry => entry.amount.toNat) ∘ Prod.snd) = _
    rw [← List.map_map, List.map_snd_zip (by omega)]
  rw [entriesOnly] at amounts
  have outs := sumOutputs_ok summed
  have sums := checkedAdd_ok together
  rw [UInt64.toNat_sub_of_le _ _ second, UInt64.toNat_sub_of_le _ _ first]
  have zero : (0 : UInt64).toNat = 0 := rfl
  omega

section Context

variable {T : TxContext} {tx : Transaction} {utxoView utxoView' : UtxoView} {poolView : PoolView}
  {pov pov' : UInt64} {flags : TxValidationFlags} {selectedParent selectedParent' : Hash}
  {vtx : ValidatedTransaction} {validated : Option ValidatedPoolOp}
  {maturity consumed produced : UInt64} {i : Nat} {inputs : List PopulatedInput}
  {V : TransactionValidator} {entries : List UtxoEntry}

theorem validateTransactionInUtxoContext_eq_ok :
    validateTransactionInUtxoContext T tx utxoView poolView pov flags selectedParent = .ok vtx ↔
      vtx.tx = tx ∧ populate utxoView tx.inputs = some vtx.entries ∧
        validatePoolOp T tx poolView pov flags = .ok vtx.validatedPoolOp ∧
        Populated T.validator tx vtx.entries pov flags selectedParent
          (consumedPetals vtx.validatedPoolOp) (producedPetals vtx.validatedPoolOp) vtx.calculatedFee := by
  unfold validateTransactionInUtxoContext
  constructor
  · intro done
    split at done
    · simp [reject] at done
    next entries populated =>
      obtain ⟨poolOp, pool, done⟩ := bind_eq_ok.mp done
      obtain ⟨fee, rest, done⟩ := bind_eq_ok.mp done
      cases done
      exact ⟨rfl, populated, pool, validatePopulated_eq_ok.mp rest⟩
  · rintro ⟨rfl, populated, pool, rest⟩
    simp only [populated, pool, validatePopulated_eq_ok.mpr rest, bind, Except.bind]
    rfl

/-- The pool side of acceptance: no op, or one whose effect on the pool view is known. -/
def PoolEffect (T : TxContext) (tx : Transaction) (poolView : PoolView) (validated : Option ValidatedPoolOp) : Prop :=
  (tx.poolOp = none ∧ validated = none) ∨ ∃ op v, tx.poolOp = some op ∧ validated = some v ∧
    OpEffect T.crypto.hashers (tx.id T.crypto.hashers) op poolView v

private theorem validatePoolOp_cases (done : validatePoolOp T tx poolView pov flags = .ok validated) :
    (tx.poolOp = none ∧ validated = none) ∨ ∃ op v, tx.poolOp = some op ∧ validated = some v ∧
      validateStateful T.crypto op (tx.id T.crypto.hashers) tx.outputs poolView pov
        (flags == .skipScriptChecks) (isActive T.noteLocksActivation pov) = .ok v := by
  unfold validatePoolOp at done
  unfold Transaction.poolOp
  split_ifs at done ⊢ with lane
  · split at done
    · simp [reject] at done
    next op decoded =>
      obtain ⟨v, stateful, done⟩ := bind_eq_ok.mp done
      exact .inr ⟨op, v, decoded, (Except.ok.inj done).symm, mapRule_eq_ok.mp stateful⟩
  · exact .inl ⟨rfl, (Except.ok.inj done).symm⟩

theorem validatePoolOp_effect (done : validatePoolOp T tx poolView pov flags = .ok validated) :
    PoolEffect T tx poolView validated := by
  rcases validatePoolOp_cases done with none | ⟨op, v, decoded, rfl, stateful⟩
  · exact .inl none
  · exact .inr ⟨op, v, decoded, rfl, validateStateful_effect stateful⟩

/-- What an accepted transaction says about the views it was validated against. -/
structure TxAccepted (T : TxContext) (tx : Transaction) (utxoView : UtxoView)
    (poolView : PoolView) (vtx : ValidatedTransaction) : Prop where
  whole : vtx.tx = tx
  entries : tx.inputs.map (fun input => utxoView input.previousOutpoint) = vtx.entries.map some
  pool : PoolEffect T tx poolView vtx.validatedPoolOp
  value : (vtx.entries.map fun entry => entry.amount.toNat).sum + (consumedPetals vtx.validatedPoolOp).toNat =
    (tx.outputs.map fun output => output.value.toNat).sum +
      (producedPetals vtx.validatedPoolOp).toNat + vtx.calculatedFee.toNat

theorem validateTransactionInUtxoContext_accepted
    (done : validateTransactionInUtxoContext T tx utxoView poolView pov flags selectedParent =
      .ok vtx) : TxAccepted T tx utxoView poolView vtx := by
  obtain ⟨same, populated, pool, rest⟩ := validateTransactionInUtxoContext_eq_ok.mp done
  have entries := populate_eq_some_iff.mp populated
  have aligned : vtx.entries.length = tx.inputs.length := by
    simpa using (congrArg List.length entries).symm
  exact ⟨same, entries, validatePoolOp_effect pool, rest.conserves aligned⟩

/-! ## Replay -/

/-- A score that is not below another one, also as an `i64`. -/
def NotBefore (pov' pov : UInt64) : Prop := pov ≤ pov' ∧ asI64 pov ≤ asI64 pov'

private theorem checkCoinbaseMaturity_mono (later : pov ≤ pov')
    (done : checkCoinbaseMaturity maturity pov i inputs = .ok ()) :
    checkCoinbaseMaturity maturity pov' i inputs = .ok () := by
  induction inputs generalizing i with
  | nil => rfl
  | cons input rest ih =>
    unfold checkCoinbaseMaturity at done ⊢
    split_ifs at done ⊢ with coinbase
    · obtain ⟨mature, added, done⟩ := bind_eq_ok.mp done
      split_ifs at done with immature
      · simp [reject] at done
      · have still : ¬ mature > pov' :=
          fun immature' => immature (UInt64.lt_of_le_of_lt later immature')
        simp only [added, bind, Except.bind, still, if_false]
        exact ih done
    · exact ih done

private theorem checkSequenceLock_mono (later : asI64 pov ≤ asI64 pov') (done : checkSequenceLock pov inputs = .ok ()) :
    checkSequenceLock pov' inputs = .ok () := by
  induction inputs with
  | nil => rfl
  | cons input rest ih =>
    unfold checkSequenceLock at done ⊢
    split_ifs at done ⊢ with disabled
    · exact ih done
    · obtain ⟨lock, computed, done⟩ := bind_eq_ok.mp done
      split_ifs at done with locked
      · simp [reject] at done
      · have still : ¬ lock ≥ asI64 pov' := fun locked' => locked (later.trans locked')
        simp only [computed, bind, Except.bind, still, if_false]
        exact ih done

private theorem Populated.replay {fee : UInt64} (later : NotBefore pov' pov)
    (accepted : Populated V tx entries pov .full selectedParent consumed produced fee) :
    Populated V tx entries pov' .skipScriptChecks selectedParent' consumed produced fee where
  mature := checkCoinbaseMaturity_mono later.1 accepted.mature
  value := accepted.value
  mass := accepted.mass
  unlocked := checkSequenceLock_mono later.2 accepted.unlocked
  covenants := accepted.covenants
  scripts := rfl

private theorem validatePoolOp_replay (later : pov ≤ pov')
    (done : validatePoolOp T tx poolView pov .full = .ok validated) :
    validatePoolOp T tx poolView pov' .skipScriptChecks = .ok validated := by
  have stillActive : isActive T.noteLocksActivation pov → isActive T.noteLocksActivation pov' := by
    simp only [isActive, decide_eq_true_eq]
    exact fun active => UInt64.le_trans active later
  unfold validatePoolOp at done ⊢
  split_ifs at done ⊢
  · split at done
    · simp [reject] at done
    next op decoded =>
      obtain ⟨v, stateful, done⟩ := bind_eq_ok.mp done
      have again : validateStateful T.crypto op (tx.id T.crypto.hashers) tx.outputs poolView pov'
          true (isActive T.noteLocksActivation pov') = .ok v :=
        validateStateful_replay stillActive (mapRule_eq_ok.mp stateful)
      exact bind_eq_ok.mpr ⟨v, mapRule_eq_ok.mpr again, done⟩
  · exact done

/-- What was fully validated at one POV is accepted by a replay at a later one, with the same pool
diff, petals and fee, if its inputs still read the same. -/
theorem validateTransactionInUtxoContext_replay (later : NotBefore pov' pov)
    (same : ∀ input ∈ tx.inputs, utxoView' input.previousOutpoint = utxoView input.previousOutpoint)
    (done : validateTransactionInUtxoContext T tx utxoView poolView pov .full selectedParent = .ok vtx) :
    validateTransactionInUtxoContext T tx utxoView' poolView pov' .skipScriptChecks selectedParent' = .ok vtx := by
  obtain ⟨whole, populated, pool, rest⟩ := validateTransactionInUtxoContext_eq_ok.mp done
  refine validateTransactionInUtxoContext_eq_ok.mpr ⟨whole, ?_, validatePoolOp_replay later.1 pool, rest.replay later⟩
  rw [populate_eq_some_iff] at populated ⊢
  rw [← populated]
  exact List.map_congr_left same

/-- Full validation has checked a signature for every note the transaction consumes. -/
theorem validateTransactionInUtxoContext_authorized
    (done : validateTransactionInUtxoContext T tx utxoView poolView pov .full selectedParent =
      .ok vtx) {op : PoolOp} (decoded : tx.poolOp = some op) :
    ∀ sn ∈ op.consumedSerials, ∀ entry, poolView sn = some entry →
      SpendAuthorized T.crypto op tx.outputs pov sn entry := by
  obtain ⟨_, _, pool, _⟩ := validateTransactionInUtxoContext_eq_ok.mp done
  rcases validatePoolOp_cases pool with ⟨none, _⟩ | ⟨op', v, decoded', _, stateful⟩
  · exact nomatch decoded.symm.trans none
  · cases decoded.symm.trans decoded'
    exact validateStateful_authorized stateful

/-! ## No panics -/

/-- The sums with coinbase maturity and with a relative lock stay within their types. -/
def ScoreInRange (V : TransactionValidator) (daaScore : UInt64) : Prop :=
  daaScore.toNat + V.coinbaseMaturity.toNat < 2 ^ 64 ∧ daaScore.toNat + 2 ^ 32 ≤ 2 ^ 63

variable {cause : Panic}

private theorem checkCoinbaseMaturity_safe
    (fits : cause = .overflow → ∀ input ∈ inputs, input.2.blockDaaScore.toNat + maturity.toNat < 2 ^ 64) :
    SafeFrom cause (checkCoinbaseMaturity maturity pov i inputs) := by
  induction inputs generalizing i with
  | nil => exact safe_ok _
  | cons input rest ih =>
    simp only [List.forall_mem_cons, imp_and] at fits
    unfold checkCoinbaseMaturity
    split_ifs
    · refine safe_bind (safe_add fits.1) fun _ _ => ?_
      split_ifs
      · exact safe_reject _
      · exact ih fits.2
    · exact ih fits.2

theorem lockDaaScore_safe {input : TransactionInput} {entry : UtxoEntry}
    (fits : cause = .overflow → entry.blockDaaScore.toNat + 2 ^ 32 ≤ 2 ^ 63) :
    SafeFrom cause (lockDaaScore input entry) := by
  have masked : (input.sequence &&& sequenceLockTimeMask).toNat < 2 ^ 32 := by
    rw [UInt64.toNat_and]
    exact Nat.lt_of_le_of_lt Nat.and_le_right (by decide)
  simp only [lockDaaScore]
  split_ifs with outside
  · intro here
    have fits := fits (Failure.panic.inj (Except.error.inj here)).symm
    rw [asI64, if_pos (by omega)] at outside
    omega
  · exact safe_ok _

private theorem checkSequenceLock_safe
    (fits : cause = .overflow → ∀ input ∈ inputs, input.2.blockDaaScore.toNat + 2 ^ 32 ≤ 2 ^ 63) :
    SafeFrom cause (checkSequenceLock pov inputs) := by
  induction inputs with
  | nil => exact safe_ok _
  | cons input rest ih =>
    simp only [List.forall_mem_cons, imp_and] at fits
    unfold checkSequenceLock
    split_ifs
    · exact ih fits.2
    · refine safe_bind (lockDaaScore_safe fits.1) fun _ _ => ?_
      split_ifs
      · exact safe_reject _
      · exact ih fits.2

private theorem sumOutputs_safe {outputs : List TransactionOutput} {total : UInt64}
    (fits : total.toNat + (outputs.map fun output => output.value.toNat).sum < 2 ^ 64) :
    SafeFrom cause (sumOutputs outputs total) := by
  induction outputs generalizing total with
  | nil => exact safe_ok _
  | cons output rest ih =>
    rw [List.map_cons, List.sum_cons] at fits
    refine safe_bind (safe_add fun _ => by omega) fun next added => ih ?_
    rw [add_eq_ok.mp added]
    omega

theorem maxSompi_toNat : maxSompi.toNat = 21000000000000000 := by decide

private theorem validatePopulated_safe (wellFormed : TxWellFormed V tx)
    (scores : cause = .overflow → ∀ entry ∈ entries, ScoreInRange V entry.blockDaaScore) :
    SafeFrom cause (validatePopulatedTransactionAndGetFee V tx entries pov flags selectedParent consumed produced) := by
  have ranges : cause = .overflow → ∀ input ∈ tx.inputs.zip entries, ScoreInRange V input.2.blockDaaScore :=
    fun overflow input member => scores overflow _ (List.of_mem_zip member).2
  have outputs : SafeFrom cause (sumOutputs tx.outputs 0) := by
    apply sumOutputs_safe
    have zero : (0 : UInt64).toNat = 0 := rfl
    have total := wellFormed.total
    rw [maxSompi_toNat] at total
    omega
  unfold validatePopulatedTransactionAndGetFee
  refine safe_bind (checkCoinbaseMaturity_safe fun overflow input member =>
    (ranges overflow input member).1) fun _ _ => ?_
  refine safe_bind (safe_ofExcept _ _) fun _ _ => ?_
  refine safe_bind (safe_ofExcept _ _) fun available _ => ?_
  refine safe_bind ?_ fun _ _ => ?_
  · refine safe_bind outputs fun _ _ => safe_bind (safe_ofExcept _ _) fun _ _ => ?_
    split_ifs
    · exact safe_reject _
    · exact safe_ok _
  refine safe_bind (safe_ofExcept _ _) fun _ _ => ?_
  refine safe_bind (checkSequenceLock_safe fun overflow input member =>
    (ranges overflow input member).2) fun _ _ => ?_
  split_ifs
  · exact safe_reject _
  · exact safe_bind (safe_ofExcept _ _) fun _ _ => safe_ok _

private theorem validatePoolOp_safe (wellFormed : TxWellFormed T.validator tx) :
    SafeFrom cause (validatePoolOp T tx poolView pov flags) := by
  unfold validatePoolOp
  split_ifs with lane
  · obtain ⟨op, decoded, opWellFormed⟩ := wellFormed.poolOp lane
    rw [Transaction.poolOp, if_pos lane] at decoded
    rw [decoded]
    exact safe_bind (safe_mapRule (validateStateful_safe opWellFormed)) fun _ _ => safe_ok _
  · exact safe_ok _

/-- A transaction that passed isolation is accepted or rejected in context, never a failed unwrap,
and no overflow either as long as the scores of the entries it spends are in range. -/
theorem validateTransactionInUtxoContext_safe (wellFormed : TxWellFormed T.validator tx)
    (scores : cause = .overflow → ∀ outpoint entry, utxoView outpoint = some entry →
      ScoreInRange T.validator entry.blockDaaScore) :
    SafeFrom cause (validateTransactionInUtxoContext T tx utxoView poolView pov flags selectedParent) := by
  unfold validateTransactionInUtxoContext
  split
  · exact safe_reject _
  next entries populated =>
    have found := populate_eq_some_iff.mp populated
    have inRange : cause = .overflow → ∀ entry ∈ entries, ScoreInRange T.validator entry.blockDaaScore := by
      intro overflow entry member
      have member : some entry ∈ entries.map some := List.mem_map_of_mem member
      rw [← found] at member
      obtain ⟨input, _, here⟩ := List.mem_map.mp member
      exact scores overflow _ entry here
    exact safe_bind (validatePoolOp_safe wellFormed) fun _ _ =>
      safe_bind (validatePopulated_safe wellFormed inRange) fun _ _ => safe_ok _

end Context

end Marigold.Consensus
