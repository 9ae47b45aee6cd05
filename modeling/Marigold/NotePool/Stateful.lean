import Marigold.Core.Outcome
import Marigold.Lib.Totals
import Marigold.NotePool.Diff
import Marigold.NotePool.Hashing
import Marigold.NotePool.Stateless

/-!
# Stateful validation of pool operations

`validate_stateful` (`consensus/core/src/notepool/validate.rs`): existence of the consumed notes,
their keys and signatures, freshness of the anchor and of the produced serials, and conservation.
A replay of the selected parent's transactions skips keys, signatures and the anchor.
-/

namespace Marigold.NotePool

open Lib Outcome

inductive PoolOpContextError where
  | serialNotFound (sn : Hash)
  | serialAlreadyExists (sn : Hash)
  | mixedKeysInGroup (i : Nat)
  | badPublicKey (i : Nat)
  | badSignature (i : Nat)
  | anchorInFuture (anchor pov : UInt64)
  | staleAnchor (anchor pov window : UInt64)
  | insufficientConsumedValue (consumed produced : UInt64)
  | locksNotActive (pov : UInt64)
  | algebra (e : PoolAlgebraError)
  deriving DecidableEq, Repr

/-- The hash functions and the Schnorr scheme. -/
structure Crypto where
  hashers : Hashers
  /-- `XOnlyPublicKey::from_slice` succeeds. -/
  validKey : PublicKey → Bool
  verify : Signature → Hash → PublicKey → Bool

structure ValidatedPoolOp where
  diff : PoolDiff
  consumedPetals : UInt64
  producedPetals : UInt64

/-- `0 <= pov - anchor <= POOL_FRESHNESS_WINDOW`. -/
def checkFreshness (freshness : FreshnessAnchor) (povDaaScore : UInt64) : Outcome PoolOpContextError Unit :=
  let anchor := freshness.anchorDaaScore
  if anchor > povDaaScore then .reject (.anchorInFuture anchor povDaaScore)
  else if povDaaScore - anchor > poolFreshnessWindow then
    .reject (.staleAnchor anchor povDaaScore poolFreshnessWindow)
  else .ok ()

def checkFreshnessUnless (skip : Bool) (freshness : FreshnessAnchor) (povDaaScore : UInt64) :
    Outcome PoolOpContextError Unit :=
  if skip then .ok () else checkFreshness freshness povDaaScore

/-! ## Consumed notes -/

/-- The arguments that `validate_consumed_groups_stateful` uses for every group. -/
structure GroupContext where
  opType : UInt8
  produced : List NewNote
  locks : List ProducedLock
  outputsHash : Hash
  anchorDaaScore : UInt64
  view : PoolView
  povDaaScore : UInt64
  skipSignature : Bool

/-- The diff and the petal count built up while notes are consumed or produced. -/
structure Tally where
  diff : PoolDiff
  petals : UInt64

def Tally.zero : Tally := ⟨.empty, 0⟩

/-- All serials of a group answer to one key. -/
def checkGroupKey (i : Nat) (groupPk : Option PublicKey) (pk : PublicKey) :
    Outcome PoolOpContextError (Option PublicKey) :=
  match groupPk with
  | none => .ok (some pk)
  | some seen => if seen ≠ pk then .reject (.mixedKeysInGroup i) else .ok (some seen)

/-- The key question is skipped with the signature. -/
def groupKeyAfter (ctx : GroupContext) (i : Nat) (groupPk : Option PublicKey) (entry : PoolEntry) :
    Outcome PoolOpContextError (Option PublicKey) :=
  if ctx.skipSignature then .ok groupPk
  else checkGroupKey i groupPk (entry.spendingPk ctx.povDaaScore)

def consumeSerial (ctx : GroupContext) (i : Nat) (acc : Tally × Option PublicKey) (sn : Hash) :
    Outcome PoolOpContextError (Tally × Option PublicKey) :=
  match ctx.view sn with
  | none => .reject (.serialNotFound sn)
  | some entry => do
    let groupPk ← groupKeyAfter ctx i acc.2 entry
    let diff ← ofExcept .algebra (acc.1.diff.removeNote sn entry)
    let petals ← add acc.1.petals entry.note.d.petals
    return (⟨diff, petals⟩, groupPk)

section Crypto

variable (C : Crypto)

def checkGroupSignature (ctx : GroupContext) (i : Nat) (group : SignedGroup)
    (groupPk : Option PublicKey) : Outcome PoolOpContextError Unit := do
  let pk ← expect groupPk
  let message := signingHashWithLocks C.hashers ctx.opType group.serials ctx.produced ctx.locks
    ctx.outputsHash ctx.anchorDaaScore
  if !C.validKey pk then .reject (.badPublicKey i)
  else if !C.verify group.signature message pk then .reject (.badSignature i)
  else .ok ()

def consumeGroup (ctx : GroupContext) (i : Nat) (acc : Tally) (group : SignedGroup) :
    Outcome PoolOpContextError Tally := do
  let (acc, groupPk) ← group.serials.foldlM (consumeSerial ctx i) (acc, none)
  if ctx.skipSignature then return acc
  else do
    checkGroupSignature C ctx i group groupPk
    return acc

/-- `validate_consumed_groups_stateful`, from group number `i` on. -/
def consumeGroups (ctx : GroupContext) : Nat → Tally → List SignedGroup → Outcome PoolOpContextError Tally
  | _, acc, [] => .ok acc
  | i, acc, group :: rest => do
    let acc ← consumeGroup C ctx i acc group
    consumeGroups ctx (i + 1) acc rest

/-! ## Produced notes -/

def checkProducedSerialIsFresh (view : PoolView) (sn : Hash) : Outcome PoolOpContextError Unit :=
  if (view sn).isSome then .reject (.serialAlreadyExists sn) else .ok ()

def produceNote (view : PoolView) (acc : Tally) (note : Hash × PoolEntry) : Outcome PoolOpContextError Tally := do
  checkProducedSerialIsFresh view note.1
  let diff ← ofExcept .algebra (acc.diff.addNote note.1 note.2)
  let petals ← add acc.petals note.2.note.d.petals
  return ⟨diff, petals⟩

/-- The entries an op produces, under the serials derived from its transaction. -/
def withSerials (H : Hashers) (txId : TransactionId) (entries : List PoolEntry) : List (Hash × PoolEntry) :=
  entries.mapIdx fun i entry => (serialHash H txId (UInt32.ofNat i), entry)

/-- `entries[l.index as usize].lock = Some(l.lock)` for every lock; a bad index panics. -/
def joinLocks (entries : List PoolEntry) (locks : List ProducedLock) : Outcome PoolOpContextError (List PoolEntry) :=
  locks.foldlM (fun entries l =>
    if l.index.toNat < entries.length then .ok (joinLock entries l) else .panicked .unwrap) entries

/-! ## The four operations -/

def validateMintStateful (mint : MintOp) (txId : TransactionId) (view : PoolView) :
    Outcome PoolOpContextError ValidatedPoolOp := do
  let produced ← (withSerials C.hashers txId (mint.newNotes.map .unlocked)).foldlM (produceNote view) .zero
  return ⟨produced.diff, 0, produced.petals⟩

def validateTransferStateful (consumed : List SignedGroup) (produced : List NewNote)
    (locks : List ProducedLock) (freshness : FreshnessAnchor) (opType : UInt8)
    (txId : TransactionId) (outputs : List TransactionOutput) (view : PoolView)
    (povDaaScore : UInt64) (skip : Bool) : Outcome PoolOpContextError ValidatedPoolOp := do
  checkFreshnessUnless skip freshness povDaaScore
  let gone ← consumeGroups C ⟨opType, produced, locks, transparentOutputsHash C.hashers outputs,
    freshness.anchorDaaScore, view, povDaaScore, skip⟩ 0 .zero consumed
  let entries ← joinLocks (produced.map .unlocked) locks
  let made ← (withSerials C.hashers txId entries).foldlM (produceNote view) ⟨gone.diff, 0⟩
  if gone.petals < made.petals then
    .reject (.insufficientConsumedValue gone.petals made.petals)
  else return ⟨made.diff, gone.petals, made.petals⟩

def validateRedeemStateful (redeem : RedeemOp) (outputs : List TransactionOutput)
    (view : PoolView) (povDaaScore : UInt64) (skip : Bool) :
    Outcome PoolOpContextError ValidatedPoolOp := do
  checkFreshnessUnless skip redeem.freshness povDaaScore
  let gone ← consumeGroups C ⟨2, [], [], transparentOutputsHash C.hashers outputs,
    redeem.freshness.anchorDaaScore, view, povDaaScore, skip⟩ 0 .zero redeem.consumed
  return ⟨gone.diff, gone.petals, 0⟩

def validateStateful (op : PoolOp) (txId : TransactionId) (outputs : List TransactionOutput)
    (view : PoolView) (povDaaScore : UInt64) (skip locksActive : Bool) :
    Outcome PoolOpContextError ValidatedPoolOp :=
  match op with
  | .mint mint => validateMintStateful C mint txId view
  | .transfer op =>
    validateTransferStateful C op.consumed op.produced [] op.freshness 1 txId outputs view povDaaScore skip
  | .transferLocked op =>
    if !locksActive then .reject (.locksNotActive povDaaScore)
    else validateTransferStateful C op.consumed op.produced op.locks op.freshness 3 txId outputs view povDaaScore skip
  | .redeem redeem => validateRedeemStateful C redeem outputs view povDaaScore skip

end Crypto

/-! ## What consuming notes does -/

/-- The value of a note. -/
def PoolEntry.petals (entry : PoolEntry) : Nat := entry.note.d.petals.toNat

section Consume

variable {ctx : GroupContext} {i : Nat} {acc acc' : Tally × Option PublicKey} {sn : Hash}
  {serials : List Hash} {C : Crypto}

theorem consumeSerial_ok (done : consumeSerial ctx i acc sn = .ok acc') :
    ∃ entry, ctx.view sn = some entry ∧ acc.1.diff.removeNote sn entry = .ok acc'.1.diff ∧
      acc'.1.petals.toNat = acc.1.petals.toNat + entry.petals ∧ groupKeyAfter ctx i acc.2 entry = .ok acc'.2 := by
  unfold consumeSerial at done
  split at done
  · simp [reject] at done
  next entry found =>
    obtain ⟨groupPk, key, done⟩ := bind_eq_ok.mp done
    obtain ⟨diff, removed, done⟩ := bind_eq_ok.mp done
    obtain ⟨petals, added, done⟩ := bind_eq_ok.mp done
    cases done
    exact ⟨entry, found, ofExcept_eq_ok.mp removed, add_eq_ok.mp added, key⟩

/-- The loop invariant: exactly the given serials, all of them live and distinct, have been
removed and counted. -/
structure Consumed (view : PoolView) (serials : List Hash) (acc : Tally) : Prop where
  silent : ∀ sn, (acc.diff.cell sn).add = none
  reads : acc.diff.Reads view (removeAll view serials)
  nodup : serials.Nodup
  live : ∀ sn ∈ serials, (view sn).isSome
  petals : acc.petals.toNat = (serials.map (Totals.valueAt PoolEntry.petals view)).sum

theorem consumed_nil (view : PoolView) : Consumed view [] .zero where
  silent _ := rfl
  reads := by
    rw [removeAll_nil]
    exact PoolDiff.empty_reads view
  nodup := List.nodup_nil
  live := by simp
  petals := rfl

private theorem removeAll_append_singleton (view : PoolView) (serials : List Hash) (sn : Hash) :
    removeAll view (serials ++ [sn]) = Function.update (removeAll view serials) sn none := by
  funext sn'
  by_cases here : sn' = sn
  · simp [removeAll, here]
  · simp [removeAll, here]

private theorem consumed_step (before : Consumed ctx.view serials acc.1)
    (done : consumeSerial ctx i acc sn = .ok acc') : Consumed ctx.view (serials ++ [sn]) acc'.1 := by
  obtain ⟨entry, found, removed, petals, _⟩ := consumeSerial_ok done
  rw [PoolDiff.removeNote_eq] at removed
  split at removed
  · cases removed
  next once =>
    -- The diff has no removal of `sn` yet, so `sn` reads as in the view.
    have unremoved : (acc.1.diff.cell sn).remove = none := by
      by_contra some
      exact once ⟨before.silent sn, some⟩
    have reads := (before.reads sn).2
    rw [Cell.apply_of_not_add (before.silent sn), unremoved] at reads
    have there := reads.symm.trans found
    have fresh : sn ∉ serials := by
      intro member
      simp [removeAll, member] at there
    have after := (Except.ok.inj removed).symm
    constructor
    · intro sn'
      rw [after, PoolDiff.mergeRemoved_add_eq_none (before.silent sn')]
    · rw [after, removeAll_append_singleton]
      exact PoolDiff.mergeRemoved_reads before.reads there
    · refine List.nodup_append.mpr ⟨before.nodup, by simp, ?_⟩
      rintro a member b last rfl
      exact fresh (List.mem_singleton.mp last ▸ member)
    · intro sn' member
      rcases List.mem_append.mp member with earlier | last
      · exact before.live sn' earlier
      · rw [List.mem_singleton.mp last, found]
        rfl
    · rw [petals, before.petals, List.map_append, List.sum_append]
      simp [Totals.valueAt, found]

private theorem consumed_serials (new : List Hash) (before : Consumed ctx.view serials acc.1)
    (done : new.foldlM (consumeSerial ctx i) acc = .ok acc') : Consumed ctx.view (serials ++ new) acc'.1 := by
  induction new generalizing acc serials with
  | nil =>
    cases done
    simpa using before
  | cons sn rest ih =>
    obtain ⟨acc₁, step, done⟩ := foldlM_cons_eq_ok.mp done
    simpa using ih (consumed_step before step) done

theorem consumeGroup_ok {acc acc' : Tally} {group : SignedGroup} (done : consumeGroup C ctx i acc group = .ok acc') :
    ∃ groupPk, group.serials.foldlM (consumeSerial ctx i) (acc, none) = .ok (acc', groupPk) ∧
      (ctx.skipSignature = false → checkGroupSignature C ctx i group groupPk = .ok ()) := by
  unfold consumeGroup at done
  obtain ⟨⟨acc₁, groupPk⟩, consumed, done⟩ := bind_eq_ok.mp done
  simp only at done
  split at done
  next skip =>
    cases done
    exact ⟨groupPk, consumed, fun full => by simp [skip] at full⟩
  · obtain ⟨_, signed, done⟩ := bind_eq_ok.mp done
    cases done
    exact ⟨groupPk, consumed, fun _ => signed⟩

theorem consumeGroups_consumed (groups : List SignedGroup) {acc acc' : Tally}
    (before : Consumed ctx.view serials acc) (done : consumeGroups C ctx i acc groups = .ok acc') :
    Consumed ctx.view (serials ++ groups.flatMap SignedGroup.serials) acc' := by
  induction groups generalizing i acc serials with
  | nil =>
    cases done
    simpa using before
  | cons group rest ih =>
    obtain ⟨acc₁, first, done⟩ := bind_eq_ok.mp done
    obtain ⟨groupPk, consumed, _⟩ := consumeGroup_ok first
    have between := consumed_serials group.serials before consumed
    simpa using ih between done

end Consume

/-! ## What producing notes does -/

section Produce

variable {view : PoolView} {acc acc' : Tally} {note : Hash × PoolEntry} {store : PoolView}
  {notes : List (Hash × PoolEntry)}

theorem produceNote_ok (done : produceNote view acc note = .ok acc') :
    view note.1 = none ∧ acc.diff.addNote note.1 note.2 = .ok acc'.diff ∧
      acc'.petals.toNat = acc.petals.toNat + note.2.petals := by
  unfold produceNote at done
  obtain ⟨_, fresh, done⟩ := bind_eq_ok.mp done
  obtain ⟨diff, added, done⟩ := bind_eq_ok.mp done
  obtain ⟨petals, counted, done⟩ := bind_eq_ok.mp done
  cases done
  refine ⟨?_, ofExcept_eq_ok.mp added, add_eq_ok.mp counted⟩
  unfold checkProducedSerialIsFresh at fresh
  split at fresh
  · simp [reject] at fresh
  next absent => simpa using absent

/-- The loop invariant: the given notes, all under distinct serials that are not live, have been
added on top of `store`. -/
structure Produced (view store : PoolView) (notes : List (Hash × PoolEntry)) (acc : Tally) : Prop where
  reads : acc.diff.Reads view (addAll store notes)
  silent : ∀ sn ∉ notes.map Prod.fst, (acc.diff.cell sn).add = none
  nodup : (notes.map Prod.fst).Nodup
  fresh : ∀ note ∈ notes, view note.1 = none
  petals : acc.petals.toNat = (notes.map fun note => note.2.petals).sum

private theorem addAll_append_singleton (fresh : note.1 ∉ notes.map Prod.fst) :
    addAll store (notes ++ [note]) = Function.update (addAll store notes) note.1 (some note.2) := by
  obtain ⟨sn, entry⟩ := note
  funext sn'
  by_cases here : sn' = sn
  · subst here
    simp [addAll, List.lookup_append, lookup_eq_none_of_notMem fresh]
  · have apart : (sn' == sn) = false := beq_false_of_ne here
    simp [addAll, List.lookup_append, List.lookup_cons, here, apart]

private theorem produced_step (before : Produced view store notes acc) (done : produceNote view acc note = .ok acc') :
    Produced view store (notes ++ [note]) acc' := by
  obtain ⟨absent, added, petals⟩ := produceNote_ok done
  obtain ⟨valid, reads⟩ := before.reads note.1
  -- Nothing is live under the serial, so nothing under it was removed; and it was not added yet.
  have unremoved : (acc.diff.cell note.1).remove = none := by
    cases removed : (acc.diff.cell note.1).remove with
    | none => rfl
    | some old => exact nomatch absent.symm.trans (valid.removed old removed)
  rw [PoolDiff.addNote_eq] at added
  split at added
  · cases added
  next once =>
    have silent : (acc.diff.cell note.1).add = none := by
      by_contra some
      exact once ⟨unremoved, some⟩
    rw [Cell.apply_of_not_add silent, unremoved] at reads
    have missing := reads.symm.trans absent
    have new := notMem_of_addAll_eq_none missing
    have after := (Except.ok.inj added).symm
    constructor
    · rw [after, addAll_append_singleton new]
      exact PoolDiff.mergeAdded_reads before.reads missing fun old live =>
        nomatch absent.symm.trans live
    · intro sn other
      simp only [List.map_append, List.map_cons, List.map_nil, List.mem_append, not_or, List.mem_singleton] at other
      rw [after, PoolDiff.mergeAdded_add_of_ne other.2]
      exact before.silent sn other.1
    · rw [List.map_append]
      refine List.nodup_append.mpr ⟨before.nodup, by simp, ?_⟩
      rintro sn member sn' last rfl
      have here : sn = note.1 := by simpa using last
      exact new (here ▸ member)
    · intro other member
      rcases List.mem_append.mp member with earlier | last
      · exact before.fresh other earlier
      · rw [List.mem_singleton.mp last, absent]
    · rw [petals, before.petals, List.map_append, List.sum_append]
      simp

theorem produced_notes (new : List (Hash × PoolEntry)) (before : Produced view store notes acc)
    (done : new.foldlM (produceNote view) acc = .ok acc') : Produced view store (notes ++ new) acc' := by
  induction new generalizing acc notes with
  | nil =>
    cases done
    simpa using before
  | cons note rest ih =>
    obtain ⟨acc₁, step, done⟩ := foldlM_cons_eq_ok.mp done
    simpa using ih (produced_step before step) done

end Produce

/-! ## What an accepted op does -/

/-- The entries an op produces, locks joined in. -/
def PoolOp.producedEntries : PoolOp → List PoolEntry
  | .mint op => op.newNotes.map .unlocked
  | .transfer op => op.produced.map .unlocked
  | .redeem _ => []
  | .transferLocked op => op.producedEntries

/-- The notes an op of the given transaction creates. -/
def PoolOp.createdNotes (H : Hashers) (txId : TransactionId) (op : PoolOp) :
    List (Hash × PoolEntry) := withSerials H txId op.producedEntries

/-- What an op does to the pool: consumed serials gone, created notes there. -/
def PoolOp.update (H : Hashers) (txId : TransactionId) (op : PoolOp) : Update Hash PoolEntry :=
  ⟨op.consumedSerials, op.createdNotes H txId⟩

/-- Everything a validated op says about the pool view it was validated against. -/
structure OpEffect (H : Hashers) (txId : TransactionId) (op : PoolOp) (view : PoolView)
    (validated : ValidatedPoolOp) : Prop where
  fits : (op.update H txId).Fits view
  reads : validated.diff.Reads view ((op.update H txId).apply view)
  silent : ∀ sn ∉ (op.createdNotes H txId).map Prod.fst, (validated.diff.cell sn).add = none
  consumedPetals : validated.consumedPetals.toNat = (op.consumedSerials.map (Totals.valueAt PoolEntry.petals view)).sum
  producedPetals : validated.producedPetals.toNat = ((op.createdNotes H txId).map fun note => note.2.petals).sum

theorem joinLocks_ok {locks : List ProducedLock} {entries joined : List PoolEntry}
    (done : joinLocks entries locks = .ok joined) : joined = locks.foldl joinLock entries := by
  induction locks generalizing entries with
  | nil => exact (Except.ok.inj done).symm
  | cons l rest ih =>
    unfold joinLocks at done
    obtain ⟨next, step, done⟩ := foldlM_cons_eq_ok.mp done
    split at step
    · cases step
      exact ih done
    · simp [panicked] at step

section Effect

variable {C : Crypto} {txId : TransactionId} {outputs : List TransactionOutput} {view : PoolView}
  {pov : UInt64} {skip locksActive : Bool} {validated : ValidatedPoolOp}

private theorem produced_nil {store : PoolView} {diff : PoolDiff} (reads : diff.Reads view store)
    (silent : ∀ sn, (diff.cell sn).add = none) : Produced view store [] ⟨diff, 0⟩ where
  reads := by rwa [addAll_nil]
  silent sn _ := silent sn
  nodup := List.nodup_nil
  fresh := by simp
  petals := rfl

private theorem opEffect_of_loops {op : PoolOp} {gone made : Tally} (consumed : Consumed view op.consumedSerials gone)
    (produced : Produced view (removeAll view op.consumedSerials) (op.createdNotes C.hashers txId) made) :
    OpEffect C.hashers txId op view ⟨made.diff, gone.petals, made.petals⟩ where
  fits := by
    refine ⟨consumed.nodup, consumed.live, produced.nodup, ?_⟩
    intro sn member
    obtain ⟨note, created, rfl⟩ := List.mem_map.mp member
    exact produced.fresh note created
  reads := produced.reads
  silent := produced.silent
  consumedPetals := consumed.petals
  producedPetals := produced.petals

private theorem validateMintStateful_effect {mint : MintOp}
    (done : validateMintStateful C mint txId view = .ok validated) :
    OpEffect C.hashers txId (.mint mint) view validated := by
  unfold validateMintStateful at done
  obtain ⟨made, notes, done⟩ := bind_eq_ok.mp done
  cases done
  have produced := produced_notes _ (produced_nil (PoolDiff.empty_reads view) fun _ => rfl) notes
  rw [List.nil_append] at produced
  have consumed : Consumed view (PoolOp.mint mint).consumedSerials .zero := consumed_nil view
  rw [← removeAll_nil view] at produced
  exact opEffect_of_loops consumed produced

private theorem validateTransferStateful_effect (op : PoolOp) {produced : List NewNote}
    {locks : List ProducedLock} {freshness : FreshnessAnchor} {opType : UInt8}
    (entries : op.producedEntries = locks.foldl joinLock (produced.map .unlocked))
    (done : validateTransferStateful C op.consumedGroups produced locks freshness opType txId
      outputs view pov skip = .ok validated) : OpEffect C.hashers txId op view validated := by
  unfold validateTransferStateful at done
  obtain ⟨_, _, done⟩ := bind_eq_ok.mp done
  obtain ⟨gone, groups, done⟩ := bind_eq_ok.mp done
  obtain ⟨joined, locked, done⟩ := bind_eq_ok.mp done
  obtain ⟨made, notes, done⟩ := bind_eq_ok.mp done
  split at done
  · simp [reject] at done
  · cases done
    have consumed := consumeGroups_consumed _ (consumed_nil view) groups
    have created : withSerials C.hashers txId joined = op.createdNotes C.hashers txId := by
      rw [joinLocks_ok locked, PoolOp.createdNotes, entries]
    rw [created] at notes
    have produced := produced_notes _ (produced_nil consumed.reads consumed.silent) notes
    rw [List.nil_append] at produced
    exact opEffect_of_loops consumed produced

private theorem validateRedeemStateful_effect {redeem : RedeemOp}
    (done : validateRedeemStateful C redeem outputs view pov skip = .ok validated) :
    OpEffect C.hashers txId (.redeem redeem) view validated := by
  unfold validateRedeemStateful at done
  obtain ⟨_, _, done⟩ := bind_eq_ok.mp done
  obtain ⟨gone, groups, done⟩ := bind_eq_ok.mp done
  cases done
  have consumed : Consumed view (PoolOp.redeem redeem).consumedSerials gone :=
    consumeGroups_consumed _ (consumed_nil view) groups
  exact opEffect_of_loops consumed (produced_nil consumed.reads consumed.silent)

/-- Whatever the flags, an accepted op consumes live notes and creates fresh ones, and its diff and
petal counts say so. -/
theorem validateStateful_effect {op : PoolOp}
    (done : validateStateful C op txId outputs view pov skip locksActive = .ok validated) :
    OpEffect C.hashers txId op view validated := by
  cases op with
  | mint mint => exact validateMintStateful_effect done
  | transfer op => exact validateTransferStateful_effect (.transfer op) rfl done
  | redeem redeem => exact validateRedeemStateful_effect done
  | transferLocked op =>
    simp only [validateStateful] at done
    split at done
    · simp [reject] at done
    · exact validateTransferStateful_effect (.transferLocked op) rfl done

end Effect

variable {H : Hashers} {txId : TransactionId} {op : PoolOp} {view : PoolView} {validated : ValidatedPoolOp}

private theorem OpEffect.cell_of_notMem (effect : OpEffect H txId op view validated) {sn : Hash}
    (outside : sn ∉ (op.update H txId).keys) : validated.diff.cell sn = ⟨none, none⟩ := by
  obtain ⟨valid, reads⟩ := effect.reads sn
  have silent := effect.silent sn fun created => outside (List.mem_append_right _ created)
  rw [Update.apply_of_notMem outside, Cell.apply_of_not_add silent] at reads
  have kept : (validated.diff.cell sn).remove = none := by
    cases removed : (validated.diff.cell sn).remove with
    | none => rfl
    | some note =>
      rw [removed] at reads
      exact nomatch reads.trans (valid.removed note removed)
  exact Cell.ext silent kept

/-- The diff of a validated op fits every pool that agrees with the view on the op's serials. -/
theorem OpEffect.reads_of_agree {view' : PoolView} (effect : OpEffect H txId op view validated)
    (agree : ∀ sn ∈ (op.update H txId).keys, view' sn = view sn) :
    validated.diff.Reads view' ((op.update H txId).apply view') := by
  intro sn
  by_cases inside : sn ∈ (op.update H txId).keys
  · have same := agree sn inside
    obtain ⟨valid, reads⟩ := effect.reads sn
    refine ⟨same ▸ valid, ?_⟩
    rw [same, reads]
    exact Update.apply_congr same.symm
  · rw [effect.cell_of_notMem inside, Update.apply_of_notMem inside]
    exact PoolDiff.empty_reads view' sn

end Marigold.NotePool
