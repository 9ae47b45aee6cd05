import Mathlib.Data.List.Nodup
import Marigold.NotePool.Types

/-!
# Stateless validation of pool operations

`validate_stateless` and its helpers (`consensus/core/src/notepool/validate.rs`): collection shapes
and sizes, canonical locks, no serial consumed twice.
-/

namespace Marigold.NotePool

def maxPoolOpCollectionLen : Nat := 1000

inductive PoolOpValidationError where
  | emptyCollection (what : String)
  | tooManyItems (count : Nat) (what : String) (max : Nat)
  | emptySignedGroup (i : Nat)
  | duplicateSerial (serial : Hash)
  | lockIndexOutOfRange (index : UInt32) (producedLen : Nat)
  | lockIndicesNotAscending
  deriving DecidableEq, Repr

/-- The loop of `validate_locks`; `last` is the index of the lock before. -/
def checkLocks (producedLen : Nat) : Option UInt32 → List ProducedLock → Except PoolOpValidationError Unit
  | _, [] => .ok ()
  | last, l :: rest =>
    if l.index.toNat ≥ producedLen then .error (.lockIndexOutOfRange l.index producedLen)
    else if last.any fun prev => decide (l.index ≤ prev) then .error .lockIndicesNotAscending
    else checkLocks producedLen (some l.index) rest

variable (locks : List ProducedLock)

variable (producedLen : Nat)

def validateLocks : Except PoolOpValidationError Unit :=
  checkLocks producedLen none locks

/-- The inner loop of `validate_consumed_groups`: every serial must be new to `seen`. -/
def checkSerials : List Hash → List Hash → Except PoolOpValidationError (List Hash)
  | seen, [] => .ok seen
  | seen, serial :: rest =>
    if serial ∈ seen then .error (.duplicateSerial serial)
    else checkSerials (serial :: seen) rest

def checkGroups : List Hash → Nat → List SignedGroup → Except PoolOpValidationError Unit
  | _, _, [] => .ok ()
  | seen, i, group :: rest =>
    if group.serials.isEmpty then .error (.emptySignedGroup i)
    else do
      let seen ← checkSerials seen group.serials
      checkGroups seen (i + 1) rest

variable (groups : List SignedGroup)

def validateConsumedGroups : Except PoolOpValidationError Unit :=
  let totalSerials := (groups.map fun g => g.serials.length).sum
  if totalSerials > maxPoolOpCollectionLen then
    .error (.tooManyItems totalSerials "consumed serials" maxPoolOpCollectionLen)
  else checkGroups [] 0 groups

def validateMint (mint : MintOp) : Except PoolOpValidationError Unit :=
  if mint.newNotes.isEmpty then .error (.emptyCollection "new_notes")
  else if mint.newNotes.length > maxPoolOpCollectionLen then
    .error (.tooManyItems mint.newNotes.length "new_notes" maxPoolOpCollectionLen)
  else .ok ()

def validateTransfer (transfer : TransferOp) : Except PoolOpValidationError Unit :=
  if transfer.consumed.isEmpty then .error (.emptyCollection "consumed")
  else if transfer.produced.length > maxPoolOpCollectionLen then
    .error (.tooManyItems transfer.produced.length "produced" maxPoolOpCollectionLen)
  else validateConsumedGroups transfer.consumed

def validateTransferLocked (transfer : TransferLockedOp) : Except PoolOpValidationError Unit :=
  if transfer.consumed.isEmpty then .error (.emptyCollection "consumed")
  else if transfer.produced.length > maxPoolOpCollectionLen then
    .error (.tooManyItems transfer.produced.length "produced" maxPoolOpCollectionLen)
  else if transfer.locks.isEmpty then .error (.emptyCollection "locks")
  else do
    validateLocks transfer.locks transfer.produced.length
    validateConsumedGroups transfer.consumed

def validateRedeem (redeem : RedeemOp) : Except PoolOpValidationError Unit :=
  if redeem.consumed.isEmpty then .error (.emptyCollection "consumed")
  else validateConsumedGroups redeem.consumed

def validateStateless : PoolOp → Except PoolOpValidationError Unit
  | .mint mint => validateMint mint
  | .transfer transfer => validateTransfer transfer
  | .redeem redeem => validateRedeem redeem
  | .transferLocked transfer => validateTransferLocked transfer

/-! ## What acceptance means -/

/-- Strictly ascending indices, each naming a produced note. -/
def LocksCanonical : Prop :=
  locks.Pairwise (fun a b => a.index < b.index) ∧ ∀ l ∈ locks, l.index.toNat < producedLen

/-- Non-empty groups of at most a thousand serials in total, none of them twice. -/
def GroupsWellFormed : Prop :=
  (groups.flatMap SignedGroup.serials).length ≤ maxPoolOpCollectionLen ∧
    (∀ g ∈ groups, g.serials ≠ []) ∧ (groups.flatMap SignedGroup.serials).Nodup

private theorem checkLocks_ok_iff (last : Option UInt32) (locks : List ProducedLock) :
    checkLocks producedLen last locks = .ok () ↔
      LocksCanonical locks producedLen ∧ ∀ prev ∈ last, ∀ l ∈ locks, prev < l.index := by
  induction locks generalizing last with
  | nil => simp [checkLocks, LocksCanonical]
  | cons l rest ih =>
    unfold checkLocks
    split
    next high => simp [LocksCanonical, Nat.not_lt.mpr high]
    next inside =>
      split
      next repeated =>
        simp only [Option.any_eq_true, decide_eq_true_eq] at repeated
        obtain ⟨prev, rfl, notAbove⟩ := repeated
        simp [UInt32.not_lt.mpr notAbove]
      next above =>
        -- The later locks are above `l`, and `l` is above `last`.
        have first : ∀ prev ∈ last, prev < l.index := by
          intro prev member
          by_contra notAbove
          exact above (by simpa [Option.mem_def.mp member] using UInt32.not_lt.mp notAbove)
        rw [ih (some l.index)]
        simp only [LocksCanonical, List.pairwise_cons, List.forall_mem_cons, Option.mem_def,
          Option.some.injEq, forall_eq']
        constructor
        · rintro ⟨⟨sorted, bounded⟩, later⟩
          refine ⟨⟨⟨later, sorted⟩, by omega, bounded⟩, fun prev member => ⟨first prev member, ?_⟩⟩
          exact fun l' hl' => UInt32.lt_trans (first prev member) (later l' hl')
        · rintro ⟨⟨⟨later, sorted⟩, _, bounded⟩, _⟩
          exact ⟨⟨sorted, bounded⟩, later⟩

theorem validateLocks_ok_iff : validateLocks locks producedLen = .ok () ↔ LocksCanonical locks producedLen := by
  simp [validateLocks, checkLocks_ok_iff]

private theorem checkSerials_ok_iff (seen serials after : List Hash) : checkSerials seen serials = .ok after ↔
      after = serials.reverse ++ seen ∧ serials.Nodup ∧ ∀ sn ∈ serials, sn ∉ seen := by
  induction serials generalizing seen with
  | nil => simp [checkSerials, eq_comm]
  | cons sn rest ih =>
    unfold checkSerials
    split
    next known => simp [known]
    next fresh =>
      rw [ih (sn :: seen)]
      simp only [List.reverse_cons, List.append_assoc, List.singleton_append, List.nodup_cons,
        List.mem_cons, not_or, forall_eq_or_imp]
      constructor
      · rintro ⟨rfl, nodup, apart⟩
        exact ⟨rfl, ⟨fun member => (apart sn member).1 rfl, nodup⟩, fresh, fun x member => (apart x member).2⟩
      · rintro ⟨rfl, ⟨head, nodup⟩, -, apart⟩
        exact ⟨rfl, nodup, fun x member => ⟨fun eq => head (eq ▸ member), apart x member⟩⟩

private theorem checkGroups_ok_iff (seen : List Hash) (i : Nat) (groups : List SignedGroup) :
    checkGroups seen i groups = .ok () ↔ (∀ g ∈ groups, g.serials ≠ []) ∧ (groups.flatMap SignedGroup.serials).Nodup ∧
        ∀ sn ∈ groups.flatMap SignedGroup.serials, sn ∉ seen := by
  induction groups generalizing seen i with
  | nil => simp [checkGroups]
  | cons group rest ih =>
    unfold checkGroups
    split
    next empty => simp [List.isEmpty_iff.mp empty]
    next nonempty =>
      have inhabited : group.serials ≠ [] := by simpa using nonempty
      cases checked : checkSerials seen group.serials with
      | error e =>
        have rejected : ¬ (group.serials.Nodup ∧ ∀ sn ∈ group.serials, sn ∉ seen) := fun ok =>
          nomatch checked.symm.trans ((checkSerials_ok_iff seen group.serials _).mpr ⟨rfl, ok⟩)
        simp only [bind, Except.bind, reduceCtorEq, List.flatMap_cons, List.nodup_append,
          List.mem_append, or_imp, forall_and, false_iff]
        exact fun ⟨_, ⟨nodup, _⟩, apart, _⟩ => rejected ⟨nodup, apart⟩
      | ok after =>
        obtain ⟨rfl, nodup, apart⟩ := (checkSerials_ok_iff seen group.serials after).mp checked
        simp only [bind, Except.bind, ih, List.flatMap_cons, List.nodup_append, List.mem_append,
          List.mem_reverse, not_or, or_imp, forall_and, List.forall_mem_cons]
        constructor
        · rintro ⟨others, nodups, separate, rest⟩
          exact ⟨⟨inhabited, others⟩, ⟨nodup, nodups, fun a ha b hb eq => separate b hb (eq ▸ ha)⟩, apart, rest⟩
        · rintro ⟨⟨_, others⟩, ⟨_, nodups, separate⟩, _, rest⟩
          exact ⟨others, nodups, fun b hb ha => separate b ha b hb rfl, rest⟩

theorem validateConsumedGroups_ok_iff : validateConsumedGroups groups = .ok () ↔ GroupsWellFormed groups := by
  have total : (groups.map fun g => g.serials.length).sum =
      (groups.flatMap SignedGroup.serials).length := List.length_flatMap.symm
  simp only [validateConsumedGroups, total, GroupsWellFormed]
  split
  next many =>
    simp only [reduceCtorEq, false_iff, not_and]
    exact fun few => absurd few (Nat.not_le.mpr many)
  next few =>
    rw [checkGroups_ok_iff]
    simp only [List.not_mem_nil, not_false_eq_true, implies_true, and_true]
    exact ⟨fun ok => ⟨Nat.le_of_not_lt few, ok⟩, And.right⟩

/-- What `validate_stateless` accepts. -/
def PoolOp.WellFormed : PoolOp → Prop
  | .mint op => op.newNotes ≠ [] ∧ op.newNotes.length ≤ maxPoolOpCollectionLen
  | .transfer op =>
    op.consumed ≠ [] ∧ op.produced.length ≤ maxPoolOpCollectionLen ∧ GroupsWellFormed op.consumed
  | .redeem op => op.consumed ≠ [] ∧ GroupsWellFormed op.consumed
  | .transferLocked op =>
    op.consumed ≠ [] ∧ op.produced.length ≤ maxPoolOpCollectionLen ∧ op.locks ≠ [] ∧
      LocksCanonical op.locks op.produced.length ∧ GroupsWellFormed op.consumed

theorem validateStateless_ok_iff (op : PoolOp) : validateStateless op = .ok () ↔ op.WellFormed := by
  cases op with
  | mint op =>
    simp only [validateStateless, validateMint, PoolOp.WellFormed]
    split_ifs <;> simp_all
  | transfer op =>
    simp only [validateStateless, validateTransfer, PoolOp.WellFormed]
    split_ifs <;> simp_all [validateConsumedGroups_ok_iff]
  | redeem op =>
    simp only [validateStateless, validateRedeem, PoolOp.WellFormed]
    split_ifs <;> simp_all [validateConsumedGroups_ok_iff]
  | transferLocked op =>
    simp only [validateStateless, validateTransferLocked, PoolOp.WellFormed]
    have locks := validateLocks_ok_iff op.locks op.produced.length
    cases checked : validateLocks op.locks op.produced.length with
    | error e =>
      have bad : ¬ LocksCanonical op.locks op.produced.length := by simpa [checked] using locks
      split_ifs <;> simp [bind, Except.bind, bad]
    | ok =>
      have good := locks.mp checked
      split_ifs <;> simp_all [bind, Except.bind, validateConsumedGroups_ok_iff]

end Marigold.NotePool
