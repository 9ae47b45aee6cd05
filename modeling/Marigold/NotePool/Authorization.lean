import Marigold.NotePool.Stateful

/-!
# Full validation, replay and panics

What `validate_stateful` has checked when nothing is skipped, that a replay which skips keys,
signatures and the anchor computes the same diff and petals, and that neither panics on ops that
passed stateless validation.
-/

namespace Marigold.NotePool

open Lib Outcome

/-! ## Replay: skipping keys, signatures and freshness changes nothing else -/

section Replay

variable {C : Crypto} {ctx : GroupContext} {i : Nat} {acc acc' : Tally × Option PublicKey}

/-- The context of a replay at another POV. -/
def GroupContext.replay (ctx : GroupContext) (pov : UInt64) : GroupContext :=
  { ctx with povDaaScore := pov, skipSignature := true }

private theorem consumeSerial_replay (pov : UInt64) {sn : Hash} (pk : Option PublicKey)
    (done : consumeSerial ctx i acc sn = .ok acc') :
    consumeSerial (ctx.replay pov) i (acc.1, pk) sn = .ok (acc'.1, pk) := by
  obtain ⟨entry, found, removed, petals, _⟩ := consumeSerial_ok done
  have counted := add_eq_ok (ε := PoolOpContextError).mpr petals
  simp only [consumeSerial, GroupContext.replay, found, groupKeyAfter, ↓reduceIte, removed, Outcome.ofExcept]
  simp [counted, bind, Except.bind, pure, Except.pure]

private theorem consumeSerials_replay (pov : UInt64) (serials : List Hash) (pk : Option PublicKey)
    (done : serials.foldlM (consumeSerial ctx i) acc = .ok acc') :
    serials.foldlM (consumeSerial (ctx.replay pov) i) (acc.1, pk) = .ok (acc'.1, pk) := by
  induction serials generalizing acc with
  | nil =>
    cases done
    rfl
  | cons sn rest ih =>
    obtain ⟨acc₁, step, done⟩ := foldlM_cons_eq_ok.mp done
    rw [List.foldlM_cons, consumeSerial_replay pov pk step]
    exact ih done

private theorem consumeGroups_replay (pov : UInt64) (groups : List SignedGroup) {acc acc' : Tally}
    (done : consumeGroups C ctx i acc groups = .ok acc') :
    consumeGroups C (ctx.replay pov) i acc groups = .ok acc' := by
  induction groups generalizing i acc with
  | nil => exact done
  | cons group rest ih =>
    obtain ⟨acc₁, first, done⟩ := bind_eq_ok.mp done
    obtain ⟨groupPk, consumed, _⟩ := consumeGroup_ok first
    have again : consumeGroup C (ctx.replay pov) i acc group = .ok acc₁ := by
      rw [consumeGroup, consumeSerials_replay pov group.serials none consumed]
      rfl
    rw [consumeGroups, again]
    exact ih done

variable {txId : TransactionId} {outputs : List TransactionOutput} {view : PoolView}
  {pov pov' : UInt64} {skip locksActive locksActive' : Bool} {validated : ValidatedPoolOp}

/-- A transfer and a redemption check the anchor and the groups, and go on as `rest`. -/
private theorem groups_replay {freshness : FreshnessAnchor} {consumed : List SignedGroup}
    {rest : Tally → Outcome PoolOpContextError ValidatedPoolOp}
    (done : (checkFreshnessUnless skip freshness pov >>= fun _ => consumeGroups C ctx 0 .zero consumed >>= rest) =
      .ok validated) :
    (checkFreshnessUnless true freshness pov' >>= fun _ => consumeGroups C (ctx.replay pov') 0 .zero consumed >>=
      rest) = .ok validated := by
  obtain ⟨_, _, done⟩ := bind_eq_ok.mp done
  obtain ⟨gone, groups, done⟩ := bind_eq_ok.mp done
  rw [consumeGroups_replay pov' consumed groups]
  exact done

/-- An op that was accepted, with all checks or without, is accepted by a replay at any POV where
locks are still active, with the same diff and petal counts. -/
theorem validateStateful_replay {op : PoolOp} (stillActive : locksActive → locksActive')
    (done : validateStateful C op txId outputs view pov skip locksActive = .ok validated) :
    validateStateful C op txId outputs view pov' true locksActive' = .ok validated := by
  cases op with
  | mint mint => exact done
  | transfer op => exact groups_replay done
  | redeem redeem => exact groups_replay done
  | transferLocked op =>
    simp only [validateStateful] at done ⊢
    split at done
    · simp [reject] at done
    next active =>
      rw [Bool.not_eq_true, Bool.not_eq_false'] at active
      rw [stillActive active]
      exact groups_replay done

end Replay

/-! ## Authorization: what full validation has checked -/

/-- The produced notes in the messages an op signs. -/
def PoolOp.signedNotes : PoolOp → List NewNote
  | .mint _ => []
  | .transfer op => op.produced
  | .redeem _ => []
  | .transferLocked op => op.produced

/-- The locks in the messages an op signs. -/
def PoolOp.signedLocks : PoolOp → List ProducedLock
  | .mint _ => []
  | .transfer _ => []
  | .redeem _ => []
  | .transferLocked op => op.locks

/-- The freshness anchor of an op that spends. -/
def PoolOp.anchor : PoolOp → Option UInt64
  | .mint _ => none
  | .transfer op => some op.freshness.anchorDaaScore
  | .redeem op => some op.freshness.anchorDaaScore
  | .transferLocked op => some op.freshness.anchorDaaScore

/-- The op holds a group with the serial, signed by the key that may spend the entry at the POV over
everything the op does, and its anchor is fresh at the POV. -/
def SpendAuthorized (C : Crypto) (op : PoolOp) (outputs : List TransactionOutput)
    (pov : UInt64) (sn : Hash) (entry : PoolEntry) : Prop :=
  ∃ group ∈ op.consumedGroups, sn ∈ group.serials ∧ ∃ anchor, op.anchor = some anchor ∧
    anchor.toNat ≤ pov.toNat ∧ pov.toNat ≤ anchor.toNat + 36000 ∧
    C.verify group.signature (signingHashWithLocks C.hashers op.opType group.serials op.signedNotes op.signedLocks
        (transparentOutputsHash C.hashers outputs) anchor)
      (entry.spendingPk pov) = true

section Authorization

variable {C : Crypto} {ctx : GroupContext} {freshness : FreshnessAnchor} {i : Nat} {groupPk : Option PublicKey}

private theorem checkFreshness_ok {pov : UInt64} (done : checkFreshness freshness pov = .ok ()) :
    freshness.anchorDaaScore.toNat ≤ pov.toNat ∧ pov.toNat ≤ freshness.anchorDaaScore.toNat + 36000 := by
  unfold checkFreshness at done
  simp only at done
  split at done
  · simp [reject] at done
  next past =>
    split at done
    · simp [reject] at done
    next fresh =>
      have before := UInt64.le_iff_toNat_le.mp (UInt64.not_lt.mp past)
      have window := UInt64.le_iff_toNat_le.mp (UInt64.not_lt.mp fresh)
      rw [UInt64.toNat_sub_of_le _ _ (UInt64.not_lt.mp past)] at window
      have width : poolFreshnessWindow.toNat = 36000 := rfl
      omega

private theorem checkGroupKey_ok {groupPk' : Option PublicKey} {pk : PublicKey}
    (done : checkGroupKey i groupPk pk = .ok groupPk') :
    groupPk' = some pk ∧ ∀ seen, groupPk = some seen → seen = pk := by
  unfold checkGroupKey at done
  split at done
  · exact ⟨(Except.ok.inj done).symm, by simp⟩
  next seen =>
    split at done
    · simp [reject] at done
    next same =>
      have same : seen = pk := not_not.mp same
      exact ⟨by rw [← Except.ok.inj done, same], fun _ here => (Option.some.inj here) ▸ same⟩

private theorem consumeSerials_key (full : ctx.skipSignature = false) (serials : List Hash)
    {acc acc' : Tally × Option PublicKey} (done : serials.foldlM (consumeSerial ctx i) acc = .ok acc') :
    (∀ pk, acc.2 = some pk → acc'.2 = some pk) ∧ ∀ sn ∈ serials, ∃ entry,
      ctx.view sn = some entry ∧ acc'.2 = some (entry.spendingPk ctx.povDaaScore) := by
  induction serials generalizing acc with
  | nil =>
    cases done
    exact ⟨fun _ => id, by simp⟩
  | cons sn rest ih =>
    obtain ⟨acc₁, step, done⟩ := foldlM_cons_eq_ok.mp done
    obtain ⟨entry, found, _, _, key⟩ := consumeSerial_ok step
    rw [groupKeyAfter, full] at key
    obtain ⟨key, same⟩ := checkGroupKey_ok key
    obtain ⟨kept, each⟩ := ih done
    constructor
    · intro pk before
      rw [same pk before]
      exact kept _ key
    · rw [List.forall_mem_cons]
      exact ⟨⟨entry, found, kept _ key⟩, each⟩

private theorem checkGroupSignature_ok {group : SignedGroup}
    (done : checkGroupSignature C ctx i group groupPk = .ok ()) : ∃ pk, groupPk = some pk ∧ C.verify group.signature
      (signingHashWithLocks C.hashers ctx.opType group.serials ctx.produced ctx.locks
        ctx.outputsHash ctx.anchorDaaScore) pk = true := by
  unfold checkGroupSignature at done
  obtain ⟨pk, present, done⟩ := bind_eq_ok.mp done
  refine ⟨pk, ?_, ?_⟩
  · cases groupPk with
    | none => simp [expect, panicked] at present
    | some seen => rw [Except.ok.inj present]
  · simp only at done
    split at done
    · simp [reject] at done
    · split at done
      · simp [reject] at done
      next verified => simpa using verified

private theorem consumeGroups_authorized (full : ctx.skipSignature = false)
    (groups : List SignedGroup) {acc acc' : Tally} (done : consumeGroups C ctx i acc groups = .ok acc') :
    ∀ group ∈ groups, ∀ sn ∈ group.serials, ∀ entry, ctx.view sn = some entry → C.verify group.signature
        (signingHashWithLocks C.hashers ctx.opType group.serials ctx.produced ctx.locks
          ctx.outputsHash ctx.anchorDaaScore) (entry.spendingPk ctx.povDaaScore) = true := by
  induction groups generalizing i acc with
  | nil => simp
  | cons group rest ih =>
    obtain ⟨acc₁, first, done⟩ := bind_eq_ok.mp done
    obtain ⟨groupPk, consumed, signed⟩ := consumeGroup_ok first
    obtain ⟨pk, rfl, verified⟩ := checkGroupSignature_ok (signed full)
    rw [List.forall_mem_cons]
    refine ⟨?_, ih done⟩
    intro sn member entry found
    obtain ⟨entry', found', key⟩ := (consumeSerials_key full _ consumed).2 sn member
    cases found.symm.trans found'
    rw [← Option.some.inj key]
    exact verified

variable {txId : TransactionId} {outputs : List TransactionOutput} {view : PoolView}
  {pov : UInt64} {locksActive : Bool} {validated : ValidatedPoolOp}

private theorem groups_authorized (op : PoolOp) (anchor : op.anchor = some freshness.anchorDaaScore)
    {rest : Tally → Outcome PoolOpContextError ValidatedPoolOp}
    (done : (checkFreshness freshness pov >>= fun _ => consumeGroups C ⟨op.opType, op.signedNotes, op.signedLocks,
      transparentOutputsHash C.hashers outputs, freshness.anchorDaaScore, view, pov, false⟩ 0 .zero op.consumedGroups >>=
        rest) = .ok validated) :
    ∀ sn ∈ op.consumedSerials, ∀ entry, view sn = some entry → SpendAuthorized C op outputs pov sn entry := by
  obtain ⟨_, fresh, done⟩ := bind_eq_ok.mp done
  obtain ⟨gone, groups, _⟩ := bind_eq_ok.mp done
  intro sn member entry found
  obtain ⟨group, inOp, inGroup⟩ := List.mem_flatMap.mp member
  obtain ⟨past, window⟩ := checkFreshness_ok fresh
  exact ⟨group, inOp, inGroup, _, anchor, past, window,
    consumeGroups_authorized rfl _ groups group inOp sn inGroup entry found⟩

/-- Full validation has checked, for every consumed note, a signature of the key that may spend it
at the POV. -/
theorem validateStateful_authorized {op : PoolOp}
    (done : validateStateful C op txId outputs view pov false locksActive = .ok validated) :
    ∀ sn ∈ op.consumedSerials, ∀ entry, view sn = some entry → SpendAuthorized C op outputs pov sn entry := by
  cases op with
  | mint mint =>
    intro sn member
    exact absurd member (List.not_mem_nil)
  | transfer op => exact groups_authorized (.transfer op) rfl done
  | redeem redeem => exact groups_authorized (.redeem redeem) rfl done
  | transferLocked op =>
    simp only [validateStateful] at done
    split at done
    · simp [reject] at done
    · exact groups_authorized (.transferLocked op) rfl done

end Authorization

/-! ## No panics on what stateless validation accepts -/

section Safety

variable {C : Crypto} {ctx : GroupContext} {view : PoolView} {cause : Panic} {n i : Nat}
  {petals : UInt64} {acc : Tally × Option PublicKey} {group : SignedGroup}
  {locks : List ProducedLock} {freshness : FreshnessAnchor}

/-- Room for `n` more notes in a petal count. -/
def RoomFor (n : Nat) (petals : UInt64) : Prop := petals.toNat + n * 10 ^ 13 < 2 ^ 64

private theorem RoomFor.safe_add (room : RoomFor (n + 1) petals) (d : DenominationTag) :
    SafeFrom cause (add petals d.petals : Outcome PoolOpContextError UInt64) := by
  have bound := d.petals_le
  unfold RoomFor at room
  exact Outcome.safe_add fun _ => by omega

private theorem RoomFor.next {petals' : UInt64} (room : RoomFor (n + 1) petals)
    {d : DenominationTag} (counted : petals'.toNat = petals.toNat + d.petals.toNat) : RoomFor n petals' := by
  have bound := d.petals_le
  unfold RoomFor at room ⊢
  omega

private theorem consumeSerial_safe {sn : Hash} (room : RoomFor (n + 1) acc.1.petals) :
    SafeFrom cause (consumeSerial ctx i acc sn) := by
  unfold consumeSerial
  split
  · exact safe_reject _
  next entry _ =>
    have key : SafeFrom cause (groupKeyAfter ctx i acc.2 entry) := by
      unfold groupKeyAfter checkGroupKey
      split_ifs
      · exact safe_ok _
      · split
        · exact safe_ok _
        · split_ifs
          · exact safe_reject _
          · exact safe_ok _
    exact safe_bind key fun _ _ => safe_bind (safe_ofExcept _ _) fun _ _ =>
      safe_bind (room.safe_add _) fun _ _ => safe_ok _

private theorem consumeSerials_room (serials : List Hash) {acc' : Tally × Option PublicKey}
    (room : RoomFor (serials.length + n) acc.1.petals)
    (done : serials.foldlM (consumeSerial ctx i) acc = .ok acc') : RoomFor n acc'.1.petals := by
  induction serials generalizing acc with
  | nil =>
    cases done
    simpa using room
  | cons sn rest ih =>
    obtain ⟨acc₁, step, done⟩ := foldlM_cons_eq_ok.mp done
    obtain ⟨_, _, _, counted, _⟩ := consumeSerial_ok step
    have room : RoomFor (rest.length + n + 1) acc.1.petals := by
      rwa [List.length_cons, Nat.add_right_comm] at room
    exact ih (room.next counted) done

private theorem consumeSerials_safe (serials : List Hash) (room : RoomFor (serials.length + n) acc.1.petals) :
    SafeFrom cause (serials.foldlM (consumeSerial ctx i) acc) := by
  apply safe_foldlM fun rest acc => RoomFor (rest.length + n) acc.1.petals
  · intro sn rest acc room
    rw [List.length_cons, Nat.add_right_comm] at room
    exact consumeSerial_safe room
  · intro sn rest acc acc' room step
    obtain ⟨_, _, _, counted, _⟩ := consumeSerial_ok step
    rw [List.length_cons, Nat.add_right_comm] at room
    exact room.next counted
  · exact room

private theorem checkGroupSignature_safe {pk : PublicKey} :
    SafeFrom cause (checkGroupSignature C ctx i group (some pk)) := by
  unfold checkGroupSignature
  refine safe_bind (safe_ok pk) fun _ _ => ?_
  simp only
  split_ifs
  · exact safe_reject _
  · exact safe_reject _
  · exact safe_ok _

private theorem consumeGroup_safe {acc : Tally}
    (room : RoomFor (group.serials.length + n) acc.petals) (inhabited : group.serials ≠ []) :
    SafeFrom cause (consumeGroup C ctx i acc group) := by
  unfold consumeGroup
  refine safe_bind (consumeSerials_safe group.serials room) fun (acc', groupPk) consumed => ?_
  simp only
  split_ifs with skip
  · exact safe_ok _
  · obtain ⟨sn, member⟩ := List.exists_mem_of_ne_nil _ inhabited
    obtain ⟨entry, _, key⟩ :=
      (consumeSerials_key (Bool.not_eq_true _ ▸ skip) _ consumed).2 sn member
    simp only at key
    rw [key]
    exact safe_bind checkGroupSignature_safe fun _ _ => safe_ok _

private theorem consumeGroups_safe (groups : List SignedGroup) {acc : Tally}
    (room : RoomFor (groups.flatMap SignedGroup.serials).length acc.petals) (inhabited : ∀ g ∈ groups, g.serials ≠ []) :
    SafeFrom cause (consumeGroups C ctx i acc groups) := by
  induction groups generalizing i acc with
  | nil => exact safe_ok _
  | cons group rest ih =>
    rw [List.forall_mem_cons] at inhabited
    rw [List.flatMap_cons, List.length_append] at room
    refine safe_bind (consumeGroup_safe room inhabited.1) fun acc' done => ?_
    obtain ⟨_, consumed, _⟩ := consumeGroup_ok done
    exact ih (consumeSerials_room group.serials room consumed) inhabited.2

private theorem produceNotes_safe (notes : List (Hash × PoolEntry)) {acc : Tally}
    (room : RoomFor notes.length acc.petals) : SafeFrom cause (notes.foldlM (produceNote view) acc) := by
  apply safe_foldlM fun rest acc => RoomFor rest.length acc.petals
  · intro note rest acc room
    unfold produceNote
    have fresh : SafeFrom cause (checkProducedSerialIsFresh view note.1) := by
      unfold checkProducedSerialIsFresh
      split_ifs
      · exact safe_reject _
      · exact safe_ok _
    exact safe_bind fresh fun _ _ => safe_bind (safe_ofExcept _ _)
      fun _ _ => safe_bind (room.safe_add _) fun _ _ => safe_ok _
  · intro note rest acc acc' room step
    exact room.next (produceNote_ok step).2.2
  · exact room

theorem joinLock_length (entries : List PoolEntry) (l : ProducedLock) :
    (joinLock entries l).length = entries.length := by simp [joinLock]

private theorem joinLocks_safe (locks : List ProducedLock) (entries : List PoolEntry)
    (inside : ∀ l ∈ locks, l.index.toNat < entries.length) : SafeFrom cause (joinLocks entries locks) := by
  apply safe_foldlM fun rest entries => ∀ l ∈ rest, l.index.toNat < entries.length
  · intro l rest entries inside
    rw [if_pos (inside l (.head _))]
    exact safe_ok _
  · intro l rest entries entries' inside step
    rw [if_pos (inside l (.head _))] at step
    rw [← Except.ok.inj step, joinLock_length]
    exact fun l' member => inside l' (.tail _ member)
  · exact inside

private theorem joinLocks_length {entries joined : List PoolEntry}
    (done : joinLocks entries locks = .ok joined) : joined.length = entries.length := by
  rw [joinLocks_ok done]
  clear done
  induction locks generalizing entries with
  | nil => rfl
  | cons l rest ih => rw [List.foldl_cons, ih, joinLock_length]

private theorem withSerials_length (H : Hashers) (txId : TransactionId) (entries : List PoolEntry) :
    (withSerials H txId entries).length = entries.length := by simp [withSerials]

private theorem roomFor_of_le (few : n ≤ maxPoolOpCollectionLen) : RoomFor n 0 := by
  have zero : (0 : UInt64).toNat = 0 := rfl
  unfold maxPoolOpCollectionLen at few
  unfold RoomFor
  omega

private theorem checkFreshnessUnless_safe {skip : Bool} {pov : UInt64} :
    SafeFrom cause (checkFreshnessUnless skip freshness pov) := by
  unfold checkFreshnessUnless checkFreshness
  simp only
  split_ifs
  · exact safe_ok _
  · exact safe_reject _
  · exact safe_reject _
  · exact safe_ok _

variable {txId : TransactionId} {outputs : List TransactionOutput} {pov : UInt64} {skip locksActive : Bool}

private theorem validateTransferStateful_safe {consumed : List SignedGroup}
    {produced : List NewNote} {opType : UInt8} (groups : GroupsWellFormed consumed)
    (few : produced.length ≤ maxPoolOpCollectionLen) (inside : ∀ l ∈ locks, l.index.toNat < produced.length) :
    SafeFrom cause (validateTransferStateful C consumed produced locks freshness opType txId outputs
      view pov skip) := by
  unfold validateTransferStateful
  refine safe_bind checkFreshnessUnless_safe fun _ _ => ?_
  refine safe_bind (consumeGroups_safe _ (roomFor_of_le groups.1) groups.2.1) fun _ _ => ?_
  refine safe_bind (joinLocks_safe _ _ (by simpa using inside)) fun joined locked => ?_
  have room : RoomFor (withSerials C.hashers txId joined).length 0 := by
    rw [withSerials_length, joinLocks_length locked, List.length_map]
    exact roomFor_of_le few
  refine safe_bind (produceNotes_safe _ room) fun _ _ => ?_
  split_ifs
  · exact safe_reject _
  · exact safe_ok _

/-- A decoded op that passed stateless validation is accepted or rejected, never a panic. -/
theorem validateStateful_safe {op : PoolOp} (wellFormed : op.WellFormed) :
    SafeFrom cause (validateStateful C op txId outputs view pov skip locksActive) := by
  cases op with
  | mint mint =>
    have room : RoomFor (withSerials C.hashers txId (mint.newNotes.map .unlocked)).length 0 := by
      rw [withSerials_length, List.length_map]
      exact roomFor_of_le wellFormed.2
    exact safe_bind (produceNotes_safe _ room) fun _ _ => safe_ok _
  | transfer op =>
    exact validateTransferStateful_safe wellFormed.2.2 wellFormed.2.1 (by simp)
  | redeem redeem =>
    refine safe_bind checkFreshnessUnless_safe fun _ _ => ?_
    exact safe_bind (consumeGroups_safe _ (roomFor_of_le wellFormed.2.1) wellFormed.2.2.1) fun _ _ => safe_ok _
  | transferLocked op =>
    simp only [validateStateful]
    obtain ⟨_, few, _, canonical, groups⟩ := wellFormed
    split_ifs
    · exact safe_reject _
    · exact validateTransferStateful_safe groups few canonical.2

end Safety

end Marigold.NotePool
