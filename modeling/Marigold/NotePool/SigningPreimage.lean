import Marigold.NotePool.Hashing
import Marigold.NotePool.Stateless

/-!
# What a group signature fixes

The signing preimage concatenates serials (32 bytes each), produced notes (33 bytes each) and, for
a locked transfer, a count and the locks (44 bytes each), with no count for the first two. Between
its two-byte head and its forty-byte tail it can therefore be cut at other places.
-/

namespace Marigold.NotePool

open Lib

/-- What one group of an op signs. -/
structure GroupMessage where
  opType : UInt8
  serials : List Hash
  produced : List NewNote
  locks : List ProducedLock
  outputsHash : Hash
  anchorDaaScore : UInt64
  deriving DecidableEq

namespace GroupMessage

def preimage (m : GroupMessage) : Bytes :=
  signingPreimage m.opType m.serials m.produced m.locks m.outputsHash m.anchorDaaScore

/-- The same message; the order of a group's serials carries no meaning. -/
structure Same (a b : GroupMessage) : Prop where
  opType : a.opType = b.opType
  serials : ∀ sn, sn ∈ a.serials ↔ sn ∈ b.serials
  produced : a.produced = b.produced
  locks : a.locks = b.locks
  outputsHash : a.outputsHash = b.outputsHash
  anchorDaaScore : a.anchorDaaScore = b.anchorDaaScore

end GroupMessage

/-- The messages `validate_stateful` checks signatures over, one for each group of the op and each
list of outputs around it. -/
inductive SignedIn : PoolOp → GroupMessage → Prop
  | transfer (op : TransferOp) (group : SignedGroup) (outputsHash : Hash) :
    group ∈ op.consumed → SignedIn (.transfer op)
      ⟨1, group.serials, op.produced, [], outputsHash, op.freshness.anchorDaaScore⟩
  | redeem (op : RedeemOp) (group : SignedGroup) (outputsHash : Hash) :
    group ∈ op.consumed → SignedIn (.redeem op) ⟨2, group.serials, [], [], outputsHash, op.freshness.anchorDaaScore⟩
  | transferLocked (op : TransferLockedOp) (group : SignedGroup) (outputsHash : Hash) :
    group ∈ op.consumed → SignedIn (.transferLocked op)
      ⟨3, group.serials, op.produced, op.locks, outputsHash, op.freshness.anchorDaaScore⟩

/-- A message of some op that passes stateless validation. -/
def FromAcceptedOp (m : GroupMessage) : Prop :=
  ∃ op, validateStateless op = .ok () ∧ SignedIn op m

/-! ## The messages of accepted ops -/

/-- The shape the op type forces on the produced notes and the locks. -/
def KindShape (opType : UInt8) (produced : Nat) (locks : List ProducedLock) : Prop :=
  (opType = 1 ∧ locks = []) ∨ (opType = 2 ∧ produced = 0 ∧ locks = []) ∨
    (opType = 3 ∧ locks ≠ [] ∧ LocksCanonical locks produced)

variable {groups : List SignedGroup} {group : SignedGroup} {piece : Bytes} {serials : List Hash} {m : GroupMessage}

private theorem group_serials_sublist (member : group ∈ groups) :
    group.serials.Sublist (groups.flatMap SignedGroup.serials) := by
  rw [List.flatMap_def]
  exact List.sublist_flatten_of_mem (List.mem_map_of_mem member)

private theorem groupsWellFormed_singleton_iff (serials : List Hash) (signature : Signature) :
    GroupsWellFormed [⟨serials, signature⟩] ↔
      serials.length ≤ maxPoolOpCollectionLen ∧ serials ≠ [] ∧ serials.Nodup := by
  simp [GroupsWellFormed]

private theorem group_of_wellFormed (wellFormed : GroupsWellFormed groups) (member : group ∈ groups) :
    group.serials.length ≤ maxPoolOpCollectionLen ∧ group.serials ≠ [] ∧ group.serials.Nodup :=
  have sublist := group_serials_sublist member
  ⟨sublist.length_le.trans wellFormed.1, wellFormed.2.1 group member, wellFormed.2.2.sublist sublist⟩

/-- The messages of accepted ops, without reference to an op. -/
theorem fromAcceptedOp_iff (m : GroupMessage) : FromAcceptedOp m ↔
      (m.serials.length ≤ maxPoolOpCollectionLen ∧ m.serials ≠ [] ∧ m.serials.Nodup) ∧
        m.produced.length ≤ maxPoolOpCollectionLen ∧ KindShape m.opType m.produced.length m.locks := by
  constructor
  · rintro ⟨op, accepted, signed⟩
    rw [validateStateless_ok_iff] at accepted
    cases signed with
    | transfer op group outputsHash member =>
      obtain ⟨_, few, groups⟩ := accepted
      exact ⟨group_of_wellFormed groups member, few, .inl ⟨rfl, rfl⟩⟩
    | redeem op group outputsHash member =>
      obtain ⟨_, groups⟩ := accepted
      exact ⟨group_of_wellFormed groups member, Nat.zero_le _, .inr (.inl ⟨rfl, rfl, rfl⟩)⟩
    | transferLocked op group outputsHash member =>
      obtain ⟨_, few, locked, canonical, groups⟩ := accepted
      exact ⟨group_of_wellFormed groups member, few, .inr (.inr ⟨rfl, locked, canonical⟩)⟩
  · obtain ⟨opType, serials, produced, locks, outputsHash, anchor⟩ := m
    rintro ⟨group, few, shape⟩
    have groups := (groupsWellFormed_singleton_iff serials 0).mpr group
    have member : (⟨serials, 0⟩ : SignedGroup) ∈ [(⟨serials, 0⟩ : SignedGroup)] := by simp
    rcases shape with ⟨kind, unlocked⟩ | ⟨kind, none, unlocked⟩ | ⟨kind, locked, canonical⟩
    · obtain rfl : opType = 1 := kind
      obtain rfl : locks = [] := unlocked
      refine ⟨.transfer ⟨[⟨serials, 0⟩], produced, ⟨anchor⟩⟩, ?_, .transfer _ ⟨serials, 0⟩ outputsHash member⟩
      exact (validateStateless_ok_iff _).mpr ⟨by simp, few, groups⟩
    · obtain rfl : opType = 2 := kind
      obtain rfl : produced = [] := List.length_eq_zero_iff.mp none
      obtain rfl : locks = [] := unlocked
      refine ⟨.redeem ⟨[⟨serials, 0⟩], ⟨anchor⟩⟩, ?_, .redeem _ ⟨serials, 0⟩ outputsHash member⟩
      exact (validateStateless_ok_iff _).mpr ⟨by simp, groups⟩
    · obtain rfl : opType = 3 := kind
      refine ⟨.transferLocked ⟨[⟨serials, 0⟩], produced, locks, ⟨anchor⟩⟩, ?_,
        .transferLocked _ ⟨serials, 0⟩ outputsHash member⟩
      exact (validateStateless_ok_iff _).mpr ⟨by simp, few, locked, canonical, groups⟩

/-! ## Cutting a body into sections -/

/-- The part of a signing preimage between its fixed-width head and tail. -/
def GroupMessage.body (m : GroupMessage) : Bytes :=
  (sortSerials m.serials).flatMap Hash.asBytes ++ m.produced.flatMap newNoteBytes ++ locksBytes m.locks

theorem GroupMessage.preimage_eq_iff (a b : GroupMessage) :
    a.preimage = b.preimage ↔ a.opType = b.opType ∧ a.body = b.body ∧
      a.outputsHash = b.outputsHash ∧ a.anchorDaaScore = b.anchorDaaScore := by
  have shape (m : GroupMessage) : m.preimage =
      ([poolProtocolVersion, m.opType] ++ m.body) ++ m.outputsHash.asBytes ++ u64LE m.anchorDaaScore := by
    simp only [preimage, signingPreimage, body, List.append_assoc]
  rw [shape a, shape b]
  constructor
  · intro same
    obtain ⟨front, anchor⟩ := List.append_inj' same (by simp)
    obtain ⟨front, outputs⟩ := List.append_inj' front (by simp)
    obtain ⟨head, body⟩ := List.append_inj front (by simp)
    exact ⟨by simpa using head, body, Hash.asBytes_injective outputs, u64LE_injective anchor⟩
  · rintro ⟨opType, body, outputs, anchor⟩
    rw [opType, body, outputs, anchor]

/-- How many serials, notes and locks a body is read as. -/
@[ext] structure Cut where
  serials : Nat
  notes : Nat
  locks : Nat
  deriving DecidableEq, Repr

def GroupMessage.cut (m : GroupMessage) : Cut :=
  ⟨m.serials.length, m.produced.length, m.locks.length⟩

namespace Cut

variable (c : Cut)

def notesStart : Nat := c.serials * 32

def locksStart : Nat := c.notesStart + c.notes * 33

def length : Nat := c.locksStart + if c.locks = 0 then 0 else 4 + c.locks * 44

variable (body : Bytes)

def serialsOf : List Hash := (pieces 32 c.serials body).map Hash.fromBytes

def notePieces : List Bytes := pieces 33 c.notes (body.drop c.notesStart)

def readNote (piece : Bytes) : NewNote :=
  ⟨(DenominationTag.tryFrom (piece.headD 0)).getD .d0_01, Hash.fromBytes (piece.drop 1)⟩

def notesOf : List NewNote := (c.notePieces body).map readNote

def lockCount : Nat := readLE ((body.drop c.locksStart).take 4)

def readLock (piece : Bytes) : ProducedLock :=
  ⟨readU32LE (piece.take 4), ⟨Hash.fromBytes ((piece.drop 4).take 32), readU64LE (piece.drop 36)⟩⟩

def locksOf : List ProducedLock :=
  (pieces 44 c.locks ((body.drop c.locksStart).drop 4)).map readLock

end Cut

/-- The body can be read at this cut as the serials, notes and locks of an accepted op of the given
type: a condition on the bytes alone. -/
def Reads (opType : UInt8) (body : Bytes) (c : Cut) : Prop :=
  (1 ≤ c.serials ∧ c.serials ≤ maxPoolOpCollectionLen ∧ c.notes ≤ maxPoolOpCollectionLen) ∧
    body.length = c.length ∧ (c.serialsOf body).Pairwise (· < ·) ∧
    (∀ piece ∈ c.notePieces body, (DenominationTag.tryFrom (piece.headD 0)).isSome) ∧
    (c.locks = 0 ∨ c.lockCount body = c.locks) ∧ KindShape opType c.notes (c.locksOf body)

/-! ## Records of one width -/

@[simp] theorem newNoteBytes_length (note : NewNote) : (newNoteBytes note).length = 33 := by
  simp [newNoteBytes]

@[simp] theorem producedLockBytes_length (l : ProducedLock) : (producedLockBytes l).length = 44 := by
  simp [producedLockBytes]

private theorem readNote_newNoteBytes (note : NewNote) : Cut.readNote (newNoteBytes note) = note := by
  simp [Cut.readNote, newNoteBytes, DenominationTag.tryFrom_toByte, Hash.fromBytes_asBytes]

private theorem newNoteBytes_readNote (width : piece.length = 33)
    (tag : (DenominationTag.tryFrom (piece.headD 0)).isSome) : newNoteBytes (Cut.readNote piece) = piece := by
  obtain ⟨d, read⟩ := Option.isSome_iff_exists.mp tag
  obtain ⟨head, rest, rfl⟩ := List.exists_cons_of_length_eq_add_one width
  have pk := Hash.asBytes_fromBytes (by simpa using width)
  simp only [List.headD_cons] at read
  simp [newNoteBytes, Cut.readNote, read, pk, DenominationTag.toByte_of_tryFrom read]

private theorem producedLockBytes_injective : producedLockBytes.Injective := by
  rintro ⟨ia, ra, da⟩ ⟨ib, rb, db⟩ same
  simp only [producedLockBytes, List.append_assoc] at same
  obtain ⟨index, rest⟩ := List.append_inj same (by simp)
  obtain ⟨refund, daa⟩ := List.append_inj rest (by simp)
  rw [u32LE_injective index, Hash.asBytes_injective refund, u64LE_injective daa]

private theorem producedLockBytes_readLock (width : piece.length = 44) :
    producedLockBytes (Cut.readLock piece) = piece := by
  have index : u32LE (readU32LE (piece.take 4)) = piece.take 4 :=
    u32LE_readU32LE (by rw [List.length_take]; omega)
  have refund : (Hash.fromBytes ((piece.drop 4).take 32)).asBytes = (piece.drop 4).take 32 :=
    Hash.asBytes_fromBytes (by rw [List.length_take, List.length_drop]; omega)
  have daa : u64LE (readU64LE (piece.drop 36)) = piece.drop 36 :=
    u64LE_readU64LE (by rw [List.length_drop]; omega)
  simp only [producedLockBytes, Cut.readLock]
  rw [index, refund, daa, ← List.take_add, List.take_append_drop]

private theorem readLock_producedLockBytes (l : ProducedLock) : Cut.readLock (producedLockBytes l) = l :=
  producedLockBytes_injective (producedLockBytes_readLock (producedLockBytes_length l))

private theorem sortSerials_ascending (nodup : serials.Nodup) : (sortSerials serials).Pairwise (· < ·) := by
  have perm : (sortSerials serials).Perm serials := List.perm_insertionSort ..
  have sorted : (sortSerials serials).Pairwise (· ≤ ·) := List.pairwise_insertionSort ..
  have distinct := perm.nodup_iff.mpr nodup
  exact sorted.imp₂ (fun a b le ne => BitVec.lt_of_le_ne le ne) distinct

private theorem sortSerials_of_ascending (ascending : serials.Pairwise (· < ·)) : sortSerials serials = serials :=
  (ascending.imp fun lt => BitVec.le_of_lt lt).insertionSort_eq

private theorem locks_length_le {locks : List ProducedLock} {produced : Nat}
    (canonical : LocksCanonical locks produced) : locks.length ≤ produced := by
  have nodup : (locks.map fun l => l.index.toNat).Nodup := by
    refine List.pairwise_map.mpr (canonical.1.imp fun {a b} lt => ?_)
    exact Nat.ne_of_lt (UInt32.lt_iff_toNat_lt.mp lt)
  have inside : (locks.map fun l => l.index.toNat) ⊆ List.range produced := by
    intro i member
    obtain ⟨l, hl, rfl⟩ := List.mem_map.mp member
    exact List.mem_range.mpr (canonical.2 l hl)
  simpa using (List.subperm_of_subset nodup inside).length_le

/-! ## Bodies of accepted messages and their cuts -/

section Sections

variable {m : GroupMessage}

private theorem sortSerials_length (serials : List Hash) :
    (sortSerials serials).length = serials.length := List.length_insertionSort ..

private theorem serials_width (serials : List Hash) :
    ((sortSerials serials).flatMap Hash.asBytes).length = serials.length * 32 := by
  rw [flatMap_length Hash.asBytes_length, sortSerials_length]

private theorem notes_width (notes : List NewNote) : (notes.flatMap newNoteBytes).length = notes.length * 33 :=
  flatMap_length newNoteBytes_length notes

private theorem locksBytes_width (locks : List ProducedLock) :
    (locksBytes locks).length = if locks.length = 0 then 0 else 4 + locks.length * 44 := by
  unfold locksBytes
  cases locks with
  | nil => rfl
  | cons l rest =>
    rw [if_neg (by simp), if_neg (by simp), List.length_append, u32LE_length, flatMap_length producedLockBytes_length]

private theorem body_drop_notesStart (m : GroupMessage) :
    m.body.drop m.cut.notesStart = m.produced.flatMap newNoteBytes ++ locksBytes m.locks := by
  rw [GroupMessage.body, List.append_assoc]
  exact List.drop_left' (serials_width m.serials)

private theorem body_drop_locksStart (m : GroupMessage) : m.body.drop m.cut.locksStart = locksBytes m.locks := by
  rw [Cut.locksStart, ← List.drop_drop, body_drop_notesStart]
  exact List.drop_left' (notes_width m.produced)

private theorem serialsOf_body (m : GroupMessage) : m.cut.serialsOf m.body = sortSerials m.serials := by
  have cut := pieces_flatMap Hash.asBytes_length (sortSerials m.serials)
    (m.produced.flatMap newNoteBytes ++ locksBytes m.locks)
  rw [sortSerials_length, ← List.append_assoc] at cut
  have read : Hash.fromBytes ∘ Hash.asBytes = id := funext Hash.fromBytes_asBytes
  rw [Cut.serialsOf, GroupMessage.body, GroupMessage.cut, cut, List.map_map, read, List.map_id]

private theorem notePieces_body (m : GroupMessage) : m.cut.notePieces m.body = m.produced.map newNoteBytes := by
  rw [Cut.notePieces, body_drop_notesStart]
  exact pieces_flatMap newNoteBytes_length m.produced (locksBytes m.locks)

private theorem notesOf_body (m : GroupMessage) : m.cut.notesOf m.body = m.produced := by
  have read : Cut.readNote ∘ newNoteBytes = id := funext readNote_newNoteBytes
  rw [Cut.notesOf, notePieces_body, List.map_map, read, List.map_id]

private theorem locksOf_body (m : GroupMessage) : m.cut.locksOf m.body = m.locks := by
  rw [Cut.locksOf, body_drop_locksStart, GroupMessage.cut]
  cases locks : m.locks with
  | nil => rfl
  | cons l rest =>
    have read : Cut.readLock ∘ producedLockBytes = id := funext readLock_producedLockBytes
    have cut := pieces_flatMap producedLockBytes_length (l :: rest) []
    rw [List.append_nil] at cut
    rw [locksBytes, if_neg (by simp), List.drop_left' (u32LE_length _), cut, List.map_map, read, List.map_id]

private theorem lockCount_body (accepted : FromAcceptedOp m) :
    m.cut.locks = 0 ∨ m.cut.lockCount m.body = m.cut.locks := by
  obtain ⟨_, few, shape⟩ := (fromAcceptedOp_iff m).mp accepted
  rw [Cut.lockCount, body_drop_locksStart, GroupMessage.cut]
  rcases shape with ⟨_, none⟩ | ⟨_, _, none⟩ | ⟨_, some, canonical⟩
  · exact .inl (by simp [none])
  · exact .inl (by simp [none])
  · have count := locks_length_le canonical
    have small : m.locks.length < 2 ^ 32 := by
      unfold maxPoolOpCollectionLen at few
      omega
    right
    rw [locksBytes, if_neg (by simpa using some), List.take_left' (u32LE_length _), u32LE,
      readLE_leBytes, UInt32.toNat_ofNat_of_lt' small]
    exact Nat.mod_eq_of_lt small

private theorem reads_own_cut (accepted : FromAcceptedOp m) : Reads m.opType m.body m.cut := by
  obtain ⟨⟨few, some, nodup⟩, notes, shape⟩ := (fromAcceptedOp_iff m).mp accepted
  refine ⟨⟨List.length_pos_iff.mpr some, few, notes⟩, ?_, ?_, ?_, lockCount_body accepted, ?_⟩
  · rw [GroupMessage.body, List.length_append, List.length_append, serials_width, notes_width, locksBytes_width]
    rfl
  · rw [serialsOf_body]
    exact sortSerials_ascending nodup
  · intro piece member
    rw [notePieces_body] at member
    obtain ⟨note, _, rfl⟩ := List.mem_map.mp member
    simp [newNoteBytes, DenominationTag.tryFrom_toByte]
  · rw [locksOf_body]
    exact shape

private theorem sections_of_cut {a b : GroupMessage} (body : a.body = b.body) (cut : a.cut = b.cut) :
    sortSerials a.serials = sortSerials b.serials ∧ a.produced = b.produced ∧ a.locks = b.locks := by
  rw [← serialsOf_body, ← serialsOf_body b, ← notesOf_body a, ← notesOf_body b, ← locksOf_body a,
    ← locksOf_body b, body, cut]
  exact ⟨rfl, rfl, rfl⟩

/-- The message that a body reads as at a cut, with the head and tail of `m`. -/
def GroupMessage.recut (m : GroupMessage) (c : Cut) : GroupMessage :=
  { m with serials := c.serialsOf m.body, produced := c.notesOf m.body, locks := c.locksOf m.body }

private theorem recut_cut (m : GroupMessage) (c : Cut) : (m.recut c).cut = c := by
  simp [GroupMessage.recut, GroupMessage.cut, Cut.serialsOf, Cut.notesOf, Cut.notePieces, Cut.locksOf]

variable {c : Cut} (reads : Reads m.opType m.body c)

include reads

private theorem recut_accepted : FromAcceptedOp (m.recut c) := by
  obtain ⟨⟨some, few, notes⟩, _, ascending, _, _, shape⟩ := reads
  have counts := recut_cut m c
  simp only [GroupMessage.cut, Cut.ext_iff] at counts
  refine (fromAcceptedOp_iff _).mpr ⟨⟨counts.1.le.trans few, ?_, ?_⟩, counts.2.1.le.trans notes, ?_⟩
  · exact List.length_pos_iff.mp (by rw [counts.1]; exact some)
  · exact ascending.imp fun lt => BitVec.ne_of_lt lt
  · rw [counts.2.1]
    exact shape

private theorem recut_locksBytes : locksBytes (c.locksOf m.body) = m.body.drop c.locksStart := by
  obtain ⟨_, length, _, _, count, _⟩ := reads
  have width : (m.body.drop c.locksStart).length = if c.locks = 0 then 0 else 4 + c.locks * 44 := by
    rw [List.length_drop, length, Cut.length]
    omega
  generalize hbs : m.body.drop c.locksStart = bs at width
  have locks : c.locksOf m.body = (pieces 44 c.locks (bs.drop 4)).map Cut.readLock := by
    rw [Cut.locksOf, hbs]
  have size : (c.locksOf m.body).length = c.locks := by simp [Cut.locksOf]
  by_cases none : c.locks = 0
  · rw [if_pos none] at width
    rw [List.length_eq_zero_iff.mp width, List.length_eq_zero_iff.mp (size.trans none)]
    rfl
  · rw [if_neg none] at width
    have some : ¬ (c.locksOf m.body).isEmpty := by
      rw [List.isEmpty_iff_length_eq_zero, size]
      exact none
    have four : (bs.take 4).length = 4 := by rw [List.length_take]; omega
    have rest : (bs.drop 4).length = c.locks * 44 := by rw [List.length_drop]; omega
    -- The count field holds the number of locks that follow it.
    have field : u32LE (UInt32.ofNat c.locks) = bs.take 4 := by
      have read : c.locks = readLE (bs.take 4) := by
        rw [← count.resolve_left none, Cut.lockCount, hbs]
      rw [read]
      exact u32LE_readU32LE four
    rw [locksBytes, if_neg some, size, field, locks, flatMap_map_pieces fun piece member =>
      producedLockBytes_readLock (length_of_mem_pieces rest.ge member), List.take_of_length_le
      rest.le, List.take_append_drop]

private theorem recut_body : (m.recut c).body = m.body := by
  have locks := recut_locksBytes reads
  obtain ⟨_, length, ascending, tags, _, _⟩ := reads
  have bound : c.locksStart ≤ m.body.length := by
    rw [length, Cut.length]
    omega
  have long : c.serials * 32 ≤ m.body.length := by
    unfold Cut.locksStart Cut.notesStart at bound
    omega
  have rest : c.notes * 33 ≤ (m.body.drop c.notesStart).length := by
    rw [List.length_drop]
    unfold Cut.locksStart at bound
    omega
  have serials : (sortSerials (c.serialsOf m.body)).flatMap Hash.asBytes = m.body.take c.notesStart := by
    rw [sortSerials_of_ascending ascending]
    exact flatMap_map_pieces fun piece member =>
      Hash.asBytes_fromBytes (length_of_mem_pieces long member)
  have notes : (c.notesOf m.body).flatMap newNoteBytes = (m.body.drop c.notesStart).take (c.notes * 33) :=
    flatMap_map_pieces fun piece member =>
      newNoteBytes_readNote (length_of_mem_pieces rest member) (tags piece member)
  change (sortSerials (c.serialsOf m.body)).flatMap Hash.asBytes ++
    (c.notesOf m.body).flatMap newNoteBytes ++ locksBytes (c.locksOf m.body) = m.body
  rw [serials, notes, locks, ← List.take_add]
  exact List.take_append_drop ..

end Sections

/-! ## When a signature authorizes one message only -/

private theorem same_of_only_cut {m' : GroupMessage}
    (only : ∀ c, Reads m.opType m.body c → c = m.cut) (accepted : FromAcceptedOp m')
    (equal : m.preimage = m'.preimage) : m.Same m' := by
  obtain ⟨opType, body, outputs, anchor⟩ := (m.preimage_eq_iff m').mp equal
  have cut : m'.cut = m.cut := by
    apply only
    rw [opType, body]
    exact reads_own_cut accepted
  obtain ⟨serials, produced, locks⟩ := sections_of_cut body cut.symm
  refine ⟨opType, fun sn => ?_, produced, locks, outputs, anchor⟩
  rw [← List.mem_insertionSort (r := (· ≤ ·)) (l := m.serials),
    ← List.mem_insertionSort (r := (· ≤ ·)) (l := m'.serials)]
  exact iff_of_eq (congrArg (sn ∈ ·) serials)

private theorem cut_eq_of_same (accepted : FromAcceptedOp m) {c : Cut}
    (reads : Reads m.opType m.body c) (same : m.Same (m.recut c)) : c = m.cut := by
  have nodup := ((fromAcceptedOp_iff m).mp accepted).1.2.2
  have nodup' := ((fromAcceptedOp_iff _).mp (recut_accepted reads)).1.2.2
  have serials := (List.perm_ext_iff_of_nodup nodup nodup').mpr same.serials
  rw [← recut_cut m c]
  simp only [GroupMessage.cut, ← same.produced, ← same.locks, serials.length_eq]

/-- A redeem of the note with the given serial. -/
def redeemOne (serial : Hash) : PoolOp := .redeem ⟨[⟨[serial], 0⟩], ⟨0⟩⟩

/-- The bounds are tight: 34 serials whose first bytes count up and are otherwise zero. -/
def sweptSerials : List Hash := (List.range 34).map fun k => BitVec.ofNat 256 (k * 2 ^ 248)

/-- What the last 33 of them read as, 33 bytes at a time. -/
def splitNotes : List NewNote := (List.range 32).map fun j =>
  ⟨if j = 0 then .d0_1 else .d0_01, BitVec.ofNat 256 ((j + 2) * 256 ^ j)⟩

end Marigold.NotePool
