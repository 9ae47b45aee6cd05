import Marigold.Core.Outcome
import Marigold.Lib.Borsh
import Marigold.Smt.Proof

/-!
# Proofs on the wire

`OwnedSmtProof::from_bytes` and `to_bytes`: the bitmap, a tag for the ending with what belongs to it, and the
siblings. How many siblings there have to be is not written; it is counted from the clear bits of the bitmap
above the ending.
-/

namespace Marigold.Smt

open Lib

/-! ## Writing -/

/-- Bit `d % 8` of byte `d / 8` is bit `d`. -/
def bitmapBytes (bitmap : BitVec 256) : Bytes := leBytes 32 bitmap.toNat

def readBitmap (bs : Bytes) : BitVec 256 := BitVec.ofNat 256 (readLE bs)

namespace ProofTerminal

def fullTag : UInt8 := 0

def collapsedTag : UInt8 := 1

def collapsedOtherTag : UInt8 := 2

def toBytes : ProofTerminal → Bytes
  | full => [fullTag]
  | collapsed depth => [collapsedTag, UInt8.ofFin depth]
  | collapsedOther depth leaf =>
    [collapsedOtherTag, UInt8.ofFin depth] ++ leaf.laneKey.asBytes ++ leaf.leafHash.asBytes

end ProofTerminal

def SmtProof.toBytes (proof : SmtProof) : Bytes :=
  bitmapBytes proof.bitmap ++ proof.terminal.toBytes ++ proof.siblings.flatMap Hash.asBytes

/-! ## Reading -/

def countOnes (b : UInt8) : Nat := ((List.range 8).filter fun i => b.toNat.testBit i).length

/-- `bitmap_clear_count`, for the errors only. -/
def bitmapClearCount (bitmap : Bytes) : Outcome SmtProofError Nat :=
  let ones := (bitmap.map countOnes).sum
  if 256 < ones then Outcome.panicked .overflow else .ok (256 - ones)

def mismatch {α : Type} (expected actual : Nat) : Outcome SmtProofError α :=
  Outcome.reject (.siblingCountMismatch expected actual)

/-- The ending and the bytes of the siblings. -/
def readTerminal (bitmap : Bytes) (tag : UInt8) (rem : Bytes) : Outcome SmtProofError (ProofTerminal × Bytes) :=
  if tag = ProofTerminal.fullTag then .ok (.full, rem)
  else if tag = ProofTerminal.collapsedTag then
    match Reader.byte rem with
    | none => mismatch 0 0
    | some (depth, rem) => .ok (.collapsed depth.toFin, rem)
  else if tag = ProofTerminal.collapsedOtherTag then
    match Reader.byte rem with
    | none => mismatch 0 0
    | some (depth, rem) =>
      match Reader.array 32 rem with
      | none => mismatch 0 0
      | some (laneKey, rem) =>
        match Reader.array 32 rem with
        | none => mismatch 0 0
        | some (leafHash, rem) =>
          .ok (.collapsedOther depth.toFin ⟨Hash.fromBytes laneKey, Hash.fromBytes leafHash⟩, rem)
  else do
    let expected ← bitmapClearCount bitmap
    mismatch expected (rem.length / 32)

/-- `as_chunks::<32>`: the whole chunks and what is left. -/
def asChunks (bs : Bytes) : List Bytes × Bytes :=
  (pieces 32 (bs.length / 32) bs, bs.drop (bs.length / 32 * 32))

/-- The siblings have to be as many as the bitmap calls for. -/
def readSiblings (bitmap : BitVec 256) (terminal : ProofTerminal) (siblingBytes : Bytes) :
    Outcome SmtProofError (List Hash) :=
  let (siblings, rem) := asChunks siblingBytes
  let expected := bitmapClearCountBefore bitmap terminal
  if rem ≠ [] then mismatch expected (siblingBytes.length / 32)
  else if siblings.length ≠ expected then mismatch expected siblings.length
  else .ok (siblings.map Hash.fromBytes)

def SmtProof.fromBytes (data : Bytes) : Outcome SmtProofError SmtProof :=
  match Reader.array 32 data with
  | none => mismatch 0 0
  | some (bitmap, rem) =>
    match Reader.byte rem with
    | none => do
      let expected ← bitmapClearCount bitmap
      mismatch expected 0
    | some (tag, rem) => do
      let (terminal, siblingBytes) ← readTerminal bitmap tag rem
      let siblings ← readSiblings (readBitmap bitmap) terminal siblingBytes
      return ⟨readBitmap bitmap, siblings, terminal⟩

/-! ## What is read -/

theorem readBitmap_bitmapBytes (bitmap : BitVec 256) : readBitmap (bitmapBytes bitmap) = bitmap := by
  have fits : bitmap.toNat < 256 ^ 32 := bitmap.isLt
  rw [readBitmap, bitmapBytes, readLE_leBytes, Nat.mod_eq_of_lt fits, BitVec.ofNat_toNat, BitVec.setWidth_eq]

variable {bs bitmap : Bytes} {terminal : ProofTerminal} {α : Type} {proof : SmtProof}

theorem bitmapBytes_readBitmap (width : bs.length = 32) : bitmapBytes (readBitmap bs) = bs := by
  have fits : readLE bs < 2 ^ 256 := by simpa [width] using readLE_lt bs
  rw [bitmapBytes, readBitmap, BitVec.toNat_ofNat, Nat.mod_eq_of_lt fits, ← width, leBytes_readLE]

theorem readTerminal_eq_ok {rem rest : Bytes} {tag : UInt8} :
    readTerminal bitmap tag rem = .ok (terminal, rest) ↔ tag :: rem = terminal.toBytes ++ rest := by
  constructor
  · intro read
    rw [readTerminal] at read
    split_ifs at read with isFull isCollapsed isOther
    · cases read
      rw [isFull]
      rfl
    · split at read
      · cases read
      next depth later found =>
        cases read
        rw [isCollapsed, Reader.byte_eq_some.mp found]
        rfl
    · split at read
      · cases read
      next depth keyAndHash found =>
        split at read
        · cases read
        next laneKey hashBytes foundKey =>
          split at read
          · cases read
          next leafHash later foundHash =>
            cases read
            obtain ⟨keyWidth, rfl⟩ := Reader.array_eq_some.mp foundKey
            obtain ⟨hashWidth, rfl⟩ := Reader.array_eq_some.mp foundHash
            rw [isOther, Reader.byte_eq_some.mp found, ProofTerminal.toBytes, Hash.asBytes_fromBytes keyWidth,
              Hash.asBytes_fromBytes hashWidth]
            simp
    · obtain ⟨expected, -, never⟩ := Outcome.bind_eq_ok.mp read
      cases never
  · intro spelt
    cases terminal with
    | full =>
      cases spelt
      rfl
    | collapsed depth =>
      cases spelt
      rfl
    | collapsedOther depth leaf =>
      simp only [ProofTerminal.toBytes, List.cons_append, List.nil_append, List.append_assoc, List.cons.injEq] at spelt
      obtain ⟨rfl, rfl⟩ := spelt
      have key : Reader.array 32 (leaf.laneKey.asBytes ++ (leaf.leafHash.asBytes ++ rest)) =
          some (leaf.laneKey.asBytes, leaf.leafHash.asBytes ++ rest) :=
        Reader.array_eq_some.mpr ⟨Hash.asBytes_length _, rfl⟩
      have hash : Reader.array 32 (leaf.leafHash.asBytes ++ rest) = some (leaf.leafHash.asBytes, rest) :=
        Reader.array_eq_some.mpr ⟨Hash.asBytes_length _, rfl⟩
      simp only [readTerminal, Reader.byte, key, hash, Hash.fromBytes_asBytes]
      rfl

theorem readSiblings_eq_ok {bitmap : BitVec 256} {siblings : List Hash} :
    readSiblings bitmap terminal bs = .ok siblings ↔
      bs = siblings.flatMap Hash.asBytes ∧ siblings.length = bitmapClearCountBefore bitmap terminal := by
  simp only [readSiblings, asChunks, pieces_length]
  constructor
  · intro read
    split at read
    · cases read
    next left =>
      split at read
      · cases read
      next right =>
        cases read
        rw [ne_eq, not_not, List.drop_eq_nil_iff] at left
        have long : bs.length / 32 * 32 ≤ bs.length := Nat.div_mul_le_self _ _
        refine ⟨?_, by rw [List.length_map, pieces_length]; exact not_not.mp right⟩
        rw [flatMap_map_pieces fun piece member => Hash.asBytes_fromBytes (length_of_mem_pieces long member)]
        exact (List.take_of_length_le left).symm
  · rintro ⟨rfl, count⟩
    have chunks : (siblings.flatMap Hash.asBytes).length / 32 = siblings.length := by
      rw [flatMap_length Hash.asBytes_length, Nat.mul_div_cancel _ (by decide)]
    have cut := pieces_flatMap Hash.asBytes_length siblings []
    rw [List.append_nil] at cut
    have whole : List.drop (siblings.length * 32) (siblings.flatMap Hash.asBytes) = [] := by
      rw [List.drop_eq_nil_iff, flatMap_length Hash.asBytes_length]
    rw [chunks, whole, cut, if_neg (not_not.mpr rfl), if_neg (not_not.mpr count), List.map_map]
    simp [Function.comp_def, Hash.fromBytes_asBytes]

/-! ## No panics -/

theorem countOnes_le (b : UInt8) : countOnes b ≤ 8 := by
  have few := List.length_filter_le (fun i => b.toNat.testBit i) (List.range 8)
  rwa [List.length_range] at few

theorem bitmapClearCount_eq_ok (width : bitmap.length = 32) : ∃ count, bitmapClearCount bitmap = .ok count := by
  have few : (bitmap.map countOnes).sum ≤ bitmap.length * 8 := by
    clear width
    induction bitmap with
    | nil => simp
    | cons b rest ih =>
      have first := countOnes_le b
      simp only [List.map_cons, List.sum_cons, List.length_cons]
      omega
  rw [bitmapClearCount, if_neg (by omega)]
  exact ⟨_, rfl⟩

/-- A value or the one rule error there is. -/
def Answers {α : Type} (outcome : Outcome SmtProofError α) : Prop :=
  (∃ a, outcome = .ok a) ∨ ∃ expected actual, outcome = Outcome.reject (.siblingCountMismatch expected actual)

theorem answers_mismatch (expected actual : Nat) : Answers (mismatch expected actual : Outcome _ α) :=
  .inr ⟨expected, actual, rfl⟩

theorem answers_bind {β : Type} {first : Outcome SmtProofError α} {later : α → Outcome SmtProofError β}
    (answers : Answers first) (rest : ∀ a, first = .ok a → Answers (later a)) : Answers (first >>= later) := by
  rcases answers with ⟨a, found⟩ | ⟨expected, actual, wrong⟩
  · have last := rest a found
    rw [found]
    exact last
  · rw [wrong]
    exact .inr ⟨expected, actual, rfl⟩

theorem answers_readTerminal (width : bitmap.length = 32) (tag : UInt8) (rem : Bytes) :
    Answers (readTerminal bitmap tag rem) := by
  rw [readTerminal]
  split_ifs
  · exact .inl ⟨_, rfl⟩
  · split
    · exact answers_mismatch 0 0
    · exact .inl ⟨_, rfl⟩
  · split
    · exact answers_mismatch 0 0
    · split
      · exact answers_mismatch 0 0
      · split
        · exact answers_mismatch 0 0
        · exact .inl ⟨_, rfl⟩
  · exact answers_bind (.inl (bitmapClearCount_eq_ok width)) fun expected _ => answers_mismatch expected _

theorem answers_readSiblings (bitmap : BitVec 256) (terminal : ProofTerminal) (bs : Bytes) :
    Answers (readSiblings bitmap terminal bs) := by
  simp only [readSiblings]
  split_ifs
  · exact answers_mismatch _ _
  · exact answers_mismatch _ _
  · exact .inl ⟨_, rfl⟩

theorem answers_fromBytes (data : Bytes) : Answers (SmtProof.fromBytes data) := by
  rw [SmtProof.fromBytes]
  split
  · exact answers_mismatch 0 0
  next bitmap rem found =>
    have width := (Reader.array_eq_some.mp found).1
    split
    · exact answers_bind (.inl (bitmapClearCount_eq_ok width)) fun expected _ => answers_mismatch expected 0
    next tag rem' _ =>
      refine answers_bind (answers_readTerminal width tag rem') fun ending _ => ?_
      exact answers_bind (answers_readSiblings _ _ _) fun siblings _ => .inl ⟨_, rfl⟩

/-! ## Round trips -/

theorem toBytes_of_fromBytes {data : Bytes} (read : SmtProof.fromBytes data = .ok proof) :
    proof.toBytes = data ∧ proof.siblings.length = bitmapClearCountBefore proof.bitmap proof.terminal := by
  rw [SmtProof.fromBytes] at read
  split at read
  · cases read
  next bitmap rem found =>
    obtain ⟨width, rfl⟩ := Reader.array_eq_some.mp found
    split at read
    · obtain ⟨expected, -, never⟩ := Outcome.bind_eq_ok.mp read
      cases never
    next tag later foundTag =>
      obtain ⟨⟨terminal, siblingBytes⟩, ending, readRest⟩ := Outcome.bind_eq_ok.mp read
      obtain ⟨siblings, counted, done⟩ := Outcome.bind_eq_ok.mp readRest
      cases done
      obtain ⟨rfl, count⟩ := readSiblings_eq_ok.mp counted
      refine ⟨?_, count⟩
      rw [SmtProof.toBytes, bitmapBytes_readBitmap width, List.append_assoc, ← readTerminal_eq_ok.mp ending,
        Reader.byte_eq_some.mp foundTag]

theorem fromBytes_toBytes (count : proof.siblings.length = bitmapClearCountBefore proof.bitmap proof.terminal) :
    SmtProof.fromBytes proof.toBytes = .ok proof := by
  -- every ending starts with a tag
  obtain ⟨tag, payload, spelt⟩ : ∃ tag payload, proof.terminal.toBytes = tag :: payload := by
    cases proof.terminal <;> exact ⟨_, _, rfl⟩
  have bitmap : Reader.array 32 proof.toBytes =
      some (bitmapBytes proof.bitmap, tag :: (payload ++ proof.siblings.flatMap Hash.asBytes)) := by
    refine Reader.array_eq_some.mpr ⟨leBytes_length .., ?_⟩
    rw [SmtProof.toBytes, spelt, List.append_assoc, List.cons_append]
  have ending : readTerminal (bitmapBytes proof.bitmap) tag (payload ++ proof.siblings.flatMap Hash.asBytes) =
      .ok (proof.terminal, proof.siblings.flatMap Hash.asBytes) := by
    rw [readTerminal_eq_ok, spelt, List.cons_append]
  have siblings := readSiblings_eq_ok.mpr ⟨rfl, count⟩
  simp only [SmtProof.fromBytes, bitmap, Reader.byte, ending, readBitmap_bitmapBytes]
  change (readSiblings proof.bitmap proof.terminal (proof.siblings.flatMap Hash.asBytes) >>= _) = _
  rw [siblings]
  rfl

/-- The bytes that are read as a proof are the bytes the proof is written as, for exactly the proofs with the
number of siblings that their bitmap and ending call for. Any other bytes are rejected. -/
theorem fromBytes_iff_toBytes (data : Bytes) :
    (∀ proof, SmtProof.fromBytes data = .ok proof ↔
      proof.toBytes = data ∧ proof.siblings.length = bitmapClearCountBefore proof.bitmap proof.terminal) ∧
    ((∃ proof, SmtProof.fromBytes data = .ok proof) ∨ ∃ expected actual,
      SmtProof.fromBytes data = Outcome.reject (.siblingCountMismatch expected actual)) := by
  refine ⟨fun proof => ⟨toBytes_of_fromBytes, ?_⟩, answers_fromBytes data⟩
  rintro ⟨rfl, count⟩
  exact fromBytes_toBytes count

end Marigold.Smt
