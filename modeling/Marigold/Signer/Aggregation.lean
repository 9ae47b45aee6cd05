import Marigold.Lib.Table
import Marigold.Signer.Cadence

/-!
# Aggregation of partial attestations

`record_partial` and `try_submit` of `trustee-signer/src/lib.rs`: attestations of the trustees are kept
by what they certify, and a quorum for one block and score is assembled into an anchor.
-/

namespace Marigold.Signer

open Lib NotePool Finality

/-- What an attestation certifies: a block and its score. -/
abbrev Target := Hash × UInt64

def PartialAttestation.target (p : PartialAttestation) : Target :=
  (p.attestation.anchoredBlock, p.attestation.anchoredDaaScore)

/-- The part of `TrusteeSigner` that aggregates. -/
structure Aggregator where
  partials : Map Target (Map UInt8 Signature)
  lastSubmittedScore : UInt64

def Aggregator.new : Aggregator := ⟨∅, 0⟩

/-- The index is one of a trustee's and, with the keys configured, the signature is the trustee's. -/
def acceptsPartial (C : AnchorCrypto) (trusteeKeys : Option TrusteeKeys) (p : PartialAttestation) : Bool :=
  if inRange : p.trusteeIndex.toNat < trusteeCount then
    match trusteeKeys with
    | none => true
    | some keys =>
      let key := keys ⟨p.trusteeIndex.toNat, inRange⟩
      C.validKey key && C.verify p.attestation.signature (signingHash C p.target.1 p.target.2) key
  else false

def recordPartial (C : AnchorCrypto) (trusteeKeys : Option TrusteeKeys) (agg : Aggregator)
    (p : PartialAttestation) : Aggregator :=
  if acceptsPartial C trusteeKeys p then
    let bucket := (agg.partials.lookup p.target).getD ∅
    ⟨agg.partials.insert p.target (bucket.insert p.trusteeIndex p.attestation.signature), agg.lastSubmittedScore⟩
  else agg

abbrev Bucket := Target × Map UInt8 Signature

/-- `max_by_key` of the score: of several greatest the last. -/
def maxByScore (rows : List Bucket) : Option Bucket :=
  rows.foldl (fun best row =>
    match best with
    | none => some row
    | some best => if best.1.2 ≤ row.1.2 then some row else some best) none

/-- Signatures in the order of the trustees. -/
def assembleAnchor (bucket : Bucket) : FinalityAnchor where
  anchoredBlock := bucket.1.1
  anchoredDaaScore := bucket.1.2
  signerBitmap := bucket.2.rows.foldl (fun bitmap row => bitmap ||| ((1 : UInt8) <<< row.1)) 0
  signatures := bucket.2.rows.map Prod.snd

/-- The node's answer to the transaction; of an error only whether its text has "already" in it. -/
inductive SubmitAnswer where
  | accepted
  | refused (already : Bool)
  deriving DecidableEq, Repr

/-- The buckets an anchor can be assembled from. -/
def Aggregator.eligible (agg : Aggregator) (bucket : Bucket) : Bool :=
  agg.lastSubmittedScore < bucket.1.2 && anchorQuorum ≤ bucket.2.entries.length

/-- `try_submit` with the buckets in the order the hash map lists them: the anchor that is assembled and
sent, and the state afterwards. -/
def trySubmit (agg : Aggregator) (listing : List Bucket) (answer : SubmitAnswer) : Option FinalityAnchor × Aggregator :=
  match maxByScore (listing.filter agg.eligible) with
  | none => (none, agg)
  | some bucket =>
    let score := bucket.1.2
    let done : Aggregator := ⟨agg.partials.retain fun target => score < target.2, score⟩
    (some (assembleAnchor bucket),
      match answer with
      | .accepted => done
      | .refused true => done
      | .refused false => agg)

/-! ## Runs -/

/-- The attestations recorded and not dropped since, beside the state of the signer. Partials come from
peers or from the signer itself; the node answers as it likes. -/
inductive Reached (C : AnchorCrypto) (keys : TrusteeKeys) : Aggregator → Set (Target × UInt8) → Prop
  | start : Reached C keys .new ∅
  | received {agg : Aggregator} {recorded : Set (Target × UInt8)} (before : Reached C keys agg recorded)
    (p : PartialAttestation) :
    Reached C keys (recordPartial C (some keys) agg p)
      (recorded ∪ {r | acceptsPartial C (some keys) p ∧ r = (p.target, p.trusteeIndex)})
  | submitted {agg : Aggregator} {recorded : Set (Target × UInt8)} (before : Reached C keys agg recorded)
    {listing : List Bucket} (listed : listing.Perm agg.partials.pairs) (answer : SubmitAnswer) :
    Reached C keys (trySubmit agg listing answer).2 {r ∈ recorded | r.1 ∈ (trySubmit agg listing answer).2.partials}

/-- A signature that verifies under the trustee's key. -/
def ValidEntry (C : AnchorCrypto) (keys : TrusteeKeys) (target : Target) (index : UInt8)
    (signature : Signature) : Prop :=
  ∃ inRange : index.toNat < trusteeCount, C.validKey (keys ⟨index.toNat, inRange⟩) ∧
    C.verify signature (signingHash C target.1 target.2) (keys ⟨index.toNat, inRange⟩)

/-- The signature kept for a target and a trustee. -/
def Aggregator.signature (agg : Aggregator) (target : Target) (index : UInt8) : Option Signature :=
  (agg.partials.lookup target).bind fun sigs => sigs.lookup index

/-- The buckets hold just what is recorded, and only valid signatures. -/
structure Consistent (C : AnchorCrypto) (keys : TrusteeKeys) (agg : Aggregator)
    (recorded : Set (Target × UInt8)) : Prop where
  exact : ∀ target index, (agg.signature target index).isSome ↔ (target, index) ∈ recorded
  valid : ∀ target index signature, agg.signature target index = some signature →
    ValidEntry C keys target index signature

section Run

variable {C : AnchorCrypto} {keys : TrusteeKeys} {agg : Aggregator} {recorded : Set (Target × UInt8)}

theorem validEntry_of_accepts {p : PartialAttestation} (accepted : acceptsPartial C (some keys) p) :
    ValidEntry C keys p.target p.trusteeIndex p.attestation.signature := by
  unfold acceptsPartial at accepted
  split at accepted
  next inRange =>
    simp only [Bool.and_eq_true] at accepted
    exact ⟨inRange, accepted⟩
  · cases accepted

theorem signature_recordPartial {p : PartialAttestation} (accepted : acceptsPartial C (some keys) p)
    (target : Target) (index : UInt8) :
    (recordPartial C (some keys) agg p).signature target index =
      if target = p.target ∧ index = p.trusteeIndex then some p.attestation.signature
      else agg.signature target index := by
  rw [recordPartial, if_pos accepted, Aggregator.signature, Map.lookup_insert_eq]
  by_cases here : target = p.target
  · subst here
    simp only [if_true, Option.bind_some, true_and, Map.lookup_insert_eq]
    split
    · rfl
    · rw [Aggregator.signature]
      cases agg.partials.lookup p.target <;> rfl
  · simp [here, Aggregator.signature]

theorem Consistent.received (consistent : Consistent C keys agg recorded) (p : PartialAttestation) :
    Consistent C keys (recordPartial C (some keys) agg p)
      (recorded ∪ {r | acceptsPartial C (some keys) p ∧ r = (p.target, p.trusteeIndex)}) := by
  by_cases accepted : acceptsPartial C (some keys) p
  · constructor
    · intro target index
      rw [signature_recordPartial accepted, Set.mem_union, ← consistent.exact]
      by_cases here : target = p.target ∧ index = p.trusteeIndex
      · simp [here, accepted]
      · simp [here]
    · intro target index signature found
      rw [signature_recordPartial accepted] at found
      split at found
      next here =>
        obtain ⟨rfl, rfl⟩ := here
        cases found
        exact validEntry_of_accepts accepted
      · exact consistent.valid target index signature found
  · have same : recorded ∪ {r | acceptsPartial C (some keys) p ∧ r = (p.target, p.trusteeIndex)} =
        recorded := by simp [accepted]
    rw [recordPartial, if_neg accepted, same]
    exact consistent

theorem trySubmit_state (agg : Aggregator) (listing : List Bucket) (answer : SubmitAnswer) :
    (trySubmit agg listing answer).2 = agg ∨
      ∃ score, (trySubmit agg listing answer).2 = ⟨agg.partials.retain fun target => score < target.2, score⟩ := by
  unfold trySubmit
  cases maxByScore (listing.filter agg.eligible) with
  | none => exact .inl rfl
  | some bucket =>
    cases answer with
    | accepted => exact .inr ⟨bucket.1.2, rfl⟩
    | refused already =>
      cases already with
      | true => exact .inr ⟨bucket.1.2, rfl⟩
      | false => exact .inl rfl

theorem Consistent.dropping (consistent : Consistent C keys agg recorded) {agg' : Aggregator}
    (rest : ∀ target, agg'.partials.lookup target = none ∨ agg'.partials.lookup target = agg.partials.lookup target) :
    Consistent C keys agg' {r ∈ recorded | r.1 ∈ agg'.partials} := by
  constructor
  · intro target index
    rw [Set.mem_ofPred_eq, ← consistent.exact, Aggregator.signature, ← AList.lookup_isSome]
    rcases rest target with dropped | kept
    · simp [dropped]
    · rw [kept, Aggregator.signature]
      cases agg.partials.lookup target <;> simp
  · intro target index signature found
    rw [Aggregator.signature] at found
    rcases rest target with dropped | kept
    · rw [dropped] at found
      cases found
    · rw [kept] at found
      exact consistent.valid target index signature found

theorem Consistent.submitted (consistent : Consistent C keys agg recorded) (listing : List Bucket)
    (answer : SubmitAnswer) :
    Consistent C keys (trySubmit agg listing answer).2
      {r ∈ recorded | r.1 ∈ (trySubmit agg listing answer).2.partials} := by
  refine consistent.dropping fun target => ?_
  rcases trySubmit_state agg listing answer with same | ⟨score, dropped⟩
  · exact .inr (by rw [same])
  · rw [dropped, Map.lookup_retain]
    split
    · exact .inr rfl
    · exact .inl rfl

theorem Reached.consistent (reached : Reached C keys agg recorded) : Consistent C keys agg recorded := by
  induction reached with
  | start =>
    exact ⟨fun _ _ => by simp [Aggregator.signature, Aggregator.new], fun _ _ _ found => nomatch found⟩
  | received _ p ih => exact ih.received p
  | submitted _ _ answer ih => exact ih.submitted _ answer

end Run

/-! ## The choice of a bucket -/

theorem maxByScore_concat (rows : List Bucket) (row : Bucket) : maxByScore (rows ++ [row]) =
      match maxByScore rows with
      | none => some row
      | some best => if best.1.2 ≤ row.1.2 then some row else some best := by
  rw [maxByScore, List.foldl_append]
  rfl

theorem maxByScore_spec (rows : List Bucket) : (rows = [] ∧ maxByScore rows = none) ∨
      ∃ best ∈ rows, maxByScore rows = some best ∧ ∀ row ∈ rows, row.1.2 ≤ best.1.2 := by
  induction rows using List.reverseRecOn with
  | nil => exact .inl ⟨rfl, rfl⟩
  | append_singleton rows row ih =>
    right
    rw [maxByScore_concat]
    rcases ih with ⟨rfl, none'⟩ | ⟨best, member, found, greatest⟩
    · exact ⟨row, by simp, by rw [none'], by simp⟩
    · rw [found]
      by_cases above : best.1.2 ≤ row.1.2
      · refine ⟨row, by simp, if_pos above, fun other there => ?_⟩
        rcases List.mem_append.mp there with earlier | last
        · exact UInt64.le_trans (greatest other earlier) above
        · rw [List.mem_singleton.mp last]
          exact UInt64.le_refl _
      · refine ⟨best, List.mem_append_left _ member, if_neg above, fun other there => ?_⟩
        rcases List.mem_append.mp there with earlier | last
        · exact greatest other earlier
        · rw [List.mem_singleton.mp last]
          exact UInt64.le_of_lt (UInt64.not_le.mp above)

/-! ## The assembled anchor -/

section Assembly

variable {sigs : Map UInt8 Signature}

theorem toNat_bit {index : UInt8} (inRange : index.toNat < trusteeCount) :
    ((1 : UInt8) <<< index).toNat = 2 ^ index.toNat := by
  have every : ∀ k : Fin 256, k.val < trusteeCount → ((1 : UInt8) <<< UInt8.ofNat k.val).toNat = 2 ^ k.val := by
    decide +kernel
  have here := every ⟨index.toNat, index.toNat_lt⟩ inRange
  rwa [UInt8.ofNat_toNat] at here

theorem testBit_bitmap {rows : List (UInt8 × Signature)}
    (inRange : ∀ row ∈ rows, row.1.toNat < trusteeCount) (start : UInt8) (i : Nat) :
    (rows.foldl (fun bitmap row => bitmap ||| ((1 : UInt8) <<< row.1)) start).toNat.testBit i =
      (start.toNat.testBit i || decide (i ∈ rows.map fun row => row.1.toNat)) := by
  induction rows generalizing start with
  | nil => simp
  | cons row rest ih =>
    rw [List.forall_mem_cons] at inRange
    rw [List.foldl_cons, ih inRange.2, UInt8.toNat_or, Nat.testBit_or, toNat_bit inRange.1,
      Nat.testBit_two_pow, Bool.or_assoc, ← Bool.decide_or]
    congr 1
    simp only [List.map_cons, List.mem_cons, eq_comm]

theorem rows_toNat_ascending (sigs : Map UInt8 Signature) :
    (sigs.rows.map fun row => row.1.toNat).Pairwise (· < ·) := by
  have distinct := List.pairwise_map.mp sigs.nodup_rows
  refine List.pairwise_map.mpr ((sigs.pairwise_rows.and distinct).imp fun {a b} both => ?_)
  exact Nat.lt_of_le_of_ne (UInt8.le_iff_toNat_le.mp both.1) fun same => both.2 (UInt8.toNat_inj.mp same)

theorem bitmapSigners_assembled (target : Target) (inRange : ∀ row ∈ sigs.rows, row.1.toNat < trusteeCount) :
    (bitmapSigners (assembleAnchor (target, sigs)).signerBitmap).map Fin.val =
      sigs.rows.map fun row => row.1.toNat := by
  have bits : ∀ i, (assembleAnchor (target, sigs)).signerBitmap.toNat.testBit i =
      decide (i ∈ sigs.rows.map fun row => row.1.toNat) := by
    intro i
    rw [assembleAnchor, testBit_bitmap inRange]
    simp
  have ascending : ((bitmapSigners (assembleAnchor (target, sigs)).signerBitmap).map Fin.val).Pairwise
      (· < ·) := List.pairwise_map.mpr ((List.pairwise_lt_finRange trusteeCount).filter _)
  have members : ∀ i, i ∈ (bitmapSigners (assembleAnchor (target, sigs)).signerBitmap).map Fin.val ↔
      i ∈ sigs.rows.map fun row => row.1.toNat := by
    intro i
    simp only [bitmapSigners, List.mem_map, List.mem_filter, List.mem_finRange, true_and, bits, decide_eq_true_eq]
    constructor
    · rintro ⟨trustee, there, rfl⟩
      exact there
    · rintro ⟨row, there, rfl⟩
      exact ⟨⟨row.1.toNat, inRange row there⟩, ⟨row, there, rfl⟩, rfl⟩
  have distinct := ascending.imp fun {a b} (less : a < b) => Nat.ne_of_lt less
  have distinct' := (rows_toNat_ascending sigs).imp fun {a b} (less : a < b) => Nat.ne_of_lt less
  have perm := (List.perm_ext_iff_of_nodup distinct distinct').mpr members
  exact perm.eq_of_pairwise (fun a b _ _ less greater => absurd less (Nat.lt_asymm greater)) ascending
    (rows_toNat_ascending sigs)

theorem rows_length (sigs : Map UInt8 Signature) : sigs.rows.length = sigs.entries.length := by
  rw [Map.rows, List.length_insertionSort, Map.pairs, List.length_map]

theorem bitmap_inRange (target : Target) (inRange : ∀ row ∈ sigs.rows, row.1.toNat < trusteeCount) :
    (assembleAnchor (target, sigs)).signerBitmap.toNat >>> trusteeCount = 0 := by
  refine Nat.eq_of_testBit_eq fun i => ?_
  rw [Nat.testBit_shiftRight, assembleAnchor, testBit_bitmap inRange]
  have beyond : trusteeCount + i ∉ sigs.rows.map fun row => row.1.toNat := by
    intro there
    obtain ⟨row, member, same⟩ := List.mem_map.mp there
    have inside := inRange row member
    omega
  simp [beyond]

theorem zip_of_map_eq {rows : List (UInt8 × Signature)} {signers : List (Fin trusteeCount)}
    (same : signers.map Fin.val = rows.map fun row => row.1.toNat)
    {pair : Signature × Fin trusteeCount} (member : pair ∈ (rows.map Prod.snd).zip signers) :
    ∃ row ∈ rows, row.2 = pair.1 ∧ pair.2.val = row.1.toNat := by
  induction rows generalizing signers with
  | nil => cases member
  | cons row rest ih =>
    cases signers with
    | nil => cases same
    | cons signer signers =>
      rw [List.map_cons, List.map_cons, List.cons.injEq] at same
      rcases List.mem_cons.mp member with rfl | later
      · exact ⟨row, .head _, rfl, same.1⟩
      · obtain ⟨row', there, both⟩ := ih same.2 later
        exact ⟨row', .tail _ there, both⟩

theorem assembleAnchor_verified {C : AnchorCrypto} {keys : TrusteeKeys} {target : Target}
    (valid : ∀ index signature, sigs.lookup index = some signature → ValidEntry C keys target index signature)
    (quorum : anchorQuorum ≤ sigs.entries.length) : validateAnchorShape (assembleAnchor (target, sigs)) = .ok () ∧
      verifyAnchor C (assembleAnchor (target, sigs)) keys = .ok () := by
  have inRange : ∀ row ∈ sigs.rows, row.1.toNat < trusteeCount := by
    rintro ⟨index, signature⟩ member
    exact (valid index signature (Map.mem_rows.mp member)).1
  have signers := bitmapSigners_assembled target inRange
  have small := bitmap_inRange target inRange
  have count : countOnes (assembleAnchor (target, sigs)).signerBitmap = sigs.rows.length := by
    rw [← bitmapSigners_length small, ← List.length_map Fin.val, signers, List.length_map]
  have shape : validateAnchorShape (assembleAnchor (target, sigs)) = .ok () := by
    rw [← rows_length] at quorum
    have signatures : (assembleAnchor (target, sigs)).signatures.length = sigs.rows.length :=
      List.length_map _
    rw [validateAnchorShape, if_neg (not_not.mpr small), count, signatures, if_neg (not_not.mpr rfl),
      if_neg (not_lt.mpr quorum)]
  refine ⟨shape, ?_⟩
  rw [verifyAnchor, shape]
  refine verifyAll_eq_ok.mpr fun pair member => ?_
  obtain ⟨row, there, signature, index⟩ := zip_of_map_eq signers member
  obtain ⟨inside, verifies⟩ := valid row.1 row.2 (Map.mem_rows.mp there)
  have same : pair.2 = ⟨row.1.toNat, inside⟩ := Fin.ext index
  rw [same, ← signature]
  exact verifies

end Assembly

/-! ## Submissions -/

section Submissions

variable {C : AnchorCrypto} {keys : TrusteeKeys} {agg : Aggregator} {recorded : Set (Target × UInt8)}
  {listing : List Bucket}

theorem mem_listing (listed : listing.Perm agg.partials.pairs) {bucket : Bucket} :
    bucket ∈ listing ↔ agg.partials.lookup bucket.1 = some bucket.2 := by
  rw [listed.mem_iff]
  exact Map.mem_pairs

theorem Consistent.bucket (consistent : Consistent C keys agg recorded) {target : Target}
    {trustees : Finset UInt8} (quorum : anchorQuorum ≤ trustees.card)
    (all : ∀ index ∈ trustees, (target, index) ∈ recorded) :
    ∃ sigs, agg.partials.lookup target = some sigs ∧ anchorQuorum ≤ sigs.entries.length := by
  have held : ∀ index ∈ trustees, (agg.signature target index).isSome := fun index member =>
    (consistent.exact target index).mpr (all index member)
  cases found : agg.partials.lookup target with
  | none =>
    have some' : trustees.Nonempty := Finset.card_pos.mp (lt_of_lt_of_le (by decide) quorum)
    obtain ⟨index, member⟩ := some'
    have here := held index member
    simp [Aggregator.signature, found] at here
  | some sigs =>
    refine ⟨sigs, rfl, le_trans quorum ?_⟩
    have subset : trustees ⊆ sigs.keys.toFinset := by
      intro index member
      have here := held index member
      rw [Aggregator.signature, found, Option.bind_some, AList.lookup_isSome] at here
      exact List.mem_toFinset.mpr here
    calc trustees.card ≤ sigs.keys.toFinset.card := Finset.card_le_card subset
      _ ≤ sigs.keys.length := List.toFinset_card_le _
      _ = sigs.entries.length := List.length_map _

theorem trySubmit_anchor (agg : Aggregator) (listing : List Bucket) (answer : SubmitAnswer) :
    (trySubmit agg listing answer).1 = (maxByScore (listing.filter agg.eligible)).map assembleAnchor := by
  unfold trySubmit
  cases maxByScore (listing.filter agg.eligible) <;> rfl

theorem eligible_iff {bucket : Bucket} : agg.eligible bucket ↔
    agg.lastSubmittedScore < bucket.1.2 ∧ anchorQuorum ≤ bucket.2.entries.length := by
  simp [Aggregator.eligible]

theorem chosen_spec {best : Bucket} (chosen : maxByScore (listing.filter agg.eligible) = some best) :
    best ∈ listing ∧ agg.eligible best ∧ ∀ row ∈ listing, agg.eligible row → row.1.2 ≤ best.1.2 := by
  rcases maxByScore_spec (listing.filter agg.eligible) with ⟨-, none'⟩ | ⟨best', member, found, greatest⟩
  · cases none'.symm.trans chosen
  · cases found.symm.trans chosen
    obtain ⟨there, eligible⟩ := List.mem_filter.mp member
    exact ⟨there, eligible, fun row listed passes => greatest row (List.mem_filter.mpr ⟨listed, passes⟩)⟩

theorem Consistent.keys_recorded (consistent : Consistent C keys agg recorded) {bucket : Bucket}
    (found : agg.partials.lookup bucket.1 = some bucket.2) : bucket.2.keys.toFinset.card = bucket.2.entries.length ∧
      ∀ index ∈ bucket.2.keys.toFinset, (bucket.1, index) ∈ recorded := by
  refine ⟨?_, fun index member => ?_⟩
  · rw [List.toFinset_card_of_nodup bucket.2.keys_nodup]
    exact List.length_map _
  · rw [← consistent.exact, Aggregator.signature, found, Option.bind_some, AList.lookup_isSome]
    exact List.mem_toFinset.mp member

/-- Every anchor that is assembled verifies. If valid attestations of a quorum for a target are recorded
and not dropped, and its score is above the last one submitted, the next attempt assembles an anchor of at
least that score, and for the target itself if no other quorum stands for a score as high. -/
theorem trySubmit_sound_live (reached : Reached C keys agg recorded)
    (listed : listing.Perm agg.partials.pairs) (answer : SubmitAnswer) :
    (∀ anchor, (trySubmit agg listing answer).1 = some anchor →
      validateAnchorShape anchor = .ok () ∧ verifyAnchor C anchor keys = .ok ()) ∧
    ∀ (target : Target) (trustees : Finset UInt8), anchorQuorum ≤ trustees.card →
      (∀ index ∈ trustees, (target, index) ∈ recorded) → agg.lastSubmittedScore < target.2 →
      ∃ anchor, (trySubmit agg listing answer).1 = some anchor ∧ target.2 ≤ anchor.anchoredDaaScore ∧
        ((∀ (other : Target) (others : Finset UInt8), other ≠ target → anchorQuorum ≤ others.card →
          (∀ index ∈ others, (other, index) ∈ recorded) → other.2 < target.2) →
          (anchor.anchoredBlock, anchor.anchoredDaaScore) = target) := by
  have consistent := reached.consistent
  rw [trySubmit_anchor]
  constructor
  · intro anchor assembled
    obtain ⟨best, chosen, rfl⟩ := Option.map_eq_some_iff.mp assembled
    obtain ⟨there, eligible, -⟩ := chosen_spec chosen
    refine assembleAnchor_verified (fun index signature found => ?_) (eligible_iff.mp eligible).2
    refine consistent.valid best.1 index signature ?_
    rw [Aggregator.signature, (mem_listing listed).mp there]
    exact found
  · intro target trustees quorum all above
    obtain ⟨sigs, found, enough⟩ := consistent.bucket quorum all
    have there : (target, sigs) ∈ listing := (mem_listing listed).mpr found
    have eligible : agg.eligible (target, sigs) := eligible_iff.mpr ⟨above, enough⟩
    rcases maxByScore_spec (listing.filter agg.eligible) with ⟨empty, -⟩ | ⟨best, -, chosen, -⟩
    · have member := List.mem_filter.mpr ⟨there, eligible⟩
      rw [empty] at member
      cases member
    · obtain ⟨bestThere, bestEligible, greatest⟩ := chosen_spec chosen
      refine ⟨assembleAnchor best, by rw [chosen]; rfl, greatest _ there eligible, fun unrivalled => ?_⟩
      by_contra other
      obtain ⟨card, signers⟩ := consistent.keys_recorded ((mem_listing listed).mp bestThere)
      have lower := unrivalled best.1 _ other (card ▸ (eligible_iff.mp bestEligible).2) signers
      exact UInt64.not_lt.mpr (greatest _ there eligible) lower

end Submissions

theorem Reached.receivedAll {C : AnchorCrypto} {keys : TrusteeKeys} {agg : Aggregator}
    {recorded : Set (Target × UInt8)} (reached : Reached C keys agg recorded) (ps : List PartialAttestation) :
    Reached C keys (ps.foldl (recordPartial C (some keys)) agg)
      (recorded ∪ {r | ∃ p ∈ ps, acceptsPartial C (some keys) p ∧ r = (p.target, p.trusteeIndex)}) := by
  induction ps generalizing agg recorded with
  | nil => simpa using reached
  | cons p rest ih =>
    have after := ih (reached.received p)
    have same : recorded ∪ {r | acceptsPartial C (some keys) p ∧ r = (p.target, p.trusteeIndex)} ∪
        {r | ∃ q ∈ rest, acceptsPartial C (some keys) q ∧ r = (q.target, q.trusteeIndex)} =
        recorded ∪ {r | ∃ q ∈ p :: rest, acceptsPartial C (some keys) q ∧ r = (q.target, q.trusteeIndex)} := by
      ext r
      simp [or_assoc]
    rwa [same] at after

namespace Sample

/-- Every signature verifies. -/
def anyCrypto : AnchorCrypto := ⟨fun _ => 0, fun _ => true, fun _ _ _ => true⟩

def anyKeys : TrusteeKeys := fun _ => 0

/-- Partials of the first three trustees. -/
def threePartials (block : Hash) (score : UInt64) : List PartialAttestation :=
  [0, 1, 2].map fun index => ⟨index, ⟨block, score, 5⟩⟩

def threeTrustees : Finset UInt8 := {0, 1, 2}

def firstQuorum : Aggregator :=
  (threePartials 1 100).foldl (recordPartial anyCrypto (some anyKeys)) .new

/-- The votes for `(block, score)` among the recorded attestations. -/
def votesFor (block : Hash) (score : UInt64) : Set (Target × UInt8) :=
  {r | ∃ p ∈ threePartials block score, acceptsPartial anyCrypto (some anyKeys) p ∧ r = (p.target, p.trusteeIndex)}

theorem mem_votesFor (block : Hash) (score : UInt64) {index : UInt8} (member : index ∈ threeTrustees) :
    ((block, score), index) ∈ votesFor block score := by
  refine ⟨⟨index, ⟨block, score, 5⟩⟩, ?_, ?_, rfl⟩
  · simp only [threeTrustees, Finset.mem_insert, Finset.mem_singleton] at member
    simp only [threePartials, List.map_cons, List.map_nil, List.mem_cons, PartialAttestation.mk.injEq, and_true]
    simpa using member
  · simp only [threeTrustees, Finset.mem_insert, Finset.mem_singleton] at member
    rcases member with rfl | rfl | rfl <;> rfl

theorem reached_firstQuorum : Reached anyCrypto anyKeys firstQuorum (∅ ∪ votesFor 1 100) :=
  Reached.start.receivedAll (threePartials 1 100)

/-- The first quorum is submitted, and then one stands for another block of a lower score. -/
def lateQuorum : Aggregator :=
  (threePartials 2 50).foldl (recordPartial anyCrypto (some anyKeys))
    (trySubmit firstQuorum firstQuorum.partials.pairs .accepted).2

end Sample

open Sample in
theorem trySubmit_sound_live_firstQuorum :
    ∃ anchor, (trySubmit firstQuorum firstQuorum.partials.pairs .accepted).1 = some anchor ∧
      verifyAnchor anyCrypto anchor anyKeys = .ok () ∧ 100 ≤ anchor.anchoredDaaScore := by
  obtain ⟨sound, live⟩ := trySubmit_sound_live reached_firstQuorum (List.Perm.refl _) .accepted
  obtain ⟨anchor, assembled, high, -⟩ := live (1, 100) threeTrustees (by decide)
    (fun index member => .inr (mem_votesFor 1 100 member)) (by decide)
  exact ⟨anchor, assembled, (sound anchor assembled).2, high⟩

open Sample in
/-- Three trustees' valid attestations are recorded and none is dropped, yet no attempt assembles their
anchor: one of a higher score was submitted before. -/
theorem trySubmit_skips_late_quorum : ∃ recorded,
    Reached anyCrypto anyKeys lateQuorum recorded ∧
      anchorQuorum ≤ threeTrustees.card ∧
      (∀ index ∈ threeTrustees, (((2, 50) : Target), index) ∈ recorded) ∧
      ∀ listing answer, listing.Perm lateQuorum.partials.pairs →
        trySubmit lateQuorum listing answer = (none, lateQuorum) := by
  refine ⟨_, (reached_firstQuorum.submitted (List.Perm.refl _) .accepted).receivedAll
    (threePartials 2 50), by decide, fun index member => .inr (mem_votesFor 2 50 member), ?_⟩
  intro listing answer listed
  have none' : listing.filter lateQuorum.eligible = [] := by
    refine List.filter_eq_nil_iff.mpr fun bucket member => ?_
    have all : ∀ bucket ∈ lateQuorum.partials.pairs, lateQuorum.eligible bucket = false := by
      decide +kernel
    rw [all bucket (listed.mem_iff.mp member)]
    exact Bool.false_ne_true
  rw [trySubmit, none']
  rfl

end Marigold.Signer
