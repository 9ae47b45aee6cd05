import Mathlib.Data.Fintype.Card
import Marigold.Finality.Interleaving
import Marigold.Signer.Cadence

/-!
# Accountability

Two quorums have a signer in common. When nodes adopt anchors of different blocks less than an interval apart, a
trustee can be convicted with the two anchors alone. While all trustees run their signers carefully there are none.
-/

namespace Marigold.Finality

open Lib NotePool

/-- Three of five trustees and another three of them share one. -/
theorem bitmapSigners_meet {bitmap bitmap' : UInt8} (quorum : anchorQuorum ≤ (bitmapSigners bitmap).length)
    (quorum' : anchorQuorum ≤ (bitmapSigners bitmap').length) :
    ∃ trustee ∈ bitmapSigners bitmap, trustee ∈ bitmapSigners bitmap' := by
  have cards (bitmap : UInt8) : (bitmapSigners bitmap).toFinset.card = (bitmapSigners bitmap).length :=
    List.toFinset_card_of_nodup ((List.nodup_finRange _).filter _)
  have more : (Finset.univ : Finset (Fin trusteeCount)).card <
      (bitmapSigners bitmap).toFinset.card + (bitmapSigners bitmap').toFinset.card := by
    rw [cards, cards, Finset.card_fin]
    have sizes : trusteeCount < anchorQuorum + anchorQuorum := by decide
    omega
  obtain ⟨trustee, member⟩ :=
    Finset.inter_nonempty_of_card_lt_card_add_card (Finset.subset_univ _) (Finset.subset_univ _) more
  rw [Finset.mem_inter, List.mem_toFinset, List.mem_toFinset] at member
  exact ⟨trustee, member⟩

section Nodes

variable {R : AnchorRules} {allowed allowed' : AnchorNode → Action → Prop} {node node' : AnchorNode}
  {a b : StoredAnchor}

/-- Some trustee has signed both anchors. -/
theorem Certified.common_signer (first : Certified R a) (second : Certified R b) :
    ∃ trustees trustee signature signature', R.params.trustees = some trustees ∧
      R.crypto.validKey (trustees trustee) = true ∧
      R.crypto.verify signature (signingHash R.crypto a.anchoredBlock a.anchoredDaaScore) (trustees trustee) = true ∧
      R.crypto.verify signature' (signingHash R.crypto b.anchoredBlock b.anchoredDaaScore) (trustees trustee) = true := by
  obtain ⟨anchor, ⟨trustees, given, verified⟩, rfl⟩ := first
  obtain ⟨anchor', ⟨trustees', given', verified'⟩, rfl⟩ := second
  obtain rfl := Option.some.inj (given.symm.trans given')
  obtain ⟨quorum, signed⟩ := verifyAnchor_signed verified
  obtain ⟨quorum', signed'⟩ := verifyAnchor_signed verified'
  obtain ⟨trustee, member, member'⟩ := bitmapSigners_meet quorum quorum'
  obtain ⟨signature, -, validKey, valid⟩ := signed trustee member
  obtain ⟨signature', -, -, valid'⟩ := signed' trustee member'
  exact ⟨trustees, trustee, signature, signature', given, validKey, valid, valid'⟩

/-- Verified evidence disqualifies the trustee in the chain of the block that accepts it. -/
theorem scanEvidence_denied {trustees : TrusteeKeys} {evidence : EquivocationEvidence}
    (verified : verifyEquivocationEvidence R.crypto evidence trustees R.params.cadenceInterval = .ok ())
    (view : DagView) (storedDeny : List DenyListEntry) (block : Hash) (scan : Scan) :
    (scanEvidence R trustees view storedDeny block scan evidence).denied view storedDeny block
      evidence.trusteeIndex = true := by
  simp only [scanEvidence, verified]
  split
  next denied => exact denied
  next => simp [Scan.denied]

/-- If the latest anchors of two nodes, after any runs, are of different blocks less than an interval apart,
a trustee's signatures of both are evidence that verifies and disqualifies the trustee where it is accepted. -/
theorem conflicting_anchors_slashable (run : Runs R allowed .fresh node)
    (run' : Runs R allowed' .fresh node') (latest : node.store.latest = some a)
    (latest' : node'.store.latest = some b) (blocks : a.anchoredBlock ≠ b.anchoredBlock)
    (close : absDiff a.anchoredDaaScore b.anchoredDaaScore <
      R.params.cadenceInterval (max a.anchoredDaaScore b.anchoredDaaScore)) :
    ∃ trustees evidence, R.params.trustees = some trustees ∧
      ⟨evidence.first.anchoredBlock, evidence.first.anchoredDaaScore⟩ = a ∧
      ⟨evidence.second.anchoredBlock, evidence.second.anchoredDaaScore⟩ = b ∧
      verifyEquivocationEvidence R.crypto evidence trustees R.params.cadenceInterval = .ok () ∧
      ∀ view storedDeny block scan,
        (scanEvidence R trustees view storedDeny block scan evidence).denied view storedDeny block
          evidence.trusteeIndex = true := by
  obtain ⟨trustees, trustee, signature, signature', given, validKey, valid, valid'⟩ :=
    ((run.sound fresh_sound).certified a latest).common_signer ((run'.sound fresh_sound).certified b latest')
  have index : (UInt8.ofNat trustee).toNat = trustee :=
    UInt8.toNat_ofNat_of_lt' (Nat.lt_trans trustee.isLt (by decide))
  have verified : verifyEquivocationEvidence R.crypto
      ⟨UInt8.ofNat trustee, ⟨a.anchoredBlock, a.anchoredDaaScore, signature⟩,
        ⟨b.anchoredBlock, b.anchoredDaaScore, signature'⟩⟩ trustees R.params.cadenceInterval = .ok () := by
    unfold verifyEquivocationEvidence
    simp only [index, trustee.isLt, dite_true]
    rw [if_neg blocks, if_neg (UInt64.not_le.mpr close)]
    exact Outcome.bind_eq_ok.mpr ⟨(), verifyOne_eq_ok.mpr ⟨validKey, valid⟩, verifyOne_eq_ok.mpr ⟨validKey, valid'⟩⟩
  exact ⟨trustees, _, given, rfl, rfl, verified, scanEvidence_denied verified⟩

/-- A careful run of a trustee's signer. -/
structure SignerRun where
  crypto : Signer.SignerCrypto
  config : Signer.SignerConfig
  file : Option Text
  actions : List Signer.Action
  careful : Signer.AllCareful crypto config (.fresh file) actions

def SignerRun.shared (run : SignerRun) : List Signer.PartialAttestation :=
  (Signer.performAll run.crypto run.config (.fresh run.file) run.actions).shared

/-- All trustees run their signers carefully, with at least the network's interval, and nothing
verifies under a trustee's key but what its signer has shared. -/
structure CarefulTrustees (R : AnchorRules) (trustees : TrusteeKeys) where
  run : Fin trusteeCount → SignerRun
  interval : ∀ i, R.params.launchInterval ≤ (run i).config.interval
  unforged : ∀ i block score signature,
    R.crypto.verify signature (signingHash R.crypto block score) (trustees i) = true →
      ∃ p ∈ (run i).shared, p.attestation.anchoredBlock = block ∧ p.attestation.anchoredDaaScore = score

/-- With careful trustees, the latest anchors of two nodes after any runs are the same or an interval apart. -/
theorem careful_trustees_agree {trustees : TrusteeKeys} (given : R.params.trustees = some trustees)
    (careful : CarefulTrustees R trustees) (run : Runs R allowed .fresh node)
    (run' : Runs R allowed' .fresh node') (latest : node.store.latest = some a) (latest' : node'.store.latest = some b)
    (close : absDiff a.anchoredDaaScore b.anchoredDaaScore < R.params.launchInterval) : a = b := by
  obtain ⟨trustees', trustee, signature, signature', given', -, valid, valid'⟩ :=
    ((run.sound fresh_sound).certified a latest).common_signer ((run'.sound fresh_sound).certified b latest')
  obtain rfl := Option.some.inj (given.symm.trans given')
  obtain ⟨p, isShared, block, score⟩ := careful.unforged trustee _ _ _ valid
  obtain ⟨q, isShared', block', score'⟩ := careful.unforged trustee _ _ _ valid'
  by_cases same : p = q
  · subst same
    obtain ⟨_, _⟩ := a
    obtain ⟨_, _⟩ := b
    exact congrArg₂ StoredAnchor.mk (block.symm.trans block') (score.symm.trans score')
  · have spaced := (Signer.fresh_spaced _ _ _).performAll (careful.run trustee).careful
    have far := UInt64.le_trans (careful.interval trustee) (spaced.gap isShared isShared' same)
    simp only [Signer.PartialAttestation.score, score, score'] at far
    exact absurd close (UInt64.not_lt.mpr far)

end Nodes

namespace Sample

/-- A node that takes an anchor, signed by the given trustees, for a block it knows at its score. -/
def adopts (R : AnchorRules) (block : Hash) (score : UInt64) (bitmap : UInt8) : AnchorNode :=
  gossipStep R .fresh { view [] with daaScore := fun _ => some score } ⟨block, score, bitmap, [0, 0, 0]⟩

theorem runs_adopts (R : AnchorRules) (block : Hash) (score : UInt64) (bitmap : UInt8) :
    Runs R (fun _ _ => True) .fresh (adopts R block score bitmap) := by
  have gossiped (view : DagView) (anchor : FinalityAnchor) : perform R .fresh (.gossip view anchor) =
    .ok (gossipStep R .fresh view anchor) := rfl
  exact .step .refl trivial (gossiped _ _)

/-- A signature is valid for block 1 at score 300 and for nothing else. -/
def oneBlock : AnchorRules :=
  ⟨⟨fun bytes => if bytes = Hash.asBytes 1 ++ u64LE 300 then 1 else 0, fun _ => true,
    fun _ hash _ => hash == 1⟩, ⟨some fun _ => 0, 600, 300⟩⟩

/-- The signer signs block 1. -/
def signsOnce : SignerRun where
  crypto := Signer.Sample.crypto
  config := Signer.Sample.config
  file := none
  actions := [.start .content, .tick (Signer.Sample.sees 1 300) .written true]
  careful := ⟨rfl, ⟨rfl, by decide⟩, trivial⟩

def allSignOnce : CarefulTrustees oneBlock fun _ => 0 where
  run _ := signsOnce
  interval _ := UInt64.le_refl _
  unforged _ block score _ valid := by
    have bytes : block.asBytes ++ u64LE score = Hash.asBytes 1 ++ u64LE 300 := by
      simpa [oneBlock, signingHash] using valid
    obtain ⟨block', score'⟩ := List.append_inj bytes (by simp)
    exact ⟨⟨2, ⟨1, 300, 0⟩⟩, by decide +kernel, (Hash.asBytes_injective block').symm, (u64LE_injective score').symm⟩

end Sample

open Sample in
/-- One node has adopted block 1 of trustees 0, 1 and 2, another one block 2 of trustees 2, 3 and 4. -/
theorem conflicting_anchors_slashable_meeting : ∃ evidence,
    verifyEquivocationEvidence rules.crypto evidence (fun _ => 0) rules.params.cadenceInterval = .ok () ∧
      evidence.first.anchoredBlock = 1 ∧ evidence.second.anchoredBlock = 2 := by
  obtain ⟨trustees, evidence, given, first, second, verified, -⟩ :=
    conflicting_anchors_slashable (runs_adopts rules 1 100 7) (runs_adopts rules 2 200 28)
      (a := ⟨1, 100⟩) (b := ⟨2, 200⟩) (by decide +kernel) (by decide +kernel) (by decide) (by decide)
  cases given
  exact ⟨evidence, verified, congrArg StoredAnchor.anchoredBlock first, congrArg StoredAnchor.anchoredBlock second⟩

open Sample in
theorem careful_trustees_agree_oneBlock :
    (adopts oneBlock 1 300 7).store.latest = (adopts oneBlock 1 300 28).store.latest := by
  have latest (bitmap : UInt8) (quorum : bitmap = 7 ∨ bitmap = 28) :
      (adopts oneBlock 1 300 bitmap).store.latest = some ⟨1, 300⟩ := by
    rcases quorum with rfl | rfl <;> decide +kernel
  have same := careful_trustees_agree rfl allSignOnce (runs_adopts oneBlock 1 300 7)
    (runs_adopts oneBlock 1 300 28) (latest 7 (.inl rfl)) (latest 28 (.inr rfl)) (by decide)
  rw [latest 7 (.inl rfl), latest 28 (.inr rfl), same]

end Marigold.Finality
