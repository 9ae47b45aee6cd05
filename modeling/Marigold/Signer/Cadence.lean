import Marigold.Consensus.Body
import Marigold.Finality.Anchor
import Marigold.Signer.StateFile

/-!
# The trustee signer

`TrusteeSigner` of `trustee-signer/src/lib.rs` together with its state file, as a machine: the
process starts, ticks and crashes, and the node answers as it likes. An honest signer must not share
two attestations of different blocks less than a cadence interval apart.

That the signer has signed before is known from the state file only.
-/

namespace Marigold.Signer

open Lib NotePool Finality Consensus

/-- One trustee's attestation, as the signers exchange it. -/
structure PartialAttestation where
  trusteeIndex : UInt8
  attestation : AnchorAttestation
  deriving DecidableEq, Repr

/-- The part of `SignerConfig` the signing depends on. -/
structure SignerConfig where
  trusteeIndex : Fin trusteeCount
  depth : UInt64
  interval : UInt64
  deriving DecidableEq, Repr

/-- What the node says of a block; the parent is in its verbose data. -/
structure BlockAnswer where
  daaScore : UInt64
  selectedParent : Option Hash

structure DagInfo where
  virtualDaaScore : UInt64
  sink : Hash

/-- What the node answers during one tick; `none` is an RPC error. The answers for blocks are those
of the successive calls, whatever block each asks for. -/
structure NodeAnswers where
  dagInfo : Option DagInfo
  addedChainBlockHashes : Option (List Hash)
  blocks : List (Option BlockAnswer)

/-- Where the search for a block at or below the bound ends. -/
inductive Search where
  | found (block : Hash) (score : UInt64)
  | absent
  | nodeError
  /-- The node has not answered the last call. -/
  | waiting
  deriving DecidableEq, Repr

inductive Tick where
  | idle
  | nodeError
  | waiting
  | panics
  | cursorLost
  | signs (block : Hash) (score : UInt64)
  deriving DecidableEq, Repr

/-- From the sink along selected parents. -/
def walkBack (bound : UInt64) : Hash → List (Option BlockAnswer) → Search
  | _, [] => .waiting
  | _, none :: _ => .nodeError
  | hash, some block :: answers =>
    if block.daaScore ≤ bound then .found hash block.daaScore
    else
      match block.selectedParent with
      | none => .nodeError
      | some selectedParent => walkBack bound selectedParent answers

/-- Through the chain blocks since the cursor, the last one first. -/
def scanChain (bound : UInt64) : List Hash → List (Option BlockAnswer) → Search
  | [], _ => .absent
  | _ :: _, [] => .waiting
  | _ :: _, none :: _ => .nodeError
  | hash :: chain, some block :: answers =>
    if block.daaScore ≤ bound then .found hash block.daaScore else scanChain bound chain answers

/-- The least score a full interval past the last signing. -/
def nextScore (config : SignerConfig) (lastSigned : LastSigned) : UInt64 :=
  saturatingAdd lastSigned.score config.interval

/-- The target is signed unless it is too low or the block signed last. -/
def signTarget (config : SignerConfig) (lastSigned : LastSigned) : Search → Tick
  | .found block score =>
    if score < nextScore config lastSigned then .idle
    else if block = lastSigned.block then .idle
    else .signs block score
  | .absent => .idle
  | .nodeError => .nodeError
  | .waiting => .waiting

/-- The running signer. -/
structure Process where
  lastSigned : LastSigned
  chainCursor : Option Hash
  deriving DecidableEq, Repr

/-- The bound snaps to the cadence grid; an interval of zero panics there. -/
def tick (config : SignerConfig) (process : Process) (node : NodeAnswers) : Tick :=
  match node.dagInfo with
  | none => .nodeError
  | some info =>
    if config.interval = 0 then .panics
    else
      let bound :=
        saturatingSub info.virtualDaaScore config.depth / config.interval * config.interval
      if bound < nextScore config process.lastSigned then .idle
      else
        match process.chainCursor with
        | none => signTarget config process.lastSigned (walkBack bound info.sink node.blocks)
        | some _ =>
          match node.addedChainBlockHashes with
          | none => .cursorLost
          | some chain =>
            signTarget config process.lastSigned (scanChain bound chain.reverse node.blocks)

/-! ## The machine -/

/-- The trustee's host: the state file, the process if it runs, and all it has shared. -/
structure Host where
  file : Option Text
  process : Option Process
  shared : List PartialAttestation

inductive Action where
  | start (read : ReadOutcome)
  /-- The write of the state, if the tick gets there; after it the process lives on or not. -/
  | tick (node : NodeAnswers) (write : WriteOutcome) (survives : Bool)
  | crash

/-- The trustee's key and the crates the signer uses. -/
structure SignerCrypto where
  anchor : AnchorCrypto
  decoder : HashDecoder
  /-- `sign_schnorr_no_aux_rand` with the trustee's secret key. -/
  sign : Hash → Signature

section Machine

variable (C : SignerCrypto) (config : SignerConfig)

def partialAttestation (block : Hash) (score : UInt64) : PartialAttestation where
  trusteeIndex := UInt8.ofNat config.trusteeIndex
  attestation := ⟨block, score, C.sign (signingHash C.anchor block score)⟩

/-- `sign_and_share`: the state is written first, whatever becomes of it. -/
def signAndShare (host : Host) (block : Hash) (score : UInt64) (write : WriteOutcome) (survives : Bool) : Host :=
  let file := writeState host.file ⟨score, block⟩ write
  if survives then
    ⟨file, some ⟨⟨score, block⟩, some block⟩, partialAttestation C config block score :: host.shared⟩
  else ⟨file, none, host.shared⟩

def tickStep (host : Host) (process : Process) (node : NodeAnswers) (write : WriteOutcome) (survives : Bool) : Host :=
  match tick config process node with
  | .idle | .nodeError | .waiting => host
  | .panics => { host with process := none }
  | .cursorLost => { host with process := some { process with chainCursor := none } }
  | .signs block score => signAndShare C config host block score write survives

/-- A tick needs a running process, a start none. -/
def perform (host : Host) : Action → Host
  | .start read =>
    match host.process with
    | some _ => host
    | none =>
      { host with process := some ⟨(readState C.decoder host.file read).getD .default, none⟩ }
  | .tick node write survives =>
    match host.process with
    | some process => tickStep C config host process node write survives
    | none => host
  | .crash => { host with process := none }

def performAll (host : Host) (actions : List Action) : Host :=
  actions.foldl (perform C config) host

end Machine

/-- Before the first start; nothing is known of the file. -/
def Host.fresh (file : Option Text) : Host := ⟨file, none, []⟩

/-! ## Keeping the interval -/

/-- No fault of the file, and room for the next interval above what is signed. -/
def Careful (config : SignerConfig) (host : Host) : Action → Prop
  | .start read => read = .content
  | .tick node write _ =>
    match host.process.map (tick config · node) with
    | some (.signs _ score) =>
      write = .written ∧ score.toNat + config.interval.toNat < 2 ^ 64
    | _ => True
  | .crash => True

def AllCareful (C : SignerCrypto) (config : SignerConfig) : Host → List Action → Prop
  | _, [] => True
  | host, action :: actions =>
    Careful config host action ∧ AllCareful C config (perform C config host action) actions

def PartialAttestation.score (p : PartialAttestation) : UInt64 := p.attestation.anchoredDaaScore

/-- A full interval lies between any two shared attestations, and both the file and the process know
a score as high as all of them. -/
structure Host.Spaced (D : HashDecoder) (config : SignerConfig) (host : Host) : Prop where
  apart : host.shared.Pairwise fun later earlier =>
    earlier.score.toNat + config.interval.toNat ≤ later.score.toNat
  room : ∀ p ∈ host.shared, p.score.toNat + config.interval.toNat < 2 ^ 64
  onDisk : ∀ p ∈ host.shared, ∃ state, host.file.bind (parseState D) = some state ∧ p.score ≤ state.score
  inMemory : ∀ process, host.process = some process → ∀ p ∈ host.shared, p.score ≤ process.lastSigned.score

section Keeps

variable {C : SignerCrypto} {config : SignerConfig} {host : Host} {lastSigned : LastSigned}
  {block : Hash} {score : UInt64} {process : Process} {node : NodeAnswers} {D : HashDecoder}

theorem signTarget_signs {search : Search} (signs : signTarget config lastSigned search = .signs block score) :
    nextScore config lastSigned ≤ score := by
  cases search with
  | found hash found =>
    simp only [signTarget] at signs
    split at signs
    · cases signs
    next far =>
      split at signs
      · cases signs
      · cases signs
        exact UInt64.not_lt.mp far
  | absent => cases signs
  | nodeError => cases signs
  | waiting => cases signs

theorem tick_signs (signs : tick config process node = .signs block score) :
    nextScore config process.lastSigned ≤ score := by
  unfold tick at signs
  split at signs
  · cases signs
  · split at signs
    · cases signs
    · dsimp only at signs
      split at signs
      · cases signs
      · split at signs
        · exact signTarget_signs signs
        · split at signs
          · cases signs
          · exact signTarget_signs signs

theorem le_nextScore (known : score ≤ lastSigned.score) (room : score.toNat + config.interval.toNat < 2 ^ 64) :
    score.toNat + config.interval.toNat ≤ (nextScore config lastSigned).toNat := by
  rw [UInt64.le_iff_toNat_le] at known
  unfold nextScore saturatingAdd
  split
  next fits =>
    rw [UInt64.toNat_add, Nat.mod_eq_of_lt fits]
    omega
  · rw [UInt64.toNat_ofNat_of_lt' (by decide)]
    omega

theorem Host.Spaced.forget (spaced : host.Spaced D config) : Host.Spaced D config { host with process := none } where
  apart := spaced.apart
  room := spaced.room
  onDisk := spaced.onDisk
  inMemory := nofun

section

variable (spaced : host.Spaced C.decoder config)

include spaced

theorem Host.Spaced.start : (perform C config host (.start .content)).Spaced C.decoder config := by
  cases running : host.process with
  | some process => simpa [perform, running] using spaced
  | none =>
    simp only [perform, running]
    refine ⟨spaced.apart, spaced.room, spaced.onDisk, ?_⟩
    intro process started p member
    cases started
    obtain ⟨state, read, known⟩ := spaced.onDisk p member
    simpa [readState, read] using known

/-- The new attestation is a full interval past all others, and is on disk before it is shared. -/
theorem Host.Spaced.sign (running : host.process = some process)
    (eligible : nextScore config process.lastSigned ≤ score)
    (room : score.toNat + config.interval.toNat < 2 ^ 64) (survives : Bool) :
    (signAndShare C config host block score .written survives).Spaced C.decoder config := by
  have above : ∀ p ∈ host.shared, p.score.toNat + config.interval.toNat ≤ score.toNat :=
    fun p member => Nat.le_trans (le_nextScore (spaced.inMemory process running p member) (spaced.room p member))
      (UInt64.le_iff_toNat_le.mp eligible)
  have below : ∀ p ∈ host.shared, p.score ≤ score := fun p member =>
    UInt64.le_iff_toNat_le.mpr (Nat.le_trans (Nat.le_add_right _ _) (above p member))
  cases survives with
  | false =>
    refine ⟨spaced.apart, spaced.room, fun p member => ⟨⟨score, block⟩, ?_, below p member⟩, nofun⟩
    simp [signAndShare, writeState]
  | true =>
    have all : ∀ p ∈ partialAttestation C config block score :: host.shared, p.score ≤ score :=
      List.forall_mem_cons.mpr ⟨UInt64.le_refl _, below⟩
    refine ⟨List.pairwise_cons.mpr ⟨above, spaced.apart⟩,
      List.forall_mem_cons.mpr ⟨room, spaced.room⟩, fun p member => ⟨⟨score, block⟩, ?_, all p member⟩,
      ?_⟩
    · simp [signAndShare, writeState]
    · intro process survived p member
      cases survived
      exact all p member

theorem Host.Spaced.tickStep (running : host.process = some process) {write : WriteOutcome}
    {survives : Bool} (careful : Careful config host (.tick node write survives)) :
    (tickStep C config host process node write survives).Spaced C.decoder config := by
  simp only [Careful, running, Option.map_some] at careful
  unfold Signer.tickStep
  split
  · exact spaced
  · exact spaced
  · exact spaced
  · exact spaced.forget
  · refine ⟨spaced.apart, spaced.room, spaced.onDisk, fun reset isReset => ?_⟩
    cases isReset
    exact spaced.inMemory process running
  next block score signs =>
    rw [signs] at careful
    obtain ⟨rfl, room⟩ := careful
    exact spaced.sign running (tick_signs signs) room survives

theorem Host.Spaced.perform {action : Action} (careful : Careful config host action) :
    (perform C config host action).Spaced C.decoder config := by
  cases action with
  | start read =>
    obtain rfl : read = .content := careful
    exact spaced.start
  | tick node write survives =>
    simp only [Signer.perform]
    split
    next process running => exact spaced.tickStep running careful
    · exact spaced
  | crash => exact spaced.forget

theorem Host.Spaced.performAll {actions : List Action} (careful : AllCareful C config host actions) :
    (performAll C config host actions).Spaced C.decoder config := by
  induction actions generalizing host with
  | nil => exact spaced
  | cons action actions ih => exact ih (spaced.perform careful.1) careful.2

end

theorem fresh_spaced (D : HashDecoder) (config : SignerConfig) (file : Option Text) :
    (Host.fresh file).Spaced D config where
  apart := .nil
  room := by simp [Host.fresh]
  onDisk := by simp [Host.fresh]
  inMemory := by simp [Host.fresh]

theorem absDiff_toNat (a b : UInt64) : (absDiff a b).toNat = (a.toNat - b.toNat) + (b.toNat - a.toNat) := by
  unfold absDiff
  split
  next less =>
    rw [UInt64.toNat_sub_of_le _ _ (UInt64.le_of_lt less)]
    rw [UInt64.lt_iff_toNat_lt] at less
    omega
  next notLess =>
    rw [UInt64.not_lt] at notLess
    rw [UInt64.toNat_sub_of_le _ _ notLess]
    rw [UInt64.le_iff_toNat_le] at notLess
    omega

theorem Host.Spaced.gap (spaced : host.Spaced D config) {first second : PartialAttestation}
    (isFirst : first ∈ host.shared) (isSecond : second ∈ host.shared) (different : first ≠ second) :
    config.interval ≤ absDiff first.score second.score := by
  have symmetric : Std.Symm fun p q : PartialAttestation =>
      config.interval ≤ absDiff p.score q.score :=
    ⟨fun p q far => by
      rw [UInt64.le_iff_toNat_le, absDiff_toNat] at far ⊢
      omega⟩
  have far : host.shared.Pairwise fun p q => config.interval ≤ absDiff p.score q.score := by
    refine spaced.apart.imp fun {p q} apart => ?_
    rw [UInt64.le_iff_toNat_le, absDiff_toNat]
    omega
  exact far.forall isFirst isSecond different

/-- A run of the signer in which every start reads the state file and every signing is written in
full before anything else happens, for scores with room for an interval above them: attestations of
different blocks are an interval apart, and no two are evidence of equivocation. -/
theorem signer_never_equivocates (C : SignerCrypto) (config : SignerConfig) (file : Option Text)
    (actions : List Action) (careful : AllCareful C config (.fresh file) actions) :
    ∀ first ∈ (performAll C config (.fresh file) actions).shared,
    ∀ second ∈ (performAll C config (.fresh file) actions).shared,
      (first.attestation.anchoredBlock ≠ second.attestation.anchoredBlock →
        config.interval ≤
          absDiff first.attestation.anchoredDaaScore second.attestation.anchoredDaaScore) ∧
      ∀ (accused : UInt8) (keys : TrusteeKeys) (P : FinalityAnchorParams),
        P.launchInterval ≤ config.interval →
        verifyEquivocationEvidence C.anchor ⟨accused, first.attestation, second.attestation⟩ keys
          P.cadenceInterval ≠ .ok () := by
  intro first isFirst second isSecond
  have spaced := (fresh_spaced C.decoder config file).performAll careful
  have gap : first.attestation.anchoredBlock ≠ second.attestation.anchoredBlock →
      config.interval ≤
        absDiff first.attestation.anchoredDaaScore second.attestation.anchoredDaaScore := by
    intro blocks
    exact spaced.gap isFirst isSecond fun same => blocks (by rw [same])
  refine ⟨gap, fun accused keys P configured verified => ?_⟩
  unfold verifyEquivocationEvidence at verified
  split at verified
  · dsimp only [FinalityAnchorParams.cadenceInterval] at verified
    split at verified
    · cases verified
    next blocks =>
      have far := UInt64.le_trans configured (gap blocks)
      rw [if_pos far] at verified
      cases verified
  · cases verified

end Keeps

namespace Sample

/-- A signature scheme that accepts everything. -/
def crypto : SignerCrypto where
  anchor := ⟨fun _ => 0, fun _ => true, fun _ _ _ => true⟩
  decoder := .strict
  sign _ := 0

def config : SignerConfig := ⟨⟨2, by decide⟩, 600, 300⟩

/-- Three divides the largest score, so the cadence grid reaches it. -/
def topConfig : SignerConfig := ⟨⟨2, by decide⟩, 0, 3⟩

/-- The node's chain has this block at its end, as deep as the signer wants it. -/
def sees (block : Hash) (score : UInt64) : NodeAnswers where
  dagInfo := some ⟨saturatingAdd score 600, block⟩
  addedChainBlockHashes := some [block]
  blocks := [some ⟨score, none⟩]

/-- Signs twice, with a crash in between. -/
def restarted : List Action :=
  [.start .content, .tick (sees 1 300) .written true, .crash,
    .start .content, .tick (sees 2 300) .written true, .tick (sees 2 600) .written true]

/-- After a reorganisation and a restart the signer does not know what it has signed: its state was
not written, or is not read, or a crash while it was written again has left an empty file. -/
def forgetful : List (List Action) :=
  [[.start .content, .tick (sees 1 300) .notOpened true, .crash, .start .content, .tick (sees 2 300) .written true],
    [.start .content, .tick (sees 1 300) .written true, .crash, .start .failed, .tick (sees 2 300) .written true],
    [.start .content, .tick (sees 1 300) .written true, .tick (sees 3 600) (.stopped 0) false,
      .start .content, .tick (sees 2 300) .written true]]

/-- Two attestations that are evidence against the signer, for a network with its interval. -/
abbrev Incriminated (config : SignerConfig) (host : Host) : Prop :=
  ∃ first ∈ host.shared, ∃ second ∈ host.shared,
    verifyEquivocationEvidence crypto.anchor ⟨2, first.attestation, second.attestation⟩
      (fun _ => 0) (FinalityAnchorParams.cadenceInterval ⟨none, config.depth, config.interval⟩) = .ok ()

end Sample

open Sample in
theorem signer_never_equivocates_restarted :
    AllCareful crypto config (.fresh none) restarted ∧
      (performAll crypto config (.fresh none) restarted).shared.length = 2 ∧
      ¬ Sample.Incriminated config (performAll crypto config (.fresh none) restarted) := by
  have careful : AllCareful crypto config (.fresh none) restarted :=
    ⟨rfl, ⟨rfl, by decide⟩, trivial, rfl, trivial, ⟨rfl, by decide⟩, trivial⟩
  refine ⟨careful, by decide +kernel, ?_⟩
  rintro ⟨first, isFirst, second, isSecond, evidence⟩
  exact (signer_never_equivocates crypto config none restarted careful
    first isFirst second isSecond).2 2 _ _ (UInt64.le_refl _) evidence

open Sample in
/-- The last one has no fault: at the top of the scores the next interval saturates. -/
theorem signer_equivocates :
    (∀ actions ∈ forgetful, Sample.Incriminated config
      (performAll crypto config (.fresh none) actions)) ∧
    Sample.Incriminated topConfig (performAll crypto topConfig (.fresh none)
      [.start .content, .tick (sees 1 18446744073709551614) .written true,
        .tick (sees 2 18446744073709551615) .written true]) := by
  decide +kernel

end Marigold.Signer
