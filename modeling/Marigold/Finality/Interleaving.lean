import Marigold.Finality.Ratchet

/-!
# Gossip against virtual resolution

The node as a state machine: gossip applies an anchor in one step, while the virtual processor reads
the latest anchor, then the pending one, and writes in a third step. Between its steps the store may
change. Every step comes with its own view of the DAG.

The processor writes what it has found without looking at the store again.
-/

namespace Marigold.Finality

open Lib NotePool Consensus Outcome

/-- The virtual processor after its first read: the store it has read, and the scan. -/
structure Scanned where
  read : AnchorStore
  view : DagView
  added : List Hash
  scan : Scan

/-- After its second read, of the pending anchor. -/
structure Collected extends Scanned where
  pending : Option FinalityAnchor
  updates : AnchorStateUpdates
  /-- Who was disqualified when that pending anchor arrived. -/
  deniedAtArrival : UInt8 → Bool

inductive Phase where
  | idle
  | scanned (local_ : Scanned)
  | collected (local_ : Collected)

structure AnchorNode where
  store : AnchorStore
  phase : Phase
  /-- History variable: who was disqualified when the pending anchor arrived. -/
  deniedAtArrival : UInt8 → Bool

inductive Action where
  | gossip (view : DagView) (anchor : FinalityAnchor)
  | scan (view : DagView) (added : List Hash)
  | readPending (view : DagView)
  | commit
  | restart

def AnchorNode.fresh : AnchorNode := ⟨.empty, .idle, fun _ => false⟩

section Machine

variable (R : AnchorRules)

variable (node : AnchorNode)

/-- A step of the virtual processor does nothing in another phase, nor if the mechanism is off. -/
def startScan (view : DagView) (added : List Hash) : Outcome Empty AnchorNode :=
  match node.phase, R.params.trustees with
  | .idle, some trustees =>
    if added.isEmpty then .ok node
    else do
      let scan ← scanChainPath R trustees view node.store.denyList node.store.latest added
      return { node with phase := .scanned ⟨node.store, view, added, scan⟩ }
  | _, _ => .ok node

def gossipStep (view : DagView) (anchor : FinalityAnchor) : AnchorNode :=
  match applyExternalFinalityAnchor R view node.store anchor with
  | (.pending, store) =>
    { node with store, deniedAtArrival := deniedIn node.store.denyList view view.sink }
  | (_, store) => { node with store }

def readPendingStep (view : DagView) : AnchorNode :=
  match node.phase with
  | .scanned local_ =>
    { node with phase := .collected ⟨local_, node.store.pending,
        promotePending view local_.scan node.store.pending, node.deniedAtArrival⟩ }
  | _ => node

def commitStep : AnchorNode :=
  match node.phase with
  | .collected local_ => { node with store := node.store.commit local_.updates, phase := .idle }
  | _ => node

def perform : Action → Outcome Empty AnchorNode
  | .gossip view anchor => .ok (gossipStep R node view anchor)
  | .scan view added => startScan R node view added
  | .readPending view => .ok (readPendingStep node view)
  | .commit => .ok (commitStep node)
  | .restart => .ok { node with phase := .idle }

/-- Runs whose steps satisfy a condition. -/
inductive Runs (allowed : AnchorNode → Action → Prop) (start : AnchorNode) : AnchorNode → Prop where
  | refl : Runs allowed start start
  | step {node next : AnchorNode} {action : Action} (before : Runs allowed start node)
      (condition : allowed node action) (done : perform R node action = .ok next) :
      Runs allowed start next

end Machine

/-! ## What the scan finds -/

section Found

variable {R : AnchorRules} {trustees : TrusteeKeys} {view : DagView}

theorem countable_sublist {denied denied' : UInt8 → Bool} {anchor : FinalityAnchor}
    (more : ∀ i ∈ bitmapSigners anchor.signerBitmap, denied (UInt8.ofNat i) = true → denied' (UInt8.ofNat i) = true) :
    (countable denied' anchor).length ≤ (countable denied anchor).length := by
  rw [countable, countable, ← List.countP_eq_length_filter, ← List.countP_eq_length_filter]
  refine List.countP_mono_left fun i member counts => ?_
  cases was : denied (UInt8.ofNat i) with
  | false => rfl
  | true => simp [more i member was] at counts

/-- The score is higher than that of the anchor, if there is one. -/
def Above (score : UInt64) (latest : Option StoredAnchor) : Prop :=
  ∀ anchor, latest = some anchor → anchor.anchoredDaaScore < score

/-- What has been found so far in the added blocks. -/
structure ScanFound (R : AnchorRules) (trustees : TrusteeKeys) (view : DagView)
    (storedDeny : List DenyListEntry) (storedLatest : Option StoredAnchor) (added : List Hash)
    (scan : Scan) : Prop where
  keepsPending : scan.updates.clearPending = false
  nothing : scan.updates.newLatest = none → scan.bestScore = storedLatest.map StoredAnchor.anchoredDaaScore
  better : ∀ anchor, scan.updates.newLatest = some anchor → scan.bestScore = some anchor.anchoredDaaScore ∧
      ∀ latest, storedLatest = some latest → latest.anchoredDaaScore < anchor.anchoredDaaScore
  verified : ∀ anchor, scan.updates.newLatest = some anchor → verifyAnchor R.crypto anchor trustees = .ok ()
  quorum : ∀ anchor, scan.updates.newLatest = some anchor → ∃ block ∈ added,
    anchorQuorum ≤ (countable (deniedIn storedDeny view block) anchor).length

variable {storedDeny : List DenyListEntry} {storedLatest : Option StoredAnchor} {added : List Hash} {scan : Scan}

section

variable (found : ScanFound R trustees view storedDeny storedLatest added scan)

include found

theorem ScanFound.evidence (block : Hash) (evidence : EquivocationEvidence) :
    ScanFound R trustees view storedDeny storedLatest added
      (scanEvidence R trustees view storedDeny block scan evidence) := by
  unfold scanEvidence
  split
  · exact found
  · split
    · exact found
    · exact ⟨found.keepsPending, found.nothing, found.better, found.verified, found.quorum⟩

theorem ScanFound.below {score : UInt64} (best : scan.bestScore.all (· < score) = true) : Above score storedLatest := by
  intro latest stored
  cases adopted : scan.updates.newLatest with
  | none => simpa [found.nothing adopted, stored] using best
  | some anchor =>
    obtain ⟨current, above⟩ := found.better anchor adopted
    have current : anchor.anchoredDaaScore < score := by simpa [current] using best
    exact UInt64.lt_trans (above latest stored) current

theorem ScanFound.anchor {block : Hash} (member : block ∈ added) (daaScore : UInt64) (anchor : FinalityAnchor) :
    ScanFound R trustees view storedDeny storedLatest added
      (scanAnchor R trustees view storedDeny block daaScore scan anchor) := by
  unfold scanAnchor
  split
  · exact found
  next verified =>
    split
    next takes =>
      simp only [Bool.and_eq_true, anchorTakesEffect] at takes
      obtain ⟨⟨_, enough⟩, best⟩ := takes
      have enough : anchorQuorum ≤ (countable (scan.denied view storedDeny block) anchor).length := by
        simpa using enough
      refine ⟨found.keepsPending, nofun, fun a same => ?_, fun a same => ?_, fun a same => ?_⟩
      · cases same
        exact ⟨rfl, found.below best⟩
      · cases same
        exact verified
      · cases same
        -- The scan's own entries only take signers away.
        refine ⟨block, member, enough.trans (countable_sublist fun i _ stored => ?_)⟩
        simp [Scan.denied, stored]
    · exact found

end

theorem scanChainPath_found (done : scanChainPath R trustees view storedDeny storedLatest added = .ok scan) :
    ScanFound R trustees view storedDeny storedLatest added scan := by
  have start : ScanFound R trustees view storedDeny storedLatest added
      ⟨storedLatest.map StoredAnchor.anchoredDaaScore, ⟨none, [], false⟩⟩ :=
    ⟨rfl, fun _ => rfl, nofun, nofun, nofun⟩
  refine foldlM_keeps _ (fun block member before after found step => ?_) start done
  obtain ⟨daaScore, _, step⟩ := bind_eq_ok.mp step
  rw [← Except.ok.inj step]
  refine List.foldlRecOn _ _ found fun scan found payload _ => ?_
  cases payload with
  | equivocation evidence => exact found.evidence block evidence
  | anchor anchor => exact found.anchor member daaScore anchor

end Found

/-! ## What every step keeps -/

variable (R : AnchorRules)

/-- The anchor carries a quorum of valid signatures, whoever is disqualified. -/
def Verified (anchor : FinalityAnchor) : Prop :=
  ∃ trustees, R.params.trustees = some trustees ∧ verifyAnchor R.crypto anchor trustees = .ok ()

/-- The anchor had a quorum among those not disqualified. -/
def Checked (denied : UInt8 → Bool) (anchor : FinalityAnchor) : Prop :=
  Verified R anchor ∧ anchorQuorum ≤ (countable denied anchor).length

/-- Some verified anchor is behind the stored one. -/
def Certified (stored : StoredAnchor) : Prop :=
  ∃ anchor, Verified R anchor ∧ anchor.stored = stored

theorem applyExternalFinalityAnchor_cases (view : DagView) (store : AnchorStore) (anchor : FinalityAnchor) :
    applyExternalFinalityAnchor R view store anchor = (.ignored, store) ∨
      Checked R (deniedIn store.denyList view view.sink) anchor ∧ Above anchor.anchoredDaaScore store.latest ∧
        (applyExternalFinalityAnchor R view store anchor = (.ratcheted, store.setLatest anchor) ∨
          applyExternalFinalityAnchor R view store anchor = (.pending, store.setPending anchor)) := by
  unfold applyExternalFinalityAnchor
  cases keyed : R.params.trustees with
  | none => exact .inl rfl
  | some trustees =>
    dsimp only
    split
    · exact .inl rfl
    next verified =>
      split
      · exact .inl rfl
      next enough =>
        split
        · exact .inl rfl
        next better =>
          have better : Above anchor.anchoredDaaScore store.latest := by
            intro latest stored
            simpa [stored] using better
          have checked : Checked R (deniedIn store.denyList view view.sink) anchor :=
            ⟨⟨trustees, keyed, verified⟩, Nat.not_lt.mp enough⟩
          split
          · exact .inr ⟨checked, better, .inl rfl⟩
          · split
            · exact .inl rfl
            · exact .inr ⟨checked, better, .inr rfl⟩

/-- What the processor holds after its first read. -/
structure Scanned.Sound (R : AnchorRules) (node : AnchorNode) (local_ : Scanned) : Prop where
  found : ∃ trustees, R.params.trustees = some trustees ∧ ScanFound R trustees local_.view
    local_.read.denyList local_.read.latest local_.added local_.scan
  /-- Only the processor itself writes the deny list. -/
  denyList : node.store.denyList = local_.read.denyList
  certified : ∀ latest, local_.read.latest = some latest → Certified R latest

structure Collected.Sound (R : AnchorRules) (node : AnchorNode) (local_ : Collected) : Prop where
  scanned : local_.toScanned.Sound R node
  updates : ∃ view, local_.updates = promotePending view local_.scan local_.pending
  checked : ∀ pending, local_.pending = some pending → Checked R local_.deniedAtArrival pending

def Phase.Sound (node : AnchorNode) : Phase → Prop
  | .idle => True
  | .scanned local_ => local_.Sound R node
  | .collected local_ => local_.Sound R node

/-- What holds of every reachable node, whatever the interleaving. -/
structure AnchorNode.Sound (R : AnchorRules) (node : AnchorNode) : Prop where
  certified : ∀ latest, node.store.latest = some latest → Certified R latest
  checked : ∀ pending, node.store.pending = some pending → Checked R node.deniedAtArrival pending
  phase : node.phase.Sound R node

section Keeps

variable {R : AnchorRules} {node next : AnchorNode}

theorem Phase.Sound.of_store {phase : Phase} (sound : phase.Sound R node)
    (same : next.store.denyList = node.store.denyList) : phase.Sound R next := by
  cases phase with
  | idle => trivial
  | scanned local_ => exact ⟨sound.found, same.trans sound.denyList, sound.certified⟩
  | collected local_ =>
    exact ⟨⟨sound.scanned.found, same.trans sound.scanned.denyList, sound.scanned.certified⟩,
      sound.updates, sound.checked⟩

theorem AnchorNode.Sound.collected {local_ : Collected} (sound : node.Sound R)
    (collected : node.phase = .collected local_) : local_.Sound R node := by
  have phase := sound.phase
  rwa [collected] at phase

theorem AnchorNode.Sound.gossip (sound : node.Sound R) (view : DagView) (anchor : FinalityAnchor) :
    (gossipStep R node view anchor).Sound R := by
  unfold gossipStep
  rcases applyExternalFinalityAnchor_cases R view node.store anchor with
    ignored | ⟨checked, _, ratcheted | pending⟩
  · rw [ignored]
    exact sound
  · rw [ratcheted]
    refine ⟨fun latest stored => ?_, sound.checked, sound.phase.of_store rfl⟩
    cases stored
    exact ⟨anchor, checked.1, rfl⟩
  · rw [pending]
    refine ⟨sound.certified, fun p stored => ?_, sound.phase.of_store rfl⟩
    cases stored
    exact checked

theorem startScan_eq_ok {view : DagView} {added : List Hash} (done : startScan R node view added = .ok next) :
    next = node ∨ ∃ trustees scan, R.params.trustees = some trustees ∧
      scanChainPath R trustees view node.store.denyList node.store.latest added = .ok scan ∧
      next = { node with phase := .scanned ⟨node.store, view, added, scan⟩ } := by
  unfold startScan at done
  split at done
  next trustees idle keyed =>
    split at done
    · exact .inl (Except.ok.inj done).symm
    · obtain ⟨scan, scanned, done⟩ := bind_eq_ok.mp done
      exact .inr ⟨trustees, scan, keyed, scanned, (Except.ok.inj done).symm⟩
  · exact .inl (Except.ok.inj done).symm

theorem AnchorNode.Sound.scan (sound : node.Sound R) {view : DagView} {added : List Hash}
    (done : startScan R node view added = .ok next) : next.Sound R := by
  rcases startScan_eq_ok done with rfl | ⟨trustees, scan, keyed, scanned, rfl⟩
  · exact sound
  · exact ⟨sound.certified, sound.checked, ⟨trustees, keyed, scanChainPath_found scanned⟩, rfl, sound.certified⟩

theorem AnchorNode.Sound.readPending (sound : node.Sound R) (view : DagView) : (readPendingStep node view).Sound R := by
  unfold readPendingStep
  split
  next local_ scanned =>
    have before : local_.Sound R node := by simpa [scanned, Phase.Sound] using sound.phase
    exact ⟨sound.certified, sound.checked,
      ⟨before.found, before.denyList, before.certified⟩, ⟨view, rfl⟩, sound.checked⟩
  · exact sound

theorem promotePending_newLatest {view : DagView} {scan : Scan} {pending : Option FinalityAnchor}
    {anchor : FinalityAnchor} (new : (promotePending view scan pending).newLatest = some anchor) :
    scan.updates.newLatest = some anchor ∨
      pending = some anchor ∧ scan.bestScore.all (· < anchor.anchoredDaaScore) = true := by
  cases pending with
  | none => exact .inl new
  | some held =>
    rw [promotePending] at new
    split at new
    · exact .inl new
    next superseded =>
      split at new
      · cases new
        refine .inr ⟨rfl, ?_⟩
        cases current : scan.bestScore with
        | none => rfl
        | some best => simpa [current] using superseded
      · exact .inl new

/-- An anchor the processor is about to write: found by the scan, or the pending one. -/
theorem Collected.Sound.newLatest {local_ : Collected} (sound : local_.Sound R node)
    {anchor : FinalityAnchor} (new : local_.updates.newLatest = some anchor) :
    Verified R anchor ∧ Above anchor.anchoredDaaScore local_.read.latest ∧
      (local_.scan.updates.newLatest = some anchor ∨ local_.pending = some anchor) := by
  obtain ⟨view, updates⟩ := sound.updates
  obtain ⟨trustees, keyed, found⟩ := sound.scanned.found
  rw [updates] at new
  rcases promotePending_newLatest new with adopted | ⟨held, best⟩
  · exact ⟨⟨trustees, keyed, found.verified anchor adopted⟩, (found.better anchor adopted).2, .inl adopted⟩
  · exact ⟨(sound.checked anchor held).1, found.below best, .inr held⟩

/-- The pending anchor is only dropped for one that is at least as high. -/
theorem Collected.Sound.clearPending {local_ : Collected} (sound : local_.Sound R node)
    (clears : local_.updates.clearPending = true) : ∃ pending, local_.pending = some pending ∧
      ((∃ anchor, local_.updates.newLatest = some anchor ∧ pending.anchoredDaaScore ≤ anchor.anchoredDaaScore) ∨
        local_.updates.newLatest = none ∧ ∃ latest, local_.read.latest = some latest ∧
          pending.anchoredDaaScore ≤ latest.anchoredDaaScore) := by
  obtain ⟨view, updates⟩ := sound.updates
  obtain ⟨trustees, keyed, found⟩ := sound.scanned.found
  cases held : local_.pending with
  | none =>
    rw [updates, held, promotePending, found.keepsPending] at clears
    cases clears
  | some pending =>
    refine ⟨pending, rfl, ?_⟩
    rw [updates, held, promotePending] at clears ⊢
    split
    next superseded =>
      cases adopted : local_.scan.updates.newLatest with
      | some anchor =>
        refine .inl ⟨anchor, rfl, ?_⟩
        simpa [(found.better anchor adopted).1] using superseded
      | none =>
        rw [found.nothing adopted] at superseded
        cases stored : local_.read.latest with
        | none => simp [stored] at superseded
        | some latest => exact .inr ⟨rfl, latest, rfl, by simpa [stored] using superseded⟩
    next kept =>
      rw [if_neg kept] at clears
      split
      · exact .inl ⟨pending, rfl, UInt64.le_refl _⟩
      next unknown =>
        rw [if_neg unknown, found.keepsPending] at clears
        cases clears

theorem commit_latest (store : AnchorStore) (updates : AnchorStateUpdates) :
    (store.commit updates).latest = updates.newLatest.elim store.latest fun anchor => some anchor.stored := by
  unfold AnchorStore.commit
  cases updates.newLatest <;> cases updates.clearPending <;> rfl

theorem commit_pending (store : AnchorStore) (updates : AnchorStateUpdates) :
    (store.commit updates).pending = if updates.clearPending then none else store.pending := by
  unfold AnchorStore.commit
  cases updates.newLatest <;> cases updates.clearPending <;> rfl

theorem AnchorNode.Sound.commit (sound : node.Sound R) : (commitStep node).Sound R := by
  unfold commitStep
  split
  next local_ collected =>
    refine ⟨fun latest stored => ?_, fun pending stored => ?_, trivial⟩
    · rw [commit_latest] at stored
      cases new : local_.updates.newLatest with
      | none =>
        rw [new] at stored
        exact sound.certified latest stored
      | some anchor =>
        rw [new] at stored
        exact ⟨anchor, ((sound.collected collected).newLatest new).1, Option.some.inj stored⟩
    · rw [commit_pending] at stored
      split at stored
      · cases stored
      · exact sound.checked pending stored
  · exact sound

theorem AnchorNode.Sound.perform (sound : node.Sound R) {action : Action}
    (done : perform R node action = .ok next) : next.Sound R := by
  cases action with
  | gossip view anchor =>
    cases done
    exact sound.gossip view anchor
  | scan view added => exact sound.scan done
  | readPending view =>
    cases done
    exact sound.readPending view
  | commit =>
    cases done
    exact sound.commit
  | restart =>
    cases done
    exact ⟨sound.certified, sound.checked, trivial⟩

theorem Runs.sound {allowed : AnchorNode → Action → Prop} {start : AnchorNode}
    (run : Runs R allowed start node) (sound : start.Sound R) : node.Sound R := by
  induction run with
  | refl => exact sound
  | step _ _ done ih => exact ih.perform done

theorem fresh_sound : AnchorNode.fresh.Sound R := ⟨nofun, nofun, trivial⟩

end Keeps

/-! ## The ratchet -/

/-- A commit finds the anchors in the store that the processor has read before. -/
def Undisturbed (node : AnchorNode) : Action → Prop
  | .commit => ∀ local_, node.phase = .collected local_ →
      node.store.latest = local_.read.latest ∧ node.store.pending = local_.pending
  | _ => True

/-- No two blocks are certified at one score. -/
def OneBlockPerScore : Prop :=
  ∀ a b, Verified R a → Verified R b → a.anchoredDaaScore = b.anchoredDaaScore → a.anchoredBlock = b.anchoredBlock

/-- The latest anchor does not go back. -/
def LatestKept (before after : AnchorStore) : Prop :=
  ∀ latest, before.latest = some latest → ∃ latest', after.latest = some latest' ∧
    latest.anchoredDaaScore ≤ latest'.anchoredDaaScore

/-- A pending anchor is only cleared when it, or a higher one, is the latest. -/
def PendingKept (before after : AnchorStore) : Prop :=
  ∀ pending, before.pending = some pending → after.pending = none → ∃ latest,
    after.latest = some latest ∧ pending.anchoredDaaScore ≤ latest.anchoredDaaScore ∧
      (OneBlockPerScore R → latest = pending.stored ∨ pending.anchoredDaaScore < latest.anchoredDaaScore)

section Advances

variable {R : AnchorRules} {node next : AnchorNode}

theorem LatestKept.refl (store : AnchorStore) : LatestKept store store := fun latest stored =>
  ⟨latest, stored, UInt64.le_refl _⟩

theorem LatestKept.trans {a b c : AnchorStore} (first : LatestKept a b) (second : LatestKept b c) : LatestKept a c := by
  intro latest stored
  obtain ⟨latest', stored', le⟩ := first latest stored
  obtain ⟨latest'', stored'', le'⟩ := second latest' stored'
  exact ⟨latest'', stored'', UInt64.le_trans le le'⟩

theorem LatestKept.of_better {store after : AnchorStore} {anchor : FinalityAnchor}
    (better : Above anchor.anchoredDaaScore store.latest)
    (set : after.latest = some anchor.stored) : LatestKept store after := fun latest stored =>
  ⟨anchor.stored, set, UInt64.le_of_lt (better latest stored)⟩

theorem same_or_higher {pending : FinalityAnchor} {latest : StoredAnchor} (held : Verified R pending)
    (certified : Certified R latest)
    (le : pending.anchoredDaaScore ≤ latest.anchoredDaaScore) (one : OneBlockPerScore R) :
    latest = pending.stored ∨ pending.anchoredDaaScore < latest.anchoredDaaScore := by
  obtain ⟨anchor, verified, rfl⟩ := certified
  rcases UInt64.lt_or_eq_of_le le with lt | same
  · exact .inr lt
  · refine .inl ?_
    have block := one pending anchor held verified same
    simp [FinalityAnchor.stored, block, show pending.anchoredDaaScore = _ from same]

theorem PendingKept.of_held {before after : AnchorStore}
    (held : ∀ pending, before.pending = some pending → after.pending ≠ none) :
    PendingKept R before after := fun pending stored cleared =>
  absurd cleared (held pending stored)

theorem PendingKept.refl (store : AnchorStore) : PendingKept R store store :=
  .of_held fun pending stored => by simp [stored]

/-- What a step does to the store: nothing, or it takes an anchor from gossip, or it writes what the
processor has collected. -/
theorem perform_store {action : Action} (done : perform R node action = .ok next) : next.store = node.store ∨
      (∃ view anchor, action = .gossip view anchor ∧ Above anchor.anchoredDaaScore node.store.latest ∧
        ((applyExternalFinalityAnchor R view node.store anchor).1 = .ratcheted ∧
            next.store = node.store.setLatest anchor ∨ next.store = node.store.setPending anchor)) ∨
      ∃ local_, action = .commit ∧ node.phase = .collected local_ ∧ next.store = node.store.commit local_.updates := by
  cases action with
  | gossip view anchor =>
    cases done
    unfold gossipStep
    rcases applyExternalFinalityAnchor_cases R view node.store anchor with
      ignored | ⟨_, better, ratcheted | pending⟩
    · rw [ignored]
      exact .inl rfl
    · rw [ratcheted]
      exact .inr (.inl ⟨view, anchor, rfl, better, .inl ⟨by rw [ratcheted], rfl⟩⟩)
    · rw [pending]
      exact .inr (.inl ⟨view, anchor, rfl, better, .inr rfl⟩)
  | scan view added =>
    rcases startScan_eq_ok done with rfl | ⟨_, _, _, _, rfl⟩ <;> exact .inl rfl
  | readPending view =>
    cases done
    unfold readPendingStep
    split <;> exact .inl rfl
  | commit =>
    cases done
    unfold commitStep
    split
    next local_ collected => exact .inr (.inr ⟨local_, rfl, collected, rfl⟩)
    · exact .inl rfl
  | restart =>
    cases done
    exact .inl rfl

theorem Collected.Sound.commit_advances {local_ : Collected} (before : local_.Sound R node) (sound : node.Sound R)
    (latestRead : node.store.latest = local_.read.latest) (pendingRead : node.store.pending = local_.pending) :
    LatestKept node.store (node.store.commit local_.updates) ∧
      PendingKept R node.store (node.store.commit local_.updates) := by
  constructor
  · cases new : local_.updates.newLatest with
    | none =>
      intro latest stored
      exact ⟨latest, by rw [commit_latest, new]; exact stored, UInt64.le_refl _⟩
    | some anchor =>
      refine .of_better ?_ (by rw [commit_latest, new]; rfl)
      exact latestRead ▸ (before.newLatest new).2.1
  · intro pending stored cleared
    rw [commit_pending] at cleared
    have clears : local_.updates.clearPending = true := by
      by_contra kept
      rw [if_neg kept, stored] at cleared
      cases cleared
    obtain ⟨pending', held, higher⟩ := before.clearPending clears
    obtain rfl : pending' = pending :=
      Option.some.inj ((held.symm.trans pendingRead.symm).trans stored)
    have verified := (sound.checked pending' stored).1
    rw [commit_latest]
    rcases higher with ⟨anchor, new, le⟩ | ⟨new, latest, read, le⟩
    · rw [new]
      exact ⟨anchor.stored, rfl, le, same_or_higher verified ⟨anchor, (before.newLatest new).1, rfl⟩ le⟩
    · rw [new]
      have current := latestRead.trans read
      exact ⟨latest, current, le, same_or_higher verified (sound.certified latest current) le⟩

theorem AnchorNode.Sound.advances (sound : node.Sound R) {action : Action}
    (undisturbed : Undisturbed node action) (done : Finality.perform R node action = .ok next) :
    LatestKept node.store next.store ∧ PendingKept R node.store next.store := by
  rcases perform_store done with
    same | ⟨view, anchor, -, better, ⟨-, set⟩ | set⟩ | ⟨local_, rfl, collected, written⟩
  · rw [same]
    exact ⟨.refl _, .refl _⟩
  · rw [set]
    exact ⟨.of_better better rfl, .of_held fun p stored => by simp [AnchorStore.setLatest, stored]⟩
  · rw [set]
    exact ⟨fun latest stored => ⟨latest, stored, UInt64.le_refl _⟩,
      .of_held fun p stored => by simp [AnchorStore.setPending]⟩
  · rw [written]
    obtain ⟨latestRead, pendingRead⟩ := undisturbed local_ collected
    exact (sound.collected collected).commit_advances sound latestRead pendingRead

theorem Runs.latestKept {start : AnchorNode} (run : Runs R Undisturbed start node)
    (sound : start.Sound R) : LatestKept start.store node.store := by
  induction run with
  | refl => exact .refl _
  | step before undisturbed done ih =>
    exact ih.trans ((before.sound sound).advances undisturbed done).1

/-- A commit right after the two reads finds what they have read. -/
theorem undisturbed_of_startScan {view view' : DagView} {added : List Hash}
    (idle : node.phase = .idle) (done : startScan R node view added = .ok next) :
    Undisturbed (readPendingStep next view') .commit := by
  intro local_ collected
  rcases startScan_eq_ok done with rfl | ⟨_, scan, _, _, rfl⟩
  · simp [readPendingStep, idle] at collected
  · simp only [readPendingStep, Phase.collected.injEq] at collected
    subst collected
    exact ⟨rfl, rfl⟩

end Advances

/-- In a run whose commits find the anchors the processor has read, the score of the latest anchor
never goes back, and a pending anchor is only cleared for itself or a higher one. -/
theorem ratchet_never_moves_back (R : AnchorRules) {node later : AnchorNode}
    (before : Runs R Undisturbed .fresh node) (run : Runs R Undisturbed node later) :
    LatestKept node.store later.store ∧ ∀ action next, Undisturbed later action →
      perform R later action = .ok next →
      LatestKept later.store next.store ∧ PendingKept R later.store next.store := by
  have sound := before.sound fresh_sound
  exact ⟨run.latestKept sound, fun action next undisturbed done =>
    (run.sound sound).advances undisturbed done⟩

/-! ## Quorums at adoption -/

/-- An anchor that becomes the latest one, and the block whose chain it is adopted in. -/
structure Adoption where
  anchor : FinalityAnchor
  view : DagView
  pov : Hash

/-- The sink the virtual processor moves to. -/
def Scanned.newSink (local_ : Scanned) : Hash := local_.added.getLast?.getD local_.view.sink

/-- What an action adopts, if anything. -/
def adoption (node : AnchorNode) : Action → Option Adoption
  | .gossip view anchor =>
    if (applyExternalFinalityAnchor R view node.store anchor).1 = .ratcheted then
      some ⟨anchor, view, view.sink⟩
    else none
  | .commit =>
    match node.phase with
    | .collected local_ => local_.updates.newLatest.map fun anchor =>
        ⟨anchor, local_.view, local_.newSink⟩
    | _ => none
  | _ => none

/-- Who had been disqualified already when the quorum of the anchor was counted: before all added
blocks if the scan found it, at its arrival if it was pending. -/
def Collected.knownDenied (local_ : Collected) (anchor : FinalityAnchor) (trustee : UInt8) : Prop :=
  if local_.scan.updates.newLatest = some anchor then
    ∀ block ∈ local_.added, deniedIn local_.read.denyList local_.view block trustee = true
  else local_.deniedAtArrival trustee = true

/-- No signer of an anchor has been disqualified between the count of its quorum and the commit that
adopts it. -/
def NoLateDisqualification (node : AnchorNode) : Action → Prop
  | .commit => ∀ local_, node.phase = .collected local_ →
      ∀ anchor, local_.updates.newLatest = some anchor → ∀ i ∈ bitmapSigners anchor.signerBitmap,
          deniedIn (commitStep node).store.denyList local_.view local_.newSink (UInt8.ofNat i) = true →
          local_.knownDenied anchor (UInt8.ofNat i)
  | _ => True

section Quorum

variable {R : AnchorRules} {node next : AnchorNode}

theorem Verified.signed {anchor : FinalityAnchor} (verified : Verified R anchor)
    (denied : UInt8 → Bool) : ∃ trustees, R.params.trustees = some trustees ∧
      ∀ i ∈ countable denied anchor, SignedBy R.crypto trustees anchor i := by
  obtain ⟨trustees, keyed, verified⟩ := verified
  exact ⟨trustees, keyed, fun i member =>
    (verifyAnchor_signed verified).2 i (List.mem_of_mem_filter member)⟩

theorem Collected.Sound.quorum {local_ : Collected} (sound : local_.Sound R node)
    {anchor : FinalityAnchor} (new : local_.updates.newLatest = some anchor) {denied : UInt8 → Bool}
    (known : ∀ i ∈ bitmapSigners anchor.signerBitmap, denied (UInt8.ofNat i) = true →
      local_.knownDenied anchor (UInt8.ofNat i)) : anchorQuorum ≤ (countable denied anchor).length := by
  obtain ⟨trustees, _, found⟩ := sound.scanned.found
  unfold Collected.knownDenied at known
  by_cases accepted : local_.scan.updates.newLatest = some anchor
  · obtain ⟨block, member, counted⟩ := found.quorum anchor accepted
    refine counted.trans (countable_sublist fun i signer late => ?_)
    simp only [accepted, if_true] at known
    exact known i signer late block member
  · obtain ⟨_, _, found | held⟩ := sound.newLatest new
    · exact absurd found accepted
    · refine (sound.checked anchor held).2.trans (countable_sublist fun i signer late => ?_)
      simp only [accepted, if_false] at known
      exact known i signer late

/-- The latest anchor only changes by adoption. -/
theorem adoption_of_change {action : Action} (done : perform R node action = .ok next)
    (changed : next.store.latest ≠ node.store.latest) : (adoption R node action).isSome := by
  rcases perform_store done with
    same | ⟨view, anchor, rfl, -, ⟨ratcheted, -⟩ | set⟩ | ⟨local_, rfl, collected, written⟩
  · rw [same] at changed
    exact absurd rfl changed
  · simp [adoption, ratcheted]
  · rw [set] at changed
    exact absurd rfl changed
  · rw [written, commit_latest] at changed
    cases new : local_.updates.newLatest with
    | none =>
      rw [new] at changed
      exact absurd rfl changed
    | some anchor => simp [adoption, collected, new]

end Quorum

/-- The latest anchor only changes by adopting one. If no signer of it was disqualified after its
quorum was counted, then at its adoption it carries valid signatures of a quorum of trustees that are
not disqualified in the chain it is adopted in, evidence of the same update included. -/
theorem adopted_anchor_has_quorum (R : AnchorRules) {node next : AnchorNode} {action : Action}
    (run : Runs R (fun _ _ => True) .fresh node) (done : perform R node action = .ok next)
    (inTime : NoLateDisqualification node action) :
    (next.store.latest ≠ node.store.latest → (adoption R node action).isSome) ∧
      ∀ adopted, adoption R node action = some adopted →
        let counting := countable (deniedIn next.store.denyList adopted.view adopted.pov)
          adopted.anchor
        next.store.latest = some adopted.anchor.stored ∧ anchorQuorum ≤ counting.length ∧
          ∃ trustees, R.params.trustees = some trustees ∧
            ∀ i ∈ counting, SignedBy R.crypto trustees adopted.anchor i := by
  refine ⟨adoption_of_change done, fun adopted adopts => ?_⟩
  have sound := run.sound fresh_sound
  cases action with
  | gossip view anchor =>
    cases done
    unfold adoption at adopts
    unfold gossipStep
    rcases applyExternalFinalityAnchor_cases R view node.store anchor with
      ignored | ⟨checked, _, ratcheted | pending⟩
    · simp [ignored] at adopts
    · simp only [ratcheted, if_true] at adopts ⊢
      cases adopts
      exact ⟨rfl, checked.2, checked.1.signed _⟩
    · simp [pending] at adopts
  | scan view added => cases adopts
  | readPending view => cases adopts
  | restart => cases adopts
  | commit =>
    cases done
    cases collected : node.phase with
    | idle => simp [adoption, collected] at adopts
    | scanned local_ => simp [adoption, collected] at adopts
    | collected local_ =>
      simp only [adoption, collected] at adopts
      obtain ⟨anchor, new, rfl⟩ := Option.map_eq_some_iff.mp adopts
      have before := sound.collected collected
      have latest : (commitStep node).store.latest = some anchor.stored := by
        simp only [commitStep, collected, commit_latest, new]
        rfl
      exact ⟨latest, before.quorum new (inTime local_ collected anchor new),
        (before.newLatest new).1.signed _⟩

namespace Sample

/-- Every signature is valid. -/
def rules : AnchorRules :=
  ⟨⟨fun _ => 0, fun _ => true, fun _ _ _ => true⟩, ⟨some fun _ => 0, 600, 300⟩⟩

/-- Signed by the first three trustees. -/
def anchor (block : Hash) (score : UInt64) : FinalityAnchor := ⟨block, score, 7, [0, 0, 0]⟩

def anchorBytes (block : Hash) (score : UInt64) : Bytes :=
  [0] ++ block.asBytes ++ u64LE score ++ [7] ++ u32LE 3 ++ List.replicate 192 0

/-- Trustee 2 signed blocks 5 and 6 at one score. -/
def evidenceBytes : Bytes :=
  [1, 2] ++ Hash.asBytes 5 ++ u64LE 100 ++ List.replicate 64 0 ++ Hash.asBytes 6 ++ u64LE 100 ++ List.replicate 64 0

def anchorTx (payload : Bytes) : Transaction :=
  ⟨1, [], [], 0, SubnetworkId.finalityAnchor, 0, payload, 0⟩

/-- Blocks 1 and 2 are known, chain block 10 accepts one anchor transaction. -/
def view (payload : Bytes) : DagView where
  daaScore hash := if hash = 1 then some 100 else if hash = 2 then some 200 else
    if hash = 10 then some 1000 else none
  isChainAncestorOf _ _ := true
  bodyTips := [10]
  sink := 10
  acceptanceData _ := some [⟨10, [⟨0, 0⟩]⟩]
  blockTransactions _ := some [anchorTx payload]

/-- A node after the two reads of a resolution that adopts block 10. -/
@[irreducible] def scanned (node : AnchorNode) (payload : Bytes) : AnchorNode :=
  (startScan rules node (view payload) [10]).toOption.getD .fresh

def collected (node : AnchorNode) (payload : Bytes) : AnchorNode :=
  readPendingStep (scanned node payload) (view [])

/-- A fresh node that holds a pending anchor for the unknown block 3. -/
def waiting : AnchorNode := gossipStep rules .fresh (view []) (anchor 3 90)

theorem scanned_fresh : startScan rules .fresh (view (anchorBytes 1 100)) [10] =
    .ok (scanned .fresh (anchorBytes 1 100)) := by
  unfold scanned
  exact eq_ok_getD (by decide +kernel) _

theorem scanned_waiting : startScan rules waiting (view (anchorBytes 1 100)) [10] =
    .ok (scanned waiting (anchorBytes 1 100)) := by
  unfold scanned
  exact eq_ok_getD (by decide +kernel) _

theorem Runs.collected {allowed : AnchorNode → Action → Prop} {start node : AnchorNode}
    {payload : Bytes} (run : Runs rules allowed start node) (scans : allowed node (.scan (view payload) [10]))
    (reads : allowed (scanned node payload) (.readPending (view [])))
    (done : startScan rules node (view payload) [10] = .ok (scanned node payload)) :
    Runs rules allowed start (collected node payload) := by
  have read : perform rules (scanned node payload) (.readPending (view [])) = .ok (Sample.collected node payload) := rfl
  exact .step (.step run scans done) reads read

end Sample

open Sample in
/-- The anchor of block 1 is accepted: the scan finds it, and the commit makes it the latest. -/
theorem ratchet_never_moves_back_accepted :
    let collected := collected .fresh (anchorBytes 1 100)
    LatestKept AnchorStore.empty collected.store ∧
      LatestKept collected.store (commitStep collected).store ∧
      (commitStep collected).store.latest = some ⟨1, 100⟩ := by
  intro collected
  have run : Runs rules Undisturbed .fresh collected :=
    Runs.collected .refl trivial trivial scanned_fresh
  have advances := ratchet_never_moves_back rules .refl run
  exact ⟨advances.1, (advances.2 .commit _ (undisturbed_of_startScan rfl scanned_fresh) rfl).1,
    by decide +kernel⟩

open Sample in
/-- Anchors of blocks 1 and 2 have scores 100 and 200. The first is accepted, and while the node
resolves virtual the second arrives by gossip: the commit puts the first one back. In the same way a
pending anchor with score 900 is cleared while the latest one has score 100. -/
theorem commit_moves_ratchet_back :
    let first := gossipStep rules (collected .fresh (anchorBytes 1 100)) (view []) (anchor 2 200)
    let second := gossipStep rules (collected waiting (anchorBytes 1 100)) (view []) (anchor 4 900)
    (Runs rules (fun _ _ => True) .fresh first ∧
      perform rules first .commit = .ok (commitStep first) ∧
      first.store.latest = some ⟨2, 200⟩ ∧
      (commitStep first).store.latest = some ⟨1, 100⟩) ∧
    Runs rules (fun _ _ => True) .fresh second ∧
      perform rules second .commit = .ok (commitStep second) ∧
      second.store.pending = some (anchor 4 900) ∧
      (commitStep second).store.pending = none ∧
      (commitStep second).store.latest = some ⟨1, 100⟩ := by
  intro first second
  have gossiped : perform rules .fresh (.gossip (view []) (anchor 3 90)) = .ok waiting := rfl
  have arrives : perform rules (collected .fresh (anchorBytes 1 100))
    (.gossip (view []) (anchor 2 200)) = .ok first := rfl
  have arrives' : perform rules (collected waiting (anchorBytes 1 100))
    (.gossip (view []) (anchor 4 900)) = .ok second := rfl
  refine ⟨⟨.step (Runs.collected .refl trivial trivial scanned_fresh) trivial arrives,
    rfl, ?_, ?_⟩, .step (Runs.collected (.step .refl trivial gossiped) trivial trivial
      scanned_waiting) trivial arrives', rfl, ?_, ?_, ?_⟩
  all_goals decide +kernel

open Sample in
theorem adopted_anchor_has_quorum_accepted :
    let collected := collected .fresh (anchorBytes 1 100)
    ∃ adopted, adoption rules collected .commit = some adopted ∧
      (commitStep collected).store.latest = some adopted.anchor.stored ∧
      anchorQuorum ≤ (countable (deniedIn (commitStep collected).store.denyList adopted.view
        adopted.pov) adopted.anchor).length := by
  intro collected
  have run : Runs rules (fun _ _ => True) .fresh collected :=
    Runs.collected .refl trivial trivial scanned_fresh
  have nobody : (commitStep collected).store.denyList = [] := by decide +kernel
  have inTime : NoLateDisqualification collected .commit := by
    intro local_ _ anchor _ i _ late
    rw [nobody] at late
    cases late
  obtain ⟨changes, adopts⟩ := adopted_anchor_has_quorum rules run rfl inTime
  have changed : (commitStep collected).store.latest ≠ collected.store.latest := by decide +kernel
  obtain ⟨adopted, here⟩ := Option.isSome_iff_exists.mp (changes changed)
  exact ⟨adopted, here, (adopts adopted here).1, (adopts adopted here).2.1⟩

open Sample in
/-- An anchor of trustees 0, 1 and 2 is pending for a block that is not known yet. Then a resolution
accepts evidence against trustee 2, finds the block known, and promotes the anchor all the same: two
signers are left. -/
theorem promotion_below_quorum :
    let unknown := { view [] with daaScore := fun _ => none }
    let waiting := gossipStep rules .fresh unknown (anchor 2 200)
    let collected := collected waiting evidenceBytes
    Runs rules (fun _ _ => True) .fresh collected ∧
      (commitStep collected).store.latest = some ⟨2, 200⟩ ∧
      (commitStep collected).store.denyList = [⟨2, 10⟩] ∧
      (countable (deniedIn (commitStep collected).store.denyList (view []) 10)
        (anchor 2 200)).length = 2 := by
  intro unknown waiting collected
  have gossiped : perform rules .fresh (.gossip unknown (anchor 2 200)) = .ok waiting := rfl
  have scans : startScan rules waiting (view evidenceBytes) [10] =
      .ok (scanned waiting evidenceBytes) := by
    unfold scanned
    exact eq_ok_getD (by decide +kernel) _
  refine ⟨Runs.collected (.step .refl trivial gossiped) trivial trivial scans, ?_, ?_, ?_⟩
  all_goals decide +kernel

end Marigold.Finality
