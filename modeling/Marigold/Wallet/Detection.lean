import Marigold.Wallet.Committed

/-!
# Anchors the wallet is told of

A follow step that is due asks for the latest anchor and compares the commitment of its block with the one
the wallet recorded when it stood there. An anchored block the wallet has no record of counts as one it has
not reached, wherever the wallet is.
-/

namespace Marigold.Wallet

open Lib NotePool Smt Finality Call

namespace LightPool

variable {σ : Type} (W : LightPool σ)

/-- The step from `s` follows the diffs up to `mid`, where a check is due, and verifies the anchor there. -/
structure Verifies (s mid : LightState × σ) (anchor : FinalityAnchor) (header : Header) (w : σ) : Prop where
  followed : ∃ chain w₀ s₁ s₂, W.rpc.getVirtualChainFromBlock s.1.position s.2 = (.ok chain, w₀) ∧
    chain.addedChainBlockHashes.length ≤ catchUpLimit ∧
    (chain.removedChainBlockHashes ≠ [] → chain.addedChainBlockHashes ≠ []) ∧
    W.takeBack chain.removedChainBlockHashes (s.1, w₀) = (.ok (), s₁) ∧
    W.goForward chain.addedChainBlockHashes s₁ = (.ok (), s₂) ∧
    W.noteScore chain.addedChainBlockHashes s₂ = (.ok (), mid)
  due : W.isDue mid = true
  checked : W.checkedAnchor mid.2 = (.ok (anchor, header), w)

/-- The step failed, or it left the wallet anchored at the block: by a restart, or with its commitment equal
to the one the wallet had there. -/
def Detected (mid : LightState) (anchor : FinalityAnchor) (header : Header)
    (result : Except LightError Followed × LightState × σ) : Prop :=
  match result.1 with
  | .error _ => True
  | .ok done => result.2.1.anchored = anchor.anchoredBlock ∧
      (done.restarted ∨ (done.anchorChecked ∧
        ((anchor.anchoredBlock, header.poolCommitment) ∈ mid.recentRoots ∨ anchor.anchoredBlock = mid.anchored)))

variable {W} {s mid : LightState × σ} {anchor : FinalityAnchor} {header : Header} {w : σ}

theorem outside_ok {T S ε α : Type} {c : Call S ε α} {t : T} {s s' : S} {a : α} (ran : c s = (.ok a, s')) :
    (outside c : Call (T × S) ε α) (t, s) = (.ok a, t, s') := by rw [outside, ran]

theorem Verifies.follow_eq (verifies : W.Verifies s mid anchor header w) :
    ∃ done : Followed, done.restarted = false ∧ done.anchorChecked = false ∧ W.follow s = W.checkWhenDue done mid := by
  obtain ⟨⟨chain, w₀, s₁, s₂, answered, short, forward, back, on, scored⟩, -, -⟩ := verifies
  refine ⟨⟨chain.addedChainBlockHashes.length, chain.removedChainBlockHashes.length, false, false⟩, rfl, rfl, ?_⟩
  have through : ¬ (chain.addedChainBlockHashes.length > catchUpLimit ∨
      (chain.removedChainBlockHashes ≠ [] ∧ chain.addedChainBlockHashes = [])) := by
    rintro (long | ⟨removed, nothing⟩)
    · omega
    · exact forward removed nothing
  rw [W.follow_answered answered]
  simp only [if_neg through]
  exact (bind_ok back _).trans ((bind_ok on _).trans (bind_ok scored _))

theorem Verifies.check_eq (verifies : W.Verifies s mid anchor header w) (done : Followed) : W.checkWhenDue done mid =
      match compareAnchor mid.1 anchor header (W.unixtimeAsMillis w) with
      | (.agreed, state) => (.ok { done with anchorChecked := true }, state, w)
      | (.notYetReached, state) => (.ok done, state, w)
      | (.disagreed, state) => W.startOver done (state, w) := by
  have asked := outside_ok (t := mid.1) verifies.checked
  have check : W.checkAnchor mid = (.ok (compareAnchor mid.1 anchor header (W.unixtimeAsMillis w)).1,
      (compareAnchor mid.1 anchor header (W.unixtimeAsMillis w)).2, w) := by exact bind_ok asked _
  have due : (read W.isDue : Call (LightState × σ) LightError Bool) mid = (.ok true, mid) := by
    rw [Call.read, verifies.due]
  refine (bind_ok due _).trans ((bind_ok check _).trans ?_)
  rcases compareAnchor mid.1 anchor header (W.unixtimeAsMillis w) with ⟨check | check | check, state⟩ <;> rfl

/-- What a restart leaves the wallet anchored at. -/
def RestartsFrom (W : LightPool σ) (s : LightState × σ) (block : Hash) : Prop :=
  ∀ s', W.restart s = (.ok (), s') → s'.1.anchored = block

theorem startOver_detected {done : Followed} {state : LightState} :
    Detected state anchor header (W.startOver done (state, w)) ↔ W.RestartsFrom (state, w) anchor.anchoredBlock := by
  rcases ran : W.restart (state, w) with ⟨e | done', s'⟩
  · have failed : W.startOver done (state, w) = (.error e, s') := bind_error ran _
    rw [failed]
    refine ⟨fun _ s'' ran' => ?_, fun _ => trivial⟩
    rw [ran] at ran'
    cases ran'
  · have restarted : W.startOver done (state, w) = (.ok { done with restarted := true }, s') := bind_ok ran _
    rw [restarted]
    constructor
    · intro detected s'' ran'
      rw [ran] at ran'
      cases ran'
      exact detected.1
    · intro restarts
      exact ⟨restarts s' ran, .inl rfl⟩

theorem Verifies.detects_iff (verifies : W.Verifies s mid anchor header w)
    (newer : mid.1.anchoredDaa < anchor.anchoredDaaScore) : Detected mid.1 anchor header (W.follow s) ↔
      anchor.anchoredBlock = mid.1.anchored ∨
      ∃ root, mid.1.recentRoots.find? (fun pair => pair.1 = anchor.anchoredBlock) = some (anchor.anchoredBlock, root) ∧
        (root = header.poolCommitment ∨ W.RestartsFrom (mid.1, w) anchor.anchoredBlock) := by
  obtain ⟨done, unrestarted, unchecked, follow⟩ := verifies.follow_eq
  rw [follow, verifies.check_eq done]
  have notOlder : ¬ anchor.anchoredDaaScore < mid.1.anchoredDaa := fun older =>
    absurd (UInt64.lt_trans newer older) (UInt64.lt_irrefl _)
  unfold compareAnchor
  rw [if_neg notOlder]
  split_ifs with same
  · exact ⟨fun _ => .inl same, fun _ => ⟨same.symm, .inr ⟨rfl, .inr same⟩⟩⟩
  · cases found : mid.1.recentRoots.find? fun pair => pair.1 = anchor.anchoredBlock with
    | none =>
      -- no record of the block: nothing changes and nothing is reported
      refine ⟨fun detected => absurd detected.1.symm same, ?_⟩
      rintro (there | ⟨root, absent, -⟩)
      · exact absurd there same
      · cases absent
    | some pair =>
      obtain ⟨block, root⟩ := pair
      have named : block = anchor.anchoredBlock := by simpa using List.find?_some found
      subst named
      dsimp only
      split_ifs with differ
      · rw [startOver_detected]
        constructor
        · intro restarts
          exact .inr ⟨root, rfl, .inr restarts⟩
        · rintro (there | ⟨root', same', agrees | restarts⟩)
          · exact absurd there same
          · cases same'
            exact absurd agrees differ
          · exact restarts
      · have agrees := not_not.mp differ
        refine ⟨fun _ => .inr ⟨root, rfl, .inl agrees⟩, fun _ => ⟨rfl, .inr ⟨rfl, .inl ?_⟩⟩⟩
        exact agrees ▸ List.mem_of_find?_eq_some found

/-- The step starts over at once: the chain cannot be had, or is too long to follow. -/
def StartsOver (W : LightPool σ) (s : LightState × σ) (w₀ : σ) : Prop :=
  ∃ answer, W.rpc.getVirtualChainFromBlock s.1.position s.2 = (answer, w₀) ∧
    ∀ chain, answer = .ok chain → chain.addedChainBlockHashes.length > catchUpLimit ∨
      (chain.removedChainBlockHashes ≠ [] ∧ chain.addedChainBlockHashes = [])

theorem StartsOver.follow_eq {w₀ : σ} (startsOver : W.StartsOver s w₀) :
    W.follow s = W.startOver ⟨0, 0, false, false⟩ (s.1, w₀) := by
  obtain ⟨answer, answered, long⟩ := startsOver
  rw [W.follow_answered answered]
  cases answer with
  | error e => rfl
  | ok chain => simp only [if_pos (long chain rfl)]

/-- A restart that verifies an anchor fails or starts from it. -/
theorem restartsFrom_checked {w₀ : σ} {state : LightState} (checked : W.checkedAnchor w₀ = (.ok (anchor, header), w)) :
    W.RestartsFrom (state, w₀) anchor.anchoredBlock := by
  intro s' ran
  have asked : outside W.checkedAnchor (state, w₀) = (.ok (anchor, header), state, w) := outside_ok checked
  have rest := (bind_ok asked _).symm.trans ran
  obtain ⟨fresh, s₂, fetched, rest⟩ := bind_eq_ok.mp rest
  cases rest
  have fetched' : (W.fetchState anchor header w).1 = .ok fresh := congrArg Prod.fst fetched
  obtain ⟨notes, -, is⟩ := fetchState_ok (Prod.ext fetched' rfl)
  exact is.anchored

/-- A step that verifies an anchor newer than the last confirmed one detects a chain without it exactly when
the wallet has a record of the anchored block and, where the commitments differ, the restart fails or
starts from the same anchor. A step that starts over at once fails or starts from the anchor it verifies. -/
theorem follow_detects_iff :
    (∀ (s mid : LightState × σ) anchor header w, W.Verifies s mid anchor header w →
      mid.1.anchoredDaa < anchor.anchoredDaaScore →
      (Detected mid.1 anchor header (W.follow s) ↔
        anchor.anchoredBlock = mid.1.anchored ∨
        ∃ root, mid.1.recentRoots.find? (fun pair => pair.1 = anchor.anchoredBlock) =
            some (anchor.anchoredBlock, root) ∧
          (root = header.poolCommitment ∨ W.RestartsFrom (mid.1, w) anchor.anchoredBlock))) ∧
    ∀ (s : LightState × σ) w₀ anchor header w, W.StartsOver s w₀ →
      W.checkedAnchor w₀ = (.ok (anchor, header), w) → Detected s.1 anchor header (W.follow s) := by
  constructor
  · intro s mid anchor header w verifies newer
    exact verifies.detects_iff newer
  · intro s w₀ anchor header w startsOver checked
    rw [startsOver.follow_eq]
    exact startOver_detected.mpr (restartsFrom_checked checked)

end LightPool

namespace Sample

/-- A wallet started at block 1 is fed the invented block 99, then told of the genuine anchor of block 2. -/
def feedsInvented : RpcApi Nat where
  getVirtualChainFromBlock _ := answer ⟨[], [99]⟩
  getPoolDiff blocks := answer (blocks.map fun block => ⟨block, [], []⟩)
  getBlock block := answer (header block 0 (if block = 99 then 200 else if block = 2 then 150 else 100))
  getFinalityAnchor := fun calls => (.ok (some (if calls = 0 then anchor 1 100 else anchor 2 150)), calls + 1)
  getPoolStateAtBlock _ := answer []

/-- Every subtree without leaves is hashed to zero. -/
def zeroNodes : SmtHasher := ⟨fun _ => 0, fun _ => 1⟩

def fed : LightPool Nat := wallet zeroNodes Smt.Sample.stableSort feedsInvented

/-- Blocks 1 and 2 are on record. -/
def onRecord : LightState := ⟨∅, fed.newTree, 2, 150, 1, 100, 0, [(1, 0), (2, 0)]⟩

/-- A wallet at the sink, with a new anchor to check. -/
def atSink : LightPool Nat :=
  { fed with rpc := { feedsInvented with getVirtualChainFromBlock := fun _ => answer ⟨[], []⟩ } }

def newAnchor : FinalityAnchor := anchorFromRpc (anchor 2 150)

theorem verifies_atSink : atSink.Verifies (onRecord, 1) (onRecord, 2) newAnchor
    (atSink.headerFromRpc (header 2 0 150)) 4 where
  followed := ⟨⟨[], []⟩, 2, _, _, rfl, Nat.zero_le _, fun removed => absurd rfl removed, rfl, rfl, rfl⟩
  due := by decide +kernel
  checked := by decide +kernel

end Sample

open Sample in
set_option maxRecDepth 8000 in
theorem follow_detects_iff_atSink : LightPool.Detected onRecord newAnchor
    (atSink.headerFromRpc (header 2 0 150)) (atSink.follow (onRecord, 1)) := by
  have newer : onRecord.anchoredDaa < newAnchor.anchoredDaaScore := by decide +kernel
  have recorded : onRecord.recentRoots.find? (fun pair => pair.1 = newAnchor.anchoredBlock) =
      some (newAnchor.anchoredBlock, 0) := by decide +kernel
  have detects := LightPool.follow_detects_iff.1 _ _ _ _ _ verifies_atSink newer
  have committed : (0 : Hash) = (atSink.headerFromRpc (header 2 0 150)).poolCommitment := by decide +kernel
  exact detects.mpr (.inr ⟨0, recorded, .inl committed⟩)

namespace Sample

/-- What the wallet started at block 1 holds. -/
def startedAtOne : LightState := ⟨∅, fed.newTree, 1, 100, 1, 100, 60000, [(1, 0)]⟩

/-- The same wallet after the diff of the invented block. -/
def misled : LightState :=
  { fed.applyRecorded startedAtOne ⟨99, [], []⟩ with position := 99, atDaa := 200 }

set_option maxRecDepth 8000 in
theorem start_fed : fed.start 0 = (.ok startedAtOne, 3) := by
  have checked : fed.checkedAnchor 0 =
      (.ok (anchorFromRpc (anchor 1 100), fed.headerFromRpc (header 1 0 100)), 2) := by decide +kernel
  have answered : mapError LightError.noPoolStateCall
      (fed.rpc.getPoolStateAtBlock (anchorFromRpc (anchor 1 100)).anchoredBlock) 2 = (.ok [], 3) := rfl
  have taken : (ofExcept (fed.takeNotes [] (∅, [])) : Call Nat LightError _) 3 = (.ok (∅, []), 3) := rfl
  have committed : ¬ (fed.updateTree fed.newTree []).root ≠ (fed.headerFromRpc (header 1 0 100)).poolCommitment := by
    decide +kernel
  refine (bind_ok checked _).trans ((bind_ok answered _).trans ((bind_ok taken _).trans ?_))
  dsimp only
  rw [if_neg committed]
  rfl

theorem verifies_misled : fed.Verifies (startedAtOne, 3) (misled, 6) newAnchor
    (fed.headerFromRpc (header 2 0 150)) 8 where
  followed := by
    have diffs : outside (fed.fetchDiffs [99]) (startedAtOne, 4) = (.ok [⟨99, [], []⟩], startedAtOne, 5) := rfl
    refine ⟨⟨[], [99]⟩, 4, _, _, rfl, by decide, fun _ => by decide, rfl, bind_ok diffs _, rfl⟩
  due := by decide +kernel
  checked := by decide +kernel

end Sample

open Sample in
/-- The step verifies an anchor newer than the last confirmed one and behind the wallet's position. Its
block is not on the wallet's chain, and the step ends as if the wallet had not got there yet. -/
theorem follow_misses_anchor :
    fed.start 0 = (.ok startedAtOne, 3) ∧
      fed.Verifies (startedAtOne, 3) (misled, 6) newAnchor (fed.headerFromRpc (header 2 0 150)) 8 ∧
      misled.anchoredDaa < newAnchor.anchoredDaaScore ∧ newAnchor.anchoredDaaScore ≤ misled.atDaa ∧
      ∃ done, fed.follow (startedAtOne, 3) = (.ok done, misled, 8) ∧ done.restarted = false ∧
        done.anchorChecked = false := by
  refine ⟨start_fed, verifies_misled, by decide +kernel, by decide +kernel, ?_⟩
  obtain ⟨done, unrestarted, unchecked, follow⟩ := verifies_misled.follow_eq
  have compared : LightPool.compareAnchor misled newAnchor (fed.headerFromRpc (header 2 0 150))
      (fed.unixtimeAsMillis 8) = (.notYetReached, misled) := by
    have notOlder : ¬ newAnchor.anchoredDaaScore < misled.anchoredDaa := by decide +kernel
    have other : newAnchor.anchoredBlock ≠ misled.anchored := by decide +kernel
    have unknown : misled.recentRoots.find? (fun pair => pair.1 = newAnchor.anchoredBlock) = none := by
      decide +kernel
    rw [LightPool.compareAnchor, if_neg notOlder, if_neg other, unknown]
  refine ⟨done, ?_, unrestarted, unchecked⟩
  rw [follow, verifies_misled.check_eq done, compared]

end Marigold.Wallet
