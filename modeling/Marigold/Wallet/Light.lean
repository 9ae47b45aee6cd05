import Marigold.Finality.Anchor
import Marigold.Lib.Calls
import Marigold.NotePool.CommitmentStore
import Marigold.Smt.InMemory
import Marigold.Smt.Unsorted

/-!
# The light wallet's copy of the pool

`wallet/core/src/light.rs`: a wallet without a node of its own takes the whole pool as of the block the
trustees' latest anchor names, checks it against that block's commitment, and then follows the chain
through the pool diffs of the blocks added and removed. Everything it is told comes from a computer it
does not trust.
-/

namespace Marigold.Wallet

open Lib NotePool Smt Finality

def catchUpLimit : Nat := 18000

def diffsPerCall : Nat := 2000

def rootsKept : Nat := 6000

def anchorCheckEveryMs : UInt64 := 20000

/-! ## What the other computer answers -/

structure RpcNoteEntry where
  sn : Hash
  denomination : UInt8
  pk : PublicKey
  lock : Option NoteLock
  deriving DecidableEq, Repr

structure RpcPoolDiff where
  block : Hash
  added : List RpcNoteEntry
  removed : List RpcNoteEntry
  deriving DecidableEq, Repr

structure RpcChain where
  removedChainBlockHashes : List Hash
  addedChainBlockHashes : List Hash
  deriving DecidableEq, Repr

structure RpcFinalityAnchor where
  anchoredBlock : Hash
  anchoredDaaScore : UInt64
  signerBitmap : UInt8
  /-- One after the other, 64 bytes each. -/
  signatures : Bytes
  deriving DecidableEq, Repr

/-- The fields a block is hashed from. -/
structure RpcHeader where
  version : UInt16
  parentsByLevel : List (List Hash)
  hashMerkleRoot : Hash
  acceptedIdMerkleRoot : Hash
  utxoCommitment : Hash
  poolCommitment : Hash
  timestamp : UInt64
  bits : UInt32
  nonce : UInt64
  daaScore : UInt64
  blueWork : BitVec 192
  blueScore : UInt64
  pruningPoint : Hash
  deriving DecidableEq, Repr

structure Header extends RpcHeader where
  hash : Hash
  deriving DecidableEq, Repr

/-- The calls the wallet makes. Every answer may depend on all that was asked before, and any call can
fail. -/
structure RpcApi (σ : Type) where
  getVirtualChainFromBlock : Hash → Call σ String RpcChain
  getPoolDiff : List Hash → Call σ String (List RpcPoolDiff)
  getBlock : Hash → Call σ String RpcHeader
  getFinalityAnchor : Call σ String (Option RpcFinalityAnchor)
  getPoolStateAtBlock : Hash → Call σ String (List RpcNoteEntry)

inductive LightError where
  | noFinalityAnchorCall (e : String)
  | noFinalityAnchorYet
  | malformedSignatures
  | anchorNotVerified (e : FinalityAnchorError)
  | anchoredBlockNotFetched (e : String)
  | notTheAnchoredBlock
  | otherDaaScore
  | noPoolStateCall (e : String)
  | stateNotCommitted
  | diffsNotFetched (e : String)
  | diffsOfOtherBlocks
  | unknownDenominationTag (tag : UInt8)
  deriving DecidableEq, Repr

/-! ## The state -/

/-- The commitment tree over the entries. -/
structure LightTree where
  store : BTreeSmtStore
  root : Hash

structure LightState where
  entries : PoolCollection
  tree : LightTree
  /-- `at`: the chain block the state is as of, after its mergeset. -/
  position : Hash
  atDaa : UInt64
  /-- The last anchor the state was checked against. -/
  anchored : Hash
  anchoredDaa : UInt64
  checkedMs : UInt64
  /-- Chain blocks and the commitments after them, newest last. -/
  recentRoots : List (Hash × Hash)

structure Followed where
  added : Nat
  removed : Nat
  restarted : Bool
  anchorChecked : Bool
  deriving DecidableEq, Repr

inductive AnchorCheck where
  | agreed
  | notYetReached
  | disagreed
  deriving DecidableEq, Repr

/-- A light wallet and the world it runs in: the pinned keys, the hashes, the sort that orders equal keys
as it likes, the computer it asks and the clock. -/
structure LightPool (σ : Type) where
  crypto : AnchorCrypto
  trustees : TrusteeKeys
  hashers : Hashers
  headerHash : RpcHeader → Hash
  sort : UnstableSort
  rpc : RpcApi σ
  unixtimeAsMillis : σ → UInt64

def poolEntry (note : RpcNoteEntry) : Except LightError PoolEntry :=
  match DenominationTag.tryFrom note.denomination with
  | none => .error (.unknownDenominationTag note.denomination)
  | some d => .ok ⟨⟨d, note.pk⟩, note.lock⟩

def rpcEntry (sn : Hash) (e : PoolEntry) : RpcNoteEntry := ⟨sn, e.note.d.toByte, e.note.pk, e.lock⟩

theorem poolEntry_rpcEntry (sn : Hash) (e : PoolEntry) : poolEntry (rpcEntry sn e) = .ok e := by
  rw [poolEntry, rpcEntry, DenominationTag.tryFrom_toByte]

/-- The signatures cut out of the bytes, 64 at a time. -/
def anchorFromRpc (got : RpcFinalityAnchor) : FinalityAnchor where
  anchoredBlock := got.anchoredBlock
  anchoredDaaScore := got.anchoredDaaScore
  signerBitmap := got.signerBitmap
  signatures := (pieces 64 (got.signatures.length / 64) got.signatures).map fun piece => BitVec.ofNat 512 (readBE piece)

/-- `chunks`; the count bounds their number. -/
def chunks {α : Type} (size : Nat) : Nat → List α → List (List α)
  | 0, _ => []
  | _ + 1, [] => []
  | count + 1, rest => rest.take size :: chunks size count (rest.drop size)

namespace LightPool

variable {σ : Type} (W : LightPool σ)

def smt : SmtHasher := smtHasher W.hashers

def newTree : LightTree := ⟨⟨∅, ∅⟩, emptyRoot W.smt⟩

/-- `LightTree::update`; a leaf hash of zero removes the leaf. -/
def updateTree (tree : LightTree) (updates : List LeafUpdate) : LightTree :=
  if updates.isEmpty then tree
  else
    let store := updates.foldl (fun store u => store.insertLeaf u.key u.leafHash) tree.store
    let sorted := W.sort.fromUnsorted updates
    let (root, changes) := computeRootUpdate W.smt store.getNode tree.root sorted
    ⟨{ store with nodes := changes.entries.foldl insertNode store.nodes }, root⟩

def headerFromRpc (h : RpcHeader) : Header := { h with hash := W.headerHash h }

/-! ## The anchor and the state it commits to -/

/-- The latest anchor, verified against the trustees' keys, with the header of the block it names. -/
def checkedAnchor : Call σ LightError (FinalityAnchor × Header) := do
  let got ← W.rpc.getFinalityAnchor.mapError .noFinalityAnchorCall
  match got with
  | none => .fail .noFinalityAnchorYet
  | some got =>
    if got.signatures.length % 64 ≠ 0 then .fail .malformedSignatures
    else
      let anchor := anchorFromRpc got
      match verifyAnchor W.crypto anchor W.trustees with
      | .error e => .fail (.anchorNotVerified e)
      | .ok () =>
        let block ← (W.rpc.getBlock anchor.anchoredBlock).mapError .anchoredBlockNotFetched
        let header := W.headerFromRpc block
        if header.hash ≠ anchor.anchoredBlock then .fail .notTheAnchoredBlock
        else if header.daaScore ≠ anchor.anchoredDaaScore then .fail .otherDaaScore
        else return (anchor, header)

/-- The loop over the notes of `fetch_state`. -/
def takeNotes : List RpcNoteEntry → PoolCollection × List LeafUpdate →
    Except LightError (PoolCollection × List LeafUpdate)
  | [], taken => .ok taken
  | note :: rest, (entries, leaves) => do
    let entry ← poolEntry note
    takeNotes rest (entries.insert note.sn entry, leaves ++ [⟨note.sn, leafHashEntry W.hashers entry⟩])

/-- The pool state as of the anchored block, checked against its commitment. -/
def fetchState (anchor : FinalityAnchor) (header : Header) : Call σ LightError LightState := do
  let notes ← (W.rpc.getPoolStateAtBlock anchor.anchoredBlock).mapError .noPoolStateCall
  let (entries, leaves) ← .ofExcept (W.takeNotes notes (∅, []))
  let tree := W.updateTree W.newTree leaves
  if tree.root ≠ header.poolCommitment then .fail .stateNotCommitted
  else
    let now ← .read W.unixtimeAsMillis
    return ⟨entries, tree, anchor.anchoredBlock, anchor.anchoredDaaScore, anchor.anchoredBlock,
      anchor.anchoredDaaScore, now, [(anchor.anchoredBlock, header.poolCommitment)]⟩

def start : Call σ LightError LightState := do
  let (anchor, header) ← W.checkedAnchor
  W.fetchState anchor header

/-! ## Diffs -/

def fetchChunks : List (List Hash) → Call σ LightError (List RpcPoolDiff)
  | [] => return []
  | chunk :: rest => do
    let got ← (W.rpc.getPoolDiff chunk).mapError .diffsNotFetched
    if got.length ≠ chunk.length ∨ (got.zip chunk).any (fun pair => pair.1.block ≠ pair.2) then
      .fail .diffsOfOtherBlocks
    else return got ++ (← fetchChunks rest)

def fetchDiffs (blocks : List Hash) : Call σ LightError (List RpcPoolDiff) :=
  W.fetchChunks (chunks diffsPerCall blocks.length blocks)

/-- The notes among those put in that can be read. -/
def readable (notes : List RpcNoteEntry) : List (Hash × PoolEntry) :=
  notes.filterMap fun note => (poolEntry note).toOption.map fun entry => (note.sn, entry)

/-- The leaves of `shift`, in the order they are pushed. -/
def shiftLeaves (out into : List RpcNoteEntry) : List LeafUpdate :=
  out.map (fun note => ⟨note.sn, Hash.zero⟩) ++ (readable into).map fun row => ⟨row.1, leafHashEntry W.hashers row.2⟩

variable (state : LightState)

/-- Takes `out` out of the state and puts `into` in, in one tree update. -/
def shift (out into : List RpcNoteEntry) : LightState :=
  { state with
    entries := (state.entries.deleteMany (out.map RpcNoteEntry.sn)).putMany (readable into)
    tree := W.updateTree state.tree (W.shiftLeaves out into) }

def apply (diff : RpcPoolDiff) : LightState :=
  W.shift state diff.removed diff.added

def unapply (diff : RpcPoolDiff) : LightState :=
  W.shift state diff.added diff.removed

/-- The body of the loop over the added blocks: the diff, and the commitment after it. -/
def applyRecorded (diff : RpcPoolDiff) : LightState :=
  let state := W.apply state diff
  let roots := state.recentRoots ++ [(diff.block, state.tree.root)]
  { state with recentRoots := roots.drop (roots.length - rootsKept) }

/-! ## Following the chain -/

def restart : Call (LightState × σ) LightError Unit := do
  let (anchor, header) ← .outside W.checkedAnchor
  let fresh ← .outside (W.fetchState anchor header)
  .update fun s => (fresh, s.2)

/-- A fresh state, reported as such. -/
def startOver (done : Followed) : Call (LightState × σ) LightError Followed := do
  W.restart
  return { done with restarted := true }

/-- What an anchor and the header of its block say about the state, and the state afterwards. -/
def compareAnchor (anchor : FinalityAnchor) (header : Header) (now : UInt64) : AnchorCheck × LightState :=
  if anchor.anchoredDaaScore < state.anchoredDaa then (.notYetReached, state)
  else if anchor.anchoredBlock = state.anchored then (.agreed, { state with checkedMs := now })
  else
    match state.recentRoots.find? fun pair => pair.1 = anchor.anchoredBlock with
    | none => (.notYetReached, state)
    | some (_, root) =>
      if root ≠ header.poolCommitment then (.disagreed, state)
      else (.agreed, { state with anchored := anchor.anchoredBlock,
                                  anchoredDaa := anchor.anchoredDaaScore, checkedMs := now })

def checkAnchor : Call (LightState × σ) LightError AnchorCheck := do
  let (anchor, header) ← .outside W.checkedAnchor
  let (check, state) ← .read fun s => compareAnchor s.1 anchor header (W.unixtimeAsMillis s.2)
  .update fun s => (state, s.2)
  return check

/-- The removed blocks are taken out from the top down, and what was recorded for them is void. -/
def withoutBlocks (removed : List Hash) (diffs : List RpcPoolDiff) : LightState :=
  let state := diffs.foldl W.unapply state
  { state with recentRoots := state.recentRoots.filter fun pair => pair.1 ∉ removed }

def takeBack (removed : List Hash) : Call (LightState × σ) LightError Unit := do
  if removed.isEmpty then return ()
  else
    let diffs ← .outside (W.fetchDiffs removed)
    .update fun s => (W.withoutBlocks s.1 removed diffs, s.2)

def withBlocks (added : List Hash) (diffs : List RpcPoolDiff) : LightState :=
  let state := diffs.foldl W.applyRecorded state
  { state with position := added.getLast?.getD state.position }

def goForward (added : List Hash) : Call (LightState × σ) LightError Unit := do
  if added.isEmpty then return ()
  else
    let diffs ← .outside (W.fetchDiffs added)
    .update fun s => (W.withBlocks s.1 added diffs, s.2)

/-- The DAA score of where the wallet is now, if the header can be had. -/
def noteScore (added : List Hash) : Call (LightState × σ) LightError Unit := do
  match added.getLast? with
  | none => return ()
  | some last =>
    match ← .attempt (.outside (W.rpc.getBlock last)) with
    | .error _ => return ()
    | .ok header => .update fun s => ({ s.1 with atDaa := header.daaScore }, s.2)

def isDue (s : LightState × σ) : Bool :=
  saturatingSub (W.unixtimeAsMillis s.2) s.1.checkedMs ≥ anchorCheckEveryMs

def checkWhenDue (done : Followed) : Call (LightState × σ) LightError Followed := do
  let due ← .read W.isDue
  if due then
    match ← W.checkAnchor with
    | .agreed => return { done with anchorChecked := true }
    | .notYetReached => return done
    | .disagreed => W.startOver done
  else return done

/-- One step of following the chain. -/
def follow : Call (LightState × σ) LightError Followed := do
  let position ← .read fun s => s.1.position
  match ← .attempt (.outside (W.rpc.getVirtualChainFromBlock position)) with
  | .error _ => W.startOver ⟨0, 0, false, false⟩
  | .ok chain =>
    let removed := chain.removedChainBlockHashes
    let added := chain.addedChainBlockHashes
    if added.length > catchUpLimit ∨ (removed ≠ [] ∧ added = []) then
      W.startOver ⟨0, 0, false, false⟩
    else
      W.takeBack removed
      W.goForward added
      W.noteScore added
      W.checkWhenDue ⟨added.length, removed.length, false, false⟩

theorem follow_answered {s : LightState × σ} {answer : Except String RpcChain} {w : σ}
    (answered : W.rpc.getVirtualChainFromBlock s.1.position s.2 = (answer, w)) :
    W.follow s = (match answer with
      | .error _ => W.startOver ⟨0, 0, false, false⟩
      | .ok chain =>
        if chain.addedChainBlockHashes.length > catchUpLimit ∨
            (chain.removedChainBlockHashes ≠ [] ∧ chain.addedChainBlockHashes = []) then
          W.startOver ⟨0, 0, false, false⟩
        else W.takeBack chain.removedChainBlockHashes >>= fun _ =>
          W.goForward chain.addedChainBlockHashes >>= fun _ =>
          W.noteScore chain.addedChainBlockHashes >>= fun _ =>
          W.checkWhenDue ⟨chain.addedChainBlockHashes.length, chain.removedChainBlockHashes.length, false, false⟩)
        (s.1, w) := by
  have position : (Call.read fun s : LightState × σ => s.1.position : Call (LightState × σ) LightError Hash) s =
      (.ok s.1.position, s) := rfl
  have asked : (Call.attempt (Call.outside (W.rpc.getVirtualChainFromBlock s.1.position)) :
      Call (LightState × σ) LightError (Except String RpcChain)) s = (.ok answer, s.1, w) := by
    rw [Call.attempt, Call.outside, answered]
  refine (Call.bind_ok position _).trans ((Call.bind_ok asked _).trans ?_)
  cases answer with
  | error e => rfl
  | ok chain => rfl

end LightPool

/-! ## Lookups -/

def LightState.notes (state : LightState) (serials : List Hash) : List RpcNoteEntry :=
  serials.filterMap fun sn => (state.entries.lookup sn).map (rpcEntry sn)

def LightState.notesOnKeys (state : LightState) (pks : List PublicKey) : List RpcNoteEntry :=
  (state.entries.entries.filter fun row => row.2.note.pk ∈ pks).map fun row => rpcEntry row.1 row.2

namespace Sample

/-- Every signature verifies. -/
def anyCrypto : AnchorCrypto := ⟨fun _ => 0, fun _ => true, fun _ _ _ => true⟩

/-- A header hashed to its merkle root. -/
def header (block commitment : Hash) (daaScore : UInt64) : RpcHeader :=
  ⟨0, [], block, 0, 0, commitment, 0, 0, 0, daaScore, 0, 0, 0⟩

/-- An anchor of the first three trustees. -/
def anchor (block : Hash) (daaScore : UInt64) : RpcFinalityAnchor :=
  ⟨block, daaScore, 7, List.replicate 192 0⟩

/-- Leaf hashes count up the denomination, from 5. -/
def hashers (smt : SmtHasher) : Hashers := ⟨fun _ => 0, fun _ => 0, fun _ => 0, fun _ => 0,
  fun bytes => BitVec.ofNat 256 (readLE bytes % 256 + 5), fun _ => 0, fun _ => 0, fun _ => 0, smt.node,
  smt.collapsed⟩

theorem leavesNonzero (smt : SmtHasher) : LeavesNonzero (hashers smt) := by
  intro entry zero
  have number := congrArg BitVec.toNat zero
  simp only [leafHashEntry, hashers, BitVec.toNat_ofNat, Hash.zero] at number
  omega

/-- The clock is a third of a minute on after every call. -/
def wallet (smt : SmtHasher) (sort : UnstableSort) (rpc : RpcApi Nat) : LightPool Nat :=
  ⟨anyCrypto, fun _ => 0, hashers smt, RpcHeader.hashMerkleRoot, sort, rpc, fun calls => 20000 * UInt64.ofNat calls⟩

/-- An answer that takes one call. -/
def answer {α : Type} (a : α) : Call Nat String α := fun calls => (.ok a, calls + 1)

def smallNote : PoolEntry := ⟨⟨.d1, 9⟩, none⟩

def largeNote : PoolEntry := ⟨⟨.d10, 9⟩, none⟩

end Sample

end Marigold.Wallet
