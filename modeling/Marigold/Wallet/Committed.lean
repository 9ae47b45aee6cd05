import Marigold.Wallet.Light

/-!
# What the trustees signed

The entries a light wallet holds and the tree it checks are kept from the same lists by different rules.
As long as no list it is given is ambiguous, the two agree: where the root of the tree is the commitment
of an anchored block, the entries are just the notes that block commits to.
-/

namespace Marigold.Wallet

open Lib NotePool Smt Finality Call

namespace LightPool

variable {σ : Type} (W : LightPool σ)

/-- The leaves of a set of entries. -/
def leaves (entries : PoolCollection) : LeafMap := poolLeafMap W.hashers entries.lookup

/-- The tree is that of the entries. -/
structure Consistent (tree : LightTree) (entries : PoolCollection) : Prop where
  nodes : Represents W.smt tree.store.getNode (W.leaves entries)
  root : tree.root = canonRoot W.smt (W.leaves entries)

/-- Updates the tree follows: those of one serial agree, no leaf that stands alone below a node is deleted
together with absent ones there, and none is updated without the leaf it shares a parent with. -/
structure Admissible (tree : LightTree) (entries : PoolCollection) (updates : List LeafUpdate) : Prop where
  clear : Unambiguous updates
  fresh : ∀ depth leaf, depth < 256 → tree.store.getNode (.new depth leaf.laneKey) = some (.collapsed leaf) →
    ¬ Stale updates depth leaf
  kept : ∀ sn, ¬ Lost (W.leaves entries) updates sn

variable {W} {tree : LightTree} {entries : PoolCollection} {updates : List LeafUpdate}
  {out into notes : List RpcNoteEntry} {state fresh : LightState} {anchor : FinalityAnchor} {header : Header} {w w' : σ}
  {seen : List LightState}

theorem written_isSome_fromUnsorted (S : UnstableSort) (sn : Hash) :
    (written (S.fromUnsorted updates).updates sn).isSome = (written updates sn).isSome := by
  rw [Bool.eq_iff_iff, Option.isSome_iff_ne_none, Option.isSome_iff_ne_none]
  rw [ne_eq, ne_eq, S.written_fromUnsorted_eq_none, written_eq_none]

theorem Admissible.sound (admissible : W.Admissible tree entries updates) :
    Sound tree.store.getNode (W.leaves entries) (W.sort.fromUnsorted updates).updates 256 Hash.zero := by
  constructor
  · rintro depth leaf - small - there ⟨updated, ⟨u, member, common, differ⟩, cleared⟩
    refine admissible.fresh depth leaf small there ⟨?_, ⟨u, ?_, common, differ⟩, fun v member' common' => ?_⟩
    · rwa [written_isSome_fromUnsorted] at updated
    · exact (W.sort.perm updates).mem_iff.mp (mem_of_mem_keepLast member)
    · -- the kept update of the same key is a deletion
      obtain ⟨w, kept, same⟩ := exists_mem_keepLast ((W.sort.perm updates).mem_iff.mpr member')
      have there := (W.sort.perm updates).mem_iff.mp (mem_of_mem_keepLast kept)
      rw [admissible.clear v member' w there same.symm]
      exact cleared w kept (same ▸ common')
  · rintro sn - ⟨live, twinLive, updated, untouched⟩
    rw [written_isSome_fromUnsorted] at updated
    rw [W.sort.written_fromUnsorted_eq_none, ← written_eq_none] at untouched
    exact admissible.kept sn ⟨live, twinLive, updated, untouched⟩

theorem getNode_insertLeaves (store : BTreeSmtStore) (updates : List LeafUpdate) :
    (updates.foldl (fun store u => store.insertLeaf u.key u.leafHash) store).getNode = store.getNode := by
  induction updates generalizing store with
  | nil => rfl
  | cons u rest ih =>
    rw [List.foldl_cons, ih]
    exact getNode_insertLeaf store u.key u.leafHash

theorem updateTree_eq (tree : LightTree) (updates : List LeafUpdate) : (W.updateTree tree updates).store.getNode =
        overlaid W.smt tree.store.getNode tree.root (W.sort.fromUnsorted updates) ∧ (W.updateTree tree updates).root =
        (computeRootUpdate W.smt tree.store.getNode tree.root (W.sort.fromUnsorted updates)).1 := by
  have nodes := getNode_insertLeaves tree.store updates
  cases updates with
  | nil =>
    have nothing : ¬ (W.sort.fromUnsorted []).updates ≠ [] := by simp [W.sort.fromUnsorted_nil]
    rw [overlaid, computeRootUpdate, dif_neg nothing]
    exact ⟨rfl, rfl⟩
  | cons u rest =>
    generalize first : u :: rest = updates at nodes
    have some' : ¬ updates.isEmpty = true := by simp [← first]
    rw [updateTree, if_neg some']
    constructor
    · funext key
      refine (lookup_insertNodes _ _ key).trans ?_
      change readNode (updates.foldl _ tree.store).getNode
        (computeRootUpdate W.smt (updates.foldl _ tree.store).getNode tree.root _).2 key = _
      rw [nodes]
      rfl
    · change (computeRootUpdate W.smt (updates.foldl _ tree.store).getNode tree.root _).1 = _
      rw [nodes]

theorem Consistent.updateTree (consistent : W.Consistent tree entries)
    (admissible : W.Admissible tree entries updates) {entries' : PoolCollection}
    (same : W.leaves entries' = applied (W.leaves entries) (W.sort.fromUnsorted updates).updates) :
    W.Consistent (W.updateTree tree updates) entries' := by
  obtain ⟨nodes, root⟩ := overlaid_of_sound consistent.nodes admissible.sound
  rw [← consistent.root, ← same] at nodes root
  obtain ⟨getNode, newRoot⟩ := updateTree_eq (W := W) tree updates
  exact ⟨getNode ▸ nodes, newRoot.trans root⟩

/-! ## Entries and leaves -/

theorem mem_shiftLeaves {u : LeafUpdate} : u ∈ W.shiftLeaves out into ↔ (∃ note ∈ out, u = ⟨note.sn, Hash.zero⟩) ∨
      ∃ row ∈ readable into, u = ⟨row.1, leafHashEntry W.hashers row.2⟩ := by
  simp only [shiftLeaves, List.mem_append, List.mem_map, eq_comm]

theorem leaves_shift (clear : Unambiguous (W.shiftLeaves out into)) (state : LightState) :
    W.leaves (W.shift state out into).entries =
      applied (W.leaves state.entries) (W.sort.fromUnsorted (W.shiftLeaves out into)).updates := by
  funext sn
  have entry : (W.shift state out into).entries.lookup sn = (Map.written (readable into) sn).or
      (if sn ∈ out.map RpcNoteEntry.sn then none else state.entries.lookup sn) := by
    rw [← Map.lookup_deleteMany]
    exact Map.lookup_putMany _ _ sn
  rw [leaves, poolLeafMap, entry, applied]
  cases put : Map.written (readable into) sn with
  | some entry =>
    have told : ⟨sn, leafHashEntry W.hashers entry⟩ ∈ W.shiftLeaves out into :=
      mem_shiftLeaves.mpr (.inr ⟨(sn, entry), Map.mem_of_written put, rfl⟩)
    rw [W.sort.written_fromUnsorted clear told]
    rfl
  | none =>
    rw [Option.none_or]
    split
    next taken =>
      obtain ⟨note, member, rfl⟩ := List.mem_map.mp taken
      have told : ⟨note.sn, Hash.zero⟩ ∈ W.shiftLeaves out into :=
        mem_shiftLeaves.mpr (.inl ⟨note, member, rfl⟩)
      rw [W.sort.written_fromUnsorted clear told]
      rfl
    next untouched =>
      have silent : written (W.sort.fromUnsorted (W.shiftLeaves out into)).updates sn = none := by
        refine W.sort.written_fromUnsorted_eq_none.mpr fun u member same => ?_
        rcases mem_shiftLeaves.mp member with ⟨note, there, rfl⟩ | ⟨row, there, rfl⟩
        · exact untouched (List.mem_map.mpr ⟨note, there, same⟩)
        · subst same
          exact Map.written_eq_none.mp put row.2 there
      rw [silent]
      rfl

theorem Consistent.shift (consistent : W.Consistent state.tree state.entries)
    (admissible : W.Admissible state.tree state.entries (W.shiftLeaves out into)) :
    W.Consistent (W.shift state out into).tree (W.shift state out into).entries :=
  consistent.updateTree admissible (leaves_shift admissible.clear state)

theorem consistent_new : W.Consistent W.newTree ∅ where
  nodes := represents_empty W.smt
  root := (canonRoot_noLeaves W.smt).symm

theorem admissible_new {updates : List LeafUpdate} (clear : Unambiguous updates) :
    W.Admissible W.newTree ∅ updates where
  clear := clear
  fresh depth leaf _ there := by cases there
  kept sn lost := lost.1 rfl

theorem takeNotes_eq {before after : PoolCollection × List LeafUpdate} (taken : W.takeNotes notes before = .ok after) :
    after = (before.1.putMany (readable notes),
      before.2 ++ (readable notes).map fun row => ⟨row.1, leafHashEntry W.hashers row.2⟩) := by
  induction notes generalizing before with
  | nil =>
    cases taken
    simp [readable, Map.putMany]
  | cons note rest ih =>
    obtain ⟨entry, read, taken⟩ := Outcome.bind_eq_ok.mp taken
    rw [ih taken]
    simp [readable, read, Except.toOption, Map.putMany]

/-- What a fetched state is: the answer shifted into an empty one. -/
structure Fetched (W : LightPool σ) (anchor : FinalityAnchor) (header : Header) (notes : List RpcNoteEntry)
    (fresh : LightState) : Prop where
  entries : fresh.entries = (∅ : PoolCollection).putMany (readable notes)
  tree : fresh.tree = W.updateTree W.newTree (W.shiftLeaves [] notes)
  root : fresh.tree.root = header.poolCommitment
  position : fresh.position = anchor.anchoredBlock
  anchored : fresh.anchored = anchor.anchoredBlock
  recentRoots : fresh.recentRoots = [(anchor.anchoredBlock, header.poolCommitment)]

theorem fetchState_ok (fetched : W.fetchState anchor header w = (.ok fresh, w')) :
    ∃ notes, W.rpc.getPoolStateAtBlock anchor.anchoredBlock w = (.ok notes, w') ∧
      Fetched W anchor header notes fresh := by
  obtain ⟨notes, w₁, answered, rest⟩ := bind_eq_ok.mp fetched
  obtain ⟨⟨entries, leaves⟩, w₂, taken, rest⟩ := bind_eq_ok.mp rest
  obtain rfl : w₁ = w₂ := congrArg Prod.snd taken
  have both := congrArg Prod.fst taken
  cases takeNotes_eq both
  dsimp only at rest
  split at rest
  · cases rest
  next agrees =>
    obtain ⟨now, w₃, clock, rest⟩ := bind_eq_ok.mp rest
    cases clock
    cases rest
    refine ⟨notes, ?_, ⟨rfl, rfl, not_not.mp agrees, rfl, rfl, rfl⟩⟩
    unfold mapError at answered
    split at answered
    next here =>
      cases answered
      exact here
    · cases answered

theorem Fetched.consistent (fetched : Fetched W anchor header notes fresh)
    (clear : Unambiguous (W.shiftLeaves [] notes)) : W.Consistent fresh.tree fresh.entries := by
  rw [fetched.tree, fetched.entries]
  exact consistent_new.updateTree (admissible_new clear) (leaves_shift clear ⟨∅, W.newTree, 0, 0, 0, 0, 0, []⟩)

theorem checkedAnchor_ok (checked : W.checkedAnchor w = (.ok (anchor, header), w')) :
    verifyAnchor W.crypto anchor W.trustees = .ok () ∧ W.headerHash header.toRpcHeader = anchor.anchoredBlock ∧
      header.daaScore = anchor.anchoredDaaScore := by
  obtain ⟨got, w₁, -, rest⟩ := bind_eq_ok.mp checked
  split at rest
  · cases rest
  next got =>
    split at rest
    · cases rest
    · cases verified : verifyAnchor W.crypto (anchorFromRpc got) W.trustees with
      | error e =>
        simp only [verified] at rest
        cases rest
      | ok =>
        simp only [verified] at rest
        obtain ⟨block, w₂, -, rest⟩ := bind_eq_ok.mp rest
        split at rest
        · cases rest
        next named =>
          split at rest
          · cases rest
          next score =>
            cases rest
            exact ⟨verified, not_not.mp named, not_not.mp score⟩

/-! ## Trails -/

/-- A state fetched for a checked anchor, with a condition on the updates its tree is built from. -/
inductive Fresh (W : LightPool σ) (meets : LightTree → PoolCollection → List LeafUpdate → Prop) : LightState → Prop
  | fetched {fresh : LightState} {anchor : FinalityAnchor} {header : Header} {w w' w₁ w₂ : σ}
    (checked : W.checkedAnchor w = (.ok (anchor, header), w'))
    (fetched : W.fetchState anchor header w₁ = (.ok fresh, w₂))
    (met : ∀ notes, W.rpc.getPoolStateAtBlock anchor.anchoredBlock w₁ = (.ok notes, w₂) →
      meets W.newTree ∅ (W.shiftLeaves [] notes)) : Fresh W meets fresh

/-- One change of the state, with a condition on every list of updates the tree is given. -/
inductive Move (W : LightPool σ) (meets : LightTree → PoolCollection → List LeafUpdate → Prop)
    (state : LightState) : LightState → Prop
  | restarted {fresh : LightState} (fetched : Fresh W meets fresh) : Move W meets state fresh
  | unapplied (diff : RpcPoolDiff)
    (met : meets state.tree state.entries (W.shiftLeaves diff.added diff.removed)) :
    Move W meets state (W.unapply state diff)
  | applied (diff : RpcPoolDiff)
    (met : meets state.tree state.entries (W.shiftLeaves diff.removed diff.added)) :
    Move W meets state (W.applyRecorded state diff)
  | voided (removed : List Hash) :
    Move W meets state { state with recentRoots := state.recentRoots.filter fun pair => pair.1 ∉ removed }
  | moved (position : Hash) : Move W meets state { state with position }
  | scored (atDaa : UInt64) : Move W meets state { state with atDaa }
  | compared {anchor : FinalityAnchor} {header : Header} {w w' : σ}
    (checked : W.checkedAnchor w = (.ok (anchor, header), w')) (now : UInt64) :
    Move W meets state (compareAnchor state anchor header now).2

/-- The states a wallet went through since it was started, newest first. -/
inductive Trail (W : LightPool σ) (meets : LightTree → PoolCollection → List LeafUpdate → Prop) : List LightState → Prop
  | started {fresh : LightState} (fetched : Fresh W meets fresh) : Trail W meets [fresh]
  | moved {state next : LightState} {past : List LightState} (before : Trail W meets (state :: past))
    (move : Move W meets state next) : Trail W meets (next :: state :: past)

/-- Right after the diff of the block the wallet had this root, and just the entries of it. -/
def StoodAt (W : LightPool σ) (seen : List LightState) (block root : Hash) : Prop :=
  ∃ state ∈ seen, state.recentRoots.getLast? = some (block, root) ∧ state.tree.root = root ∧
    W.Consistent state.tree state.entries

/-- What holds along a trail whose updates are all admissible. -/
structure Kept (W : LightPool σ) (seen : List LightState) (state : LightState) : Prop where
  consistent : W.Consistent state.tree state.entries
  recorded : ∀ pair ∈ state.recentRoots, W.StoodAt seen pair.1 pair.2
  anchored : ∃ header : RpcHeader, W.headerHash header = state.anchored ∧
    W.StoodAt seen state.anchored header.poolCommitment

theorem StoodAt.mono {seen' : List LightState} {block root : Hash} (stood : W.StoodAt seen block root)
    (more : seen ⊆ seen') : W.StoodAt seen' block root := by
  obtain ⟨state, member, here⟩ := stood
  exact ⟨state, more member, here⟩

theorem Fresh.kept (fetched : Fresh W W.Admissible fresh) : Kept W [fresh] fresh := by
  obtain ⟨checked, fetched, met⟩ := fetched
  obtain ⟨notes, answered, fetched⟩ := fetchState_ok fetched
  have consistent := fetched.consistent (met notes answered).clear
  have stood : ∀ block root, (block, root) ∈ fresh.recentRoots → W.StoodAt [fresh] block root := by
    intro block root member
    rw [fetched.recentRoots, List.mem_singleton] at member
    refine ⟨fresh, List.mem_singleton_self fresh, ?_, ?_, consistent⟩
    · rw [fetched.recentRoots, member]
      rfl
    · rw [fetched.root, (Prod.mk.inj member).2]
  refine ⟨consistent, fun pair member => stood pair.1 pair.2 member, ?_⟩
  refine ⟨_, (checkedAnchor_ok checked).2.1.trans fetched.anchored.symm, stood _ _ ?_⟩
  rw [fetched.recentRoots, fetched.anchored]
  exact List.mem_singleton_self _

theorem applyRecorded_tree (state : LightState) (diff : RpcPoolDiff) :
    (W.applyRecorded state diff).tree = (W.shift state diff.removed diff.added).tree := rfl

theorem applyRecorded_entries (state : LightState) (diff : RpcPoolDiff) :
    (W.applyRecorded state diff).entries = (W.shift state diff.removed diff.added).entries := rfl

theorem recentRoots_applyRecorded (state : LightState) (diff : RpcPoolDiff) :
    (W.applyRecorded state diff).recentRoots.getLast? = some (diff.block, (W.applyRecorded state diff).tree.root) ∧
      ∀ pair ∈ (W.applyRecorded state diff).recentRoots, pair ∈ state.recentRoots ∨
        pair = (diff.block, (W.applyRecorded state diff).tree.root) := by
  have roots : (W.applyRecorded state diff).recentRoots =
      (state.recentRoots ++ [(diff.block, (W.applyRecorded state diff).tree.root)]).drop
        (state.recentRoots.length + 1 - rootsKept) := by simp [applyRecorded, apply, shift]
  rw [roots]
  constructor
  · rw [List.getLast?_drop, if_neg, List.getLast?_concat]
    simp only [List.length_append, List.length_singleton, rootsKept]
    omega
  · intro pair member
    simpa using List.mem_of_mem_drop member

theorem compareAnchor_cases (state : LightState) (anchor : FinalityAnchor) (header : Header) (now : UInt64) :
    ((compareAnchor state anchor header now).1 ≠ .agreed ∧ (compareAnchor state anchor header now).2 = state) ∨
    (anchor.anchoredBlock = state.anchored ∧
      compareAnchor state anchor header now = (.agreed, { state with checkedMs := now })) ∨
    ((anchor.anchoredBlock, header.poolCommitment) ∈ state.recentRoots ∧
      compareAnchor state anchor header now = (.agreed, { state with
        anchored := anchor.anchoredBlock, anchoredDaa := anchor.anchoredDaaScore, checkedMs := now })) := by
  unfold compareAnchor
  split
  · exact .inl ⟨by simp, rfl⟩
  · split
    next same => exact .inr (.inl ⟨same, rfl⟩)
    · split
      · exact .inl ⟨by simp, rfl⟩
      next block root found =>
        split
        · exact .inl ⟨by simp, rfl⟩
        next agrees =>
          refine .inr (.inr ⟨?_, rfl⟩)
          have named : block = anchor.anchoredBlock := by simpa using List.find?_some found
          rw [← named, ← not_not.mp agrees]
          exact List.mem_of_find?_eq_some found

theorem Kept.move {next : LightState} (kept : Kept W seen state) (move : Move W W.Admissible state next) :
    Kept W (next :: seen) next := by
  have more : seen ⊆ next :: seen := List.subset_cons_of_subset _ (List.Subset.refl _)
  have recorded : ∀ pair ∈ state.recentRoots, W.StoodAt (next :: seen) pair.1 pair.2 := fun pair member =>
    (kept.recorded pair member).mono more
  obtain ⟨header, named, stood⟩ := kept.anchored
  have anchored := stood.mono more
  cases move with
  | restarted fetched =>
    obtain ⟨consistent, recorded, header, named, stood⟩ := fetched.kept
    have first : [next] ⊆ next :: seen := List.cons_subset_cons _ (List.nil_subset _)
    exact ⟨consistent, fun pair member => (recorded pair member).mono first, header, named, stood.mono first⟩
  | unapplied diff met => exact ⟨kept.consistent.shift met, recorded, header, named, anchored⟩
  | applied diff met =>
    have consistent : W.Consistent (W.applyRecorded state diff).tree (W.applyRecorded state diff).entries := by
      rw [applyRecorded_tree, applyRecorded_entries]
      exact kept.consistent.shift met
    obtain ⟨last, cases'⟩ := recentRoots_applyRecorded (W := W) state diff
    refine ⟨consistent, fun pair member => ?_, header, named, anchored⟩
    rcases cases' pair member with before | rfl
    · exact recorded pair before
    · exact ⟨_, .head _, last, rfl, consistent⟩
  | voided removed =>
    exact ⟨kept.consistent, fun pair member => recorded pair (List.mem_of_mem_filter member), header, named, anchored⟩
  | moved position => exact ⟨kept.consistent, recorded, header, named, anchored⟩
  | scored atDaa => exact ⟨kept.consistent, recorded, header, named, anchored⟩
  | @compared anchor header' w w' checked now =>
    rcases compareAnchor_cases state anchor header' now with ⟨-, same⟩ | ⟨-, same⟩ | ⟨found, same⟩
    · rw [same] at recorded anchored ⊢
      exact ⟨kept.consistent, recorded, header, named, anchored⟩
    · rw [same] at recorded anchored ⊢
      exact ⟨kept.consistent, recorded, header, named, anchored⟩
    · rw [same] at recorded ⊢
      exact ⟨kept.consistent, recorded, header'.toRpcHeader, (checkedAnchor_ok checked).2.1, recorded _ found⟩

theorem Trail.kept {past : List LightState} (trail : Trail W W.Admissible (state :: past)) :
    Kept W (state :: past) state := by
  generalize whole : state :: past = seen at trail
  induction trail generalizing state past with
  | started fetched =>
    cases whole
    exact fetched.kept
  | moved before move ih =>
    cases whole
    exact (ih rfl).move move

/-! ## Calls are trails -/

section Calls

variable {first : LightState}

/-- Reached from the first state by moves, under no condition on what the tree is given. -/
def Moves (W : LightPool σ) : LightState → LightState → Prop := Relation.ReflTransGen (Move W fun _ _ _ => True)

def Reached (W : LightPool σ) (first : LightState) (s : LightState × σ) : Prop := W.Moves first s.1

theorem restart_reached : Keeps (W.Reached first) W.restart := by
  refine Triple.bind (Triple.outside (P := W.Moves first) .self) fun ⟨anchor, header⟩ => ?_
  have answered := Triple.outside (P := fun state => W.Moves first state ∧
    ∃ w w', W.checkedAnchor w = (.ok (anchor, header), w')) (c := W.fetchState anchor header) .self
  refine (answered.weaken (fun _ before => before) (fun _ _ after => after) fun _ failed => failed.1).bind
    fun fresh => ?_
  refine Triple.update fun s ⟨⟨before, w, w', checked⟩, w₁, w₂, fetched⟩ => ?_
  exact Relation.ReflTransGen.tail before (.restarted (.fetched checked fetched fun _ _ => trivial))

theorem foldl_moves {α : Type} {f : LightState → α → LightState}
    (move : ∀ state a, Move W (fun _ _ _ => True) state (f state a)) (rows : List α) (state : LightState) :
    W.Moves state (rows.foldl f state) := by
  induction rows generalizing state with
  | nil => exact .refl
  | cons a rest ih => exact .head (move state a) (ih _)

theorem takeBack_reached (removed : List Hash) : Keeps (W.Reached first) (W.takeBack removed) := by
  unfold takeBack
  split
  · exact .pure _
  · refine Keeps.bind (.outside _) fun diffs => .update fun s before => ?_
    have out := foldl_moves (f := W.unapply) (fun state diff => .unapplied diff trivial) diffs s.1
    exact before.trans (out.tail (.voided removed))

theorem goForward_reached (added : List Hash) : Keeps (W.Reached first) (W.goForward added) := by
  unfold goForward
  split
  · exact .pure _
  · refine Keeps.bind (.outside _) fun diffs => .update fun s before => ?_
    have on := foldl_moves (f := W.applyRecorded) (fun state diff => .applied diff trivial) diffs s.1
    exact before.trans (on.tail (.moved _))

theorem noteScore_reached (added : List Hash) : Keeps (W.Reached first) (W.noteScore added) := by
  unfold noteScore
  split
  · exact .pure _
  · refine Keeps.bind (.attempt (.outside _)) fun answer => ?_
    cases answer with
    | error e => exact .pure _
    | ok header => exact .update fun s before => Relation.ReflTransGen.tail before (.scored header.daaScore)

theorem checkAnchor_reached : Keeps (W.Reached first) W.checkAnchor := by
  refine Triple.bind (Triple.outside (P := W.Moves first) .self) fun ⟨anchor, header⟩ => ?_
  refine Triple.bind (Q := fun r s => W.Reached first s ∧ W.Reached first (r.2, s.2)) ?_ fun r => ?_
  · refine Triple.read fun s ⟨before, w, w', checked⟩ => ⟨before, ?_⟩
    exact Relation.ReflTransGen.tail before (.compared checked _)
  · refine Triple.bind (Q := fun _ => W.Reached first) ?_ fun _ => Keeps.pure _
    exact Triple.update fun _ after => after.2

theorem startOver_reached (done : Followed) : Keeps (W.Reached first) (W.startOver done) :=
  restart_reached.bind fun _ => .pure _

theorem checkWhenDue_reached (done : Followed) : Keeps (W.Reached first) (W.checkWhenDue done) := by
  refine Keeps.bind (.read _) fun due => ?_
  split
  · refine checkAnchor_reached.bind fun check => ?_
    cases check with
    | agreed => exact .pure _
    | notYetReached => exact .pure _
    | disagreed => exact startOver_reached done
  · exact .pure _

/-- Whatever it is answered, a step of following the chain is a series of moves, also when it fails. -/
theorem follow_moves (W : LightPool σ) (s : LightState × σ) : W.Moves s.1 (W.follow s).2.1 := by
  refine Keeps.run (P := W.Reached s.1) ?_ .refl
  refine Keeps.bind (.read _) fun position => ?_
  refine Keeps.bind (.attempt (.outside _)) fun answer => ?_
  cases answer with
  | error e => exact startOver_reached _
  | ok chain =>
    dsimp only
    split
    · exact startOver_reached _
    · exact (takeBack_reached _).bind fun _ => (goForward_reached _).bind fun _ =>
        (noteScore_reached _).bind fun _ => checkWhenDue_reached _

end Calls

/-! ## The notes of the anchored block -/

/-- Up to collisions of hashes, the entries are those of every tree with the commitment, and nothing else is
reported. -/
def HasNotesOf (W : LightPool σ) (state : LightState) (commitment : Hash) : Prop :=
  ∀ tree : LeafMap, canonRoot W.smt tree = commitment →
    CollisionFree W.smt (treeNodes W.smt (W.leaves state.entries) ∪ treeNodes W.smt tree)
      (treeLeaves (W.leaves state.entries) ∪ treeLeaves tree) →
    (∀ sn entry, (∀ held, state.entries.lookup sn = some held →
        leafHashEntry W.hashers held = leafHashEntry W.hashers entry → held = entry) →
      (state.entries.lookup sn = some entry ↔ tree sn = leafHashEntry W.hashers entry)) ∧
    ∀ note, ((∃ serials, note ∈ state.notes serials) ∨ ∃ pks, note ∈ state.notesOnKeys pks) →
      ∃ entry, poolEntry note = .ok entry ∧ tree note.sn = leafHashEntry W.hashers entry

theorem reported_held {note : RpcNoteEntry}
    (reported : (∃ serials, note ∈ state.notes serials) ∨ ∃ pks, note ∈ state.notesOnKeys pks) :
    ∃ entry, poolEntry note = .ok entry ∧ state.entries.lookup note.sn = some entry := by
  rcases reported with ⟨serials, member⟩ | ⟨pks, member⟩
  · obtain ⟨sn, -, found⟩ := List.mem_filterMap.mp member
    obtain ⟨entry, held, rfl⟩ := Option.map_eq_some_iff.mp found
    exact ⟨entry, poolEntry_rpcEntry sn entry, held⟩
  · obtain ⟨row, listed, rfl⟩ := List.mem_map.mp member
    exact ⟨row.2, poolEntry_rpcEntry row.1 row.2, Map.lookup_eq_some_iff.mpr (List.mem_of_mem_filter listed)⟩

theorem Consistent.hasNotesOf (consistent : W.Consistent state.tree state.entries) (nonzero : LeavesNonzero W.hashers) :
    W.HasNotesOf state state.tree.root := by
  intro tree root free
  have same : W.leaves state.entries = tree :=
    leaves_eq_of_canonRoot free (consistent.root.symm.trans root.symm)
  have leaf : ∀ sn, tree sn = poolLeafMap W.hashers state.entries.lookup sn := fun sn => by rw [← same]; rfl
  constructor
  · intro sn entry apart
    rw [leaf, poolLeafMap]
    cases held : state.entries.lookup sn with
    | none => simpa using (nonzero entry).symm
    | some other =>
      rw [Option.some_inj, Option.map_some, Option.getD_some]
      exact ⟨fun same => by rw [same], fun clash => apart other held clash⟩
  · intro note reported
    obtain ⟨entry, read, held⟩ := reported_held reported
    refine ⟨entry, read, ?_⟩
    rw [leaf, poolLeafMap, held]
    rfl

/-- As long as no list it is given is ambiguous and every update is one the tree follows: a state that is
fetched has just the notes the header commits to, and when the check of an anchor agrees the wallet had
just the notes of the signed block when it stood there. -/
theorem entries_committed (nonzero : LeavesNonzero W.hashers) :
    (∀ anchor header w w' fresh, W.fetchState anchor header w = (.ok fresh, w') →
      (∀ notes, W.rpc.getPoolStateAtBlock anchor.anchoredBlock w = (.ok notes, w') →
        Unambiguous (W.shiftLeaves [] notes)) →
      fresh.position = anchor.anchoredBlock ∧ W.HasNotesOf fresh header.poolCommitment) ∧
    ∀ state past, Trail W W.Admissible (state :: past) →
      ∀ w state' w', W.checkAnchor (state, w) = (.ok .agreed, state', w') →
        ∃ anchor header w₁, W.checkedAnchor w = (.ok (anchor, header), w₁) ∧
          ∃ signed : RpcHeader, W.headerHash signed = anchor.anchoredBlock ∧
            ∃ stood ∈ state :: past,
              stood.recentRoots.getLast? = some (anchor.anchoredBlock, signed.poolCommitment) ∧
              W.HasNotesOf stood signed.poolCommitment := by
  constructor
  · intro anchor header w w' fresh fetched clear
    obtain ⟨notes, answered, fetched⟩ := fetchState_ok fetched
    have consistent := fetched.consistent (clear notes answered)
    exact ⟨fetched.position, fetched.root ▸ consistent.hasNotesOf nonzero⟩
  · intro state past trail w state' w' agreed
    have kept := trail.kept
    obtain ⟨⟨anchor, header⟩, s₁, checked, rest⟩ := bind_eq_ok.mp agreed
    obtain ⟨⟨check, after⟩, s₂, compared, rest⟩ := bind_eq_ok.mp rest
    have checked' : W.checkedAnchor w = (.ok (anchor, header), s₁.2) := by
      have result := congrArg Prod.fst checked
      have world := congrArg (fun r => r.2.2) checked
      exact Prod.ext result world
    have unchanged : s₁.1 = state := (congrArg (fun r => r.2.1) checked).symm
    have outcome : compareAnchor state anchor header (W.unixtimeAsMillis s₁.2) = (check, after) := by
      rw [← unchanged]
      exact Except.ok.inj (congrArg Prod.fst compared)
    have agrees : check = .agreed := Except.ok.inj (congrArg Prod.fst rest)
    have signed : ∃ signed : RpcHeader, W.headerHash signed = anchor.anchoredBlock ∧
        W.StoodAt (state :: past) anchor.anchoredBlock signed.poolCommitment := by
      rcases compareAnchor_cases state anchor header (W.unixtimeAsMillis s₁.2) with
        ⟨other, -⟩ | ⟨same, -⟩ | ⟨found, -⟩
      · rw [outcome] at other
        exact absurd agrees other
      · rw [same]
        exact kept.anchored
      · exact ⟨header.toRpcHeader, (checkedAnchor_ok checked').2.1, kept.recorded _ found⟩
    obtain ⟨signed, named, stood, member, last, root, consistent⟩ := signed
    exact ⟨anchor, header, s₁.2, checked', signed, named, stood, member, last,
      root ▸ consistent.hasNotesOf nonzero⟩

end LightPool

namespace Sample

/-- Serial 5 with the given notes, committed to by block 1. -/
def servesNotes (notes : List PoolEntry) (commitment : Hash) : RpcApi Nat where
  getVirtualChainFromBlock _ := answer ⟨[], []⟩
  getPoolDiff _ := answer []
  getBlock _ := answer (header 1 commitment 100)
  getFinalityAnchor := answer (some (anchor 1 100))
  getPoolStateAtBlock _ := answer (notes.map (rpcEntry 5))

def oneNote : LightPool Nat :=
  wallet Sample.countingHasher Sample.turningSort (servesNotes [smallNote] 1005)

/-- The root of a tree with one leaf is the leaf. -/
def leafRoot : SmtHasher := ⟨fun _ => 0, fun bytes => Hash.fromBytes (bytes.drop 32)⟩

/-- The committed note first, then another one under the same serial. -/
def twoNotes : LightPool Nat :=
  wallet leafRoot Sample.turningSort (servesNotes [smallNote, largeNote] 7)

def signed : FinalityAnchor := anchorFromRpc (anchor 1 100)

theorem checkedAnchor_oneNote : oneNote.checkedAnchor 0 =
    (.ok (signed, oneNote.headerFromRpc (header 1 1005 100)), 2) := by decide +kernel

theorem answered_oneNote {w w' : Nat} {notes : List RpcNoteEntry}
    (answered : oneNote.rpc.getPoolStateAtBlock signed.anchoredBlock w = (.ok notes, w')) :
    notes = [rpcEntry 5 smallNote] := by
  cases answered
  rfl

/-- What the wallet fetches, and that the anchor then agrees with it. -/
theorem fetched_oneNote : ∃ fresh w' state' w'',
    oneNote.fetchState signed (oneNote.headerFromRpc (header 1 1005 100)) 2 = (.ok fresh, w') ∧
      oneNote.checkAnchor (fresh, w') = (.ok .agreed, state', w'') := by
  let both : Call Nat LightError AnchorCheck := fun w =>
    match oneNote.fetchState signed (oneNote.headerFromRpc (header 1 1005 100)) w with
    | (.ok fresh, w') => ((oneNote.checkAnchor (fresh, w')).1, w')
    | (.error e, w') => (.error e, w')
  have ok : (both 2).1 = .ok .agreed := by decide +kernel
  rcases fetched : oneNote.fetchState signed (oneNote.headerFromRpc (header 1 1005 100)) 2 with ⟨e | fresh, w'⟩
  · simp only [both, fetched] at ok
    cases ok
  · simp only [both, fetched] at ok
    rcases checked : oneNote.checkAnchor (fresh, w') with ⟨result, state', w''⟩
    have agreed : result = .ok .agreed := by rw [← ok, checked]
    exact ⟨fresh, w', state', w'', rfl, agreed ▸ checked⟩

theorem leaves_oneNote {entries : PoolCollection}
    (held : entries = (∅ : PoolCollection).putMany (LightPool.readable [rpcEntry 5 smallNote])) :
    oneNote.leaves entries = leafMapOf Sample.oneInsert := by
  funext sn
  rw [LightPool.leaves, poolLeafMap, held, Sample.leafMapOf_oneInsert]
  change (Option.map _ (((∅ : PoolCollection).insert 5#256 smallNote).lookup sn)).getD _ = _
  rw [Map.lookup_insert_eq]
  by_cases here : sn = 5#256
  · rw [if_pos here, if_pos here]
    decide +kernel
  · rw [if_neg here, if_neg here]
    rfl

end Sample

open Sample in
theorem entries_committed_oneNote : ∃ fresh w' state' w'',
    oneNote.fetchState signed (oneNote.headerFromRpc (header 1 1005 100)) 2 = (.ok fresh, w') ∧
      (fresh.entries.lookup 5 = some smallNote ↔ leafMapOf Sample.oneInsert 5 = 7) ∧
      oneNote.checkAnchor (fresh, w') = (.ok .agreed, state', w'') ∧
      ∃ signed : RpcHeader, oneNote.HasNotesOf fresh signed.poolCommitment := by
  obtain ⟨fetches, agrees⟩ := LightPool.entries_committed (W := oneNote) (leavesNonzero _)
  obtain ⟨fresh, w', state', w'', ran, agreed⟩ := fetched_oneNote
  have clear : ∀ notes, oneNote.rpc.getPoolStateAtBlock signed.anchoredBlock 2 = (.ok notes, w') →
      Unambiguous (oneNote.shiftLeaves [] notes) := by
    intro notes answered
    rw [answered_oneNote answered]
    decide +kernel
  have has := (fetches _ _ _ _ _ ran clear).2
  have trail : LightPool.Trail oneNote oneNote.Admissible [fresh] :=
    .started (.fetched checkedAnchor_oneNote ran fun notes answered =>
      LightPool.admissible_new (clear notes answered))
  obtain ⟨-, -, -, -, signed', -, stood, member, -, stoodHas⟩ := agrees fresh [] trail w' state' w'' agreed
  rw [List.mem_singleton] at member
  obtain ⟨notes, answered, fetched⟩ := LightPool.fetchState_ok ran
  have leaves := leaves_oneNote (answered_oneNote answered ▸ fetched.entries)
  have root : canonRoot oneNote.smt (leafMapOf Sample.oneInsert) = 1005 := by
    rw [← leaves, ← (fetched.consistent (clear notes answered)).root, fetched.root]
    rfl
  have free := Sample.includedProof_noCollisions.mono (Set.union_subset Set.subset_union_left
    Set.subset_union_left) (Set.union_subset Set.subset_union_left Set.subset_union_left)
  have exact' := (has _ root (leaves.symm ▸ free)).1 5 smallNote (fun held there _ => ?_)
  · exact ⟨fresh, w', state', w'', ran, exact', agreed, signed', member ▸ stoodHas⟩
  · rw [fetched.entries, answered_oneNote answered] at there
    exact (Option.some.inj there).symm

open Sample in
/-- A serial sent twice: the tree that is checked has the committed note, the entries have the other one. -/
theorem fetchState_accepts_other_note : ∃ fresh w',
    twoNotes.fetchState signed (twoNotes.headerFromRpc (header 1 7 100)) 2 = (.ok fresh, w') ∧
      fresh.notes [5] = [rpcEntry 5 largeNote] ∧
      ∃ tree : LeafMap, canonRoot twoNotes.smt tree = 7 ∧ tree 5 = leafHashEntry twoNotes.hashers smallNote ∧
        tree 5 ≠ leafHashEntry twoNotes.hashers largeNote := by
  have ok : ((twoNotes.fetchState signed (twoNotes.headerFromRpc (header 1 7 100)) 2).1.toOption.map
      fun fresh => fresh.notes [5]) = some [rpcEntry 5 largeNote] := by decide +kernel
  rcases ran : twoNotes.fetchState signed (twoNotes.headerFromRpc (header 1 7 100)) 2 with ⟨e | fresh, w'⟩
  · rw [ran] at ok
    cases ok
  · rw [ran] at ok
    have scratch := computeRootUpdate_scratch twoNotes.smt ⟨[⟨5, 7⟩], List.pairwise_singleton _ _⟩
    refine ⟨fresh, w', rfl, Option.some.inj ok, applied noLeaves [⟨5, 7⟩], ?_, by decide +kernel, by decide +kernel⟩
    rw [← scratch]
    decide +kernel

end Marigold.Wallet
