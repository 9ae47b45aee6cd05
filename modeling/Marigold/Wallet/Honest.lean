import Marigold.Lib.Ancestry
import Marigold.Wallet.Committed

/-!
# A wallet with an honest server

The blocks of the chain, their pools and their diffs do not change; which of them are on the selected chain
does, also between two calls. An honest server answers truly or not at all. With one, the light wallet's
state is that of the block it says it is at, unless a step fails after it took blocks back and before it
put others in.
-/

namespace Marigold.Wallet

open Lib NotePool Smt Finality

/-- Blocks with the pool as of each of them. A serial never gets another note, and no two live serials differ
in their last bit only. -/
structure PoolChain where
  forest : Forest Hash
  pool : Hash → PoolView
  diff : Hash → PoolDiff
  difference : ∀ block parent, forest.parent block = some parent →
    IsDifference (diff block).cell (pool parent) (pool block)
  settled : ∀ block parent, forest.parent block = some parent →
    ∀ sn old new, pool parent sn = some old → pool block sn = some new → old = new
  apart : ∀ block, SerialsApart (pool block)

/-- The notes of a view, in any order. -/
structure Lists (notes : List RpcNoteEntry) (view : PoolView) : Prop where
  entries : ∀ note ∈ notes, ∃ sn entry, note = rpcEntry sn entry ∧ view sn = some entry
  all : ∀ sn entry, view sn = some entry → rpcEntry sn entry ∈ notes

namespace PoolChain

variable (K : PoolChain)

/-- From a block down to an ancestor, which is not in the list. -/
def Descends : Hash → List Hash → Hash → Prop
  | block, [], ancestor => block = ancestor
  | block, first :: rest, ancestor =>
    first = block ∧ ∃ parent, K.forest.parent block = some parent ∧ Descends parent rest ancestor

/-- From a block, which is not in the list, up along the chain. -/
def Ascends : Hash → List Hash → Prop
  | _, [] => True
  | parent, block :: rest => K.forest.parent block = some parent ∧ Ascends block rest

/-- A chain path: down to a common ancestor, then up. -/
def ChainFrom (position : Hash) (chain : RpcChain) : Prop :=
  ∃ common, K.Descends position chain.removedChainBlockHashes common ∧ K.Ascends common chain.addedChainBlockHashes

structure DiffOf (block : Hash) (diff : RpcPoolDiff) : Prop where
  named : diff.block = block
  added : Lists diff.added (K.diff block).add.lookup
  removed : Lists diff.removed (K.diff block).remove.lookup

end PoolChain

namespace LightPool

variable {σ : Type}

/-- What a block commits to. -/
def commitment (W : LightPool σ) (K : PoolChain) (block : Hash) : Hash :=
  canonRoot W.smt (poolLeafMap W.hashers (K.pool block))

/-- Every answer is true of the blocks. -/
structure Honest (W : LightPool σ) (K : PoolChain) : Prop where
  chain : ∀ position, (W.rpc.getVirtualChainFromBlock position).Ensures (K.ChainFrom position)
  diffs : ∀ blocks, (W.rpc.getPoolDiff blocks).Ensures (List.Forall₂ K.DiffOf blocks)
  headers : ∀ block, (W.rpc.getBlock block).Ensures fun header => header.poolCommitment = W.commitment K block
  pools : ∀ block, (W.rpc.getPoolStateAtBlock block).Ensures fun notes => Lists notes (K.pool block)

/-- The entries and the tree are those of the block, and what is recorded is true and on its chain. -/
structure AsOf (W : LightPool σ) (K : PoolChain) (block : Hash) (state : LightState) : Prop where
  entries : state.entries.lookup = K.pool block
  consistent : W.Consistent state.tree state.entries
  recorded : ∀ pair ∈ state.recentRoots, pair.1 ∈ K.forest.line block ∧ pair.2 = W.commitment K pair.1

theorem AsOf.root {W : LightPool σ} {K : PoolChain} {block : Hash} {state : LightState}
    (asOf : W.AsOf K block state) : state.tree.root = W.commitment K block := by
  rw [asOf.consistent.root, leaves, asOf.entries]
  rfl

end LightPool

/-! ## Lists of notes -/

section Lists

variable {notes : List RpcNoteEntry} {view : PoolView}

theorem Lists.mem_readable (lists : Lists notes view) {sn : Hash} {entry : PoolEntry} :
    (sn, entry) ∈ LightPool.readable notes ↔ view sn = some entry := by
  simp only [LightPool.readable, List.mem_filterMap, Option.map_eq_some_iff, Prod.mk.injEq]
  constructor
  · rintro ⟨note, member, read, parsed, rfl, rfl⟩
    obtain ⟨sn, entry, rfl, live⟩ := lists.entries note member
    rw [poolEntry_rpcEntry, Except.toOption, Option.some_inj] at parsed
    exact parsed ▸ live
  · intro live
    exact ⟨_, lists.all sn entry live, entry, by rw [poolEntry_rpcEntry, Except.toOption], rfl, rfl⟩

theorem Lists.written (lists : Lists notes view) (sn : Hash) : Map.written (LightPool.readable notes) sn = view sn :=
  Map.written_of_graph fun _ => lists.mem_readable

theorem Lists.mem_serials (lists : Lists notes view) {sn : Hash} :
    sn ∈ notes.map RpcNoteEntry.sn ↔ (view sn).isSome := by
  rw [List.mem_map, Option.isSome_iff_exists]
  constructor
  · rintro ⟨note, member, rfl⟩
    obtain ⟨sn, entry, rfl, live⟩ := lists.entries note member
    exact ⟨entry, live⟩
  · rintro ⟨entry, live⟩
    exact ⟨_, lists.all sn entry live, rfl⟩

end Lists

/-! ## True diffs -/

section Shift

variable {σ : Type} {W : LightPool σ} {state : LightState} {out into : List RpcNoteEntry}
  {before after : PoolView} {diff : PoolDiff}

/-- A diff between two pools with one note per serial at most. -/
structure Between (diff : PoolDiff) (before after : PoolView) : Prop where
  difference : IsDifference diff.cell before after
  settled : ∀ sn old new, before sn = some old → after sn = some new → old = new

variable (between : Between diff before after)

include between

theorem Between.reversed : Between diff.reversed after before :=
  ⟨PoolDiff.reversed_difference between.difference,
    fun sn old new live was => (between.settled sn new old was live).symm⟩

theorem Between.disjoint (sn : Hash) : diff.add.lookup sn = none ∨ diff.remove.lookup sn = none := by
  have cell := between.difference sn
  unfold Cell.between at cell
  split at cell
  · exact .inl (Cell.mk.inj cell).1
  next differ =>
    obtain ⟨adds, removes⟩ := Cell.mk.inj cell
    rw [adds, removes]
    cases old : before sn with
    | none => exact .inr rfl
    | some old' =>
      cases new : after sn with
      | none => exact .inl rfl
      | some new' =>
        rw [old, new, between.settled sn old' new' old new] at differ
        exact absurd rfl differ

theorem Between.unambiguous (taken : Lists out diff.remove.lookup) (put : Lists into diff.add.lookup) :
    Unambiguous (W.shiftLeaves out into) := by
  have clash : ∀ note ∈ out, ∀ row ∈ LightPool.readable into, note.sn ≠ row.1 := by
    intro note member row there same
    have removes := taken.mem_serials.mp (List.mem_map_of_mem member)
    have adds := put.mem_readable.mp there
    rw [same] at removes
    rcases between.disjoint row.1 with silent | silent
    · rw [silent] at adds
      cases adds
    · rw [silent] at removes
      cases removes
  intro u member v member' same
  rcases LightPool.mem_shiftLeaves.mp member with ⟨note, there, rfl⟩ | ⟨row, there, rfl⟩ <;>
    rcases LightPool.mem_shiftLeaves.mp member' with ⟨note', there', rfl⟩ | ⟨row', there', rfl⟩
  · rfl
  · exact absurd same (clash note there row' there')
  · exact absurd same.symm (clash note' there' row there)
  · have here := put.mem_readable.mp there
    have here' := put.mem_readable.mp there'
    have equal : row.1 = row'.1 := same
    rw [equal, here'] at here
    rw [Option.some.inj here]

theorem Between.shift (nonzero : LeavesNonzero W.hashers) (apart : SerialsApart before)
    (entries : state.entries.lookup = before) (consistent : W.Consistent state.tree state.entries)
    (taken : Lists out diff.remove.lookup) (put : Lists into diff.add.lookup) :
    (W.shift state out into).entries.lookup = after ∧
      W.Consistent (W.shift state out into).tree (W.shift state out into).entries := by
  have valid := between.difference.represents
  have present : DeletesPresent (W.leaves state.entries) (W.shiftLeaves out into) := by
    intro u member cleared
    rw [LightPool.leaves, entries, poolLeafMap_ne_zero nonzero]
    rcases LightPool.mem_shiftLeaves.mp member with ⟨note, there, rfl⟩ | ⟨row, there, rfl⟩
    · have removes := taken.mem_serials.mp (List.mem_map_of_mem there)
      obtain ⟨entry, removes⟩ := Option.isSome_iff_exists.mp removes
      rw [(valid note.sn).1.removed entry removes]
      rfl
    · exact absurd cleared (nonzero row.2)
  have twinFree : TwinFree (W.leaves state.entries) := by
    rw [LightPool.leaves, entries]
    exact twinFree_of_apart nonzero apart
  have sound := sound_of_twinFree consistent.nodes twinFree present
  have admissible : W.Admissible state.tree state.entries (W.shiftLeaves out into) :=
    ⟨between.unambiguous taken put,
      fun depth leaf small there => sound.fresh depth leaf (by omega) small (below_root _) there,
      fun sn => sound.kept sn (below_root sn)⟩
  refine ⟨funext fun sn => ?_, consistent.shift admissible⟩
  have entry : (W.shift state out into).entries.lookup sn = (Map.written (LightPool.readable into) sn).or
      (if sn ∈ out.map RpcNoteEntry.sn then none else state.entries.lookup sn) := by
    rw [← Map.lookup_deleteMany]
    exact Map.lookup_putMany _ _ sn
  have held := congrFun entries sn
  rw [entry, put.written, held, ← (valid sn).2, Cell.apply]
  simp only [taken.mem_serials, PoolDiff.cell]
  cases diff.add.lookup sn <;> rfl

end Shift

namespace LightPool

variable {σ : Type} {W : LightPool σ} {K : PoolChain} {state : LightState} {block parent : Hash}
  {diff : RpcPoolDiff} {removed added : List Hash} {common : Hash} {diffs : List RpcPoolDiff} {α ε : Type}
  {anchor : FinalityAnchor} {header : Header}

theorem between_of_parent (K : PoolChain) (above : K.forest.parent block = some parent) :
    Between (K.diff block) (K.pool parent) (K.pool block) :=
  ⟨K.difference block parent above, K.settled block parent above⟩

theorem AsOf.applyRecorded (asOf : W.AsOf K parent state) (nonzero : LeavesNonzero W.hashers)
    (above : K.forest.parent block = some parent) (diffOf : K.DiffOf block diff) :
    W.AsOf K block (W.applyRecorded state diff) := by
  obtain ⟨entries, consistent⟩ := (between_of_parent K above).shift nonzero (K.apart parent) asOf.entries
    asOf.consistent diffOf.removed diffOf.added
  have leaves : W.leaves (W.shift state diff.removed diff.added).entries =
      poolLeafMap W.hashers (K.pool block) := congrArg (poolLeafMap W.hashers) entries
  have root : (W.shift state diff.removed diff.added).tree.root = W.commitment K block := by
    rw [consistent.root, leaves]
    rfl
  rw [← applyRecorded_tree] at root consistent
  rw [← applyRecorded_entries] at entries consistent
  refine ⟨entries, consistent, fun pair member => ?_⟩
  rcases (recentRoots_applyRecorded (W := W) state diff).2 pair member with earlier | new
  · obtain ⟨onLine, exact'⟩ := asOf.recorded pair earlier
    rw [K.forest.line_of_parent above]
    exact ⟨.tail _ onLine, exact'⟩
  · have named : pair.1 = block := (congrArg Prod.fst new).trans diffOf.named
    have rooted : pair.2 = W.commitment K block := (congrArg Prod.snd new).trans root
    rw [named]
    exact ⟨K.forest.mem_line_self block, rooted⟩

section

variable (nonzero : LeavesNonzero W.hashers) (entries : state.entries.lookup = K.pool block)
  (consistent : W.Consistent state.tree state.entries)

include nonzero entries consistent

theorem unapply_asOf (above : K.forest.parent block = some parent) (diffOf : K.DiffOf block diff) :
    (W.unapply state diff).entries.lookup = K.pool parent ∧
      W.Consistent (W.unapply state diff).tree (W.unapply state diff).entries ∧
      (W.unapply state diff).recentRoots = state.recentRoots := by
  obtain ⟨entries, consistent⟩ := (between_of_parent K above).reversed.shift nonzero (K.apart block) entries
    consistent diffOf.added diffOf.removed
  exact ⟨entries, consistent, rfl⟩

theorem unapplyAll_asOf (down : K.Descends block removed common) (diffsOf : List.Forall₂ K.DiffOf removed diffs) :
    (diffs.foldl W.unapply state).entries.lookup = K.pool common ∧
      W.Consistent (diffs.foldl W.unapply state).tree (diffs.foldl W.unapply state).entries ∧
      (diffs.foldl W.unapply state).recentRoots = state.recentRoots := by
  induction diffsOf generalizing state block with
  | nil =>
    obtain rfl : block = common := down
    exact ⟨entries, consistent, rfl⟩
  | cons first rest ih =>
    obtain ⟨rfl, parent, above, down⟩ := down
    obtain ⟨entries, consistent, roots⟩ := unapply_asOf nonzero entries consistent above first
    obtain ⟨entries', consistent', roots'⟩ := ih entries consistent down
    exact ⟨entries', consistent', roots'.trans roots⟩

end

theorem line_of_descends (down : K.Descends block removed common) :
    K.forest.line block = removed ++ K.forest.line common := by
  induction removed generalizing block with
  | nil =>
    obtain rfl : block = common := down
    rfl
  | cons first rest ih =>
    obtain ⟨rfl, parent, above, down⟩ := down
    rw [K.forest.line_of_parent above, ih down]
    rfl

theorem AsOf.withoutBlocks (asOf : W.AsOf K block state) (nonzero : LeavesNonzero W.hashers)
    (down : K.Descends block removed common) (diffsOf : List.Forall₂ K.DiffOf removed diffs) :
    W.AsOf K common (W.withoutBlocks state removed diffs) := by
  obtain ⟨entries, consistent, roots⟩ := unapplyAll_asOf nonzero asOf.entries asOf.consistent down diffsOf
  refine ⟨entries, consistent, fun pair member => ?_⟩
  obtain ⟨member, kept⟩ := List.mem_filter.mp member
  rw [roots] at member
  obtain ⟨onLine, exact'⟩ := asOf.recorded pair member
  rw [line_of_descends down, List.mem_append] at onLine
  exact ⟨onLine.resolve_left (by simpa using kept), exact'⟩

theorem AsOf.applyAll (asOf : W.AsOf K parent state) (nonzero : LeavesNonzero W.hashers) (up : K.Ascends parent added)
    (diffsOf : List.Forall₂ K.DiffOf added diffs) :
    W.AsOf K (added.getLast?.getD parent) (diffs.foldl W.applyRecorded state) := by
  induction diffsOf generalizing state parent with
  | nil => exact asOf
  | @cons block diff added diffs first rest ih =>
    obtain ⟨above, up⟩ := up
    have next := ih (asOf.applyRecorded nonzero above first) up
    rw [List.getLast?_cons]
    exact next

/-! ## Calls to an honest server -/

theorem flatten_chunks {size count : Nat} (some : 0 < size) {rows : List α} (enough : rows.length ≤ count) :
    (chunks size count rows).flatten = rows := by
  induction count generalizing rows with
  | zero => simpa [chunks] using (List.eq_nil_of_length_eq_zero (by omega)).symm
  | succ count ih =>
    cases rows with
    | nil => rfl
    | cons a rest =>
      have fewer : ((a :: rest).drop size).length ≤ count := by
        rw [List.length_drop]
        rw [List.length_cons] at enough ⊢
        omega
      rw [chunks, List.flatten_cons, ih fewer, List.take_append_drop]
      simp

theorem Honest.fetchChunks (honest : W.Honest K) (parts : List (List Hash)) :
    (W.fetchChunks parts).Ensures (List.Forall₂ K.DiffOf parts.flatten) := by
  induction parts with
  | nil => exact .pure .nil
  | cons part rest ih =>
    refine ((honest.diffs part).mapError _).bind fun got true' => ?_
    split
    · exact .fail _
    · exact ih.bind fun more rest' => .pure (List.rel_append true' rest')

theorem Honest.fetchDiffs (honest : W.Honest K) (blocks : List Hash) :
    (W.fetchDiffs blocks).Ensures (List.Forall₂ K.DiffOf blocks) := by
  have fetched := honest.fetchChunks (chunks diffsPerCall blocks.length blocks)
  rwa [flatten_chunks (by decide) (Nat.le_refl _)] at fetched

theorem Honest.checkedAnchor (honest : W.Honest K) : W.checkedAnchor.Ensures fun checked =>
    checked.2.poolCommitment = W.commitment K checked.1.anchoredBlock := by
  refine Call.Ensures.bind .self fun got _ => ?_
  cases got with
  | none => exact .fail _
  | some got =>
    dsimp only
    split
    · exact .fail _
    · cases verifyAnchor W.crypto (anchorFromRpc got) W.trustees with
      | error e => exact .fail _
      | ok =>
        refine ((honest.headers _).mapError _).bind fun block commits => ?_
        split
        · exact .fail _
        · split
          · exact .fail _
          · exact .pure commits

/-- The state is that of the block it says it is at. -/
def Exact (W : LightPool σ) (K : PoolChain) (s : LightState × σ) : Prop := W.AsOf K s.1.position s.1

theorem Honest.fetchState (honest : W.Honest K)
    (commits : header.poolCommitment = W.commitment K anchor.anchoredBlock) :
    (W.fetchState anchor header).Ensures fun fresh => W.AsOf K fresh.position fresh := by
  intro w fresh w' ran
  obtain ⟨notes, answered, fetched⟩ := fetchState_ok ran
  have lists := honest.pools _ _ _ _ answered
  have clear : Unambiguous (W.shiftLeaves [] notes) := by
    intro u member v member' same
    rcases mem_shiftLeaves.mp member with ⟨note, there, -⟩ | ⟨row, there, rfl⟩
    · cases there
    · rcases mem_shiftLeaves.mp member' with ⟨note, there, -⟩ | ⟨row', there', rfl⟩
      · cases there
      · have here := lists.mem_readable.mp there
        have here' := lists.mem_readable.mp there'
        have equal : row.1 = row'.1 := same
        rw [equal, here'] at here
        rw [Option.some.inj here]
  rw [fetched.position]
  refine ⟨funext fun sn => ?_, fetched.consistent clear, fun pair member => ?_⟩
  · rw [fetched.entries, Map.lookup_putMany, lists.written]
    exact Option.or_none
  · rw [fetched.recentRoots, List.mem_singleton] at member
    rw [member]
    exact ⟨K.forest.mem_line_self _, commits⟩

theorem outside_exact {A : α → Prop} {c : Call σ ε α} (answers : c.Ensures A) :
    Call.Triple (W.Exact K) (.outside c) (fun a s => W.Exact K s ∧ A a) (W.Exact K) :=
  Call.Triple.outside (P := fun state : LightState => W.AsOf K state.position state) answers

theorem keeps_exact (c : Call σ ε α) : Call.Keeps (W.Exact K) (.outside c) :=
  Call.Keeps.outside (P := fun state : LightState => W.AsOf K state.position state) c

theorem Honest.restart (honest : W.Honest K) : Call.Keeps (W.Exact K) W.restart := by
  refine (outside_exact honest.checkedAnchor).bind fun ⟨anchor, header⟩ => ?_
  intro s ⟨before, commits⟩
  exact (outside_exact (honest.fetchState commits)).bind (fun fresh => .update fun _ fetched => fetched.2) s before

theorem Honest.startOver (honest : W.Honest K) (done : Followed) :
    Call.Keeps (W.Exact K) (W.startOver done) := honest.restart.bind fun _ => .pure _

theorem noteScore_exact (added : List Hash) : Call.Keeps (W.Exact K) (W.noteScore added) := by
  unfold noteScore
  split
  · exact .pure _
  · refine Call.Keeps.bind (.attempt (keeps_exact _)) fun answer => ?_
    cases answer with
    | error e => exact .pure _
    | ok header => exact .update fun s before => ⟨before.entries, before.consistent, before.recorded⟩

theorem compareAnchor_exact {now : UInt64} (before : W.AsOf K state.position state) :
    W.AsOf K (compareAnchor state anchor header now).2.position (compareAnchor state anchor header now).2 := by
  unfold compareAnchor
  split
  · exact before
  · split
    · exact ⟨before.entries, before.consistent, before.recorded⟩
    · split
      · exact before
      · split
        · exact before
        · exact ⟨before.entries, before.consistent, before.recorded⟩

theorem checkAnchor_exact : Call.Keeps (W.Exact K) W.checkAnchor := by
  refine (keeps_exact _).bind fun ⟨anchor, header⟩ => ?_
  refine Call.Triple.bind (Q := fun r s => W.Exact K (r.2, s.2)) ?_ fun r => ?_
  · exact fun s before =>
      ⟨fun r s' ran => by cases ran; exact compareAnchor_exact before, fun e s' ran => by cases ran⟩
  · exact Call.Triple.bind (Call.Triple.update fun _ after => after) fun _ => Call.Keeps.pure _

theorem Honest.checkWhenDue (honest : W.Honest K) (done : Followed) : Call.Keeps (W.Exact K) (W.checkWhenDue done) := by
  refine Call.Keeps.bind (.read _) fun due => ?_
  split
  · refine checkAnchor_exact.bind fun check => ?_
    cases check with
    | agreed => exact .pure _
    | notYetReached => exact .pure _
    | disagreed => exact honest.startOver done
  · exact .pure _

theorem position_withoutBlocks (removed : List Hash) (diffs : List RpcPoolDiff) (state : LightState) :
    (W.withoutBlocks state removed diffs).position = state.position := by
  change (diffs.foldl W.unapply state).position = state.position
  induction diffs generalizing state with
  | nil => rfl
  | cons diff rest ih => exact ih (W.unapply state diff)

/-- Blocks are taken out down to the common ancestor, while the position stays what it was. -/
theorem Honest.takeBack (honest : W.Honest K) (nonzero : LeavesNonzero W.hashers)
    (down : K.Descends block removed common) :
    Call.Triple (fun s => W.AsOf K block s.1 ∧ s.1.position = block) (W.takeBack removed)
      (fun _ s => W.AsOf K common s.1 ∧ s.1.position = block) fun s => W.AsOf K block s.1 ∧ s.1.position = block := by
  unfold LightPool.takeBack
  split
  next none =>
    obtain rfl := List.isEmpty_iff.mp none
    obtain rfl : block = common := down
    exact Call.Keeps.pure _
  · refine (Call.Triple.outside (P := fun state : LightState => W.AsOf K block state ∧ state.position = block)
      (honest.fetchDiffs removed)).bind fun diffs => ?_
    refine .update fun s ⟨⟨before, standing⟩, true'⟩ => ⟨before.withoutBlocks nonzero down true', ?_⟩
    exact (position_withoutBlocks removed diffs s.1).trans standing

/-- Blocks are put in above the common ancestor, and the position becomes the last of them. -/
theorem Honest.goForward (honest : W.Honest K) (nonzero : LeavesNonzero W.hashers) (up : K.Ascends common added)
    (some : added ≠ []) : Call.Triple (fun s => W.AsOf K common s.1 ∧ s.1.position = block) (W.goForward added)
      (fun _ => W.Exact K) fun s => W.AsOf K common s.1 ∧ s.1.position = block := by
  unfold LightPool.goForward
  split
  next none => exact absurd (List.isEmpty_iff.mp none) some
  · refine (Call.Triple.outside (P := fun state : LightState => W.AsOf K common state ∧ state.position = block)
      (honest.fetchDiffs added)).bind fun diffs => ?_
    refine .update fun s ⟨⟨before, _⟩, true'⟩ => ?_
    have applied := before.applyAll nonzero up true'
    have same := List.getLast?_eq_some_getLast some
    have standing : (W.withBlocks s.1 added diffs).position = added.getLast?.getD common := by
      rw [withBlocks, same]
      rfl
    rw [Exact, standing]
    exact ⟨applied.entries, applied.consistent, applied.recorded⟩

/-! ## Steps and runs -/

/-- The step takes blocks out, and then fails to get the diffs of those that replace them. -/
def Torn (W : LightPool σ) (s : LightState × σ) : Prop :=
  ∃ chain w s' e s'', W.rpc.getVirtualChainFromBlock s.1.position s.2 = (.ok chain, w) ∧
    chain.removedChainBlockHashes ≠ [] ∧ chain.addedChainBlockHashes.length ≤ catchUpLimit ∧
    W.takeBack chain.removedChainBlockHashes (s.1, w) = (.ok (), s') ∧
    W.goForward chain.addedChainBlockHashes s' = (.error e, s'')

/-- A step that is not torn leaves the state exact, also when it fails. -/
theorem Honest.follow (honest : W.Honest K) (nonzero : LeavesNonzero W.hashers) {s : LightState × σ}
    (exact' : W.Exact K s) (whole : ¬ W.Torn s) : W.Exact K (W.follow s).2 := by
  rcases answered : W.rpc.getVirtualChainFromBlock s.1.position s.2 with ⟨answer, w⟩
  rw [W.follow_answered answered]
  have here : W.Exact K (s.1, w) := exact'
  cases answer with
  | error e => exact (honest.startOver _).run here
  | ok chain =>
    obtain ⟨common, down, up⟩ := honest.chain _ _ _ _ answered
    dsimp only
    split
    · exact (honest.startOver _).run here
    next through =>
      rw [not_or, not_lt] at through
      obtain ⟨value, failed⟩ := honest.takeBack nonzero down (s.1, w) ⟨here, rfl⟩
      rcases back : W.takeBack chain.removedChainBlockHashes (s.1, w) with ⟨e | done, s'⟩
      · rw [Call.bind_error back]
        obtain ⟨asOf, standing⟩ := failed e s' back
        rwa [← standing] at asOf
      · rw [Call.bind_ok back]
        obtain ⟨asOf, standing⟩ := value done s' back
        -- with nothing taken out the position is the common ancestor
        have level : chain.removedChainBlockHashes = [] → W.Exact K s' := by
          intro nothing
          rw [nothing] at down
          obtain rfl : s.1.position = common := down
          rwa [← standing] at asOf
        have onward : ∀ done' s'', W.goForward chain.addedChainBlockHashes s' = (.ok done', s'') → W.Exact K s'' := by
          intro done' s'' on
          by_cases none : chain.addedChainBlockHashes = []
          · have unmoved : s'' = s' := by
              rw [none] at on
              exact (congrArg Prod.snd on).symm
            rw [unmoved]
            exact level (by_contra fun some => through.2 ⟨some, none⟩)
          · exact (honest.goForward nonzero up none s' ⟨asOf, standing⟩).1 done' s'' on
        rcases on : W.goForward chain.addedChainBlockHashes s' with ⟨e | done', s''⟩
        · rw [Call.bind_error on]
          -- a failure here is harmless only if nothing was taken out
          have nothing := by_contra fun some =>
            whole ⟨chain, w, s', e, s'', answered, some, through.1, back, on⟩
          have some : chain.addedChainBlockHashes ≠ [] := fun none => by rw [none] at on; cases on
          obtain ⟨asOf, standing⟩ := (honest.goForward nonzero up some s' ⟨asOf, standing⟩).2 e s'' on
          rw [nothing] at down
          obtain rfl : s.1.position = common := down
          rwa [← standing] at asOf
        · rw [Call.bind_ok on]
          exact ((noteScore_exact _).bind fun _ => honest.checkWhenDue _).run (onward done' s'' on)

/-- Runs of the wallet in which no step is torn. What the server answers may be different before every step. -/
inductive Runs (W : LightPool σ) : LightState × σ → Prop
  | started {w w' : σ} {fresh : LightState} (ran : W.start w = (.ok fresh, w')) : Runs W (fresh, w')
  | followed {state : LightState} {w : σ} (w' : σ) (before : Runs W (state, w)) (whole : ¬ W.Torn (state, w')) :
    Runs W (W.follow (state, w')).2

theorem Honest.start (honest : W.Honest K) : W.start.Ensures fun fresh => W.AsOf K fresh.position fresh :=
  honest.checkedAnchor.bind fun _ commits => honest.fetchState commits

/-- With an honest server, after every step the entries and the root are those of the block at the position,
and every recorded pair is a block of its chain with what it commits to. -/
theorem runs_exact (honest : W.Honest K) (nonzero : LeavesNonzero W.hashers) {s : LightState × σ}
    (runs : W.Runs s) :
    s.1.entries.lookup = K.pool s.1.position ∧ s.1.tree.root = W.commitment K s.1.position ∧
      ∀ pair ∈ s.1.recentRoots, pair.1 ∈ K.forest.line s.1.position ∧ pair.2 = W.commitment K pair.1 := by
  have exact' : W.Exact K s := by
    induction runs with
    | started ran => exact honest.start _ _ _ ran
    | followed w' before whole ih => exact honest.follow nonzero ih whole
  exact ⟨exact'.entries, exact'.root, exact'.recorded⟩

end LightPool

namespace Sample

variable (block : Hash)

/-- Block 2 has a note, the others have none. -/
def noteAt : PoolCollection := if block = 2 then (∅ : PoolCollection).insert 5 smallNote else ∅

theorem mem_noteAt {block sn : Hash} {entry : PoolEntry} :
    (noteAt block).lookup sn = some entry ↔ block = 2 ∧ sn = 5 ∧ entry = smallNote := by
  unfold noteAt
  split
  next two =>
    rw [Map.lookup_insert_eq]
    constructor
    · intro live
      split at live
      next five => exact ⟨two, five, (Option.some.inj live).symm⟩
      · cases live
    · rintro ⟨-, rfl, rfl⟩
      exact if_pos rfl
  next other => exact ⟨fun live => (by cases live), fun here => absurd here.1 other⟩

def above : Option Hash := if block = 2 ∨ block = 3 then some 1 else none

theorem above_eq_some {block parent : Hash} (on : above block = some parent) :
    (block = 2 ∨ block = 3) ∧ parent = 1 := by
  unfold above at on
  split at on
  next top => exact ⟨top, (Option.some.inj on).symm⟩
  · cases on

/-- Blocks 2 and 3 on top of block 1. -/
def fork : PoolChain where
  forest := ⟨above, fun block => if block = 2 ∨ block = 3 then 1 else 0, by
    intro block parent on
    obtain ⟨top, rfl⟩ := above_eq_some on
    rw [if_pos top]
    decide⟩
  pool block := (noteAt block).lookup
  diff block := ⟨noteAt block, ∅⟩
  difference := by
    intro block parent on sn
    obtain ⟨-, rfl⟩ := above_eq_some on
    change (⟨(noteAt block).lookup sn, none⟩ : Cell PoolEntry) = Cell.between none ((noteAt block).lookup sn)
    cases (noteAt block).lookup sn <;> rfl
  settled := by
    intro block parent on sn old new live
    obtain ⟨-, rfl⟩ := above_eq_some on
    cases live
  apart := by
    intro block sn live
    obtain ⟨entry, live⟩ := Option.isSome_iff_exists.mp live
    obtain ⟨rfl, rfl, -⟩ := mem_noteAt.mp live
    decide +kernel

/-- The chain turns from block 2 to block 3, whose diff cannot be had. -/
def servesFork : RpcApi Nat where
  getVirtualChainFromBlock position :=
    if position = 1 then answer ⟨[], [2]⟩ else if position = 2 then answer ⟨[2], [3]⟩ else answer ⟨[], []⟩
  getPoolDiff blocks := if blocks = [2] then answer [⟨2, [rpcEntry 5 smallNote], []⟩] else .fail "timeout"
  getBlock block := answer (header block (if block = 2 then 7 else 0) 100)
  getFinalityAnchor := answer (some (anchor 1 100))
  getPoolStateAtBlock block := answer (if block = 2 then [rpcEntry 5 smallNote] else [])

def turned : LightPool Nat := wallet leafRoot Smt.Sample.turningSort servesFork

theorem leaves_fork : poolLeafMap turned.hashers (fork.pool block) =
    if block = 2 then applied noLeaves [⟨5, 7⟩] else noLeaves := by
  funext sn
  cases live : fork.pool block sn with
  | none =>
    have absent : poolLeafMap turned.hashers (fork.pool block) sn = Hash.zero := by rw [poolLeafMap, live]; rfl
    rw [absent]
    split
    next two =>
      have other : sn ≠ 5 := fun five => by cases live.symm.trans (mem_noteAt.mpr ⟨two, five, rfl⟩)
      rw [applied_single]
      exact (if_neg other).symm
    · rfl
  | some entry =>
    obtain ⟨rfl, rfl, rfl⟩ := mem_noteAt.mp live
    decide +kernel

theorem commitment_fork : turned.commitment fork block = if block = 2 then 7 else 0 := by
  rw [LightPool.commitment, leaves_fork]
  split
  · have scratch := computeRootUpdate_scratch turned.smt ⟨[⟨5, 7⟩], List.pairwise_singleton _ _⟩
    rw [← scratch]
    decide +kernel
  · rw [canonRoot_noLeaves]
    decide +kernel

theorem lists_noteAt : Lists (if block = 2 then [rpcEntry 5 smallNote] else []) (noteAt block).lookup := by
  constructor
  · intro note member
    split at member
    next two => exact ⟨5, smallNote, List.mem_singleton.mp member, mem_noteAt.mpr ⟨two, rfl, rfl⟩⟩
    · cases member
  · intro sn entry live
    obtain ⟨rfl, rfl, rfl⟩ := mem_noteAt.mp live
    exact List.mem_singleton_self _

theorem honest_turned : turned.Honest fork where
  chain position := by
    intro w chain w' ran
    change (if position = 1 then answer (⟨[], [2]⟩ : RpcChain) else if position = 2 then answer ⟨[2], [3]⟩
      else answer ⟨[], []⟩) w = _ at ran
    split_ifs at ran with one two
    · cases ran
      exact ⟨1, one, rfl, trivial⟩
    · cases ran
      exact ⟨1, ⟨two.symm, 1, by rw [two]; rfl, rfl⟩, rfl, trivial⟩
    · cases ran
      exact ⟨position, rfl, trivial⟩
  diffs blocks := by
    intro w diffs w' ran
    change (if blocks = [2] then answer [(⟨2, [rpcEntry 5 smallNote], []⟩ : RpcPoolDiff)] else .fail "timeout") w = _ at ran
    split_ifs at ran with two
    · cases ran
      rw [two]
      have nothing : Lists [] (∅ : PoolCollection).lookup :=
        ⟨fun _ member => (by cases member), fun _ _ live => (by cases live)⟩
      exact .cons ⟨rfl, lists_noteAt 2, nothing⟩ .nil
    · cases ran
  headers block := by
    intro w block' w' ran
    cases ran
    exact (commitment_fork block).symm
  pools block := by
    intro w notes w' ran
    cases ran
    exact lists_noteAt block

theorem runs_turned : ∃ s, turned.Runs s ∧ s.1.position = 2 ∧
    (turned.follow s).2.1.position = 2 ∧ (turned.follow s).2.1.entries.lookup 5 = none := by
  let stage : Option (Hash × Hash × Hash × Option PoolEntry) :=
    match turned.start 0 with
    | (.ok fresh, w) =>
      let s := (turned.follow (fresh, w)).2
      some (fresh.position, s.1.position, (turned.follow s).2.1.position, (turned.follow s).2.1.entries.lookup 5)
    | (.error _, _) => none
  have ok : stage = some (1, 2, 2, none) := by decide +kernel
  rcases ran : turned.start 0 with ⟨e | fresh, w⟩
  · simp only [stage, ran] at ok
    cases ok
  · simp only [stage, ran, Option.some.injEq, Prod.mk.injEq] at ok
    obtain ⟨below, standing, after, gone⟩ := ok
    have whole : ¬ turned.Torn (fresh, w) := by
      rintro ⟨chain, w', s', e, s'', answered, some, -⟩
      change turned.rpc.getVirtualChainFromBlock fresh.position w = _ at answered
      rw [below] at answered
      cases answered
      exact some rfl
    exact ⟨_, .followed w (.started ran) whole, standing, after, gone⟩

end Sample

open Sample in
theorem runs_exact_turned : ∃ s, turned.Runs s ∧ s.1.position = 2 ∧ s.1.entries.lookup 5 = some smallNote ∧
    s.1.tree.root = turned.commitment fork 2 := by
  obtain ⟨s, runs, standing, -⟩ := runs_turned
  obtain ⟨entries, root, -⟩ := LightPool.runs_exact honest_turned (leavesNonzero _) runs
  rw [standing] at entries root
  exact ⟨s, runs, standing, (congrFun entries 5).trans (mem_noteAt.mpr ⟨rfl, rfl, rfl⟩), root⟩

open Sample in
/-- A step that fails between taking a block out and putting another one in: the state says it is at the block
that is out. -/
theorem follow_loses_note : turned.Honest fork ∧ ∃ s, turned.Runs s ∧
    (turned.follow s).2.1.position = 2 ∧ (turned.follow s).2.1.entries.lookup 5 = none ∧
    fork.pool 2 5 = some smallNote := by
  obtain ⟨s, runs, -, after, gone⟩ := runs_turned
  exact ⟨honest_turned, s, runs, after, gone, mem_noteAt.mpr ⟨rfl, rfl, rfl⟩⟩

end Marigold.Wallet
