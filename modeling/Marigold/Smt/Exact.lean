import Marigold.Smt.Canonical

/-!
# What a batch update does to a store

`compute_root_update` against the map it is meant to update. The result of every subtree is the
canonical one of the leaves the batch leaves behind; the store that results has exactly their nodes
unless a collapsed leaf was deleted together with absent keys below it, and the leaves left behind are
those of the updated map unless one of two leaves of a common parent was updated alone.
-/

namespace Marigold.Smt

open Lib Lib.Bits

/-! ## A batch as a function of the key -/

/-- What a batch sets the leaf of a key to. -/
def written (updates : List LeafUpdate) (key : Hash) : Option Hash :=
  (updates.find? fun u => u.key = key).map LeafUpdate.leafHash

/-- The leaves with a batch of updates applied. -/
def applied (leaves : LeafMap) (updates : List LeafUpdate) : LeafMap :=
  fun key => (written updates key).getD (leaves key)

/-- Two leaves have a common parent and only the other one is updated. -/
def Lost (leaves : LeafMap) (updates : List LeafUpdate) (key : Hash) : Prop :=
  leaves key ≠ Hash.zero ∧ leaves (twin key) ≠ Hash.zero ∧
    (written updates (twin key)).isSome ∧ written updates key = none

instance (leaves : LeafMap) (updates : List LeafUpdate) (key : Hash) : Decidable (Lost leaves updates key) :=
  inferInstanceAs (Decidable (_ ∧ _ ∧ _ ∧ _))

/-- The leaves the update leaves behind. -/
def retained (leaves : LeafMap) (updates : List LeafUpdate) : LeafMap :=
  fun key => if Lost leaves updates key then Hash.zero else applied leaves updates key

/-- Below `depth` the leaf and other keys are updated, and all of them deleted. -/
def Stale (updates : List LeafUpdate) (depth : Nat) (leaf : CollapsedLeaf) : Prop :=
  (written updates leaf.laneKey).isSome ∧
    (∃ u ∈ updates, firstBits depth u.key = firstBits depth leaf.laneKey ∧ u.key ≠ leaf.laneKey) ∧
    ∀ u ∈ updates, firstBits depth u.key = firstBits depth leaf.laneKey → u.leafHash = Hash.zero

variable {updates : List LeafUpdate} {key p : Hash} {u v : LeafUpdate} {leaves : LeafMap} {n height : Nat}
  {right : Bool} {α : Type} {l : List α} {store : SmtStore} {changes : SmtNodeChanges}

theorem written_eq_none : written updates key = none ↔ ∀ u ∈ updates, u.key ≠ key := by
  simp [written]

theorem written_isSome : (written updates key).isSome ↔ ∃ u ∈ updates, u.key = key := by
  simp [written]

theorem mem_of_written {leafHash : Hash} (found : written updates key = some leafHash) : ⟨key, leafHash⟩ ∈ updates := by
  obtain ⟨u, here, rfl⟩ := Option.map_eq_some_iff.mp found
  have same : u.key = key := by simpa using List.find?_some here
  exact same ▸ List.mem_of_find?_eq_some here

theorem SortedLeafUpdates.key_inj (updates : SortedLeafUpdates) (left : u ∈ updates.updates)
    (right : v ∈ updates.updates) (same : u.key = v.key) : u = v := by
  have nodup : (updates.updates.map LeafUpdate.key).Nodup := by
    refine List.pairwise_map.mpr (updates.sorted.imp ?_)
    intro a b less equal
    rw [equal] at less
    exact BitVec.lt_irrefl _ less
  exact List.inj_on_of_nodup_map nodup left right same

theorem written_of_mem (updates : SortedLeafUpdates) (member : u ∈ updates.updates) :
    written updates.updates u.key = some u.leafHash := by
  obtain ⟨leafHash, found⟩ := Option.isSome_iff_exists.mp (written_isSome.mpr ⟨u, member, rfl⟩)
  have same := updates.key_inj (mem_of_written found) member rfl
  rw [found, ← same]

@[simp] theorem written_nil (key : Hash) : written [] key = none := rfl

theorem written_filter (updates : List LeafUpdate) (keep : Hash → Bool) (key : Hash) :
    written (updates.filter fun u => keep u.key) key =
      if keep key then written updates key else none := by
  split
  next kept =>
    rw [written, List.find?_filter, written]
    congr 2
    funext u
    by_cases here : u.key = key <;> simp [here, kept]
  next dropped =>
    refine written_eq_none.mpr fun u member same => ?_
    subst same
    exact dropped (List.mem_filter.mp member).2

theorem retained_of_not_lost (kept : ¬ Lost leaves updates key) :
    retained leaves updates key = applied leaves updates key :=
  if_neg kept

theorem retained_nil (leaves : LeafMap) : retained leaves [] = leaves := by
  funext key
  simp [retained, Lost, applied]

/-! ## The two halves of a batch -/

/-- The updates of one child. -/
def half (updates : List LeafUpdate) (n : Nat) (right : Bool) : List LeafUpdate :=
  updates.filter fun u => bitAt u.key (255 - n) == right

theorem mem_half : u ∈ half updates n right ↔ u ∈ updates ∧ bitAt u.key (255 - n) = right := by
  simp [half]

theorem half_below (fits : n < 256) (inside : ∀ u ∈ updates, Below (n + 1) p u.key) :
    ∀ u ∈ half updates n right, Below n (child n p right) u.key := by
  intro u member
  obtain ⟨there, bit⟩ := mem_half.mp member
  exact bit ▸ (inside u there).choose fits

theorem written_half (sub : Subtree (n + 1) p) (below : Below n (child n p right) key) :
    written (half updates n right) key = written updates key := by
  have bit := ((below_child sub).mp below).2
  rw [half, written_filter updates (fun key => bitAt key (255 - n) == right), bit]
  simp

private theorem takeWhile_dropWhile_eq_filter {keep : α → Bool}
    (ordered : l.Pairwise fun a b => keep b = true → keep a = true) :
    l.takeWhile keep = l.filter keep ∧ l.dropWhile keep = l.filter fun a => !keep a := by
  induction l with
  | nil => exact ⟨rfl, rfl⟩
  | cons first rest ih =>
    rw [List.pairwise_cons] at ordered
    obtain ⟨taken, dropped⟩ := ih ordered.2
    cases kept : keep first with
    | true => simp [kept, taken, dropped]
    | false =>
      have none : ∀ a ∈ rest, keep a = false := fun a member => by
        by_contra there
        exact absurd (ordered.1 a member (by simpa using there)) (by simp [kept])
      have empty : rest.filter keep = [] := List.filter_eq_nil_iff.mpr (by simpa using none)
      have all : (rest.filter fun a => !keep a) = rest :=
        List.filter_eq_self.mpr (by simpa using none)
      simp [kept, empty, all]

/-- Sorted keys under a common prefix: first those with the next bit clear, then those with it set. -/
theorem split_by_bit {key : α → Hash} (fits : n < 256) (sorted : l.Pairwise fun a b => key a < key b)
    (inside : ∀ a ∈ l, Below (n + 1) p (key a)) : (l.takeWhile fun a => !bitAt (key a) (255 - n)) =
        (l.filter fun a => bitAt (key a) (255 - n) == false) ∧
      (l.dropWhile fun a => !bitAt (key a) (255 - n)) = l.filter fun a => bitAt (key a) (255 - n) == true := by
  have ordered : l.Pairwise fun a b =>
      (!bitAt (key b) (255 - n)) = true → (!bitAt (key a) (255 - n)) = true := by
    refine sorted.imp_of_mem ?_
    intro a b left right less clear
    have common : firstBits (255 - n) (key a) = firstBits (255 - n) (key b) := by
      have here := (inside a left).trans (inside b right).symm
      rwa [depth_succ] at here
    by_contra set
    have bit := bit_mono (by omega) common less (by simpa [bitAt] using set)
    simp [bitAt, bit] at clear
  obtain ⟨taken, dropped⟩ := takeWhile_dropWhile_eq_filter ordered
  refine ⟨taken.trans ?_, dropped.trans ?_⟩
  · congr 1
    funext a
    cases bitAt (key a) (255 - n) <;> rfl
  · congr 1
    funext a
    cases bitAt (key a) (255 - n) <;> rfl

theorem partitionByBit_eq_half {updates : SortedLeafUpdates} (fits : n < 256)
    (inside : ∀ u ∈ updates.updates, Below (n + 1) p u.key) :
    (updates.partitionByBit (255 - n)).1.updates = half updates.updates n false ∧
      (updates.partitionByBit (255 - n)).2.updates = half updates.updates n true :=
  split_by_bit fits updates.sorted inside

/-! ## Expanding a collapsed node -/

theorem written_insert (updates : SortedLeafUpdates) (u : LeafUpdate) (key : Hash) :
    written (updates.insert u).updates key =
      if key = u.key then some u.leafHash else written updates.updates key := by
  obtain ⟨updates, sorted⟩ := updates
  change written (insertSorted u updates) key =
    if key = u.key then some u.leafHash else written updates key
  clear sorted
  have cons : ∀ (v : LeafUpdate) l, written (v :: l) key =
      if key = v.key then some v.leafHash else written l key := by
    intro v l
    by_cases here : v.key = key
    · simp [written, here]
    · simp [written, here, Ne.symm here]
  induction updates with
  | nil => exact cons u []
  | cons first rest ih =>
    rw [insertSorted]
    by_cases below : u.key < first.key
    · rw [if_pos below, cons]
    rw [if_neg below]
    by_cases same : u.key = first.key
    · rw [if_pos same, cons, cons, ← same]
      split <;> rfl
    · rw [if_neg same, cons, ih, cons]
      by_cases here : key = u.key
      · rw [if_pos here, if_neg fun equal => same (here.symm.trans equal), if_pos here]
      · rw [if_neg here, if_neg here]

theorem mem_insert {updates : SortedLeafUpdates} (member : v ∈ (updates.insert u).updates) :
    v = u ∨ v ∈ updates.updates :=
  mem_insertSorted member

section Expansion

variable {H : SmtHasher} {leaves : LeafMap} {n : Nat} {p : Hash}

/-- The batch with the leaf of a collapsed node put back into it. -/
def expandedUpdates (H : SmtHasher) (leaves : LeafMap) (n : Nat) (p : Hash)
    (updates : SortedLeafUpdates) : List LeafUpdate :=
  (expandSingleton (canon H leaves n p).node updates).2.updates

theorem not_lost_of_flat {updates : List LeafUpdate} {key : Hash} (sub : Subtree (n + 1) p) (flat : ∀ hash, canon H leaves (n + 1) p ≠ .internal hash)
    (below : Below (n + 1) p key) : ¬ Lost leaves updates key := by
  rintro ⟨here, there, -, -⟩
  cases result : canon H leaves (n + 1) p with
  | empty => exact here ((canon_eq_empty sub).mp result key below)
  | internal hash => exact flat hash result
  | collapsed leaf =>
    have only := (canon_eq_collapsed sub).mp result
    have mine : key = leaf.laneKey := by
      by_contra differ
      exact here (only.2.2.2 key below differ)
    have other : twin key = leaf.laneKey := by
      by_contra differ
      exact there (only.2.2.2 _ ((below_twin (Nat.succ_pos n)).mpr below) differ)
    exact twin_ne key (other.trans mine.symm)

theorem canon_applied {updates : List LeafUpdate} (sub : Subtree n p)
    (kept : ∀ key, Below n p key → ¬ Lost leaves updates key) :
    canon H (applied leaves updates) n p = canon H (retained leaves updates) n p :=
  canon_congr sub fun key below => (retained_of_not_lost (kept key below)).symm

theorem applied_expanded (updates : SortedLeafUpdates) {key : Hash} (fits : n < 256) (below : Below (n + 1) p key) :
    applied (carried H leaves (n + 1) p) (expandedUpdates H leaves (n + 1) p updates) key =
      applied leaves updates.updates key := by
  rw [expandedUpdates]
  have sub := below.subtree fits
  cases result : canon H leaves (n + 1) p with
  | internal hash => rw [carried_of_internal result]; rfl
  | empty =>
    have bare := (canon_eq_empty sub).mp result key below
    rw [carried_of_flat (by simp [result])]
    simp [expandSingleton, NodeResult.node, applied, noLeaves, bare]
  | collapsed leaf =>
    obtain ⟨-, value, -, others⟩ := (canon_eq_collapsed sub).mp result
    rw [carried_of_flat (by simp [result])]
    simp only [expandSingleton, NodeResult.node, applied, noLeaves]
    split
    next contained =>
      by_cases here : key = leaf.laneKey
      · have there : (written updates.updates key).isSome := by
          obtain ⟨u, member, same⟩ := List.any_eq_true.mp contained
          exact written_isSome.mpr ⟨u, member, by rw [here]; simpa using same⟩
        obtain ⟨leafHash, found⟩ := Option.isSome_iff_exists.mp there
        rw [found]
        rfl
      · rw [others key below here]
    next missing =>
      rw [written_insert]
      by_cases here : key = leaf.laneKey
      · have absent : written updates.updates key = none := by
          refine written_eq_none.mpr fun u member same => missing ?_
          exact List.any_eq_true.mpr ⟨u, member, by simp [same, here]⟩
        rw [if_pos here, absent, here, value]
        rfl
      · rw [if_neg here, others key below here]

theorem expanded_below {updates : SortedLeafUpdates} (sub : Subtree (n + 1) p)
    (inside : ∀ u ∈ updates.updates, Below (n + 1) p u.key) :
    ∀ u ∈ expandedUpdates H leaves (n + 1) p updates, Below (n + 1) p u.key := by
  rw [expandedUpdates]
  cases result : canon H leaves (n + 1) p with
  | internal hash => exact inside
  | empty => exact inside
  | collapsed leaf =>
    intro u member
    simp only [expandSingleton, NodeResult.node] at member
    split at member
    · exact inside u member
    · rcases mem_insert member with rfl | there
      · exact ((canon_eq_collapsed sub).mp result).1
      · exact inside u there

theorem retained_expanded (updates : SortedLeafUpdates) {key : Hash} (fits : n < 256) (below : Below (n + 1) p key) :
    retained (carried H leaves (n + 1) p) (expandedUpdates H leaves (n + 1) p updates) key =
      retained leaves updates.updates key := by
  rcases branched_or_flat (canon H leaves (n + 1) p) with ⟨hash, branched⟩ | flat
  · rw [carried_of_internal branched, expandedUpdates, branched]
    rfl
  · rw [retained_of_not_lost (not_lost_of_flat ⟨fits, below.self⟩ flat below),
      ← applied_expanded updates fits below, retained_of_not_lost]
    rw [carried_of_flat flat]
    exact fun lost => lost.1 rfl

end Expansion

/-! ## When the update is exact -/

/-- No collapsed leaf of the subtree goes stale and none of its leaves is lost. -/
structure Sound (view : SmtStore) (leaves : LeafMap) (updates : List LeafUpdate) (n : Nat) (p : Hash) : Prop where
  fresh : ∀ depth leaf, 256 - n ≤ depth → depth < 256 → Below n p leaf.laneKey →
    view (.new depth leaf.laneKey) = some (.collapsed leaf) → ¬ Stale updates depth leaf
  kept : ∀ key, Below n p key → ¬ Lost leaves updates key

section Soundness

variable {H : SmtHasher} {view view' : SmtStore} {leaves : LeafMap} {n : Nat} {p : Hash} {depth : Nat} {key : Hash}
  {updates : List LeafUpdate} {leaf : CollapsedLeaf} {right : Bool}

theorem inTree_new (deep : 256 - n ≤ depth) (small : depth < 256) (below : Below n p key) :
    InTree n p (.new depth key) :=
  ⟨deep, small, (firstBits_firstBits deep key).trans below, firstBits_firstBits (le_refl _) key⟩

theorem Sound.congr_view (sound : Sound view leaves updates n p) (same : ∀ key, InTree n p key → view' key = view key) :
    Sound view' leaves updates n p :=
  ⟨fun depth leaf deep small below there =>
    sound.fresh depth leaf deep small below ((same _ (inTree_new deep small below)).symm.trans there),
    sound.kept⟩

theorem sound_of_no_updates : Sound view leaves [] n p :=
  ⟨fun _ _ _ _ _ _ stale => by simpa using stale.1, fun _ _ lost => by simpa using lost.2.2.1⟩

theorem sound_of_bare (updates : List LeafUpdate) (sub : Subtree n p)
    (bare : Holds H view n noLeaves p) : Sound view noLeaves updates n p := by
  refine ⟨fun depth leaf deep small below there => ?_, fun _ _ lost => lost.1 rfl⟩
  rw [(holds_noLeaves_iff sub).mp bare _ (inTree_new deep small below)] at there
  cases there

/-- Where the tree is not branched only the leaf of the position itself can go stale. -/
theorem sound_iff_of_flat (sub : Subtree (n + 1) p) (holds : Holds H view (n + 1) leaves p)
    (flat : ∀ hash, canon H leaves (n + 1) p ≠ .internal hash) : Sound view leaves updates (n + 1) p ↔
      ∀ leaf, canon H leaves (n + 1) p = .collapsed leaf → ¬ Stale updates (255 - n) leaf := by
  constructor
  · intro sound leaf result
    have below := ((canon_eq_collapsed sub).mp result).1
    refine sound.fresh (255 - n) leaf depth_succ.le (by omega) below ?_
    rw [branchKey_succ below, holds.1, result]
    rfl
  · intro fresh
    refine ⟨fun d leaf deep small below there => ?_, fun key below => not_lost_of_flat sub flat below⟩
    rcases (inTree_new deep small below).cases sub.fits with top | ⟨right, deeper⟩
    · have here : d = 255 - n := congrArg BranchKey.depth top
      rw [top, holds.1] at there
      refine here ▸ fresh leaf ?_
      cases result : canon H leaves (n + 1) p with
      | collapsed other => simpa [result, NodeResult.node] using there
      | empty => simp [result, NodeResult.node] at there
      | internal hash => exact absurd result (flat hash)
    · have bare := holds.2 right
      rw [carried_of_flat flat] at bare
      rw [(holds_noLeaves_iff sub.down).mp bare _ deeper] at there
      cases there

theorem stale_half_iff (sub : Subtree (n + 1) p) (below : Below n (child n p right) leaf.laneKey)
    (deep : 256 - n ≤ depth) : Stale (half updates n right) depth leaf ↔ Stale updates depth leaf := by
  have bit := ((below_child sub).mp below).2
  -- keys that share the prefix of the leaf are in its half
  have member : ∀ u : LeafUpdate, firstBits depth u.key = firstBits depth leaf.laneKey →
      (u ∈ half updates n right ↔ u ∈ updates) := by
    intro u same
    have early : 255 - n < depth := by have := sub.fits; omega
    have chosen : bitAt u.key (255 - n) = right := (firstBits_eq_iff.mp same (255 - n) early).trans bit
    rw [mem_half]
    exact ⟨And.left, fun there => ⟨there, chosen⟩⟩
  rw [Stale, Stale, written_half sub below]
  refine and_congr_right fun _ => and_congr ?_ ?_
  · constructor
    · rintro ⟨u, there, same, differ⟩
      exact ⟨u, (member u same).mp there, same, differ⟩
    · rintro ⟨u, there, same, differ⟩
      exact ⟨u, (member u same).mpr there, same, differ⟩
  · constructor
    · exact fun all u there same => all u ((member u same).mpr there) same
    · exact fun all u there same => all u ((member u same).mp there) same

theorem lost_half_iff (above : 0 < n) (sub : Subtree (n + 1) p) (below : Below n (child n p right) key) :
    Lost leaves (half updates n right) key ↔ Lost leaves updates key := by
  rw [Lost, Lost, written_half sub below, written_half sub ((below_twin above).mpr below)]

theorem sound_iff_of_internal {hash : Hash} (above : 0 < n) (sub : Subtree (n + 1) p)
    (holds : Holds H view (n + 1) leaves p) (branched : canon H leaves (n + 1) p = .internal hash) :
    Sound view leaves updates (n + 1) p ↔ ∀ right, Sound view leaves (half updates n right) n (child n p right) := by
  constructor
  · intro sound right
    refine ⟨fun depth leaf deep small below there stale => ?_, fun key below lost => ?_⟩
    · exact sound.fresh depth leaf (by omega) small (below.parent sub) there ((stale_half_iff sub below deep).mp stale)
    · exact sound.kept key (below.parent sub) ((lost_half_iff above sub below).mp lost)
  · intro both
    refine ⟨fun depth leaf deep small below there stale => ?_, fun key below lost => ?_⟩
    · rcases (inTree_new deep small below).cases sub.fits with top | ⟨right, deeper⟩
      · rw [top, holds.1, branched] at there
        simp [NodeResult.node] at there
      · have chosen := below.choose sub.fits
        have further : 256 - n ≤ depth := deeper.1
        exact (both _).fresh depth leaf further small chosen there ((stale_half_iff sub chosen further).mpr stale)
    · have chosen := below.choose sub.fits
      exact (both _).kept key chosen ((lost_half_iff above sub chosen).mpr lost)

/-- A collapsed subtree with other keys updated ends empty exactly when its leaf goes stale. -/
theorem empty_iff_stale {updates : SortedLeafUpdates} (sub : Subtree (n + 1) p)
    (result : canon H leaves (n + 1) p = .collapsed leaf) (inside : ∀ u ∈ updates.updates, Below (n + 1) p u.key)
    (others : ∃ u ∈ updates.updates, u.key ≠ leaf.laneKey) :
    canon H (applied leaves updates.updates) (n + 1) p = .empty ↔ Stale updates.updates (255 - n) leaf := by
  obtain ⟨here, value, nonzero, absent⟩ := (canon_eq_collapsed sub).mp result
  have common : ∀ u ∈ updates.updates, firstBits (255 - n) u.key = firstBits (255 - n) leaf.laneKey := by
    intro u member
    rw [← depth_succ]
    exact (inside u member).trans here.symm
  rw [canon_eq_empty sub]
  constructor
  · intro bare
    refine ⟨?_, ?_, fun u member _ => ?_⟩
    · by_contra missing
      have untouched := bare leaf.laneKey here
      rw [applied, Option.not_isSome_iff_eq_none.mp missing, Option.getD_none, value] at untouched
      exact nonzero untouched
    · obtain ⟨u, member, differ⟩ := others
      exact ⟨u, member, common u member, differ⟩
    · have cleared := bare u.key (inside u member)
      rwa [applied, written_of_mem updates member, Option.getD_some] at cleared
  · rintro ⟨touched, -, cleared⟩ key below
    rw [applied]
    cases found : written updates.updates key with
    | some leafHash =>
      have member := mem_of_written found
      exact cleared _ member (common _ member)
    | none =>
      refine absent key below ?_
      rintro rfl
      rw [found] at touched
      cases touched

end Soundness

/-! ## One subtree -/

/-- What an update of the subtree of height `n` at `p` does to the store. -/
structure Updated (H : SmtHasher) (before after : SmtStore) (leaves : LeafMap)
    (updates : List LeafUpdate) (n : Nat) (p : Hash) (outcome : NodeResult) : Prop where
  result : outcome = canon H (retained leaves updates) n p
  top : outcome ≠ .empty → after ⟨256 - n, p⟩ = outcome.node
  frame : ∀ key, ¬ InTree n p key → after key = before key
  exact : Holds H after n (applied leaves updates) p ↔ Sound before leaves updates n p

variable (view : SmtStore)

/-- `record_change` as a store. -/
def recorded (key : BranchKey) (existing new : Option Node) : SmtStore :=
  fun k => if k = key ∧ existing ≠ new then new else view k

theorem recorded_self (key : BranchKey) (existing new : Option Node) :
    recorded view key existing new key = if existing ≠ new then new else view key := by
  simp [recorded]

variable {view}

theorem recorded_of_ne {key other : BranchKey} {existing new : Option Node}
    (differ : other ≠ key) : recorded view key existing new other = view other :=
  if_neg fun both => differ both.1

variable (view)

/-- `promote` as a store. -/
def promoted (n : Nat) (p : Hash) (result : NodeResult) : SmtStore :=
  match result with
  | .collapsed leaf =>
    fun k => if k = ⟨256 - n, child n p (bitAt leaf.laneKey (255 - n))⟩ then none else view k
  | _ => view

@[simp] theorem promoted_empty (n : Nat) (p : Hash) : promoted view n p .empty = view := rfl

@[simp] theorem promoted_internal (n : Nat) (p hash : Hash) : promoted view n p (.internal hash) = view := rfl

theorem readNode_insert (store : SmtStore) (changes : SmtNodeChanges) (key : BranchKey) (new : Option Node) :
    readNode store (changes.insert key new) = fun k => if k = key then new else readNode store changes k := by
  funext k
  by_cases here : k = key
  · subst here
    simp [readNode]
  · simp [readNode, here]

theorem readNode_recordChange (store : SmtStore) (changes : SmtNodeChanges) (key : BranchKey)
    (existing new : Option Node) :
    readNode store (recordChange changes key existing new) = recorded (readNode store changes) key existing new := by
  funext k
  unfold recordChange recorded
  by_cases differ : existing = new
  · simp [differ]
  · simp [differ, readNode_insert]

theorem readNode_promote (store : SmtStore) (changes : SmtNodeChanges) (fits : n < 256) (p : Hash)
    (result : NodeResult) :
    readNode store (promote changes ⟨255 - n, p⟩ result (255 - n)) = promoted (readNode store changes) n p result := by
  cases result with
  | collapsed leaf => simp only [promote, promoted, readNode_insert, childBranchKey_eq fits]
  | empty => rfl
  | internal hash => rfl

section Step

variable {H : SmtHasher} {before after : SmtStore} {leaves : LeafMap} {n : Nat} {p : Hash} {a result : NodeResult}
  {updates : SortedLeafUpdates} {view : SmtStore} {key : Hash}

theorem NodeResult.node_injective {b : NodeResult} (same : a.node = b.node) : a = b := by
  cases a <;> cases b <;> simp_all [NodeResult.node]

theorem NodeResult.node_eq_none : a.node = none ↔ a = .empty := by
  cases a <;> simp [NodeResult.node]

@[simp] theorem NodeResult.ofNode_node (a : NodeResult) : NodeResult.ofNode a.node = a := by
  cases a <;> rfl

theorem expandSingleton_of_flat (flat : ∀ hash, result ≠ .internal hash) :
    (expandSingleton result.node updates).1 = none := by
  cases result with
  | internal hash => exact absurd rfl (flat hash)
  | empty => rfl
  | collapsed leaf =>
    simp only [expandSingleton, NodeResult.node]
    split <;> rfl

private theorem ite_not_eq_self (a b : Option Node) : (if a ≠ b then b else a) = b := by
  split
  · rfl
  next same => exact not_not.mp same

/-- The node of a result is in the store, unless a collapsed leaf was expanded and all of it deleted. -/
theorem recorded_result {key : BranchKey} {was : NodeResult} (there : view key = was.node)
    (present : result ≠ .empty ∨ ∃ hash, was = .internal hash) :
    recorded view key (expandSingleton was.node updates).1 result.node key = result.node := by
  rw [recorded_self, there]
  rcases branched_or_flat was with ⟨hash, rfl⟩ | flat
  · exact ite_not_eq_self _ _
  · rw [expandSingleton_of_flat flat, if_pos]
    have nonempty := present.resolve_right (not_exists.mpr flat)
    exact fun gone => nonempty (NodeResult.node_eq_none.mp gone.symm)

theorem updated_nil (holds : Holds H before (n + 1) leaves p) :
    Updated H before before leaves [] (n + 1) p (canon H leaves (n + 1) p) where
  result := by rw [retained_nil]
  top _ := by
    rw [depth_succ]
    exact holds.1
  frame _ _ := rfl
  exact := ⟨fun _ => sound_of_no_updates, fun _ => holds⟩

/-- Where the tree was not branched, and the children hold what they should, the update is exact
unless it leaves a stale node. -/
theorem exact_of_flat (sub : Subtree (n + 1) p) (holds : Holds H before (n + 1) leaves p)
    (flat : ∀ hash, canon H leaves (n + 1) p ≠ .internal hash) (inside : ∀ u ∈ updates.updates, Below (n + 1) p u.key)
    (others : ∀ leaf, canon H leaves (n + 1) p = .collapsed leaf → ∃ u ∈ updates.updates, u.key ≠ leaf.laneKey)
    (outcome : canon H (applied leaves updates.updates) (n + 1) p = result)
    (here : after ⟨255 - n, p⟩ = if none ≠ result.node then result.node else before ⟨255 - n, p⟩)
    (children : ∀ right, Holds H after n (carried H (applied leaves updates.updates) (n + 1) p) (child n p right)) :
    Holds H after (n + 1) (applied leaves updates.updates) p ↔ Sound before leaves updates.updates (n + 1) p := by
  rw [sound_iff_of_flat sub holds flat]
  have top : Holds H after (n + 1) (applied leaves updates.updates) p ↔ after ⟨255 - n, p⟩ = result.node :=
    ⟨fun held => outcome ▸ held.1, fun node => ⟨outcome ▸ node, children⟩⟩
  rw [top, here]
  by_cases empty : result = .empty
  · -- nothing is written: what was there stays
    have gone : result.node = none := NodeResult.node_eq_none.mpr empty
    rw [gone, if_neg (by simp), holds.1, NodeResult.node_eq_none]
    constructor
    · intro bare leaf there
      rw [bare] at there
      cases there
    · intro fresh
      cases was : canon H leaves (n + 1) p with
      | empty => rfl
      | internal hash => exact absurd was (flat hash)
      | collapsed leaf =>
        refine absurd ?_ (fresh leaf was)
        exact (empty_iff_stale sub was inside (others leaf was)).mp (outcome.trans empty)
  · have node : none ≠ result.node := fun same => empty (NodeResult.node_eq_none.mp same.symm)
    rw [if_pos node]
    refine ⟨fun _ leaf was stale => empty ?_, fun _ => rfl⟩
    exact outcome ▸ (empty_iff_stale sub was inside (others leaf was)).mpr stale

/-- Moving a lone leaf up takes away the node of the child it was in and nothing else. -/
theorem promoted_holds (sub : Subtree (n + 1) p) (outcome : canon H leaves (n + 1) p = result)
    (top : ∀ leaf, result = .collapsed leaf →
      view ⟨256 - n, child n p (bitAt leaf.laneKey (255 - n))⟩ = some (.collapsed leaf)) :
    (∀ right, Holds H (promoted view n p result) n (carried H leaves (n + 1) p) (child n p right)) ↔
    ∀ right, Holds H view n leaves (child n p right) := by
  subst outcome
  cases result : canon H leaves (n + 1) p with
  | internal hash => rw [carried_of_internal result, promoted_internal]
  | empty =>
    have bare := (canon_eq_empty sub).mp result
    have none : ∀ right key, Below n (child n p right) key → leaves key = noLeaves key :=
      fun right key below => bare key (below.parent sub)
    rw [carried_of_flat (by simp [result]), promoted_empty]
    exact forall_congr' fun right => (holds_congr_leaves sub.down (none right)).symm
  | collapsed leaf =>
    rw [carried_of_flat (by simp [result]), promoted]
    have only := (canon_eq_collapsed sub).mp result
    refine forall_congr' fun right => ?_
    by_cases side : bitAt leaf.laneKey (255 - n) = right
    · -- the child of the leaf: its node goes, below it there was nothing
      subst side
      cases n with
      | zero => exact Iff.rfl
      | succ n =>
      have here : Subtree (n + 1) (child (n + 1) p (bitAt leaf.laneKey (255 - (n + 1)))) := sub.down
      have alone := (canon_eq_collapsed (H := H) here).mpr (only.child sub.fits)
      have nothing := canon_noLeaves (H := H) here
      rw [holds_iff_of_flat here (by simp only [nothing]; simp),
        holds_iff_of_flat here (by simp only [alone]; simp), ← depth_succ, nothing, top leaf result, if_pos rfl, alone]
      refine and_congr (by simp [NodeResult.node]) ?_
      refine forall_congr' fun r => forall_congr' fun key => forall_congr' fun inside => ?_
      rw [depth_succ, if_neg (inside.ne_top (by have := sub.fits; omega))]
    · have flipped : right = !bitAt leaf.laneKey (255 - n) := by cases right <;> simpa using side
      have none : ∀ key, Below n (child n p right) key → leaves key = noLeaves key :=
        flipped ▸ only.other sub.fits
      have untouched : ∀ key, InTree n (child n p right) key →
          key ≠ ⟨256 - n, child n p (bitAt leaf.laneKey (255 - n))⟩ := by
        rintro key inside rfl
        subst flipped
        exact below_children_disjoint sub sub.down.position inside.2.2.1
      rw [holds_congr_leaves sub.down none]
      exact (holds_congr_view sub.down fun key inside => if_neg (untouched key inside)).symm

theorem Updated.of_half {side : Bool} (above : 0 < n) (sub : Subtree (n + 1) p)
    (updated : Updated H before after (carried H leaves (n + 1) p)
      (half (expandedUpdates H leaves (n + 1) p updates) n side) n (child n p side) result) :
    result = canon H (retained leaves updates.updates) n (child n p side) ∧
      (Holds H after n (applied leaves updates.updates) (child n p side) ↔ Sound before (carried H leaves (n + 1) p)
          (half (expandedUpdates H leaves (n + 1) p updates) n side) n (child n p side)) := by
  have sameApplied : ∀ key, Below n (child n p side) key → applied (carried H leaves (n + 1) p)
        (half (expandedUpdates H leaves (n + 1) p updates) n side) key =
        applied leaves updates.updates key := by
    intro key below
    rw [applied, written_half sub below]
    exact applied_expanded updates sub.fits (below.parent sub)
  have sameRetained : ∀ key, Below n (child n p side) key → retained (carried H leaves (n + 1) p)
        (half (expandedUpdates H leaves (n + 1) p updates) n side) key =
        retained leaves updates.updates key := by
    intro key below
    rw [retained, applied, written_half sub below]
    simp only [lost_half_iff above sub below]
    exact retained_expanded updates sub.fits (below.parent sub)
  refine ⟨updated.result.trans (canon_congr sub.down sameRetained), ?_⟩
  rw [← updated.exact]
  exact (holds_congr_leaves sub.down sameApplied).symm

theorem updated_join {left right : SmtStore} {leftResult rightResult : NodeResult} (above : 0 < n)
    (sub : Subtree (n + 1) p) (holds : Holds H before (n + 1) leaves p)
    (inside : ∀ u ∈ updates.updates, Below (n + 1) p u.key)
    (others : ∀ leaf, canon H leaves (n + 1) p = .collapsed leaf → ∃ u ∈ updates.updates, u.key ≠ leaf.laneKey)
    (leftUpdated : Updated H before left (carried H leaves (n + 1) p)
      (half (expandedUpdates H leaves (n + 1) p updates) n false) n (child n p false) leftResult)
    (rightUpdated : Updated H left right (carried H leaves (n + 1) p)
      (half (expandedUpdates H leaves (n + 1) p updates) n true) n
      (child n p true) rightResult) (merged : mergedNode H leftResult rightResult (255 - n) = result) : Updated H before
      (recorded (promoted right n p result) ⟨255 - n, p⟩
        (expandSingleton (canon H leaves (n + 1) p).node updates).1 result.node)
      leaves updates.updates (n + 1) p result := by
  obtain ⟨leftOutcome, leftExact⟩ := leftUpdated.of_half above sub
  obtain ⟨rightOutcome, rightExact⟩ := rightUpdated.of_half above sub
  have outcome : result = canon H (retained leaves updates.updates) (n + 1) p := by
    rw [← merged, leftOutcome, rightOutcome]
    rfl
  have topOutside : ∀ side, ¬ InTree n (child n p side) ⟨255 - n, p⟩ :=
    fun side there => there.ne_top sub.fits rfl
  have childTop : ∀ side, InTree n (child n p side) ⟨256 - n, child n p side⟩ := by
    intro side
    have position : Below n (child n p side) (child n p side) := sub.down.position
    exact ⟨le_refl _, Nat.sub_lt (by decide) above, position, position⟩
  -- neither child touches a node outside of it
  have untouched : ∀ key, (∀ side, ¬ InTree n (child n p side) key) → promoted right n p result key = before key := by
    intro key outside
    have framed : right key = before key :=
      (rightUpdated.frame key (outside true)).trans (leftUpdated.frame key (outside false))
    cases result with
    | empty => exact framed
    | internal hash => exact framed
    | collapsed leaf =>
      refine (if_neg ?_).trans framed
      rintro rfl
      exact outside _ (childTop _)
  have leftKept : ∀ key, InTree n (child n p false) key → right key = left key :=
    fun key there => rightUpdated.frame key (there.disjoint sub)
  have rightKept : ∀ key, InTree n (child n p true) key → left key = before key :=
    fun key there => leftUpdated.frame key (there.disjoint sub)
  have childrenExact : ∀ side, Holds H right n (applied leaves updates.updates) (child n p side) ↔
        Sound before (carried H leaves (n + 1) p) (half (expandedUpdates H leaves (n + 1) p updates) n side) n
          (child n p side) := by
    rintro (_ | _)
    · rw [← leftExact]
      exact (holds_congr_view sub.down leftKept).symm
    · rw [rightExact]
      exact ⟨fun sound => sound.congr_view fun key there => (rightKept key there).symm,
        fun sound => sound.congr_view rightKept⟩
  -- a lone leaf is in the store at the child it comes from
  have leafThere : ∀ leaf, result = .collapsed leaf →
      right ⟨256 - n, child n p (bitAt leaf.laneKey (255 - n))⟩ = some (.collapsed leaf) := by
    intro leaf lone
    have only := (canon_eq_collapsed sub).mp (outcome.symm.trans lone)
    have there := (canon_eq_collapsed (H := H) sub.down).mpr (only.child sub.fits)
    cases side : bitAt leaf.laneKey (255 - n) with
    | false =>
      rw [side, ← leftOutcome] at there
      rw [leftKept _ (childTop _), leftUpdated.top (by simp [there]), there]
      rfl
    | true =>
      rw [side, ← rightOutcome] at there
      rw [rightUpdated.top (by simp [there]), there]
      rfl
  have here : ∀ existing, recorded (promoted right n p result) ⟨255 - n, p⟩ existing result.node ⟨255 - n, p⟩ =
      if existing ≠ result.node then result.node else before ⟨255 - n, p⟩ := by
    intro existing
    rw [recorded_self, untouched _ topOutside]
  have childrenHeld : canon H (applied leaves updates.updates) (n + 1) p = result →
      ∀ existing, (∀ side, Holds H (recorded (promoted right n p result) ⟨255 - n, p⟩
        existing result.node) n (carried H (applied leaves updates.updates) (n + 1) p)
        (child n p side)) ↔
      ∀ side, Holds H right n (applied leaves updates.updates) (child n p side) := by
    intro same existing
    rw [← promoted_holds sub same leafThere]
    refine forall_congr' fun side => ?_
    have below : ∀ key, InTree n (child n p side) key →
        recorded (promoted right n p result) ⟨255 - n, p⟩ existing result.node key = promoted right n p result key :=
      fun key there => recorded_of_ne (there.ne_top sub.fits)
    exact (holds_congr_view sub.down below).symm
  refine ⟨outcome, fun nonempty => ?_, fun key outside => ?_, ?_⟩
  · rw [depth_succ]
    exact recorded_result ((untouched _ topOutside).trans holds.1) (.inl nonempty)
  · have notTop : key ≠ ⟨255 - n, p⟩ := by
      rintro rfl
      exact outside (inTree_top sub)
    rw [recorded_of_ne notTop]
    exact untouched key fun side there => outside (there.parent sub)
  · rcases branched_or_flat (canon H leaves (n + 1) p) with ⟨hash, was⟩ | flat
    · have whole : expandedUpdates H leaves (n + 1) p updates = updates.updates := by
        rw [expandedUpdates, was]
        rfl
      rw [carried_of_internal was, whole] at childrenExact
      rw [sound_iff_of_internal above sub holds was]
      have node : recorded (promoted right n p result) ⟨255 - n, p⟩
          (expandSingleton (canon H leaves (n + 1) p).node updates).1 result.node
          ⟨255 - n, p⟩ = result.node :=
        recorded_result ((untouched _ topOutside).trans holds.1) (.inr ⟨hash, was⟩)
      constructor
      · intro held side
        have same := NodeResult.node_injective (held.1.symm.trans node)
        exact (childrenExact side).mp ((childrenHeld same _).mp held.2 side)
      · intro sound
        have both := (sound_iff_of_internal above sub holds was).mpr sound
        have same := (canon_applied sub both.kept).trans outcome.symm
        refine ⟨same ▸ node, (childrenHeld same _).mpr fun side => (childrenExact side).mpr (sound side)⟩
    · have same := (canon_applied sub fun _ => not_lost_of_flat sub flat).trans outcome.symm
      rw [expandSingleton_of_flat flat]
      refine exact_of_flat sub holds flat inside others same (here none)
        ((childrenHeld same none).mpr fun side => (childrenExact side).mpr ?_)
      have bare := holds.2 side
      rw [carried_of_flat flat] at bare ⊢
      exact sound_of_bare _ sub.down bare

/-- The early returns: one update, of an empty subtree or of the leaf it is collapsed to. -/
theorem updated_single {u : LeafUpdate} (fits : n < 256) (holds : Holds H before (n + 1) leaves p)
    (alone : updates.updates = [u]) (inside : Below (n + 1) p u.key)
    (flat : ∀ hash, canon H leaves (n + 1) p ≠ .internal hash)
    (mine : ∀ leaf, canon H leaves (n + 1) p = .collapsed leaf → u.key = leaf.laneKey) : Updated H before
      (recorded before ⟨255 - n, p⟩ (canon H leaves (n + 1) p).node (leafResult (some u)).node)
      leaves updates.updates (n + 1) p (leafResult (some u)) := by
  have sub := inside.subtree fits
  have self : applied leaves updates.updates u.key = u.leafHash := by
    rw [applied, written_of_mem updates (by simp [alone])]
    rfl
  have absent : ∀ key, Below (n + 1) p key → key ≠ u.key → applied leaves updates.updates key = Hash.zero := by
    intro key below differ
    have untouched : written updates.updates key = none :=
      written_eq_none.mpr (by simpa [alone] using differ.symm)
    rw [applied, untouched, Option.getD_none]
    cases was : canon H leaves (n + 1) p with
    | empty => exact (canon_eq_empty sub).mp was key below
    | internal hash => exact absurd was (flat hash)
    | collapsed leaf =>
      exact ((canon_eq_collapsed sub).mp was).2.2.2 key below (mine leaf was ▸ differ)
  have outcome : canon H (applied leaves updates.updates) (n + 1) p = leafResult (some u) := by
    by_cases cleared : u.leafHash = Hash.zero
    · rw [leafResult, if_neg (by simpa using cleared), canon_eq_empty sub]
      intro key below
      by_cases same : key = u.key
      · rw [same, self, cleared]
      · exact absent key below same
    · rw [leafResult, if_pos cleared, canon_eq_collapsed sub]
      exact ⟨inside, self, cleared, absent⟩
  have stillFlat : ∀ hash, canon H (applied leaves updates.updates) (n + 1) p ≠ .internal hash := by
    intro hash
    rw [outcome, leafResult]
    split <;> simp
  have node : recorded before ⟨255 - n, p⟩ (canon H leaves (n + 1) p).node (leafResult (some u)).node
      ⟨255 - n, p⟩ = (leafResult (some u)).node := by
    rw [recorded_self, holds.1]
    exact ite_not_eq_self _ _
  refine ⟨?_, fun _ => by rwa [depth_succ], fun key outside => recorded_of_ne ?_, ?_⟩
  · exact outcome.symm.trans (canon_applied sub fun _ => not_lost_of_flat sub flat)
  · rintro rfl
    exact outside (inTree_top sub)
  · rw [sound_iff_of_flat sub holds flat, holds_iff_of_flat sub stillFlat, outcome]
    have below := ((holds_iff_of_flat sub flat).mp holds).2
    refine iff_of_true ⟨node, fun right key there => ?_⟩ fun leaf was stale => ?_
    · rw [recorded_of_ne (there.ne_top fits)]
      exact below right key there
    · obtain ⟨v, member, -, differ⟩ := stale.2.1
      rw [alone, List.mem_singleton] at member
      exact differ (member ▸ mine leaf was)

theorem below_one {other : Hash} (here : Below 1 p key) (there : Below 1 p other) : other = key ∨ other = twin key := by
  have decided : ∀ k, Below 1 p k → k = child 0 p (bitAt k 255) := fun k below =>
    below_zero.mp (below.choose (by decide))
  have twinThere : Below 1 p (twin key) := (below_twin Nat.one_pos).mpr here
  by_cases same : bitAt other 255 = bitAt key 255
  · left
    rw [decided other there, decided key here, same]
  · right
    have flipped : bitAt (twin key) 255 ≠ bitAt key 255 := fun equal =>
      twin_ne key ((decided _ twinThere).trans (equal ▸ (decided key here).symm))
    have bits : bitAt other 255 = bitAt (twin key) 255 := by
      revert same flipped
      cases bitAt other 255 <;> cases bitAt (twin key) 255 <;> cases bitAt key 255 <;> simp
    rw [decided other there, decided _ twinThere, bits]

/-- A parent of leaves with one of them absent hands up the other one. -/
theorem canon_one_iff (below : Below 1 p key) :
    canon H leaves 1 p = leafResult (some ⟨twin key, leaves (twin key)⟩) ↔ leaves key = Hash.zero := by
  have sub := below.subtree (by decide)
  have twinBelow : Below 1 p (twin key) := (below_twin Nat.one_pos).mpr below
  by_cases alone : leaves (twin key) = Hash.zero
  · rw [leafResult, if_neg (by simpa using alone), canon_eq_empty sub]
    refine ⟨fun bare => bare key below, fun absent k there => ?_⟩
    rcases below_one below there with rfl | rfl
    · exact absent
    · exact alone
  · rw [leafResult, if_pos alone, canon_eq_collapsed sub]
    refine ⟨fun only => only.2.2.2 key below (twin_ne key).symm, fun absent => ?_⟩
    refine ⟨twinBelow, rfl, alone, fun k there differ => ?_⟩
    rcases below_one below there with rfl | rfl
    · exact absent
    · exact absurd rfl differ

theorem leaves_of_internal {hash : Hash} (branched : canon H leaves 1 p = .internal hash) (below : Below 1 p key) :
    leaves key ≠ Hash.zero := by
  intro absent
  have other := (canon_one_iff (H := H) below).mpr absent
  rw [branched, leafResult] at other
  split at other <;> cases other

private theorem leafResult_head {updates : List LeafUpdate} (all : ∀ u ∈ updates, u.key = key) :
    leafResult updates.head? = leafResult (some ⟨key, applied noLeaves updates key⟩) := by
  cases updates with
  | nil => simp [leafResult, applied, noLeaves]
  | cons u rest =>
    have same := all u List.mem_cons_self
    simp [applied, written, same]
    simp [← same]

private theorem retained_bottom (nonempty : updates.updates ≠ []) (inside : ∀ u ∈ updates.updates, Below 1 p u.key)
    (below : Below 1 p key) :
    applied noLeaves (expandedUpdates H leaves 1 p updates) key = retained leaves updates.updates key := by
  rcases branched_or_flat (canon H leaves 1 p) with ⟨hash, was⟩ | flat
  · rw [expandedUpdates, was]
    change applied noLeaves updates.updates key = _
    cases found : written updates.updates key with
    | some leafHash =>
      have kept : ¬ Lost leaves updates.updates key := fun lost => by simpa [found] using lost.2.2.2
      rw [retained_of_not_lost kept, applied, applied, found]
      rfl
    | none =>
      -- some key below is updated, so it is the other one
      have twinBelow : Below 1 p (twin key) := (below_twin Nat.one_pos).mpr below
      obtain ⟨u, member⟩ := List.exists_mem_of_ne_nil _ nonempty
      have other : u.key = twin key := by
        rcases below_one below (inside u member) with same | other
        · exact absurd same (written_eq_none.mp found u member)
        · exact other
      have lost : Lost leaves updates.updates key :=
        ⟨leaves_of_internal was below, leaves_of_internal was twinBelow, written_isSome.mpr ⟨u, member, other⟩, found⟩
      rw [retained, if_pos lost, applied, found]
      rfl
  · have kept : ¬ Lost leaves updates.updates key := not_lost_of_flat (below.subtree (by decide)) flat below
    rw [retained_of_not_lost kept, ← applied_expanded updates (by decide) below, carried_of_flat flat]

theorem updated_bottom (sub : Subtree 1 p) (holds : Holds H before 1 leaves p) (nonempty : updates.updates ≠ [])
    (inside : ∀ u ∈ updates.updates, Below 1 p u.key)
    (others : ∀ leaf, canon H leaves 1 p = .collapsed leaf → ∃ u ∈ updates.updates, u.key ≠ leaf.laneKey)
    (merged : mergedNode H (leafResult (half (expandedUpdates H leaves 1 p updates) 0 false).head?)
      (leafResult (half (expandedUpdates H leaves 1 p updates) 0 true).head?) 255 = result) : Updated H before
      (recorded before ⟨255, p⟩ (expandSingleton (canon H leaves 1 p).node updates).1 result.node)
      leaves updates.updates 1 p result := by
  have outcome : result = canon H (retained leaves updates.updates) 1 p := by
    have side : ∀ right, leafResult (half (expandedUpdates H leaves 1 p updates) 0 right).head? =
        canon H (retained leaves updates.updates) 0 (child 0 p right) := by
      intro right
      have here : Below 0 (child 0 p right) (child 0 p right) := below_zero.mpr rfl
      have keys : ∀ u ∈ half (expandedUpdates H leaves 1 p updates) 0 right, u.key = child 0 p right := fun u member =>
        below_zero.mp (half_below sub.fits (expanded_below sub inside) u member)
      rw [leafResult_head keys, applied, written_half sub here, canon,
        ← retained_bottom nonempty inside (here.parent sub)]
      rfl
    rw [← merged, side, side]
    rfl
  have bottom : ∀ view : SmtStore, Holds H view 1 (applied leaves updates.updates) p ↔
      view ⟨255, p⟩ = (canon H (applied leaves updates.updates) 1 p).node := fun view =>
    ⟨fun held => held.1, fun node => ⟨node, fun _ => trivial⟩⟩
  refine ⟨outcome, fun present => ?_, fun key outside => recorded_of_ne ?_, ?_⟩
  · exact recorded_result holds.1 (.inl present)
  · rintro rfl
    exact outside (inTree_top sub)
  · rcases branched_or_flat (canon H leaves 1 p) with ⟨hash, was⟩ | flat
    · have node : recorded before ⟨255, p⟩ (expandSingleton (canon H leaves 1 p).node updates).1
          result.node ⟨255, p⟩ = result.node :=
        recorded_result holds.1 (.inr ⟨hash, was⟩)
      rw [bottom, node]
      constructor
      · intro sameNode
        have same := NodeResult.node_injective sameNode
        refine ⟨fun depth leaf deep small below there => ?_, fun key below lost => ?_⟩
        · rcases (inTree_new deep small below).cases sub.fits with top | ⟨_, deeper⟩
          · rw [top, holds.1, was] at there
            simp [NodeResult.node] at there
          · have := deeper.1
            have := deeper.2.1
            omega
        · -- the lost leaf is in the updated map and not in what is left
          have twinKept : ¬ Lost leaves updates.updates (twin key) := fun other => by
            have present := lost.2.2.1
            simp [other.2.2.2] at present
          have absent : retained leaves updates.updates key = Hash.zero := if_pos lost
          have gone := (canon_one_iff (H := H) below).mpr absent
          rw [retained_of_not_lost twinKept, ← outcome, same, canon_one_iff below, applied, lost.2.2.2] at gone
          exact lost.1 gone
      · intro sound
        rw [outcome, canon_applied sub sound.kept]
    · have same := (canon_applied sub fun _ => not_lost_of_flat sub flat).trans outcome.symm
      rw [expandSingleton_of_flat flat]
      exact exact_of_flat sub holds flat inside others same (recorded_self _ _ _ _) fun _ => trivial

end Step

/-! ## The recursion -/

theorem SortedLeafUpdates.single_eq_some {updates : SortedLeafUpdates} :
    updates.single = some u ↔ updates.updates = [u] := by
  unfold single
  split
  next v only => simp [only]
  next several =>
    constructor
    · exact fun none => by cases none
    · exact fun only => absurd only (several u)

theorem computeSingle_some {key : BranchKey} {was : NodeResult} {updates : SortedLeafUpdates}
    {settled : NodeResult × SmtNodeChanges} (early : computeSingle changes key was.node updates = some settled) :
    ∃ u, updates.updates = [u] ∧ (∀ hash, was ≠ .internal hash) ∧
      (∀ leaf, was = .collapsed leaf → u.key = leaf.laneKey) ∧ settled.1 = leafResult (some u) ∧
      readNode store settled.2 = recorded (readNode store changes) key was.node (leafResult (some u)).node := by
  unfold computeSingle at early
  split at early
  next u only bare =>
    obtain rfl := NodeResult.node_eq_none.mp bare
    refine ⟨u, SortedLeafUpdates.single_eq_some.mp only, by simp, by simp, ?_⟩
    split at early
    next cleared =>
      cases early
      have nothing : leafResult (some u) = .empty := by simp [leafResult, cleared]
      rw [nothing]
      refine ⟨rfl, ?_⟩
      funext k
      simp [recorded, NodeResult.node]
    next present =>
      cases early
      have leaf : leafResult (some u) = .collapsed ⟨u.key, u.leafHash⟩ := by
        simp [leafResult, present]
      rw [leaf]
      exact ⟨rfl, readNode_recordChange ..⟩
  next u leaf only there =>
    obtain rfl : was = .collapsed leaf := NodeResult.node_injective there
    split at early
    next same =>
      cases early
      refine ⟨u, SortedLeafUpdates.single_eq_some.mp only, by simp, ?_, rfl, ?_⟩
      · rintro _ ⟨⟩
        exact same
      · rw [readNode_recordChange]
        congr 1
        unfold leafResult
        by_cases cleared : u.leafHash = Hash.zero <;> simp [cleared, NodeResult.node]
    · cases early
  · cases early

theorem computeSingle_none {key : BranchKey} {leaf : CollapsedLeaf} {updates : SortedLeafUpdates}
    (nonempty : updates.updates ≠ []) (late : computeSingle changes key (some (.collapsed leaf)) updates = none) :
    ∃ u ∈ updates.updates, u.key ≠ leaf.laneKey := by
  by_contra all
  push Not at all
  obtain ⟨updates, sorted⟩ := updates
  rcases updates with _ | ⟨u, _ | ⟨v, rest⟩⟩
  · exact nonempty rfl
  · have same : u.key = leaf.laneKey := all u List.mem_cons_self
    simp [computeSingle, SortedLeafUpdates.single, same] at late
  · -- two updates have two keys
    have less := (List.pairwise_cons.mp sorted).1 v List.mem_cons_self
    rw [all u List.mem_cons_self, all v (List.mem_cons_of_mem _ List.mem_cons_self)] at less
    exact BitVec.lt_irrefl _ less

theorem updated_side {H : SmtHasher} {side : Bool} (part : SortedLeafUpdates) (fits : height + 1 < 256)
    (holds : Holds H (readNode store changes) (height + 1) leaves (child (height + 1) p side))
    (called : ∀ there : part.updates ≠ [], Updated H (readNode store changes)
        (readNode store (computeSubtree H store height part there changes).2) leaves part.updates
        (height + 1) (child (height + 1) p side)
        (computeSubtree H store height part there changes).1) :
    Updated H (readNode store changes) (readNode store (if there : part.updates ≠ [] then
        computeSubtree H store height part there changes
        else (readSiblingResult store changes ⟨255 - (height + 1), p⟩ side (255 - (height + 1)), changes)).2)
      leaves part.updates (height + 1) (child (height + 1) p side)
      (if there : part.updates ≠ [] then
        computeSubtree H store height part there changes
        else (readSiblingResult store changes ⟨255 - (height + 1), p⟩ side (255 - (height + 1)), changes)).1 := by
  split
  next there => exact called there
  next nothing =>
    have none : part.updates = [] := not_not.mp nothing
    have read : readSiblingResult store changes ⟨255 - (height + 1), p⟩ side (255 - (height + 1)) =
        canon H leaves (height + 1) (child (height + 1) p side) := by
      rw [readSiblingResult, childBranchKey_eq fits, depth_succ, holds.1, NodeResult.ofNode_node]
    rw [none, read]
    exact updated_nil holds

theorem partition_expanded (H : SmtHasher) (leaves : LeafMap) {updates : SortedLeafUpdates}
    (sub : Subtree (n + 1) p) (inside : ∀ u ∈ updates.updates, Below (n + 1) p u.key) :
    ((expandSingleton (canon H leaves (n + 1) p).node updates).2.partitionByBit (255 - n)).1.updates =
        half (expandedUpdates H leaves (n + 1) p updates) n false ∧
      ((expandSingleton (canon H leaves (n + 1) p).node updates).2.partitionByBit
        (255 - n)).2.updates = half (expandedUpdates H leaves (n + 1) p updates) n true :=
  partitionByBit_eq_half sub.fits (expanded_below sub inside)

/-- The update of a subtree, by recursion on its height. -/
theorem computeSubtree_updated (H : SmtHasher) (store : SmtStore) {updates : SortedLeafUpdates}
    (nonempty : updates.updates ≠ []) (fits : height < 256) (inside : ∀ u ∈ updates.updates, Below (height + 1) p u.key)
    (holds : Holds H (readNode store changes) (height + 1) leaves p) : Updated H (readNode store changes)
      (readNode store (computeSubtree H store height updates nonempty changes).2) leaves
      updates.updates (height + 1) p (computeSubtree H store height updates nonempty changes).1 := by
  induction height using Nat.strong_induction_on generalizing updates changes leaves p with
  | _ height ih =>
  have first := inside _ (List.head_mem nonempty)
  have sub := first.subtree fits
  obtain ⟨left, right⟩ := partition_expanded H leaves sub inside
  unfold computeSubtree
  simp only [branchKey_succ first, holds.1]
  split
  next settled early =>
    obtain ⟨u, alone, flat, mine, result, view⟩ := computeSingle_some early
    rw [result, view]
    exact updated_single fits holds alone (inside u (by simp [alone])) flat mine
  next late =>
    have others : ∀ leaf, canon H leaves (height + 1) p = .collapsed leaf →
        ∃ u ∈ updates.updates, u.key ≠ leaf.laneKey := by
      intro leaf was
      rw [was] at late
      exact computeSingle_none nonempty late
    have halves : ∀ right, ∀ u ∈ half (expandedUpdates H leaves (height + 1) p updates) height right,
        Below height (child height p right) u.key := fun right =>
      half_below fits (expanded_below sub inside)
    cases height with
    | zero =>
      simp only
      rw [readNode_recordChange]
      exact updated_bottom sub holds nonempty inside others (by rw [left, right])
    | succ height =>
      simp only
      rw [readNode_recordChange, readNode_promote _ _ fits]
      have leftUpdated := updated_side _ fits (holds.2 false) fun there =>
        ih height (Nat.lt_succ_self _) there (by omega) (left ▸ halves false) (holds.2 false)
      refine updated_join (Nat.succ_pos _) sub holds inside others (by rw [← left]; exact leftUpdated) ?_ rfl
      have rightHolds :=
        (holds.2 true).congr_view sub.down fun key there => leftUpdated.frame key (there.disjoint sub)
      rw [← right]
      exact updated_side _ fits rightHolds fun there =>
        ih height (Nat.lt_succ_self _) there (by omega) (right ▸ halves true) rightHolds

/-! ## The whole tree -/

section Root

variable {H : SmtHasher} {store : SmtStore} {leaves : LeafMap} {key : BranchKey} {updates : SortedLeafUpdates}

/-- The store overlaid with the changes of an update. -/
def overlaid (H : SmtHasher) (store : SmtStore) (currentRoot : Hash) (updates : SortedLeafUpdates) :
    SmtStore :=
  readNode store (computeRootUpdate H store currentRoot updates).2

theorem represents_empty (H : SmtHasher) : Represents H (fun _ => none) noLeaves :=
  (holds_noLeaves_iff root_subtree).mpr fun _ _ => rfl

section

variable (represents : Represents H store leaves)

include represents

theorem overlaid_updated (currentRoot : Hash) (updates : SortedLeafUpdates) :
    Updated H store (overlaid H store currentRoot updates) leaves updates.updates 256 Hash.zero
      (canon H (retained leaves updates.updates) 256 Hash.zero) := by
  unfold overlaid computeRootUpdate
  split
  next there =>
    have holds : Holds H (readNode store ∅) 256 leaves Hash.zero := represents
    have updated := computeSubtree_updated H store there (by decide) (fun u _ => below_root u.key) holds
    exact updated.result ▸ updated
  next nothing =>
    rw [not_not.mp nothing, retained_nil]
    exact updated_nil represents

theorem computeRootUpdate_root (updates : SortedLeafUpdates) :
    (computeRootUpdate H store (canonRoot H leaves) updates).1 = canonRoot H (retained leaves updates.updates) := by
  unfold computeRootUpdate
  split
  next there =>
    have holds : Holds H (readNode store ∅) 256 leaves Hash.zero := represents
    have updated := computeSubtree_updated H store there (by decide) (fun u _ => below_root u.key) holds
    exact congrArg (NodeResult.rootHash H) updated.result
  next nothing =>
    rw [not_not.mp nothing, retained_nil]

/-- The store holds the updated leaves exactly when no leaf went stale and none was lost. -/
theorem overlaid_represents_iff (currentRoot : Hash) (updates : SortedLeafUpdates) :
    Represents H (overlaid H store currentRoot updates) (applied leaves updates.updates) ↔
      Sound store leaves updates.updates 256 Hash.zero :=
  (overlaid_updated represents currentRoot updates).exact

/-- An update that leaves a single leaf leaves one collapsed node at the top. -/
theorem overlaid_top (currentRoot : Hash) {leaf : CollapsedLeaf}
    (only : OnlyLeaf (retained leaves updates.updates) 256 Hash.zero leaf) :
    overlaid H store currentRoot updates ⟨0, Hash.zero⟩ = some (.collapsed leaf) := by
  have updated := overlaid_updated represents currentRoot updates
  rw [(canon_eq_collapsed root_subtree).mpr only] at updated
  exact updated.top nofun

end

theorem overlaid_empty_iff {currentRoot : Hash} {node : Node} :
    overlaid H (fun _ => none) currentRoot updates key = some node ↔
      (computeRootUpdate H (fun _ => none) currentRoot updates).2.lookup key = some (some node) := by
  unfold overlaid readNode
  cases (computeRootUpdate H (fun _ => none) currentRoot updates).2.lookup key <;> simp

/-- No two leaves have a common parent. -/
def TwinFree (leaves : LeafMap) : Prop :=
  ∀ key, leaves key ≠ Hash.zero → leaves (twin key) = Hash.zero

/-- Only keys with a leaf are deleted. -/
def DeletesPresent (leaves : LeafMap) (updates : List LeafUpdate) : Prop :=
  ∀ u ∈ updates, u.leafHash = Hash.zero → leaves u.key ≠ Hash.zero

theorem sound_of_twinFree {updates : List LeafUpdate} (represents : Represents H store leaves)
    (twinFree : TwinFree leaves) (present : DeletesPresent leaves updates) :
    Sound store leaves updates 256 Hash.zero := by
  refine ⟨fun depth leaf deep small below there stale => ?_, fun key _ lost => ?_⟩
  · have only := represents.onlyLeaf root_subtree (inTree_new deep small below) there
    obtain ⟨-, ⟨u, member, common, differ⟩, cleared⟩ := stale
    refine present u member (cleared u member common) (only.2.2.2 u.key ?_ differ)
    change firstBits (256 - (256 - depth)) u.key = firstBits depth leaf.laneKey
    rw [show 256 - (256 - depth) = depth by omega, common]
  · exact lost.2.1 (twinFree key lost.1)

theorem overlaid_of_sound (represents : Represents H store leaves)
    (sound : Sound store leaves updates.updates 256 Hash.zero) :
    Represents H (overlaid H store (canonRoot H leaves) updates) (applied leaves updates.updates) ∧
      (computeRootUpdate H store (canonRoot H leaves) updates).1 = canonRoot H (applied leaves updates.updates) := by
  refine ⟨(overlaid_represents_iff represents _ updates).mpr sound, ?_⟩
  rw [computeRootUpdate_root represents updates]
  congr 1
  funext key
  exact retained_of_not_lost (sound.kept key (below_root key))

/-- With no two leaves of a common parent and no deletion of an absent key the update is exact. -/
theorem overlaid_exact (represents : Represents H store leaves) (twinFree : TwinFree leaves)
    (present : DeletesPresent leaves updates.updates) :
    Represents H (overlaid H store (canonRoot H leaves) updates) (applied leaves updates.updates) ∧
      (computeRootUpdate H store (canonRoot H leaves) updates).1 = canonRoot H (applied leaves updates.updates) :=
  overlaid_of_sound represents (sound_of_twinFree represents twinFree present)

/-- One change written to a table of nodes. -/
def insertNode (nodes : Map BranchKey Node) (change : Sigma fun _ : BranchKey => Option Node) : Map BranchKey Node :=
  match change.2 with
  | some node => nodes.insert change.1 node
  | none => nodes.erase change.1

theorem lookup_insertNodes (nodes : Map BranchKey Node) (changes : SmtNodeChanges) (key : BranchKey) :
    (changes.entries.foldl insertNode nodes).lookup key = readNode (fun key => nodes.lookup key) changes key := by
  rw [Map.foldl_entries_local insertNode (fun nodes key => AList.lookup key nodes) (fun node _ => node)]
  · unfold readNode
    cases changes.lookup key <;> rfl
  · intro nodes key node
    cases node with
    | none => exact AList.lookup_erase key nodes
    | some node => exact AList.lookup_insert nodes
  · intro nodes key node key' differ
    cases node with
    | none => exact AList.lookup_erase_ne differ
    | some node => exact AList.lookup_insert_ne differ

theorem canonRoot_noLeaves (H : SmtHasher) : canonRoot H noLeaves = emptyRoot H := by
  rw [canonRoot, canon_noLeaves root_subtree]
  rfl

theorem computeRootUpdate_scratch (H : SmtHasher) (updates : SortedLeafUpdates) :
    (computeRootUpdate H (fun _ => none) (emptyRoot H) updates).1 = canonRoot H (applied noLeaves updates.updates) := by
  have whole : retained noLeaves updates.updates = applied noLeaves updates.updates :=
    funext fun key => retained_of_not_lost fun lost => lost.1 rfl
  rw [← canonRoot_noLeaves, computeRootUpdate_root (represents_empty H) updates, whole]

/-- The batch update is exact, in the nodes and in the root, unless it deletes the leaf of a collapsed
node together with other keys below that node and sets none there, or updates only one of two leaves of
a common parent. -/
theorem computeRootUpdate_exact_iff (H : SmtHasher) (store : SmtStore) (leaves : LeafMap)
    (updates : SortedLeafUpdates) (represents : Represents H store leaves) :
    (Represents H (overlaid H store (canonRoot H leaves) updates) (applied leaves updates.updates) ∧
      ∀ scratch : SortedLeafUpdates,
        applied noLeaves scratch.updates = applied leaves updates.updates →
        (computeRootUpdate H store (canonRoot H leaves) updates).1 =
          (computeRootUpdate H (fun _ => none) (emptyRoot H) scratch).1) ↔
    (∀ depth leaf, depth < 256 → store (.new depth leaf.laneKey) = some (.collapsed leaf) →
        ¬ Stale updates.updates depth leaf) ∧
      ∀ key, ¬ Lost leaves updates.updates key := by
  rw [overlaid_represents_iff represents]
  constructor
  · rintro ⟨sound, -⟩
    exact ⟨fun depth leaf small there => sound.fresh depth leaf (by omega) small (below_root _) there,
      fun key => sound.kept key (below_root key)⟩
  · rintro ⟨fresh, kept⟩
    refine ⟨⟨fun depth leaf _ small _ there => fresh depth leaf small there, fun key _ => kept key⟩,
      fun scratch same => ?_⟩
    have whole : retained leaves updates.updates = applied leaves updates.updates :=
      funext fun key => retained_of_not_lost (kept key)
    rw [computeRootUpdate_root represents, computeRootUpdate_scratch, whole, same]

end Root

namespace Sample

def hasher : SmtHasher := ⟨fun _ => 1#256, fun _ => 2#256⟩

def firstLeaf : SortedLeafUpdates := ⟨[⟨0#256, 7#256⟩], by decide⟩

/-- Two leaves with a common parent. -/
def twinLeaves : SortedLeafUpdates := ⟨[⟨0#256, 7#256⟩, ⟨1#256, 8#256⟩], by decide⟩

/-- An update of the first key, and one of a key in the other half of the tree. -/
def acrossRoot (first second : Hash) : SortedLeafUpdates :=
  ⟨[⟨0#256, first⟩, ⟨1#256 <<< 255, second⟩], List.pairwise_pair.mpr (by decide : (0#256) < 1#256 <<< 255)⟩

/-- A store with the given leaves. -/
def stored (leaves : SortedLeafUpdates) : SmtStore :=
  overlaid hasher (fun _ => none) (canonRoot hasher noLeaves) leaves

def leafMap (leaves : SortedLeafUpdates) : LeafMap := applied noLeaves leaves.updates

variable {leaves : SortedLeafUpdates} {key : Hash}

theorem stored_represents (nonzero : ∀ u ∈ leaves.updates, u.leafHash ≠ Hash.zero) :
    Represents hasher (stored leaves) (leafMap leaves) :=
  (overlaid_exact (represents_empty hasher) (fun _ there => absurd rfl there)
    fun u member cleared => absurd cleared (nonzero u member)).1

theorem firstLeaf_represents : Represents hasher (stored firstLeaf) (leafMap firstLeaf) :=
  stored_represents (by decide)

theorem leafMap_of_ne (absent : ∀ u ∈ leaves.updates, u.key ≠ key) : leafMap leaves key = Hash.zero := by
  rw [leafMap, applied, written_eq_none.mpr absent]
  rfl

theorem leafMap_firstLeaf (there : leafMap firstLeaf key ≠ Hash.zero) : key = 0#256 := by
  by_contra differ
  refine there (leafMap_of_ne ?_)
  simpa [firstLeaf] using Ne.symm differ

end Sample

open Sample in
/-- Setting a second leaf next to the only one is exact. -/
theorem computeRootUpdate_exact_iff_firstLeaf :
    Represents hasher (overlaid hasher (stored firstLeaf) (canonRoot hasher (leafMap firstLeaf))
      (acrossRoot 7#256 9#256)) (applied (leafMap firstLeaf) (acrossRoot 7#256 9#256).updates) := by
  refine ((computeRootUpdate_exact_iff hasher (stored firstLeaf) (leafMap firstLeaf)
    (acrossRoot 7#256 9#256) firstLeaf_represents).mpr ⟨fun depth leaf _ _ stale => ?_,
      fun key lost => ?_⟩).1
  · obtain ⟨u, member, common, -⟩ := stale.2.1
    have cleared := stale.2.2 u member common
    revert cleared
    simp only [acrossRoot, List.mem_cons, List.not_mem_nil, or_false] at member
    rcases member with rfl | rfl <;> decide
  · exact twin_ne key ((leafMap_firstLeaf lost.2.1).trans (leafMap_firstLeaf lost.1).symm)

open Sample in
/-- A leaf that is deleted together with an absent key stays in the store, and a leaf whose twin is
updated alone is lost from it. -/
theorem computeRootUpdate_not_exact :
    (Represents hasher (stored firstLeaf) (leafMap firstLeaf) ∧
      overlaid hasher (stored firstLeaf) (canonRoot hasher (leafMap firstLeaf))
        (acrossRoot Hash.zero Hash.zero) ⟨0, Hash.zero⟩ = some (.collapsed ⟨0#256, 7#256⟩) ∧
      applied (leafMap firstLeaf) (acrossRoot Hash.zero Hash.zero).updates 0#256 = Hash.zero ∧
      ¬ Represents hasher (overlaid hasher (stored firstLeaf) (canonRoot hasher (leafMap firstLeaf))
        (acrossRoot Hash.zero Hash.zero))
        (applied (leafMap firstLeaf) (acrossRoot Hash.zero Hash.zero).updates)) ∧
    (Represents hasher (stored twinLeaves) (leafMap twinLeaves) ∧
      applied (leafMap twinLeaves) firstLeaf.updates 1#256 = 8#256 ∧
      (computeRootUpdate hasher (stored twinLeaves) (canonRoot hasher (leafMap twinLeaves))
        firstLeaf).1 = canonRoot hasher (leafMap firstLeaf) ∧
      ¬ Represents hasher (overlaid hasher (stored twinLeaves)
        (canonRoot hasher (leafMap twinLeaves)) firstLeaf)
        (applied (leafMap twinLeaves) firstLeaf.updates)) := by
  have twins : Represents hasher (stored twinLeaves) (leafMap twinLeaves) :=
    stored_represents (by decide)
  refine ⟨⟨firstLeaf_represents, by decide +kernel, by decide +kernel, ?_⟩,
    twins, by decide +kernel, ?_, ?_⟩
  · rw [overlaid_represents_iff firstLeaf_represents]
    intro sound
    refine sound.fresh 0 ⟨0#256, 7#256⟩ (by decide) (by decide) (by decide +kernel) (by decide +kernel) ?_
    exact ⟨by decide, ⟨⟨1#256 <<< 255, Hash.zero⟩, by simp [acrossRoot], by simp, by decide⟩,
      by simp [acrossRoot]⟩
  · rw [computeRootUpdate_root twins]
    congr 1
    funext key
    by_cases first : key = 0#256
    · subst first
      decide +kernel
    by_cases second : key = 1#256
    · subst second
      decide +kernel
    · have absent : leafMap twinLeaves key = Hash.zero :=
        leafMap_of_ne (by simp [twinLeaves, Ne.symm first, Ne.symm second])
      have untouched : written firstLeaf.updates key = none :=
        written_eq_none.mpr (by simpa [firstLeaf] using Ne.symm first)
      rw [retained_of_not_lost fun lost => lost.1 absent, applied, untouched, Option.getD_none, absent,
        leafMap_of_ne (by simpa [firstLeaf] using Ne.symm first)]
  · rw [overlaid_represents_iff twins]
    intro sound
    exact sound.kept 1#256 (below_root _) (by decide +kernel)

end Marigold.Smt
