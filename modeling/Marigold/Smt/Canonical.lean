import Marigold.Lib.Bits
import Marigold.Smt.Tree

/-!
# The tree a leaf map stands for

What the node store has to hold for a given set of leaves. Every subtree has one canonical result, built
from the leaves up with the same merge the update uses; a store represents the map when the node at
the root is the canonical one, the children of an internal node again represent the map, and nothing
is stored below an empty or a collapsed position.
-/

namespace Marigold.Smt

open Lib Lib.Bits

/-- The leaf hash of every key; zero for a key without a leaf. -/
abbrev LeafMap := Hash → Hash

def noLeaves : LeafMap := fun _ => Hash.zero

/-! ## Positions -/

/-- `key` lies in the subtree of height `n` at the position `p`. -/
def Below (n : Nat) (p key : Hash) : Prop := firstBits (256 - n) key = p

instance (n : Nat) (p key : Hash) : Decidable (Below n p key) :=
  inferInstanceAs (Decidable (_ = _))

/-- The child of a position of height `n + 1`. -/
def child (n : Nat) (p : Hash) (right : Bool) : Hash :=
  if right then p ||| BitVec.twoPow 256 n else p

/-- The key whose leaf has the same parent. -/
def twin (key : Hash) : Hash := key ^^^ 1#256

variable {p key : Hash} {n depth : Nat} {right : Bool} {H : SmtHasher} {left : NodeResult}

@[simp] theorem below_zero : Below 0 p key ↔ key = p := by simp [Below]

@[simp] theorem below_root (key : Hash) : Below 256 Hash.zero key := by simp [Below, Hash.zero]

theorem Below.self (below : Below n p key) : Below n p p := by
  obtain rfl := below
  exact firstBits_firstBits (le_refl _) key

/-- A subtree of the tree: the bits of `p` below its top are clear. -/
structure Subtree (n : Nat) (p : Hash) : Prop where
  fits : n ≤ 256
  position : Below n p p

theorem root_subtree : Subtree 256 Hash.zero := ⟨le_refl _, below_root _⟩

theorem Below.subtree (below : Below n p key) (fits : n ≤ 256) : Subtree n p := ⟨fits, below.self⟩

theorem branchKey_of_below (below : Below n p key) : BranchKey.new (256 - n) key = ⟨256 - n, p⟩ := by
  obtain rfl := below
  rfl

theorem depth_succ : 256 - (n + 1) = 255 - n := by omega

theorem branchKey_succ (below : Below (n + 1) p key) : BranchKey.new (255 - n) key = ⟨255 - n, p⟩ := by
  rw [← depth_succ]
  exact branchKey_of_below below

theorem childBranchKey_eq (fits : n < 256) (p : Hash) (right : Bool) :
    childBranchKey ⟨255 - n, p⟩ right (255 - n) = ⟨256 - n, child n p right⟩ := by
  have back : 255 - (255 - n) = n := by omega
  have deeper : 255 - n + 1 = 256 - n := by omega
  simp [childBranchKey, child, back, deeper]

private theorem child_eq_withBit (fits : n < 256) (p : Hash) : child n p true = withBit (255 - n) p := by
  have back : 256 - 1 - (255 - n) = n := by omega
  simp [child, withBit, back]

private theorem child_bits (sub : Subtree (n + 1) p) (right : Bool) :
    firstBits (255 - n) (child n p right) = p ∧ bitAt (child n p right) (255 - n) = right := by
  obtain ⟨fits, position⟩ := sub
  rw [Below, depth_succ] at position
  have inside : 255 - n < 256 := by omega
  cases right with
  | false =>
    have bits := congrArg (fun z => BitVec.getMsbD z (255 - n)) position
    exact ⟨position, by simpa [getMsbD_firstBits, child, bitAt] using bits.symm⟩
  | true =>
    rw [child_eq_withBit fits, bitAt, getMsbD_withBit inside]
    refine ⟨Eq.trans (firstBits_eq_iff.mpr fun i early => ?_) position, by simp⟩
    rw [getMsbD_withBit inside]
    simp [show i ≠ 255 - n by omega]

theorem below_child (sub : Subtree (n + 1) p) :
    Below n (child n p right) key ↔ Below (n + 1) p key ∧ bitAt key (255 - n) = right := by
  obtain ⟨upper, last⟩ := child_bits sub right
  have fits := sub.fits
  rw [Below, Below, depth_succ, show 256 - n = 255 - n + 1 by omega]
  constructor
  · intro same
    rw [← same, firstBits_firstBits (Nat.le_succ _)] at upper
    rw [← same] at last
    exact ⟨upper, by simpa [getMsbD_firstBits, bitAt] using last⟩
  · rintro ⟨same, bit⟩
    rw [firstBits_succ (by omega), same]
    unfold bitAt at bit
    cases right with
    | false => simp [bit, child]
    | true => simp [bit, child_eq_withBit fits]

theorem Subtree.down (sub : Subtree (n + 1) p) : Subtree n (child n p right) := by
  obtain ⟨upper, last⟩ := child_bits sub right
  refine ⟨(Nat.le_succ n).trans sub.fits, (below_child sub).mpr ⟨?_, last⟩⟩
  rwa [Below, depth_succ]

theorem Below.parent (below : Below n (child n p right) key) (sub : Subtree (n + 1) p) : Below (n + 1) p key :=
  ((below_child sub).mp below).1

theorem Below.choose (fits : n < 256) (below : Below (n + 1) p key) : Below n (child n p (bitAt key (255 - n))) key :=
  (below_child ⟨fits, below.self⟩).mpr ⟨below, rfl⟩

theorem Below.either (below : Below (n + 1) p key) (fits : n < 256) (right : Bool) :
    Below n (child n p right) key ∨ Below n (child n p !right) key := by
  have chosen := below.choose fits
  generalize bitAt key (255 - n) = bit at chosen
  cases bit <;> cases right <;> simp [chosen]

theorem below_children_disjoint (sub : Subtree (n + 1) p) (below : Below n (child n p right) key) :
    ¬ Below n (child n p !right) key := by
  intro other
  have bit := ((below_child sub).mp below).2
  have bit' := ((below_child sub).mp other).2
  rw [bit] at bit'
  cases right <;> cases bit'

theorem twin_twin (key : Hash) : twin (twin key) = key := by
  rw [twin, twin, BitVec.xor_assoc, BitVec.xor_self, BitVec.xor_zero]

theorem twin_ne (key : Hash) : twin key ≠ key := by
  intro same
  have bits := congrArg (fun z => key ^^^ z) same
  simp [twin, ← BitVec.xor_assoc] at bits

theorem below_twin (above : 0 < n) : Below n p (twin key) ↔ Below n p key := by
  have same : firstBits (256 - n) (twin key) = firstBits (256 - n) key := by
    refine firstBits_eq_iff.mpr fun i early => ?_
    have clear : (1#256).getMsbD i = false := by
      rw [BitVec.getMsbD, BitVec.getLsbD_one]
      simp
      omega
    rw [twin, BitVec.getMsbD_xor, clear, Bool.xor_false]
  rw [Below, Below, same]

/-! ## The canonical result of a subtree -/

theorem mergedNode_eq_empty {right : NodeResult} :
    mergedNode H left right depth = .empty ↔ left = .empty ∧ right = .empty := by
  cases left <;> cases right <;> simp [mergedNode]

theorem mergedNode_eq_collapsed {right : NodeResult} {leaf : CollapsedLeaf} :
    mergedNode H left right depth = .collapsed leaf ↔
      left = .collapsed leaf ∧ right = .empty ∨ left = .empty ∧ right = .collapsed leaf := by
  cases left <;> cases right <;> simp [mergedNode]

/-- What the subtree of height `n` at `p` hands up when the leaves are those of `leaves`. -/
def canon (H : SmtHasher) (leaves : LeafMap) : Nat → Hash → NodeResult
  | 0, p => leafResult (some ⟨p, leaves p⟩)
  | n + 1, p =>
    mergedNode H (canon H leaves n (child n p false)) (canon H leaves n (child n p true)) (255 - n)

/-- The root of the tree over `leaves`. -/
def canonRoot (H : SmtHasher) (leaves : LeafMap) : Hash :=
  (canon H leaves 256 Hash.zero).rootHash H

section Canonical

variable {H : SmtHasher} {leaves leaves' : LeafMap} {n : Nat} {p : Hash}

theorem canon_succ : canon H leaves (n + 1) p =
    mergedNode H (canon H leaves n (child n p false)) (canon H leaves n (child n p true)) (255 - n) := rfl

theorem canon_congr (sub : Subtree n p) (same : ∀ key, Below n p key → leaves key = leaves' key) :
    canon H leaves n p = canon H leaves' n p := by
  induction n generalizing p with
  | zero => rw [canon, canon, same p sub.position]
  | succ n ih =>
    have side : ∀ right, canon H leaves n (child n p right) = canon H leaves' n (child n p right) :=
      fun right => ih sub.down fun key below => same key (below.parent sub)
    rw [canon_succ, canon_succ, side, side]

theorem canon_eq_empty (sub : Subtree n p) :
    canon H leaves n p = .empty ↔ ∀ key, Below n p key → leaves key = Hash.zero := by
  induction n generalizing p with
  | zero =>
    simp only [canon, leafResult, below_zero, forall_eq]
    by_cases absent : leaves p = Hash.zero <;> simp [absent]
  | succ n ih =>
    rw [canon_succ, mergedNode_eq_empty, ih sub.down, ih sub.down]
    constructor
    · rintro ⟨left, right⟩ key below
      rcases below.either sub.fits false with here | there
      · exact left key here
      · exact right key there
    · intro absent
      exact ⟨fun key below => absent key (below.parent sub), fun key below => absent key (below.parent sub)⟩

/-- The only leaf below `p`. -/
def OnlyLeaf (leaves : LeafMap) (n : Nat) (p : Hash) (leaf : CollapsedLeaf) : Prop :=
  Below n p leaf.laneKey ∧ leaves leaf.laneKey = leaf.leafHash ∧ leaf.leafHash ≠ Hash.zero ∧
    ∀ key, Below n p key → key ≠ leaf.laneKey → leaves key = Hash.zero

section

variable {leaf : CollapsedLeaf}

theorem onlyLeaf_succ {right : Bool} (sub : Subtree (n + 1) p) (only : OnlyLeaf leaves n (child n p right) leaf)
    (other : ∀ key, Below n (child n p !right) key → leaves key = Hash.zero) : OnlyLeaf leaves (n + 1) p leaf := by
  refine ⟨only.1.parent sub, only.2.1, only.2.2.1, fun key below differ => ?_⟩
  rcases below.either sub.fits right with here | there
  · exact only.2.2.2 key here differ
  · exact other key there

theorem OnlyLeaf.child (only : OnlyLeaf leaves (n + 1) p leaf) (fits : n < 256) :
    OnlyLeaf leaves n (child n p (bitAt leaf.laneKey (255 - n))) leaf :=
  ⟨only.1.choose fits, only.2.1, only.2.2.1, fun key below => only.2.2.2 key (below.parent (only.1.subtree fits))⟩

theorem OnlyLeaf.other (only : OnlyLeaf leaves (n + 1) p leaf) (fits : n < 256) :
    ∀ key, Below n (Smt.child n p !bitAt leaf.laneKey (255 - n)) key → leaves key = Hash.zero := by
  intro key below
  have sub := only.1.subtree fits
  refine only.2.2.2 key (below.parent sub) ?_
  rintro rfl
  exact below_children_disjoint sub (only.1.choose fits) below

theorem canon_eq_collapsed (sub : Subtree n p) : canon H leaves n p = .collapsed leaf ↔ OnlyLeaf leaves n p leaf := by
  induction n generalizing p with
  | zero =>
    simp only [canon, leafResult, OnlyLeaf, below_zero]
    by_cases absent : leaves p = Hash.zero
    · simp only [absent, ne_eq, not_true_eq_false, if_false, reduceCtorEq, false_iff]
      rintro ⟨rfl, value, nonzero, -⟩
      exact nonzero (value ▸ absent)
    · simp only [ne_eq, absent, not_false_eq_true, if_true, NodeResult.collapsed.injEq]
      constructor
      · rintro rfl
        exact ⟨rfl, rfl, absent, fun key same differ => absurd same differ⟩
      · rintro ⟨rfl, value, -, -⟩
        obtain ⟨laneKey, leafHash⟩ := leaf
        simp_all
  | succ n ih =>
    have side : ∀ right, canon H leaves n (child n p right) = .collapsed leaf ↔
        OnlyLeaf leaves n (child n p right) leaf :=
      fun right => ih sub.down
    have bare : ∀ right, canon H leaves n (child n p right) = .empty ↔
        ∀ key, Below n (child n p right) key → leaves key = Hash.zero :=
      fun right => canon_eq_empty sub.down
    rw [canon_succ, mergedNode_eq_collapsed, side, side, bare, bare]
    constructor
    · rintro (⟨only, other⟩ | ⟨other, only⟩)
      · exact onlyLeaf_succ sub only other
      · exact onlyLeaf_succ sub only other
    · -- the leaf is in one child, the other one has none
      intro only
      have here := only.child sub.fits
      have there := only.other sub.fits
      revert here there
      cases bitAt leaf.laneKey (255 - n) with
      | false => exact fun here there => .inl ⟨here, there⟩
      | true => exact fun here there => .inr ⟨there, here⟩

end

@[simp] theorem canon_noLeaves (sub : Subtree n p) : canon H noLeaves n p = .empty :=
  (canon_eq_empty sub).mpr fun _ _ => rfl

end Canonical

/-! ## Stores that hold a leaf map -/

/-- The leaves that still count below a position: those of an internal node. -/
def carried (H : SmtHasher) (leaves : LeafMap) (n : Nat) (p : Hash) : LeafMap :=
  match canon H leaves n p with
  | .internal _ => leaves
  | _ => noLeaves

/-- In the subtree of height `n` at `p` the store has exactly the nodes of `leaves`. -/
def Holds (H : SmtHasher) (view : SmtStore) : Nat → LeafMap → Hash → Prop
  | 0, _, _ => True
  | n + 1, leaves, p =>
    view ⟨255 - n, p⟩ = (canon H leaves (n + 1) p).node ∧
      ∀ right, Holds H view n (carried H leaves (n + 1) p) (child n p right)

/-- The store has exactly the nodes of the tree over `leaves`. -/
def Represents (H : SmtHasher) (store : SmtStore) (leaves : LeafMap) : Prop :=
  Holds H store 256 leaves Hash.zero

/-- The keys of the nodes of the subtree of height `n` at `p`. -/
def InTree (n : Nat) (p : Hash) (key : BranchKey) : Prop :=
  256 - n ≤ key.depth ∧ key.depth < 256 ∧ Below n p key.nodeKey ∧ firstBits key.depth key.nodeKey = key.nodeKey

/-- The nodes of the subtree of height `n` at `p`. -/
def NodeAt (H : SmtHasher) (leaves : LeafMap) : Nat → Hash → BranchKey → Node → Prop
  | 0, _, _, _ => False
  | n + 1, p, key, node =>
    key = ⟨255 - n, p⟩ ∧ (canon H leaves (n + 1) p).node = some node ∨
      ∃ hash, canon H leaves (n + 1) p = .internal hash ∧ ∃ right, NodeAt H leaves n (child n p right) key node

section Holding

variable {H : SmtHasher} {view view' : SmtStore} {leaves leaves' : LeafMap} {n : Nat} {p : Hash}
  {right : Bool} {key : BranchKey} {leaf : CollapsedLeaf} {node : Node}

theorem inTree_top (sub : Subtree (n + 1) p) : InTree (n + 1) p ⟨255 - n, p⟩ := by
  have position := sub.position
  rw [Below, depth_succ] at position
  exact ⟨depth_succ.le, Nat.sub_lt_succ 255 n, sub.position, position⟩

theorem not_inTree_zero : ¬ InTree 0 p key := fun inside => absurd inside.1 (by have := inside.2.1; omega)

section

variable (inside : InTree n (child n p right) key)

include inside

theorem InTree.parent (sub : Subtree (n + 1) p) : InTree (n + 1) p key :=
  ⟨by have := inside.1; omega, inside.2.1, inside.2.2.1.parent sub, inside.2.2.2⟩

theorem InTree.ne_top (fits : n < 256) : key ≠ ⟨255 - n, p⟩ := by
  rintro rfl
  have deep := inside.1
  simp only at deep
  omega

theorem InTree.disjoint (sub : Subtree (n + 1) p) : ¬ InTree n (child n p !right) key :=
  fun other => below_children_disjoint sub inside.2.2.1 other.2.2.1

end

theorem InTree.cases (inside : InTree (n + 1) p key) (fits : n < 256) :
    key = ⟨255 - n, p⟩ ∨ ∃ right, InTree n (child n p right) key := by
  obtain ⟨deep, small, below, cleared⟩ := inside
  rcases Nat.eq_or_lt_of_le deep with top | deeper
  · left
    have depth : key.depth = 255 - n := by omega
    obtain ⟨_, nodeKey⟩ := key
    simp only at depth below cleared
    subst depth
    have here : nodeKey = p := by
      rw [← cleared]
      simpa [Below, depth_succ] using below
    rw [here]
  · exact .inr ⟨_, by omega, small, below.choose fits, cleared⟩

theorem Holds.congr_view (holds : Holds H view n leaves p) (sub : Subtree n p)
    (same : ∀ key, InTree n p key → view' key = view key) : Holds H view' n leaves p := by
  induction n generalizing p leaves with
  | zero => trivial
  | succ n ih =>
    refine ⟨(same _ (inTree_top sub)).trans holds.1, fun right => ?_⟩
    exact ih (holds.2 right) sub.down fun key inside => same key (inside.parent sub)

theorem Holds.congr_leaves (holds : Holds H view n leaves p) (sub : Subtree n p) (same : ∀ key, Below n p key → leaves key = leaves' key) :
    Holds H view n leaves' p := by
  induction n generalizing p leaves leaves' with
  | zero => trivial
  | succ n ih =>
    have results : canon H leaves' (n + 1) p = canon H leaves (n + 1) p :=
      (canon_congr sub same).symm
    refine ⟨results ▸ holds.1, fun right => ?_⟩
    refine ih (holds.2 right) sub.down fun key below => ?_
    unfold carried
    rw [results]
    cases canon H leaves (n + 1) p with
    | internal hash => exact same key (below.parent sub)
    | empty => rfl
    | collapsed leaf => rfl

theorem holds_congr_view (sub : Subtree n p) (same : ∀ key, InTree n p key → view' key = view key) :
    Holds H view n leaves p ↔ Holds H view' n leaves p :=
  ⟨fun holds => holds.congr_view sub same, fun holds => holds.congr_view sub fun key there => (same key there).symm⟩

theorem holds_congr_leaves (sub : Subtree n p) (same : ∀ key, Below n p key → leaves key = leaves' key) :
    Holds H view n leaves p ↔ Holds H view n leaves' p :=
  ⟨fun holds => holds.congr_leaves sub same, fun holds => holds.congr_leaves sub fun key below => (same key below).symm⟩

theorem Holds.unique (holds : Holds H view n leaves p) (holds' : Holds H view' n leaves p)
    (fits : n ≤ 256) (inside : InTree n p key) : view key = view' key := by
  induction n generalizing p leaves with
  | zero => exact absurd inside not_inTree_zero
  | succ n ih =>
    rcases inside.cases fits with rfl | ⟨right, deeper⟩
    · exact holds.1.trans holds'.1.symm
    · exact ih (holds.2 right) (holds'.2 right) (by omega) deeper

theorem holds_noLeaves_iff (sub : Subtree n p) :
    Holds H view n noLeaves p ↔ ∀ key, InTree n p key → view key = none := by
  have bare : ∀ m q, Subtree m q → Holds H (fun _ => none) m noLeaves q := by
    intro m
    induction m with
    | zero => exact fun _ _ => trivial
    | succ m ih =>
      intro q sub
      have none : canon H noLeaves (m + 1) q = .empty := canon_noLeaves sub
      refine ⟨by rw [none]; rfl, fun right => ?_⟩
      rw [carried, none]
      exact ih _ sub.down
  constructor
  · intro holds key inside
    exact holds.unique (bare n p sub) sub.fits inside
  · intro absent
    exact (bare n p sub).congr_view sub absent

theorem carried_of_flat (flat : ∀ hash, canon H leaves n p ≠ .internal hash) : carried H leaves n p = noLeaves := by
  unfold carried
  split
  next hash result => exact absurd result (flat hash)
  · rfl

theorem carried_of_internal {hash : Hash} (branched : canon H leaves n p = .internal hash) :
    carried H leaves n p = leaves := by rw [carried, branched]

theorem branched_or_flat (result : NodeResult) : (∃ hash, result = .internal hash) ∨ ∀ hash, result ≠ .internal hash := by
  rw [← not_exists]
  exact em _

theorem holds_iff_of_flat (sub : Subtree (n + 1) p) (flat : ∀ hash, canon H leaves (n + 1) p ≠ .internal hash) :
    Holds H view (n + 1) leaves p ↔ view ⟨255 - n, p⟩ = (canon H leaves (n + 1) p).node ∧
        ∀ right key, InTree n (child n p right) key → view key = none := by
  rw [Holds, carried_of_flat flat]
  refine and_congr_right fun _ => forall_congr' fun right => ?_
  exact holds_noLeaves_iff sub.down

theorem Holds.onlyLeaf (holds : Holds H view n leaves p) (sub : Subtree n p)
    (inside : InTree n p key) (there : view key = some (.collapsed leaf)) :
    OnlyLeaf leaves (256 - key.depth) key.nodeKey leaf := by
  induction n generalizing p leaves with
  | zero => exact absurd inside not_inTree_zero
  | succ n ih =>
    rcases inside.cases sub.fits with rfl | ⟨right, deeper⟩
    · rw [holds.1] at there
      have result : canon H leaves (n + 1) p = .collapsed leaf := by
        cases was : canon H leaves (n + 1) p <;> simp_all [NodeResult.node]
      rw [show 256 - (255 - n) = n + 1 by have := sub.fits; omega]
      exact (canon_eq_collapsed sub).mp result
    · have below := ih (holds.2 right) sub.down deeper
      unfold carried at below
      split at below
      · exact below
      · exact absurd below.2.1.symm below.2.2.1

theorem NodeAt.inTree (there : NodeAt H leaves n p key node) (sub : Subtree n p) : InTree n p key := by
  induction n generalizing p with
  | zero => cases there
  | succ n ih =>
    rcases there with ⟨rfl, -⟩ | ⟨-, -, right, deeper⟩
    · exact inTree_top sub
    · exact (ih deeper sub.down).parent sub

theorem not_nodeAt_of_empty (bare : canon H leaves n p = .empty) : ¬ NodeAt H leaves n p key node := by
  cases n with
  | zero => exact id
  | succ n =>
    rintro (⟨-, here⟩ | ⟨hash, branched, -⟩)
    · simp [bare, NodeResult.node] at here
    · simp [bare] at branched

theorem nodeAt_of_collapsed (lone : canon H leaves (n + 1) p = .collapsed leaf) :
    NodeAt H leaves (n + 1) p key node ↔ key = ⟨255 - n, p⟩ ∧ node = .collapsed leaf := by
  simp only [NodeAt, lone, NodeResult.node, Option.some.injEq, reduceCtorEq, false_and, exists_const, or_false]
  exact and_congr_right fun _ => eq_comm

theorem Holds.nodeAt_iff (holds : Holds H view n leaves p) (sub : Subtree n p) (inside : InTree n p key) :
    view key = some node ↔ NodeAt H leaves n p key node := by
  induction n generalizing p leaves with
  | zero => exact absurd inside not_inTree_zero
  | succ n ih =>
    rcases inside.cases sub.fits with rfl | ⟨right, deeper⟩
    · rw [holds.1]
      refine ⟨fun here => .inl ⟨rfl, here⟩, ?_⟩
      rintro (⟨-, here⟩ | ⟨-, -, right, below⟩)
      · exact here
      · have there := below.inTree sub.down
        exact absurd rfl (there.ne_top sub.fits)
    · rw [ih (holds.2 right) sub.down deeper]
      rcases branched_or_flat (canon H leaves (n + 1) p) with ⟨hash, result⟩ | flat
      · rw [carried_of_internal result]
        refine ⟨fun below => .inr ⟨hash, result, right, below⟩, ?_⟩
        rintro (⟨top, -⟩ | ⟨-, -, side, below⟩)
        · exact absurd top (deeper.ne_top sub.fits)
        · have there := below.inTree sub.down
          have same : side = right := by
            by_contra differ
            have flipped : side = !right := by cases side <;> cases right <;> simp_all
            exact deeper.disjoint sub (flipped ▸ there)
          exact same ▸ below
      · rw [carried_of_flat flat]
        refine iff_of_false (not_nodeAt_of_empty (canon_noLeaves sub.down)) ?_
        rintro (⟨top, -⟩ | ⟨hash, result, -⟩)
        · exact deeper.ne_top sub.fits top
        · exact flat hash result

end Holding

end Marigold.Smt
